import Seminars.Dlmalloc.Code
import Seminars.Lib.RunLogic

/-!
# Seminars.Dlmalloc.Access — one field access

What a store does to the values of all fields (`val_put_self`, `Changes.val_eq`), and the rules that run a read
or a write inside the arena (`runs_rd`, `runs_wr`, `runs_after`).

`Changes h h' C`: going from `h` to `h'` stored into cells of `C` only, truncated nothing and kept the mapping.
-/

namespace Seminars.Dlmalloc

open Lib

variable {μ L V : Type} [BlockMem μ L V]

namespace Heap

theorem wrap_nat {p n : ℕ} {f : Field} (hn : n < 2 ^ (8 * f.width)) : FootMem.wrap μ (p, f) (n : ℤ) = n := by
  rw [BlockMem.wrap_eq, ← Int.natCast_emod, Int.toNat_natCast, Nat.mod_eq_of_lt hn]

theorem put_truncated {h : Heap μ} {p n : ℕ} {f : Field} (hn : n < 2 ^ (8 * f.width)) :
    (h.put p f n).truncated = h.truncated := by
  simp [Heap.put, wrap_nat hn]

theorem val_put_self {h : Heap μ} {p n : ℕ} {f : Field} (hn : n < 2 ^ (8 * f.width)) :
    val (h.put p f n) p f = n := (FootMem.load_store _ _ _).trans (wrap_nat hn)

theorem val_put_apart {h : Heap μ} {p q : ℕ} {f g : Field} {v : ℤ} (ha : FootMem.Apart μ (q, g) (p, f)) :
    val (h.put p f v) q g = val h q g :=
  (FootMem.Frame.store h.mem (p, f) v).load_eq (by rintro _ rfl; exact ha)

end Heap

@[simp] theorem inside_put {h : Heap μ} {p q : ℕ} {f g : Field} {v : ℤ} :
    inside (h.put p f v) q g ↔ inside h q g := Iff.rfl

@[simp] theorem val_flist {h : Heap μ} {p q : ℕ} {f : Field} : val { h with flist := q } p f = val h p f := rfl

/-! ### What a stretch of code stored -/

/-- From `h` to `h'` only cells of `C` were stored into, nothing was truncated, the mapping was kept. -/
structure Changes (h h' : Heap μ) (C : Set (ℕ × Field)) : Prop where
  frame : FootMem.Frame h.mem h'.mem C
  mapped : h'.mapped = h.mapped
  arena : h'.arena = h.arena
  truncated : h'.truncated = h.truncated

namespace Changes

variable {h h' h'' : Heap μ} {C D : Set (ℕ × Field)}

theorem refl (h : Heap μ) (C : Set (ℕ × Field)) : Changes h h C := ⟨FootMem.Frame.refl _ _, rfl, rfl, rfl⟩

theorem mono (hc : Changes h h' C) (hCD : C ⊆ D) : Changes h h' D :=
  ⟨hc.frame.mono hCD, hc.mapped, hc.arena, hc.truncated⟩

theorem trans (hc : Changes h h' C) (hc' : Changes h' h'' C) : Changes h h'' C :=
  ⟨hc.frame.trans hc'.frame, hc'.mapped.trans hc.mapped, hc'.arena.trans hc.arena,
    hc'.truncated.trans hc.truncated⟩

theorem put {p n : ℕ} {f : Field} (h : Heap μ) (hn : n < 2 ^ (8 * f.width)) (hm : (p, f) ∈ C) :
    Changes h (h.put p f n) C :=
  ⟨(FootMem.Frame.store h.mem (p, f) n).mono (by rintro _ rfl; exact hm), rfl, rfl, Heap.put_truncated hn⟩

theorem flist (h : Heap μ) (p : ℕ) (C : Set (ℕ × Field)) : Changes h { h with flist := p } C :=
  ⟨FootMem.Frame.refl _ _, rfl, rfl, rfl⟩

theorem val_eq {p : ℕ} {f : Field} (hc : Changes h h' C) (hp : ∀ d ∈ C, FootMem.Apart μ (p, f) d) :
    val h' p f = val h p f := hc.frame.load_eq hp

theorem inside_iff {p : ℕ} {f : Field} (hc : Changes h h' C) : inside h' p f ↔ inside h p f := by
  unfold inside; rw [hc.mapped]

end Changes

/-! ### Rules -/

variable {h : Heap μ} {p : ℕ} {f : Field} {ρ : Type}

theorem runs_rd {Q : ℕ → Heap μ → Prop} (hp : p ≠ NULL) (hin : inside h p f) (hQ : Q (val h p f) h) :
    Runs (rd p f) h Q :=
  ⟨_, _, (if_neg hp).trans (if_pos hin), hQ⟩

theorem runs_wr {v : ℤ} {Q : Unit → Heap μ → Prop} (hp : p ≠ NULL) (hin : inside h p f)
    (hQ : Q () (h.put p f v)) : Runs (wr p f v) h Q :=
  ⟨_, _, (if_neg hp).trans (if_pos hin), hQ⟩

theorem runs_after {Q : ℕ → Heap μ → Prop} (hp : p ≠ NULL) (hin : inside h p .size)
    (hQ : Q (p + val h p .size + HEAD) h) : Runs (after p) h Q :=
  runs_bind (runs_rd hp hin (runs_pure hQ))

end Seminars.Dlmalloc
