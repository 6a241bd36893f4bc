import Mathlib.Order.Bounds.Basic
import Seminars.Dlmalloc.Invariant

/-!
# Seminars.Dlmalloc.Aligned — alignment of the pointers `dalloc` returns

Blocks are cut from the end of a free block, so one request of a size that is no multiple of `ALIGN` shifts every
later block of the same free block.  `adjust` rounds every request from 16 bytes on; below that it returns the
request as it is (`return size`, not `minsize`).

* `Rounded n`: what the comment of `adjust` says about `n`; `rounded_iff`: true from 16 bytes on.
* `aligned_iff`: the runs in which all requests are rounded and all pointers aligned.
-/

namespace Seminars.Dlmalloc

open Lib BlockMem

/-- The size `find` is asked for is the least multiple of `ALIGN` that is not smaller than the request and `MIN(0)`. -/
def Rounded (n : ℕ) : Prop := IsLeast {r | ALIGN ∣ r ∧ n ≤ r ∧ MIN 0 ≤ r} (sizeT (adjust n))

theorem rounded_iff {n : ℕ} (hn : n ≤ 2 ^ 30) : Rounded n ↔ 16 ≤ n := by
  constructor
  · rintro ⟨⟨-, -, hmin⟩, -⟩
    by_contra hlt
    rw [adjust_small (by omega), sizeT_eq (by omega)] at hmin
    exact hlt hmin
  · intro h16
    have hadj := adjust_regular h16 hn
    refine ⟨⟨?_, ?_, ?_⟩, ?_⟩
    · rw [hadj]
      exact Dvd.intro_left _ rfl
    · rw [hadj]
      omega
    · rw [hadj]
      show 16 ≤ _
      omega
    · rintro r ⟨⟨k, rfl⟩, hr, -⟩
      rw [hadj]
      simp only [ALIGN] at hr ⊢
      omega

/-- Blocks whose sizes are multiples of `ALIGN` begin at such offsets. -/
theorem Tiled.aligned {a e : ℕ} {l : List Blk} (ht : Tiled a l e) (hsize : ∀ b ∈ l, b.size % ALIGN = 0) :
    ∀ b ∈ l, ALIGN ∣ b.addr - a := by
  induction l generalizing a with
  | nil => exact fun b hb => absurd hb (by simp)
  | cons c l ih =>
    obtain ⟨rfl, ht⟩ := ht
    intro b hb
    rcases List.mem_cons.mp hb with rfl | hb
    · simp
    · have hoff := ih ht (fun d hd => hsize d (List.mem_cons_of_mem _ hd)) b hb
      have hc := hsize c (by simp)
      have hle := (ht.mem hb).1
      simp only [Blk.fin, HEAD, ALIGN] at hoff hc hle ⊢
      omega

section Run

variable {m : Mapping}

/-- **When all pointers are aligned**: with header and link fields apart from those of the neighbours, every request of
a run is rounded as the comment says, and gets an aligned pointer or none, exactly when no request is below 16. -/
theorem aligned_iff {tr : List (Session Cells × Call)} {s : Session Cells} (hst : Started m tr s)
    (hreq : ∀ t n, (t, .dalloc n) ∈ tr → 1 ≤ n ∧ n ≤ 65520) :
    (∀ t n, (t, .dalloc n) ∈ tr → Rounded n ∧ Runs (dalloc n) t.heap fun p _ => p ≠ NULL → ALIGN ∣ p - m.base) ↔
      ∀ t n, (t, .dalloc n) ∈ tr → 16 ≤ n := by
  have hmax : ∀ t n, (t, Call.dalloc n) ∈ tr → n ≤ 2 ^ 30 := fun t n hm => (hreq t n hm).2.trans (by decide)
  constructor
  · exact fun hall t n hm => (rounded_iff (hmax t n hm)).mp (hall t n hm).1
  · intro h16 t n hm
    have hn := h16 t n hm
    refine ⟨(rounded_iff (hmax t n hm)).mpr hn, ?_⟩
    -- the layout before the request is regular, and so is the one after it
    obtain ⟨tr₁, t', tr₂, htr, h1, -, -⟩ := hst.cut hm
    have hsub : ∀ u k, (u, Call.dalloc k) ∈ tr₁ → (u, Call.dalloc k) ∈ tr := by
      intro u k hu
      rw [htr]
      exact List.mem_append_left _ hu
    obtain ⟨A, hh, hreg⟩ := h1.regular fun u k hu => ⟨h16 u k (hsub u k hu), hmax u k (hsub u k hu)⟩
    have hn0 : n ≠ 0 := by omega
    refine Runs.imp ?_ (dalloc_spec hh.rep hn0)
    rintro p h' ⟨A', C, ht, -, -, -⟩ hp
    have hreg' : Regular A' := (Move.dalloc hn0 ht).regular hreg fun k hk => by
      obtain rfl := Call.dalloc.inj hk
      exact ⟨hn, hmax t n hm⟩
    obtain ⟨b, hb, -, rfl, -⟩ := ht.block hp
    have hoff := A'.tiled.aligned (fun c hc => (hreg' c hc).1) b hb
    have hle := (A'.tiled.mem hb).1
    rw [Nat.sub_add_comm hle]
    exact Nat.dvd_add hoff (dvd_refl _)

/-- The equivalence for three requests and a free. -/
theorem aligned_iff_four : ∃ (tr : List (Session Cells × Call)) (s : Session Cells),
    tr.map Prod.snd = [.dalloc 24, .dalloc 33, .dfree 69600, .dalloc 8] ∧ Started .second tr s ∧
      ((∀ t n, (t, .dalloc n) ∈ tr → Rounded n ∧
          Runs (dalloc n) t.heap fun p _ => p ≠ NULL → ALIGN ∣ p - Mapping.second.base) ↔
        ∀ t n, (t, .dalloc n) ∈ tr → 16 ≤ n) := by
  obtain ⟨tr, s, htr, hst, -⟩ := exists_started .second (fun _ _ => 0 : Cells)
    [.dalloc 24, .dalloc 33, .dfree 69600, .dalloc 8] (fun _ => true) (by decide +kernel)
  refine ⟨tr, s, htr, hst, aligned_iff hst fun t n hm => ?_⟩
  have hn := mem_labels htr hm
  simp at hn
  omega

/-- A request of one byte is passed on as it is, and its block begins at an odd offset. -/
theorem misaligned : ∃ (tr : List (Session Cells × Call)) (s : Session Cells) (p : ℕ),
    tr.map Prod.snd = [.dalloc 1] ∧ Started .second tr s ∧ p ∈ s.live ∧ ¬ ALIGN ∣ p - Mapping.second.base ∧
      ¬ Rounded 1 := by
  obtain ⟨tr, s, htr, hst, hc⟩ := exists_started .second (fun _ _ => 0 : Cells) [.dalloc 1]
    (fun s => decide (69623 ∈ s.live)) (by decide +kernel)
  refine ⟨tr, s, 69623, htr, hst, of_decide_eq_true hc, by decide, fun hr => ?_⟩
  exact absurd ((rounded_iff (by decide)).mp hr) (by decide)

end Run

end Seminars.Dlmalloc
