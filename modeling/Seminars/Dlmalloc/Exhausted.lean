import Seminars.Dlmalloc.Invariant

/-!
# Seminars.Dlmalloc.Exhausted — when `dalloc` returns `NULL`

The search of `find` walks the free list.  `fails_iff` says what it finds in terms of the physical arena: the
blocks on the walk of `after()`, their flags and their sizes.
-/

namespace Seminars.Dlmalloc

open Lib BlockMem

variable {μ L V : Type} [BlockMem μ L V] {m : Mapping} {s : Session μ} {tr : List (Session μ × Call)}

/-- A bound on the free blocks is a bound on the blocks of the walk whose flag says they are free. -/
theorem Rep.free_blocks {A : Layout m.base (room μ)} {h : Heap μ} (hR : Rep m h A) (r : ℕ) :
    (∀ c ∈ A.flist, c.size < r) ↔ ∀ b ∈ A.blocks.map Blk.addr, val h b .free = TRUE → val h b .size < r := by
  have hmem : ∀ b ∈ A.blocks, val h b.addr .free = b.free.toNat ∧ val h b.addr .size = b.size :=
    fun b hb => hR.headers.mem (A.mem_all_of_mem hb)
  constructor
  · intro hall p hp hfree
    obtain ⟨b, hb, rfl⟩ := List.mem_map.mp hp
    obtain ⟨hf, hs⟩ := hmem b hb
    rw [hf] at hfree
    rw [hs]
    refine hall b ((A.mem_flist b).mpr ⟨hb, ?_⟩)
    cases hbf : b.free with
    | true => rfl
    | false => exact absurd (hbf ▸ hfree) (by decide)
  · intro hall c hc
    obtain ⟨hcA, hcf⟩ := (A.mem_flist c).mp hc
    obtain ⟨hf, hs⟩ := hmem c hcA
    have hlt := hall c.addr (List.mem_map_of_mem hcA) (by rw [hf, hcf]; rfl)
    rwa [hs] at hlt

/-- **`dalloc` fails exactly when it must**: when nothing is asked for, or when no free block anywhere in the arena is
large enough.  It then leaves the whole heap as it was. -/
theorem fails_iff (hst : Started m tr s) (hreq : ∀ t k, (t, .dalloc k) ∈ tr → 16 ≤ k ∧ k ≤ 2 ^ 30) (n : ℕ)
    (hn : n = 0 ∨ 16 ≤ n ∧ n ≤ 2 ^ 30) :
    ∃ l, Blocks s.heap l ∧ Runs (dalloc n) s.heap (fun p h' =>
      (p = NULL ↔ n = 0 ∨ ∀ b ∈ l, val s.heap b .free = TRUE → val s.heap b .size < (n + 7) / 8 * 8) ∧
      (p = NULL → h' = s.heap)) := by
  obtain ⟨A, hh, -⟩ := hst.regular hreq
  refine ⟨_, hh.rep.blocks, ?_⟩
  rcases hn with rfl | ⟨h16, hmax⟩
  · refine Runs.imp ?_ dalloc_zero
    rintro p h' ⟨rfl, rfl⟩
    exact ⟨⟨fun _ => .inl rfl, fun _ => rfl⟩, fun _ => rfl⟩
  · have hn0 : n ≠ 0 := by omega
    refine Runs.imp ?_ (dalloc_spec hh.rep hn0)
    rintro p h' ⟨A', C, ht, -, -, hsame⟩
    rw [adjust_regular h16 hmax] at ht
    refine ⟨?_, hsame⟩
    rw [ht.null_iff, hh.rep.free_blocks]
    exact ⟨.inr, fun h => h.resolve_left hn0⟩

/-- The equivalence for a request on a heap of three blocks, the last of which was freed. -/
theorem fails_iff_three : ∃ (tr : List (Session Bytes × Call)) (s : Session Bytes),
    tr.map Prod.snd = [.dalloc 24, .dalloc 65432, .dfree 69600] ∧ Started .second tr s ∧
      ∃ l, Blocks s.heap l ∧ Runs (dalloc 40) s.heap (fun p h' =>
        (p = NULL ↔ 40 = 0 ∨ ∀ b ∈ l, val s.heap b .free = TRUE → val s.heap b .size < (40 + 7) / 8 * 8) ∧
        (p = NULL → h' = s.heap)) := by
  obtain ⟨tr, s, htr, hst, -⟩ := exists_started .second (fun _ => 0 : Bytes)
    [.dalloc 24, .dalloc 65432, .dfree 69600] (fun _ => true) (by decide +kernel)
  refine ⟨tr, s, htr, hst, fails_iff hst (fun t k hm => ?_) 40 (.inr (by decide))⟩
  have hk := mem_labels htr hm
  simp at hk
  omega

end Seminars.Dlmalloc
