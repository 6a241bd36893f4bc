import Seminars.Dlmalloc.Merged

/-!
# Seminars.Dlmalloc.Report — the functions that report on the heap

`traverseblocks` walks the arena, `freelistlength`, `sizes` and `sanity` walk the free list.

* `InOrder`: rows that follow one another without gaps, each repeating the size and the status of the one before.
* `reports_agree`: in every reachable heap the four reports agree with one another and with the pointers in use.
-/

namespace Seminars.Dlmalloc

open Lib BlockMem

/-! ### Rows -/

/-- **The rows describe blocks of legal size from `a` to `e`** behind a block of status `pf` and size `ps`. -/
def InOrder (pf ps a : ℕ) : List Row → ℕ → Prop
  | [], e => a = e
  | r :: l, e => r.address = a ∧ r.bfree = pf ∧ r.bsize = ps ∧ (r.free = TRUE ∨ r.free = FALSE) ∧
      (r.size % ALIGN = 0 ∧ 16 ≤ r.size) ∧ InOrder r.free r.size (a + r.size + HEAD) l e

section Rows

variable {pf : Bool} {ps a e : ℕ} {l : List Blk}

theorem inOrder_rowsOf (ht : Tiled a l e) (hl : ∀ b ∈ l, b.size % ALIGN = 0 ∧ 16 ≤ b.size) :
    InOrder pf.toNat ps a (rowsOf pf ps l) e := by
  induction l generalizing pf ps a with
  | nil => exact ht
  | cons b l ih =>
    obtain ⟨rfl, ht⟩ := ht
    refine ⟨rfl, rfl, rfl, ?_, hl b (by simp), ih ht fun c hc => hl c (List.mem_cons_of_mem _ hc)⟩
    show b.free.toNat = 1 ∨ b.free.toNat = 0
    cases b.free <;> simp

theorem free_toNat (v : Bool) : v.toNat = TRUE ↔ v = true := by
  cases v <;> decide

theorem countP_rowsOf : (rowsOf pf ps l).countP (·.free = TRUE) = l.countP (·.free) := by
  induction l generalizing pf ps with
  | nil => rfl
  | cons b l ih =>
    rw [rowsOf, List.countP_cons, List.countP_cons, ih]
    simp only [decide_eq_true_eq, free_toNat]

theorem sizes_rowsOf : ((rowsOf pf ps l).filter (·.free = TRUE)).map Row.size = (l.filter (·.free)).map Blk.size := by
  induction l generalizing pf ps with
  | nil => rfl
  | cons b l ih =>
    rw [rowsOf, List.filter_cons, List.filter_cons]
    cases hb : b.free with
    | true =>
      rw [if_pos (by simp [TRUE]), if_pos rfl, List.map_cons, List.map_cons]
      exact congrArg _ ih
    | false =>
      rw [if_neg (by simp [TRUE]), if_neg (by simp)]
      exact ih

theorem mem_rowsOf (p : ℕ) : (∃ r ∈ rowsOf pf ps l, r.free = FALSE ∧ p = r.address + HEAD) ↔
    ∃ b ∈ l, b.free = false ∧ p = b.addr + HEAD := by
  induction l generalizing pf ps with
  | nil => simp [rowsOf]
  | cons b l ih =>
    have hb : b.free.toNat = FALSE ↔ b.free = false := by cases b.free <;> decide
    simp only [rowsOf, List.mem_cons, exists_eq_or_imp, ih, hb]

theorem sum_rowsOf (ht : Tiled a l e) : ((rowsOf pf ps l).map fun r => r.size + HEAD).sum = e - a := by
  induction l generalizing pf ps a with
  | nil =>
    obtain rfl : a = e := ht
    exact (Nat.sub_self a).symm
  | cons b l ih =>
    obtain ⟨rfl, ht⟩ := ht
    have hle := ht.le
    rw [rowsOf, List.map_cons, List.sum_cons, ih ht]
    simp only [Blk.fin] at hle ⊢
    omega

end Rows

/-! ### Walks -/

section Look

variable {μ L V : Type} [BlockMem μ L V] {m : Mapping} {A : Layout m.base (room μ)} {h : Heap μ}

theorem sanity_null (hf : h.flist = NULL) : sanity.run h = .error .null := by
  have hrd : (rd h.flist .prev : M μ ℕ).run h = .error .null := if_pos hf
  unfold sanity
  exact (run_bind_ok rfl).trans (run_bind_error hrd)

end Look

/-! ### Every reachable heap -/

section Run

variable {μ L V : Type} [BlockMem μ L V] {m : Mapping} {s : Session μ} {tr : List (Session μ × Call)}

/-- **The reports agree.**  In every reachable heap `traverseblocks` prints rows that describe the whole arena;
`freelistlength` is the number of the rows that are free, `sizes` writes sizes of free rows, all of them when it has
room for them; the program holds the payloads of the other rows; and `sanity` is content, unless no row is free: then it
reads through `NULL`. -/
theorem reports_agree (hst : Started m tr s) (hreq : ∀ t n, (t, .dalloc n) ∈ tr → 16 ≤ n ∧ n ≤ 2 ^ 30) :
    ∃ rows, Runs traverseblocks s.heap (fun v h' => v = rows ∧ h' = s.heap) ∧
      InOrder FALSE 0 m.base rows (m.base + (ARENA - HEAD)) ∧
      (rows.map fun r => r.size + HEAD).sum = ARENA - HEAD ∧
      Runs freelistlength s.heap (fun k h' => k = rows.countP (·.free = TRUE) ∧ h' = s.heap) ∧
      (∀ max, Runs (sizes max) s.heap fun v h' => v.Subperm ((rows.filter (·.free = TRUE)).map Row.size) ∧
        v.length = min max (rows.countP (·.free = TRUE)) ∧ h' = s.heap) ∧
      (∀ p, p ∈ s.live ↔ ∃ r ∈ rows, r.free = FALSE ∧ p = r.address + HEAD) ∧
      (0 < rows.countP (·.free = TRUE) →
        Runs sanity s.heap fun t h' => t = complete ∧ h' = s.heap) ∧
      (rows.countP (·.free = TRUE) = 0 → sanity.run s.heap = .error .null) := by
  obtain ⟨A, hh, hreg⟩ := hst.regular hreq
  have hR := hh.rep
  have hperm : A.flist.Perm (A.blocks.filter (·.free)) :=
    (List.perm_ext_iff_of_nodup A.nodup (A.tiled.nodup.filter _)).mpr fun b => by rw [A.mem_flist, List.mem_filter]
  have hrows : InOrder false.toNat 0 m.base (rowsOf false 0 A.blocks) (m.base + (ARENA - HEAD)) :=
    inOrder_rowsOf A.tiled hreg
  refine ⟨rowsOf false 0 A.blocks, traverse_rows hR hreg, hrows, ?_, ?_, ?_, ?_, ?_, ?_⟩
  · rw [sum_rowsOf A.tiled]
    omega
  · rw [countP_rowsOf, ← A.length_flist]
    exact length_spec hR
  · intro max
    refine Runs.imp ?_ (sizes_spec hR max)
    rintro v h' ⟨rfl, rfl⟩
    -- `sizes` stops after `max` blocks of the list, which need not be the walk's order
    refine ⟨?_, ?_, rfl⟩
    · rw [sizes_rowsOf]
      exact (List.take_sublist _ _).subperm.trans (hperm.map _).subperm
    · rw [countP_rowsOf, ← A.length_flist, List.length_take, List.length_map]
  · intro p
    rw [hh.live, mem_rowsOf]
    exact Iff.rfl
  · intro hpos
    rw [countP_rowsOf, ← A.length_flist] at hpos
    -- `flist` is not NULL, as some block is free
    refine sanity_spec hR hreg fun h0 => ?_
    rw [hR.flist_eq] at h0
    cases hf : A.flist with
    | nil =>
      rw [hf] at hpos
      exact absurd hpos (by simp)
    | cons b k =>
      rw [hf, head_cons] at h0
      exact A.addr_pos m.pos (A.mem_all_of_flist (by rw [hf]; simp)) h0
  · intro h0
    rw [countP_rowsOf, ← A.length_flist, List.length_eq_zero_iff] at h0
    -- with nothing free `flist` is NULL, and `sanity` reads its `prev`
    refine sanity_null ?_
    rw [hR.flist_eq, h0]
    rfl

/-- Two blocks in use, one freed, and the rest of the arena. -/
theorem reports_agree_three : ∃ (tr : List (Session Bytes × Call)) (s : Session Bytes),
    tr.map Prod.snd = [.dalloc 24, .dalloc 40, .dalloc 16, .dfree 69552] ∧ Started .second tr s ∧
    ∃ rows, Runs traverseblocks s.heap (fun v h' => v = rows ∧ h' = s.heap) ∧
      InOrder FALSE 0 Mapping.second.base rows (Mapping.second.base + (ARENA - HEAD)) ∧
      (rows.map fun r => r.size + HEAD).sum = ARENA - HEAD ∧
      Runs freelistlength s.heap (fun k h' => k = rows.countP (·.free = TRUE) ∧ h' = s.heap) ∧
      (∀ max, Runs (sizes max) s.heap fun v h' => v.Subperm ((rows.filter (·.free = TRUE)).map Row.size) ∧
        v.length = min max (rows.countP (·.free = TRUE)) ∧ h' = s.heap) ∧
      (∀ p, p ∈ s.live ↔ ∃ r ∈ rows, r.free = FALSE ∧ p = r.address + HEAD) ∧
      (0 < rows.countP (·.free = TRUE) →
        Runs sanity s.heap fun t h' => t = complete ∧ h' = s.heap) ∧
      (rows.countP (·.free = TRUE) = 0 → sanity.run s.heap = .error .null) := by
  obtain ⟨tr, s, htr, hst, -⟩ := exists_started .second (fun _ => 0 : Bytes)
    [.dalloc 24, .dalloc 40, .dalloc 16, .dfree 69552] (fun _ => true) (by decide +kernel)
  refine ⟨tr, s, htr, hst, reports_agree hst fun t n hm => ?_⟩
  have hn := mem_labels htr hm
  simp at hn
  omega

end Run

end Seminars.Dlmalloc
