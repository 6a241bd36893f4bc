import Seminars.Dlmalloc.Run

/-!
# Seminars.Dlmalloc.Walk — the blocks and the free list as the program sees them

Everything here is said about the heap itself: `Walk h a l e` follows `after()` from `a` to `e`, `FreeList h l`
follows the links from `flist`.  A heap that holds a layout has one walk from `arena` to the sentinel and one
free list, those of the layout (`Rep.blocks`, `Rep.blocks_unique`, `Rep.freeList`, `FreeList.unique`).
-/

namespace Seminars.Dlmalloc

open Lib BlockMem

variable {μ L V : Type} [BlockMem μ L V]

/-- Following `after()` from `a` passes the blocks `l` and arrives at `e`. -/
inductive Walk (h : Heap μ) : ℕ → List ℕ → ℕ → Prop
  | done {a : ℕ} : Walk h a [] a
  | step {a b e : ℕ} {l : List ℕ} : (after a).run h = .ok (b, h) → Walk h b l e → Walk h a (a :: l) e

/-- The blocks of the heap at `arena`, in physical order, up to the sentinel. -/
def Blocks (h : Heap μ) (l : List ℕ) : Prop := Walk h h.arena l (h.arena + (ARENA - HEAD))

/-- The members of the free list, in its order. -/
structure FreeList (h : Heap μ) (l : List ℕ) : Prop where
  links : Linked NULL (nxt h) (prv h) l
  nodup : l.Nodup
  null : NULL ∉ l

theorem FreeList.unique {h : Heap μ} {l l' : List ℕ} (hl : FreeList h l) (hl' : FreeList h l') : l = l' :=
  hl.links.unique hl'.links hl.null hl'.null

theorem after_ok {h : Heap μ} {a b : ℕ} (hr : (after a).run h = .ok (b, h)) : b = a + val h a .size + HEAD := by
  by_cases h0 : a = NULL
  · have h1 : (after a).run h = .error .null := run_bind_error (if_pos h0)
    rw [h1] at hr
    exact absurd hr (by simp)
  · by_cases hin : inside h a .size
    · exact ((runs_after h0 hin ⟨rfl, rfl⟩ : Runs (after a) h fun p k => p = _ ∧ k = h).of_eq hr).1
    · have h1 : (after a).run h = .error .outside := run_bind_error ((if_neg h0).trans (if_neg hin))
      rw [h1] at hr
      exact absurd hr (by simp)

theorem Walk.le {h : Heap μ} {a e : ℕ} {l : List ℕ} (hw : Walk h a l e) : a ≤ e := by
  induction hw with
  | done => exact le_rfl
  | step hr _ ih =>
    have := after_ok hr
    omega

theorem Walk.unique {h : Heap μ} {a e : ℕ} {l l' : List ℕ} (hw : Walk h a l e) (hw' : Walk h a l' e) : l = l' := by
  induction hw generalizing l' with
  | done =>
    cases hw' with
    | done => rfl
    | step hr hw' =>
      have h1 := after_ok hr
      have h2 := hw'.le
      simp only [HEAD] at h1
      omega
  | @step a b e l hr hw ih =>
    cases hw' with
    | done =>
      have h1 := after_ok hr
      have h2 := hw.le
      simp only [HEAD] at h1
      omega
    | step hr' hw' =>
      rw [after_ok hr'] at hw'
      rw [after_ok hr] at ih
      rw [ih hw']

section Rep

variable {m : Mapping} {A : Layout m.base (room μ)} {h : Heap μ}

theorem Rep.walk_of (pre : List Blk) {l : List Blk} (hR : Rep m h A) (hA : A.blocks = pre ++ l) {a : ℕ}
    (ht : Tiled a l (m.base + (ARENA - HEAD))) : Walk h a (l.map Blk.addr) (m.base + (ARENA - HEAD)) := by
  induction l generalizing pre a with
  | nil => exact (show a = _ from ht) ▸ .done
  | cons b l ih =>
    obtain ⟨rfl, ht⟩ := ht
    have hb : b ∈ A.all := A.mem_all_of_mem (by rw [hA]; simp)
    obtain ⟨p, k, hr, rfl, rfl⟩ : Runs (after b.addr) h fun p k => p = b.addr + val h b.addr .size + HEAD ∧ k = h :=
      runs_after (A.addr_pos m.pos hb) (Layout.inside hR.mapped hb (.inl rfl)) ⟨rfl, rfl⟩
    refine .step hr ?_
    rw [(hR.headers.mem hb).2]
    exact ih (pre ++ [b]) (by rw [hA]; simp) ht

theorem Rep.blocks (hR : Rep m h A) : Blocks h (A.blocks.map Blk.addr) := by
  unfold Blocks
  rw [hR.arena]
  exact hR.walk_of [] rfl A.tiled

theorem Rep.blocks_unique (hR : Rep m h A) {l : List ℕ} (hl : Blocks h l) : l = A.blocks.map Blk.addr :=
  Walk.unique hl hR.blocks

theorem Rep.freeList (hR : Rep m h A) : FreeList h (A.flist.map Blk.addr) :=
  ⟨hR.links, nodup_addr (List.Subset.refl _) A.nodup, null_notMem (List.Subset.refl _)⟩

end Rep

end Seminars.Dlmalloc
