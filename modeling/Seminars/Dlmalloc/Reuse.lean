import Seminars.Dlmalloc.Invariant

/-!
# Seminars.Dlmalloc.Reuse — free, then allocate the same size again

`dfree` puts a block in front of the free list, so the next request that fits it, and would not split it, gets it
back.  On layouts the two steps cancel (`Took.release_cancel`); memory that holds a layout has no other choice of
headers and links (`Rep.agree`), so they cancel in memory.
-/

namespace Seminars.Dlmalloc

open Lib BlockMem

section Layout

variable {base room : ℕ} {A A' B : Layout base room} {pre post l₁ l₂ : List Blk} {b : Blk} {r p : ℕ}
  {C : Set (ℕ × Field)}

theorem Layout.eq_of (h1 : A.blocks = B.blocks) (h2 : A.flist = B.flist) : A = B := by
  cases A
  cases B
  simp only at h1 h2
  subst h1 h2
  rfl

/-- First fit on a list whose first block is large enough takes that block. -/
theorem first_of_fits {c : Blk} {l : List Blk} (h : c :: l = l₁ ++ b :: l₂) (hfirst : ∀ d ∈ l₁, d.size < r)
    (hc : r ≤ c.size) : l₁ = [] ∧ b = c ∧ l₂ = l := by
  cases l₁ with
  | nil =>
    obtain ⟨rfl, rfl⟩ := List.cons.inj h
    exact ⟨rfl, rfl, rfl⟩
  | cons d l₁ =>
    obtain ⟨rfl, -⟩ := List.cons.inj h
    exact absurd (hfirst c (by simp)) (not_lt.mpr hc)

/-- **Freeing a block and taking it again are the identity** on layouts, unless the block would be split. -/
theorem Took.release_cancel (h : A.blocks = pre ++ b :: post) (hb : b.free = false) (hr : room ≤ b.size)
    (ht : Took (A.release h hb hr) r p A' C) (h1 : r ≤ b.size) (h2 : b.size < r + HEAD + 16) :
    p = b.addr + HEAD ∧ A' = A := by
  have hfl : (A.release h hb hr).flist = { b with free := true } :: A.flist := rfl
  have hbl : (A.release h hb hr).blocks = pre ++ { b with free := true } :: post := rfl
  cases ht with
  | none hno =>
    have hlt := hno { b with free := true } (by rw [hfl]; simp)
    exact absurd hlt (not_lt.mpr h1)
  | carve hb' hf hfirst hsize hroom =>
    obtain ⟨-, rfl, -⟩ := first_of_fits (hfl.symm.trans hf) hfirst h1
    exact absurd hsize (not_le.mpr h2)
  | @claim pre' post' l₁ l₂ b' hb' hf hfirst hsize hsize' =>
    obtain ⟨rfl, rfl, rfl⟩ := first_of_fits (hfl.symm.trans hf) hfirst h1
    refine ⟨rfl, Layout.eq_of ?_ rfl⟩
    -- the block stands in one place only
    have hnot := Layout.notMem_of_blocks hbl
    obtain ⟨rfl, rfl⟩ : pre = pre' ∧ post = post' := by
      obtain ⟨rfl, -, rfl⟩ := (List.append_cons_inj_of_notMem hnot.1 hnot.2).mp (hbl.symm.trans hb')
      exact ⟨rfl, rfl⟩
    rw [h]
    simp only [Layout.claim]
    rw [← hb]

end Layout

variable {μ L V : Type} [BlockMem μ L V] {m : Mapping} {s : Session μ} {tr : List (Session μ × Call)}

theorem Headers.agree {h h' : Heap μ} {pf : Bool} {ps : ℕ} {l : List Blk} (hh : Headers h pf ps l)
    (hh' : Headers h' pf ps l) : ∀ b ∈ l, ∀ f : Field, f.isLink = false → val h' b.addr f = val h b.addr f := by
  induction l generalizing pf ps with
  | nil => exact fun b hb => absurd hb (by simp)
  | cons c l ih =>
    obtain ⟨⟨h1, h2, h3, h4⟩, ht⟩ := hh
    obtain ⟨⟨h1', h2', h3', h4'⟩, ht'⟩ := hh'
    intro b hb f hf
    rcases List.mem_cons.mp hb with rfl | hb
    · cases f with
      | bfree => exact h1'.trans h1.symm
      | bsize => exact h2'.trans h2.symm
      | free => exact h3'.trans h3.symm
      | size => exact h4'.trans h4.symm
      | next => exact absurd hf (by decide)
      | prev => exact absurd hf (by decide)
    · exact ih ht ht' b hb f hf

/-- **Two memories that hold one layout agree** on the headers, the links of the free blocks and the head variable. -/
theorem Rep.agree {A : Layout m.base (room μ)} {h h' : Heap μ} (hR : Rep m h A) (hR' : Rep m h' A) :
    (∀ b ∈ A.all, ∀ f : Field, f.isLink = false → val h' b.addr f = val h b.addr f) ∧ h'.flist = h.flist ∧
      ∀ b ∈ A.flist, ∀ f : Field, f.isLink = true → val h' b.addr f = val h b.addr f := by
  refine ⟨hR.headers.agree hR'.headers, hR'.flist_eq.trans hR.flist_eq.symm, fun b hb f hf => ?_⟩
  obtain ⟨l₁, l₂, hl⟩ := List.append_of_mem hb
  obtain ⟨-, -, h1, h2⟩ := hR.links_mem hl
  obtain ⟨-, -, h1', h2'⟩ := hR'.links_mem hl
  cases f with
  | next => exact h1'.trans h1.symm
  | prev => exact h2'.trans h2.symm
  | _ => exact absurd hf (by decide)

/-- **`dfree(p)` and then a request that fits `p`'s block without splitting it** return `p`, and leave the blocks, their
headers, the free list and its links as they were. -/
theorem dfree_dalloc (hst : Started m tr s) (hreq : ∀ t k, (t, .dalloc k) ∈ tr → 16 ≤ k ∧ k ≤ 2 ^ 30) {p n : ℕ}
    (hp : p ∈ s.live) (hn : 16 ≤ n) (hfit : (n + 7) / 8 * 8 ≤ val s.heap (p - HEAD) .size)
    (hclass : val s.heap (p - HEAD) .size < (n + 7) / 8 * 8 + 24) :
    ∃ l fl, Blocks s.heap l ∧ FreeList s.heap fl ∧ Runs (do dfree p; dalloc n) s.heap (fun q h' =>
      q = p ∧ Blocks h' l ∧ FreeList h' fl ∧
      (∀ b ∈ l ++ [m.base + (ARENA - HEAD)], ∀ f : Field, f.isLink = false → val h' b f = val s.heap b f) ∧
      h'.flist = s.heap.flist ∧ ∀ b ∈ fl, ∀ f : Field, f.isLink = true → val h' b f = val s.heap b f) := by
  obtain ⟨A, hh, hreg⟩ := hst.regular hreq
  refine ⟨_, _, hh.rep.blocks, hh.rep.freeList, ?_⟩
  obtain ⟨b, pre, post, hb, hbf, rfl, hsz⟩ := hh.block hp
  rw [hsz] at hfit hclass
  have hbA : b ∈ A.blocks := by rw [hb]; simp
  have hroom : room μ ≤ b.size := room_le.trans (hreg b hbA).2
  have hb16 := size_lt A (A.mem_all_of_mem hbA)
  refine runs_bind (Runs.imp ?_ (dfree_spec hh.rep hb hbf hroom))
  rintro - h₁ ⟨hR₁, -⟩
  refine Runs.imp ?_ (dalloc_spec hR₁ (by omega : n ≠ 0))
  rintro q h₂ ⟨A', C, ht, hR₂, -, -⟩
  rw [adjust_regular hn (by omega)] at ht
  obtain ⟨rfl, rfl⟩ := ht.release_cancel hb hbf hroom hfit (by simp only [HEAD]; omega)
  -- the memory holds the old layout again
  obtain ⟨hhead, hflist, hlink⟩ := hh.rep.agree hR₂
  refine ⟨rfl, hR₂.blocks, hR₂.freeList, fun x hx f hf => ?_, hflist, fun x hx f hf => ?_⟩
  · have hall : A'.blocks.map Blk.addr ++ [m.base + (ARENA - HEAD)] = A'.all.map Blk.addr := by
      simp [Layout.all, sentinel]
    rw [hall] at hx
    obtain ⟨c, hc, rfl⟩ := List.mem_map.mp hx
    exact hhead c hc f hf
  · obtain ⟨c, hc, rfl⟩ := List.mem_map.mp hx
    exact hlink c hc f hf

/-- The round trip of a block that was handed out whole: 40 bytes for a request of 32. -/
theorem dfree_dalloc_forty : ∃ (tr : List (Session Bytes × Call)) (s : Session Bytes),
    tr.map Prod.snd = [.dalloc 40, .dalloc 24, .dfree 69584, .dalloc 32] ∧ Started .second tr s ∧ 69584 ∈ s.live ∧
      ∃ l fl, Blocks s.heap l ∧ FreeList s.heap fl ∧ Runs (do dfree 69584; dalloc 17) s.heap (fun q h' =>
        q = 69584 ∧ Blocks h' l ∧ FreeList h' fl ∧
        (∀ b ∈ l ++ [Mapping.second.base + (ARENA - HEAD)], ∀ f : Field, f.isLink = false →
          val h' b f = val s.heap b f) ∧
        h'.flist = s.heap.flist ∧ ∀ b ∈ fl, ∀ f : Field, f.isLink = true → val h' b f = val s.heap b f) := by
  obtain ⟨tr, s, htr, hst, hc⟩ := exists_started .second (fun _ => 0 : Bytes)
    [.dalloc 40, .dalloc 24, .dfree 69584, .dalloc 32]
    (fun s => decide (69584 ∈ s.live ∧ val s.heap (69584 - HEAD) .size = 40)) (by decide +kernel)
  obtain ⟨hlive, hsize⟩ := of_decide_eq_true hc
  refine ⟨tr, s, htr, hst, hlive, dfree_dalloc hst (fun t k hm => ?_) hlive (by decide) ?_ ?_⟩
  · have hk := mem_labels htr hm
    simp at hk
    omega
  · rw [hsize]
    decide
  · rw [hsize]
    decide

end Seminars.Dlmalloc
