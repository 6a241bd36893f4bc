import Seminars.Dlmalloc.Layout

/-!
# Seminars.Dlmalloc.FreeList — `detach` and `insert`

Both are stated for a memory whose links thread some of the free blocks of a layout `A`; the headers play no
part.  Both store into link cells of free blocks only.

* `detach_spec`: any member can be taken out, the others keep their order.  `detachNext_spec` and `detachPrev_spec`
  are its two statements.
* `insert_spec`: a free block of the layout that is not on the list becomes its head.
-/

namespace Seminars.Dlmalloc

open Lib BlockMem

variable {μ L V : Type} [BlockMem μ L V] {m : Mapping} {A : Layout m.base (room μ)} {h h' : Heap μ}
  {l l₁ l₂ : List Blk} {b : Blk}

/-- The link cells of the blocks of `l`. -/
def linkCells (l : List Blk) : Set (ℕ × Field) := {c | ∃ b ∈ l, c.1 = b.addr ∧ c.2.isLink = true}

theorem linkCells_mono {l l' : List Blk} (hl : l ⊆ l') : linkCells l ⊆ linkCells l' :=
  fun _ ⟨b, hb, h1, h2⟩ => ⟨b, hl hb, h1, h2⟩

theorem mem_linkCells {l : List Blk} {f : Field} (hb : b ∈ l) (hf : f.isLink = true) :
    (b.addr, f) ∈ linkCells l := ⟨b, hb, rfl, hf⟩

/-- A cell of a block that is no link cell of `l` is apart from them all. -/
theorem apart_linkCells {f : Field} (hb : b ∈ A.all) (ho : Owns b f) (hl : l ⊆ A.flist)
    (hne : f.isLink = false ∨ b ∉ l) : ∀ d ∈ linkCells l, FootMem.Apart μ (b.addr, f) d := by
  rintro ⟨q, g⟩ ⟨c, hc, rfl, hg⟩
  have hcA := hl hc
  refine Layout.apart hb (A.mem_all_of_flist hcA) ho (.of_free ((A.mem_flist c).mp hcA).2) ?_
  rcases hne with hf | hb'
  · refine .inr fun e => ?_
    rw [e, show g.isLink = true from hg] at hf
    cases hf
  · exact .inl fun e => hb' (e ▸ hc)

/-- Stores into the links of free blocks leave the headers alone. -/
theorem Changes.header_eq {l : List Blk} (hc : Changes h h' (linkCells l)) (hl : l ⊆ A.flist) (hb : b ∈ A.all)
    {f : Field} (hf : f.isLink = false) : val h' b.addr f = val h b.addr f :=
  hc.val_eq (apart_linkCells hb (.inl hf) hl (.inl hf))

theorem addr_lt (hb : b ∈ A.all) (f : Field) (hf : f.isLink = true) : b.addr < 2 ^ (8 * f.width) := by
  have h1 := A.tiled_all.mem hb
  have h2 := m.fits
  simp only [Blk.fin, HEAD] at h1
  cases f <;> first | exact absurd hf (by decide) | (simp only [Field.width]; omega)

theorem head_mem_or_null (hl : Linked NULL (nxt h) (prv h) (l.map Blk.addr)) :
    (l = [] ∧ h.flist = NULL) ∨ ∃ c t, l = c :: t ∧ h.flist = c.addr := by
  have h1 := hl.head_eq
  simp only [nxt, if_true] at h1
  cases l with
  | nil => exact .inl ⟨rfl, h1⟩
  | cons c t => exact .inr ⟨c, t, rfl, h1⟩

theorem nodup_addr (hl : l ⊆ A.flist) (hnd : l.Nodup) : (l.map Blk.addr).Nodup :=
  hnd.map_on fun _ hb _ hc hbc =>
    A.tiled.addr_inj (A.mem_blocks_of_flist (hl hb)) (A.mem_blocks_of_flist (hl hc)) hbc

theorem null_notMem (hl : l ⊆ A.flist) : NULL ∉ l.map Blk.addr := by
  intro hm
  obtain ⟨c, hc, h0⟩ := List.mem_map.mp hm
  exact A.addr_pos m.pos (A.mem_all_of_flist (hl hc)) h0

theorem apart_flist {c : Blk} {f g : Field} (hb : b ∈ A.flist) (hc : c ∈ A.flist) (hne : b ≠ c ∨ f ≠ g) :
    FootMem.Apart μ (b.addr, f) (c.addr, g) :=
  Layout.apart (A.mem_all_of_flist hb) (A.mem_all_of_flist hc) (.of_free ((A.mem_flist b).mp hb).2)
    (.of_free ((A.mem_flist c).mp hc).2) hne

theorem inside_flist {f : Field} (hm : h.mapped = some m.base) (hb : b ∈ A.flist) : inside h b.addr f :=
  Layout.inside hm (A.mem_all_of_flist hb) (.of_free ((A.mem_flist b).mp hb).2)

theorem nxt_addr (hb : b ∈ A.flist) : nxt h b.addr = val h b.addr .next :=
  if_neg (A.addr_pos m.pos (A.mem_all_of_flist hb))

/-- **`insert`**: a free block not on the list becomes its head. -/
theorem insert_spec (hm : h.mapped = some m.base) (hf : A.flist = b :: l)
    (hl : Linked NULL (nxt h) (prv h) (l.map Blk.addr)) :
    Runs (insert b.addr) h (fun _ h' => Changes h h' (linkCells (b :: l)) ∧
      Linked NULL (nxt h') (prv h') ((b :: l).map Blk.addr)) := by
  have hbA : b ∈ A.flist := by rw [hf]; simp
  have hb0 := A.addr_pos m.pos (A.mem_all_of_flist hbA)
  have hsub : l ⊆ A.flist := by rw [hf]; exact List.subset_cons_self b l
  obtain ⟨hbl, hnd⟩ := List.nodup_cons.mp (hf ▸ A.nodup)
  have hb64 : b.addr < 2 ^ 64 := addr_lt (A.mem_all_of_flist hbA) .next rfl
  have hf64 : h.flist < 2 ^ 64 := by
    obtain ⟨-, h0⟩ | ⟨c, t, rfl, h0⟩ := head_mem_or_null hl
    · rw [h0]; decide
    · rw [h0]; exact addr_lt (A.mem_all_of_flist (hsub (by simp))) .next rfl
  -- the two links of the new head
  set h1 := h.put b.addr .next h.flist with hh1
  set h2 := h1.put b.addr .prev (0 : ℕ) with hh2
  have hc2 : Changes h h2 (linkCells (b :: l)) :=
    (Changes.put h hf64 (mem_linkCells (by simp) rfl)).trans
      (Changes.put h1 (by decide) (mem_linkCells (by simp) rfl))
  have hnext : val h2 b.addr .next = h.flist := by
    rw [hh2, Heap.val_put_apart (apart_field (by decide)), hh1, Heap.val_put_self hf64]
  have hprev : val h2 b.addr .prev = 0 := Heap.val_put_self (by decide)
  have hold : ∀ x ∈ l, ∀ f, val h2 x.addr f = val h x.addr f := by
    intro x hx f
    have hxb : x ≠ b := fun e => hbl (e ▸ hx)
    rw [hh2, Heap.val_put_apart (apart_flist (hsub hx) hbA (.inl hxb)), hh1,
      Heap.val_put_apart (apart_flist (hsub hx) hbA (.inl hxb))]
  have hin : ∀ f, inside h b.addr f := fun f => inside_flist hm hbA
  refine runs_bind (runs_get (runs_bind (runs_wr hb0 (hin _) ?_)))
  refine runs_bind (runs_wr hb0 (inside_put.mpr (hin _)) (runs_bind (runs_get ?_)))
  show Runs (if h.flist ≠ NULL then _ else _) h2 _
  refine runs_ite (fun hne => ?_) fun hne => ?_
  · -- the old head gets its back pointer
    obtain ⟨-, h0⟩ | ⟨c, t, rfl, h0⟩ := head_mem_or_null hl
    · exact absurd h0 hne
    have hcA : c ∈ A.flist := hsub (by simp)
    have hcb : c ≠ b := fun e => hbl (by simp [e])
    have hflist : h2.flist = c.addr := h0
    show Runs (wr h2.flist .prev b.addr >>= fun _ => modify fun k => { k with flist := b.addr }) h2 _
    rw [hflist]
    rw [h0] at hnext
    refine runs_bind (runs_wr (A.addr_pos m.pos (A.mem_all_of_flist hcA)) (inside_flist hm hcA)
      (runs_modify ?_))
    set h3 := h2.put c.addr .prev b.addr with hh3
    refine ⟨(hc2.trans (Changes.put h2 hb64 (mem_linkCells (b := c) (by simp) rfl))).trans
      (Changes.flist h3 b.addr _), ?_⟩
    refine hl.push (nodup_addr hsub hnd) (null_notMem hsub) (by simp [nxt]) ?_ ?_ (fun _ => ?_) ?_ ?_
    · rw [nxt_addr hbA, val_flist, hh3, Heap.val_put_apart (apart_flist hbA hcA (.inr (by decide))), hnext]
      simp [nxt, h0]
    · exact (Heap.val_put_apart (apart_flist hbA hcA (.inl hcb.symm))).trans hprev
    · rw [show nxt h NULL = c.addr by simp [nxt, h0]]
      exact Heap.val_put_self hb64
    · intro x hx
      obtain ⟨d, hd, rfl⟩ := List.mem_map.mp hx
      rw [nxt_addr (hsub hd), nxt_addr (hsub hd), val_flist, hh3,
        Heap.val_put_apart (apart_flist (hsub hd) hcA (.inr (by decide))), hold d hd]
    · intro y hy hyc
      obtain ⟨d, hd, rfl⟩ := List.mem_map.mp hy
      have hdc : d ≠ c := fun e => hyc (by simp [nxt, h0, e])
      exact (Heap.val_put_apart (apart_flist (hsub hd) hcA (.inl hdc))).trans (hold d hd _)
  · -- the list was empty
    obtain ⟨rfl, h0⟩ | ⟨c, t, rfl, h0⟩ := head_mem_or_null hl
    · refine runs_modify ⟨hc2.trans (Changes.flist h2 b.addr _), ?_⟩
      refine hl.push (by simp) (by simp) (by simp [nxt]) ?_ hprev (fun e => ?_) (by simp) (by simp)
      · rw [nxt_addr hbA, val_flist, hnext]
        simp [nxt]
      · exact absurd (by simp [nxt, h0]) e
    · rw [h0] at hne
      exact absurd (A.addr_pos m.pos (A.mem_all_of_flist (hsub (by simp)))) hne

/-! ### `detach` -/

/-- The first statement of `detach`. -/
def detachNext (block : ℕ) : M μ Unit := do
  if (← rd block .next) ≠ NULL then
    wr (← rd block .next) .prev (← rd block .prev)

/-- The second statement of `detach`. -/
def detachPrev (block : ℕ) : M μ Unit := do
  if (← rd block .prev) ≠ NULL then
    wr (← rd block .prev) .next (← rd block .next)
  else
    let next ← rd block .next
    modify fun h => { h with flist := next }

theorem detach_eq (block : ℕ) : detach (μ := μ) block = (do detachNext block; detachPrev block) := by
  unfold detach detachNext
  rw [bind_assoc]
  refine congrArg (rd block .next >>= ·) (funext fun v => ?_)
  by_cases hv : v ≠ NULL
  · rw [if_pos hv, if_pos hv]
    simp only [bind_assoc]
    rfl
  · rw [if_neg hv, if_neg hv]
    rfl

theorem Layout.others_subset (hf : A.flist = l₁ ++ b :: l₂) : l₁ ++ l₂ ⊆ A.flist := by
  rw [hf]
  exact ((List.sublist_cons_self b l₂).append_left l₁).subset

theorem links_lead (hb : b ∈ A.flist)
    (hl : Linked NULL (nxt h) (prv h) (l₁.map Blk.addr ++ b.addr :: l₂.map Blk.addr)) :
    (val h b.addr .next = NULL ∨ ∃ c ∈ l₂, val h b.addr .next = c.addr) ∧
      (val h b.addr .prev = NULL ∨ ∃ c ∈ l₁, val h b.addr .prev = c.addr) := by
  constructor
  · have h1 := hl.nxt_mem
    rw [nxt_addr hb] at h1
    cases l₂ with
    | nil => exact .inl h1
    | cons c l => exact .inr ⟨c, by simp, h1⟩
  · have h1 : val h b.addr .prev = _ := hl.prv_mem (A.addr_pos m.pos (A.mem_all_of_flist hb))
    rcases List.eq_nil_or_concat l₁ with rfl | ⟨l, c, rfl⟩
    · exact .inl h1
    · rw [List.concat_eq_append, List.map_append, List.map_singleton, List.getLastD_concat] at h1
      exact .inr ⟨c, by simp, h1⟩

theorem link_lt {f : Field} (hl : l ⊆ A.flist) (hv : val h b.addr f = NULL ∨ ∃ c ∈ l, val h b.addr f = c.addr) :
    val h b.addr f < 2 ^ 64 := by
  rcases hv with h0 | ⟨c, hc, h0⟩
  · rw [h0]; decide
  · rw [h0]; exact addr_lt (A.mem_all_of_flist (hl hc)) .next rfl

/-- The first statement sets the back pointer behind `b`, if there is a block. -/
theorem detachNext_spec (hm : h.mapped = some m.base) (hb : b ∈ A.flist) (hsub : l ⊆ A.flist)
    (hp : val h b.addr .prev < 2 ^ 64) (hn : val h b.addr .next = NULL ∨ ∃ c ∈ l, val h b.addr .next = c.addr) :
    Runs (detachNext b.addr) h (fun _ h' => Changes h h' (linkCells l) ∧
      (∀ x ∈ NULL :: A.flist.map Blk.addr, nxt h' x = nxt h x) ∧
      (nxt h b.addr ≠ NULL → prv h' (nxt h b.addr) = prv h b.addr) ∧
      ∀ y ∈ A.flist.map Blk.addr, y ≠ nxt h b.addr → prv h' y = prv h y) := by
  have hb0 := A.addr_pos m.pos (A.mem_all_of_flist hb)
  have hin : ∀ f, inside h b.addr f := fun f => inside_flist hm hb
  rw [nxt_addr hb]
  refine runs_bind (runs_rd hb0 (hin _) (runs_ite (fun hne => ?_) fun h0 => ?_))
  · obtain ⟨c, hc, hnc⟩ := hn.resolve_left hne
    have hcA := hsub hc
    refine runs_bind (runs_rd hb0 (hin _) (runs_bind (runs_rd hb0 (hin _) ?_)))
    rw [hnc]
    refine runs_wr (A.addr_pos m.pos (A.mem_all_of_flist hcA)) (inside_flist hm hcA)
      ⟨Changes.put h hp (mem_linkCells hc rfl), fun x hx => ?_, fun _ => Heap.val_put_self hp, fun y hy hyc => ?_⟩
    · rcases List.mem_cons.mp hx with rfl | hx
      · rfl
      · obtain ⟨d, hd, rfl⟩ := List.mem_map.mp hx
        rw [nxt_addr hd, nxt_addr hd, Heap.val_put_apart (apart_flist hd hcA (.inr (by decide)))]
    · obtain ⟨d, hd, rfl⟩ := List.mem_map.mp hy
      have hdc : d ≠ c := fun e => hyc (by rw [e])
      exact Heap.val_put_apart (apart_flist hd hcA (.inl hdc))
  · exact runs_pure ⟨Changes.refl _ _, fun _ _ => rfl, fun hne => absurd hne h0, fun _ _ _ => rfl⟩

/-- The second statement sets the forward pointer before `b`, which may be the head variable. -/
theorem detachPrev_spec (hm : h.mapped = some m.base) (hb : b ∈ A.flist) (hsub : l ⊆ A.flist)
    (hn : val h b.addr .next < 2 ^ 64) (hp : val h b.addr .prev = NULL ∨ ∃ c ∈ l, val h b.addr .prev = c.addr) :
    Runs (detachPrev b.addr) h
      (fun _ h' => Changes h h' (linkCells l) ∧ nxt h' (prv h b.addr) = nxt h b.addr ∧
        (∀ x ∈ NULL :: l.map Blk.addr, x ≠ prv h b.addr → nxt h' x = nxt h x) ∧
        ∀ y ∈ l.map Blk.addr, prv h' y = prv h y) := by
  have hb0 := A.addr_pos m.pos (A.mem_all_of_flist hb)
  have hin : ∀ f, inside h b.addr f := fun f => inside_flist hm hb
  refine runs_bind (runs_rd hb0 (hin _) (runs_ite (fun hne => ?_) fun hne => ?_))
  · obtain ⟨c, hc, hpc⟩ := hp.resolve_left hne
    have hcA := hsub hc
    have hc0 := A.addr_pos m.pos (A.mem_all_of_flist hcA)
    refine runs_bind (runs_rd hb0 (hin _) (runs_bind (runs_rd hb0 (hin _) ?_)))
    rw [hpc]
    refine runs_wr hc0 (inside_flist hm hcA) ⟨Changes.put h hn (mem_linkCells hc rfl), ?_, ?_, ?_⟩
    · rw [prv, hpc, nxt_addr hcA, nxt_addr hb, Heap.val_put_self hn]
    · intro x hx hxc
      rw [prv, hpc] at hxc
      rcases List.mem_cons.mp hx with rfl | hx
      · rfl
      · obtain ⟨d, hd, rfl⟩ := List.mem_map.mp hx
        have hdc : d ≠ c := fun e => hxc (by rw [e])
        rw [nxt_addr (hsub hd), nxt_addr (hsub hd), Heap.val_put_apart (apart_flist (hsub hd) hcA (.inl hdc))]
    · intro y hy
      obtain ⟨d, hd, rfl⟩ := List.mem_map.mp hy
      exact Heap.val_put_apart (apart_flist (hsub hd) hcA (.inr (by decide)))
  · refine runs_bind (runs_rd hb0 (hin _) (runs_modify ⟨Changes.flist h _ _, ?_, ?_, fun _ _ => rfl⟩))
    · rw [nxt_addr hb, prv, not_not.mp hne]
      rfl
    · intro x hx hx0
      have hxn : x ≠ NULL := fun e => hx0 (e.trans (not_not.mp hne).symm)
      simp [nxt, hxn]

/-- **`detach`**: a member of the list is taken out, the others keep their order. -/
theorem detach_spec (hm : h.mapped = some m.base) (hf : A.flist = l₁ ++ b :: l₂)
    (hl : Linked NULL (nxt h) (prv h) (A.flist.map Blk.addr)) :
    Runs (detach b.addr) h (fun _ h' => Changes h h' (linkCells (l₁ ++ l₂)) ∧
      Linked NULL (nxt h') (prv h') ((l₁ ++ l₂).map Blk.addr)) := by
  have hbA : b ∈ A.flist := by rw [hf]; simp
  have hb0 := A.addr_pos m.pos (A.mem_all_of_flist hbA)
  have hsub := Layout.others_subset hf
  have hsplit : A.flist.map Blk.addr = l₁.map Blk.addr ++ b.addr :: l₂.map Blk.addr := by
    rw [hf, List.map_append, List.map_cons]
  have hlb : Linked NULL (nxt h) (prv h) (l₁.map Blk.addr ++ b.addr :: l₂.map Blk.addr) := hsplit ▸ hl
  have hnd : (l₁.map Blk.addr ++ b.addr :: l₂.map Blk.addr).Nodup := hsplit ▸ nodup_addr (List.Subset.refl _) A.nodup
  obtain ⟨hnext, hprev⟩ := links_lead hbA hlb
  have hnext : val h b.addr .next = NULL ∨ ∃ c ∈ l₁ ++ l₂, val h b.addr .next = c.addr :=
    hnext.imp_right fun ⟨c, hc, h0⟩ => ⟨c, List.mem_append_right _ hc, h0⟩
  have hprev : val h b.addr .prev = NULL ∨ ∃ c ∈ l₁ ++ l₂, val h b.addr .prev = c.addr :=
    hprev.imp_right fun ⟨c, hc, h0⟩ => ⟨c, List.mem_append_left _ hc, h0⟩
  have hmap := List.map_subset Blk.addr hsub
  rw [detach_eq]
  -- the first `if`: the next block is linked back to the previous one
  refine runs_bind (Runs.imp ?_ (detachNext_spec hm hbA hsub (link_lt hsub hprev) hnext))
  rintro - h1 ⟨hc1, hn1, hback, hp1⟩
  -- that store left both links of `b` as they were, as `b` is not its own successor
  have hbn : b.addr ≠ nxt h b.addr := by
    rw [nxt_addr hbA]
    rcases hnext with h0 | ⟨c, hc, h0⟩
    · rwa [h0]
    · rw [h0]
      intro e
      refine (List.nodup_cons.mp (List.nodup_middle.mp hnd)).1 ?_
      rw [e, ← List.map_append]
      exact List.mem_map_of_mem hc
  have hpb : prv h1 b.addr = prv h b.addr := hp1 _ (List.mem_map_of_mem hbA) hbn
  have hnb : nxt h1 b.addr = nxt h b.addr := hn1 _ (List.mem_cons_of_mem _ (List.mem_map_of_mem hbA))
  -- the second `if`: the previous block, or `flist`, is linked to the next one
  refine Runs.imp ?_ (detachPrev_spec (A := A) (hc1.mapped.trans hm) hbA hsub ?_ ?_)
  rotate_left
  · rw [← nxt_addr hbA, hnb, nxt_addr hbA]
    exact link_lt hsub hnext
  · rw [show val h1 b.addr .prev = val h b.addr .prev from hpb]
    exact hprev
  rintro - h' ⟨hc', hskip, hn, hp⟩
  rw [hpb] at hskip hn
  refine ⟨hc1.trans hc', ?_⟩
  rw [List.map_append] at hmap hn hp ⊢
  refine hlb.unlink hnd ?_ (hskip.trans hnb) (fun hne => ?_) (fun x hx hxp => ?_) fun y hy hyn => ?_
  · rw [← hsplit]
    exact null_notMem (List.Subset.refl _)
  · rw [hp _ ?_, hback hne]
    rw [nxt_addr hbA] at hne ⊢
    obtain ⟨c, hc, h0⟩ := hnext.resolve_left hne
    rw [h0, ← List.map_append]
    exact List.mem_map_of_mem hc
  · rw [hn x hx hxp]
    exact hn1 x (List.cons_subset_cons _ hmap hx)
  · rw [hp y hy]
    exact hp1 y (hmap hy) hyn

end Seminars.Dlmalloc
