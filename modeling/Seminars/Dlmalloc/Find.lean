import Seminars.Dlmalloc.FreeList

/-!
# Seminars.Dlmalloc.Find — `split`, `find`, `dfree` on a heap that holds a layout

* `split_spec`: the headers `split` writes.
* `find_detach`: a block that is large enough is taken off the list; `find_carve`, `find_claim`: what `find` does
  with it.
* `Opened.release`, `dfree_spec`: a block is given back.

Each says which layout the memory holds afterwards and which cells were stored into.
-/

namespace Seminars.Dlmalloc

open Lib BlockMem

variable {μ L V : Type} [BlockMem μ L V] {m : Mapping} {A : Layout m.base (room μ)} {h : Heap μ}

theorem size_lt (A : Layout m.base (room μ)) {b : Blk} (hb : b ∈ A.all) : b.size < 2 ^ 16 := by
  have h1 := A.tiled_all.mem hb
  simp only [Blk.fin, HEAD, ARENA] at h1
  omega

/-- A block and the one behind it are different from each other and from all the others. -/
theorem middle_ne {pre tl : List Blk} {b c : Blk} (hall : A.all = pre ++ b :: c :: tl) :
    b ≠ c ∧ ∀ d, d ∈ pre ∨ d ∈ tl → d ≠ b ∧ d ≠ c := by
  have hnd := A.tiled_all.nodup
  rw [hall] at hnd
  obtain ⟨-, hnd2, hdj⟩ := List.nodup_append.mp hnd
  simp only [List.nodup_cons, List.mem_cons, not_or] at hnd2
  refine ⟨hnd2.1.1, fun d hd => ?_⟩
  rcases hd with hd | hd
  · exact ⟨hdj d hd _ (by simp), hdj d hd _ (by simp)⟩
  · exact ⟨fun e => hnd2.1.2 (e ▸ hd), fun e => hnd2.2.1 (e ▸ hd)⟩

theorem three_ne {pre tl : List Blk} {x s c : Blk} (hall : A.all = pre ++ x :: s :: c :: tl) :
    (x ≠ s ∧ x ≠ c ∧ s ≠ c) ∧ ∀ d, d ∈ pre ∨ d ∈ tl → d ≠ x ∧ d ≠ s ∧ d ≠ c := by
  obtain ⟨hxs, hx⟩ := middle_ne hall
  obtain ⟨hsc, hs⟩ := middle_ne (show A.all = (pre ++ [x]) ++ s :: c :: tl by simpa using hall)
  refine ⟨⟨hxs, (hx c (.inr (by simp))).1.symm, hsc⟩, fun d hd => ?_⟩
  have h1 := hx d (hd.imp_right (List.mem_cons_of_mem _))
  have h2 := hs d (hd.imp_left (List.mem_append_left _))
  exact ⟨h1.1, h1.2, h2.2⟩

/-- The cells `split` stores into: the size of the block, the header of the new block, one tag behind it. -/
def splitCells (x s c : Blk) : Set (ℕ × Field) :=
  {d | d = (x.addr, .size) ∨ (d.1 = s.addr ∧ d.2.isLink = false) ∨ d = (c.addr, .bsize)}

theorem apart_splitCells {x s c d : Blk} {f : Field} (hx : x ∈ A.all) (hs : s ∈ A.all) (hc : c ∈ A.all) (hd : d ∈ A.all)
    (ho : Owns d f) (hdx : d ≠ x ∨ f ≠ .size) (hds : d ≠ s ∨ f.isLink = true) (hdc : d ≠ c ∨ f ≠ .bsize) :
    ∀ k ∈ splitCells x s c, FootMem.Apart μ (d.addr, f) k := by
  rintro ⟨q, g⟩ (e | ⟨e, hg⟩ | e)
  · obtain ⟨rfl, rfl⟩ := Prod.mk.inj e
    exact Layout.apart hd hx ho (.inl rfl) hdx
  · obtain rfl : q = s.addr := e
    exact Layout.apart hd hs ho (.inl hg) (hds.imp_right fun hf => Field.ne_of_isLink hf hg)
  · obtain ⟨rfl, rfl⟩ := Prod.mk.inj e
    exact Layout.apart hd hc ho (.inl rfl) hdc

/-- **`split`** of a free block into the adjacent blocks `x` and `s` of the layout `A`. -/
theorem split_spec {pre tl : List Blk} {x s c : Blk} (hm : h.mapped = some m.base)
    (hA : A.all = pre ++ x :: s :: c :: tl) (hsz : val h x.addr .size = x.size + s.size + HEAD)
    (hfr : val h x.addr .free = TRUE) :
    Runs (split x.addr s.size) h (fun p h' => p = s.addr ∧ Changes h h' (splitCells x s c) ∧
      h'.flist = h.flist ∧ val h' x.addr .size = x.size ∧ val h' s.addr .bfree = TRUE ∧ val h' s.addr .bsize = x.size ∧
      val h' s.addr .free = FALSE ∧ val h' s.addr .size = s.size ∧ val h' c.addr .bsize = s.size) := by
  have hx : x ∈ A.all := by rw [hA]; simp
  have hs : s ∈ A.all := by rw [hA]; simp
  have hc : c ∈ A.all := by rw [hA]; simp
  have ht := A.tiled_all
  rw [hA] at ht
  obtain ⟨-, -, -, hsx, hcs, -⟩ := tiled_append.mp ht
  obtain ⟨⟨hxs', hxc', hsc'⟩, -⟩ := three_ne hA
  have hxn := size_lt A hx
  have hsn := size_lt A hs
  have hrs : int ((val h x.addr .size : ℤ) - s.size - HEAD) = x.size := by
    rw [hsz, ← int_eq (x := (x.size : ℤ)) (by omega)]
    congr 1
    push_cast
    ring
  have hin : ∀ b ∈ A.all, ∀ f : Field, f.isLink = false → inside h b.addr f :=
    fun b hb f hf => Layout.inside hm hb (.inl hf)
  have hx0 := A.addr_pos m.pos hx
  have hs0 := A.addr_pos m.pos hs
  have hc0 := A.addr_pos m.pos hc
  -- the state after each store
  set k1 := h.put x.addr .size x.size with hk1
  set k2 := k1.put s.addr .bfree TRUE with hk2
  set k3 := k2.put s.addr .bsize x.size with hk3
  set k4 := k3.put s.addr .free FALSE with hk4
  set k5 := k4.put s.addr .size s.size with hk5
  set k6 := k5.put c.addr .bsize s.size with hk6
  have hput : ∀ (k : Heap μ), ∀ b ∈ A.all, ∀ d ∈ A.all, ∀ f g : Field, f.isLink = false → g.isLink = false →
      ∀ n : ℕ, n < 2 ^ 16 → val (k.put d.addr g n) b.addr f = if b = d ∧ f = g then n else val k b.addr f :=
    fun k b hb d hd f g hf hg n hn => Layout.val_put hb hd (.inl hf) hg hn
  have h1 : val k1 x.addr .free = TRUE := by
    rw [hk1, hput _ _ hx _ hx _ _ rfl rfl _ hxn]
    simpa using hfr
  have h1' : val k1 x.addr .size = x.size := by
    rw [hk1, hput _ _ hx _ hx _ _ rfl rfl _ hxn]
    simp
  have h2 : val k2 x.addr .size = x.size := by
    rw [hk2, hput _ _ hx _ hs _ _ rfl rfl _ (by decide), h1']
    simp
  unfold split
  refine runs_bind (runs_rd hx0 (hin x hx _ rfl) ?_)
  simp only [hrs]
  refine runs_bind (runs_wr hx0 (hin x hx _ rfl) (runs_bind (runs_after hx0 (hin x hx _ rfl) ?_)))
  rw [← hk1, h1', show x.addr + x.size + HEAD = s.addr from hsx.symm]
  refine runs_bind (runs_rd hx0 (hin x hx _ rfl) ?_)
  rw [h1]
  refine runs_bind (runs_wr hs0 (hin s hs _ rfl) (runs_bind (runs_rd hx0 (hin x hx _ rfl) ?_)))
  rw [← hk2, h2]
  refine runs_bind (runs_wr hs0 (hin s hs _ rfl) (runs_bind (runs_wr hs0 (hin s hs _ rfl) ?_)))
  refine runs_bind (runs_wr hs0 (hin s hs _ rfl) (runs_bind (runs_after hs0 (hin s hs _ rfl) ?_)))
  have h5 : val k5 s.addr .size = s.size := by
    rw [hk5, hput _ _ hs _ hs _ _ rfl rfl _ hsn]
    simp
  show Runs _ k5 _
  rw [h5, show s.addr + s.size + HEAD = c.addr from hcs.symm]
  refine runs_bind (runs_rd hs0 (hin s hs _ rfl) ?_)
  rw [h5]
  refine runs_bind (runs_wr hc0 (hin c hc _ rfl) (runs_pure ?_))
  have hval : ∀ b ∈ A.all, ∀ f : Field, f.isLink = false → val k6 b.addr f =
      if b = c ∧ f = .bsize then s.size else if b = s ∧ f = .size then s.size else
      if b = s ∧ f = .free then FALSE else if b = s ∧ f = .bsize then x.size else
      if b = s ∧ f = .bfree then TRUE else if b = x ∧ f = .size then x.size else val h b.addr f := by
    intro b hb f hf
    rw [hk6, hput _ _ hb _ hc _ _ hf rfl _ hsn, hk5, hput _ _ hb _ hs _ _ hf rfl _ hsn, hk4,
      hput _ _ hb _ hs _ _ hf rfl _ (by decide), hk3, hput _ _ hb _ hs _ _ hf rfl _ hxn, hk2,
      hput _ _ hb _ hs _ _ hf rfl _ (by decide), hk1, hput _ _ hb _ hx _ _ hf rfl _ hxn]
  have hcell : ∀ f : Field, f.isLink = false → (s.addr, f) ∈ splitCells x s c := fun f hf => .inr (.inl ⟨rfl, hf⟩)
  refine ⟨rfl, ?_, rfl, ?_, ?_, ?_, ?_, ?_, ?_⟩
  · refine (Changes.put h (n := x.size) ?_ (.inl rfl)).trans <| (Changes.put k1 ?_ (hcell _ rfl)).trans <|
      (Changes.put k2 ?_ (hcell _ rfl)).trans <| (Changes.put k3 ?_ (hcell _ rfl)).trans <|
      (Changes.put k4 ?_ (hcell _ rfl)).trans (Changes.put k5 ?_ (.inr (.inr rfl)))
    all_goals first | exact hxn | exact hsn | decide
  · rw [hval x hx _ rfl]; simp [hxs', hxc']
  · rw [hval s hs _ rfl]; simp [hsc']
  · rw [hval s hs _ rfl]; simp [hsc']
  · rw [hval s hs _ rfl]; simp [hsc']
  · rw [hval s hs _ rfl]; simp [hsc']
  · rw [hval c hc _ rfl]; simp

/-! ### What an operation stores into -/

/-- The cells an operation may store into: the headers of the blocks at `hs`, the tags of the block at `next`,
the links of the free blocks `l`. -/
def touched (hs : List ℕ) (next : ℕ) (l : List Blk) : Set (ℕ × Field) :=
  {d | (d.1 ∈ hs ∧ d.2.isLink = false) ∨ (d.1 = next ∧ (d.2 = .bfree ∨ d.2 = .bsize)) ∨ d ∈ linkCells l}

theorem linkCells_touched {hs : List ℕ} {next : ℕ} {l l' : List Blk} (hl : l' ⊆ l) :
    linkCells l' ⊆ touched hs next l :=
  fun _ hd => .inr (.inr (linkCells_mono hl hd))

theorem splitCells_touched {b c : Blk} {r : ℕ} {l : List Blk} (hcb : c.addr = b.fin) :
    splitCells (Layout.rest b r) (Layout.cut b r) c ⊆ touched [b.addr, (Layout.cut b r).addr] b.fin l := by
  rintro ⟨q, g⟩ (e | ⟨e, hg⟩ | e)
  · obtain ⟨rfl, rfl⟩ := Prod.mk.inj e
    exact .inl ⟨by simp [Layout.rest], rfl⟩
  · obtain rfl : q = (Layout.cut b r).addr := e
    exact .inl ⟨by simp, hg⟩
  · obtain ⟨rfl, rfl⟩ := Prod.mk.inj e
    exact .inr (.inl ⟨hcb, .inr rfl⟩)

theorem linked_congr {h h' : Heap μ} {l : List Blk} (hsub : l ⊆ A.flist)
    (hl : Linked NULL (nxt h) (prv h) (l.map Blk.addr)) (hf : h'.flist = h.flist)
    (hv : ∀ b ∈ l, ∀ f : Field, f.isLink = true → val h' b.addr f = val h b.addr f) :
    Linked NULL (nxt h') (prv h') (l.map Blk.addr) := by
  refine Seg.congr hl (fun a ha => ?_) fun c hc hcn => ?_
  · rcases List.mem_cons.mp ha with rfl | ha
    · simp [nxt, hf]
    · obtain ⟨b, hb, rfl⟩ := List.mem_map.mp ha
      rw [nxt_addr (hsub hb), nxt_addr (hsub hb), hv b hb .next rfl]
  · obtain ⟨b, hb, rfl⟩ := List.mem_map.mp (by simpa [hcn] using hc)
    exact hv b hb .prev rfl

theorem linked_put {l : List Blk} {b : Blk} {g : Field} {n : ℕ} (hsub : l ⊆ A.flist) (hb : b ∈ A.all)
    (hg : g.isLink = false) (hn : n < 2 ^ 16) (hl : Linked NULL (nxt h) (prv h) (l.map Blk.addr)) :
    Linked NULL (nxt (h.put b.addr g n)) (prv (h.put b.addr g n)) (l.map Blk.addr) := by
  refine linked_congr hsub hl rfl fun d hd f hf => ?_
  have ho := Owns.of_free (f := f) ((A.mem_flist d).mp (hsub hd)).2
  rw [Layout.val_put (A.mem_all_of_flist (hsub hd)) hb ho hg hn, if_neg fun e => Field.ne_of_isLink hf hg e.2]

theorem LIMIT_eq {r : ℕ} (hr : r < 2 ^ 16) : LIMIT r = r + HEAD + 16 := by
  have hmin : MIN 0 = 16 := rfl
  simp only [LIMIT, hmin, HEAD]
  omega

/-- The fields of a block `b` and of the block `c` behind it. -/
theorem Headers.middle {pre tl : List Blk} {b c : Blk} {h : Heap μ} (hh : Headers h false 0 (pre ++ b :: c :: tl)) :
    (val h b.addr .free = b.free.toNat ∧ val h b.addr .size = b.size) ∧ val h c.addr .bfree = b.free.toNat ∧
      val h c.addr .bsize = b.size ∧ val h c.addr .free = c.free.toNat ∧ val h c.addr .size = c.size :=
  let ⟨_, h1, h2, _⟩ := headers_append.mp hh
  ⟨h1.2.2, h2⟩

/-- What the two stores that change the status of `b` leave: its own flag and the tag behind it. -/
theorem val_mark {b c d : Blk} (hb : b ∈ A.all) (hc : c ∈ A.all) (v : Bool) (hd : d ∈ A.all) {f : Field}
    (hf : f.isLink = false) : val ((h.put b.addr .free v.toNat).put c.addr .bfree v.toNat) d.addr f =
      if d = c ∧ f = .bfree then v.toNat else if d = b ∧ f = .free then v.toNat else val h d.addr f := by
  have hv : v.toNat < 2 ^ 16 := by cases v <;> decide
  rw [Layout.val_put hd hc (.inl hf) rfl hv, Layout.val_put hd hb (.inl hf) rfl hv]

theorem mark_headers {pre tl : List Blk} {b c : Blk} (hall : A.all = pre ++ b :: c :: tl)
    (hh : Headers h false 0 A.all) (v : Bool) :
    Headers ((h.put b.addr .free v.toNat).put c.addr .bfree v.toNat) false 0
      (pre ++ { b with free := v } :: c :: tl) := by
  have hb : b ∈ A.all := by rw [hall]; simp
  have hc : c ∈ A.all := by rw [hall]; simp
  obtain ⟨hbc, hne⟩ := middle_ne hall
  have hval : ∀ d ∈ A.all, ∀ f : Field, f.isLink = false →
      val ((h.put b.addr .free v.toNat).put c.addr .bfree v.toNat) d.addr f =
        if d = c ∧ f = .bfree then v.toNat else if d = b ∧ f = .free then v.toNat else val h d.addr f :=
    fun d hd f hf => val_mark hb hc v hd hf
  have hkeep : ∀ d, d ∈ pre ∨ d ∈ tl → ∀ f : Field, f.isLink = false →
      val ((h.put b.addr .free v.toNat).put c.addr .bfree v.toNat) d.addr f = val h d.addr f := by
    intro d hd f hf
    have hdA : d ∈ A.all := by rw [hall]; simp only [List.mem_append, List.mem_cons]; tauto
    rw [hval d hdA f hf, if_neg (fun e => (hne d hd).2 e.1), if_neg (fun e => (hne d hd).1 e.1)]
  rw [hall] at hh
  obtain ⟨hpre, hbh, hch, htl⟩ := headers_append.mp hh
  refine headers_append.mpr ⟨hpre.congr fun d hd => hkeep d (.inl hd), ⟨?_, ?_, ?_, ?_⟩, ⟨?_, ?_, ?_, ?_⟩,
    htl.congr fun d hd => hkeep d (.inr hd)⟩
  · rw [hval b hb _ rfl]; simpa [hbc] using hbh.1
  · rw [hval b hb _ rfl]; simpa using hbh.2.1
  · rw [hval b hb _ rfl]; simp [hbc]
  · rw [hval b hb _ rfl]; simpa using hbh.2.2.2
  · rw [hval c hc _ rfl]; simp
  · rw [hval c hc _ rfl]; simpa using hch.2.1
  · rw [hval c hc _ rfl]; simpa [hbc.symm] using hch.2.2.1
  · rw [hval c hc _ rfl]; simpa using hch.2.2.2

/-- `mark_headers` stores into cells it may store into, none of them a link. -/
theorem mark_changes {b c : Blk} {l : List Blk} {v : Bool} (hcb : c.addr = b.fin) :
    Changes h ((h.put b.addr .free v.toNat).put c.addr .bfree v.toNat) (touched [b.addr] b.fin l) := by
  have hv : v.toNat < 2 ^ 16 := by cases v <;> decide
  exact (Changes.put h hv (.inl ⟨by simp, rfl⟩)).trans (Changes.put _ hv (.inr (.inl ⟨hcb, .inl rfl⟩)))

/-- The headers after the block `b` has been cut into `x` and `s`. -/
theorem cut_headers {pre tl : List Blk} {b x s c : Blk} {h h' : Heap μ}
    (hh : Headers h false 0 (pre ++ b :: c :: tl)) (hfree : x.free = b.free)
    (hkeep : ∀ d, d ∈ pre ∨ d ∈ tl → ∀ f : Field, f.isLink = false → val h' d.addr f = val h d.addr f)
    (hx : ∀ f : Field, f.isLink = false → f ≠ .size → val h' x.addr f = val h b.addr f)
    (hsize : val h' x.addr .size = x.size)
    (hs : val h' s.addr .bfree = x.free.toNat ∧ val h' s.addr .bsize = x.size ∧ val h' s.addr .free = s.free.toNat ∧
      val h' s.addr .size = s.size)
    (hc : ∀ f : Field, f.isLink = false → f ≠ .bfree → f ≠ .bsize → val h' c.addr f = val h c.addr f)
    (htag : val h' c.addr .bfree = s.free.toNat ∧ val h' c.addr .bsize = s.size) :
    Headers h' false 0 (pre ++ x :: s :: c :: tl) := by
  obtain ⟨hpre, hbh, hch, htl⟩ := headers_append.mp hh
  refine headers_append.mpr ⟨hpre.congr fun d hd => hkeep d (.inl hd), ⟨?_, ?_, ?_, hsize⟩, hs,
    ⟨htag.1, htag.2, ?_, ?_⟩, htl.congr fun d hd => hkeep d (.inr hd)⟩
  · exact (hx _ rfl (by decide)).trans hbh.1
  · exact (hx _ rfl (by decide)).trans hbh.2.1
  · rw [hfree]
    exact (hx _ rfl (by decide)).trans hbh.2.2.1
  · exact (hc _ rfl (by decide) (by decide)).trans hch.2.2.1
  · exact (hc _ rfl (by decide) (by decide)).trans hch.2.2.2

/-! ### Taking a block from the list -/

/-- The rest of `find` when the block found is split. -/
def findSplit (size temp : ℕ) : M μ ℕ := do
  let block ← split temp (int size)
  insert temp
  let aft ← after block
  wr aft .bfree FALSE
  wr block .free FALSE
  return block

/-- The rest of `find` when the block found is handed out whole. -/
def findWhole (temp : ℕ) : M μ ℕ := do
  wr temp .free FALSE
  let aft ← after temp
  wr aft .bfree FALSE
  return temp

/-- `find` takes a block that is large enough off the list; the rest depends on its size. -/
theorem find_detach {l₁ l₂ : List Blk} {b : Blk} {r n : ℕ} {Q : ℕ → Heap μ → Prop} (hR : Rep m h A)
    (hf : A.flist = l₁ ++ b :: l₂) (hr : r ≤ b.size)
    (hk : ∀ h1, Changes h h1 (linkCells (l₁ ++ l₂)) → Linked NULL (nxt h1) (prv h1) ((l₁ ++ l₂).map Blk.addr) →
      Runs (if r + HEAD + 16 ≤ b.size then findSplit r b.addr else findWhole b.addr) h1 Q) :
    Runs (findLoop r (n + 1) b.addr) h Q := by
  have hbF : b ∈ A.flist := by rw [hf]; simp
  have hbA := A.mem_all_of_flist hbF
  have hb0 := A.addr_pos m.pos hbA
  have hbn := size_lt A hbA
  have hsize := (hR.headers.mem hbA).2
  have hin : inside h b.addr .size := inside_flist hR.mapped hbF
  rw [findLoop]
  refine runs_ite (fun _ => ?_) fun h0 => absurd hb0 h0
  refine runs_bind (runs_rd hb0 hin (runs_ite (fun _ => ?_) fun hlt => absurd (hsize.symm ▸ hr) hlt))
  refine runs_bind (Runs.imp ?_ (detach_spec hR.mapped hf hR.links))
  rintro - h1 ⟨hc1, hl1⟩
  refine runs_bind (runs_rd hb0 (hc1.inside_iff.mpr hin) ?_)
  rw [hc1.header_eq (Layout.others_subset hf) hbA rfl, hsize, LIMIT_eq (by omega)]
  exact hk h1 hc1 hl1

/-- The cells that `find` has stored into when it has split a block. -/
theorem carve_changes {b c : Blk} {r : ℕ} {l : List Blk} {h h1 h2 h3 : Heap μ} (hbF : b ∈ A.flist) (hl : l ⊆ A.flist)
    (hcb : c.addr = b.fin) (hc1 : Changes h h1 (linkCells l))
    (hc2 : Changes h1 h2 (splitCells (Layout.rest b r) (Layout.cut b r) c))
    (hc3 : Changes h2 h3 (linkCells (Layout.rest b r :: l))) :
    Changes h ((h3.put c.addr .bfree FALSE).put (Layout.cut b r).addr .free FALSE)
      (touched [b.addr, (Layout.cut b r).addr] b.fin A.flist) := by
  have hc3 : Changes h2 h3 (touched [b.addr, (Layout.cut b r).addr] b.fin A.flist) := by
    refine hc3.mono ?_
    rintro ⟨q, g⟩ ⟨d, hd, rfl, hg⟩
    rcases List.mem_cons.mp hd with rfl | hd
    · exact .inr (.inr ⟨b, hbF, rfl, hg⟩)
    · exact .inr (.inr ⟨d, hl hd, rfl, hg⟩)
  refine (hc1.mono (linkCells_touched hl)).trans <| (hc2.mono (splitCells_touched hcb)).trans <| hc3.trans <|
    (Changes.put h3 (n := FALSE) (by decide) ?_).trans (Changes.put _ (n := FALSE) (by decide) ?_)
  · exact .inr (.inl ⟨hcb, .inl rfl⟩)
  · exact .inl ⟨by simp, rfl⟩

/-- **`find`** cuts `r` bytes from the first block that is large enough, when that leaves a block. -/
theorem find_carve {pre post l₁ l₂ : List Blk} {b : Blk} {r n : ℕ} (hR : Rep m h A)
    (hb : A.blocks = pre ++ b :: post) (hf : A.flist = l₁ ++ b :: l₂) (hr : r + HEAD + 16 ≤ b.size) :
    Runs (findLoop r (n + 1) b.addr) h (fun p h' => p = (Layout.cut b r).addr ∧
      Rep m h' (A.carve hb hf r hr room_le) ∧
      Changes h h' (touched [b.addr, (Layout.cut b r).addr] b.fin A.flist)) := by
  set A' := A.carve hb hf r hr room_le with hA'
  have hbF : b ∈ A.flist := by rw [hf]; simp
  have hbA := A.mem_all_of_flist hbF
  have hbn := size_lt A hbA
  obtain ⟨c, tl, hall, hc, hcb⟩ := A.exists_next hb
  have hall' : A'.all = pre ++ Layout.rest b r :: Layout.cut b r :: c :: tl := by
    rw [Layout.all, hA', Layout.carve, List.append_assoc, List.cons_append, List.cons_append, hc]
  have hhd := hR.headers
  rw [hall] at hhd
  obtain ⟨⟨hfree, hsize⟩, -⟩ := hhd.middle
  have hfl : b.free = true := ((A.mem_flist b).mp hbF).2
  rw [hfl] at hfree
  have hsub := Layout.others_subset hf
  have hsub' : l₁ ++ l₂ ⊆ A'.flist := List.subset_cons_self _ _
  have hx : Layout.rest b r ∈ A'.all := by rw [hall']; simp
  have hs : Layout.cut b r ∈ A'.all := by rw [hall']; simp
  have hcA : c ∈ A'.all := by rw [hall']; simp
  have hcA₀ : c ∈ A.all := by rw [hall]; simp
  obtain ⟨⟨hxs, hxc, hsc⟩, hne⟩ := three_ne hall'
  refine find_detach hR hf (by omega) fun h1 hc1 hl1 => ?_
  have hm1 := hc1.mapped.trans hR.mapped
  have v1 : ∀ d ∈ A.all, ∀ f : Field, f.isLink = false → val h1 d.addr f = val h d.addr f :=
    fun d hd f hf => hc1.header_eq hsub hd hf
  rw [if_pos hr]
  unfold findSplit
  rw [int_eq (x := (r : ℤ)) (by omega)]
  -- through `split`
  refine runs_bind (Runs.imp ?_ (split_spec (x := Layout.rest b r) (s := Layout.cut b r) (A := A') hm1 hall' ?_ ?_))
  rotate_left
  · rw [show (Layout.rest b r).addr = b.addr from rfl, v1 b hbA _ rfl, hsize]
    simp only [Layout.rest, Layout.cut, HEAD] at hr ⊢
    omega
  · rw [show (Layout.rest b r).addr = b.addr from rfl, v1 b hbA _ rfl, hfree]
    rfl
  rintro p h2 ⟨rfl, hc2, hf2, vxs, vsbf, vsbs, vsf, vss, vcbs⟩
  have hm2 := hc2.mapped.trans hm1
  have v2 : ∀ d ∈ A'.all, ∀ f : Field, Owns d f → (d ≠ Layout.rest b r ∨ f ≠ .size) →
      (d ≠ Layout.cut b r ∨ f.isLink = true) → (d ≠ c ∨ f ≠ .bsize) → val h2 d.addr f = val h1 d.addr f :=
    fun d hd f ho e1 e2 e3 => hc2.val_eq (apart_splitCells hx hs hcA hd ho e1 e2 e3)
  have hl2 : Linked NULL (nxt h2) (prv h2) ((l₁ ++ l₂).map Blk.addr) := by
    refine linked_congr hsub' hl1 hf2 fun d hd f hfl => ?_
    exact v2 d (A'.mem_all_of_flist (hsub' hd)) f (.of_free ((A'.mem_flist d).mp (hsub' hd)).2)
      (.inr (Field.ne_of_isLink hfl rfl)) (.inr hfl) (.inr (Field.ne_of_isLink hfl rfl))
  -- through `insert`
  refine runs_bind (Runs.imp ?_ (insert_spec (A := A') (b := Layout.rest b r) hm2 rfl hl2))
  rintro - h3 ⟨hc3', hl3⟩
  have hm3 := hc3'.mapped.trans hm2
  have v3 : ∀ d ∈ A'.all, ∀ f : Field, f.isLink = false → val h3 d.addr f = val h2 d.addr f :=
    fun d hd f hf => hc3'.header_eq (List.Subset.refl _) hd hf
  have hs0 := A'.addr_pos m.pos hs
  refine runs_bind (runs_after hs0 (Layout.inside hm3 hs (.inl rfl)) ?_)
  rw [v3 _ hs _ rfl, vss, show (Layout.cut b r).addr + (Layout.cut b r).size + HEAD = c.addr by
    rw [hcb]; simp only [Layout.cut, Blk.fin, HEAD] at hr ⊢; omega]
  refine runs_bind (runs_wr (A'.addr_pos m.pos hcA) (Layout.inside hm3 hcA (.inl rfl)) ?_)
  refine runs_bind (runs_wr hs0 (Layout.inside hm3 hs (.inl rfl)) (runs_pure ?_))
  set h5 := (h3.put c.addr .bfree FALSE).put (Layout.cut b r).addr .free FALSE with hh5
  have hch : Changes h h5 (touched [b.addr, (Layout.cut b r).addr] b.fin A.flist) :=
    carve_changes hbF hsub hcb hc1 hc2 hc3'
  have v5 : ∀ d ∈ A'.all, ∀ f : Field, f.isLink = false → (d ≠ Layout.cut b r ∨ f ≠ .free) → (d ≠ c ∨ f ≠ .bfree) →
      val h5 d.addr f = val h2 d.addr f := by
    intro d hd f hf e1 e2
    rw [hh5, Layout.val_put hd hs (.inl hf) rfl (by decide), if_neg (by tauto),
      Layout.val_put hd hcA (.inl hf) rfl (by decide), if_neg (by tauto), v3 d hd f hf]
  refine ⟨rfl, ⟨hch.mapped.trans hR.mapped, hch.arena.trans hR.arena, hch.truncated.trans hR.exact, ?_, ?_⟩, hch⟩
  · rw [hall']
    refine cut_headers hhd hfl.symm (fun d hd f hf => ?_) (fun f hf hfs => ?_) ?_ ⟨?_, ?_, ?_, ?_⟩
      (fun f hf hff hfs => ?_) ⟨?_, ?_⟩
    · -- a block away from the cut keeps its header
      have hdA' : d ∈ A'.all := by rw [hall']; simp only [List.mem_append, List.mem_cons]; tauto
      have hdA : d ∈ A.all := by rw [hall]; simp only [List.mem_append, List.mem_cons]; tauto
      obtain ⟨h1, h2, h3⟩ := hne d hd
      rw [v5 d hdA' f hf (.inl h2) (.inl h3), v2 d hdA' f (.inl hf) (.inl h1) (.inl h2) (.inl h3), v1 d hdA f hf]
    · rw [v5 _ hx f hf (.inl hxs) (.inl hxc), v2 _ hx f (.inl hf) (.inr hfs) (.inl hxs) (.inl hxc)]
      exact v1 b hbA f hf
    · rw [v5 _ hx _ rfl (.inl hxs) (.inl hxc)]
      exact vxs
    · rw [v5 _ hs _ rfl (.inr (by decide)) (.inl hsc)]
      exact vsbf
    · rw [v5 _ hs _ rfl (.inr (by decide)) (.inl hsc)]
      exact vsbs
    · exact Heap.val_put_self (by decide)
    · rw [v5 _ hs _ rfl (.inr (by decide)) (.inl hsc)]
      exact vss
    · rw [v5 _ hcA f hf (.inl hsc.symm) (.inr hff), v2 _ hcA f (.inl hf) (.inl hxc.symm) (.inl hsc.symm) (.inr hfs),
        v1 c hcA₀ f hf]
    · rw [hh5, Layout.val_put hcA hs (.inl rfl) rfl (by decide), if_neg fun e => hsc e.1.symm]
      exact Heap.val_put_self (by decide)
    · rw [v5 _ hcA _ rfl (.inl hsc.symm) (.inr (by decide))]
      exact vcbs
  · have hput := linked_put (A := A') (List.Subset.refl _) hcA (g := .bfree) (n := FALSE) rfl (by decide) hl3
    exact linked_put (A := A') (List.Subset.refl _) hs rfl (by decide) hput

/-- **`find`** hands out the first block that is large enough whole, when a split would leave too little. -/
theorem find_claim {pre post l₁ l₂ : List Blk} {b : Blk} {r n : ℕ} (hR : Rep m h A)
    (hb : A.blocks = pre ++ b :: post) (hf : A.flist = l₁ ++ b :: l₂) (hr : r ≤ b.size)
    (hr' : b.size < r + HEAD + 16) :
    Runs (findLoop r (n + 1) b.addr) h (fun p h' => p = b.addr ∧ Rep m h' (A.claim hb hf) ∧
      Changes h h' (touched [b.addr] b.fin A.flist)) := by
  have hbF : b ∈ A.flist := by rw [hf]; simp
  have hbA := A.mem_all_of_flist hbF
  have hb0 := A.addr_pos m.pos hbA
  obtain ⟨c, tl, hall, hc, hcb⟩ := A.exists_next hb
  have hcA : c ∈ A.all := by rw [hall]; simp
  have hsub := Layout.others_subset hf
  have hsize := (hR.headers.mem hbA).2
  refine find_detach hR hf hr fun h1 hc1 hl1 => ?_
  have hm1 := hc1.mapped.trans hR.mapped
  have v1 : ∀ d ∈ A.all, ∀ f : Field, f.isLink = false → val h1 d.addr f = val h d.addr f :=
    fun d hd f hf => hc1.header_eq hsub hd hf
  have hin1 : ∀ f : Field, inside h1 b.addr f := fun f => inside_flist hm1 hbF
  rw [if_neg (by omega)]
  unfold findWhole
  have hsz : val (h1.put b.addr .free FALSE) b.addr .size = b.size := by
    rw [Layout.val_put hbA hbA (.inl rfl) rfl (by decide), if_neg (by simp), v1 b hbA _ rfl, hsize]
  refine runs_bind (runs_wr hb0 (hin1 _) (runs_bind (runs_after hb0 (hin1 _) ?_)))
  rw [hsz, show b.addr + b.size + HEAD = c.addr from hcb.symm]
  refine runs_bind (runs_wr (A.addr_pos m.pos hcA) (Layout.inside hm1 hcA (.inl rfl)) (runs_pure ?_))
  have hch : Changes h ((h1.put b.addr .free FALSE).put c.addr .bfree FALSE) (touched [b.addr] b.fin A.flist) :=
    (hc1.mono (linkCells_touched hsub)).trans (mark_changes (v := false) hcb)
  refine ⟨rfl, ⟨hch.mapped.trans hR.mapped, hch.arena.trans hR.arena, hch.truncated.trans hR.exact, ?_, ?_⟩, hch⟩
  · have hall' : (A.claim hb hf).all = pre ++ { b with free := false } :: c :: tl := by
      rw [Layout.all, Layout.claim, List.append_assoc, List.cons_append, hc]
    rw [hall']
    exact mark_headers hall (hR.headers.congr v1) false
  · exact linked_put hsub hcA rfl (by decide) (linked_put hsub hbA rfl (by decide) hl1)

/-! ### Giving a block back -/

/-- **A heap in which the block `j` is about to be freed**: it is on no list, and the headers are those of the layout
once its status has been set. -/
structure Opened (m : Mapping) (h : Heap μ) (A : Layout m.base (room μ)) (pre : List Blk) (j c : Blk) (tl : List Blk) :
    Prop where
  mapped : h.mapped = some m.base
  arena : h.arena = m.base
  exact : h.truncated = false
  all : A.all = pre ++ j :: c :: tl
  headers : Headers ((h.put j.addr .free TRUE).put c.addr .bfree TRUE) false 0
    (pre ++ { j with free := true } :: c :: tl)
  links : Linked NULL (nxt h) (prv h) (A.flist.map Blk.addr)

theorem Rep.opened {pre tl : List Blk} {b c : Blk} (hR : Rep m h A) (hall : A.all = pre ++ b :: c :: tl) :
    Opened m h A pre b c tl :=
  ⟨hR.mapped, hR.arena, hR.exact, hall, mark_headers hall hR.headers true, hR.links⟩

theorem Opened.val_mark {pre tl : List Blk} {j c d : Blk} (ho : Opened m h A pre j c tl) (hd : d ∈ A.all) {f : Field}
    (hf : f.isLink = false) : val ((h.put j.addr .free TRUE).put c.addr .bfree TRUE) d.addr f =
      if d = c ∧ f = .bfree then TRUE else if d = j ∧ f = .free then TRUE else val h d.addr f :=
  Dlmalloc.val_mark (by rw [ho.all]; simp) (by rw [ho.all]; simp) true hd hf

/-- The fields of `j` and of the block behind it, but for those that are about to be set. -/
theorem Opened.fields {pre tl : List Blk} {j c : Blk} (ho : Opened m h A pre j c tl) :
    val h j.addr .size = j.size ∧ val h c.addr .free = c.free.toNat ∧ val h c.addr .size = c.size := by
  obtain ⟨hjc, -⟩ := middle_ne ho.all
  obtain ⟨⟨-, h1⟩, -, -, h2, h3⟩ := ho.headers.middle
  have h1 : val ((h.put j.addr .free TRUE).put c.addr .bfree TRUE) j.addr .size = j.size := h1
  rw [ho.val_mark (by rw [ho.all]; simp) rfl] at h1 h2 h3
  simp only [reduceCtorEq, and_false, and_true, if_false] at h1 h2 h3
  rw [if_neg hjc.symm] at h2
  exact ⟨h1, h2, h3⟩

/-- **The end of `dfree`**: the status of `j` is set, and `j` goes to the front of the list. -/
theorem Opened.release {pre post tl : List Blk} {j c : Blk} (ho : Opened m h A pre j c tl)
    (hj : A.blocks = pre ++ j :: post) (hjt : j.free = false) (hr : room μ ≤ j.size) :
    Runs (do
      let aft ← after j.addr
      wr j.addr .free TRUE
      wr aft .bfree (← rd j.addr .free)
      insert j.addr) h
      (fun _ h' => Rep m h' (A.release hj hjt hr) ∧
        Changes h h' (touched [j.addr] j.fin (A.release hj hjt hr).flist)) := by
  set A' := A.release hj hjt hr with hA'
  have hjA : j ∈ A.all := by rw [ho.all]; simp
  have hcA : c ∈ A.all := by rw [ho.all]; simp
  have hj0 := A.addr_pos m.pos hjA
  have hcj : c.addr = j.fin := by
    have ht := A.tiled_all
    rw [ho.all] at ht
    obtain ⟨-, -, -, hc, -⟩ := tiled_append.mp ht
    exact hc
  have hall' : A'.all = pre ++ { j with free := true } :: c :: tl := by
    have hc : post ++ [sentinel m.base] = c :: tl := by
      have h1 := ho.all
      rw [Layout.all, hj, List.append_assoc, List.cons_append] at h1
      exact (List.cons.inj (List.append_cancel_left h1)).2
    rw [Layout.all, hA', Layout.release, List.append_assoc, List.cons_append, hc]
  have hin : ∀ d ∈ A.all, ∀ f : Field, f.isLink = false → inside h d.addr f :=
    fun d hd f hf => Layout.inside ho.mapped hd (.inl hf)
  have hfr : val (h.put j.addr .free TRUE) j.addr .free = TRUE := Heap.val_put_self (by decide)
  -- the two status bits are set
  refine runs_bind (runs_after hj0 (hin j hjA _ rfl) ?_)
  rw [ho.fields.1, show j.addr + j.size + HEAD = c.addr from hcj.symm]
  refine runs_bind (runs_wr hj0 (hin j hjA _ rfl) (runs_bind (runs_rd hj0 (hin j hjA _ rfl) ?_)))
  rw [hfr]
  refine runs_bind (runs_wr (A.addr_pos m.pos hcA) (hin c hcA _ rfl) ?_)
  set h2 := (h.put j.addr .free TRUE).put c.addr .bfree TRUE with hh2
  have hch2 : Changes h h2 (touched [j.addr] j.fin A'.flist) := mark_changes (v := true) hcj
  have hm2 := hch2.mapped.trans ho.mapped
  have hl2 : Linked NULL (nxt h2) (prv h2) (A.flist.map Blk.addr) :=
    linked_put (List.Subset.refl _) hcA rfl (by decide)
      (linked_put (List.Subset.refl _) hjA rfl (by decide) ho.links)
  -- the block goes to the front of the list
  refine Runs.imp ?_ (insert_spec (A := A') (b := { j with free := true }) hm2 rfl hl2)
  rintro - h3 ⟨hc3, hl3⟩
  have hch : Changes h h3 (touched [j.addr] j.fin A'.flist) := hch2.trans (hc3.mono fun d hd => .inr (.inr hd))
  refine ⟨⟨hch.mapped.trans ho.mapped, hch.arena.trans ho.arena, hch.truncated.trans ho.exact, ?_, hl3⟩, hch⟩
  have hh := ho.headers
  rw [← hall'] at hh
  exact hh.congr fun d hd f hf => hc3.header_eq (List.Subset.refl _) hd hf

/-- **`dfree`** of the taken block `b`. -/
theorem dfree_spec {pre post : List Blk} {b : Blk} (hR : Rep m h A) (hb : A.blocks = pre ++ b :: post)
    (hbt : b.free = false) (hr : room μ ≤ b.size) :
    Runs (dfree (b.addr + HEAD)) h (fun _ h' => Rep m h' (A.release hb hbt hr) ∧
      Changes h h' (touched [b.addr] b.fin (A.release hb hbt hr).flist)) := by
  obtain ⟨c, tl, hall, -, -⟩ := A.exists_next hb
  unfold dfree
  refine runs_ite (fun _ => ?_) fun h0 => absurd (by simp [NULL] : b.addr + HEAD ≠ NULL) h0
  rw [Nat.add_sub_cancel]
  exact (hR.opened hall).release hb hbt hr

end Seminars.Dlmalloc
