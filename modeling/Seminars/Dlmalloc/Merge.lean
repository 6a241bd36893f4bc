import Seminars.Dlmalloc.NullSafe
import Seminars.Dlmalloc.Whole

/-!
# Seminars.Dlmalloc.Merge — `merge`, with the call in `dfree` that the source has commented out

`merge` joins a taken block with its free neighbours.  While it works the joined block is on no list and its status is
not yet set (`Opened`).

* `Layout.join`: two blocks of a layout become one.
* `mergeBefore_spec`, `mergeAfter_spec`: the two halves of `merge`, each from an `Opened` heap to an `Opened` heap.
* `dfreeMerged_spec`: `dfree` with `merge`; `merge_coalesces`: a heap in which no two free blocks touch stays so.
-/

namespace Seminars.Dlmalloc

open Lib BlockMem

/-! ### Joining two blocks of a layout -/

namespace Layout

variable {base room : ℕ} {A : Layout base room} {pre post l₁ l₂ : List Blk} {x y b : Blk}

/-- Two blocks as one taken block. -/
def glue (x y : Blk) : Blk := ⟨x.addr, x.size + y.size + HEAD, false⟩

theorem glue_fin (h : y.addr = x.fin) : (glue x y).fin = y.fin := by
  simp only [glue, Blk.fin, HEAD] at *
  omega

/-- The blocks `x` and `y` become one taken block; `l` are the other free blocks. -/
def join (A : Layout base room) (h : A.blocks = pre ++ x :: y :: post) (l : List Blk) (hnd : l.Nodup)
    (hl : ∀ c, c ∈ l ↔ (c ∈ pre ∨ c ∈ post) ∧ c.free = true) : Layout base room where
  blocks := pre ++ glue x y :: post
  flist := l
  tiled := by
    have ht := A.tiled
    rw [h] at ht
    obtain ⟨c, h1, h2, h3, h4⟩ := tiled_append.mp ht
    refine tiled_append.mpr ⟨c, h1, h2, ?_⟩
    rw [glue_fin h3]
    exact h4
  nodup := hnd
  mem_flist c := by
    rw [hl]
    simp only [List.mem_append, List.mem_cons]
    constructor
    · rintro ⟨hc, hcf⟩
      exact ⟨hc.imp_right .inr, hcf⟩
    · rintro ⟨hc | rfl | hc, hcf⟩
      · exact ⟨.inl hc, hcf⟩
      · exact absurd hcf Bool.false_ne_true
      · exact ⟨.inr hc, hcf⟩
  fits c hc := by
    obtain ⟨hc, hcf⟩ := (hl c).mp hc
    refine A.fits c ((A.mem_flist c).mpr ⟨?_, hcf⟩)
    rw [h]
    simp only [List.mem_append, List.mem_cons]
    tauto

theorem free_of_or_taken {p q : Prop} (hb : b.free = false) (h : p ↔ x = b ∨ q) :
    p ∧ x.free = true ↔ q ∧ x.free = true := by
  rw [h]
  constructor
  · rintro ⟨rfl | hq, hx⟩
    · cases hb.symm.trans hx
    · exact ⟨hq, hx⟩
  · rintro ⟨hq, hx⟩
    exact ⟨.inr hq, hx⟩

theorem mem_without_before (h : A.blocks = pre ++ x :: b :: post) (hf : A.flist = l₁ ++ x :: l₂) (hb : b.free = false)
    (c : Blk) : c ∈ l₁ ++ l₂ ↔ (c ∈ pre ∨ c ∈ post) ∧ c.free = true := by
  rw [mem_of_flist h hf c]
  refine free_of_or_taken hb ?_
  rw [List.mem_cons]
  tauto

theorem mem_without_after (h : A.blocks = pre ++ b :: y :: post) (hf : A.flist = l₁ ++ y :: l₂) (hb : b.free = false)
    (c : Blk) : c ∈ l₁ ++ l₂ ↔ (c ∈ pre ∨ c ∈ post) ∧ c.free = true := by
  have h' : A.blocks = (pre ++ [b]) ++ y :: post := by rw [h]; simp
  rw [mem_of_flist h' hf c]
  refine free_of_or_taken hb ?_
  rw [List.mem_append, List.mem_singleton]
  tauto

end Layout

section Merge

variable {μ L V : Type} [BlockMem μ L V] {m : Mapping} {A : Layout m.base (room μ)} {h h' : Heap μ}
  {pre post tl l l₁ l₂ : List Blk} {x y b c j : Blk}

/-! ### Headers -/

/-- The headers once `x` and `y` are one block whose status is set: its size and status, the tags behind it. -/
theorem glue_headers {k h₁ : Heap μ} {x' : Blk} {n : ℕ} (hall : A.all = pre ++ x :: y :: c :: tl)
    (hk : Headers k false 0 (pre ++ x' :: y :: c :: tl)) (hx' : x'.addr = x.addr) (hn : n < 2 ^ 16)
    (hkeep : ∀ d ∈ A.all, d ≠ y → ∀ f : Field, f.isLink = false → (d = x → f ≠ .free) →
      val h₁ d.addr f = val k d.addr f) :
    Headers ((((h₁.put x.addr .size n).put c.addr .bsize n).put x.addr .free TRUE).put c.addr .bfree TRUE) false 0
      (pre ++ ⟨x.addr, n, true⟩ :: c :: tl) := by
  have hx : x ∈ A.all := by rw [hall]; simp
  have hc : c ∈ A.all := by rw [hall]; simp
  obtain ⟨⟨hxy, hxc, hyc⟩, hne⟩ := three_ne hall
  -- what the four stores leave in any header
  have hval : ∀ d ∈ A.all, ∀ f : Field, f.isLink = false →
      val ((((h₁.put x.addr .size n).put c.addr .bsize n).put x.addr .free TRUE).put c.addr .bfree TRUE) d.addr f =
        if d = c ∧ f = .bfree then TRUE else if d = x ∧ f = .free then TRUE else
        if d = c ∧ f = .bsize then n else if d = x ∧ f = .size then n else val h₁ d.addr f := by
    intro d hd f hf
    rw [Layout.val_put hd hc (.inl hf) rfl (by decide), Layout.val_put hd hx (.inl hf) rfl (by decide),
      Layout.val_put hd hc (.inl hf) rfl hn, Layout.val_put hd hx (.inl hf) rfl hn]
  -- the headers off the joined block are untouched
  have hother : ∀ d, d ∈ pre ∨ d ∈ tl → ∀ f : Field, f.isLink = false →
      val ((((h₁.put x.addr .size n).put c.addr .bsize n).put x.addr .free TRUE).put c.addr .bfree TRUE) d.addr f =
        val k d.addr f := by
    intro d hd f hf
    obtain ⟨h1, h2, h3⟩ := hne d hd
    have hdA : d ∈ A.all := by rw [hall]; simp only [List.mem_append, List.mem_cons]; tauto
    rw [hval d hdA f hf]
    simp only [h1, h3, false_and, if_false]
    exact hkeep d hdA h2 f hf fun e => absurd e h1
  obtain ⟨hpre, hxh, -, hch, htl⟩ := headers_append.mp hk
  rw [hx'] at hxh
  have kx : ∀ f : Field, f.isLink = false → f ≠ .free → val h₁ x.addr f = val k x.addr f :=
    fun f hf hff => hkeep x hx hxy f hf fun _ => hff
  have kc : ∀ f : Field, f.isLink = false → val h₁ c.addr f = val k c.addr f :=
    fun f hf => hkeep c hc hyc.symm f hf fun e => absurd e hxc.symm
  -- the four fields of the joined block, then those of the one behind it
  refine headers_append.mpr ⟨hpre.congr fun d hd => hother d (.inl hd), ⟨?_, ?_, ?_, ?_⟩, ⟨?_, ?_, ?_, ?_⟩,
    htl.congr fun d hd => hother d (.inr hd)⟩
  · rw [hval x hx _ rfl]
    simpa [hxc] using (kx _ rfl (by decide)).trans hxh.1
  · rw [hval x hx _ rfl]
    simpa [hxc] using (kx _ rfl (by decide)).trans hxh.2.1
  · rw [hval x hx _ rfl]
    simp [hxc]
  · rw [hval x hx _ rfl]
    simp [hxc]
  · rw [hval c hc _ rfl]
    simp
  · rw [hval c hc _ rfl]
    simp [hxc.symm]
  · rw [hval c hc _ rfl]
    simpa [hxc.symm] using (kc _ rfl).trans hch.2.2.1
  · rw [hval c hc _ rfl]
    simpa [hxc.symm] using (kc _ rfl).trans hch.2.2.2

/-- **The two stores that join `x` and `y`**, in a heap that has taken one of them off the list. -/
theorem opened_glue {k h₁ : Heap μ} {x' : Blk} (hb : A.blocks = pre ++ x :: y :: post)
    (hall : A.all = pre ++ x :: y :: c :: tl) (hnd : l.Nodup)
    (hl : ∀ d, d ∈ l ↔ (d ∈ pre ∨ d ∈ post) ∧ d.free = true) (hsub : l ⊆ A.flist) (hm : h₁.mapped = some m.base)
    (ha : h₁.arena = m.base) (he : h₁.truncated = false) (hk : Headers k false 0 (pre ++ x' :: y :: c :: tl))
    (hx' : x'.addr = x.addr) (hkeep : ∀ d ∈ A.all, d ≠ y → ∀ f : Field, f.isLink = false → (d = x → f ≠ .free) →
      val h₁ d.addr f = val k d.addr f) (hlinks : Linked NULL (nxt h₁) (prv h₁) (l.map Blk.addr)) :
    Opened m ((h₁.put x.addr .size (Layout.glue x y).size).put c.addr .bsize (Layout.glue x y).size)
        (A.join hb l hnd hl) pre (Layout.glue x y) c tl ∧
      Changes h₁ ((h₁.put x.addr .size (Layout.glue x y).size).put c.addr .bsize (Layout.glue x y).size)
        (touched [x.addr] c.addr A.flist) := by
  have hallB : (A.join hb l hnd hl).all = pre ++ Layout.glue x y :: c :: tl := by
    have hpost : post ++ [sentinel m.base] = c :: tl := by
      have h1 := hall
      rw [Layout.all, hb, List.append_assoc, List.cons_append, List.cons_append] at h1
      exact (List.cons.inj (List.cons.inj (List.append_cancel_left h1)).2).2
    rw [Layout.all, Layout.join, List.append_assoc, List.cons_append, hpost]
  have hn : (Layout.glue x y).size < 2 ^ 16 := size_lt (A.join hb l hnd hl) (by rw [hallB]; simp)
  have hx : x ∈ A.all := by rw [hall]; simp
  have hc : c ∈ A.all := by rw [hall]; simp
  have hch : Changes h₁ ((h₁.put x.addr .size (Layout.glue x y).size).put c.addr .bsize (Layout.glue x y).size)
      (touched [x.addr] c.addr A.flist) :=
    (Changes.put h₁ hn (.inl ⟨by simp, rfl⟩)).trans (Changes.put _ hn (.inr (.inl ⟨rfl, .inr rfl⟩)))
  refine ⟨⟨hch.mapped.trans hm, hch.arena.trans ha, hch.truncated.trans he, hallB, ?_, ?_⟩, hch⟩
  · exact glue_headers hall hk hx' hn hkeep
  · exact linked_put hsub hc rfl hn (linked_put hsub hx rfl hn hlinks)

/-! ### The two halves of `merge` -/

/-- The block before is free: merge it and the block. -/
def mergeBefore (block aft : ℕ) : M μ ℕ := do
  if (← rd block .bfree) = TRUE then do
    let bef ← before block
    detach bef
    let size := (← rd bef .size) + (← rd block .size) + HEAD
    wr bef .size size
    wr aft .bsize (← rd bef .size)
    pure bef
  else
    pure block

/-- The block after is free: merge the block and it. -/
def mergeAfter (block aft : ℕ) : M μ ℕ := do
  if (← rd aft .free) = TRUE then
    detach aft
    let size := (← rd block .size) + (← rd aft .size) + HEAD
    wr block .size size
    let aft ← after block
    wr aft .bsize (← rd block .size)
  return block

theorem merge_eq (block : ℕ) : merge (μ := μ) block = (do
    let aft ← after block
    let block ← mergeBefore block aft
    mergeAfter block aft) := by
  unfold merge mergeBefore
  refine congrArg (after block >>= ·) (funext fun aft => ?_)
  rw [bind_assoc]
  refine congrArg (rd block .bfree >>= ·) (funext fun v => ?_)
  by_cases hv : v = TRUE
  · rw [if_pos hv, if_pos hv]
    simp only [bind_assoc]
    rfl
  · rw [if_neg hv, if_neg hv]
    rfl

theorem mergeBefore_free (hR : Rep m h A) (hb : A.blocks = pre ++ x :: b :: post)
    (hall : A.all = pre ++ x :: b :: c :: tl) (hf : A.flist = l₁ ++ x :: l₂) (hbt : b.free = false) :
    Runs (mergeBefore b.addr c.addr) h (fun p h' => p = x.addr ∧
      Opened m h' (A.join hb (l₁ ++ l₂) (Layout.nodup_of_flist hf) (Layout.mem_without_before hb hf hbt)) pre
        (Layout.glue x b) c tl ∧
      Changes h h' (touched [x.addr] c.addr A.flist)) := by
  have hx : x ∈ A.all := by rw [hall]; simp
  have hbA : b ∈ A.all := by rw [hall]; simp
  have hcA : c ∈ A.all := by rw [hall]; simp
  have hxF : x ∈ A.flist := by rw [hf]; simp
  have hb0 := A.addr_pos m.pos hbA
  have hx0 := A.addr_pos m.pos hx
  have hhd := hR.headers
  rw [hall] at hhd
  obtain ⟨⟨-, hxs⟩, hbf, hbs, -, hbsz⟩ := hhd.middle
  rw [((A.mem_flist x).mp hxF).2] at hbf
  have hin : ∀ d ∈ A.all, ∀ f : Field, f.isLink = false → inside h d.addr f :=
    fun d hd f hf => Layout.inside hR.mapped hd (.inl hf)
  have hbx : b.addr = x.fin := by
    have ht := A.tiled_all
    rw [hall] at ht
    obtain ⟨-, -, -, hbx, -⟩ := tiled_append.mp ht
    exact hbx
  have hsub := Layout.others_subset hf
  refine runs_bind (runs_rd hb0 (hin b hbA _ rfl) (runs_ite (fun _ => ?_) fun h0 => absurd hbf h0))
  refine runs_bind (runs_bind (runs_rd hb0 (hin b hbA _ rfl) (runs_pure ?_)))
  rw [hbs, show b.addr - x.size - HEAD = x.addr by simp only [Blk.fin, HEAD] at hbx ⊢; omega]
  refine runs_bind (Runs.imp ?_ (detach_spec hR.mapped hf hR.links))
  rintro - h1 ⟨hc1, hl1⟩
  have hm1 := hc1.mapped.trans hR.mapped
  have hin1 : ∀ d ∈ A.all, ∀ f : Field, f.isLink = false → inside h1 d.addr f :=
    fun d hd f hf => hc1.inside_iff.mpr (hin d hd f hf)
  have v1 : ∀ d ∈ A.all, ∀ f : Field, f.isLink = false → val h1 d.addr f = val h d.addr f :=
    fun d hd f hf => hc1.header_eq hsub hd hf
  obtain ⟨hopen, hch⟩ := opened_glue hb hall (Layout.nodup_of_flist hf) (Layout.mem_without_before hb hf hbt) hsub hm1
    (hc1.arena.trans hR.arena) (hc1.truncated.trans hR.exact) hhd rfl (fun d hd _ f hf _ => v1 d hd f hf) hl1
  refine runs_bind (runs_rd hx0 (hin1 x hx _ rfl) (runs_bind (runs_rd hb0 (hin1 b hbA _ rfl) ?_)))
  rw [v1 x hx _ rfl, hxs, v1 b hbA _ rfl, hbsz]
  have hsz : val (h1.put x.addr .size (x.size + b.size + HEAD : ℕ)) x.addr .size = x.size + b.size + HEAD :=
    Heap.val_put_self (size_lt _ (b := Layout.glue x b) (by rw [hopen.all]; simp))
  refine runs_bind (runs_wr hx0 (hin1 x hx _ rfl) (runs_bind (runs_rd hx0 (hin1 x hx _ rfl) ?_)))
  rw [hsz]
  refine runs_bind (runs_wr (A.addr_pos m.pos hcA) (hin1 c hcA _ rfl) (runs_pure ⟨rfl, hopen, ?_⟩))
  exact (hc1.mono (linkCells_touched hsub)).trans hch

theorem mergeAfter_free {d : Blk} (ho : Opened m h A pre j y (d :: tl)) (hb : A.blocks = pre ++ j :: y :: post)
    (hf : A.flist = l₁ ++ y :: l₂) (hjt : j.free = false) :
    Runs (mergeAfter j.addr y.addr) h (fun p h' => p = j.addr ∧
      Opened m h' (A.join hb (l₁ ++ l₂) (Layout.nodup_of_flist hf) (Layout.mem_without_after hb hf hjt)) pre
        (Layout.glue j y) d tl ∧
      Changes h h' (touched [j.addr] d.addr A.flist)) := by
  have hall := ho.all
  have hj : j ∈ A.all := by rw [hall]; simp
  have hy : y ∈ A.all := by rw [hall]; simp
  have hd : d ∈ A.all := by rw [hall]; simp
  have hyF : y ∈ A.flist := by rw [hf]; simp
  have hj0 := A.addr_pos m.pos hj
  have hy0 := A.addr_pos m.pos hy
  obtain ⟨hjs, hyf, hys⟩ := ho.fields
  rw [((A.mem_flist y).mp hyF).2] at hyf
  have hin : ∀ e ∈ A.all, ∀ f : Field, f.isLink = false → inside h e.addr f :=
    fun e he f hf => Layout.inside ho.mapped he (.inl hf)
  obtain ⟨hyj, hdy⟩ : y.addr = j.fin ∧ d.addr = y.fin := by
    have ht := A.tiled_all
    rw [hall] at ht
    obtain ⟨-, -, -, h1, h2, -⟩ := tiled_append.mp ht
    exact ⟨h1, h2⟩
  have hsub := Layout.others_subset hf
  refine runs_bind (runs_rd hy0 (hin y hy _ rfl) (runs_ite (fun _ => ?_) fun h0 => absurd hyf h0))
  -- the block behind leaves the list; the headers stay
  refine runs_bind (Runs.imp ?_ (detach_spec ho.mapped hf ho.links))
  rintro - h1 ⟨hc1, hl1⟩
  have hm1 := hc1.mapped.trans ho.mapped
  have hin1 : ∀ e ∈ A.all, ∀ f : Field, f.isLink = false → inside h1 e.addr f :=
    fun e he f hf => hc1.inside_iff.mpr (hin e he f hf)
  have v1 : ∀ e ∈ A.all, ∀ f : Field, f.isLink = false → val h1 e.addr f = val h e.addr f :=
    fun e he f hf => hc1.header_eq hsub he hf
  have hkeep : ∀ e ∈ A.all, e ≠ y → ∀ f : Field, f.isLink = false → (e = j → f ≠ .free) → val h1 e.addr f =
      val ((h.put j.addr .free TRUE).put y.addr .bfree TRUE) e.addr f := by
    intro e he hey f hf hne
    rw [v1 e he f hf, ho.val_mark he hf, if_neg fun e => hey e.1, if_neg fun e => hne e.1 e.2]
  -- the stores that follow make the two blocks one
  obtain ⟨hopen, hch⟩ := opened_glue hb hall (Layout.nodup_of_flist hf) (Layout.mem_without_after hb hf hjt) hsub hm1
    (hc1.arena.trans ho.arena) (hc1.truncated.trans ho.exact) ho.headers rfl hkeep hl1
  refine runs_bind (runs_rd hj0 (hin1 j hj _ rfl) (runs_bind (runs_rd hy0 (hin1 y hy _ rfl) ?_)))
  rw [v1 j hj _ rfl, hjs, v1 y hy _ rfl, hys]
  refine runs_bind (runs_wr hj0 (hin1 j hj _ rfl) (runs_bind (runs_after hj0 (hin1 j hj _ rfl) ?_)))
  -- `after` is taken with the new size, so it is the header behind the pair
  have hsz : val (h1.put j.addr .size (j.size + y.size + HEAD : ℕ)) j.addr .size = j.size + y.size + HEAD :=
    Heap.val_put_self (size_lt _ (b := Layout.glue j y) (by rw [hopen.all]; simp))
  rw [hsz, show j.addr + (j.size + y.size + HEAD) + HEAD = d.addr by simp only [Blk.fin, HEAD] at hyj hdy ⊢; omega]
  refine runs_bind (runs_rd hj0 (hin1 j hj _ rfl) ?_)
  rw [hsz]
  refine runs_bind (runs_wr (A.addr_pos m.pos hd) (hin1 d hd _ rfl) (runs_pure ⟨rfl, hopen, ?_⟩))
  exact (hc1.mono (linkCells_touched hsub)).trans hch

/-! ### Payloads -/

/-- Nothing was stored into the payloads of the blocks `ds`, links of free blocks apart. -/
def SamePayloads (h h' : Heap μ) (ds : List Blk) : Prop :=
  ∀ d ∈ ds, ∀ x, d.addr + HEAD ≤ addr μ x → addr μ x < d.fin → (d.free = true → d.addr + HEAD + room μ ≤ addr μ x) →
    FootMem.read h'.mem x = FootMem.read h.mem x

theorem SamePayloads.trans {h'' : Heap μ} {ds : List Blk} (h1 : SamePayloads h h' ds) (h2 : SamePayloads h' h'' ds) :
    SamePayloads h h'' ds :=
  fun d hd x hx hx' hf => (h2 d hd x hx hx' hf).trans (h1 d hd x hx hx' hf)

theorem Changes.payloads {e : Blk} {ds : List Blk} (hch : Changes h h' (touched [e.addr] c.addr l)) (he : e ∈ A.all)
    (hc : c ∈ A.all) (hl : l ⊆ A.flist) (hds : ds ⊆ A.all) : SamePayloads h h' ds := by
  -- no header reaches into a payload
  have hheader : ∀ e ∈ A.all, ∀ f : Field, f.isLink = false → ∀ d ∈ A.all, ∀ x, d.addr + HEAD ≤ addr μ x →
      addr μ x < d.fin → x ∉ FootMem.foot μ (e.addr, f) := by
    intro e he f hf d hd x h1 h2 hx
    have h3 := foot_addr e.addr f x hx
    have h4 := span_header (μ := μ) f hf
    rcases A.tiled_all.eq_or_apart he hd with rfl | h5 | h5
    all_goals
      simp only [Blk.fin] at *
      omega
  intro d hd x h1 h2 hfree
  refine hch.frame x fun k hk hx => ?_
  obtain ⟨p, f⟩ := k
  rcases hk with ⟨hp, hf⟩ | ⟨hp, hf⟩ | ⟨g, hg, hp, hf⟩
  · obtain rfl : p = e.addr := List.mem_singleton.mp hp
    exact hheader e he f hf d (hds hd) x h1 h2 hx
  · obtain rfl : p = c.addr := hp
    have hf : f = .bfree ∨ f = .bsize := hf
    exact hheader c hc f (by rcases hf with rfl | rfl <;> rfl) d (hds hd) x h1 h2 hx
  · obtain rfl : p = g.addr := hp
    have hgf := ((A.mem_flist g).mp (hl hg)).2
    have hgA := A.mem_all_of_flist (hl hg)
    have h3 := foot_addr g.addr f x hx
    have h4 := span_le (μ := μ) f
    have h5 := Layout.span_le_fin hgA (.of_free (f := f) hgf)
    rcases A.tiled_all.eq_or_apart hgA (hds hd) with rfl | h6 | h6
    · have := hfree hgf
      omega
    all_goals
      simp only [Blk.fin] at *
      omega

/-! ### The free neighbours -/

/-- No two free blocks touch. -/
def Layout.Coalesced {base room : ℕ} (A : Layout base room) : Prop :=
  A.blocks.IsChain fun b c => ¬ (b.free = true ∧ c.free = true)

/-- **The free neighbours of `b`**, each of which may be missing. -/
structure Neighbours {base room : ℕ} (A : Layout base room) (b : Blk) (pre : List Blk) (left right : Option Blk)
    (post : List Blk) : Prop where
  blocks : A.blocks = pre ++ (left.toList ++ b :: (right.toList ++ post))
  leftFree : ∀ x ∈ left, x.free = true
  rightFree : ∀ y ∈ right, y.free = true
  before : left = none → ∀ d ∈ pre.getLast?, d.free = false
  behind : right = none → ∀ d ∈ post.head?, d.free = false

theorem exists_neighbours {base room : ℕ} {A : Layout base room} {b : Blk} (hb : b ∈ A.blocks) :
    ∃ pre left right post, Neighbours A b pre left right post := by
  obtain ⟨pre₀, post₀, h⟩ := List.append_of_mem hb
  obtain ⟨pre, left, hpre, hleft, hbefore⟩ : ∃ (pre : List Blk) (left : Option Blk), pre₀ = pre ++ left.toList ∧
      (∀ x ∈ left, x.free = true) ∧ (left = none → ∀ d ∈ pre.getLast?, d.free = false) := by
    rcases List.eq_nil_or_concat pre₀ with rfl | ⟨pre, x, rfl⟩
    · exact ⟨[], none, rfl, by simp, by simp⟩
    · cases hx : x.free with
      | true => exact ⟨pre, some x, by simp, by simp [hx], by simp⟩
      | false => exact ⟨pre ++ [x], none, by simp, by simp, by simp [hx]⟩
  obtain ⟨right, post, hpost, hright, hbehind⟩ : ∃ (right : Option Blk) (post : List Blk),
      post₀ = right.toList ++ post ∧ (∀ y ∈ right, y.free = true) ∧
      (right = none → ∀ d ∈ post.head?, d.free = false) := by
    cases post₀ with
    | nil => exact ⟨none, [], rfl, by simp, by simp⟩
    | cons y post =>
      cases hy : y.free with
      | true => exact ⟨some y, post, by simp, by simp [hy], by simp⟩
      | false => exact ⟨none, y :: post, by simp, by simp, by simp [hy]⟩
  exact ⟨pre, left, right, post, by rw [h, hpre, hpost, List.append_assoc], hleft, hright, hbefore, hbehind⟩

namespace Neighbours

variable {left right : Option Blk}

theorem ends (hn : Neighbours A b pre left right post) (hA : A.Coalesced) :
    (∀ d ∈ pre.getLast?, d.free = false) ∧ ∀ d ∈ post.head?, d.free = false := by
  have hchain := hA
  rw [Layout.Coalesced, hn.blocks] at hchain
  constructor
  · cases left with
    | none => exact hn.before rfl
    | some x =>
      intro d hd
      have hx := hn.leftFree x rfl
      have hdx := (List.isChain_append.mp hchain).2.2 d hd x (by simp)
      exact Bool.eq_false_iff.mpr fun hdf => hdx ⟨hdf, hx⟩
  · cases right with
    | none => exact hn.behind rfl
    | some y =>
      intro d hd
      have hy := hn.rightFree y rfl
      obtain ⟨-, hchain, -⟩ := List.isChain_append.mp hchain
      obtain ⟨-, hchain, -⟩ := List.isChain_append.mp hchain
      have hyd := (List.isChain_append.mp hchain.tail).2.2 y (by simp) d hd
      exact Bool.eq_false_iff.mpr fun hdf => hyd ⟨hy, hdf⟩

theorem coalesced (hn : Neighbours A b pre left right post) (hA : A.Coalesced) {B : Layout m.base (room μ)}
    (hB : B.blocks = pre ++ j :: post) : B.Coalesced := by
  obtain ⟨hpre, hpost⟩ := hn.ends hA
  have hchain := hA
  rw [Layout.Coalesced, hn.blocks] at hchain
  obtain ⟨h1, hchain, -⟩ := List.isChain_append.mp hchain
  obtain ⟨-, hchain, -⟩ := List.isChain_append.mp hchain
  obtain ⟨-, h2, -⟩ := List.isChain_append.mp hchain.tail
  rw [Layout.Coalesced, hB]
  refine List.isChain_append.mpr ⟨h1, ?_, fun d hd y hy => ?_⟩
  · cases post with
    | nil => exact .singleton _
    | cons d post =>
      refine .cons_cons (fun hdf => ?_) h2
      exact absurd hdf.2 (by simp [hpost d rfl])
  · rintro ⟨hdf, -⟩
    exact absurd hdf (by simp [hpre d hd])

end Neighbours

theorem Layout.Coalesced.whole {base room : ℕ} {A : Layout base room} (hA : A.Coalesced)
    (hfree : ∀ d ∈ A.blocks, d.free = true) : A.blocks = [⟨base, ARENA - 2 * HEAD, true⟩] := by
  have hone : A.blocks.length = 1 := by
    have hpos := A.length_pos
    rw [Layout.Coalesced] at hA
    match hl : A.blocks with
    | [] => simp [hl] at hpos
    | [_] => rfl
    | x :: y :: l =>
      rw [hl] at hA hfree
      exact absurd ⟨hfree x (by simp), hfree y (by simp)⟩ (List.isChain_cons_cons.mp hA).1
  obtain ⟨d, hd, hsize⟩ := Layout.one_block hone
  have ht := A.tiled
  rw [hd] at ht hfree ⊢
  obtain rfl : d = ⟨base, ARENA - 2 * HEAD, true⟩ := by
    cases d
    simp_all [Tiled]
  rfl

/-! ### `merge` -/

theorem endTag_concat (pf : Bool) (ps : ℕ) (l : List Blk) (d : Blk) : endTag pf ps (l ++ [d]) = (d.free, d.size) := by
  induction l generalizing pf ps with
  | nil => rfl
  | cons e l ih => exact ih e.free e.size

/-- The tag behind blocks the last of which is not free. -/
theorem bfree_false (hh : Headers h false 0 (pre ++ b :: tl)) (hpre : ∀ d ∈ pre.getLast?, d.free = false) :
    val h b.addr .bfree = FALSE := by
  obtain ⟨-, ⟨hbf, -⟩, -⟩ := headers_append.mp hh
  have htag : (endTag false 0 pre).1 = false := by
    rcases List.eq_nil_or_concat pre with rfl | ⟨pre, d, rfl⟩
    · rfl
    · rw [List.concat_eq_append, endTag_concat]
      exact hpre d (by simp)
  rw [htag] at hbf
  exact hbf

/-- Without the block `x`, which stands on the list once. -/
theorem filter_without (hf : A.flist = l₁ ++ x :: l₂) : l₁ ++ l₂ = A.flist.filter fun d => d ∉ [x] := by
  obtain ⟨hx, -⟩ := List.nodup_cons.mp (List.nodup_middle.mp (hf ▸ A.nodup))
  rw [List.mem_append, not_or] at hx
  have hkeep : ∀ l : List Blk, x ∉ l → l.filter (fun d => d ∉ [x]) = l := fun l hl =>
    List.filter_eq_self.mpr fun d hd => by
      have hdx : d ≠ x := fun e => hl (e ▸ hd)
      simpa using hdx
  rw [hf, List.filter_append, List.filter_cons_of_neg (by simp), hkeep l₁ hx.1, hkeep l₂ hx.2]

/-- **The first half of `merge`.** -/
theorem mergeBefore_spec {left : Option Blk} (hR : Rep m h A) (hb : A.blocks = pre ++ (left.toList ++ b :: post))
    (hall : A.all = pre ++ (left.toList ++ b :: c :: tl)) (hleft : ∀ x ∈ left, x.free = true)
    (hnone : left = none → ∀ d ∈ pre.getLast?, d.free = false) (hbt : b.free = false) :
    ∃ (B : Layout m.base (room μ)) (j : Blk), B.blocks = pre ++ j :: post ∧ j.free = false ∧
      Tiled j.addr (left.toList ++ [b]) j.fin ∧ (B.flist = A.flist.filter fun d => d ∉ left.toList) ∧
      (room μ ≤ b.size ∨ left ≠ none → room μ ≤ j.size) ∧
      Runs (mergeBefore b.addr c.addr) h (fun p h' => p = j.addr ∧ Opened m h' B pre j c tl ∧
        SamePayloads h h' (pre ++ post)) := by
  cases left with
  | none =>
    have hbA : b ∈ A.all := by rw [hall]; simp
    have hhd := hR.headers
    rw [hall] at hhd
    have hbf : val h b.addr .bfree = FALSE := bfree_false hhd (hnone rfl)
    refine ⟨A, b, hb, hbt, ⟨rfl, rfl⟩, by simp, fun hr => hr.resolve_right (absurd rfl), ?_⟩
    refine runs_bind (runs_rd (A.addr_pos m.pos hbA) (Layout.inside hR.mapped hbA (.inl rfl)) ?_)
    rw [hbf]
    exact runs_ite (fun h1 => absurd h1 (by decide)) fun _ =>
      runs_pure ⟨rfl, hR.opened hall, fun _ _ _ _ _ _ => rfl⟩
  | some x =>
    have hxA : x ∈ A.all := by rw [hall]; simp
    have hxF := A.mem_flist_of_all hxA (hleft x rfl)
    obtain ⟨l₁, l₂, hf⟩ := List.append_of_mem hxF
    have hbx : b.addr = x.fin := by
      have ht := A.tiled
      rw [hb] at ht
      obtain ⟨-, -, -, hbx, -⟩ := tiled_append.mp ht
      exact hbx
    refine ⟨A.join hb (l₁ ++ l₂) (Layout.nodup_of_flist hf) (Layout.mem_without_before hb hf hbt), Layout.glue x b,
      rfl, rfl, ⟨rfl, hbx, (Layout.glue_fin hbx).symm⟩, filter_without hf, fun _ => ?_,
      Runs.imp ?_ (mergeBefore_free hR hb hall hf hbt)⟩
    · have := A.fits x hxF
      simp only [Layout.glue]
      omega
    · rintro p h' ⟨rfl, ho, hch⟩
      refine ⟨rfl, ho, hch.payloads hxA (by rw [hall]; simp) (List.Subset.refl _) fun d hd => A.mem_all_of_mem ?_⟩
      rw [hb]
      simp only [List.mem_append, List.mem_cons] at hd ⊢
      tauto

/-- **The second half of `merge`.** -/
theorem mergeAfter_spec {right : Option Blk} (ho : Opened m h A pre j c tl)
    (hb : A.blocks = pre ++ j :: (right.toList ++ post)) (hright : ∀ y ∈ right, y.free = true)
    (hnone : right = none → ∀ d ∈ post.head?, d.free = false) (hjt : j.free = false) :
    ∃ (B : Layout m.base (room μ)) (J c' : Blk) (tl' : List Blk), B.blocks = pre ++ J :: post ∧ J.free = false ∧
      Tiled J.addr (j :: right.toList) J.fin ∧ (B.flist = A.flist.filter fun d => d ∉ right.toList) ∧
      (room μ ≤ j.size ∨ right ≠ none → room μ ≤ J.size) ∧
      Runs (mergeAfter j.addr c.addr) h (fun p h' => p = J.addr ∧ Opened m h' B pre J c' tl' ∧
        SamePayloads h h' (pre ++ post)) := by
  have hbehind : right.toList ++ post ++ [sentinel m.base] = c :: tl := by
    have h1 := ho.all
    rw [Layout.all, hb, List.append_assoc, List.cons_append] at h1
    exact (List.cons.inj (List.append_cancel_left h1)).2
  have hcA : c ∈ A.all := by rw [ho.all]; simp
  cases right with
  | none =>
    -- the header behind is taken: `mergeAfter` reads its status and stops
    have hct : c.free = false := by
      cases post with
      | nil =>
        obtain rfl := (List.cons.inj hbehind).1
        rfl
      | cons d post =>
        obtain rfl := (List.cons.inj hbehind).1
        exact hnone rfl d rfl
    obtain ⟨-, hcf, -⟩ := ho.fields
    rw [hct] at hcf
    refine ⟨A, j, c, tl, hb, hjt, ⟨rfl, rfl⟩, by simp, fun hr => hr.resolve_right (absurd rfl), ?_⟩
    refine runs_bind (runs_rd (A.addr_pos m.pos hcA) (Layout.inside ho.mapped hcA (.inl rfl)) ?_)
    rw [hcf]
    exact runs_ite (fun h1 => absurd h1 (by decide)) fun _ => runs_pure ⟨rfl, ho, fun _ _ _ _ _ _ => rfl⟩
  | some y =>
    -- `y` is free, so it stands on the list and is joined to `j`
    obtain ⟨rfl, htl⟩ := List.cons.inj hbehind
    obtain ⟨d, tl', hd⟩ : ∃ d tl', post ++ [sentinel m.base] = d :: tl' := by
      cases post <;> simp
    obtain rfl : tl = d :: tl' := htl.symm.trans hd
    have hyF := A.mem_flist_of_all hcA (hright y rfl)
    obtain ⟨l₁, l₂, hf⟩ := List.append_of_mem hyF
    have hyj : y.addr = j.fin := by
      have ht := A.tiled
      rw [hb] at ht
      obtain ⟨-, -, -, hyj, -⟩ := tiled_append.mp ht
      exact hyj
    refine ⟨A.join hb (l₁ ++ l₂) (Layout.nodup_of_flist hf) (Layout.mem_without_after hb hf hjt), Layout.glue j y,
      d, tl', rfl, rfl, ⟨rfl, hyj, (Layout.glue_fin hyj).symm⟩, filter_without hf, fun _ => ?_,
      Runs.imp ?_ (mergeAfter_free ho hb hf hjt)⟩
    · have := A.fits y hyF
      simp only [Layout.glue]
      omega
    · rintro p h' ⟨rfl, ho', hch⟩
      refine ⟨rfl, ho', hch.payloads (by rw [ho.all]; simp) (by rw [ho.all]; simp) (List.Subset.refl _)
        fun e he => A.mem_all_of_mem ?_⟩
      rw [hb]
      simp only [List.mem_append, List.mem_cons] at he ⊢
      tauto

/-- **`merge`** of the taken block `b`: it and its free neighbours are one block, which is on no list. -/
theorem merge_spec {left right : Option Blk} (hR : Rep m h A) (hn : Neighbours A b pre left right post)
    (hbt : b.free = false) :
    ∃ (B : Layout m.base (room μ)) (j c : Blk) (tl : List Blk), B.blocks = pre ++ j :: post ∧ j.free = false ∧
      Tiled j.addr (left.toList ++ b :: right.toList) j.fin ∧
      (B.flist = A.flist.filter fun d => d ∉ left.toList ++ right.toList) ∧
      (room μ ≤ b.size ∨ left ≠ none ∨ right ≠ none → room μ ≤ j.size) ∧
      Runs (merge b.addr) h (fun p h' => p = j.addr ∧ Opened m h' B pre j c tl ∧ SamePayloads h h' (pre ++ post)) := by
  have hb : A.blocks = (pre ++ left.toList) ++ b :: (right.toList ++ post) := by rw [hn.blocks, List.append_assoc]
  obtain ⟨c, tl, hall, -, hcb⟩ := A.exists_next hb
  have hbA : b ∈ A.all := by rw [hall]; simp
  obtain ⟨B₁, j₁, hB₁, hj₁, ht₁, hf₁, hr₁, hrun₁⟩ := mergeBefore_spec hR hn.blocks (by rw [hall, List.append_assoc])
    hn.leftFree hn.before hbt
  obtain ⟨p, h₁, hrun₁, rfl, ho₁, hp₁⟩ := hrun₁
  obtain ⟨B, j, c', tl', hB, hj, ht, hf, hr, hrun⟩ := mergeAfter_spec ho₁ hB₁ hn.rightFree hn.behind hj₁
  refine ⟨B, j, c', tl', hB, hj, ?_, ?_, fun hroom => ?_, ?_⟩
  · obtain ⟨haddr, ht⟩ := ht
    rw [haddr] at ht₁
    rw [← List.singleton_append, ← List.append_assoc]
    exact tiled_append.mpr ⟨_, ht₁, ht⟩
  · rw [hf, hf₁, List.filter_filter]
    refine List.filter_congr fun d _ => ?_
    simp [not_or, Bool.and_comm]
  · rcases hroom with hroom | hroom | hroom
    · exact hr (.inl (hr₁ (.inl hroom)))
    · exact hr (.inl (hr₁ (.inr hroom)))
    · exact hr (.inr hroom)
  · rw [merge_eq]
    refine runs_bind (runs_after (A.addr_pos m.pos hbA) (Layout.inside hR.mapped hbA (.inl rfl)) ?_)
    rw [(hR.headers.mem hbA).2, show b.addr + b.size + HEAD = c.addr from hcb.symm]
    refine runs_bind ⟨_, h₁, hrun₁, Runs.imp ?_ hrun⟩
    rintro p h' ⟨rfl, ho, hp⟩
    refine ⟨rfl, ho, SamePayloads.trans (fun d hd => hp₁ d ?_) hp⟩
    simp only [List.mem_append] at hd ⊢
    tauto

/-! ### `dfree` with the call of `merge` -/

/-- `dfree`, with `merge` called where its comment has the call -/
def dfreeMerged (memory : ℕ) : M μ Unit := do
  if memory ≠ NULL then
    let block := memory - HEAD
    let block ← merge block
    let aft ← after block
    wr block .free TRUE
    wr aft .bfree (← rd block .free)
    insert block

/-- **`dfree` with `merge`** of the taken block `b`, when the block that `merge` makes has room for its links. -/
theorem dfreeMerged_spec (hR : Rep m h A) (hA : A.Coalesced) (hn : Neighbours A b pre left right post)
    (hbt : b.free = false) (hroom : room μ ≤ b.size ∨ left ≠ none ∨ right ≠ none) :
    ∃ (J : Blk) (B : Layout m.base (room μ)), J.free = true ∧ Tiled J.addr (left.toList ++ b :: right.toList) J.fin ∧
      B.blocks = pre ++ J :: post ∧ B.flist = J :: A.flist.filter (fun d => d ∉ left.toList ++ right.toList) ∧
      B.Coalesced ∧ Runs (dfreeMerged (b.addr + HEAD)) h fun _ h' => Rep m h' B ∧ SamePayloads h h' (pre ++ post) := by
  obtain ⟨B, j, c, tl, hB, hj, ht, hf, hr, hrun⟩ := merge_spec hR hn hbt
  refine ⟨{ j with free := true }, B.release hB hj (hr hroom), rfl, ht, rfl, congrArg (_ :: ·) hf,
    hn.coalesced hA rfl, ?_⟩
  unfold dfreeMerged
  refine runs_ite (fun _ => ?_) fun h0 => absurd (by simp [NULL] : b.addr + HEAD ≠ NULL) h0
  rw [Nat.add_sub_cancel]
  refine runs_bind (Runs.imp ?_ hrun)
  rintro p h₁ ⟨rfl, ho, hp⟩
  refine Runs.imp ?_ (ho.release hB hj (hr hroom))
  rintro - h' ⟨hR', hch⟩
  obtain ⟨d, tl', hall, -, hd⟩ := (B.release hB hj (hr hroom)).exists_next rfl
  have hd : d.addr = j.fin := hd
  rw [← hd] at hch
  -- the stores of the end of `dfree` lie in headers and links
  refine ⟨hR', hp.trans (Changes.payloads (e := { j with free := true }) hch ?_ ?_ (List.Subset.refl _) fun e he => ?_)⟩
  · rw [hall]
    simp
  · rw [hall]
    simp
  · refine Layout.mem_all_of_mem _ ?_
    simp only [Layout.release, List.mem_append, List.mem_cons] at he ⊢
    tauto

theorem dfreeMerged_null : Runs (dfreeMerged NULL) h (fun _ h' => h' = h) :=
  runs_ite (fun h0 => absurd rfl h0) fun _ => runs_pure rfl

/-- **`merge` coalesces.**  In a heap in which no two free blocks touch, freeing the taken block `b` with `merge` makes
one free block of it and its free neighbours, provided that block has room for its links.  It goes to the front of the
free list; the other blocks, their payloads and the order of the other free blocks stay; again no two free blocks
touch; and when nothing is taken any more, the heap is one free block. -/
theorem merge_coalesces (hR : Rep m h A) (hA : A.Coalesced) (hb : b ∈ A.blocks) (hbt : b.free = false) :
    ∃ pre left right post, Neighbours A b pre left right post ∧
      (room μ ≤ b.size ∨ left ≠ none ∨ right ≠ none → ∃ (J : Blk) (B : Layout m.base (room μ)),
        J.free = true ∧ Tiled J.addr (left.toList ++ b :: right.toList) J.fin ∧
        B.blocks = pre ++ J :: post ∧
        B.flist = J :: A.flist.filter (fun d => d ∉ left.toList ++ right.toList) ∧ B.Coalesced ∧
        Runs (dfreeMerged (b.addr + HEAD)) h (fun _ h' => Rep m h' B ∧ SamePayloads h h' (pre ++ post)) ∧
        ((∀ d ∈ B.blocks, d.free = true) → B.blocks = [⟨m.base, ARENA - 2 * HEAD, true⟩])) := by
  obtain ⟨pre, left, right, post, hn⟩ := exists_neighbours hb
  refine ⟨pre, left, right, post, hn, fun hroom => ?_⟩
  obtain ⟨J, B, hJ, ht, hB, hf, hco, hrun⟩ := dfreeMerged_spec hR hA hn hbt hroom
  exact ⟨J, B, hJ, ht, hB, hf, hco, hrun, hco.whole⟩

theorem Layout.coalesced_of_length {base room : ℕ} {A : Layout base room} (hA : A.flist.length ≤ 1) : A.Coalesced := by
  refine List.isChain_iff_forall_rel_of_append_cons_cons.mpr fun x y l₁ l₂ h ⟨hx, hy⟩ => ?_
  have hnd := A.tiled.nodup
  rw [h] at hnd
  have hxy : x ≠ y := by
    rintro rfl
    obtain ⟨-, hnd, -⟩ := List.nodup_append.mp hnd
    exact (List.nodup_cons.mp hnd).1 (by simp)
  have hxF := (A.mem_flist x).mpr ⟨by rw [h]; simp, hx⟩
  have hyF := (A.mem_flist y).mpr ⟨by rw [h]; simp, hy⟩
  rcases hl : A.flist with _ | ⟨z, _ | ⟨w, l⟩⟩
  · rw [hl] at hxF
    exact absurd hxF (by simp)
  · rw [hl, List.mem_singleton] at hxF hyF
    exact hxy (hxF.trans hyF.symm)
  · rw [hl] at hA
    simp at hA

end Merge

/-! ### On bytes -/

section Bytes

variable {m : Mapping} {s : Session Bytes} {tr : List (Session Bytes × Call)}

/-- A run that frees nothing ends in a heap that holds a layout, and whose free list says how many blocks are free. -/
theorem Started.coalesced (hst : Started m tr s) (hno : ∀ t p, (t, .dfree p) ∉ tr) {h' : Heap Bytes}
    (hlen : freelistlength.run s.heap = .ok (1, h')) : ∃ A, Holds m s A ∧ A.Coalesced := by
  obtain ⟨A, hh, -⟩ := hst.holds (P := fun _ => True) trivial fun t c _ hm _ _ _ _ =>
    ⟨roomy_of_ne fun p hc => hno t p (hc ▸ hm), fun _ _ => trivial⟩
  obtain ⟨hone, -⟩ := (length_spec hh.rep).of_eq hlen
  exact ⟨A, hh, Layout.coalesced_of_length hone.symm.le⟩

/-- A block of 40 bytes whose left neighbour is free. -/
theorem merge_coalesces_forty : ∃ (m : Mapping) (h : Heap Bytes) (A : Layout m.base (room Bytes)) (b : Blk),
    b.size = 40 ∧ ∃ pre left right post, Neighbours A b pre left right post ∧
      (room Bytes ≤ b.size ∨ left ≠ none ∨ right ≠ none → ∃ (J : Blk) (B : Layout m.base (room Bytes)),
        J.free = true ∧ Tiled J.addr (left.toList ++ b :: right.toList) J.fin ∧
        B.blocks = pre ++ J :: post ∧
        B.flist = J :: A.flist.filter (fun d => d ∉ left.toList ++ right.toList) ∧ B.Coalesced ∧
        Runs (dfreeMerged (b.addr + HEAD)) h (fun _ h' => Rep m h' B ∧ SamePayloads h h' (pre ++ post)) ∧
        ((∀ d ∈ B.blocks, d.free = true) → B.blocks = [⟨m.base, ARENA - 2 * HEAD, true⟩])) := by
  obtain ⟨tr, s, htr, hst, hc⟩ := exists_started .second (fun _ => 0 : Bytes) [.dalloc 24, .dalloc 40]
    (fun s => decide (69552 ∈ s.live ∧ val s.heap (69552 - HEAD) .size = 40) &&
      check freelistlength s.heap fun i _ => decide (i = 1)) (by decide +kernel)
  obtain ⟨hc, hlen⟩ := Bool.and_eq_true_iff.mp hc
  obtain ⟨hlive, hsize⟩ := of_decide_eq_true hc
  obtain ⟨i, h', hrun, hi⟩ := runs_of_check hlen
  obtain rfl : i = 1 := of_decide_eq_true hi
  have hno : ∀ t p, (t, .dfree p) ∉ tr := by
    intro t p hm
    have hm := mem_labels htr hm
    simp at hm
  obtain ⟨A, hh, hA⟩ := hst.coalesced hno hrun
  obtain ⟨b, pre, post, hb, hbt, hp, hsz⟩ := hh.block hlive
  exact ⟨.second, s.heap, A, b, hsz.symm.trans hsize, merge_coalesces hh.rep hA (by rw [hb]; simp) hbt⟩

/-- Without room for its links a block is not joined with anything: `dalloc(16)`, `q = dalloc(8)`, `dalloc(16)`, and
`insert` overwrites the size in the header behind `q`. -/
theorem merge_overwrites : ∃ (m : Mapping) (h : Heap Bytes) (A : Layout m.base (room Bytes)) (b d : Blk),
    Rep m h A ∧ A.Coalesced ∧ (b ∈ A.blocks ∧ b.free = false) ∧ (d ∈ A.blocks ∧ d.free = false ∧ d ≠ b) ∧
      Runs (dfreeMerged (b.addr + HEAD)) h fun _ h' => val h' d.addr .size ≠ d.size := by
  obtain ⟨tr, s, htr, hst, hc⟩ := exists_started .second (fun _ => 0 : Bytes) [.dalloc 16, .dalloc 8, .dalloc 16]
    (fun s => decide (69592 ∈ s.live ∧ 69608 ∈ s.live ∧ val s.heap (69608 - HEAD) .size = 16) &&
      (check freelistlength s.heap fun i _ => decide (i = 1)) &&
      check (dfreeMerged 69592) s.heap fun _ h' => decide (val h' 69600 .size = 0)) (by decide +kernel)
  obtain ⟨hc, hover⟩ := Bool.and_eq_true_iff.mp hc
  obtain ⟨hc, hlen⟩ := Bool.and_eq_true_iff.mp hc
  obtain ⟨hlive, hlive', hsize⟩ := of_decide_eq_true hc
  obtain ⟨i, h', hrun, hi⟩ := runs_of_check hlen
  obtain rfl : i = 1 := of_decide_eq_true hi
  have hno : ∀ t p, (t, .dfree p) ∉ tr := by
    intro t p hm
    have hm := mem_labels htr hm
    simp at hm
  obtain ⟨A, hh, hA⟩ := hst.coalesced hno hrun
  obtain ⟨b, pre, post, hb, hbt, hp, -⟩ := hh.block hlive
  obtain ⟨d, pre', post', hd, hdt, hp', hsz⟩ := hh.block hlive'
  have hdb : d ≠ b := by
    rintro rfl
    omega
  have haddr : d.addr = 69600 := by
    simp only [HEAD] at hp'
    omega
  refine ⟨.second, s.heap, A, b, d, hh.rep, hA, ⟨by rw [hb]; simp, hbt⟩, ⟨by rw [hd]; simp, hdt, hdb⟩, ?_⟩
  rw [← hp, haddr, ← hsz, hsize]
  refine Runs.imp (fun _ h' hz => ?_) (runs_of_check hover)
  rw [of_decide_eq_true hz]
  decide

end Bytes

end Seminars.Dlmalloc
