import Seminars.Dlmalloc.Request

/-!
# Seminars.Dlmalloc.Damage — what a call leaves alone

`Intact m s s' p`: going from `s` to `s'`, a call about the pointer `p` changed no byte of a payload held before
and after, no byte outside the arena, and among the headers only the one of the block `p` lies in and the tags
of the block behind it.

* `Reach A b C`: the cells `C` belong to the block `b`, to the tags behind it and to the links of free blocks;
  so do those of first fit and of `dfree` (`Took.reach`, `reach_release`).
* `no_damage`: on the bytes of the arena, in a run that frees blocks of at least 16 bytes only, every call is
  harmless.  Such blocks have room for `next` and `prev`; `dfree_damage` frees a smaller one.
-/

namespace Seminars.Dlmalloc

open Lib BlockMem

/-- The cells of an operation on the block `b` of `A`: headers inside `b`, the tags behind it, links of free
blocks and of `b` itself. -/
def Reach {base room : ℕ} (A : Layout base room) (b : Blk) (C : Set (ℕ × Field)) : Prop :=
  ∀ d ∈ C, (b.addr ≤ d.1 ∧ d.1 + HEAD ≤ b.fin ∧ d.2.isLink = false) ∨
    (d.1 = b.fin ∧ (d.2 = .bfree ∨ d.2 = .bsize)) ∨
    (∃ e ∈ A.blocks, (e = b ∨ e ∈ A.flist) ∧ d.1 = e.addr ∧ d.2.isLink = true ∧ room ≤ e.size)

section Reach

variable {base room : ℕ} {A A' : Layout base room} {r p : ℕ} {C : Set (ℕ × Field)}

/-- First fit works on the free block that holds the pointer it returns. -/
theorem Took.reach (ht : Took A r p A' C) (hp : p ≠ NULL) :
    ∃ b ∈ A.blocks, b.free = true ∧ b.addr < p ∧ p ≤ b.fin ∧ Reach A b C := by
  have hlinks : ∀ {b : Blk} {d : ℕ × Field}, d ∈ linkCells A.flist →
      ∃ e ∈ A.blocks, (e = b ∨ e ∈ A.flist) ∧ d.1 = e.addr ∧ d.2.isLink = true ∧ room ≤ e.size :=
    fun ⟨e, he, h1, h2⟩ => ⟨e, A.mem_blocks_of_flist he, .inr he, h1, h2, A.fits e he⟩
  cases ht with
  | none h => exact absurd rfl hp
  | @carve pre post l₁ l₂ b hb hf h1 hr hroom =>
    refine ⟨b, by rw [hb]; simp, ((A.mem_flist b).mp (by rw [hf]; simp)).2, ?_, ?_, ?_⟩
    · simp only [Layout.cut, HEAD]
      omega
    · simp only [Layout.cut, Blk.fin, HEAD] at hr ⊢
      omega
    · rintro d (⟨hd, hl⟩ | hd | hd)
      · refine .inl ⟨?_, ?_, hl⟩
        all_goals
          simp only [List.mem_cons, List.not_mem_nil, or_false, Layout.cut, Blk.fin, HEAD] at hd hr ⊢
          omega
      · exact .inr (.inl hd)
      · exact .inr (.inr (hlinks hd))
  | @claim pre post l₁ l₂ b hb hf h1 hr hr' =>
    refine ⟨b, by rw [hb]; simp, ((A.mem_flist b).mp (by rw [hf]; simp)).2, ?_, ?_, ?_⟩
    · simp only [HEAD]
      omega
    · simp only [Blk.fin, HEAD]
      omega
    · rintro d (⟨hd, hl⟩ | hd | hd)
      · obtain hd := List.mem_singleton.mp hd
        refine .inl ⟨Nat.le_of_eq hd.symm, ?_, hl⟩
        simp only [Blk.fin, HEAD]
        omega
      · exact .inr (.inl hd)
      · exact .inr (.inr (hlinks hd))

theorem reach_release {pre post : List Blk} {b : Blk} {h : A.blocks = pre ++ b :: post} {hb : b.free = false}
    {hr : room ≤ b.size} : Reach A b (touched [b.addr] b.fin (A.release h hb hr).flist) := by
  rintro d (⟨hd, hl⟩ | hd | ⟨e, he, h1, h2⟩)
  · obtain hd := List.mem_singleton.mp hd
    refine .inl ⟨Nat.le_of_eq hd.symm, ?_, hl⟩
    simp only [Blk.fin, HEAD]
    omega
  · exact .inr (.inl hd)
  · rcases List.mem_cons.mp he with rfl | he
    · exact .inr (.inr ⟨b, by rw [h]; simp, .inl rfl, h1, h2, hr⟩)
    · exact .inr (.inr ⟨e, A.mem_blocks_of_flist he, .inr he, h1, h2, A.fits e he⟩)

end Reach

section Intact

variable {μ L V : Type} [BlockMem μ L V]

/-- **A harmless call** about the pointer `p`. -/
structure Intact (m : Mapping) (s s' : Session μ) (p : ℕ) : Prop where
  payload : ∀ q ∈ s.live, q ∈ s'.live → ∀ x, q ≤ addr μ x → addr μ x < q + val s.heap (q - HEAD) .size →
    FootMem.read s'.heap.mem x = FootMem.read s.heap.mem x
  outside : ∀ x, addr μ x < m.base ∨ m.base + ARENA ≤ addr μ x →
    FootMem.read s'.heap.mem x = FootMem.read s.heap.mem x
  headers : ∀ l, Blocks s.heap l → ∀ d ∈ l ++ [m.base + (ARENA - HEAD)], ∀ f : Field, f.isLink = false →
    val s'.heap d f = val s.heap d f ∨ ∃ b ∈ l, (b < p ∧ p ≤ b + val s.heap b .size + HEAD) ∧
      (d = b ∨ d = b + val s.heap b .size + HEAD ∧ (f = .bfree ∨ f = .bsize))

variable {m : Mapping} {A : Layout m.base (room μ)} {s s' : Session μ} {b : Blk} {C : Set (ℕ × Field)} {p : ℕ}

theorem Intact.refl (m : Mapping) (s : Session μ) (live : List ℕ) (p : ℕ) : Intact m s ⟨s.heap, live⟩ p :=
  ⟨fun _ _ _ _ _ _ => rfl, fun _ _ => rfl, fun _ _ _ _ _ _ => .inl rfl⟩

/-- The locations of such cells lie in `b`, in the header behind it or in a free block. -/
theorem Reach.extent (hC : Reach A b C) (hb : b ∈ A.blocks) {d : ℕ × Field} (hd : d ∈ C) {x : L}
    (hx : x ∈ FootMem.foot μ d) : ∃ e ∈ A.all, e.addr ≤ addr μ x ∧
      ((e = b ∨ e ∈ A.flist) ∧ addr μ x < e.fin ∨ e.addr = b.fin ∧ addr μ x < e.addr + HEAD) := by
  have h1 := foot_addr d.1 d.2 x hx
  rcases hC d hd with ⟨h2, h3, h4⟩ | ⟨h2, h3⟩ | ⟨e, he, h2, h3, h4, h5⟩
  · have := span_header (μ := μ) d.2 h4
    exact ⟨b, A.mem_all_of_mem hb, by omega, .inl ⟨.inl rfl, by omega⟩⟩
  · obtain ⟨pre, post, hsplit⟩ := List.append_of_mem hb
    obtain ⟨c, tl, hall, -, hc⟩ := A.exists_next hsplit
    have := span_header (μ := μ) d.2 (by rcases h3 with h3 | h3 <;> rw [h3] <;> rfl)
    exact ⟨c, by rw [hall]; simp, by omega, .inr ⟨hc, by omega⟩⟩
  · have := span_le (μ := μ) d.2
    simp only [Blk.fin]
    exact ⟨e, A.mem_all_of_mem he, by omega, .inl ⟨h2, by omega⟩⟩

/-- Header fields of other blocks are apart from such cells. -/
theorem Reach.apart (hC : Reach A b C) (hb : b ∈ A.blocks) {c : Blk} (hc : c ∈ A.all) {f : Field}
    (hf : f.isLink = false) (hcb : c ≠ b) (htag : c.addr = b.fin → f ≠ .bfree ∧ f ≠ .bsize) :
    ∀ d ∈ C, FootMem.Apart μ (c.addr, f) d := by
  intro d hd
  have hbA := A.mem_all_of_mem hb
  have hspan := span_header (μ := μ) f hf
  rcases hC d hd with ⟨h2, h3, h4⟩ | ⟨h2, h3⟩ | ⟨e, he, h2, h3, h4, h5⟩
  · have hspan' := span_header (μ := μ) d.2 h4
    rcases A.tiled_all.eq_or_apart hc hbA with h | h | h
    · exact absurd h hcb
    · exact apart_of_le (q := d.1) (by simp only [Blk.fin] at h; omega)
    · exact (apart_of_le (p := d.1) (by omega)).symm
  · obtain ⟨pre, post, hsplit⟩ := List.append_of_mem hb
    obtain ⟨n, tl, hall, -, hn⟩ := A.exists_next hsplit
    have hnA : n ∈ A.all := by rw [hall]; simp
    have hlink : d.2.isLink = false := by rcases h3 with h3 | h3 <;> rw [h3] <;> rfl
    have hd' : d = (n.addr, d.2) := Prod.ext (h2.trans hn.symm) rfl
    rw [hd']
    refine Layout.apart hc hnA (.inl hf) (.inl hlink) ?_
    by_cases hcn : c = n
    · obtain ⟨hf1, hf2⟩ := htag (hcn ▸ hn)
      exact .inr fun e => h3.elim (fun h => hf1 (e.trans h)) fun h => hf2 (e.trans h)
    · exact .inl hcn
  · have heA := A.mem_all_of_mem he
    have hspan' := span_le (μ := μ) d.2
    rcases A.tiled_all.eq_or_apart hc heA with rfl | h | h
    · rw [show d = (c.addr, d.2) from Prod.ext h3 rfl]
      exact apart_field fun e => by rw [e, h4] at hf; exact absurd hf (by decide)
    · exact apart_of_le (q := d.1) (by simp only [Blk.fin] at h; omega)
    · exact (apart_of_le (p := d.1) (by simp only [Blk.fin] at h; omega)).symm

/-- **A call whose cells reach no further than `b` is harmless**, if it takes `b`'s own payload from the program. -/
theorem Holds.intact (hh : Holds m s A) (hb : b ∈ A.blocks) (hbp : b.addr < p ∧ p ≤ b.fin) (hC : Reach A b C)
    (hch : Changes s.heap s'.heap C) (hlive : b.addr + HEAD ∈ s.live → b.addr + HEAD ∉ s'.live) :
    Intact m s s' p := by
  have hR := hh.rep
  refine ⟨fun q hq hq' x h1 h2 => ?_, fun x hx => ?_, fun l hl d hd f hf => ?_⟩
  · refine hch.frame x fun d hd hx => ?_
    obtain ⟨c, pre, post, hc, hcf, rfl, hsz⟩ := hh.block hq
    rw [hsz] at h2
    have hcA : c ∈ A.all := A.mem_all_of_mem (by rw [hc]; simp)
    obtain ⟨e, he, h3, h4⟩ := hC.extent hb hd hx
    rcases A.tiled_all.eq_or_apart he hcA with rfl | h | h
    · rcases h4 with ⟨rfl | h4, -⟩ | ⟨-, h4⟩
      · exact hlive hq hq'
      · rw [((A.mem_flist e).mp h4).2] at hcf
        exact absurd hcf.symm Bool.false_ne_true
      · omega
    · simp only [Blk.fin] at h h4
      omega
    · simp only [Blk.fin] at h
      omega
  · refine hch.frame x fun d hd hx' => ?_
    obtain ⟨e, he, h3, h4⟩ := hC.extent hb hd hx'
    have h5 := A.tiled_all.mem he
    simp only [Blk.fin] at h4 h5
    omega
  · obtain rfl := hR.blocks_unique hl
    obtain ⟨c, hc, rfl⟩ : ∃ c ∈ A.all, c.addr = d := by
      rcases List.mem_append.mp hd with hd | hd
      · obtain ⟨c, hc, rfl⟩ := List.mem_map.mp hd
        exact ⟨c, A.mem_all_of_mem hc, rfl⟩
      · exact ⟨sentinel m.base, by simp [Layout.all], (List.mem_singleton.mp hd).symm⟩
    have hbs : val s.heap b.addr .size = b.size := (hR.headers.mem (A.mem_all_of_mem hb)).2
    by_cases hcb : c = b
    · exact .inr ⟨b.addr, List.mem_map_of_mem hb, by rw [hbs]; exact hbp, .inl (by rw [hcb])⟩
    by_cases htag : c.addr = b.fin ∧ (f = .bfree ∨ f = .bsize)
    · exact .inr ⟨b.addr, List.mem_map_of_mem hb, by rw [hbs]; exact hbp, .inr (by rw [hbs]; exact htag)⟩
    · refine .inl (hch.val_eq (hC.apart hb hc hf hcb fun hcf => ?_))
      exact not_or.mp fun h => htag ⟨hcf, h⟩

end Intact

/-! ### The bytes of the arena -/

section Bytes

variable {m : Mapping} {s : Session Bytes} {tr : List (Session Bytes × Call)}

/-- **No damage**: after a run that frees blocks of at least 16 bytes only, every request, and every freeing of
another such block, is harmless. -/
theorem no_damage (hst : Started m tr s)
    (hroom : ∀ t p, (t, .dfree p) ∈ tr → p ≠ NULL → 16 ≤ val t.heap (p - HEAD) .size) :
    (∀ n, Runs (dalloc n) s.heap fun p h' => Intact m s ⟨h', hold p s.live⟩ p) ∧
      ∀ p ∈ s.live, 16 ≤ val s.heap (p - HEAD) .size →
        Runs (dfree p) s.heap fun _ h' => Intact m s ⟨h', s.live.erase p⟩ p := by
  obtain ⟨A, hh, -⟩ := hst.holds (P := fun _ => True) trivial fun t c _ hm _ _ _ _ =>
    ⟨fun p hc hp => hroom t p (hc ▸ hm) hp, fun _ _ => trivial⟩
  refine ⟨fun n => ?_, fun p hp hsize => ?_⟩
  · by_cases hn : n = 0
    · subst hn
      refine Runs.imp ?_ dalloc_zero
      rintro p h' ⟨rfl, rfl⟩
      exact Intact.refl m s _ _
    refine Runs.imp ?_ (dalloc_spec hh.rep hn)
    rintro p h' ⟨A', C, ht, hR, hch, hnull⟩
    by_cases hp : p = NULL
    · rw [hnull hp]
      exact Intact.refl m s _ _
    · obtain ⟨b, hb, hbf, h1, h2, hC⟩ := ht.reach hp
      refine hh.intact hb ⟨h1, h2⟩ hC hch fun hlive => ?_
      obtain ⟨pre, post, hsplit⟩ := List.append_of_mem hb
      exact absurd ((hh.live _).mp hlive) (Layout.addr_notTaken hsplit hbf)
  · obtain ⟨b, pre, post, hb, hbf, rfl, hsz⟩ := hh.block hp
    have hrb : room Bytes ≤ b.size := hsz ▸ hsize
    refine Runs.imp ?_ (dfree_spec hh.rep hb hbf hrb)
    rintro - h' ⟨hR, hch⟩
    refine hh.intact (by rw [hb]; simp) ?_ reach_release hch fun _ => ?_
    · simp only [Blk.fin, HEAD]
      omega
    · exact fun hm => (hh.nodup.mem_erase_iff.mp hm).1 rfl

/-- After `p = dalloc(24)`, `q = dalloc(16)` and `dfree(p)`, every request is harmless for `q`, and so is `dfree(q)`. -/
theorem no_damage_freed : ∃ (tr : List (Session Bytes × Call)) (s : Session Bytes),
    tr.map Prod.snd = [.dalloc 24, .dalloc 16, .dfree 69600] ∧ Started .second tr s ∧
      (s.live = [69576] ∧ val s.heap (69576 - HEAD) .size = 16) ∧
      (∀ n, Runs (dalloc n) s.heap fun p h' => Intact .second s ⟨h', hold p s.live⟩ p) ∧
      ∀ p ∈ s.live, 16 ≤ val s.heap (p - HEAD) .size →
        Runs (dfree p) s.heap fun _ h' => Intact .second s ⟨h', s.live.erase p⟩ p := by
  obtain ⟨tr, s, htr, hst, hc⟩ := exists_started .second (fun _ => 0 : Bytes) [.dalloc 24, .dalloc 16]
    (fun s => decide (s.live = [69576, 69600] ∧ val s.heap (69600 - HEAD) .size = 24) &&
      check (dfree 69600) s.heap fun _ h' => decide (val h' (69576 - HEAD) .size = 16)) (by decide +kernel)
  obtain ⟨hc, hfree⟩ := Bool.and_eq_true_iff.mp hc
  obtain ⟨hlive, hsize⟩ := of_decide_eq_true hc
  obtain ⟨_, h', hr, hsize'⟩ := runs_of_check hfree
  have hmem : 69600 ∈ s.live := by rw [hlive]; decide
  refine ⟨_, _, by simp [htr], hst.snoc (.dfree (.inr hmem) hr), ⟨?_, of_decide_eq_true hsize'⟩,
    no_damage (hst.snoc (.dfree (.inr hmem) hr)) ?_⟩
  · show s.live.erase 69600 = _
    rw [hlive]
    rfl
  intro t p hm _
  rcases List.mem_append.mp hm with hm | hm
  · have hp := mem_labels htr hm
    simp at hp
  · simp only [List.mem_singleton, Prod.mk.injEq, Call.dfree.injEq] at hm
    obtain ⟨rfl, rfl⟩ := hm
    omega

/-- `q = dalloc(16)`, `p = dalloc(1)`, the program fills its 16 bytes at `q`: `dfree(p)` overwrites some of
them with the links of the block of one byte. -/
theorem dfree_damage : ∃ (m : Mapping) (tr : List (Session Bytes × Call)) (s : Session Bytes) (p q x : ℕ),
    tr.map Prod.snd = [.dalloc 16, .dalloc 1, .write] ∧ Started m tr s ∧ p ∈ s.live ∧
      (q ∈ s.live.erase p ∧ q ≤ x ∧ x < q + val s.heap (q - HEAD) .size) ∧
      Runs (dfree p) s.heap fun _ h' => h'.mem x ≠ s.heap.mem x := by
  set fill : Bytes → Bytes := fun mem x => if 69608 ≤ x ∧ x < 69608 + 16 then 255 else mem x with hfill
  obtain ⟨tr, s, htr, hst, hc⟩ := exists_started .second (fun _ => 0 : Bytes) [.dalloc 16, .dalloc 1]
    (fun s => decide (s.live = [69599, 69608] ∧ val s.heap 69600 .size = 16 ∧
        val { s.heap with mem := fill s.heap.mem } 69600 .size = 16) &&
      check (dfree 69599) { s.heap with mem := fill s.heap.mem } fun _ h' => decide (h'.mem 69608 ≠ 255))
    (by decide +kernel)
  obtain ⟨hc, hdamage⟩ := Bool.and_eq_true_iff.mp hc
  obtain ⟨hlive, hsize, hsize'⟩ := of_decide_eq_true hc
  have hwrite : Step s .write ⟨{ s.heap with mem := fill s.heap.mem }, s.live⟩ := by
    refine .write fun x hx => if_neg fun hin => hx ⟨69608, by simp [hlive], hin.1, ?_⟩
    have h16 : val s.heap (69608 - HEAD) .size = 16 := hsize
    rw [h16]
    exact hin.2
  refine ⟨.second, _, _, 69599, 69608, 69608, by simp [htr], hst.snoc hwrite, by simp [hlive], ?_, ?_⟩
  · have h16 : val { s.heap with mem := fill s.heap.mem } (69608 - HEAD) .size = 16 := hsize'
    exact ⟨by simp [hlive], le_rfl, by simp only [h16]; omega⟩
  · refine Runs.imp (fun _ h' hd => ?_) (runs_of_check hdamage)
    exact of_decide_eq_true hd

end Bytes

end Seminars.Dlmalloc
