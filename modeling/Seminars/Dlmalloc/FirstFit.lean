import Seminars.Dlmalloc.Invariant

/-!
# Seminars.Dlmalloc.FirstFit — `dlmalloc.c` refines a first-fit list

`FirstFit` is the allocator without memory: an ordered list of free pairs (offset, size) and the live pairs.

* `Agrees.dalloc`, `Agrees.dfree` — a step on layouts is the step on pairs.
* `refines_first_fit` — **in every run the pointers returned and the free list are those of the pairs**.
-/

namespace Seminars.Dlmalloc

open Lib BlockMem

/-- The free blocks in free-list order and the live blocks, as offsets into the arena and payload sizes. -/
structure FirstFit where
  free : List (ℕ × ℕ)
  live : List (ℕ × ℕ)

namespace FirstFit

/-- One free block in the whole arena. -/
def init : FirstFit := ⟨[(0, ARENA - 2 * HEAD)], []⟩

/-- The first pair that is large enough for `n` bytes, rounded up to a multiple of 8, is cut when 24 bytes are left
over, and given away otherwise; the result is the offset of the payload. -/
def dalloc (n : ℕ) (F : FirstFit) : Option ℕ × FirstFit :=
  let r := (n + 7) / 8 * 8
  match F.free.find? fun q => r ≤ q.2 with
  | none => (none, F)
  | some (o, s) =>
    if r + 24 ≤ s then
      (some (o + s - r + 8), ⟨(o, s - r - 8) :: F.free.erase (o, s), (o + s - r, r) :: F.live⟩)
    else (some (o + 8), ⟨F.free.erase (o, s), (o, s) :: F.live⟩)

/-- The live pair with its payload at `p` moves to the front of the free list. -/
def dfree (p : ℕ) (F : FirstFit) : FirstFit :=
  match F.live.find? fun q => q.1 + 8 = p with
  | none => F
  | some q => ⟨q :: F.free, F.live.erase q⟩

/-- What the program does, for an arena at `base`. -/
def next (base : ℕ) (F : FirstFit) : Call → FirstFit
  | .dalloc n => (F.dalloc n).2
  | .dfree p => F.dfree (p - base)
  | .write => F

theorem order (base : ℕ) (F : FirstFit) (c : Call) :
    ∃ o, (F.next base c).free.filter (fun q => q.1 ≠ o) = F.free.filter fun q => q.1 ≠ o := by
  cases c with
  | dalloc n =>
    unfold next dalloc
    dsimp only
    split
    · exact ⟨0, rfl⟩
    · rename_i o s hq
      refine ⟨o, ?_⟩
      obtain ⟨-, l₁, l₂, hl, hfail⟩ := List.find?_eq_some_iff_append.mp hq
      have hnot : (o, s) ∉ l₁ := by
        intro hm
        have h1 := hfail _ hm
        have h2 := List.find?_some hq
        simp_all
      have herase : F.free.erase (o, s) = l₁ ++ l₂ := by
        rw [hl, List.erase_append_right _ hnot, List.erase_cons_head]
      have hothers : (F.free.erase (o, s)).filter (fun q => q.1 ≠ o) = F.free.filter fun q => q.1 ≠ o := by
        rw [herase, hl]
        simp
      split_ifs
      · simpa using hothers
      · exact hothers
  | dfree p =>
    unfold next dfree
    dsimp only
    split
    · exact ⟨0, rfl⟩
    · rename_i q hq
      exact ⟨q.1, by simp⟩
  | write => exact ⟨0, rfl⟩

end FirstFit

/-! ### Layouts as pairs -/

/-- A block as a pair. -/
def Blk.pair (base : ℕ) (b : Blk) : ℕ × ℕ := (b.addr - base, b.size)

/-- The pairs are those of the layout. -/
structure Agrees {base room : ℕ} (A : Layout base room) (F : FirstFit) : Prop where
  free : F.free = A.flist.map (Blk.pair base)
  live : ∀ q, q ∈ F.live ↔ ∃ b ∈ A.blocks, b.free = false ∧ q = b.pair base
  nodup : F.live.Nodup

namespace Agrees

variable {base room : ℕ} {A A' : Layout base room} {F : FirstFit} {C : Set (ℕ × Field)} {n p : ℕ}

theorem base_le {b : Blk} (hb : b ∈ A.blocks) : base ≤ b.addr := (A.tiled.mem hb).1

theorem pair_inj {b c : Blk} (hb : b ∈ A.blocks) (hc : c ∈ A.blocks) (h : b.addr - base = c.addr - base) : b = c := by
  have h1 := base_le hb
  have h2 := base_le hc
  exact A.tiled.addr_inj hb hc (by omega)

/-- First fit on the layout finds the pair that first fit finds. -/
theorem find (h : Agrees A F) {l₁ l₂ : List Blk} {b : Blk} {r : ℕ} (hf : A.flist = l₁ ++ b :: l₂)
    (hfirst : ∀ c ∈ l₁, c.size < r) (hr : r ≤ b.size) :
    (F.free.find? fun q => decide (r ≤ q.2)) = some (b.addr - base, b.size) ∧
    F.free.erase (b.addr - base, b.size) = (l₁ ++ l₂).map (Blk.pair base) := by
  have hl : F.free = l₁.map (Blk.pair base) ++ (b.addr - base, b.size) :: l₂.map (Blk.pair base) := by
    rw [h.free, hf, List.map_append, List.map_cons]
    rfl
  have hsmall : ∀ q ∈ l₁.map (Blk.pair base), ¬ r ≤ q.2 := by
    intro q hq
    obtain ⟨c, hc, rfl⟩ := List.mem_map.mp hq
    exact not_le.mpr (hfirst c hc)
  constructor
  · refine List.find?_eq_some_iff_append.mpr ⟨by simpa using hr, _, _, hl, fun q hq => ?_⟩
    simpa using hsmall q hq
  · rw [hl, List.erase_append_right _ (fun hm => hsmall _ hm hr), List.erase_cons_head, List.map_append]

theorem live_others (h : Agrees A F) {pre post : List Blk} {b : Blk} (hb : A.blocks = pre ++ b :: post)
    (hbf : b.free = true) (q : ℕ × ℕ) :
    q ∈ F.live ↔ ∃ c, (c ∈ pre ∨ c ∈ post) ∧ c.free = false ∧ q = c.pair base := by
  rw [h.live, hb]
  constructor
  · rintro ⟨c, hc, hcf, rfl⟩
    have hne : c ≠ b := by
      rintro rfl
      cases hbf.symm.trans hcf
    simp only [List.mem_append, List.mem_cons, hne, false_or] at hc
    exact ⟨c, hc, hcf, rfl⟩
  · rintro ⟨c, hc, hcf, rfl⟩
    exact ⟨c, List.mem_append.mpr (hc.imp_right (List.mem_cons_of_mem _)), hcf, rfl⟩

/-- **`dalloc`** on the layout is `dalloc` on the pairs. -/
theorem dalloc (h : Agrees A F) (ht : Took A ((n + 7) / 8 * 8) p A' C) :
    Agrees A' (F.dalloc n).2 ∧ p = (F.dalloc n).1.elim NULL (base + ·) := by
  unfold FirstFit.dalloc
  cases ht with
  | none hno =>
    -- no pair is large enough
    have hfind : (F.free.find? fun q => decide ((n + 7) / 8 * 8 ≤ q.2)) = none := by
      refine List.find?_eq_none.mpr fun q hq => ?_
      rw [h.free] at hq
      obtain ⟨c, hc, rfl⟩ := List.mem_map.mp hq
      have hlt : (c.pair base).2 < (n + 7) / 8 * 8 := hno c hc
      simpa using hlt
    simp only [hfind]
    exact ⟨h, rfl⟩
  | @carve pre post l₁ l₂ b hb hf h1 hr hroom =>
    -- the pair stays in the free list with what is left of it, the part behind is handed out
    obtain ⟨hfind, herase⟩ := h.find hf h1 (by omega)
    have hbf : b.free = true := ((A.mem_flist b).mp (by rw [hf]; simp)).2
    have hle : base ≤ b.addr := base_le (A := A) (by rw [hb]; simp)
    have hr24 : (n + 7) / 8 * 8 + 24 ≤ b.size := hr
    have hcut : (b.addr - base + b.size - (n + 7) / 8 * 8, (n + 7) / 8 * 8) =
        (Layout.cut b ((n + 7) / 8 * 8)).pair base := by
      simp only [Layout.cut, Blk.pair, HEAD, Prod.mk.injEq, and_true]
      omega
    simp only [hfind, if_pos hr24]
    refine ⟨⟨?_, fun q => ?_, ?_⟩, ?_⟩
    · rw [herase]
      rfl
    · simp only [Layout.carve, List.mem_cons, List.mem_append, h.live_others hb hbf, hcut]
      constructor
      · rintro (rfl | ⟨c, hc, hcf, rfl⟩)
        · exact ⟨_, .inr (.inr (.inl rfl)), rfl, rfl⟩
        · exact ⟨c, hc.imp_right fun hc => .inr (.inr hc), hcf, rfl⟩
      · rintro ⟨c, hc | rfl | rfl | hc, hcf, rfl⟩
        · exact .inr ⟨c, .inl hc, hcf, rfl⟩
        · exact absurd hcf (by simp [Layout.rest])
        · exact .inl rfl
        · exact .inr ⟨c, .inr hc, hcf, rfl⟩
    · refine List.nodup_cons.mpr ⟨fun hm => ?_, h.nodup⟩
      rw [hcut] at hm
      obtain ⟨c, hc, hcf, he⟩ := (h.live _).mp hm
      refine Layout.cut_notTaken hb hr ⟨c, hc, hcf, ?_⟩
      have hle' := base_le hc
      have h1 := congrArg Prod.fst he
      simp only [Blk.pair, Layout.cut, HEAD] at h1 ⊢
      omega
    · simp only [Option.elim_some, Layout.cut, HEAD]
      omega
  | @claim pre post l₁ l₂ b hb hf h1 hr hr' =>
    -- the pair is handed out as it is
    obtain ⟨hfind, herase⟩ := h.find hf h1 hr
    have hbf : b.free = true := ((A.mem_flist b).mp (by rw [hf]; simp)).2
    have hle : base ≤ b.addr := base_le (A := A) (by rw [hb]; simp)
    have hr24 : ¬ (n + 7) / 8 * 8 + 24 ≤ b.size := by
      simp only [HEAD] at hr'
      omega
    simp only [hfind, if_neg hr24]
    refine ⟨⟨herase, fun q => ?_, ?_⟩, ?_⟩
    · simp only [Layout.claim, List.mem_cons, List.mem_append, h.live_others hb hbf]
      constructor
      · rintro (rfl | ⟨c, hc, hcf, rfl⟩)
        · exact ⟨_, .inr (.inl rfl), rfl, rfl⟩
        · exact ⟨c, hc.imp_right .inr, hcf, rfl⟩
      · rintro ⟨c, hc | rfl | hc, hcf, rfl⟩
        · exact .inr ⟨c, .inl hc, hcf, rfl⟩
        · exact .inl rfl
        · exact .inr ⟨c, .inr hc, hcf, rfl⟩
    · refine List.nodup_cons.mpr ⟨fun hm => ?_, h.nodup⟩
      obtain ⟨c, hc, hcf, he⟩ := (h.live _).mp hm
      obtain rfl := pair_inj (by rw [hb]; simp) hc (congrArg Prod.fst he)
      cases hbf.symm.trans hcf
    · simp only [Option.elim_some, HEAD]
      omega

/-- **`dfree`** on the layout is `dfree` on the pairs. -/
theorem dfree (h : Agrees A F) {pre post : List Blk} {b : Blk} (hb : A.blocks = pre ++ b :: post)
    (hbt : b.free = false) (hr : room ≤ b.size) :
    Agrees (A.release hb hbt hr) (F.dfree (b.addr + HEAD - base)) := by
  have hbA : b ∈ A.blocks := by rw [hb]; simp
  have hle := base_le hbA
  have hlive : b.pair base ∈ F.live := (h.live _).mpr ⟨b, hbA, hbt, rfl⟩
  -- the address names this block: no other live pair starts there
  have hfind : (F.live.find? fun q => decide (q.1 + 8 = b.addr + HEAD - base)) = some (b.pair base) := by
    obtain ⟨q, hq⟩ : ∃ q, (F.live.find? fun q => decide (q.1 + 8 = b.addr + HEAD - base)) = some q := by
      refine Option.isSome_iff_exists.mp (List.find?_isSome.mpr ⟨_, hlive, ?_⟩)
      have he : b.addr - base + 8 = b.addr + HEAD - base := by
        simp only [HEAD]
        omega
      exact decide_eq_true he
    obtain ⟨c, hc, hcf, rfl⟩ := (h.live q).mp (List.mem_of_find?_eq_some hq)
    have he : (c.pair base).1 + 8 = b.addr + HEAD - base := by simpa using List.find?_some hq
    simp only [Blk.pair, HEAD] at he
    have hcle := base_le hc
    obtain rfl := pair_inj hbA hc (by omega)
    exact hq
  simp only [FirstFit.dfree, hfind]
  refine ⟨?_, fun q => ?_, h.nodup.erase _⟩
  · rw [h.free]
    rfl
  · rw [h.nodup.mem_erase_iff, h.live]
    simp only [Layout.release, List.mem_append, List.mem_cons]
    obtain ⟨hpre, hpost⟩ := Layout.notMem_of_blocks hb
    constructor
    · -- a live pair that stays is a block before or behind
      rintro ⟨hne, c, hc, hcf, rfl⟩
      have hcb : c ≠ b := by rintro rfl; exact hne rfl
      rw [hb] at hc
      simp only [List.mem_append, List.mem_cons, hcb, false_or] at hc
      exact ⟨c, hc.imp_right .inr, hcf, rfl⟩
    · rintro ⟨c, hc, hcf, rfl⟩
      have hc' : c ∈ pre ∨ c ∈ post := by
        rcases hc with hc | rfl | hc
        · exact .inl hc
        · exact absurd hcf (by simp)
        · exact .inr hc
      have hcA : c ∈ A.blocks := by
        rw [hb]
        simp only [List.mem_append, List.mem_cons]
        exact hc'.imp_right .inr
      -- blocks of one address are one block
      refine ⟨fun he => ?_, c, hcA, hcf, rfl⟩
      obtain rfl := pair_inj hcA hbA (congrArg Prod.fst he)
      exact hc'.elim hpre hpost

theorem dfree_zero (base : ℕ) (F : FirstFit) : F.dfree (NULL - base) = F := by
  have hfind : (F.live.find? fun q => decide (q.1 + 8 = NULL - base)) = none := by
    refine List.find?_eq_none.mpr fun q _ => ?_
    simp only [NULL, decide_eq_true_eq]
    omega
  simp only [FirstFit.dfree, hfind]

theorem fresh {hr : room ≤ 16} : Agrees (Layout.fresh base room hr) .init := by
  refine ⟨?_, fun q => ?_, List.nodup_nil⟩
  · simp [FirstFit.init, Layout.fresh, Blk.pair]
  · simp [FirstFit.init, Layout.fresh]

/-- **One step.** -/
theorem move {c : Call} (h : Agrees A F) (hmv : Move A c A') (hc : ∀ n, c = .dalloc n → 16 ≤ n ∧ n ≤ 2 ^ 30) :
    Agrees A' (F.next base c) := by
  cases hmv with
  | dalloc_zero => exact absurd (hc 0 rfl).1 (by decide)
  | dalloc hn ht =>
    obtain ⟨h16, hmax⟩ := hc _ rfl
    rw [adjust_regular h16 hmax] at ht
    exact (h.dalloc ht).1
  | dfree_null =>
    show Agrees A (F.dfree (NULL - base))
    rw [dfree_zero]
    exact h
  | dfree hb hbt hr => exact h.dfree hb hbt hr
  | write => exact h

end Agrees

/-! ### Runs -/

section Run

variable {μ L V : Type} [BlockMem μ L V] {m : Mapping} {s : Session μ} {tr : List (Session μ × Call)}

/-- The pairs after a run. -/
def pairs (m : Mapping) (tr : List (Session μ × Call)) : FirstFit :=
  (tr.map Prod.snd).foldl (FirstFit.next m.base) .init

/-- **The run lemma**: the layout the session holds is that of the pairs. -/
theorem Started.agrees (hst : Started m tr s) (hreq : ∀ t n, (t, .dalloc n) ∈ tr → 16 ≤ n ∧ n ≤ 2 ^ 30) :
    ∃ A, Holds m s A ∧ Regular A ∧ Agrees A (pairs m tr) := by
  obtain ⟨mem, h₀, hi, hp⟩ := hst
  induction hp with
  | nil =>
    refine ⟨Layout.fresh m.base (room μ) room_le, ⟨(init_spec m mem).of_eq hi, fun p => ?_, List.nodup_nil⟩,
      regular_fresh, .fresh⟩
    simp [Layout.Taken, Layout.fresh]
  | @snoc tr t u c _ hstep ih =>
    obtain ⟨A, hh, hreg, hag⟩ := ih fun t n hm => hreq t n (by simp [hm])
    have hc : ∀ n, c = .dalloc n → 16 ≤ n ∧ n ≤ 2 ^ 30 := fun n he => hreq t n (by simp [he])
    obtain ⟨hroom, hkeep⟩ := hstep.regular hh hreg hc
    obtain ⟨A', hmv, hh'⟩ := step_holds hh hstep hroom
    refine ⟨A', hh', hkeep A' hmv, ?_⟩
    have := hag.move hmv hc
    simpa [pairs] using this

/-- **`dlmalloc.c` refines the first-fit list.**  After every run of requests of 16 bytes to 1 GiB, frees of what the
program holds and writes into its blocks, with `F` the pairs after the same calls: the free list and the pointers the
program holds are those of `F`; the next `dalloc` returns what `F` returns; and the next call leaves the order of the
other free blocks. -/
theorem refines_first_fit (hst : Started m tr s) (hreq : ∀ t n, (t, .dalloc n) ∈ tr → 16 ≤ n ∧ n ≤ 2 ^ 30) :
    (∃ fl, FreeList s.heap fl ∧ fl.map (fun a => (a - m.base, val s.heap a .size)) = (pairs m tr).free) ∧
    (∀ p, p ∈ s.live ↔ ∃ q ∈ (pairs m tr).live, p = m.base + q.1 + HEAD ∧ val s.heap (m.base + q.1) .size = q.2) ∧
    (∀ n, 16 ≤ n → n ≤ 2 ^ 30 →
      ∃ h, (dalloc n).run s.heap = .ok (((pairs m tr).dalloc n).1.elim NULL (m.base + ·), h)) ∧
    ∀ c, ∃ o, ((pairs m tr).next m.base c).free.filter (fun q => q.1 ≠ o) =
      (pairs m tr).free.filter fun q => q.1 ≠ o := by
  obtain ⟨A, hh, hreg, hag⟩ := hst.agrees hreq
  have hsize : ∀ b ∈ A.blocks, val s.heap b.addr .size = b.size := fun b hb =>
    (hh.rep.headers.mem (A.mem_all_of_mem hb)).2
  refine ⟨⟨A.flist.map Blk.addr, hh.rep.freeList, ?_⟩, fun p => ?_, fun n h16 hn => ?_, (pairs m tr).order m.base⟩
  · rw [hag.free, List.map_map]
    refine List.map_congr_left fun b hb => ?_
    simp only [Function.comp_apply, Blk.pair, hsize b (A.mem_blocks_of_flist hb)]
  · rw [hh.live p]
    constructor
    · rintro ⟨b, hb, hbf, rfl⟩
      refine ⟨b.pair m.base, (hag.live _).mpr ⟨b, hb, hbf, rfl⟩, ?_⟩
      have hle := Agrees.base_le hb
      have he : m.base + (b.pair m.base).1 = b.addr := by
        simp only [Blk.pair]
        omega
      rw [he]
      exact ⟨rfl, hsize b hb⟩
    · rintro ⟨q, hq, rfl, -⟩
      obtain ⟨b, hb, hbf, rfl⟩ := (hag.live q).mp hq
      have hle := Agrees.base_le hb
      refine ⟨b, hb, hbf, ?_⟩
      simp only [Blk.pair]
      omega
  · obtain ⟨p, h, hrun, A', C, ht, -⟩ := dalloc_spec hh.rep (show n ≠ 0 by omega)
    rw [adjust_regular h16 hn] at ht
    rw [← (hag.dalloc ht).2]
    exact ⟨h, hrun⟩

/-- The refinement after a run that splits twice, frees in between and splits what was freed last. -/
theorem refines_first_fit_four : ∃ (tr : List (Session Bytes × Call)) (s : Session Bytes),
    tr.map Prod.snd = [.dalloc 24, .dalloc 60000, .dfree 69600, .dalloc 17] ∧ Started .second tr s ∧
    ((∃ fl, FreeList s.heap fl ∧
        fl.map (fun a => (a - Mapping.second.base, val s.heap a .size)) = (pairs .second tr).free) ∧
      (∀ p, p ∈ s.live ↔ ∃ q ∈ (pairs .second tr).live,
        p = Mapping.second.base + q.1 + HEAD ∧ val s.heap (Mapping.second.base + q.1) .size = q.2) ∧
      (∀ n, 16 ≤ n → n ≤ 2 ^ 30 →
        ∃ h, (dalloc n).run s.heap = .ok (((pairs .second tr).dalloc n).1.elim NULL (Mapping.second.base + ·), h)) ∧
      ∀ c, ∃ o, ((pairs .second tr).next Mapping.second.base c).free.filter (fun q => q.1 ≠ o) =
        (pairs .second tr).free.filter fun q => q.1 ≠ o) := by
  obtain ⟨tr, s, htr, hst, -⟩ := exists_started .second (fun _ => 0 : Bytes)
    [.dalloc 24, .dalloc 60000, .dfree 69600, .dalloc 17] (fun _ => true) (by decide +kernel)
  refine ⟨tr, s, htr, hst, refines_first_fit hst fun t n hm => ?_⟩
  have hn := mem_labels htr hm
  simp at hn
  omega

end Run

end Seminars.Dlmalloc
