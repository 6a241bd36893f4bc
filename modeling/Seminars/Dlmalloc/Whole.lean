import Seminars.Dlmalloc.Invariant

/-!
# Seminars.Dlmalloc.Whole — what is left of the arena when everything has been freed

`dfree` puts a block back as it is (the call of `merge` is commented out), so the number of blocks never goes
down (`Move.length_le`).  A heap of one block serves every request up to the whole arena, a heap of two does not.

* `Layout.size_le`: how large a block can be next to the other blocks.
* `whole_iff`: with everything freed, all requests can be served exactly when no request up to 65496 bytes was
  ever made while nothing was held: the first such request splits the arena for good.
-/

namespace Seminars.Dlmalloc

open Lib BlockMem

section Layout

variable {base room : ℕ} {A A' : Layout base room} {c : Call}

theorem Layout.size_le {b : Blk} (hb : b ∈ A.blocks) : b.size + HEAD * A.blocks.length ≤ ARENA - HEAD := by
  obtain ⟨pre, post, h⟩ := List.append_of_mem hb
  have ht := A.tiled
  rw [h] at ht
  obtain ⟨d, h1, h2, h3⟩ := tiled_append.mp ht
  have h4 := h1.length_le
  have h5 := h3.length_le
  rw [h]
  simp only [Blk.fin, HEAD, ARENA, List.length_append, List.length_cons] at h2 h4 h5 ⊢
  omega

theorem Layout.one_block (h : A.blocks.length = 1) : ∃ b, A.blocks = [b] ∧ b.size = ARENA - 2 * HEAD := by
  obtain ⟨b, hb⟩ := List.length_eq_one_iff.mp h
  refine ⟨b, hb, ?_⟩
  have ht := A.tiled
  rw [hb] at ht
  obtain ⟨h1, h2⟩ := ht
  have h2 : b.fin = _ := h2
  simp only [Blk.fin, HEAD, ARENA] at h2 ⊢
  omega

theorem Layout.length_pos (A : Layout base room) : 1 ≤ A.blocks.length := by
  have ht := A.tiled
  cases hb : A.blocks with
  | nil =>
    rw [hb] at ht
    have ht : base = _ := ht
    simp only [HEAD, ARENA] at ht
    omega
  | cons b l => simp

/-- No step takes a header away. -/
theorem Move.length_le (hmv : Move A c A') : A.blocks.length ≤ A'.blocks.length := by
  cases hmv with
  | dalloc_zero => exact le_rfl
  | dalloc hn ht =>
    cases ht with
    | none h => exact le_rfl
    | carve hb hf h1 hr hroom =>
      rw [hb]
      simp only [Layout.carve, List.length_append, List.length_cons]
      omega
    | claim hb hf h1 hr hr' =>
      rw [hb]
      simp [Layout.claim]
  | dfree_null => exact le_rfl
  | dfree hb hbt hr =>
    rw [hb]
    simp [Layout.release]
  | write => exact le_rfl

/-- A step that adds a block to the whole arena is a request it can serve, with a block to spare. -/
theorem Move.one_block {n : ℕ} (hmv : Move A (.dalloc n) A') (h : A.blocks.length = 1) (h16 : 16 ≤ n)
    (hn : n ≤ 2 ^ 30) (hA' : A'.blocks.length ≠ 1) : n ≤ 65496 ∧ ∀ b ∈ A.blocks, b.free = true := by
  obtain ⟨b, hb, hsize⟩ := Layout.one_block h
  cases hmv with
  | dalloc_zero => exact absurd h hA'
  | dalloc _ ht =>
    rw [adjust_regular h16 hn] at ht
    cases ht with
    | none => exact absurd h hA'
    | @carve pre post l₁ l₂ b' hb' hf h1 hr hroom =>
      have hfree := ((A.mem_flist b').mp (by rw [hf]; simp)).2
      have hmem : b' ∈ A.blocks := by rw [hb']; simp
      obtain rfl : b' = b := by rw [hb] at hmem; simpa using hmem
      simp only [HEAD, ARENA] at hsize hr
      refine ⟨by omega, fun d hd => ?_⟩
      rw [hb] at hd
      rw [List.mem_singleton.mp hd, hfree]
    | claim hb' hf h1 hr hr' =>
      refine absurd ?_ hA'
      rw [hb'] at h
      simpa [Layout.claim] using h

/-- A request that the whole arena can serve with a block to spare splits it. -/
theorem Move.split {n : ℕ} (hmv : Move A (.dalloc n) A') (h16 : 16 ≤ n) (hn : n ≤ 65496)
    (hfree : ∀ b ∈ A.blocks, b.free = true) : 2 ≤ A'.blocks.length := by
  have hle := hmv.length_le
  have hpos := A.length_pos
  by_contra hlt
  obtain ⟨b, hb, hsize⟩ := Layout.one_block (A := A) (by omega)
  have hbl : b ∈ A.flist := (A.mem_flist b).mpr ⟨by rw [hb]; simp, hfree b (by rw [hb]; simp)⟩
  simp only [HEAD, ARENA] at hsize
  cases hmv with
  | dalloc_zero => omega
  | dalloc _ ht =>
    rw [adjust_regular h16 (by omega)] at ht
    cases ht with
    | none h =>
      have := h b hbl
      omega
    | carve hb' hf h1 hr hroom =>
      simp only [Layout.carve, List.length_append, List.length_cons] at hlt
      omega
    | @claim pre post l₁ l₂ b' hb' hf h1 hr hr' =>
      have hmem : b' ∈ A.blocks := by rw [hb']; simp
      obtain rfl : b' = b := by rw [hb] at hmem; simpa using hmem
      simp only [HEAD] at hr'
      omega

end Layout

section Run

variable {μ L V : Type} [BlockMem μ L V] {m : Mapping} {s : Session μ} {tr : List (Session μ × Call)}

theorem Holds.live_nil {A : Layout m.base (room μ)} (hh : Holds m s A) :
    s.live = [] ↔ ∀ b ∈ A.blocks, b.free = true := by
  constructor
  · intro hl b hb
    by_contra hbf
    have hp := (hh.live _).mpr ⟨b, hb, Bool.eq_false_iff.mpr hbf, rfl⟩
    rw [hl] at hp
    exact absurd hp (by simp)
  · intro hfree
    refine List.eq_nil_iff_forall_not_mem.mpr fun p hp => ?_
    obtain ⟨b, hb, hbf, -⟩ := (hh.live p).mp hp
    rw [hfree b hb] at hbf
    exact absurd hbf.symm Bool.false_ne_true

/-- **When the freed arena can be used as a whole.** -/
theorem whole_iff (hst : Started m tr s) (hreq : ∀ t n, (t, .dalloc n) ∈ tr → 16 ≤ n ∧ n ≤ 65520)
    (hend : s.live = []) : (∀ n, 16 ≤ n → n ≤ 65520 → Runs (dalloc n) s.heap fun p _ => p ≠ NULL) ↔
      ∀ t n, (t, .dalloc n) ∈ tr → t.live = [] → 65496 < n := by
  have hreq' : ∀ t c, (t, c) ∈ tr → ∀ n, c = .dalloc n → 16 ≤ n ∧ n ≤ 2 ^ 30 := by
    rintro t c hm n rfl
    have := hreq t n hm
    omega
  constructor
  · intro hall t n hm hlive
    by_contra hn
    rw [not_lt] at hn
    -- the request at `t` splits the arena, and from there on there are two blocks
    obtain ⟨tr₁, t', tr₂, htr, h1, h2, h3⟩ := hst.cut hm
    obtain ⟨A, hh, hreg⟩ := h1.regular fun u k hu => hreq' u _ (by rw [htr]; simp [hu]) k rfl
    obtain ⟨hroom, hreg'⟩ := h2.regular hh hreg (hreq' t _ hm)
    obtain ⟨A', hmv, hh'⟩ := step_holds hh h2 hroom
    have htwo := hmv.split (hreq t n hm).1 hn (hh.live_nil.mp hlive)
    obtain ⟨B, hB, hB2, -⟩ := run_holds h3 (P := fun B => 2 ≤ B.blocks.length ∧ Regular B) ⟨A', hh', htwo, hreg' _ hmv⟩
      fun u c u' hu hstep B hB hP => by
        obtain ⟨h4, h5⟩ := hstep.regular hB hP.2 (hreq' u c (by rw [htr]; simp [hu]))
        exact ⟨h4, fun B' hmv => ⟨hP.1.trans hmv.length_le, h5 B' hmv⟩⟩
    obtain ⟨p, h', hr, hp⟩ := hall 65520 (by omega) le_rfl
    have hnull := ((hB.dalloc B 65520).of_eq hr).2 (by omega)
    refine hp (hnull.mpr fun b hb => ?_)
    have := Layout.size_le (B.mem_blocks_of_flist hb)
    rw [ask_regular (by omega) (by simp only [ARENA]; omega)]
    simp only [HEAD, ARENA] at this
    omega
  · intro hnone
    obtain ⟨A, hh, hone, -⟩ := hst.holds (P := fun A => A.blocks.length = 1 ∧ Regular A) ⟨rfl, regular_fresh⟩
      fun u c u' hu hstep A hA hP => by
        obtain ⟨h4, h5⟩ := hstep.regular hA hP.2 (hreq' u c hu)
        refine ⟨h4, fun A' hmv => ⟨?_, h5 A' hmv⟩⟩
        by_contra hne
        cases c with
        | dalloc n =>
          obtain ⟨h6, h7⟩ := hmv.one_block hP.1 (hreq u n hu).1 (hreq' u _ hu n rfl).2 hne
          have := hnone u n hu (hA.live_nil.mpr h7)
          omega
        | dfree p =>
          refine hne ?_
          cases hmv with
          | dfree_null => exact hP.1
          | dfree hb hbt hr =>
            have h6 := hP.1
            rw [hb] at h6
            simpa [Layout.release] using h6
        | write =>
          cases hmv
          exact hne hP.1
    obtain ⟨b, hb, hsize⟩ := Layout.one_block hone
    intro n h16 hn
    refine Runs.imp ?_ (hh.dalloc A n)
    rintro p h' ⟨-, hnull⟩ hp
    have hbm : b ∈ A.blocks := by rw [hb]; simp
    have hlt := (hnull (by omega)).mp hp b ((A.mem_flist b).mpr ⟨hbm, hh.live_nil.mp hend b hbm⟩)
    rw [ask_regular h16 (by simp only [ARENA]; omega)] at hlt
    simp only [HEAD, ARENA] at hsize
    omega

/-- The equivalence after the whole arena was handed out and freed. -/
theorem whole_iff_all : ∃ (tr : List (Session Bytes × Call)) (s : Session Bytes),
    tr.map Prod.snd = [.dalloc 65520, .dfree 4104] ∧ Started .second tr s ∧ s.live = [] ∧
      ((∀ n, 16 ≤ n → n ≤ 65520 → Runs (dalloc n) s.heap fun p _ => p ≠ NULL) ↔
        ∀ t n, (t, .dalloc n) ∈ tr → t.live = [] → 65496 < n) := by
  obtain ⟨tr, s, htr, hst, hc⟩ := exists_started .second (fun _ => 0 : Bytes) [.dalloc 65520, .dfree 4104]
    (fun s => decide (s.live = [])) (by decide +kernel)
  refine ⟨tr, s, htr, hst, of_decide_eq_true hc, whole_iff hst (fun t n hm => ?_) (of_decide_eq_true hc)⟩
  have hn := mem_labels htr hm
  simp at hn
  omega

/-- After `p = dalloc(16)` and `dfree(p)` nothing is held, and the whole arena is not to be had. -/
theorem fragmented : ∃ (m : Mapping) (tr : List (Session Bytes × Call)) (s : Session Bytes) (p : ℕ),
    tr.map Prod.snd = [.dalloc 16, .dfree p] ∧ Started m tr s ∧ s.live = [] ∧
      ¬ Runs (dalloc 65520) s.heap fun q _ => q ≠ NULL := by
  obtain ⟨tr, s, htr, hst, hc⟩ := exists_started .second (fun _ => 0 : Bytes) [.dalloc 16, .dfree 69608]
    (fun s => decide (s.live = []) && check (dalloc 65520) s.heap fun q _ => decide (q = NULL)) (by decide +kernel)
  obtain ⟨hlive, hnull⟩ := Bool.and_eq_true_iff.mp hc
  refine ⟨.second, tr, s, 69608, htr, hst, of_decide_eq_true hlive, fun ⟨q, h', hr, hq⟩ => ?_⟩
  exact hq (of_decide_eq_true ((runs_of_check hnull).of_eq hr))

end Run

end Seminars.Dlmalloc
