import Seminars.Dlmalloc.Damage
import Seminars.Dlmalloc.Exhausted
import Seminars.Dlmalloc.Merge

/-!
# Seminars.Dlmalloc.Merged — programs that use the allocator with `merge` called in `dfree`

The steps of a program are those of `Step`, with `dfreeMerged` in the place of `dfree`.  A heap of such a run is sound
and no two of its free blocks touch (`Merged`).

* `MergedStep.keeps`, `MergedStarted.merged`: one step, a run.
* `merged_invariant`: the invariant in terms of the code, and no call faults.
* `merged_fails_iff`: a request fails exactly when no gap between the blocks in use is long enough.
* `merged_frame`: a call changes no payload that is in use before and after it.
* `merged_capacity`: requests of at most `R` bytes are served as long as few blocks are in use.
-/

namespace Seminars.Dlmalloc

open Lib BlockMem

/-! ### Coalesced layouts -/

section Layout

variable {base room : ℕ} {A A' B : Layout base room} {b J : Blk} {pre post : List Blk} {left right : Option Blk}
  {r p : ℕ} {C : Set (ℕ × Field)}

/-- A tiling with blocks of regular sizes has a regular length. -/
theorem Tiled.length_mod {a e : ℕ} {l : List Blk} (h : Tiled a l e) (hl : ∀ b ∈ l, b.size % ALIGN = 0) :
    ∃ k, e = a + ALIGN * k := by
  induction l generalizing a with
  | nil => exact ⟨0, (Eq.symm h : e = a)⟩
  | cons b l ih =>
    obtain ⟨rfl, h⟩ := h
    obtain ⟨k, hk⟩ := ih h fun c hc => hl c (List.mem_cons_of_mem _ hc)
    have hb := hl b (by simp)
    simp only [Blk.fin, HEAD, ALIGN] at hk hb ⊢
    exact ⟨b.size / 8 + 1 + k, by omega⟩

/-- The block that `merge` makes has a regular size, and is at least as large as `b`. -/
theorem joined_size {l : List Blk} (h : Tiled J.addr l J.fin) (hl : ∀ c ∈ l, c.size % ALIGN = 0 ∧ 16 ≤ c.size)
    (hb : b ∈ l) : J.size % ALIGN = 0 ∧ 16 ≤ J.size := by
  obtain ⟨k, hk⟩ := h.length_mod fun c hc => (hl c hc).1
  have hsub := h.mem hb
  have hsize := (hl b hb).2
  simp only [Blk.fin, HEAD, ALIGN] at hk hsub ⊢
  omega

/-- What stands in the place of a free block may touch the neighbours of that block. -/
theorem Layout.Coalesced.replace {l : List Blk} (hA : A.Coalesced) (h : A.blocks = pre ++ b :: post)
    (hb : b.free = true) (hB : B.blocks = pre ++ l ++ post)
    (hl : l.IsChain fun c d => ¬ (c.free = true ∧ d.free = true)) : B.Coalesced := by
  rw [Layout.Coalesced, h] at hA
  obtain ⟨h1, h2, h3⟩ := List.isChain_append.mp hA
  obtain ⟨h4, h5⟩ := List.isChain_cons.mp h2
  rw [Layout.Coalesced, hB]
  refine List.isChain_append.mpr ⟨List.isChain_append.mpr ⟨h1, hl, ?_⟩, h5, ?_⟩
  · rintro c hc d - ⟨hcf, -⟩
    exact h3 c hc b rfl ⟨hcf, hb⟩
  · rintro c - d hd ⟨-, hdf⟩
    exact h4 d hd ⟨hb, hdf⟩

theorem Took.coalesced (ht : Took A r p A' C) (hA : A.Coalesced) : A'.Coalesced := by
  cases ht with
  | none h => exact hA
  | @carve pre post l₁ l₂ b hb hf h1 hr hroom =>
    have hfree := ((A.mem_flist b).mp (by rw [hf]; simp)).2
    refine hA.replace hb hfree (l := [Layout.rest b r, Layout.cut b r]) (by simp [Layout.carve]) ?_
    exact .cons_cons (fun h => by simp [Layout.cut] at h) (.singleton _)
  | @claim pre post l₁ l₂ b hb hf h1 hr hr' =>
    have hfree := ((A.mem_flist b).mp (by rw [hf]; simp)).2
    exact hA.replace hb hfree (l := [{ b with free := false }]) (by simp [Layout.claim]) (.singleton _)

/-- First fit hands out less than a header and a small block more than it was asked for. -/
theorem Took.taken_lt {K : ℕ} (ht : Took A r p A' C) (hA : ∀ b ∈ A.blocks, b.free = false → b.size < K)
    (hr : r + HEAD + 16 ≤ K) : ∀ b ∈ A'.blocks, b.free = false → b.size < K := by
  cases ht with
  | none h => exact hA
  | @carve pre post l₁ l₂ b hb hf h1 hr' hroom =>
    intro c hc hcf
    have hold : c ∈ pre ∨ c ∈ post → c.size < K := by
      intro hc
      refine hA c ?_ hcf
      rw [hb, List.mem_append, List.mem_cons]
      tauto
    simp only [Layout.carve, List.mem_append, List.mem_cons] at hc
    rcases hc with hc | rfl | rfl | hc
    · exact hold (.inl hc)
    · exact absurd hcf (by simp [Layout.rest])
    · show r < K
      omega
    · exact hold (.inr hc)
  | @claim pre post l₁ l₂ b hb hf h1 hr' hlt =>
    intro c hc hcf
    have hold : c ∈ pre ∨ c ∈ post → c.size < K := by
      intro hc
      refine hA c ?_ hcf
      rw [hb, List.mem_append, List.mem_cons]
      tauto
    simp only [Layout.claim, List.mem_append, List.mem_cons] at hc
    rcases hc with hc | rfl | hc
    · exact hold (.inl hc)
    · show b.size < K
      omega
    · exact hold (.inr hc)

theorem Took.mem_of_taken (ht : Took A r p A' C) (hb : b ∈ A.blocks) (hbf : b.free = false) : b ∈ A'.blocks := by
  have hne : ∀ {c : Blk}, c ∈ A.flist → b ≠ c := by
    rintro c hc rfl
    simp [((A.mem_flist b).mp hc).2] at hbf
  cases ht with
  | none h => exact hb
  | @carve pre post l₁ l₂ c hc hf h1 hr hroom =>
    have hbc := hne (c := c) (by rw [hf]; simp)
    rw [hc, List.mem_append, List.mem_cons] at hb
    simp only [Layout.carve, List.mem_append, List.mem_cons]
    tauto
  | @claim pre post l₁ l₂ c hc hf h1 hr hr' =>
    have hbc := hne (c := c) (by rw [hf]; simp)
    rw [hc, List.mem_append, List.mem_cons] at hb
    simp only [Layout.claim, List.mem_append, List.mem_cons]
    tauto

/-- The taken blocks after `b` and its free neighbours have become one free block. -/
theorem Neighbours.taken (hn : Neighbours A b pre left right post) (hB : B.blocks = pre ++ J :: post)
    (hJ : J.free = true) (hb : b.free = false) (q : ℕ) : B.Taken q ↔ q ≠ b.addr + HEAD ∧ A.Taken q := by
  have hbA : b ∈ A.blocks := by rw [hn.blocks]; simp
  have hbr : b ∉ pre ∧ b ∉ post := by
    have hnd := A.tiled.nodup
    rw [hn.blocks, List.nodup_append, List.nodup_append] at hnd
    refine ⟨fun hm => hnd.2.2 b hm b (by simp) rfl, fun hm => ?_⟩
    exact (List.nodup_cons.mp hnd.2.1.2.1).1 (List.mem_append_right _ hm)
  have hmem : ∀ c, c ∈ A.blocks ∧ c.free = false ↔ (c ∈ pre ∨ c = b ∨ c ∈ post) ∧ c.free = false := by
    intro c
    refine and_congr_left fun hcf => ?_
    have hl : c ∉ left.toList := fun hm => by simp [hn.leftFree c (by simpa using hm)] at hcf
    have hr : c ∉ right.toList := fun hm => by simp [hn.rightFree c (by simpa using hm)] at hcf
    rw [hn.blocks]
    simp only [List.mem_append, List.mem_cons]
    tauto
  constructor
  · rintro ⟨c, hc, hcf, rfl⟩
    rw [hB, List.mem_append, List.mem_cons] at hc
    have hcJ : c ≠ J := by
      rintro rfl
      simp [hJ] at hcf
    have hc' : c ∈ pre ∨ c ∈ post := by tauto
    have hcA := ((hmem c).mpr ⟨by tauto, hcf⟩).1
    refine ⟨fun he => ?_, c, hcA, hcf, rfl⟩
    obtain rfl := A.tiled.addr_inj hcA hbA (Nat.add_right_cancel he)
    tauto
  · rintro ⟨hq, c, hc, hcf, rfl⟩
    obtain ⟨hc, -⟩ := (hmem c).mp ⟨hc, hcf⟩
    have hcb : c ≠ b := fun e => hq (by rw [e])
    refine ⟨c, ?_, hcf, rfl⟩
    rw [hB, List.mem_append, List.mem_cons]
    tauto

end Layout

/-! ### One step -/

section Call

variable {μ L V : Type} [BlockMem μ L V] {m : Mapping} {A : Layout m.base (room μ)} {s s' : Session μ} {c : Call}
  {R : ℕ}

/-- One step of the program; `dfree` calls `merge`. -/
inductive MergedStep : Session μ → Call → Session μ → Prop
  | same {s s' : Session μ} {c : Call} : (∀ p, c ≠ .dfree p) → Step s c s' → MergedStep s c s'
  | dfree {s : Session μ} {p : ℕ} {h : Heap μ} : p = NULL ∨ p ∈ s.live →
      (dfreeMerged p).run s.heap = .ok ((), h) → MergedStep s (.dfree p) ⟨h, s.live.erase p⟩

/-- `init()` succeeded with the mapping `m`, then the program did `tr`. -/
def MergedStarted (m : Mapping) (tr : List (Session μ × Call)) (s : Session μ) : Prop :=
  ∃ mem h₀, (init (some m)).run (Heap.start mem) = .ok ((), h₀) ∧ Path MergedStep ⟨h₀, []⟩ tr s

/-- **The invariant**: the session holds a regular layout in which no two free blocks touch, and a block in use is
little larger than the largest request `R`. -/
structure Merged (m : Mapping) (R : ℕ) (s : Session μ) (A : Layout m.base (room μ)) : Prop where
  holds : Holds m s A
  regular : Regular A
  coalesced : A.Coalesced
  taken : ∀ b ∈ A.blocks, b.free = false → b.size < R + 32

/-- The payload at `q` has the size and the contents it had. -/
def SamePayload (h h' : Heap μ) (q : ℕ) : Prop :=
  val h' (q - HEAD) .size = val h (q - HEAD) .size ∧ ∀ x, q ≤ addr μ x → addr μ x < q + val h (q - HEAD) .size →
    FootMem.read h'.mem x = FootMem.read h.mem x

theorem Merged.same (hk : Merged m R s A) (hst : Step s c s') (hc : ∀ p, c ≠ .dfree p)
    (hreq : ∀ n, c = .dalloc n → 16 ≤ n ∧ n ≤ R) (hR : R ≤ 2 ^ 30) : ∃ A', Merged m R s' A' := by
  have hreq' : ∀ n, c = .dalloc n → 16 ≤ n ∧ n ≤ 2 ^ 30 := fun n hn => ⟨(hreq n hn).1, (hreq n hn).2.trans hR⟩
  obtain ⟨A', hmv, hh'⟩ := step_holds hk.holds hst (roomy_of_ne hc)
  have hreg' := hmv.regular hk.regular hreq'
  cases hmv with
  | dalloc_zero => exact ⟨A, hh', hreg', hk.coalesced, hk.taken⟩
  | @dalloc n p _ C hn ht =>
    refine ⟨A', hh', hreg', ht.coalesced hk.coalesced, ?_⟩
    obtain ⟨h16, hmax⟩ := hreq n rfl
    rw [adjust_regular h16 (by omega)] at ht
    apply ht.taken_lt hk.taken
    simp only [HEAD]
    omega
  | dfree_null => exact absurd rfl (hc _)
  | dfree => exact absurd rfl (hc _)
  | write => exact ⟨A, hh', hreg', hk.coalesced, hk.taken⟩

theorem Merged.dfree {p : ℕ} (hk : Merged m R s A) (hp : p ∈ s.live) : Runs (dfreeMerged p) s.heap fun _ h' =>
    (∃ A', Merged m R ⟨h', s.live.erase p⟩ A') ∧ ∀ q ∈ s.live, q ≠ p → SamePayload s.heap h' q := by
  have hh := hk.holds
  obtain ⟨b, pre₀, post₀, hb, hbt, rfl, -⟩ := hh.block hp
  have hbA : b ∈ A.blocks := by rw [hb]; simp
  obtain ⟨pre, left, right, post, hn⟩ := exists_neighbours hbA
  obtain ⟨J, B, hJ, ht, hB, -, hco, hrun⟩ :=
    dfreeMerged_spec hh.rep hk.coalesced hn hbt (.inl (room_le.trans (hk.regular b hbA).2))
  have htaken := hn.taken hB hJ hbt
  have hsame : ∀ c ∈ pre ++ post, c ∈ A.blocks := by
    intro c hc
    rw [hn.blocks]
    simp only [List.mem_append, List.mem_cons] at hc ⊢
    tauto
  have hjoined : ∀ c ∈ left.toList ++ b :: right.toList, c ∈ A.blocks := by
    intro c hc
    rw [hn.blocks]
    simp only [List.mem_append, List.mem_cons] at hc ⊢
    tauto
  have hblocks : ∀ c ∈ B.blocks, c = J ∨ c ∈ A.blocks := by
    intro c hc
    rw [hB, List.mem_append, List.mem_cons] at hc
    have := hsame c
    rw [List.mem_append] at this
    tauto
  refine Runs.imp ?_ hrun
  rintro - h' ⟨hR', hpay⟩
  refine ⟨⟨B, ⟨hR', fun q => ?_, hh.nodup.erase _⟩, ?_, hco, ?_⟩, ?_⟩
  · rw [htaken, hh.nodup.mem_erase_iff, hh.live]
  · intro c hc
    rcases hblocks c hc with rfl | hc
    · exact joined_size (b := b) ht (fun d hd => hk.regular d (hjoined d hd)) (by simp)
    · exact hk.regular c hc
  · intro c hc hcf
    rcases hblocks c hc with rfl | hc
    · simp [hJ] at hcf
    · exact hk.taken c hc hcf
  · intro q hq hqb
    obtain ⟨d, _, _, hd, hdt, rfl, hsz⟩ := hh.block hq
    obtain ⟨e, he, het, hed⟩ := (htaken _).mpr ⟨hqb, (hh.live _).mp hq⟩
    -- the block of `q` is one of those that stay
    have heJ : e ≠ J := by
      rintro rfl
      simp [hJ] at het
    have hdA : d ∈ A.blocks := by rw [hd]; simp
    have hem : e ∈ pre ++ post := by
      rw [hB, List.mem_append, List.mem_cons] at he
      rw [List.mem_append]
      tauto
    obtain rfl := A.tiled.addr_inj hdA (hsame e hem) (Nat.add_right_cancel hed)
    refine ⟨?_, fun x h1 h2 => ?_⟩
    · rw [hsz, Nat.add_sub_cancel]
      exact (hR'.headers.mem (B.mem_all_of_mem he)).2
    · rw [hsz] at h2
      refine hpay d hem x h1 ?_ fun hf => ?_
      · simp only [Blk.fin]
        omega
      · simp [hdt] at hf

/-- **The step lemma.** -/
theorem MergedStep.keeps (hst : MergedStep s c s') (hk : Merged m R s A)
    (hreq : ∀ n, c = .dalloc n → 16 ≤ n ∧ n ≤ R) (hR : R ≤ 2 ^ 30) : ∃ A', Merged m R s' A' := by
  cases hst with
  | same hc hst => exact hk.same hst hc hreq hR
  | @dfree p h hp hrun =>
    by_cases hlive : p ∈ s.live
    · exact ((hk.dfree hlive).of_eq hrun).1
    · obtain rfl := hp.resolve_right hlive
      obtain rfl := dfreeMerged_null.of_eq hrun
      rw [List.erase_of_not_mem hlive]
      exact ⟨A, hk⟩

variable {tr : List (Session μ × Call)}

theorem merged_fresh (hR : Rep m h (Layout.fresh m.base (room μ) room_le)) :
    Merged m R ⟨h, []⟩ (Layout.fresh m.base (room μ) room_le) := by
  refine ⟨⟨hR, fun p => ?_, List.nodup_nil⟩, regular_fresh, .singleton _, ?_⟩
  · simp [Layout.Taken, Layout.fresh]
  · intro b hb hbf
    obtain rfl := List.mem_singleton.mp hb
    simp at hbf

/-- **The run lemma.** -/
theorem MergedStarted.merged (hst : MergedStarted m tr s) (hR : R ≤ 2 ^ 30)
    (hreq : ∀ t n, (t, .dalloc n) ∈ tr → 16 ≤ n ∧ n ≤ R) : ∃ A, Merged m R s A := by
  obtain ⟨mem, h₀, hi, hp⟩ := hst
  refine hp.invariant (I := fun s => ∃ A, Merged m R s A) ⟨_, merged_fresh ((init_spec m mem).of_eq hi)⟩ ?_
  rintro t c t' hm ⟨A, hk⟩ hstep
  exact hstep.keeps hk (fun n hn => hreq t n (hn ▸ hm)) hR

/-! ### Free blocks and blocks in use -/

theorem countP_free_le (l : List Blk) (hl : l.IsChain fun b c => ¬ (b.free = true ∧ c.free = true)) :
    l.countP (·.free) ≤ l.countP (!·.free) + 1 ∧
      ((∀ b ∈ l.head?, b.free = false) → l.countP (·.free) ≤ l.countP (!·.free)) := by
  induction l with
  | nil => simp
  | cons b l ih =>
    obtain ⟨hhead, hl⟩ := List.isChain_cons.mp hl
    obtain ⟨h1, h2⟩ := ih hl
    cases hb : b.free with
    | false =>
      rw [List.countP_cons_of_neg (by simp [hb]), List.countP_cons_of_pos (by simp [hb])]
      exact ⟨by omega, fun _ => h1⟩
    | true =>
      have h2 := h2 fun c hc => Bool.eq_false_iff.mpr fun hcf => hhead c hc ⟨hb, hcf⟩
      rw [List.countP_cons_of_pos (by simp [hb]), List.countP_cons_of_neg (by simp [hb])]
      exact ⟨by omega, fun hf => absurd (hf b rfl) (by simp [hb])⟩

/-- The program holds as many pointers as there are taken blocks. -/
theorem Holds.length_live (hh : Holds m s A) : s.live.length = A.blocks.countP (!·.free) := by
  have hinj : ((A.blocks.filter (!·.free)).map fun b => b.addr + HEAD).Nodup := by
    refine List.Nodup.map_on (fun b hb c hc he => ?_) (A.tiled.nodup.filter _)
    exact A.tiled.addr_inj (List.mem_of_mem_filter hb) (List.mem_of_mem_filter hc) (Nat.add_right_cancel he)
  have hperm := (List.perm_ext_iff_of_nodup hh.nodup hinj).mpr fun p => by
    rw [hh.live, List.mem_map]
    constructor
    · rintro ⟨b, hb, hbf, rfl⟩
      exact ⟨b, List.mem_filter.mpr ⟨hb, by simp [hbf]⟩, rfl⟩
    · rintro ⟨b, hb, rfl⟩
      obtain ⟨hb, hbf⟩ := List.mem_filter.mp hb
      exact ⟨b, hb, by simpa using hbf, rfl⟩
  rw [hperm.length_eq, List.length_map, List.countP_eq_length_filter]

theorem Layout.length_flist (A : Layout m.base (room μ)) : A.flist.length = A.blocks.countP (·.free) := by
  have hperm := (List.perm_ext_iff_of_nodup A.nodup (A.tiled.nodup.filter (·.free))).mpr fun b => by
    rw [A.mem_flist, List.mem_filter]
  rw [hperm.length_eq, List.countP_eq_length_filter]

/-- There is at most one free block more than there are blocks in use. -/
theorem Merged.length_flist_le (hk : Merged m R s A) : A.flist.length ≤ s.live.length + 1 := by
  rw [hk.holds.length_live, A.length_flist]
  exact (countP_free_le _ hk.coalesced).1

theorem Merged.dalloc (hk : Merged m R s A) (n : ℕ) :
    Runs (dalloc n) s.heap fun _ h' => ∀ q ∈ s.live, SamePayload s.heap h' q := by
  have hh := hk.holds
  by_cases hn : n = 0
  · subst hn
    refine Runs.imp ?_ dalloc_zero
    rintro - h' ⟨-, rfl⟩ q -
    exact ⟨rfl, fun _ _ _ => rfl⟩
  refine Runs.imp ?_ (dalloc_spec hh.rep hn)
  rintro p h' ⟨A', C, ht, hR, hch, hnull⟩ q hq
  by_cases hp : p = NULL
  · rw [hnull hp]
    exact ⟨rfl, fun _ _ _ => rfl⟩
  obtain ⟨b, hb, hbf, h1, h2, hC⟩ := ht.reach hp
  have hint : Intact m s ⟨h', hold p s.live⟩ p := by
    refine hh.intact hb ⟨h1, h2⟩ hC hch fun hlive => ?_
    obtain ⟨pre, post, hsplit⟩ := List.append_of_mem hb
    exact absurd ((hh.live _).mp hlive) (Layout.addr_notTaken hsplit hbf)
  obtain ⟨d, _, _, hd, hdt, rfl, hsz⟩ := hh.block hq
  have hdA' := ht.mem_of_taken (b := d) (by rw [hd]; simp) hdt
  refine ⟨?_, hint.payload _ hq (by rw [hold, if_neg hp]; exact List.mem_cons_of_mem _ hq)⟩
  rw [hsz, Nat.add_sub_cancel]
  exact (hR.headers.mem (A'.mem_all_of_mem hdA')).2

/-! ### Gaps -/

/-- The addresses from `a` to `e` are in the arena and in no block that the program holds. -/
def Session.Gap (m : Mapping) (s : Session μ) (a e : ℕ) : Prop :=
  m.base ≤ a ∧ e ≤ m.base + (ARENA - HEAD) ∧ ∀ p ∈ s.live, e ≤ p - HEAD ∨ p + val s.heap (p - HEAD) .size ≤ a

theorem Tiled.exists_mem {a e x : ℕ} {l : List Blk} (h : Tiled a l e) (h1 : a ≤ x) (h2 : x < e) :
    ∃ l₁ b l₂, l = l₁ ++ b :: l₂ ∧ b.addr ≤ x ∧ x < b.fin := by
  induction l generalizing a with
  | nil =>
    have h : a = e := h
    omega
  | cons b l ih =>
    obtain ⟨rfl, h⟩ := h
    by_cases hx : x < b.fin
    · exact ⟨[], b, l, rfl, h1, hx⟩
    · obtain ⟨l₁, c, l₂, rfl, hc⟩ := ih h (by omega)
      exact ⟨b :: l₁, c, l₂, rfl, hc⟩

/-- **Every gap lies in a free block.** -/
theorem Merged.gap_iff (hk : Merged m R s A) {r : ℕ} :
    (∃ a, s.Gap m a (a + HEAD + r)) ↔ ∃ b ∈ A.flist, r ≤ b.size := by
  have hh := hk.holds
  constructor
  · rintro ⟨a, h1, h2, hgap⟩
    -- a block in use and the gap do not overlap
    have happart : ∀ c ∈ A.blocks, c.free = false → a + HEAD + r ≤ c.addr ∨ c.fin ≤ a := by
      intro c hc hcf
      have hlive := (hh.live _).mpr ⟨c, hc, hcf, rfl⟩
      have h3 := hgap _ hlive
      rw [Nat.add_sub_cancel, (hh.rep.headers.mem (A.mem_all_of_mem hc)).2] at h3
      simp only [Blk.fin]
      omega
    obtain ⟨pre, b, post, hb, hab, hba⟩ := A.tiled.exists_mem h1 (by simp only [HEAD] at h2 ⊢; omega)
    have hbA : b ∈ A.blocks := by rw [hb]; simp
    have hfree : b.free = true := by
      by_contra hbf
      have h3 := happart b hbA (Bool.eq_false_iff.mpr hbf)
      simp only [HEAD] at h3
      omega
    refine ⟨b, (A.mem_flist b).mpr ⟨hbA, hfree⟩, ?_⟩
    have hend : a + HEAD + r ≤ b.fin := by
      obtain ⟨c, rest, -, hrest, hc⟩ := A.exists_next hb
      cases post with
      | nil =>
        obtain rfl : sentinel m.base = c := (List.cons.inj hrest).1
        rw [← hc]
        exact h2
      | cons d post =>
        obtain rfl : d = c := (List.cons.inj hrest).1
        have hdA : d ∈ A.blocks := by rw [hb]; simp
        have hchain := hk.coalesced
        rw [Layout.Coalesced, hb] at hchain
        have hbd := (List.isChain_cons_cons.mp (List.isChain_append.mp hchain).2.1).1
        have h3 := happart d hdA (Bool.eq_false_iff.mpr fun hdf => hbd ⟨hfree, hdf⟩)
        simp only [Blk.fin] at h3 hc hba ⊢
        omega
    simp only [Blk.fin] at hend
    omega
  · rintro ⟨b, hb, hr⟩
    obtain ⟨hbA, hbf⟩ := (A.mem_flist b).mp hb
    have hin := A.tiled.mem hbA
    simp only [Blk.fin] at hin
    refine ⟨b.addr, hin.1, by omega, fun p hp => ?_⟩
    obtain ⟨c, _, _, hc, hcf, rfl, hsz⟩ := hh.block hp
    rw [hsz]
    rcases A.tiled.eq_or_apart hbA (c := c) (by rw [hc]; simp) with rfl | h | h
    · simp [hbf] at hcf
    · simp only [Blk.fin] at h
      omega
    · simp only [Blk.fin] at h
      omega

theorem Tiled.le_mul {a e K : ℕ} {l : List Blk} (h : Tiled a l e) (hl : ∀ b ∈ l, b.size + HEAD ≤ K) :
    e ≤ a + l.length * K := by
  induction l generalizing a with
  | nil => exact (show a = e from h).ge.trans (Nat.le_add_right _ _)
  | cons b l ih =>
    obtain ⟨rfl, h⟩ := h
    have h1 := ih h fun c hc => hl c (List.mem_cons_of_mem _ hc)
    have h2 := hl b (by simp)
    rw [List.length_cons, Nat.add_mul, Nat.one_mul]
    simp only [Blk.fin] at h1
    omega

/-- When few blocks are in use, some free block is large. -/
theorem Merged.exists_large (hk : Merged m R s A) (hfew : (2 * s.live.length + 1) * (R + 39) < ARENA - HEAD) {r : ℕ}
    (hr : r ≤ R + 31) : ∃ b ∈ A.flist, r ≤ b.size := by
  by_contra hno
  rw [not_exists] at hno
  have hsmall : ∀ b ∈ A.blocks, b.size + HEAD ≤ R + 39 := by
    intro b hb
    cases hbf : b.free with
    | true =>
      have hlt : ¬ r ≤ b.size := fun h => hno b ⟨(A.mem_flist b).mpr ⟨hb, hbf⟩, h⟩
      simp only [HEAD]
      omega
    | false =>
      have hlt := hk.taken b hb hbf
      simp only [HEAD]
      omega
  have hle := A.tiled.le_mul hsmall
  have hcount : A.blocks.length = A.blocks.countP (·.free) + A.blocks.countP (!·.free) := by
    rw [List.length_eq_countP_add_countP (fun b : Blk => b.free)]
    simp
  have hfree := hk.length_flist_le
  rw [A.length_flist] at hfree
  have hlen : A.blocks.length ≤ 2 * s.live.length + 1 := by
    rw [hcount, ← hk.holds.length_live]
    omega
  have hmul := Nat.mul_le_mul_right (R + 39) hlen
  omega

end Call

/-! ### Runs that are computed -/

section Play

variable {μ L V : Type} [BlockMem μ L V]

/-- The session after a call, when the program may make it. -/
def mergedNext (s : Session μ) : Call → Option (Session μ)
  | .dalloc n =>
    if n < 2 ^ 64 then ((dalloc n).run s.heap).toOption.map fun x => ⟨x.2, hold x.1 s.live⟩ else none
  | .dfree p =>
    if p = NULL ∨ p ∈ s.live then ((dfreeMerged p).run s.heap).toOption.map fun x => ⟨x.2, s.live.erase p⟩ else none
  | .write => some s

theorem toOption_eq_some {ε α : Type} {e : Except ε α} {a : α} (h : e.toOption = some a) : e = .ok a := by
  cases e with
  | error e => cases h
  | ok b => cases h; rfl

theorem mergedNext_step (s : Session μ) (c : Call) (t : Session μ) (h : mergedNext s c = some t) :
    MergedStep s c t := by
  cases c with
  | dalloc n =>
    simp only [mergedNext] at h
    split_ifs at h with hn
    obtain ⟨⟨p, h'⟩, hr, rfl⟩ := Option.map_eq_some_iff.mp h
    exact .same (fun p => by simp) (.dalloc hn (toOption_eq_some hr))
  | dfree p =>
    simp only [mergedNext] at h
    split_ifs at h with hp
    obtain ⟨⟨_, h'⟩, hr, rfl⟩ := Option.map_eq_some_iff.mp h
    exact .dfree hp (toOption_eq_some hr)
  | write =>
    obtain rfl : s = t := Option.some.inj h
    exact .same (fun p => by simp) (.write fun _ _ => rfl)

/-- `init()`, then the calls `cs`, and what a test says about the end. -/
theorem exists_mergedStarted (m : Mapping) (mem : μ) (cs : List Call) (P : Session μ → Bool)
    (h : check (init (some m)) (Heap.start mem)
      (fun _ h₀ => (Lib.play mergedNext ⟨h₀, []⟩ cs).any fun x => P x.2) = true) :
    ∃ tr s, tr.map Prod.snd = cs ∧ MergedStarted m tr s ∧ P s = true := by
  obtain ⟨_, h₀, hi, hplay⟩ := runs_of_check h
  obtain ⟨⟨tr, s⟩, hp, hP⟩ := (Option.any_eq_true _ _).mp hplay
  exact ⟨tr, s, labels_of_play hp, ⟨mem, h₀, hi, path_of_play mergedNext_step hp⟩, hP⟩

end Play

/-- The calls of the examples: three blocks, the middle one freed, then the first one. -/
def mergedCalls : List Call := [.dalloc 24, .dalloc 40, .dalloc 16, .dfree 69552, .dfree 69600]

theorem mergedCalls_requests {tr : List (Session Bytes × Call)} (htr : tr.map Prod.snd = mergedCalls)
    {t : Session Bytes} {n : ℕ} (hm : (t, .dalloc n) ∈ tr) : 16 ≤ n ∧ n ≤ 40 := by
  have hn := mem_labels htr hm
  simp [mergedCalls] at hn
  omega

/-! ### Every run -/

section Run

variable {μ L V : Type} [BlockMem μ L V] {m : Mapping} {s s' : Session μ} {c : Call} {R : ℕ}
  {tr : List (Session μ × Call)}

/-- **With `merge` called in `dfree` every run keeps the heap sound and coalesced.**  No call faults; there is at most
one free block more than there are blocks in use; and when nothing is in use, the heap is one block. -/
theorem merged_invariant (hst : MergedStarted m tr s)
    (hreq : ∀ t n, (t, .dalloc n) ∈ tr → 16 ≤ n ∧ n ≤ 2 ^ 30) :
    (∃ l fl, Sound m s l fl ∧
      (l.IsChain fun b c => ¬ (val s.heap b .free = TRUE ∧ val s.heap c .free = TRUE)) ∧
      fl.length ≤ s.live.length + 1 ∧ (s.live = [] → l = [m.base])) ∧
    (∀ n, 16 ≤ n → n ≤ 2 ^ 30 → ∃ s', MergedStep s (.dalloc n) s') ∧
      ∀ p, p = NULL ∨ p ∈ s.live → ∃ s', MergedStep s (.dfree p) s' := by
  obtain ⟨A, hk⟩ := hst.merged le_rfl hreq
  refine ⟨⟨_, _, hk.holds.sound hk.regular, ?_, ?_, fun hl => ?_⟩, fun n _ hn => ?_, fun p hp => ?_⟩
  · have hfree : ∀ b ∈ A.blocks, val s.heap b.addr .free = TRUE → b.free = true := by
      intro b hb hf
      rw [(hk.holds.rep.headers.mem (A.mem_all_of_mem hb)).1] at hf
      cases hbf : b.free with
      | true => rfl
      | false => exact absurd (hbf ▸ hf) (by decide)
    refine (List.isChain_map _).mpr (hk.coalesced.imp_of_mem_imp fun b c hb hc hbc => ?_)
    rintro ⟨h1, h2⟩
    exact hbc ⟨hfree b hb h1, hfree c hc h2⟩
  · rw [List.length_map]
    exact hk.length_flist_le
  · rw [hk.coalesced.whole (hk.holds.live_nil.mp hl)]
    rfl
  · obtain ⟨s', hs⟩ := can_step hk.holds (c := .dalloc n) (roomy_of_ne fun p => by simp) (.inl ⟨n, by omega, rfl⟩)
    exact ⟨s', .same (fun p => by simp) hs⟩
  · by_cases hlive : p ∈ s.live
    · obtain ⟨_, h', hrun, -⟩ := hk.dfree hlive
      exact ⟨_, .dfree hp hrun⟩
    · obtain rfl := hp.resolve_right hlive
      obtain ⟨_, h', hrun, -⟩ := dfreeMerged_null (h := s.heap)
      exact ⟨_, .dfree hp hrun⟩

/-- The invariant after a block was joined with the block behind it. -/
theorem merged_invariant_five : ∃ (tr : List (Session Bytes × Call)) (s : Session Bytes),
    tr.map Prod.snd = mergedCalls ∧ MergedStarted .second tr s ∧
    (∃ l fl, Sound .second s l fl ∧
      (l.IsChain fun b c => ¬ (val s.heap b .free = TRUE ∧ val s.heap c .free = TRUE)) ∧
      fl.length ≤ s.live.length + 1 ∧ (s.live = [] → l = [Mapping.second.base])) ∧
    (∀ n, 16 ≤ n → n ≤ 2 ^ 30 → ∃ s', MergedStep s (.dalloc n) s') ∧
      ∀ p, p = NULL ∨ p ∈ s.live → ∃ s', MergedStep s (.dfree p) s' := by
  obtain ⟨tr, s, htr, hst, -⟩ := exists_mergedStarted .second (fun _ => 0 : Bytes) mergedCalls (fun _ => true)
    (by decide +kernel)
  refine ⟨tr, s, htr, hst, merged_invariant hst fun t n hm => ?_⟩
  have hn := mergedCalls_requests htr hm
  omega

/-- **No fragmentation but by the blocks in use.**  `dalloc` fails exactly when no gap between them is long enough for
the block and its header. -/
theorem merged_fails_iff (hst : MergedStarted m tr s)
    (hreq : ∀ t n, (t, .dalloc n) ∈ tr → 16 ≤ n ∧ n ≤ 2 ^ 30) (n : ℕ) (h16 : 16 ≤ n) (hn : n ≤ 2 ^ 30) :
    Runs (dalloc n) s.heap fun p h' =>
      (p = NULL ↔ ∀ a, ¬ s.Gap m a (a + HEAD + (n + 7) / 8 * 8)) ∧ (p = NULL → h' = s.heap) := by
  obtain ⟨A, hk⟩ := hst.merged le_rfl hreq
  refine Runs.imp ?_ (dalloc_spec hk.holds.rep (by omega : n ≠ 0))
  rintro p h' ⟨A', C, ht, -, -, hsame⟩
  rw [adjust_regular h16 hn] at ht
  refine ⟨?_, hsame⟩
  rw [ht.null_iff, ← not_exists, hk.gap_iff]
  simp only [not_exists, not_and, not_le]

/-- The block of 16 bytes stands between two gaps. -/
theorem merged_fails_iff_five : ∃ (tr : List (Session Bytes × Call)) (s : Session Bytes),
    tr.map Prod.snd = mergedCalls ∧ s.live = [69528] ∧ MergedStarted .second tr s ∧
    Runs (dalloc 65424) s.heap fun p h' =>
      (p = NULL ↔ ∀ a, ¬ s.Gap .second a (a + HEAD + (65424 + 7) / 8 * 8)) ∧ (p = NULL → h' = s.heap) := by
  obtain ⟨tr, s, htr, hst, hlive⟩ := exists_mergedStarted .second (fun _ => 0 : Bytes) mergedCalls
    (fun s => decide (s.live = [69528])) (by decide +kernel)
  refine ⟨tr, s, htr, of_decide_eq_true hlive, hst, merged_fails_iff hst (fun t n hm => ?_) _ ?_ ?_⟩
  · have hn := mergedCalls_requests htr hm
    omega
  · decide
  · decide

/-- **No call changes a payload** that the program holds before and after it. -/
theorem merged_frame (hst : MergedStarted m tr s)
    (hreq : ∀ t n, (t, .dalloc n) ∈ tr → 16 ≤ n ∧ n ≤ 2 ^ 30) (hs : MergedStep s c s') (hc : c ≠ .write) :
    ∀ q ∈ s.live, q ∈ s'.live → SamePayload s.heap s'.heap q := by
  obtain ⟨A, hk⟩ := hst.merged le_rfl hreq
  cases hs with
  | same hnot hs =>
    cases hs with
    | dalloc hn hrun => exact fun q hq _ => (hk.dalloc _).of_eq hrun q hq
    | dfree => exact absurd rfl (hnot _)
    | write => exact absurd rfl hc
  | @dfree p h hp hrun =>
    intro q hq hq'
    by_cases hlive : p ∈ s.live
    · have hqp := (hk.holds.nodup.mem_erase_iff.mp hq').1
      exact ((hk.dfree hlive).of_eq hrun).2 q hq hqp
    · obtain rfl := hp.resolve_right hlive
      obtain rfl := dfreeMerged_null.of_eq hrun
      exact ⟨rfl, fun _ _ _ => rfl⟩

/-- A request cuts its block from the joined one. -/
theorem merged_frame_five : ∃ (tr : List (Session Bytes × Call)) (s s' : Session Bytes),
    tr.map Prod.snd = mergedCalls ∧ s.live = [69528] ∧ MergedStarted .second tr s ∧ MergedStep s (.dalloc 24) s' ∧
    ∀ q ∈ s.live, q ∈ s'.live → SamePayload s.heap s'.heap q := by
  obtain ⟨tr, s, htr, hst, hs⟩ := exists_mergedStarted .second (fun _ => 0 : Bytes) mergedCalls
    (fun s => decide (s.live = [69528]) && (mergedNext s (.dalloc 24)).isSome) (by decide +kernel)
  obtain ⟨hlive, hs⟩ := Bool.and_eq_true_iff.mp hs
  obtain ⟨s', hs⟩ := Option.isSome_iff_exists.mp hs
  have hs := mergedNext_step _ _ _ hs
  refine ⟨tr, s, s', htr, of_decide_eq_true hlive, hst, hs, merged_frame hst (fun t n hm => ?_) hs (by simp)⟩
  have hn := mergedCalls_requests htr hm
  omega

/-- **Capacity**: a program that asks for at most `R` bytes at a time is served as long as it holds few blocks. -/
theorem merged_capacity (hst : MergedStarted m tr s) (hreq : ∀ t n, (t, .dalloc n) ∈ tr → 16 ≤ n ∧ n ≤ R)
    (hfew : (2 * s.live.length + 1) * (R + 39) < ARENA - HEAD) (n : ℕ) (h16 : 16 ≤ n) (hn : n ≤ R) :
    Runs (dalloc n) s.heap fun p _ => p ≠ NULL := by
  have hR : R ≤ 2 ^ 30 := by
    have hle := Nat.le_mul_of_pos_left (R + 39) (n := 2 * s.live.length + 1) (by omega)
    simp only [ARENA, HEAD] at hfew
    omega
  obtain ⟨A, hk⟩ := hst.merged hR hreq
  refine Runs.imp ?_ (dalloc_spec hk.holds.rep (by omega : n ≠ 0))
  rintro p h' ⟨A', C, ht, -, -, -⟩
  rw [adjust_regular h16 (by omega)] at ht
  obtain ⟨b, hb, hsize⟩ := hk.exists_large hfew (r := (n + 7) / 8 * 8) (by omega)
  intro hp
  exact absurd (ht.null_iff.mp hp b hb) (by omega)

/-- One block in use. -/
theorem merged_capacity_five : ∃ (tr : List (Session Bytes × Call)) (s : Session Bytes),
    tr.map Prod.snd = mergedCalls ∧ MergedStarted .second tr s ∧ Runs (dalloc 40) s.heap fun p _ => p ≠ NULL := by
  obtain ⟨tr, s, htr, hst, hlive⟩ := exists_mergedStarted .second (fun _ => 0 : Bytes) mergedCalls
    (fun s => decide (s.live.length = 1)) (by decide +kernel)
  refine ⟨tr, s, htr, hst, merged_capacity (R := 40) hst (fun t n hm => ?_) ?_ 40 ?_ ?_⟩
  · exact mergedCalls_requests htr hm
  · rw [of_decide_eq_true hlive]
    decide
  · decide
  · decide

end Run

end Seminars.Dlmalloc
