import Seminars.Dlmalloc.NullSafe

/-!
# Seminars.Dlmalloc.Bench — `seminar2/bench.c`

The loop of `bench`: a buffer of 100 pointers, each iteration frees one of them or fills it, and reports the free list.
Files and what is printed are left out; `qsort` and the loop of `fprintf` touch the first `length` entries of
`frequency`.  Which buffer and which size an iteration takes is given (`rand()`).

* `turn_spec`, `iteration_spec`: an iteration is a step on layouts, or ends at the write through `NULL`.
* `Turned`: what a round does; a free block more is paid for by a buffer that is given up.
* `Spread`, `exists_batch`: requests that grow never fit what was freed, so that all blocks end up in the free list.
* `report_iff`: the number of rounds for which the reports stay inside `frequency`.
-/

namespace Seminars.Dlmalloc

open Lib BlockMem

abbrev BUFFER : ℕ := 100
abbrev SIZES : ℕ := 1000

/-- `*memory = 123`, an `int` -/
def poke (memory : ℕ) : M Bytes Unit := fun h =>
  if memory = NULL then .error .null
  else
    match h.mapped with
    | none => .error .outside
    | some base =>
      if base ≤ memory ∧ memory + 4 ≤ base + ARENA then .ok ((), { h with mem := storeLE h.mem memory 4 123 })
      else .error .outside

/-- The first half of the loop body: the buffer `index` is freed, or filled with `size` bytes. -/
def turn (index : Fin BUFFER) (size : ℕ) (buffer : Fin BUFFER → ℕ) : M Bytes (Fin BUFFER → ℕ) := do
  if buffer index ≠ NULL then
    dfree (buffer index)
    return Function.update buffer index NULL
  else
    let memory ← dalloc size
    poke memory
    return Function.update buffer index memory

/-- The loop body: the buffer, what `sizes` wrote to `frequency`, and `length`. -/
def iteration (index : Fin BUFFER) (size : ℕ) (buffer : Fin BUFFER → ℕ) :
    M Bytes ((Fin BUFFER → ℕ) × List ℕ × ℕ) := do
  let buffer ← turn index size buffer
  let frequency ← sizes SIZES
  let length ← freelistlength
  return (buffer, frequency, length)

/-- The heap and the buffer between two iterations. -/
structure Bench where
  heap : Heap Bytes
  buffer : Fin BUFFER → ℕ

/-- What an iteration draws and reports. -/
structure Event where
  index : Fin BUFFER
  size : ℕ
  frequency : List ℕ
  length : ℕ

/-- An iteration, with a size that bench requests. -/
def Round (s : Bench) (e : Event) (s' : Bench) : Prop :=
  16 ≤ e.size ∧ e.size ≤ 128 ∧
    (iteration e.index e.size s.buffer).run s.heap = .ok ((s'.buffer, e.frequency, e.length), s'.heap)

/-- `init()` succeeded with the mapping `m`, the buffer was cleared, then the loop did `tr`. -/
def Benched (m : Mapping) (tr : List (Bench × Event)) (s : Bench) : Prop :=
  ∃ mem h₀, (init (some m)).run (Heap.start mem) = .ok ((), h₀) ∧ Path Round ⟨h₀, fun _ => NULL⟩ tr s

/-- What the report touches lies inside `frequency` and was written by `sizes`. -/
def Event.InBounds (e : Event) : Prop := ∀ i < e.length, i < SIZES ∧ i < e.frequency.length

/-! ### The length of the free list -/

section Length

variable {base room : ℕ} {A A' : Layout base room} {r p : ℕ} {C : Set (ℕ × Field)}

/-- First fit takes a block from the list, and puts back what it does not need. -/
theorem Took.flist_length_le (ht : Took A r p A' C) : A'.flist.length ≤ A.flist.length := by
  cases ht with
  | none h => exact le_rfl
  | carve hb hf h1 hr hroom =>
    rw [hf]
    simp [Layout.carve, Nat.add_assoc]
  | claim hb hf h1 hr hr' =>
    rw [hf]
    simp [Layout.claim]

theorem Move.flist_length_dfree (hmv : Move A (.dfree p) A') (hp : p ≠ NULL) :
    A'.flist.length = A.flist.length + 1 := by
  cases hmv with
  | dfree_null => exact absurd rfl hp
  | dfree hb hbt hr => rfl

end Length

/-! ### An iteration on layouts -/

section Iteration

variable {m : Mapping} {A A' : Layout m.base (room Bytes)} {h h' : Heap Bytes} {buffer : Fin BUFFER → ℕ}
  {live : List ℕ} {i : Fin BUFFER} {n p : ℕ}

/-- The heap holds a layout, and the pointers in the buffer are those of its taken blocks. -/
structure Kept (m : Mapping) (h : Heap Bytes) (buffer : Fin BUFFER → ℕ) (A : Layout m.base (room Bytes))
    (live : List ℕ) : Prop where
  holds : Holds m ⟨h, live⟩ A
  regular : Regular A
  live : ∀ p, p ∈ live ↔ p ≠ NULL ∧ ∃ i, buffer i = p
  inj : ∀ i j, buffer i = buffer j → buffer i ≠ NULL → i = j

/-- What an iteration asks of the allocator. -/
def asked (buffer : Fin BUFFER → ℕ) (i : Fin BUFFER) (n : ℕ) : Call :=
  if buffer i ≠ NULL then .dfree (buffer i) else .dalloc n

theorem Kept.clear (hk : Kept m h buffer A live) (hi : buffer i ≠ NULL)
    (hh : Holds m ⟨h', live.erase (buffer i)⟩ A') (hreg : Regular A') :
    Kept m h' (Function.update buffer i NULL) A' (live.erase (buffer i)) := by
  refine ⟨hh, hreg, fun p => ?_, fun j k hjk hj => ?_⟩
  · rw [hk.holds.nodup.mem_erase_iff, hk.live]
    constructor
    · rintro ⟨hne, hp, j, rfl⟩
      refine ⟨hp, j, Function.update_of_ne (fun e => hne (congrArg buffer e)) _ _⟩
    · rintro ⟨hp, j, hj⟩
      have hji : j ≠ i := by
        rintro rfl
        rw [Function.update_self] at hj
        exact hp hj.symm
      rw [Function.update_of_ne hji] at hj
      subst hj
      exact ⟨fun e => hji (hk.inj j i e hp), hp, j, rfl⟩
  · have hne : ∀ l, Function.update buffer i NULL l ≠ NULL → l ≠ i := by
      rintro l hl rfl
      exact hl (Function.update_self ..)
    have hji := hne j hj
    have hki := hne k (hjk ▸ hj)
    rw [Function.update_of_ne hji] at hjk hj
    rw [Function.update_of_ne hki] at hjk
    exact hk.inj j k hjk hj

theorem Kept.fill (hk : Kept m h buffer A live) (hi : buffer i = NULL) (hp : p ≠ NULL) (hnew : p ∉ live)
    (hh : Holds m ⟨h', p :: live⟩ A') (hreg : Regular A') :
    Kept m h' (Function.update buffer i p) A' (p :: live) := by
  have hnot : ∀ j, buffer j ≠ p := fun j hj => hnew ((hk.live p).mpr ⟨hp, j, hj⟩)
  refine ⟨hh, hreg, fun q => ?_, fun j k hjk hj => ?_⟩
  · rw [List.mem_cons, hk.live]
    constructor
    · rintro (rfl | ⟨hq, j, rfl⟩)
      · exact ⟨hp, i, Function.update_self ..⟩
      · refine ⟨hq, j, Function.update_of_ne (fun e => hq ((congrArg buffer e).trans hi)) _ _⟩
    · rintro ⟨hq, j, rfl⟩
      by_cases hji : j = i
      · subst hji
        exact .inl (Function.update_self ..)
      · rw [Function.update_of_ne hji] at hq ⊢
        exact .inr ⟨hq, j, rfl⟩
  · by_cases hji : j = i <;> by_cases hki : k = i
    · rw [hji, hki]
    · rw [hji, Function.update_self, Function.update_of_ne hki] at hjk
      exact absurd hjk.symm (hnot k)
    · rw [hki, Function.update_self, Function.update_of_ne hji] at hjk
      exact absurd hjk (hnot j)
    · rw [Function.update_of_ne hji] at hjk hj
      rw [Function.update_of_ne hki] at hjk
      exact hk.inj j k hjk hj

/-- The write into a block that was just handed out. -/
theorem poke_spec (hh : Holds m ⟨h, live⟩ A) (hreg : Regular A) (hp : p ∈ live) :
    Runs (poke p) h (fun _ h' => Holds m ⟨h', live⟩ A) := by
  obtain ⟨b, pre, post, hb, hbt, rfl, hsz⟩ := hh.block hp
  have hbA : b ∈ A.blocks := by rw [hb]; simp
  have h16 := (hreg b hbA).2
  have hin := A.tiled.mem hbA
  simp only [Blk.fin, HEAD, ARENA] at hin
  have hrun : (poke (b.addr + HEAD)).run h = .ok ((), { h with mem := storeLE h.mem (b.addr + HEAD) 4 123 }) := by
    have hm : h.mapped = some m.base := hh.rep.mapped
    unfold poke
    simp only [StateT.run, hm]
    exact (if_neg (Nat.succ_ne_zero _)).trans (if_pos (by simp only [HEAD, ARENA]; omega))
  have hst : Step (⟨h, live⟩ : Session Bytes) .write ⟨{ h with mem := storeLE h.mem (b.addr + HEAD) 4 123 }, live⟩ := by
    refine .write fun x hx => storeLE_out ?_
    by_contra hin'
    refine hx ⟨b.addr + HEAD, hp, ?_⟩
    rw [hsz]
    have haddr : addr Bytes x = x := rfl
    rw [haddr]
    simp only [HEAD] at hin' ⊢
    omega
  obtain ⟨A', hmv, hh'⟩ := step_holds hh hst (roomy_of_ne fun p => by simp)
  cases hmv
  exact ⟨(), _, hrun, hh'⟩

/-- **A round on layouts**: one call of the allocator.  The buffer `i` changes from empty to filled or back; a free
block more is paid for by a block that the program gives up. -/
structure Turned (A : Layout m.base (room Bytes)) (buffer : Fin BUFFER → ℕ) (live : List ℕ) (i : Fin BUFFER) (n : ℕ)
    (A' : Layout m.base (room Bytes)) (buffer' : Fin BUFFER → ℕ) (live' : List ℕ) : Prop where
  move : Move A (asked buffer i n) A'
  buffer : ∀ j, buffer' j = NULL ↔ if j = i then buffer i ≠ NULL else buffer j = NULL
  credit : 2 * A'.flist.length + live'.length ≤ 2 * A.flist.length + live.length + 1

/-- An empty buffer is filled, when there is a block for the request. -/
theorem turn_fill (hk : Kept m h buffer A live) (h16 : 16 ≤ n) (hn : n ≤ 128) (hi : buffer i = NULL) :
    Ends (turn i n buffer) h
      (fun buffer' h' => ∃ A' live', Turned A buffer live i n A' buffer' live' ∧ Kept m h' buffer' A' live')
      (fun _ => buffer i = NULL ∧ ∀ c ∈ A.flist, c.size < (n + 7) / 8 * 8) := by
  have hn0 : n ≠ 0 := by omega
  have hask : asked buffer i n = .dalloc n := if_neg (not_not.mpr hi)
  have hturn : turn i n buffer = dalloc n >>= fun memory => poke memory >>= fun _ =>
      pure (Function.update buffer i memory) := if_neg (not_not.mpr hi)
  obtain ⟨p, h', hrun, A', C, ht, hR, -, -⟩ := dalloc_spec hk.holds.rep hn0
  have hh' := hk.holds.hold ht hR
  have hmv : Move A (.dalloc n) A' := .dalloc hn0 ht
  have hreg' : Regular A' := hmv.regular hk.regular fun k hk => by
    obtain rfl := Call.dalloc.inj hk
    omega
  rw [hturn, ends_bind]
  refine ends_of_ok hrun ?_
  by_cases hp : p = NULL
  · rw [adjust_regular h16 (by omega)] at ht
    exact ends_of_error (run_bind_error (if_pos hp)) ⟨hi, ht.null_iff.mp hp⟩
  · have hhold : hold p live = p :: live := if_neg hp
    rw [hhold] at hh'
    obtain ⟨_, h'', hpoke, hh''⟩ := poke_spec hh' hreg' (List.mem_cons_self ..)
    have hnew : p ∉ live := fun hm => (ht.taken hp).1 ((hk.holds.live p).mp hm)
    have hlen := ht.flist_length_le
    refine ends_bind.mpr (ends_of_ok hpoke
      ⟨A', p :: live, ⟨hask ▸ hmv, fun j => ?_, ?_⟩, hk.fill hi hp hnew hh'' hreg'⟩)
    · by_cases hj : j = i
      · subst hj
        rw [Function.update_self, if_pos rfl]
        exact ⟨fun e => absurd e hp, fun e => absurd hi e⟩
      · rw [Function.update_of_ne hj, if_neg hj]
    · rw [List.length_cons]
      omega

theorem turn_clear (hk : Kept m h buffer A live) (hi : buffer i ≠ NULL) :
    Runs (turn i n buffer) h fun buffer' h' =>
      ∃ A' live', Turned A buffer live i n A' buffer' live' ∧ Kept m h' buffer' A' live' := by
  have hask : asked buffer i n = .dfree (buffer i) := if_pos hi
  have hturn : turn i n buffer = dfree (buffer i) >>= fun _ => pure (Function.update buffer i NULL) := if_pos hi
  have hlive : buffer i ∈ live := (hk.live _).mpr ⟨hi, i, rfl⟩
  have hroom : Roomy (⟨h, live⟩ : Session Bytes) (.dfree (buffer i)) := hk.holds.roomy hk.regular (.inr hlive)
  obtain ⟨s', hst⟩ := can_step hk.holds hroom (.inr ⟨_, rfl, .inr hlive⟩)
  obtain ⟨A', hmv, hh'⟩ := step_holds hk.holds hst hroom
  have hreg' : Regular A' := hmv.regular hk.regular fun k hk => by simp at hk
  cases hst with
  | dfree hp hrun =>
    have hlen : A'.flist.length = A.flist.length + 1 := hmv.flist_length_dfree hi
    have herase := List.length_erase_of_mem hlive
    have hpos := List.length_pos_of_mem hlive
    rw [hturn]
    refine runs_bind ⟨_, _, hrun, runs_pure
      ⟨A', live.erase (buffer i), ⟨hask ▸ hmv, fun j => ?_, ?_⟩, hk.clear hi hh' hreg'⟩⟩
    · by_cases hj : j = i
      · subst hj
        rw [Function.update_self, if_pos rfl]
        exact ⟨fun _ => hi, fun _ => rfl⟩
      · rw [Function.update_of_ne hj, if_neg hj]
    · rw [hlen, herase]
      omega

/-- **The first half of an iteration** faults only when there is no block for the request. -/
theorem turn_spec (hk : Kept m h buffer A live) (h16 : 16 ≤ n) (hn : n ≤ 128) :
    Ends (turn i n buffer) h
      (fun buffer' h' => ∃ A' live', Turned A buffer live i n A' buffer' live' ∧ Kept m h' buffer' A' live')
      (fun _ => buffer i = NULL ∧ ∀ c ∈ A.flist, c.size < (n + 7) / 8 * 8) := by
  by_cases hi : buffer i = NULL
  · exact turn_fill hk h16 hn hi
  · exact (turn_clear hk hi).ends fun _ _ => id

/-- **An iteration**: the first half, then the report. -/
theorem iteration_spec (hk : Kept m h buffer A live) (h16 : 16 ≤ n) (hn : n ≤ 128) :
    Ends (iteration i n buffer) h
      (fun r h' => ∃ A' live', Turned A buffer live i n A' r.1 live' ∧ Kept m h' r.1 A' live' ∧
        r.2 = ((A'.flist.map Blk.size).take SIZES, A'.flist.length))
      (fun _ => buffer i = NULL ∧ ∀ c ∈ A.flist, c.size < (n + 7) / 8 * 8) := by
  refine ends_bind.mpr ((turn_spec hk h16 hn).imp ?_ fun _ he => he)
  rintro buffer' h' ⟨A', live', hturn, hk'⟩
  obtain ⟨_, _, hsizes, rfl, rfl⟩ := sizes_spec hk'.holds.rep SIZES
  obtain ⟨_, _, hlength, rfl, rfl⟩ := length_spec hk'.holds.rep
  refine ends_bind.mpr (ends_of_ok hsizes (ends_bind.mpr (ends_of_ok hlength ?_)))
  exact ⟨A', live', hturn, hk', rfl⟩

namespace Turned

variable {buffer' : Fin BUFFER → ℕ} {live' : List ℕ}

theorem flist_length_free (ht : Turned A buffer live i n A' buffer' live') (hi : buffer i ≠ NULL) :
    A'.flist.length = A.flist.length + 1 := by
  have hmv := ht.move
  rw [asked, if_pos hi] at hmv
  exact hmv.flist_length_dfree hi

theorem flist_length_fill (ht : Turned A buffer live i n A' buffer' live') (hi : buffer i = NULL) :
    A'.flist.length ≤ A.flist.length := by
  have hmv := ht.move
  rw [asked, if_neg (not_not.mpr hi)] at hmv
  cases hmv with
  | dalloc_zero => exact le_rfl
  | dalloc _ ht => exact ht.flist_length_le

end Turned

end Iteration

/-! ### Every run -/

section Run

variable {m : Mapping} {A : Layout m.base (room Bytes)} {s s' : Bench} {e : Event} {tr : List (Bench × Event)}
  {live : List ℕ}

/-- **The step lemma.** -/
theorem Round.kept (hr : Round s e s') (hk : Kept m s.heap s.buffer A live) :
    ∃ A' live', Turned A s.buffer live e.index e.size A' s'.buffer live' ∧ Kept m s'.heap s'.buffer A' live' ∧
      (e.frequency, e.length) = ((A'.flist.map Blk.size).take SIZES, A'.flist.length) :=
  (iteration_spec hk hr.1 hr.2.1).of_eq hr.2.2

/-- The report stays inside `frequency` when the free list has at most `SIZES` blocks. -/
theorem Event.inBounds_iff (he : (e.frequency, e.length) = ((A.flist.map Blk.size).take SIZES, A.flist.length)) :
    e.InBounds ↔ A.flist.length ≤ SIZES := by
  obtain ⟨hf, hl⟩ := Prod.mk.inj he
  rw [Event.InBounds, hf, hl]
  constructor
  · intro h
    by_contra hlt
    have := (h SIZES (by omega)).1
    omega
  · intro hle i hi
    rw [List.length_take, List.length_map]
    omega

theorem kept_start {mem : Bytes} {h₀ : Heap Bytes} (hi : (init (some m)).run (Heap.start mem) = .ok ((), h₀)) :
    Kept m h₀ (fun _ => NULL) (Layout.fresh m.base (room Bytes) room_le) [] := by
  refine ⟨⟨(init_spec m mem).of_eq hi, fun p => ?_, List.nodup_nil⟩, regular_fresh, fun p => ?_, fun _ _ _ hn => ?_⟩
  · simp [Layout.Taken, Layout.fresh]
  · simp only [List.not_mem_nil, false_iff]
    rintro ⟨hp, -, hi⟩
    exact hp hi.symm
  · exact absurd rfl hn

/-- **The run lemma**: two rounds for a free block. -/
theorem Benched.kept (hb : Benched m tr s) :
    ∃ A live, Kept m s.heap s.buffer A live ∧ 2 * A.flist.length + live.length ≤ 2 + tr.length := by
  obtain ⟨mem, h₀, hi, hp⟩ := hb
  induction hp with
  | nil => exact ⟨_, [], kept_start hi, by simp [Layout.fresh]⟩
  | snoc _ hr ih =>
    obtain ⟨A, live, hk, hle⟩ := ih
    obtain ⟨A', live', ht, hk', -⟩ := hr.kept hk
    have hcredit := ht.credit
    refine ⟨A', live', hk', ?_⟩
    rw [List.length_append, List.length_singleton]
    omega

theorem Benched.cut (hb : Benched m tr s) (hm : (s', e) ∈ tr) :
    ∃ tr₁ t tr₂, tr = tr₁ ++ (s', e) :: tr₂ ∧ Benched m tr₁ s' ∧ Round s' e t := by
  obtain ⟨mem, h₀, hi, hp⟩ := hb
  obtain ⟨tr₁, t, tr₂, htr, h1, hr, -⟩ := hp.cut hm
  exact ⟨tr₁, t, tr₂, htr, ⟨mem, h₀, hi, h1⟩, hr⟩

theorem Benched.in_bounds (hb : Benched m tr s) (hlen : tr.length < 2000) (x : Bench × Event) (hx : x ∈ tr) :
    x.2.InBounds := by
  obtain ⟨t, e⟩ := x
  obtain ⟨tr₁, t', tr₂, rfl, hb₁, hr⟩ := hb.cut hx
  obtain ⟨A, live, hk, hle⟩ := hb₁.kept
  obtain ⟨A', live', ht, -, he⟩ := hr.kept hk
  have hcredit := ht.credit
  rw [List.length_append, List.length_cons] at hlen
  refine (Event.inBounds_iff he).mpr (show _ ≤ 1000 from ?_)
  omega

/-- The free list grows past `SIZES` blocks in the round that frees a buffer while there are `SIZES` already. -/
theorem Benched.in_bounds_iff (hb : Benched m tr s) : (∀ x ∈ tr, x.2.InBounds) ↔
    ∀ x ∈ tr, x.1.buffer x.2.index ≠ NULL → ∀ fl, FreeList x.1.heap fl → fl.length < SIZES := by
  constructor
  · rintro hall ⟨t, e⟩ hx hi fl hfl
    obtain ⟨tr₁, t', tr₂, rfl, hb₁, hr⟩ := hb.cut hx
    obtain ⟨A, live, hk, -⟩ := hb₁.kept
    obtain ⟨A', live', ht, -, he⟩ := hr.kept hk
    have hle := (Event.inBounds_iff he).mp (hall _ hx)
    rw [ht.flist_length_free hi] at hle
    rw [hfl.unique hk.holds.rep.freeList, List.length_map]
    omega
  · intro hcond
    have hstep : ∀ t e t', (t, e) ∈ tr → Round t e t' →
        (∃ A live, Kept m t.heap t.buffer A live ∧ A.flist.length ≤ SIZES) →
        (∃ A live, Kept m t'.heap t'.buffer A live ∧ A.flist.length ≤ SIZES) ∧ e.InBounds := by
      rintro t e t' hm hr ⟨A, live, hk, hle⟩
      obtain ⟨A', live', ht, hk', he⟩ := hr.kept hk
      have hle' : A'.flist.length ≤ SIZES := by
        by_cases hi : t.buffer e.index = NULL
        · exact (ht.flist_length_fill hi).trans hle
        · have hlt := hcond (t, e) hm hi _ hk.holds.rep.freeList
          rw [List.length_map] at hlt
          rw [ht.flist_length_free hi]
          omega
      exact ⟨⟨A', live', hk', hle'⟩, (Event.inBounds_iff he).mpr hle'⟩
    rintro ⟨t, e⟩ hx
    obtain ⟨mem, h₀, hi, hp⟩ := hb
    obtain ⟨tr₁, t', tr₂, rfl, h1, hr, -⟩ := hp.cut hx
    have hfirst : ∃ A live, Kept m h₀ (fun _ => NULL) A live ∧ A.flist.length ≤ SIZES :=
      ⟨_, [], kept_start hi, by simp [Layout.fresh]⟩
    have hbefore := h1.invariant hfirst fun u a u' hm hI hu =>
      (hstep u a u' (List.mem_append_left _ hm) hu hI).1
    exact (hstep t e t' hx hr hbefore).2

end Run

/-! ### A long run -/

section Long

variable {m : Mapping} {A A' : Layout m.base (room Bytes)} {s : Bench} {full full' : Fin BUFFER → Prop}
  {i : Fin BUFFER} {r t q n p k : ℕ} {C : Set (ℕ × Field)}

/-- One free block has `q` bytes or more, the other free blocks have fewer than `t`, the taken blocks at most `r`. -/
structure Spread (A : Layout m.base (room Bytes)) (r t q : ℕ) : Prop where
  free : ∃ g ∈ A.flist, q ≤ g.size ∧ ∀ c ∈ A.flist, c ≠ g → c.size < t
  taken : ∀ c ∈ A.blocks, c.free = false → c.size ≤ r

/-- A request that none of the small blocks fits is cut from the large one. -/
theorem Spread.took (hs : Spread A r r (q + (r + HEAD))) (hq : 16 ≤ q) (ht : Took A r p A' C) :
    p ≠ NULL ∧ Spread A' r r q ∧ A'.flist.length = A.flist.length := by
  obtain ⟨g, hg, hgq, hsmall⟩ := hs.free
  have heq : ∀ c ∈ A.flist, r ≤ c.size → c = g := by
    intro c hc hr
    by_contra hne
    exact absurd (hsmall c hc hne) (not_lt.mpr hr)
  cases ht with
  | none hno =>
    have := hno g hg
    omega
  | @carve pre post l₁ l₂ b hb hf h1 hr hroom =>
    have hbF : b ∈ A.flist := by rw [hf]; simp
    obtain rfl := heq b hbF (by omega)
    refine ⟨Nat.succ_ne_zero _, ⟨⟨Layout.rest b r, List.mem_cons_self .., ?_, fun c hc hne => ?_⟩, ?_⟩, ?_⟩
    · simp only [Layout.rest]
      omega
    · have hc' : c ∈ l₁ ++ l₂ := (List.mem_cons.mp hc).resolve_left hne
      refine hsmall c (Layout.others_subset hf hc') ?_
      rintro rfl
      exact (List.nodup_cons.mp (List.nodup_middle.mp (hf ▸ A.nodup))).1 hc'
    · intro c hc hcf
      simp only [Layout.carve, List.mem_append, List.mem_cons] at hc
      rcases hc with hc | rfl | rfl | hc
      · exact hs.taken c (by rw [hb]; simp [hc]) hcf
      · exact absurd hcf (by simp [Layout.rest])
      · exact le_rfl
      · exact hs.taken c (by rw [hb]; simp [hc]) hcf
    · rw [hf]
      simp [Layout.carve, Nat.add_assoc]
  | @claim pre post l₁ l₂ b hb hf h1 hr hr' =>
    have hbF : b ∈ A.flist := by rw [hf]; simp
    obtain rfl := heq b hbF hr
    simp only [HEAD] at hgq hr'
    omega

theorem Spread.release (hs : Spread A r t q) (hrt : r < t) (hmv : Move A (.dfree p) A') : Spread A' r t q := by
  obtain ⟨g, hg, hgq, hsmall⟩ := hs.free
  cases hmv with
  | dfree_null => exact hs
  | @dfree pre post b hb hbt hr =>
    have hbr := hs.taken b (by rw [hb]; simp) hbt
    refine ⟨⟨g, List.mem_cons_of_mem _ hg, hgq, fun c hc hne => ?_⟩, fun c hc hcf => ?_⟩
    · rcases List.mem_cons.mp hc with rfl | hc
      · exact lt_of_le_of_lt hbr hrt
      · exact hsmall c hc hne
    · simp only [Layout.release, List.mem_append, List.mem_cons] at hc
      rcases hc with hc | rfl | hc
      · exact hs.taken c (by rw [hb]; simp [hc]) hcf
      · exact absurd hcf (by simp)
      · exact hs.taken c (by rw [hb]; simp [hc]) hcf

/-- The buffers `full` are filled, there are `n` free blocks. -/
def Stage (m : Mapping) (s : Bench) (full : Fin BUFFER → Prop) (r t q n : ℕ) : Prop :=
  ∃ A live, Kept m s.heap s.buffer A live ∧ Spread A r t q ∧ A.flist.length = n ∧ ∀ j, s.buffer j = NULL ↔ ¬ full j

theorem Stage.imp {r' t' q' : ℕ} (h : Stage m s full r t q n) (hf : ∀ j, full j ↔ full' j) (hr : r ≤ r') (ht : t ≤ t')
    (hq : q' ≤ q) : Stage m s full' r' t' q' n := by
  obtain ⟨A, live, hk, ⟨⟨g, hg, hgq, hsmall⟩, htaken⟩, hn, hfull⟩ := h
  refine ⟨A, live, hk, ⟨⟨g, hg, hq.trans hgq, fun c hc hne => ?_⟩, fun c hc hcf => ?_⟩, hn, fun j => ?_⟩
  · exact lt_of_lt_of_le (hsmall c hc hne) ht
  · exact (htaken c hc hcf).trans hr
  · rw [hfull, hf]

theorem Stage.fill (h : Stage m s full r r (q + (r + HEAD)) n) (hi : ¬ full i) (hq : 16 ≤ q) (h16 : 16 ≤ r)
    (hr : r ≤ 128) (h8 : r % 8 = 0) :
    ∃ e s', Round s e s' ∧ Stage m s' (fun j => j = i ∨ full j) r r q n := by
  obtain ⟨A, live, hk, hs, hn, hfull⟩ := h
  have hnull : s.buffer i = NULL := (hfull i).mpr hi
  have hround : (r + 7) / 8 * 8 = r := by omega
  obtain ⟨⟨buffer', frequency, length⟩, h', hrun, A', live', ht, hk', -⟩ :=
    (iteration_spec (i := i) hk h16 hr).runs fun _ hno => by
      obtain ⟨g, hg, hgq, -⟩ := hs.free
      have := hno.2 g hg
      omega
  refine ⟨⟨i, r, frequency, length⟩, ⟨h', buffer'⟩, ⟨h16, hr, hrun⟩, A', live', hk', ?_⟩
  have hmv := ht.move
  rw [asked, if_neg (not_not.mpr hnull)] at hmv
  have hbuf : ∀ j, buffer' j = NULL ↔ ¬ (j = i ∨ full j) := by
    intro j
    rw [ht.buffer j]
    split_ifs with hj
    · simp [hj, hnull]
    · simp [hj, hfull]
  cases hmv with
  | dalloc_zero => omega
  | dalloc _ htook =>
    rw [adjust_regular h16 (by omega), hround] at htook
    obtain ⟨-, hs', hlen⟩ := hs.took hq htook
    exact ⟨hs', hlen.trans hn, hbuf⟩

theorem Stage.free (h : Stage m s full r t q n) (hi : full i) (hrt : r < t) :
    ∃ e s', Round s e s' ∧ Stage m s' (fun j => j ≠ i ∧ full j) r t q (n + 1) := by
  obtain ⟨A, live, hk, hs, hn, hfull⟩ := h
  have hnull : s.buffer i ≠ NULL := fun e => (hfull i).mp e hi
  obtain ⟨⟨buffer', frequency, length⟩, h', hrun, A', live', ht, hk', -⟩ :=
    (iteration_spec (i := i) hk le_rfl (by decide : 16 ≤ 128)).runs fun _ hno => hnull hno.1
  refine ⟨⟨i, 16, frequency, length⟩, ⟨h', buffer'⟩, ⟨le_rfl, (by decide : 16 ≤ 128), hrun⟩, A', live', hk', ?_⟩
  have hmv := ht.move
  rw [asked, if_pos hnull] at hmv
  refine ⟨hs.release hrt hmv, (ht.flist_length_free hnull).trans (congrArg (· + 1) hn), fun j => ?_⟩
  rw [ht.buffer j]
  split_ifs with hj
  · simp [hj, hnull]
  · simp [hj, hfull]

theorem Stage.fill_all (hk : k ≤ BUFFER) (h : Stage m s (fun _ => False) r r (q + k * (r + HEAD)) n) (hq : 16 ≤ q)
    (h16 : 16 ≤ r) (hr : r ≤ 128) (h8 : r % 8 = 0) :
    ∃ tr s', Path Round s tr s' ∧ tr.length = k ∧ Stage m s' (fun j => j.val < k) r r q n := by
  induction k generalizing q with
  | zero => exact ⟨[], s, .nil, rfl, h.imp (by simp) le_rfl le_rfl (by simp)⟩
  | succ k ih =>
    rw [Nat.succ_mul, Nat.add_comm (k * _), ← Nat.add_assoc] at h
    obtain ⟨tr, t, hp, hlen, ht⟩ := ih (by omega) h (by omega)
    obtain ⟨e, s', hround, hs'⟩ := ht.fill (i := ⟨k, hk⟩) (by simp) hq h16 hr h8
    refine ⟨tr ++ [(t, e)], s', hp.snoc hround, by simp [hlen], hs'.imp (fun j => ?_) le_rfl le_rfl le_rfl⟩
    simp only [Fin.ext_iff]
    omega

theorem Stage.free_all (hk : k ≤ BUFFER) (h : Stage m s (fun _ => True) r t q n) (hrt : r < t) :
    ∃ tr s', Path Round s tr s' ∧ tr.length = k ∧ Stage m s' (fun j => k ≤ j.val) r t q (n + k) := by
  induction k with
  | zero => exact ⟨[], s, .nil, rfl, h.imp (by simp) le_rfl le_rfl le_rfl⟩
  | succ k ih =>
    obtain ⟨tr, u, hp, hlen, hu⟩ := ih (by omega)
    obtain ⟨e, s', hround, hs'⟩ := hu.free (i := ⟨k, hk⟩) (by simp) hrt
    refine ⟨tr ++ [(u, e)], s', hp.snoc hround, by simp [hlen], hs'.imp (fun j => ?_) le_rfl le_rfl le_rfl⟩
    simp only [ne_eq, Fin.ext_iff]
    omega

/-- **A batch**: 200 rounds that leave 100 free blocks more, all of them too small for the next batch. -/
theorem exists_batch (h : Stage m s (fun _ => False) r r (q + BUFFER * (r + HEAD)) n) (hq : 16 ≤ q) (h16 : 16 ≤ r)
    (hr : r ≤ 128) (h8 : r % 8 = 0) :
    ∃ tr s', Path Round s tr s' ∧ tr.length = 200 ∧ Stage m s' (fun _ => False) (r + 8) (r + 8) q (n + BUFFER) := by
  obtain ⟨tr₁, t, hp₁, hlen₁, ht⟩ := h.fill_all le_rfl hq h16 hr h8
  have hfull : Stage m t (fun _ => True) r (r + 8) q n :=
    ht.imp (fun j => iff_true_intro j.isLt) le_rfl (Nat.le_add_right r 8) le_rfl
  obtain ⟨tr₂, s', hp₂, hlen₂, hs'⟩ := hfull.free_all le_rfl (Nat.lt_add_of_pos_right (by decide))
  refine ⟨tr₁ ++ tr₂, s', hp₁.append hp₂, ?_, ?_⟩
  · rw [List.length_append, hlen₁, hlen₂]
    rfl
  exact hs'.imp (fun j => iff_false_intro (not_le.mpr j.isLt)) (Nat.le_add_right r 8) le_rfl le_rfl

/-- The bytes that `k` batches take from the large block, the first for requests of `r` bytes. -/
def batchBytes : ℕ → ℕ → ℕ
  | 0, _ => 16
  | k + 1, r => batchBytes k (r + 8) + BUFFER * (r + HEAD)

theorem le_batchBytes (k r : ℕ) : 16 ≤ batchBytes k r := by
  induction k generalizing r with
  | zero => exact le_rfl
  | succ k ih => exact (ih (r + 8)).trans (Nat.le_add_right _ _)

theorem exists_batches (h : Stage m s (fun _ => False) r r (batchBytes k r) n) (h16 : 16 ≤ r)
    (hr : r + 8 * k ≤ 136) (h8 : r % 8 = 0) :
    ∃ tr s', Path Round s tr s' ∧ tr.length = 200 * k ∧
      Stage m s' (fun _ => False) (r + 8 * k) (r + 8 * k) 16 (n + BUFFER * k) := by
  induction k generalizing s r n with
  | zero => exact ⟨[], s, .nil, rfl, h⟩
  | succ k ih =>
    obtain ⟨tr₁, t, hp₁, hlen₁, ht⟩ := exists_batch h (le_batchBytes k (r + 8)) h16 (by omega) h8
    obtain ⟨tr₂, s', hp₂, hlen₂, hs'⟩ := ih ht (by omega) (by omega) (by omega)
    refine ⟨tr₁ ++ tr₂, s', hp₁.append hp₂, by rw [List.length_append, hlen₁, hlen₂]; ring, ?_⟩
    have hr' : r + 8 + 8 * k = r + 8 * (k + 1) := by ring
    have hn' : n + BUFFER + BUFFER * k = n + BUFFER * (k + 1) := by ring
    rwa [hr', hn'] at hs'

theorem stage_start {mem : Bytes} {h₀ : Heap Bytes} (hi : (init (some m)).run (Heap.start mem) = .ok ((), h₀)) :
    Stage m ⟨h₀, fun _ => NULL⟩ (fun _ => False) 16 16 (ARENA - 2 * HEAD) 1 := by
  refine ⟨_, [], kept_start hi, ⟨⟨_, List.mem_singleton_self _, le_rfl, fun c hc hne => ?_⟩, fun c hc hcf => ?_⟩, rfl,
    fun j => by simp⟩
  · exact absurd (List.mem_singleton.mp hc) hne
  · rw [List.mem_singleton.mp hc] at hcf
    exact absurd hcf (by simp)

/-- **2000 rounds after which the free list has 1001 blocks**: ten batches, for requests of 16, 24, .., 88 bytes. -/
theorem exists_overrun (m : Mapping) (mem : Bytes) :
    ∃ tr s, Benched m tr s ∧ tr.length = 2000 ∧ ∃ x ∈ tr, ¬ x.2.InBounds := by
  obtain ⟨_, h₀, hi, -⟩ := init_spec m mem
  have hroom : batchBytes 10 16 ≤ ARENA - 2 * HEAD := by decide
  obtain ⟨tr, s, hp, hlen, A, live, hk, -, hn, -⟩ :=
    exists_batches ((stage_start hi).imp (fun _ => Iff.rfl) le_rfl le_rfl hroom) le_rfl (by decide) (by decide)
  refine ⟨tr, s, ⟨mem, h₀, hi, hp⟩, hlen, ?_⟩
  -- the last round reported this free list
  cases hp with
  | nil => exact absurd hlen (by decide)
  | @snoc tr t _ e hp hr =>
    refine ⟨(t, e), by simp, fun hin => ?_⟩
    have hb : Benched m tr t := ⟨mem, h₀, hi, hp⟩
    obtain ⟨B, _, hkB, -⟩ := hb.kept
    obtain ⟨A', live', -, hk', he⟩ := hr.kept hkB
    have hle : A'.flist.length ≤ 1000 := (Event.inBounds_iff he).mp hin
    have hsame := congrArg List.length (hk'.holds.rep.freeList.unique hk.holds.rep.freeList)
    rw [List.length_map, List.length_map, hn] at hsame
    simp only [BUFFER] at hsame
    omega

end Long

/-- **When the reports of `bench` stay inside `frequency`**: in every run of fewer than 2000 rounds, and no longer.  In
a run of any length they do as long as no round frees a buffer while there are 1000 free blocks. -/
theorem report_iff (m : Mapping) :
    (∀ rounds, (∀ tr s, Benched m tr s → tr.length ≤ rounds → ∀ x ∈ tr, x.2.InBounds) ↔ rounds < 2000) ∧
    ∀ tr s, Benched m tr s → ((∀ x ∈ tr, x.2.InBounds) ↔
      ∀ x ∈ tr, x.1.buffer x.2.index ≠ NULL → ∀ fl, FreeList x.1.heap fl → fl.length < SIZES) := by
  refine ⟨fun rounds => ⟨fun hall => ?_, fun hlt tr s hb hlen => hb.in_bounds (by omega)⟩,
    fun tr s => Benched.in_bounds_iff⟩
  by_contra hge
  obtain ⟨tr, s, hb, hlen, x, hx, hout⟩ := exists_overrun m fun _ => 0
  exact hout (hall tr s hb (by omega) x hx)

/-- 2000 rounds are too many. -/
theorem report_overruns : ∃ tr s, Benched .second tr s ∧ tr.length = 2000 ∧ ∃ x ∈ tr, ¬ x.2.InBounds :=
  exists_overrun .second fun _ => 0

end Seminars.Dlmalloc
