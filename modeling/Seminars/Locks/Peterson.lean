import Mathlib.Tactic.FinCases
import Mathlib.Tactic.Linarith
import Seminars.Lib.CInt
import Seminars.Lib.Interleave

/-!
# Seminars.Locks.Peterson — `locks-assignment/peterson.c`

Two threads with ids 0 and 1 run `increment`.  Every load and store of `request[0]`, `request[1]`, `turn` and
`count` is one atomic step (sequential consistency); `count++` is a load and a store, and the spin condition
`request[other] == 1 && turn == other` is two loads.

* `Peterson.step` — one step of a thread, `Peterson.Holds` — what is true of one thread, `Peterson.First` — of two.
* `peterson_run` — **at most one thread is past `lock`, nothing is lost from `count`, and the two threads are never
  both kept in the loop**.
-/

namespace Seminars.Locks.Peterson

open Seminars.Lib

/-- The shared variables. -/
structure Memory where
  count : ℤ := 0
  request : Fin 2 → ℤ := fun _ => 0
  turn : ℤ := 0

/-- Where a thread is: each constructor is the access it makes next (`test`, `next` and `done` make none). -/
inductive Pc
  /-- `i < inc` -/
  | test
  /-- `request[id] = 1` -/
  | setRequest
  /-- `turn = other` -/
  | setTurn
  /-- `request[other] == 1` in the spin condition -/
  | loadRequest
  /-- `turn == other` in the spin condition -/
  | loadTurn
  /-- the load of `count++` -/
  | loadCount
  /-- the store of `count++` -/
  | storeCount
  /-- `request[id] = 0` -/
  | clearRequest
  /-- `i++` -/
  | next
  | done
  deriving DecidableEq, Repr

/-- The local variables of `increment`; `tmp` is the value that `count++` has loaded. -/
structure Thread where
  pc : Pc := .test
  i : ℤ := 0
  tmp : ℤ := 0
  deriving DecidableEq, Repr

/-- `1 - id` -/
def other (id : Fin 2) : Fin 2 := 1 - id

/-- One step of thread `id` in `increment`, with `lock` and `unlock` unfolded. -/
def step (inc : ℤ) (id : Fin 2) : Memory × Thread → Option (Memory × Thread)
  | (m, t) =>
    match t.pc with
    | .test => some (m, { t with pc := if t.i < inc then .setRequest else .done })
    | .setRequest => some ({ m with request := Function.update m.request id 1 }, { t with pc := .setTurn })
    | .setTurn => some ({ m with turn := (other id).val }, { t with pc := .loadRequest })
    | .loadRequest => some (m, { t with pc := if m.request (other id) = 1 then .loadTurn else .loadCount })
    | .loadTurn => some (m, { t with pc := if m.turn = (other id).val then .loadRequest else .loadCount })
    | .loadCount => some (m, { t with pc := .storeCount, tmp := m.count })
    | .storeCount => some ({ m with count := int (t.tmp + 1) }, { t with pc := .clearRequest })
    | .clearRequest => some ({ m with request := Function.update m.request id 0 }, { t with pc := .next })
    | .next => some (m, { t with pc := .test, i := int (t.i + 1) })
    | .done => none

/-- Both threads at the start of `increment`. -/
def start : Config (Fin 2) Memory Thread := ⟨{}, fun _ => {}⟩

/-- In the `while` loop of `lock`. -/
def Pc.spins (p : Pc) : Bool := p = .loadRequest || p = .loadTurn

/-- Between the end of `lock` and the store of `unlock`. -/
def Pc.inside (p : Pc) : Bool := p = .loadCount || p = .storeCount || p = .clearRequest

/-- `request[id]` is set. -/
def Pc.asks (p : Pc) : Bool := p = .setTurn || p.spins || p.inside

/-- The condition that keeps thread `id` in the loop. -/
def kept (m : Memory) (id : Fin 2) : Prop := m.request (other id) = 1 ∧ m.turn = (other id).val

/-! ### The invariant -/

/-- The number of increments of `count` a thread has made. -/
def Thread.made (t : Thread) : ℤ := if t.pc = .clearRequest ∨ t.pc = .next then t.i + 1 else t.i

/-- What is true of one thread. -/
structure Holds (inc : ℤ) (id : Fin 2) (m : Memory) (t : Thread) : Prop where
  request : m.request id = if t.pc.asks then 1 else 0
  turn : m.turn = 0 ∨ m.turn = 1
  tmp : t.pc = .storeCount → t.tmp = m.count
  range : 0 ≤ t.i ∧ t.i ≤ inc
  more : t.pc ≠ .test → t.pc ≠ .done → t.i < inc
  done : t.pc = .done → t.i = inc

/-- **The first of two**: a thread is inside while another has passed its two stores only if `turn` says so. -/
def First (id : Fin 2) (m : Memory) (t u : Thread) : Prop :=
  t.pc.inside → u.pc.spins ∨ u.pc.inside → m.turn = id.val

/-- What is true of two threads. -/
def Order (id id' : Fin 2) (m : Memory) (t u : Thread) : Prop := First id m t u ∧ First id' m u t

theorem other_eq {id id' : Fin 2} (h : id ≠ id') : other id = id' := by
  revert h
  fin_cases id <;> fin_cases id' <;> decide

theorem other_val (id : Fin 2) : ((other id).val : ℤ) = 0 ∨ ((other id).val : ℤ) = 1 := by
  fin_cases id <;> decide

/-- Two threads are not both inside: `turn` would be both ids. -/
theorem Order.not_both {id id' : Fin 2} {m : Memory} {t u : Thread} (h : Order id id' m t u) (hne : id ≠ id')
    (ht : t.pc.inside) (hu : u.pc.inside) : False := by
  have h1 := h.1 ht (.inr hu)
  have h2 := h.2 hu (.inr ht)
  apply hne
  rw [h1] at h2
  exact Fin.ext (by omega)

/-- A thread that is neither in the loop nor inside is not compared. -/
theorem Order.of_out {id id' : Fin 2} {m : Memory} {t u : Thread} (hi : t.pc.inside = false)
    (hs : t.pc.spins = false) : Order id id' m t u :=
  ⟨fun h => by simp [hi] at h, fun _ h => by simp [hi, hs] at h⟩

section Step

variable {inc : ℤ} {id id' : Fin 2} {m m' : Memory} {t t' u : Thread}

theorem step_request (h : step inc id (m, t) = some (m', t')) (hr : m.request id = if t.pc.asks then 1 else 0) :
    m'.request id = if t'.pc.asks then 1 else 0 := by
  rcases t with ⟨pc, i, tmp⟩
  cases pc <;> simp only [step, Option.some.injEq, Prod.mk.injEq, reduceCtorEq] at h <;> obtain ⟨rfl, rfl⟩ := h
  case test =>
    rw [hr]
    by_cases hlt : i < inc <;> simp only [hlt, if_true, if_false] <;> rfl
  case loadRequest =>
    rw [hr]
    by_cases hq : m.request (Peterson.other id) = 1 <;> simp only [hq, if_true, if_false] <;> rfl
  case loadTurn =>
    rw [hr]
    by_cases hq : m.turn = (Peterson.other id).val <;> simp only [hq, if_true, if_false] <;> rfl
  case setRequest | clearRequest => exact Function.update_self ..
  all_goals exact hr

theorem step_request_other (hne : id ≠ id') (h : step inc id (m, t) = some (m', t')) :
    m'.request id' = m.request id' := by
  rcases t with ⟨pc, i, tmp⟩
  cases pc <;> simp only [step, Option.some.injEq, Prod.mk.injEq, reduceCtorEq] at h <;> obtain ⟨rfl, rfl⟩ := h
  case setRequest | clearRequest => exact Function.update_of_ne hne.symm _ _
  all_goals rfl

/-- A step keeps what is true of the thread that takes it. -/
theorem Holds.own (hmax : 2 * inc < 2 ^ 31) (h : step inc id (m, t) = some (m', t')) (hl : Holds inc id m t) :
    Holds inc id m' t' := by
  have hreq := step_request h hl.request
  obtain ⟨-, ht, htmp, hi, hm, hd⟩ := hl
  rcases t with ⟨pc, i, tmp⟩
  cases pc <;> simp only [step, Option.some.injEq, Prod.mk.injEq, reduceCtorEq] at h <;> obtain ⟨rfl, rfl⟩ := h
  case test =>
    refine ⟨hreq, ht, ?_, hi, ?_, ?_⟩ <;> by_cases hlt : i < inc
    any_goals simp [hlt]
    simp at hi ⊢
    omega
  case setTurn => exact ⟨hreq, other_val id, by simp, hi, by simpa using hm, by simp⟩
  case next =>
    have hm := hm (by simp) (by simp)
    simp only at hm hi
    have he : int (i + 1) = i + 1 := int_eq (by omega)
    exact ⟨hreq, ht, by simp, by simp only [he]; omega, by simp, by simp⟩
  case loadRequest | loadTurn =>
    refine ⟨hreq, ht, ?_, hi, fun _ _ => hm (by simp) (by simp), ?_⟩ <;> dsimp only <;> split_ifs <;> simp
  all_goals exact ⟨hreq, ht, by simp, hi, by simpa using hm, by simp⟩

/-- A step keeps what is true of the other thread: the store of `count` is made by a thread that is alone inside. -/
theorem Holds.other (hne : id ≠ id') (h : step inc id (m, t) = some (m', t')) (hu : Holds inc id' m u)
    (hr : Order id id' m t u) : Holds inc id' m' u := by
  have hreq := (step_request_other hne h).trans hu.request
  obtain ⟨-, ht, htmp, hi, hm, hd⟩ := hu
  rcases t with ⟨pc, i, tmp⟩
  cases pc <;> simp only [step, Option.some.injEq, Prod.mk.injEq, reduceCtorEq] at h <;> obtain ⟨rfl, rfl⟩ := h
  case setTurn => exact ⟨hreq, other_val id, htmp, hi, hm, hd⟩
  case storeCount =>
    refine ⟨hreq, ht, fun hp => ?_, hi, hm, hd⟩
    exact (hr.not_both hne rfl (by simp [Pc.inside, hp])).elim
  all_goals exact ⟨hreq, ht, htmp, hi, hm, hd⟩

/-- **Entering**: the first of two stays first, and a thread that leaves the loop while the other has passed its
stores has seen its own id in `turn`. -/
theorem Order.next (hne : id ≠ id') (h : step inc id (m, t) = some (m', t')) (ht : Holds inc id m t)
    (hu : Holds inc id' m u) (hr : Order id id' m t u) : Order id id' m' t' u := by
  have ho : Peterson.other id = id' := other_eq hne
  obtain ⟨h1, h2⟩ := hr
  rcases t with ⟨pc, i, tmp⟩
  cases pc <;> simp only [step, Option.some.injEq, Prod.mk.injEq, reduceCtorEq] at h <;> obtain ⟨rfl, rfl⟩ := h
  case setTurn => exact ⟨fun hi => by simp [Pc.inside] at hi, fun _ _ => by rw [ho]⟩
  case loadRequest =>
    by_cases hq : m.request (Peterson.other id) = 1
    · simp only [hq, if_true]
      exact ⟨fun hi => by simp [Pc.inside] at hi, fun hi _ => h2 hi (.inl rfl)⟩
    · simp only [hq, if_false]
      have hout : u.pc.asks = false := by
        rw [ho, hu.request] at hq
        simpa using hq
      simp only [Pc.asks, Bool.or_eq_false_iff] at hout
      exact ⟨fun _ hi => by simp [hout] at hi, fun hi => by simp [hout] at hi⟩
  case loadTurn =>
    by_cases hq : m.turn = (Peterson.other id).val
    · simp only [hq, if_true]
      exact ⟨fun hi => by simp [Pc.inside] at hi, fun hi _ => h2 hi (.inl rfl)⟩
    · simp only [hq, if_false]
      refine ⟨fun _ _ => ?_, fun hi _ => h2 hi (.inl rfl)⟩
      -- `turn` is one of the two ids and not the other's
      have hv := ht.turn
      rw [ho] at hq
      have := Fin.val_ne_of_ne hne
      omega
  case loadCount => exact ⟨fun _ => h1 rfl, fun hi _ => h2 hi (.inr rfl)⟩
  case storeCount => exact ⟨fun _ => h1 rfl, fun hi _ => h2 hi (.inr rfl)⟩
  case test => split_ifs <;> exact .of_out rfl rfl
  case setRequest | clearRequest | next => exact .of_out rfl rfl

end Step

/-! ### Runs -/

/-- What holds in every state of a run. -/
structure Inv (inc : ℤ) (s : Config (Fin 2) Memory Thread) : Prop where
  pairs : Pairs (Holds inc) Order s
  count : s.shared.count = ∑ id, (s.thread id).made

variable {inc : ℤ} {s s' : Config (Fin 2) Memory Thread} {id : Fin 2}

theorem Holds.made_range {m : Memory} {t : Thread} (h : Holds inc id m t) : 0 ≤ t.made ∧ t.made ≤ inc :=
  ite_counted h.range fun hp =>
    h.more (by rcases hp with hp | hp <;> simp [hp]) (by rcases hp with hp | hp <;> simp [hp])

theorem Inv.count_lt (hmax : 2 * inc < 2 ^ 31) (hi : Inv inc s) (id : Fin 2) :
    0 ≤ s.shared.count ∧ ((s.thread id).pc = .storeCount → s.shared.count + 1 < 2 ^ 31) := by
  rw [hi.count]
  refine ⟨Finset.sum_nonneg fun j _ => (hi.pairs.each j).made_range.1, fun hp => ?_⟩
  have hlt : ∑ j, (s.thread j).made < ∑ _j : Fin 2, inc := by
    refine Finset.sum_lt_sum (fun j _ => (hi.pairs.each j).made_range.2) ⟨id, Finset.mem_univ id, ?_⟩
    have hm := (hi.pairs.each id).more (by simp [hp]) (by simp [hp])
    simpa [Thread.made, hp] using hm
  rw [Fin.sum_const] at hlt
  simp only [nsmul_eq_mul] at hlt
  push_cast at hlt
  omega

/-- The step of one thread moves `count` by what that thread has added to it. -/
theorem Inv.count_next (hmax : 2 * inc < 2 ^ 31) (hi : Inv inc s) {m : Memory} {t : Thread}
    (h : step inc id (s.shared, s.thread id) = some (m, t)) :
    m.count - s.shared.count = t.made - (s.thread id).made := by
  have hl := hi.pairs.each id
  obtain ⟨hlow, hhigh⟩ := hi.count_lt hmax id
  revert h
  generalize s.thread id = u at hl hhigh ⊢
  intro h
  rcases u with ⟨pc, i, tmp⟩
  cases pc <;> simp only [step, Option.some.injEq, Prod.mk.injEq, reduceCtorEq] at h <;> obtain ⟨rfl, rfl⟩ := h
  case storeCount =>
    have htmp := hl.tmp rfl
    have hlt := hhigh rfl
    simp only at htmp
    simp only [htmp, int_eq (x := s.shared.count + 1) (by omega), Thread.made]
    simp
  case next =>
    have hlt := hl.more (by simp) (by simp)
    have hr := hl.range
    simp only at hlt hr
    simp [Thread.made, int_eq (x := i + 1) (by omega)]
  case test | loadRequest | loadTurn => split_ifs <;> simp [Thread.made]
  all_goals simp [Thread.made]

/-- **One step of the program.** -/
theorem Inv.next (hmax : 2 * inc < 2 ^ 31) (hi : Inv inc s) (h : Config.Step (step inc) s id s') : Inv inc s' := by
  constructor
  · refine hi.pairs.next h (fun m t m' t' => Holds.own hmax) (fun j m t m' t' u hne hst _ hu hr => hu.other hne hst hr)
      (fun j m t m' t' u hne hst ht hu hr => hr.next hne hst ht hu)
      (fun j m t m' t' u hne hst ht hu hr => ⟨(Order.next hne hst ht hu ⟨hr.2, hr.1⟩).2,
        (Order.next hne hst ht hu ⟨hr.2, hr.1⟩).1⟩) ?_
    intro j k m t m' t' u v hj hk hjk
    omega
  · obtain ⟨m, t, hst, rfl⟩ := Config.step_cases h
    have := hi.count_next hmax hst
    have hc := hi.count
    rw [Config.sum_next Thread.made]
    dsimp only
    omega

theorem start_inv (h : 0 ≤ inc) : Inv inc start := by
  refine ⟨⟨fun id => ?_, fun id id' _ => ?_⟩, by rfl⟩
  · exact ⟨rfl, .inl rfl, by simp [start], by simp [start, h], by simp [start], by simp [start]⟩
  · exact ⟨fun hi => by simp [start, Pc.inside] at hi, fun hi => by simp [start, Pc.inside] at hi⟩

theorem run_inv (hinc : 0 ≤ inc) (hmax : 2 * inc < 2 ^ 31) {tr : List (Config (Fin 2) Memory Thread × Fin 2)}
    (h : Path (Config.Step (step inc)) start tr s) : Inv inc s :=
  h.invariant (start_inv hinc) fun _ _ _ _ hi hst => hi.next hmax hst

/-- **Peterson's lock.**  In every state of every interleaving of two threads with ids 0 and 1 that both execute
`increment`: they are not both between the end of `lock` and the store of `unlock`; when both have finished, `count`
is `2 * inc`; and they are not both in the loop with the condition true for each. -/
theorem peterson_run (inc : ℤ) (hinc : 0 ≤ inc) (hmax : 2 * inc < 2 ^ 31)
    (tr : List (Config (Fin 2) Memory Thread × Fin 2)) (s : Config (Fin 2) Memory Thread)
    (h : Path (Config.Step (step inc)) start tr s) :
    ¬ ((s.thread 0).pc.inside ∧ (s.thread 1).pc.inside) ∧
    ((s.thread 0).pc = .done ∧ (s.thread 1).pc = .done → s.shared.count = 2 * inc) ∧
    ¬ ∀ id, (s.thread id).pc.spins ∧ kept s.shared id := by
  have hi := run_inv hinc hmax h
  refine ⟨?_, ?_, ?_⟩
  · rintro ⟨h0, h1⟩
    exact (hi.pairs.two 0 1 (by decide)).not_both (by decide) h0 h1
  · rintro ⟨h0, h1⟩
    have d0 := (hi.pairs.each 0).done h0
    have d1 := (hi.pairs.each 1).done h1
    rw [hi.count, Fin.sum_univ_two]
    simp only [Thread.made, h0, h1, d0, d1]
    simp
    omega
  · intro hs
    obtain ⟨-, -, h0⟩ := hs 0
    obtain ⟨-, -, h1⟩ := hs 1
    rw [h0] at h1
    cases h1

/-- With `inc` = 1: thread 1 waits in the loop while thread 0 is inside, and both finish. -/
theorem peterson_run_one : ∃ tr s, Path (Config.Step (step 1)) start tr s ∧
    ((s.thread 0).pc = .done ∧ (s.thread 1).pc = .done) ∧
    (¬ ((s.thread 0).pc.inside ∧ (s.thread 1).pc.inside) ∧
    ((s.thread 0).pc = .done ∧ (s.thread 1).pc = .done → s.shared.count = 2 * 1) ∧
    ¬ ∀ id, (s.thread id).pc.spins ∧ kept s.shared id) := by
  obtain ⟨tr, s, hp, hd⟩ := Config.exists_path (step 1) start
    ([0, 1, 0, 1, 0, 1, 0, 1, 0, 1] ++ List.replicate 5 0 ++ List.replicate 6 1)
    (fun x => decide ((x.2.thread 0).pc = .done ∧ (x.2.thread 1).pc = .done)) (by decide +kernel)
  exact ⟨tr, s, hp, of_decide_eq_true hd, peterson_run 1 (by decide) (by decide) tr s hp⟩

end Seminars.Locks.Peterson
