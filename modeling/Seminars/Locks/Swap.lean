import Mathlib.Tactic.Linarith
import Seminars.Lib.CInt
import Seminars.Lib.Interleave

/-!
# Seminars.Locks.Swap — `locks-assignment/swap.c`

Any number `N` of threads run `increment`, each with its own `inc`, over one `*mutex` and one `count`.
`__sync_val_compare_and_swap` is one atomic step; `count++` is a load and a store.

* `Swap.step` — one step of a thread, `Swap.Holds` — what is true of one thread, `Swap.Alone` — of two.
* `swap_run` — **at most one thread is past `try`, `*mutex` is 1 exactly then, and no increment is lost**.
-/

namespace Seminars.Locks.Swap

open Seminars.Lib

/-- The shared variables. -/
structure Memory where
  count : ℤ := 0
  mutex : ℤ := 0
  deriving DecidableEq, Repr

/-- Where a thread is: each constructor is the access it makes next (`test`, `next` and `done` make none). -/
inductive Pc
  /-- `i < inc` -/
  | test
  /-- the compare-and-swap of `try` -/
  | tryLock
  /-- the load of `count++` -/
  | loadCount
  /-- the store of `count++` -/
  | storeCount
  /-- `*mutex = 0` -/
  | unlock
  /-- `i++` -/
  | next
  | done
  deriving DecidableEq, Repr

/-- The local variables of `increment`; `tmp` is the value that `count++` has loaded. -/
structure Thread where
  pc : Pc := .test
  i : ℤ := 0
  tmp : ℤ := 0
  deriving DecidableEq, Repr

variable {N : ℕ}

/-- One step of thread `id` in `increment`, with `lock` and `unlock` unfolded. -/
def step (inc : Fin N → ℤ) (id : Fin N) : Memory × Thread → Option (Memory × Thread)
  | (m, t) =>
    match t.pc with
    | .test => some (m, { t with pc := if t.i < inc id then .tryLock else .done })
    | .tryLock =>
      -- `try` returns the old value; the loop ends when that is 0
      if m.mutex = 0 then some ({ m with mutex := 1 }, { t with pc := .loadCount }) else some (m, t)
    | .loadCount => some (m, { t with pc := .storeCount, tmp := m.count })
    | .storeCount => some ({ m with count := int (t.tmp + 1) }, { t with pc := .unlock })
    | .unlock => some ({ m with mutex := 0 }, { t with pc := .next })
    | .next => some (m, { t with pc := .test, i := int (t.i + 1) })
    | .done => none

/-- All threads at the start of `increment`, `*mutex` and `count` 0. -/
def start : Config (Fin N) Memory Thread := ⟨{}, fun _ => {}⟩

/-- Between the successful `try` and the store of `unlock`. -/
def Pc.inside (p : Pc) : Bool := p = .loadCount || p = .storeCount || p = .unlock

/-! ### The invariant -/

/-- The number of increments of `count` a thread has made. -/
def Thread.made (t : Thread) : ℤ := if t.pc = .unlock ∨ t.pc = .next then t.i + 1 else t.i

/-- 1 for a thread that holds the lock. -/
def Thread.holds (t : Thread) : ℤ := if t.pc.inside then 1 else 0

/-- What is true of one thread. -/
structure Holds (inc : Fin N → ℤ) (id : Fin N) (m : Memory) (t : Thread) : Prop where
  mutex : t.pc.inside → m.mutex = 1
  tmp : t.pc = .storeCount → t.tmp = m.count
  range : 0 ≤ t.i ∧ t.i ≤ inc id
  more : t.pc ≠ .test → t.pc ≠ .done → t.i < inc id
  done : t.pc = .done → t.i = inc id

/-- What is true of two threads: they are not both inside. -/
def Alone (_ _ : Fin N) (_ : Memory) (t u : Thread) : Prop := ¬ (t.pc.inside ∧ u.pc.inside)

section Step

variable {inc : Fin N → ℤ} {id id' : Fin N} {m m' : Memory} {t t' u : Thread}

/-- A step keeps what is true of the thread that takes it. -/
theorem Holds.own (hmax : inc id < 2 ^ 31) (h : step inc id (m, t) = some (m', t')) (hl : Holds inc id m t) :
    Holds inc id m' t' := by
  obtain ⟨hx, htmp, hi, hm, hd⟩ := hl
  rcases t with ⟨pc, i, tmp⟩
  cases pc
  case test =>
    simp only [step, Option.some.injEq, Prod.mk.injEq] at h
    obtain ⟨rfl, rfl⟩ := h
    by_cases hlt : i < inc id
    · simp only [hlt, if_true]
      exact ⟨by simp [Pc.inside], by simp, hi, fun _ _ => hlt, by simp⟩
    · simp only [hlt, if_false]
      exact ⟨by simp [Pc.inside], by simp, hi, by simp, fun _ => by simp at hi ⊢; omega⟩
  case tryLock =>
    simp only [step] at h
    split_ifs at h <;> simp only [Option.some.injEq, Prod.mk.injEq] at h <;> obtain ⟨rfl, rfl⟩ := h
    · exact ⟨fun _ => rfl, by simp, hi, by simpa using hm, by simp⟩
    · exact ⟨hx, htmp, hi, hm, hd⟩
  all_goals simp only [step, Option.some.injEq, Prod.mk.injEq, reduceCtorEq] at h <;> obtain ⟨rfl, rfl⟩ := h
  case next =>
    have hm := hm (by simp) (by simp)
    simp only at hm hi
    have he : int (i + 1) = i + 1 := int_eq (by omega)
    exact ⟨by simp [Pc.inside], by simp, by simp only [he]; omega, by simp, by simp⟩
  case loadCount => exact ⟨fun _ => hx rfl, by simp, hi, by simpa using hm, by simp⟩
  case storeCount => exact ⟨fun _ => hx rfl, by simp, hi, by simpa using hm, by simp⟩
  case unlock => exact ⟨by simp [Pc.inside], by simp, hi, by simpa using hm, by simp⟩

/-- A step keeps what is true of another thread: who writes `count` or frees the lock is alone inside. -/
theorem Holds.other (h : step inc id (m, t) = some (m', t')) (hu : Holds inc id' m u)
    (hr : Alone id id' m t u) : Holds inc id' m' u := by
  obtain ⟨hx, htmp, hi, hm, hd⟩ := hu
  rcases t with ⟨pc, i, tmp⟩
  cases pc
  case tryLock =>
    simp only [step] at h
    split_ifs at h <;> simp only [Option.some.injEq, Prod.mk.injEq] at h <;> obtain ⟨rfl, rfl⟩ := h
    · exact ⟨fun _ => rfl, htmp, hi, hm, hd⟩
    · exact ⟨hx, htmp, hi, hm, hd⟩
  all_goals simp only [step, Option.some.injEq, Prod.mk.injEq, reduceCtorEq] at h <;> obtain ⟨rfl, rfl⟩ := h
  case storeCount => exact ⟨hx, fun hp => (hr ⟨rfl, by simp [Pc.inside, hp]⟩).elim, hi, hm, hd⟩
  case unlock => exact ⟨fun hp => (hr ⟨rfl, hp⟩).elim, htmp, hi, hm, hd⟩
  all_goals exact ⟨hx, htmp, hi, hm, hd⟩

/-- **Exclusion**: `try` succeeds only when nobody is inside. -/
theorem Alone.next (h : step inc id (m, t) = some (m', t')) (hu : Holds inc id' m u) (hr : Alone id id' m t u) :
    Alone id id' m' t' u := by
  rcases t with ⟨pc, i, tmp⟩
  cases pc
  case tryLock =>
    simp only [step] at h
    split_ifs at h with hz <;> simp only [Option.some.injEq, Prod.mk.injEq] at h <;> obtain ⟨rfl, rfl⟩ := h
    · rintro ⟨-, hi⟩
      have := hu.mutex hi
      omega
    · exact hr
  all_goals simp only [step, Option.some.injEq, Prod.mk.injEq, reduceCtorEq] at h <;> obtain ⟨rfl, rfl⟩ := h
  case test => split_ifs <;> simp [Alone, Pc.inside]
  case loadCount | storeCount => exact fun hi => hr ⟨rfl, hi.2⟩
  all_goals simp [Alone, Pc.inside]

theorem Alone.symm (h : Alone id id' m t u) : Alone id' id m u t := fun hi => h ⟨hi.2, hi.1⟩

/-- What a step does to `*mutex` and to `count` is what it does to the thread's share of them. -/
theorem step_shares (hl : Holds inc id m t) (h0 : 0 ≤ m.count)
    (hlt : t.pc = .storeCount → m.count + 1 < 2 ^ 31) (hmax : inc id < 2 ^ 31)
    (h : step inc id (m, t) = some (m', t')) :
    m'.mutex - m.mutex = t'.holds - t.holds ∧ m'.count - m.count = t'.made - t.made := by
  rcases t with ⟨pc, i, tmp⟩
  cases pc
  case tryLock =>
    simp only [step] at h
    split_ifs at h with hz <;> simp only [Option.some.injEq, Prod.mk.injEq] at h <;> obtain ⟨rfl, rfl⟩ := h
    · simp [Thread.holds, Thread.made, Pc.inside, hz]
    · simp
  all_goals simp only [step, Option.some.injEq, Prod.mk.injEq, reduceCtorEq] at h <;> obtain ⟨rfl, rfl⟩ := h
  case test => split_ifs <;> simp [Thread.holds, Thread.made, Pc.inside]
  case storeCount =>
    have htmp := hl.tmp rfl
    have hlt := hlt rfl
    simp only at htmp
    simp [Thread.holds, Thread.made, Pc.inside, htmp, int_eq (x := m.count + 1) (by omega)]
  case unlock => simp [Thread.holds, Thread.made, Pc.inside, hl.mutex rfl]
  case next =>
    have hm := hl.more (by simp) (by simp)
    have hr := hl.range
    simp only at hm hr
    simp [Thread.holds, Thread.made, Pc.inside, int_eq (x := i + 1) (by omega)]
  case loadCount => simp [Thread.holds, Thread.made, Pc.inside]

end Step

/-! ### Runs -/

/-- What holds in every state of a run. -/
structure Inv (inc : Fin N → ℤ) (s : Config (Fin N) Memory Thread) : Prop where
  pairs : Pairs (Holds inc) Alone s
  mutex : s.shared.mutex = ∑ id, (s.thread id).holds
  count : s.shared.count = ∑ id, (s.thread id).made

variable {inc : Fin N → ℤ} {s s' : Config (Fin N) Memory Thread} {id : Fin N}

theorem Holds.made_range {m : Memory} {t : Thread} (h : Holds inc id m t) : 0 ≤ t.made ∧ t.made ≤ inc id :=
  ite_counted h.range fun hp =>
    h.more (by rcases hp with hp | hp <;> simp [hp]) (by rcases hp with hp | hp <;> simp [hp])

/-- `count` is below the sum of the threads' `inc` when a thread stores it. -/
theorem Inv.count_lt (hmax : ∑ id, inc id < 2 ^ 31) (hi : Inv inc s) (id : Fin N) :
    0 ≤ s.shared.count ∧ ((s.thread id).pc = .storeCount → s.shared.count + 1 < 2 ^ 31) := by
  rw [hi.count]
  refine ⟨Finset.sum_nonneg fun j _ => (hi.pairs.each j).made_range.1, fun hp => ?_⟩
  have hlt : ∑ j, (s.thread j).made < ∑ j, inc j := by
    refine Finset.sum_lt_sum (fun j _ => (hi.pairs.each j).made_range.2) ⟨id, Finset.mem_univ id, ?_⟩
    have hm := (hi.pairs.each id).more (by simp [hp]) (by simp [hp])
    simpa [Thread.made, hp] using hm
  omega

theorem inc_lt (hinc : ∀ id, 0 ≤ inc id) (hmax : ∑ id, inc id < 2 ^ 31) (id : Fin N) : inc id < 2 ^ 31 :=
  lt_of_le_of_lt (Finset.single_le_sum (fun j _ => hinc j) (Finset.mem_univ id)) hmax

/-- **One step of the program.** -/
theorem Inv.next (hinc : ∀ id, 0 ≤ inc id) (hmax : ∑ id, inc id < 2 ^ 31) (hi : Inv inc s)
    (h : Config.Step (step inc) s id s') : Inv inc s' := by
  have hid := inc_lt hinc hmax id
  obtain ⟨m, t, hst, rfl⟩ := Config.step_cases h
  obtain ⟨h0, hlt⟩ := hi.count_lt hmax id
  obtain ⟨hx, hc⟩ := step_shares (hi.pairs.each id) h0 hlt hid hst
  refine ⟨?_, ?_, ?_⟩
  · exact hi.pairs.next h (fun m t m' t' => Holds.own hid)
      (fun j m t m' t' u _ hst _ hu hr => hu.other hst hr) (fun j m t m' t' u _ hst _ hu hr => hr.next hst hu)
      (fun j m t m' t' u _ hst _ hu hr => (hr.symm.next hst hu).symm) (fun j k m t m' t' u v _ _ _ _ hr => hr)
  · have := hi.mutex
    rw [Config.sum_next Thread.holds]
    dsimp only
    omega
  · have := hi.count
    rw [Config.sum_next Thread.made]
    dsimp only
    omega

theorem start_inv (hinc : ∀ id, 0 ≤ inc id) : Inv inc start := by
  refine ⟨⟨fun id => ?_, fun id id' _ => by simp [Alone, start, Pc.inside]⟩, ?_, ?_⟩
  · exact ⟨by simp [start, Pc.inside], by simp [start], by simp [start, hinc], by simp [start], by simp [start]⟩
  · simp [start, Thread.holds, Pc.inside]
  · simp [start, Thread.made]

theorem run_inv (hinc : ∀ id, 0 ≤ inc id) (hmax : ∑ id, inc id < 2 ^ 31)
    {tr : List (Config (Fin N) Memory Thread × Fin N)} (h : Path (Config.Step (step inc)) start tr s) : Inv inc s :=
  h.invariant (start_inv hinc) fun _ _ _ _ hi hst => hi.next hinc hmax hst

theorem Inv.free (hi : Inv inc s) (hno : ¬ ∃ id, (s.thread id).pc.inside) : s.shared.mutex = 0 := by
  have hz : ∀ id, (s.thread id).holds = 0 := fun id => if_neg fun h => hno ⟨id, h⟩
  rw [hi.mutex, Finset.sum_congr rfl fun id _ => hz id, Finset.sum_const_zero]

theorem Inv.mutex_iff (hi : Inv inc s) : s.shared.mutex = 1 ↔ ∃ id, (s.thread id).pc.inside := by
  constructor
  · intro h1
    by_contra hno
    have := hi.free hno
    omega
  · rintro ⟨id, h⟩
    exact (hi.pairs.each id).mutex h

/-- **The compare-and-swap spin lock.**  In every state of every interleaving of `N` threads that execute
`increment`: at most one is between the successful `try` and the store of `unlock`, `*mutex` is 1 exactly then (and 0
otherwise), and when all have finished `count` is the sum of the `inc` values and `*mutex` is 0. -/
theorem swap_run (N : ℕ) (inc : Fin N → ℤ) (hinc : ∀ id, 0 ≤ inc id) (hmax : ∑ id, inc id < 2 ^ 31)
    (tr : List (Config (Fin N) Memory Thread × Fin N)) (s : Config (Fin N) Memory Thread)
    (h : Path (Config.Step (step inc)) start tr s) :
    (∀ id id', (s.thread id).pc.inside → (s.thread id').pc.inside → id = id') ∧
    (s.shared.mutex = 1 ↔ ∃ id, (s.thread id).pc.inside) ∧
    (s.shared.mutex = 0 ↔ ¬ ∃ id, (s.thread id).pc.inside) ∧
    ((∀ id, (s.thread id).pc = .done) → s.shared.count = ∑ id, inc id ∧ s.shared.mutex = 0) := by
  have hi := run_inv hinc hmax h
  refine ⟨?_, hi.mutex_iff, ⟨fun h0 hin => ?_, hi.free⟩, fun hd => ⟨?_, ?_⟩⟩
  · intro id id' h1 h2
    by_contra hne
    exact hi.pairs.two id id' hne ⟨h1, h2⟩
  · have := hi.mutex_iff.mpr hin
    omega
  · rw [hi.count]
    refine Finset.sum_congr rfl fun id _ => ?_
    simp [Thread.made, hd id, (hi.pairs.each id).done (hd id)]
  · exact hi.free fun ⟨id, hin⟩ => by simp [hd id, Pc.inside] at hin

/-- Three threads with `inc` 0, 1 and 2: thread 2 is refused by `try` while thread 1 is inside, and all finish. -/
theorem swap_run_three : ∃ tr s, Path (Config.Step (step ![0, 1, 2])) start tr s ∧ (∀ id, (s.thread id).pc = .done) ∧
    ((∀ id id', (s.thread id).pc.inside → (s.thread id').pc.inside → id = id') ∧
    (s.shared.mutex = 1 ↔ ∃ id, (s.thread id).pc.inside) ∧
    (s.shared.mutex = 0 ↔ ¬ ∃ id, (s.thread id).pc.inside) ∧
    ((∀ id, (s.thread id).pc = .done) → s.shared.count = ∑ id, ![0, 1, 2] id ∧ s.shared.mutex = 0)) := by
  obtain ⟨tr, s, hp, hd⟩ := Config.exists_path (step ![0, 1, 2]) start
    ([0, 1, 2, 1, 2, 1, 1] ++ List.replicate 3 1 ++ List.replicate 12 2)
    (fun x => decide (∀ id, (x.2.thread id).pc = .done)) (by decide +kernel)
  exact ⟨tr, s, hp, of_decide_eq_true hd, swap_run 3 ![0, 1, 2] (by decide) (by decide) tr s hp⟩

end Seminars.Locks.Swap
