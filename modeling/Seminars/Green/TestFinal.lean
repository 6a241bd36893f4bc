import Seminars.Green.Program

/-!
# Seminars.Green.TestFinal — `seminar3/test_final.c`

`main` starts two threads that take turns, by a flag that a mutex and a condition protect, and joins both.

* `testFinal L`: the program.  `Vars` are its variables; the locals of `test` have no value at the start.
* `Awake`: the threads do not hang, and `next != NULL` where one suspends itself.
* `Calm`: a step that is not a call of `green_cond_wait` while a thread waits for the mutex.
-/

namespace Seminars.Green.TestFinal

open Seminars.Lib

/-- The statements of `main`, then those of `test`. -/
inductive Loc
  | condInit | mutexInit | create0 | create1 | join0 | join1 | exit
  /-- `id = *(int*)arg`, `loop = L` -/
  | enter
  /-- `while(loop > 0)` -/
  | head
  | lock
  /-- `while(flag != id)` -/
  | test
  | wait
  /-- `flag = (id + 1) % 2` -/
  | set
  | signal
  | unlock
  /-- `loop--` -/
  | dec
  | ret
  deriving DecidableEq, Repr

/-- The numbers of `cond`, `mutex`, `g0` and `g1`. -/
def cond : ℕ := 0
def mutex : ℕ := 0
def g0 : Tid := 1
def g1 : Tid := 2

/-- The local variables of a thread, and where its code stands. -/
structure Locals where
  loc : Loc
  id : ℕ
  loop : ℕ
  deriving DecidableEq, Repr

/-- The global variable `flag`, and the threads' locals. -/
abbrev Vars := Config Tid ℕ Locals

/-- The call of the library that a statement is; an argument of `green_create` is the number it points to. -/
def call : Loc → Option Act
  | .condInit => some (.condInit cond)
  | .mutexInit => some (.mutexInit mutex)
  | .create0 => some (.create g0 1 0)
  | .create1 => some (.create g1 1 1)
  | .join0 => some (.join g0 none)
  | .join1 => some (.join g1 none)
  | .lock => some (.lock mutex)
  | .wait => some (.condWait cond (some mutex))
  | .signal => some (.condSignal cond)
  | .unlock => some (.unlock mutex)
  | .ret => some (.ret 0)
  | .exit | .enter | .head | .test | .set | .dec => none

/-- The statement of a thread with the argument `arg`; `L` is the initial value of `loop`. -/
def exec (L arg : ℕ) (x : ℕ × Locals) : ℕ × Locals :=
  match x.2.loc with
  | .condInit => (x.1, { x.2 with loc := .mutexInit })
  | .mutexInit => (x.1, { x.2 with loc := .create0 })
  | .create0 => (x.1, { x.2 with loc := .create1 })
  | .create1 => (x.1, { x.2 with loc := .join0 })
  | .join0 => (x.1, { x.2 with loc := .join1 })
  | .join1 => (x.1, { x.2 with loc := .exit })
  | .exit => x
  | .enter => (x.1, { id := arg, loop := L, loc := .head })
  | .head => (x.1, { x.2 with loc := if x.2.loop > 0 then .lock else .ret })
  | .lock => (x.1, { x.2 with loc := .test })
  | .test => (x.1, { x.2 with loc := if x.1 ≠ x.2.id then .wait else .set })
  | .wait => (x.1, { x.2 with loc := .test })
  | .set => ((x.2.id + 1) % 2, { x.2 with loc := .signal })
  | .signal => (x.1, { x.2 with loc := .unlock })
  | .unlock => (x.1, { x.2 with loc := .dec })
  | .dec => (x.1, { x.2 with loop := x.2.loop - 1, loc := .head })
  | .ret => x

/-- **The program.** -/
def testFinal (L : ℕ) : Program ℕ Locals where
  call := fun l => call l.loc
  exec := exec L
  finished := fun l => l.loc = .exit

/-- The start. -/
structure Vars.Initial (v : Vars) : Prop where
  flag : v.shared = 0
  main : (v.thread mainGreen).loc = .condInit
  test : ∀ t, t ≠ mainGreen → (v.thread t).loc = .enter

/-- The start with all locals zero. -/
def Vars.start : Vars := ⟨0, fun t => ⟨if t = mainGreen then .condInit else .enter, 0, 0⟩⟩

theorem Vars.start_initial : Vars.start.Initial := ⟨rfl, rfl, fun _ ht => if_neg ht⟩

/-- The threads that have not ended are suspended, and nobody is ready. -/
def Hung (s : Sched) : Prop :=
  s.head .ready = none ∧ ∃ onCond onMutex, IsQueue s.next (s.head (.cond cond)) onCond ∧
    IsQueue s.next (s.head (.mutex mutex)) onMutex ∧ ¬ (Ended s.core g0 ∧ Ended s.core g1) ∧
    ∀ t, t = g0 ∨ t = g1 → Ended s.core t ∨ t ∈ onCond ∨ t ∈ onMutex

/-- **The program goes on**: its threads do not hang, and `next != NULL` where one suspends itself. -/
structure Awake (s : Sched) (v : Vars) : Prop where
  not_hung : ¬ Hung s
  lock : s.cpu.pc = .user → (v.thread s.cpu.owner).loc = .lock → (greenMutexLock mutex).run s ≠ .error .assert
  wait : s.cpu.pc = .user → (v.thread s.cpu.owner).loc = .wait →
    (greenCondWait cond (some mutex)).run s ≠ .error .assert

/-- A step that is not a call of `green_cond_wait` while a thread waits for the mutex. -/
def Calm (x : Sched × Vars) (m : Move) : Prop :=
  m = .go → x.1.cpu.pc = .user → (x.2.thread x.1.cpu.owner).loc = .wait → x.1.head (.mutex mutex) = none

instance (x : Sched × Vars) (m : Move) : Decidable (Calm x m) := inferInstanceAs (Decidable (_ → _ → _ → _))

end Seminars.Green.TestFinal
