import Mathlib.Logic.Function.Basic
import Mathlib.Tactic.Common

/-!
# Seminars.Green.Code — `seminar3/green.c`

The green-thread library as the source has it.  A thread is a number, `mainGreen` is 0; `green_t` is split into
maps from threads to the values of its fields.  All queues are threaded through the one field `next`; a queue is
named by its head variable (`QRef`).

A context (`Ctx`) says whose stack the code runs on, where in the code it stands and whether `SIGVTALRM` is
blocked.  `swapcontext` saves `cpu` and loads another one; what follows a `swapcontext` in the source is a
function of its own, run by `resume` when the saved context is entered again.  Every operation blocks the signal
first, so up to its next `swapcontext` it is one step.  Only the end of `green_thread` (`greenThreadEnd`) can run with
the signal unblocked: `epilogue` is that end statement by statement.

Dereferencing null, a failed assertion, using or freeing a freed context and a walk along a queue that does not
end are faults.
-/

namespace Seminars.Green

/-- A `green_t`, by number. -/
abbrev Tid := ℕ

/-- `main_green` -/
def mainGreen : Tid := 0

/-- The head variables of the queues: `ready_queue`, `cond->susp_list`, `mutex->susp`. -/
inductive QRef
  | ready
  | cond (c : ℕ)
  | mutex (m : ℕ)
  deriving DecidableEq, Repr

/-- Ways for the program to go wrong. -/
inductive Fault
  | null | assert | freed | diverge
  deriving DecidableEq, Repr

/-- The statements of `green_thread` after the call of the thread's function, those of `enqueue` and `dequeue`
included, with the values of the local variables. -/
inductive Epi
  /-- `if(this->join != NULL)` -/
  | testJoin
  /-- `enqueue(&ready_queue, this->join)` -/
  | call
  /-- `if(*list == NULL)` -/
  | enqTest (thread : Option Tid)
  /-- `*list = thread` -/
  | enqHead (thread : Option Tid)
  /-- `susp = *list` -/
  | enqSusp (thread : Option Tid)
  /-- `while(susp->next != NULL)` -/
  | enqWhile (thread susp : Option Tid)
  /-- `susp = susp->next` -/
  | enqNext (thread susp : Option Tid)
  /-- `susp->next = thread` -/
  | enqLink (thread susp : Option Tid)
  | retval
  | zombie
  /-- `if(*list == NULL)` -/
  | deqTest
  /-- `thread = *list` -/
  | deqThread
  /-- `*list = (*list)->next` -/
  | deqHead (thread : Option Tid)
  /-- `thread->next = NULL` -/
  | deqNext (thread : Option Tid)
  | running (next : Option Tid)
  | setcontext (next : Option Tid)
  deriving DecidableEq, Repr

/-- Where the code of a thread stands. -/
inductive Pc
  /-- at the first statement of `green_thread` -/
  | start
  /-- outside the library -/
  | user
  /-- in `green_yield`, called outside the library or from the handler in the epilogue of `green_thread` -/
  | yield (back : Option (ℕ × Epi))
  | join (thread : Tid) (res : Option ℕ)
  | wait (c : ℕ) (m : Option ℕ)
  /-- in `green_cond_wait`, suspended for the mutex -/
  | rewait (m : ℕ)
  | lock (m : ℕ)
  /-- in the epilogue of `green_thread`, the function having returned `v` -/
  | epi (v : ℕ) (e : Epi)
  deriving DecidableEq, Repr

/-- A `ucontext_t`: the stack's owner, `green_thread`'s local `this`, the place in the code, the signal mask. -/
structure Ctx where
  owner : Tid
  this : Option Tid
  pc : Pc
  blocked : Bool
  deriving DecidableEq, Repr

/-- The fields of the threads that are neither links nor contexts, and the mutexes.  `created` are the threads set
up so far; `vars` are variables of the program that `green_join` stores into. -/
structure Core where
  created : List Tid
  fn : Tid → ℕ
  arg : Tid → ℕ
  join : Tid → Option Tid
  retval : Tid → ℕ
  zombie : Tid → Bool
  taken : ℕ → Bool
  vars : ℕ → ℕ

/-- The whole state: the contexts saved, the context that executes, the `next` field of the threads and the head
variables of the queues. -/
structure Sched where
  core : Core
  context : Tid → Option Ctx
  running : Option Tid
  cpu : Ctx
  next : Tid → Option Tid
  head : QRef → Option Tid

/-- Code of the library. -/
abbrev M := StateT Sched (Except Fault)

namespace Core

def setTaken (k : Core) (m : ℕ) (v : Bool) : Core := { k with taken := Function.update k.taken m v }

def setJoin (k : Core) (thread : Tid) (susp : Option Tid) : Core :=
  { k with join := Function.update k.join thread susp }

/-- The fields of a new thread. -/
def init (k : Core) (new : Tid) (fn arg : ℕ) : Core :=
  { k with
    created := new :: k.created
    fn := Function.update k.fn new fn
    arg := Function.update k.arg new arg
    join := Function.update k.join new none
    retval := Function.update k.retval new 0
    zombie := Function.update k.zombie new false }

def setRetval (k : Core) (t : Tid) (v : ℕ) : Core := { k with retval := Function.update k.retval t v }

def setZombie (k : Core) (t : Tid) : Core := { k with zombie := Function.update k.zombie t true }

def store (k : Core) (x v : ℕ) : Core := { k with vars := Function.update k.vars x v }

end Core

def modifyCore (f : Core → Core) : M Unit := modify fun s => { s with core := f s.core }

def modifyCpu (f : Ctx → Ctx) : M Unit := modify fun s => { s with cpu := f s.cpu }

/-- `sigprocmask(SIG_BLOCK, &block, NULL)` and `sigprocmask(SIG_UNBLOCK, &block, NULL)` -/
def sigprocmask (blocked : Bool) : M Unit := modifyCpu fun c => { c with blocked := blocked }

def setRunning (next : Option Tid) : M Unit := modify fun s => { s with running := next }

def setHead (list : QRef) (thread : Option Tid) : M Unit :=
  modify fun s => { s with head := Function.update s.head list thread }

def setNext (thread : Tid) (next : Option Tid) : M Unit :=
  modify fun s => { s with next := Function.update s.next thread next }

def setContext (thread : Tid) (c : Option Ctx) : M Unit :=
  modify fun s => { s with context := Function.update s.context thread c }

/-- `p->..`: a null pointer is a fault. -/
def deref (p : Option Tid) : M Tid :=
  match p with
  | some t => pure t
  | none => throw .null

/-! ### Queues -/

def dequeue (list : QRef) : M (Option Tid) := do
  match (← get).head list with
  | none => return none
  | some thread =>
    setHead list ((← get).next thread)
    setNext thread none
    return some thread

/-- The loop of `enqueue`, from `susp` on; a queue without a cycle has no more members than there are threads. -/
def enqueueLoop (thread : Option Tid) : ℕ → Tid → M Unit
  | 0, _ => throw .diverge
  | fuel + 1, susp => do
    match (← get).next susp with
    | some next => enqueueLoop thread fuel next
    | none => setNext susp thread

def enqueue (list : QRef) (thread : Option Tid) : M Unit := do
  match (← get).head list with
  | none => setHead list thread
  | some susp => enqueueLoop thread (← get).core.created.length susp

/-! ### Contexts -/

/-- `setcontext(next->context)` -/
def setcontext (next : Option Tid) : M Unit := do
  let next ← deref next
  match (← get).context next with
  | some c => modifyCpu fun _ => c
  | none => throw .freed

/-- `swapcontext(susp->context, next->context)`, to be continued at `pc`. -/
def swapcontext (susp next : Option Tid) (pc : Pc) : M Unit := do
  let susp ← deref susp
  let _ ← deref next
  if (← get).context susp = none then
    throw .freed
  else
    setContext susp (some { (← get).cpu with pc := pc })
    setcontext next

/-- The end of an operation: the signal is unblocked and the caller goes on. -/
def leave : M Unit := modifyCpu fun c => { c with pc := .user, blocked := false }

/-! ### Threads -/

/-- `green_thread` up to the call of the thread's function. -/
def greenThread : M Unit := do
  sigprocmask true
  let this := (← get).running
  let t ← deref this
  if (← get).core.fn t = 0 then
    throw .assert
  else
    modifyCpu fun c => { c with this := this, pc := .user }

/-- `green_thread` after the function has returned `result`. -/
def greenThreadEnd (result : ℕ) : M Unit := do
  let this ← deref (← get).cpu.this
  if (← get).core.join this ≠ none then
    enqueue .ready ((← get).core.join this)
  modifyCore fun k => k.setRetval this result
  modifyCore fun k => k.setZombie this
  let next ← dequeue .ready
  setRunning next
  setcontext next

/-- One statement of it. -/
def epilogue (result : ℕ) (e : Epi) : M Unit := do
  let goto := fun e => modifyCpu fun c => { c with pc := .epi result e }
  let this ← deref (← get).cpu.this
  let list := (← get).head .ready
  match e with
  | .testJoin => goto (if (← get).core.join this ≠ none then .call else .retval)
  | .call => goto (.enqTest ((← get).core.join this))
  | .enqTest thread => goto (if list = none then .enqHead thread else .enqSusp thread)
  | .enqHead thread =>
    setHead .ready thread
    goto .retval
  | .enqSusp thread => goto (.enqWhile thread list)
  | .enqWhile thread susp =>
    let next := (← get).next (← deref susp)
    goto (if next ≠ none then .enqNext thread susp else .enqLink thread susp)
  | .enqNext thread susp => goto (.enqWhile thread ((← get).next (← deref susp)))
  | .enqLink thread susp =>
    setNext (← deref susp) thread
    goto .retval
  | .retval =>
    modifyCore fun k => k.setRetval this result
    goto .zombie
  | .zombie =>
    modifyCore fun k => k.setZombie this
    goto .deqTest
  | .deqTest => goto (if list = none then .running none else .deqThread)
  | .deqThread => goto (.deqHead list)
  | .deqHead thread =>
    setHead .ready ((← get).next (← deref list))
    goto (.deqNext thread)
  | .deqNext thread =>
    setNext (← deref thread) none
    goto (.running thread)
  | .running next =>
    setRunning next
    goto (.setcontext next)
  | .setcontext next => setcontext next

/-- The new context starts in `green_thread`, with the mask of its creator. -/
def greenCreate (new : Tid) (fn arg : ℕ) : M Unit := do
  sigprocmask true
  setContext new (some ⟨new, none, .start, (← get).cpu.blocked⟩)
  modifyCore fun k => k.init new fn arg
  setNext new none
  enqueue .ready (some new)
  sigprocmask false

def greenYield (back : Option (ℕ × Epi)) : M Unit := do
  sigprocmask true
  let susp := (← get).running
  enqueue .ready susp
  let next ← dequeue .ready
  setRunning next
  swapcontext susp next (.yield back)

/-- The rest of `green_join`: collect the result, free the context. -/
def greenJoinEnd (thread : Tid) (res : Option ℕ) : M Unit := do
  if (← get).core.retval thread ≠ 0 then
    let x ← deref res
    modifyCore fun k => k.store x (k.retval thread)
  if (← get).context thread = none then
    throw .freed
  else
    setContext thread none
    leave

def greenJoin (thread : Tid) (res : Option ℕ) : M Unit := do
  sigprocmask true
  if (← get).core.zombie thread = false then
    let susp := (← get).running
    modifyCore fun k => k.setJoin thread susp
    let next ← dequeue .ready
    setRunning next
    swapcontext susp next (.join thread res)
  else
    greenJoinEnd thread res

/-! ### Condition variables -/

def greenCondInit (c : ℕ) : M Unit := do
  sigprocmask true
  setHead (.cond c) none
  sigprocmask false

/-- What `green_cond_wait` does with the mutex before it suspends its caller. -/
def condRelease (m : Option ℕ) : M Unit := do
  match m with
  | some m =>
    modifyCore fun k => k.setTaken m false
    let susp ← dequeue (.mutex m)
    enqueue .ready susp
    setHead (.mutex m) none
  | none => pure ()

/-- `green_cond_wait` up to its first `swapcontext`. -/
def greenCondWait (c : ℕ) (m : Option ℕ) : M Unit := do
  sigprocmask true
  let susp := (← get).running
  if susp = none then
    throw .assert
  else
    enqueue (.cond c) susp
    condRelease m
    let next ← dequeue .ready
    if next = none then
      throw .assert
    else
      setRunning next
      swapcontext susp next (.wait c m)

/-- The rest of `green_cond_wait`: take the lock again. -/
def greenCondWaitEnd (m : Option ℕ) : M Unit := do
  match m with
  | some m =>
    if (← get).core.taken m then
      let susp := (← get).running
      enqueue (.mutex m) susp
      let next ← dequeue .ready
      setRunning next
      swapcontext susp next (.rewait m)
    else
      modifyCore fun k => k.setTaken m true
      leave
  | none => leave

/-- With nobody waiting, `green_cond_signal` returns early and leaves the signal blocked. -/
def greenCondSignal (c : ℕ) : M Unit := do
  sigprocmask true
  if (← get).head (.cond c) = none then
    return ()
  else
    let thread ← dequeue (.cond c)
    enqueue .ready thread
    sigprocmask false

/-! ### Mutexes -/

def greenMutexInit (m : ℕ) : M Unit := do
  sigprocmask true
  modifyCore fun k => k.setTaken m false
  setHead (.mutex m) none
  sigprocmask false

def greenMutexLock (m : ℕ) : M Unit := do
  sigprocmask true
  if (← get).core.taken m then
    let susp := (← get).running
    enqueue (.mutex m) susp
    let next ← dequeue .ready
    if next = none then
      throw .assert
    else
      setRunning next
      swapcontext susp next (.lock m)
  else
    modifyCore fun k => k.setTaken m true
    sigprocmask false

def greenMutexUnlock (m : ℕ) : M Unit := do
  sigprocmask true
  if (← get).head (.mutex m) ≠ none then
    let susp ← dequeue (.mutex m)
    enqueue .ready susp
  else
    modifyCore fun k => k.setTaken m false
    setHead (.mutex m) none
  sigprocmask false

/-! ### Runs -/

/-- What the executing thread does next. -/
inductive Act
  | create (new : Tid) (fn arg : ℕ)
  | yield
  | join (thread : Tid) (res : Option ℕ)
  | condInit (c : ℕ)
  | condWait (c : ℕ) (m : Option ℕ)
  | condSignal (c : ℕ)
  | mutexInit (m : ℕ)
  | lock (m : ℕ)
  | unlock (m : ℕ)
  /-- the thread's function returns `v` -/
  | ret (v : ℕ)
  /-- `SIGVTALRM` is delivered -/
  | timer
  /-- the code of the library goes on -/
  | resume
  deriving DecidableEq, Repr

/-- The code of the library goes on where it stands. -/
def resume : M Unit := do
  match (← get).cpu.pc with
  | .start => greenThread
  | .yield none => leave
  | .yield (some (v, e)) => modifyCpu fun c => { c with pc := .epi v e, blocked := false }
  | .join thread res => greenJoinEnd thread res
  | .wait _ m => greenCondWaitEnd m
  | .rewait _ => leave
  | .lock _ => leave
  | .user => pure ()
  | .epi v e => epilogue v e

def exec : Act → M Unit
  | .create new fn arg => greenCreate new fn arg
  | .yield => greenYield none
  | .join thread res => greenJoin thread res
  | .condInit c => greenCondInit c
  | .condWait c m => greenCondWait c m
  | .condSignal c => greenCondSignal c
  | .mutexInit m => greenMutexInit m
  | .lock m => greenMutexLock m
  | .unlock m => greenMutexUnlock m
  | .ret v => greenThreadEnd v
  | .timer => greenYield none
  | .resume => resume

/-- When the executing thread can do it: calls are made outside the library, where the signal is delivered too
unless it is blocked; a function returns to `green_thread` if that called it. -/
def enabled (cpu : Ctx) : Act → Prop
  | .resume => cpu.pc ≠ .user
  | .timer => cpu.pc = .user ∧ cpu.blocked = false
  | .ret _ => cpu.pc = .user ∧ cpu.this ≠ none
  | _ => cpu.pc = .user

/-- What the library expects of its callers: a thread is created once and joined after that. -/
def proper (k : Core) : Act → Prop
  | .create new _ _ => new ∉ k.created
  | .join thread _ => thread ∈ k.created
  | _ => True

/-- **One step** of a program of green threads.  The end of `green_thread` is one step, though the signal is not blocked
there: no signal is delivered between its statements. -/
def Step (s : Sched) (a : Act) (s' : Sched) : Prop :=
  enabled s.cpu a ∧ proper s.core a ∧ (exec a).run s = .ok ((), s')

/-- The program's start: `main` runs, the timer is on, no thread has been created, conditions and mutexes are
initialised.  The fields of threads that are not created yet can have any value. -/
structure Sched.Initial (s : Sched) : Prop where
  created : s.core.created = [mainGreen]
  running : s.running = some mainGreen
  cpu : s.cpu = ⟨mainGreen, none, .user, false⟩
  context : s.context mainGreen ≠ none
  next : s.next mainGreen = none
  join : s.core.join mainGreen = none
  zombie : s.core.zombie mainGreen = false
  head : ∀ q, s.head q = none
  taken : ∀ m, s.core.taken m = false

/-- The start with all memory zero. -/
def Sched.start : Sched where
  core :=
    { created := [mainGreen], fn := fun _ => 0, arg := fun _ => 0, join := fun _ => none, retval := fun _ => 0
      zombie := fun _ => false, taken := fun _ => false, vars := fun _ => 0 }
  context := fun t => if t = mainGreen then some ⟨mainGreen, none, .user, false⟩ else none
  running := some mainGreen
  cpu := ⟨mainGreen, none, .user, false⟩
  next := fun _ => none
  head := fun _ => none

theorem Sched.start_initial : Sched.start.Initial :=
  ⟨rfl, rfl, rfl, by simp [start], rfl, rfl, rfl, fun _ => rfl, fun _ => rfl⟩

end Seminars.Green
