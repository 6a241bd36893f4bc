import Seminars.Green.Change
import Seminars.Green.Run

/-!
# Seminars.Green.Epilogue — the timer at the end of a thread

`FineStep`: the end of `green_thread` is executed statement by statement, and the signal is delivered between two
statements too, when it is not blocked.

* `Safe`: the running thread is the one whose code executes, `green_yield` saves the context of nobody else, and
  `green_join` goes on when the thread joined has ended.
* `left`: the code that is left at a statement; `left_step`: executing a statement leaves the result as it is.
* `Ending`: a thread is at the end of `green_thread`, where it arrived in a state that refines to a scheduler.
* `undisturbed_run`: without a signal there, the run is one of `Step`, in which the end of `green_thread` is one step.
* `epilogue_run`: in a run in which no signal is delivered there, every state is safe.
-/

namespace Seminars.Green

open Seminars.Lib

/-- Where in the end of `green_thread` the code stands. -/
def Pc.ending : Pc → Option (ℕ × Epi)
  | .epi v e => some (v, e)
  | _ => none

/-- When the executing thread can do it; the signal is delivered at the end of `green_thread` too. -/
def enabledFine (cpu : Ctx) (act : Act) : Prop :=
  enabled cpu act ∨ act = .timer ∧ cpu.blocked = false ∧ cpu.pc.ending ≠ none

instance (cpu : Ctx) : DecidablePred (enabledFine cpu) := fun _ => inferInstanceAs (Decidable (_ ∨ _))

/-- The code of an action up to the next point where a signal can be delivered. -/
def fine : Act → M Unit
  | .ret v => modifyCpu fun c => { c with pc := .epi v .testJoin }
  | .timer => do greenYield (← get).cpu.pc.ending
  | act => exec act

/-- **One step**, the end of `green_thread` statement by statement. -/
def FineStep (s : Sched) (act : Act) (s' : Sched) : Prop :=
  enabledFine s.cpu act ∧ proper s.core act ∧ (fine act).run s = .ok ((), s')

/-- What the threads' functions have returned. -/
def results (s : Sched) (act : Act) (_ : Sched) (returned : Tid → Option ℕ) : Tid → Option ℕ :=
  match act with
  | .ret v => Function.update returned s.cpu.owner (some v)
  | _ => returned

/-- **The state is safe**, when `returned` is what the threads' functions have returned and `C` are the steps that
can be made next.  Between `running = next` and `setcontext(next->context)` the running thread is another one. -/
structure Safe (C : Sched → Act → Prop) (s : Sched) (returned : Tid → Option ℕ) : Prop where
  running : (∀ v n, s.cpu.pc ≠ .epi v (.setcontext n)) → s.running = some s.cpu.owner
  yields : ∀ act s', C s act → act = .yield ∨ act = .timer → FineStep s act s' →
    ∀ t, t ≠ s.cpu.owner → s'.context t = s.context t
  joined : ∀ t res, s.cpu.pc = .join t res → s.core.zombie t = true ∧ returned t = some (s.core.retval t) ∧
    ∃ ready, IsQueue s.next (s.head .ready) ready ∧ t ∉ ready

/-- No signal is delivered at the end of `green_thread`. -/
def Undisturbed (s : Sched) (act : Act) : Prop := act = .timer → s.cpu.pc.ending = none

instance (s : Sched) : DecidablePred (Undisturbed s) := fun act =>
  inferInstanceAs (Decidable (act = .timer → s.cpu.pc.ending = none))

/-! ### What is left of the code -/

/-- The end of `green_thread` from `next = dequeue(&ready_queue)` on. -/
def leftNext : M Unit := do
  let next ← dequeue .ready
  setRunning next
  setcontext next

/-- From `this->retval = result` on. -/
def leftSave (this : Tid) (result : ℕ) : M Unit := do
  modifyCore fun k => k.setRetval this result
  modifyCore fun k => k.setZombie this
  leftNext

/-- What is left of `green_thread` at a statement; the loop of `enqueue` takes at most `fuel` rounds more. -/
def left (this : Tid) (result : ℕ) (fuel : ℕ) : Epi → M Unit
  | .testJoin => greenThreadEnd result
  | .call => do
    enqueue .ready ((← get).core.join this)
    leftSave this result
  | .enqTest thread => do
    enqueue .ready thread
    leftSave this result
  | .enqHead thread => do
    setHead .ready thread
    leftSave this result
  | .enqSusp thread => do
    enqueueLoop thread fuel (← deref ((← get).head .ready))
    leftSave this result
  | .enqWhile thread susp => do
    enqueueLoop thread fuel (← deref susp)
    leftSave this result
  | .enqNext thread susp => do
    enqueueLoop thread fuel (← deref ((← get).next (← deref susp)))
    leftSave this result
  | .enqLink thread susp => do
    setNext (← deref susp) thread
    leftSave this result
  | .retval => leftSave this result
  | .zombie => do
    modifyCore fun k => k.setZombie this
    leftNext
  | .deqTest => leftNext
  | .deqThread => do
    let thread := (← get).head .ready
    setHead .ready ((← get).next (← deref thread))
    setNext (← deref thread) none
    setRunning thread
    setcontext thread
  | .deqHead thread => do
    setHead .ready ((← get).next (← deref ((← get).head .ready)))
    setNext (← deref thread) none
    setRunning thread
    setcontext thread
  | .deqNext thread => do
    setNext (← deref thread) none
    setRunning thread
    setcontext thread
  | .running next => do
    setRunning next
    setcontext next
  | .setcontext next => setcontext next

/-- The same state with the code at `pc`. -/
def Sched.goto (s : Sched) (pc : Pc) : Sched := { s with cpu := { s.cpu with pc := pc } }

section Left

variable {s s' : Sched} {this : Tid} {v fuel : ℕ} {e : Epi}

/-- With the local `this` at hand, `green_thread` ends as `left` says. -/
theorem greenThreadEnd_eq (hthis : s.cpu.this = some this) :
    (greenThreadEnd v).run s = (if s.core.join this ≠ none then left this v 0 .call else leftSave this v).run s := by
  unfold greenThreadEnd
  rw [run_bind_ok rfl, hthis]
  show (if s.core.join this ≠ none then _ else _ : M Unit).run s = _
  split_ifs <;> rfl

/-! The tests of `enqueue` and `dequeue`. -/

theorem left_enqTest (thread : Option Tid) (s : Sched) : (left this v fuel (.enqTest thread)).run s =
    (left this v s.core.created.length (if s.head .ready = none then .enqHead thread else .enqSusp thread)).run s := by
  show (do enqueue .ready thread; leftSave this v : M Unit).run s = _
  split_ifs with hh
  · exact run_bind_congr (enqueue_none hh)
  · obtain ⟨x, hx⟩ := Option.ne_none_iff_exists'.mp hh
    refine (run_bind_congr (enqueue_some hx)).trans ?_
    show _ = (do
      enqueueLoop thread s.core.created.length (← deref (s.head .ready))
      leftSave this v : M Unit).run _
    rw [hx]
    rfl

theorem left_enqWhile (thread : Option Tid) (x : Tid) (s : Sched) :
    (left this v (fuel + 1) (.enqWhile thread (some x))).run s =
      (left this v fuel (if s.next x ≠ none then .enqNext thread (some x) else .enqLink thread (some x))).run s := by
  show (do enqueueLoop thread (fuel + 1) x; leftSave this v : M Unit).run s = _
  split_ifs with hh
  · obtain ⟨y, hy⟩ := Option.ne_none_iff_exists'.mp hh
    refine (run_bind_congr (enqueueLoop_some hy)).trans ?_
    show _ = (do enqueueLoop thread fuel (← deref (s.next x)); leftSave this v : M Unit).run _
    rw [hy]
    rfl
  · exact run_bind_ok (enqueueLoop_none (not_not.mp hh))

theorem left_deqTest (s : Sched) : (left this v fuel .deqTest).run s =
    (left this v 0 (if s.head .ready = none then .running none else .deqThread)).run s := by
  show leftNext.run s = _
  unfold leftNext
  split_ifs with hh
  · exact run_bind_ok (dequeue_none hh)
  · obtain ⟨x, hx⟩ := Option.ne_none_iff_exists'.mp hh
    refine (run_bind_ok (dequeue_some hx)).trans ?_
    show _ = (do
      setHead .ready (s.next (← deref (s.head .ready)))
      setNext (← deref (s.head .ready)) none
      setRunning (s.head .ready)
      setcontext (s.head .ready) : M Unit).run _
    rw [hx]
    rfl

/-- The statement is behind the call of `enqueue`. -/
def Epi.called : Epi → Bool
  | .testJoin | .call => false
  | _ => true

/-- The statement is behind `this->zombie = TRUE`. -/
def Epi.buried : Epi → Bool
  | .deqTest | .deqThread | .deqHead _ | .deqNext _ | .running _ | .setcontext _ => true
  | _ => false

/-- What a statement leads to: the next one, with the same result. -/
structure Leads (this : Tid) (v fuel : ℕ) (e : Epi) (s s' : Sched) (e' : Epi) (fuel' : ℕ) : Prop where
  cpu : s'.cpu = { s.cpu with pc := .epi v e' }
  left : (left this v fuel' e').run (s'.goto .user) = (left this v fuel e).run (s.goto .user)
  running : (∀ n, e' ≠ .setcontext n) → s'.running = s.running
  next : ∀ n, e' = .setcontext n → s'.running = n
  context : s'.context = s.context
  created : s'.core.created = s.core.created
  zombie : s'.core.zombie = if e = .zombie then Function.update s.core.zombie this true else s.core.zombie
  buried : e'.buried = (decide (e = .zombie) || e.buried)
  test : e = .testJoin → s' = s.goto s'.cpu.pc ∧ (e'.called = true ↔ s.core.join this = none)
  called : e ≠ .testJoin → e'.called = true

/-- **Executing a statement leaves the result as it is.** -/
theorem left_step (fuel : ℕ) (hthis : s.cpu.this = some this) (hrun : (epilogue v e).run s = .ok ((), s'))
    (he : ∀ n, e ≠ .setcontext n) (hd : (left this v fuel e).run (s.goto .user) ≠ .error .diverge) :
    ∃ e' fuel', Leads this v fuel e s s' e' fuel' := by
  suffices h : Ends (epilogue v e) s (fun _ s' => ∃ e' fuel', Leads this v fuel e s s' e' fuel') (fun _ => True) from
    h.of_eq hrun
  unfold epilogue
  rw [ends_get_bind, hthis]
  have hthis' : (s.goto .user).cpu.this = some this := hthis
  -- for each statement: the next one, the fuel that it gets, and what has been changed
  cases e with
  | testJoin =>
    refine ⟨if s.core.join this ≠ none then .call else .retval, 0, rfl, ?_, fun _ => rfl, ?_, rfl, rfl, rfl, ?_,
      fun _ => ⟨rfl, ?_⟩, fun h => absurd rfl h⟩
    · have hleft := greenThreadEnd_eq (v := v) hthis'
      show _ = (greenThreadEnd v).run (s.goto .user)
      rw [hleft]
      show _ = (if s.core.join this ≠ none then _ else _ : M Unit).run _
      split_ifs <;> rfl
    · split_ifs <;> simp
    · split_ifs <;> rfl
    · split_ifs with hj
      · simp [Epi.called, hj]
      · simp [Epi.called, not_not.mp hj]
  | call =>
    exact ⟨.enqTest (s.core.join this), 0, rfl, rfl, fun _ => rfl, nofun, rfl, rfl, rfl, rfl, nofun, fun _ => rfl⟩
  | enqTest thread =>
    refine ⟨if s.head .ready = none then .enqHead thread else .enqSusp thread, s.core.created.length, rfl,
      (left_enqTest thread (s.goto .user)).symm, fun _ => rfl, ?_, rfl, rfl, rfl, ?_, nofun, fun _ => ?_⟩ <;>
      split_ifs <;> first | rfl | simp
  | enqHead thread => exact ⟨.retval, 0, rfl, rfl, fun _ => rfl, nofun, rfl, rfl, rfl, rfl, nofun, fun _ => rfl⟩
  | enqSusp thread =>
    exact ⟨.enqWhile thread (s.head .ready), fuel, rfl, rfl, fun _ => rfl, nofun, rfl, rfl, rfl, rfl, nofun,
      fun _ => rfl⟩
  | enqWhile thread susp =>
    cases susp with
    | none => trivial
    | some x =>
      cases fuel with
      | zero => exact absurd rfl hd
      | succ fuel =>
        refine ⟨if s.next x ≠ none then .enqNext thread (some x) else .enqLink thread (some x), fuel, rfl,
          (left_enqWhile thread x (s.goto .user)).symm, fun _ => rfl, ?_, rfl, rfl, rfl, ?_, nofun, fun _ => ?_⟩ <;>
          split_ifs <;> first | rfl | simp
  | enqNext thread susp =>
    cases susp with
    | none => trivial
    | some x =>
      exact ⟨.enqWhile thread (s.next x), fuel, rfl, rfl, fun _ => rfl, nofun, rfl, rfl, rfl, rfl, nofun, fun _ => rfl⟩
  | enqLink thread susp =>
    cases susp with
    | none => trivial
    | some x => exact ⟨.retval, 0, rfl, rfl, fun _ => rfl, nofun, rfl, rfl, rfl, rfl, nofun, fun _ => rfl⟩
  | retval => exact ⟨.zombie, 0, rfl, rfl, fun _ => rfl, nofun, rfl, rfl, rfl, rfl, nofun, fun _ => rfl⟩
  | zombie => exact ⟨.deqTest, 0, rfl, rfl, fun _ => rfl, nofun, rfl, rfl, rfl, rfl, nofun, fun _ => rfl⟩
  | deqTest =>
    refine ⟨if s.head .ready = none then .running none else .deqThread, 0, rfl, (left_deqTest (s.goto .user)).symm,
      fun _ => rfl, ?_, rfl, rfl, rfl, ?_, nofun, fun _ => ?_⟩ <;> split_ifs <;> first | rfl | simp
  | deqThread =>
    exact ⟨.deqHead (s.head .ready), 0, rfl, rfl, fun _ => rfl, nofun, rfl, rfl, rfl, rfl, nofun, fun _ => rfl⟩
  | deqHead thread =>
    -- the pointer dereferenced is the one that was tested
    show Ends (do setHead .ready (s.next (← deref (s.head .ready))); modifyCpu _ : M Unit) s _ _
    cases hh : s.head .ready with
    | none => trivial
    | some x =>
      refine ⟨.deqNext thread, 0, rfl, ?_, fun _ => rfl, nofun, rfl, rfl, rfl, rfl, nofun, fun _ => rfl⟩
      show _ = (do
        setHead .ready (s.next (← deref (s.head .ready)))
        setNext (← deref thread) none
        setRunning thread
        setcontext thread : M Unit).run (s.goto .user)
      rw [hh]
      rfl
  | deqNext thread =>
    cases thread with
    | none => trivial
    | some x => exact ⟨.running (some x), 0, rfl, rfl, fun _ => rfl, nofun, rfl, rfl, rfl, rfl, nofun, fun _ => rfl⟩
  | running next =>
    exact ⟨.setcontext next, 0, rfl, rfl, fun h => absurd rfl (h next), fun n h => by cases h; rfl, rfl, rfl, rfl, rfl,
      nofun, fun _ => rfl⟩
  | setcontext next => exact absurd rfl (he next)

/-- `setcontext` replaces the executing context, wherever its code stands. -/
theorem setcontext_goto {n : Option Tid} {pc : Pc} (h : (setcontext n).run s = .ok ((), s')) :
    (setcontext n).run (s.goto pc) = .ok ((), s') := by
  cases n with
  | none => exact absurd (setcontext_null.symm.trans h) (by simp)
  | some n =>
    cases hc : s.context n with
    | none => exact absurd ((setcontext_freed hc).symm.trans h) (by simp)
    | some c => exact (setcontext_some (s := s.goto pc) hc).trans ((setcontext_some hc).symm.trans h)

theorem setcontext_stops (n : Option Tid) (s : Sched) : Ends (setcontext n) s (fun _ _ => True) (· ≠ .diverge) := by
  cases n with
  | none => exact ends_throw.mpr (by decide)
  | some n =>
    cases hc : s.context n with
    | none => exact ends_of_error (setcontext_freed hc) (by decide)
    | some c => exact ends_of_ok (setcontext_some hc) trivial

theorem leftSave_stops (s : Sched) : Ends (leftSave this v) s (fun _ _ => True) (· ≠ .diverge) := by
  unfold leftSave leftNext
  simp only [modifyCore, ends_modify_bind]
  unfold dequeue
  rw [bind_assoc, ends_get_bind]
  cases s.head .ready with
  | none => exact setcontext_stops none _
  | some n => exact setcontext_stops (some n) _

/-- The loop of `enqueue` ends, so the end of `green_thread` is reached. -/
theorem greenThreadEnd_stops {a : Abs} (h : Refines s a) (hthis : s.cpu.this = some this) :
    (greenThreadEnd v).run s ≠ .error .diverge := by
  suffices hE : Ends (greenThreadEnd v) s (fun _ _ => True) (· ≠ .diverge) by
    intro he
    unfold Ends at hE
    rw [he] at hE
    exact hE rfl
  unfold Ends
  rw [greenThreadEnd_eq hthis]
  split_ifs with hj
  · refine (?_ : Ends (left this v 0 .call) s _ _)
    have hT := h.loaded.1.threads
    unfold left
    rw [ends_get_bind, ends_bind]
    rcases enqueue_run (hT.queues.each .ready) (hT.length_le .ready) (s.core.join this) with ⟨-, hr⟩ | ⟨l, z, -, hr⟩ <;>
      exact ends_of_ok hr (leftSave_stops _)
  · exact leftSave_stops s

end Left

/-! ### Runs -/

/-- The thread `this` is at the statement `e` of the end of `green_thread`, where it arrived in the state `t`. -/
structure Ending (t s : Sched) (this : Tid) (v : ℕ) (e : Epi) : Prop where
  pc : s.cpu.pc = .epi v e
  local_this : s.cpu.this = some this
  owner : s.cpu.owner = this
  running : (∀ n, e ≠ .setcontext n) → s.running = some this
  next : ∀ n, e = .setcontext n → s.running = n
  left : ∃ fuel, (left this v fuel e).run (s.goto .user) = (greenThreadEnd v).run t
  context : s.context = t.context
  created : s.core.created = t.core.created
  zombie : s.core.zombie = if e.buried then Function.update t.core.zombie this true else t.core.zombie
  early : e.called = false → s.goto .user = t

/-- The results of ended threads are stored. -/
def Kept (a : Abs) (returned : Tid → Option ℕ) : Prop := ∀ t, Ended a.core t → returned t = some (a.core.retval t)

/-- **The invariant**: the state refines to a scheduler, or it is that of a thread that ends. -/
inductive Tame (s : Sched) (returned : Tid → Option ℕ) : Prop
  | out {a : Abs} : Refines s a → Kept a returned → Tame s returned
  | ending {t : Sched} {a : Abs} {v : ℕ} {e : Epi} : Refines t a → Kept a returned → t.cpu.pc = .user →
      t.cpu.this = some a.run → returned a.run = some v → Ending t s a.run v e → Tame s returned

section Runs

variable {s₀ s s' t : Sched} {a a' : Abs} {act : Act} {returned : Tid → Option ℕ} {v : ℕ} {e : Epi}

/-- In a state that refines to a scheduler nobody is at the end of `green_thread`. -/
theorem Refines.ending (h : Refines s a) : s.cpu.pc.ending = none := by
  rw [h.loaded.2]
  rcases h.inv.pc with hu | ⟨-, hs⟩
  · rw [hu]
    rfl
  · cases hpc : (a.ctx a.run).pc with
    | epi v e => exact absurd hs (by simp [Suits, Resumable, hpc])
    | _ => rfl

theorem fine_timer (s : Sched) : (fine .timer).run s = (greenYield s.cpu.pc.ending).run s := by
  unfold fine
  exact run_bind_ok rfl

/-- Outside the end of `green_thread` a step is one of the library. -/
theorem FineStep.step (hst : FineStep s act s') (hq : Undisturbed s act) (he : s.cpu.pc.ending = none)
    (hret : ∀ v, act ≠ .ret v) : Step s act s' := by
  obtain ⟨hen, hpr, hrun⟩ := hst
  have hen : enabled s.cpu act := hen.resolve_right fun h => h.2.2 he
  cases act with
  | timer =>
    refine ⟨hen, hpr, ?_⟩
    rw [fine_timer, he] at hrun
    exact hrun
  | ret v => exact absurd rfl (hret v)
  | _ => exact ⟨hen, hpr, hrun⟩

/-- The only steps of a thread that ends are its statements. -/
theorem FineStep.statement (hst : FineStep s act s') (hq : Undisturbed s act) (hpc : s.cpu.pc = .epi v e) :
    act = .resume ∧ (epilogue v e).run s = .ok ((), s') := by
  obtain ⟨hen, -, hrun⟩ := hst
  have hno : s.cpu.pc ≠ .user := by rw [hpc]; simp
  have hend : s.cpu.pc.ending ≠ none := by rw [hpc]; simp [Pc.ending]
  have hen : enabled s.cpu act := hen.resolve_right fun h => hend (hq h.1)
  cases act with
  | resume =>
    refine ⟨rfl, ?_⟩
    change resume.run s = _ at hrun
    unfold resume at hrun
    rw [run_bind_ok rfl, hpc] at hrun
    exact hrun
  | timer => exact absurd (hq rfl) hend
  | ret v => exact absurd hen.1 hno
  | _ => exact absurd hen hno

theorem FineStep.enters (hst : FineStep s (.ret v) s') (h : Refines s a) :
    s.cpu.pc = .user ∧ s.cpu.this = some a.run ∧ Ending s s' a.run v .testJoin := by
  obtain ⟨hen, -, hrun⟩ := hst
  obtain ⟨hpc, hthis⟩ := hen.resolve_right fun h => by simp at h
  obtain rfl : { s with cpu := { s.cpu with pc := .epi v .testJoin } } = s' := congrArg Prod.snd (Except.ok.inj hrun)
  have hgoto : Sched.goto { s with cpu := { s.cpu with pc := .epi v .testJoin } } .user = s := by
    rw [Sched.goto, ← hpc]
  refine ⟨hpc, h.this hthis, rfl, h.this hthis, h.owner, fun _ => h.loaded.1.running, nofun, ⟨0, ?_⟩, rfl, rfl, rfl,
    fun _ => hgoto⟩
  rw [hgoto]
  rfl

/-- **The end of `green_thread`**: a statement leads to the next one, and the last one to where `green_thread` ends when
it is executed in one step. -/
theorem Ending.step (h : Ending t s a.run v e) (ha : Refines t a) (hpc : t.cpu.pc = .user)
    (hthis : t.cpu.this = some a.run) (hst : FineStep s act s') (hq : Undisturbed s act) :
    act = .resume ∧ ((∃ n, e = .setcontext n ∧ Step t (.ret v) s') ∨
      ∃ e' fuel fuel', Leads a.run v fuel e s s' e' fuel' ∧ Ending t s' a.run v e') := by
  obtain ⟨rfl, hrun⟩ := hst.statement hq h.pc
  obtain ⟨fuel, hleft⟩ := h.left
  refine ⟨rfl, ?_⟩
  by_cases he : ∃ n, e = .setcontext n
  · obtain ⟨n, rfl⟩ := he
    have hlast : (setcontext n).run s = .ok ((), s') := by
      unfold epilogue at hrun
      rw [run_bind_ok rfl, h.local_this] at hrun
      exact hrun
    exact .inl ⟨n, rfl, ⟨hpc, by rw [hthis]; simp⟩, trivial, hleft.symm.trans (setcontext_goto hlast)⟩
  · have he : ∀ n, e ≠ .setcontext n := fun n hn => he ⟨n, hn⟩
    obtain ⟨e', fuel', hl⟩ := left_step fuel h.local_this hrun he (by
      rw [hleft]
      exact greenThreadEnd_stops ha hthis)
    refine .inr ⟨e', fuel, fuel', hl, by rw [hl.cpu], by rw [hl.cpu]; exact h.local_this, by rw [hl.cpu]; exact h.owner,
      fun hn => (hl.running hn).trans (h.running he), hl.next, ⟨fuel', hl.left.trans hleft⟩,
      hl.context.trans h.context, hl.created.trans h.created, ?_, fun hc => ?_⟩
    · rw [hl.zombie, h.zombie, hl.buried]
      by_cases hz : e = .zombie
      · subst hz
        rfl
      · simp [hz]
    · have htest : e = .testJoin := by
        by_contra hne
        exact absurd (hl.called hne) (by simp [hc])
      rw [(hl.test htest).1]
      exact h.early (by rw [htest]; rfl)

theorem Kept.step (hk : Kept a returned) (hst : AStep a act a')
    (hv : ∀ v, act = .ret v → returned a.run = some v) : Kept a' returned := by
  intro u hu
  rcases hst.ended hu with ⟨hu', hval⟩ | ⟨v, hact, rfl, hval⟩
  · rw [hval]
    exact hk u hu'
  · rw [hval]
    exact hv v hact

/-- **The step lemma.** -/
theorem Tame.step (h : Tame s returned) (hst : FineStep s act s') (hq : Undisturbed s act) :
    Tame s' (results s act s' returned) := by
  cases h with
  | @out a ha hk =>
    by_cases hret : ∃ v, act = .ret v
    · obtain ⟨v, rfl⟩ := hret
      obtain ⟨hpc, hthis, hend⟩ := hst.enters ha
      refine .ending ha (fun u hu => ?_) hpc hthis ?_ hend
      · have hur : u ≠ s.cpu.owner := by
          rintro rfl
          rw [ha.owner] at hu
          exact ha.inv.live.not_ended hu
        show Function.update returned s.cpu.owner (some v) u = _
        rw [Function.update_of_ne hur]
        exact hk u hu
      · rw [← ha.owner]
        exact Function.update_self ..
    · have hret : ∀ v, act ≠ .ret v := fun v hv => hret ⟨v, hv⟩
      obtain ⟨a', hst', ha'⟩ := step_refines ha (hst.step hq ha.ending hret)
      have hres : results s act s' returned = returned := by
        cases act with
        | ret v => exact absurd rfl (hret v)
        | _ => rfl
      rw [hres]
      exact .out ha' (hk.step hst' fun v hv => absurd hv (hret v))
  | @ending t a v e ha hk hpc hthis hret hend =>
    obtain ⟨rfl, ⟨n, -, hstep⟩ | ⟨e', -, -, -, hend'⟩⟩ := hend.step ha hpc hthis hst hq
    · -- the last statement: `green_thread` has ended as it does in one step
      obtain ⟨a', hst', ha'⟩ := step_refines ha hstep
      refine .out ha' (hk.step hst' fun w hw => ?_)
      cases hw
      exact hret
    · exact .ending ha hk hpc hthis hret hend'

/-- The context that `green_yield` saves is that of the running thread. -/
theorem greenYield_frame {back : Option (ℕ × Epi)} {r : Tid} (hr : s.running = some r)
    (hrun : (greenYield back).run s = .ok ((), s')) :
    (∀ u, u ≠ r → s'.context u = s.context u) ∧ ∃ c, s'.context r = some c ∧ c.owner = s.cpu.owner := by
  suffices h : Ends (greenYield back) s (fun _ s' => (∀ u, u ≠ r → s'.context u = s.context u) ∧
      ∃ c, s'.context r = some c ∧ c.owner = s.cpu.owner) (fun _ => True) from h.of_eq hrun
  simp only [greenYield, sigprocmask, modifyCpu, ends_modify_bind, ends_get_bind]
  rw [ends_bind]
  refine (enqueue_frame _ _ _).imp ?_ fun _ => id
  rintro _ s₁ ⟨hF₁, -, -⟩
  rw [ends_bind]
  refine (dequeue_frame _ _).imp ?_ fun _ => id
  rintro n s₂ ⟨-, hF₂, -⟩
  rw [hr]
  refine (switch_frame _ _ _ _).imp ?_ fun _ => id
  rintro _ s₃ hS
  obtain ⟨c, hc, hown⟩ := hS.saved
  refine ⟨fun u hu => ?_, c, hc, ?_⟩
  · rw [hS.context u hu, hF₂.context, hF₁.context]
  · rw [hown, hF₂.cpu, hF₁.cpu]

theorem FineStep.yields (hst : FineStep s act s') (hact : act = .yield ∨ act = .timer) :
    ∃ back, (greenYield back).run s = .ok ((), s') := by
  rcases hact with rfl | rfl
  · exact ⟨none, hst.2.2⟩
  · exact ⟨s.cpu.pc.ending, (fine_timer s).symm.trans hst.2.2⟩

theorem Tame.running (h : Tame s returned) (hpc : ∀ v n, s.cpu.pc ≠ .epi v (.setcontext n)) :
    s.running = some s.cpu.owner := by
  cases h with
  | out ha _ =>
    rw [ha.owner]
    exact ha.loaded.1.running
  | @ending t a v e _ _ _ _ _ hend =>
    rw [hend.owner]
    refine hend.running fun n hn => hpc v n ?_
    rw [hend.pc, hn]

/-- **The invariant makes the state safe.** -/
theorem Tame.safe (h : Tame s returned) : Safe Undisturbed s returned := by
  refine ⟨h.running, fun act s' hq hact hst => ?_, fun t res hpc => ?_⟩
  · obtain ⟨back, hrun⟩ := hst.yields hact
    refine (greenYield_frame (h.running fun v n hpc => ?_) hrun).1
    have hno : s.cpu.pc ≠ .user := by rw [hpc]; simp
    rcases hact with rfl | rfl
    · exact hst.1.elim hno fun h => by simp at h
    · have hend := hq rfl
      rw [hpc] at hend
      exact absurd hend (by simp [Pc.ending])
  · cases h with
    | @out a ha hk =>
      have hpc' : (a.ctx a.run).pc = .join t res := ha.loaded.2 ▸ hpc
      have hz : Ended a.core t := by
        rcases ha.inv.pc with hu | ⟨-, hs⟩
        · exact absurd (hpc'.symm.trans hu) (by simp)
        · simpa [Suits, Resumable, hpc'] using hs
      have hcore := ha.loaded.1.core
      refine ⟨by rw [hcore]; exact hz.2, by rw [hcore]; exact hk t hz, a.queue .ready,
        ha.loaded.1.threads.queues.each .ready, fun hm => ?_⟩
      exact (ha.inv.good.placed t (.queue .ready) hm).not_ended hz
    | ending _ _ _ _ _ hend => exact absurd (hpc.symm.trans hend.pc) (by simp)

/-- In the gap between `running = next` and `setcontext(next->context)` the handler overwrites the context of the
thread that is to run next. -/
theorem Tame.gap (h : Tame s returned) {n : Tid} (hpc : s.cpu.pc = .epi v (.setcontext (some n)))
    (hst : FineStep s .timer s') : s'.context n ≠ s.context n := by
  cases h with
  | out ha _ =>
    have hend := ha.ending
    rw [hpc] at hend
    exact absurd hend (by simp [Pc.ending])
  | @ending t a w e ha _ hpc' hthis _ hend =>
    obtain ⟨rfl, rfl⟩ : v = w ∧ .setcontext (some n) = e := by simpa using hpc.symm.trans hend.pc
    obtain ⟨fuel, hleft⟩ := hend.left
    obtain ⟨back, hrun⟩ := hst.yields (.inr rfl)
    obtain ⟨-, c, hc, hown⟩ := greenYield_frame (hend.next _ rfl) hrun
    intro hsame
    rw [hc] at hsame
    -- without the signal the context of `n` is entered, which is its own
    have hlast : (setcontext (some n)).run s = .ok ((), { s with cpu := c }) := setcontext_some hsame.symm
    have hstep : Step t (.ret v) { s with cpu := c } :=
      ⟨⟨hpc', by rw [hthis]; simp⟩, trivial, hleft.symm.trans (setcontext_goto hlast)⟩
    obtain ⟨a', hst', ha'⟩ := step_refines ha hstep
    have hrun' : a'.run = a.run := by rw [← ha'.owner, ← hend.owner, ← hown]
    have hlive := ha'.inv.live
    rw [hrun'] at hlive
    cases hst' with
    | ret hn =>
      rw [hn.core, Abs.finish_core] at hlive
      exact (Good.live_bury.mp hlive).2 rfl

/-- **A thread ends safely**: in a run in which no signal is delivered at the end of `green_thread`, every state is
safe; a signal delivered in the gap there overwrites the context of another thread. -/
theorem epilogue_run {tr : List ((Sched × (Tid → Option ℕ)) × Act)} (h0 : s₀.Initial)
    (hp : Path (withHistory FineStep results) (s₀, fun _ => none) tr (s, returned))
    (hq : ∀ y act, (y, act) ∈ tr → Undisturbed y.1 act) :
    Safe Undisturbed s returned ∧ ∀ v n s', s.cpu.pc = .epi v (.setcontext (some n)) → FineStep s .timer s' →
      s'.context n ≠ s.context n := by
  have h : Tame s returned := by
    refine hp.invariant (I := fun y => Tame y.1 y.2) (.out (initial_refines h0) fun t ht => ?_) ?_
    · have hz := ht.2
      obtain rfl : t = mainGreen := by simpa [Sched.abs, h0.created] using ht.1
      cases h0.zombie.symm.trans hz
    · rintro y act y' hm hy ⟨hst, hy'⟩
      rw [hy']
      exact hy.step hst (hq y act hm)
  exact ⟨h.safe, fun v n s' hpc hst => h.gap hpc hst⟩

end Runs

/-! ### The end as one step -/

section Whole

variable {γ : Type} {g : Sched → Act → Sched → γ → γ} {y₀ : Sched × γ} {s s' : Sched} {c : γ} {act : Act}
  {tr : List ((Sched × γ) × Act)}

/-- The steps outside the end of `green_thread`; the call that enters it is one of them. -/
def outside (tr : List ((Sched × γ) × Act)) : List ((Sched × γ) × Act) :=
  tr.filter fun y => decide (y.1.1.cpu.pc.ending = none)

/-- A history that does not look into the end of `green_thread`. -/
structure Blind (g : Sched → Act → Sched → γ → γ) : Prop where
  enters : ∀ s v s' t c, g s (.ret v) s' c = g s (.ret v) t c
  statement : ∀ s v e s' c, s.cpu.pc = .epi v e → g s .resume s' c = c

/-- **The invariant**: the steps so far are a run of `Step`, but for those of a thread at its end. -/
inductive Whole (g : Sched → Act → Sched → γ → γ) (y₀ : Sched × γ) (tr : List ((Sched × γ) × Act)) (s : Sched) (c : γ) :
    Prop
  | out {a : Abs} : Refines s a → Path (withHistory Step g) y₀ (outside tr) (s, c) → Whole g y₀ tr s c
  | ending {t : Sched} {a : Abs} {v : ℕ} {e : Epi} {before : List ((Sched × γ) × Act)} {b : γ} : Refines t a →
      t.cpu.pc = .user → t.cpu.this = some a.run → Ending t s a.run v e → outside tr = before ++ [((t, b), .ret v)] →
      (∀ t', c = g t (.ret v) t' b) → Path (withHistory Step g) y₀ before (t, b) → Whole g y₀ tr s c

theorem outside_out (h : s.cpu.pc.ending = none) : outside (tr ++ [((s, c), act)]) = outside tr ++ [((s, c), act)] := by
  simp [outside, h]

theorem outside_ending (h : s.cpu.pc.ending ≠ none) : outside (tr ++ [((s, c), act)]) = outside tr := by
  simp [outside, h]

theorem Whole.step (h : Whole g y₀ tr s c) (hg : Blind g) (hst : FineStep s act s') (hq : Undisturbed s act) :
    Whole g y₀ (tr ++ [((s, c), act)]) s' (g s act s' c) := by
  cases h with
  | @out a ha hp =>
    have htr : outside (tr ++ [((s, c), act)]) = outside tr ++ [((s, c), act)] := outside_out ha.ending
    by_cases hret : ∃ v, act = .ret v
    · obtain ⟨v, rfl⟩ := hret
      obtain ⟨hpc, hthis, hend⟩ := hst.enters ha
      exact .ending ha hpc hthis hend htr (fun t' => hg.enters s v s' t' c) hp
    · have hstep := hst.step hq ha.ending fun v hv => hret ⟨v, hv⟩
      obtain ⟨a', -, ha'⟩ := step_refines ha hstep
      refine .out ha' ?_
      rw [htr]
      exact hp.snoc ⟨hstep, rfl⟩
  | @ending t a v e before b ha hpc hthis hend hb hc hp =>
    have htr : outside (tr ++ [((s, c), act)]) = outside tr := outside_ending (by rw [hend.pc]; simp [Pc.ending])
    obtain ⟨rfl, hnext⟩ := hend.step ha hpc hthis hst hq
    rw [hg.statement s v e s' c hend.pc]
    rcases hnext with ⟨n, -, hstep⟩ | ⟨e', -, -, -, hend'⟩
    · -- the last statement: the step that was left out until now
      obtain ⟨a', -, ha'⟩ := step_refines ha hstep
      refine .out ha' ?_
      rw [htr, hb]
      exact hp.snoc ⟨hstep, hc s'⟩
    · exact .ending ha hpc hthis hend' (htr.trans hb) hc hp

/-- **The end of `green_thread` is one step**, when no signal is delivered there: where no thread is in the middle of
it, the run is one of `Step`. -/
theorem undisturbed_run {s₀ : Sched} {c₀ : γ} (hg : Blind g) (h0 : s₀.Initial)
    (hp : Path (withHistory FineStep g) (s₀, c₀) tr (s, c)) (hq : ∀ y act, (y, act) ∈ tr → Undisturbed y.1 act)
    (he : s.cpu.pc.ending = none) : Path (withHistory Step g) (s₀, c₀) (outside tr) (s, c) := by
  have h : ∀ {tr y}, Path (withHistory FineStep g) (s₀, c₀) tr y →
      (∀ y act, (y, act) ∈ tr → Undisturbed y.1 act) → Whole g (s₀, c₀) tr y.1 y.2 := by
    intro tr y hp hq
    induction hp with
    | nil => exact .out (initial_refines h0) .nil
    | @snoc tr t u act _ hst ih =>
      have ht := ih fun y act hm => hq y act (List.mem_append_left _ hm)
      rw [hst.2]
      exact ht.step hg hst.1 (hq t act (by simp))
  cases h hp hq with
  | out _ hp => exact hp
  | ending _ _ _ hend =>
    rw [hend.pc] at he
    exact absurd he (by simp [Pc.ending])

end Whole

/-! ### Runs that can be computed -/

def nextFine (s : Sched) (act : Act) : Option Sched := attempt (enabledFine s.cpu act ∧ proper s.core act) (fine act) s

theorem nextFine_step (s : Sched) (act : Act) (s' : Sched) (h : nextFine s act = some s') : FineStep s act s' :=
  and_assoc.mp (attempt_eq h)

/-- `main` waits for thread 1, which yields, so that the signal is not blocked when its function returns.  The handler
runs after `running = next`: it saves the context of thread 1 in that of `main`. -/
theorem epilogue_unsafe : ¬ ∀ (s₀ s : Sched) (returned : Tid → Option ℕ)
    (tr : List ((Sched × (Tid → Option ℕ)) × Act)), s₀.Initial →
    Path (withHistory FineStep results) (s₀, fun _ => none) tr (s, returned) → Safe (fun _ _ => True) s returned := by
  intro hall
  obtain ⟨tr, ⟨s, returned⟩, hp, htest⟩ := exists_path (recorded_step nextFine_step results)
    (Sched.start, fun _ => none)
    ([.create 1 1 0, .join 1 (some 0), .resume, .yield, .resume, .ret 5] ++ List.replicate 11 .resume)
    (fun x => match nextFine x.2.1 .timer with
      | some s' => decide (x.2.1.cpu.owner = 1 ∧ s'.context 0 ≠ x.2.1.context 0)
      | none => false) (by decide +kernel)
  split at htest
  · next s' hs' =>
    obtain ⟨howner, hctx⟩ := of_decide_eq_true htest
    have howner : s.cpu.owner = 1 := howner
    have hsafe := hall _ s returned tr Sched.start_initial hp
    exact hctx (hsafe.yields .timer s' trivial (.inr rfl) (nextFine_step _ _ _ hs') 0 (by rw [howner]; decide))
  · cases htest

/-- `main` waits for thread 1, which yields and returns 5. -/
theorem epilogue_run_two : ∃ tr s returned, Path (withHistory FineStep results) (Sched.start, fun _ => none) tr
    (s, returned) ∧ s.running = some 0 ∧ s.core.retval 1 = 5 ∧ s.core.zombie 1 = true ∧
    ∃ ready, IsQueue s.next (s.head .ready) ready ∧ 1 ∉ ready := by
  obtain ⟨tr, ⟨s, returned⟩, hp, htest⟩ := exists_path (recorded_step nextFine_step results)
    (Sched.start, fun _ => none)
    ([.create 1 1 0, .join 1 (some 0), .resume, .yield, .resume, .timer, .resume, .ret 5] ++ List.replicate 12 .resume)
    (fun x => decide ((∀ y ∈ x.1, Undisturbed y.1.1 y.2) ∧ x.2.1.cpu.pc = .join 1 (some 0) ∧ x.2.1.running = some 0 ∧
      x.2.2 1 = some 5)) (by decide +kernel)
  obtain ⟨htr, hpc, hrun, hret⟩ := of_decide_eq_true htest
  have hsafe := (epilogue_run Sched.start_initial hp fun y act hm => htr _ hm).1
  obtain ⟨hz, hval, hready⟩ := hsafe.joined 1 (some 0) hpc
  have hret : returned 1 = some 5 := hret
  rw [hret] at hval
  exact ⟨tr, s, returned, hp, hrun, (Option.some.inj hval).symm, hz, hready⟩

end Seminars.Green
