import Seminars.Green.Change
import Seminars.Green.Run

/-!
# Seminars.Green.Overtake — the ready queue is first in, first out

* `Log` is a history variable: the threads made running and the threads put into the ready queue, in order.
* `ready_step`: a step takes from the front of the ready queue and puts at its end.
* `turn_run`: who yields runs again after everyone who was ready, and before everyone who becomes ready later.
-/

namespace Seminars.Green

open Seminars.Lib

/-- The executing thread takes the next one from the ready queue. -/
def dispatches (s : Sched) : Act → Bool
  | .yield | .timer | .ret _ | .condWait _ _ => true
  | .join t _ => !s.core.zombie t
  | .lock m => s.core.taken m
  | .resume =>
    match s.cpu.pc with
    | .wait _ (some m) => s.core.taken m
    | _ => false
  | _ => false

/-- The thread that the step puts into the ready queue: a new one, the running one, the first that waits for the
condition or the mutex, the joiner. -/
def entering (s : Sched) : Act → Option Tid
  | .create new _ _ => some new
  | .yield | .timer => s.running
  | .condWait _ (some m) => s.head (.mutex m)
  | .condSignal c => s.head (.cond c)
  | .unlock m => s.head (.mutex m)
  | .ret _ => s.cpu.this.bind s.core.join
  | _ => none

/-- Threads in the order in which they were made running, and in which they were put into the ready queue. -/
structure Log where
  ran : List Tid
  entered : List Tid
  deriving DecidableEq, Repr

def Log.empty : Log := ⟨[], []⟩

def Log.note (s : Sched) (act : Act) (s' : Sched) (l : Log) : Log where
  ran := l.ran ++ if dispatches s act then s'.running.toList else []
  entered := l.entered ++ (entering s act).toList

section Step

variable {s s' : Sched} {a a' : Abs} {act : Act}

/-- The thread that runs next was the first of the ready queue. -/
theorem Next.ready (hn : Next a a') : a.queue .ready = a'.run :: a'.queue .ready := by
  obtain ⟨n, l, hq, rfl⟩ := hn
  simp [Abs.go, Abs.pop, hq]

theorem Abs.wake_ready (a : Abs) {q : QRef} (hq : q ≠ .ready) :
    (a.wake q).queue .ready = a.queue .ready ++ (a.queue q).head?.toList := by
  unfold Abs.wake
  cases hl : a.queue q with
  | nil => simp
  | cons t l => simp [Abs.push, Abs.pop, Ne.symm hq]

theorem Abs.release_ready (a : Abs) (m : ℕ) :
    (a.release (some m)).queue .ready = a.queue .ready ++ (a.queue (.mutex m)).head?.toList := by
  have hdrop : ∀ b : Abs, (b.drop (.mutex m)).queue .ready = b.queue .ready := by
    intro b
    exact Function.update_of_ne (by simp : QRef.ready ≠ .mutex m) [] _
  rw [Abs.release, hdrop, Abs.wake_ready _ (by simp)]
  rfl

theorem Abs.finish_ready (a : Abs) (v : ℕ) :
    (a.finish v).queue .ready = a.queue .ready ++ (a.core.join a.run).toList := by
  unfold Abs.finish
  split
  · next hj => simp [hj, Abs.bury]
  · next j hj => simp [hj, Abs.push, Abs.bury]

/-- **A step takes from the front of the ready queue and puts at its end**; otherwise the same thread runs on. -/
theorem ready_step (h : Refines s a) (h' : Refines s' a') (hen : enabled s.cpu act) (hst : AStep a act a') :
    (if dispatches s act then s'.running.toList else []) ++ a'.queue .ready =
        a.queue .ready ++ (entering s act).toList ∧
      (dispatches s act = false → a'.run = a.run) := by
  have hcore := h.loaded.1.core
  have hcpu := h.loaded.2
  have hrun := h.loaded.1.running
  have hhead := fun q => h.loaded.1.threads.queues.head_eq q
  have hpush : ∀ {pc : Pc} {q : QRef}, q ≠ .ready → ((a.stop pc).push q a.run).queue .ready = a.queue .ready := by
    intro pc q hq
    exact Function.update_of_ne (Ne.symm hq) _ _
  have hyes : ∀ {b : Abs}, Next b a' → dispatches s act = true →
      b.queue .ready = a.queue .ready ++ (entering s act).toList →
      (if dispatches s act then s'.running.toList else []) ++ a'.queue .ready =
          a.queue .ready ++ (entering s act).toList ∧
        (dispatches s act = false → a'.run = a.run) := by
    intro b hn hd hb
    refine ⟨?_, fun hd' => absurd (hd.symm.trans hd') (by decide)⟩
    rw [if_pos hd, h'.loaded.1.running, ← hb, hn.ready]
    rfl
  have hno : dispatches s act = false → a'.run = a.run →
      a'.queue .ready = a.queue .ready ++ (entering s act).toList →
      (if dispatches s act then s'.running.toList else []) ++ a'.queue .ready =
          a.queue .ready ++ (entering s act).toList ∧
        (dispatches s act = false → a'.run = a.run) := by
    intro hd hrun hb
    refine ⟨?_, fun _ => hrun⟩
    rw [if_neg (by simp [hd]), hb]
    rfl
  cases hst with
  | create => exact hno rfl rfl (by simp [entering, Abs.mask, Abs.onCtx, Abs.push, Abs.spawn])
  | yield hn | timer hn =>
    refine hyes hn rfl ?_
    rw [entering, hrun]
    simp [Abs.push, Abs.stop, Abs.onCtx]
  | joinWait hz hn =>
    exact hyes hn (by simp [dispatches, hcore, hz]) (by simp [entering, Abs.await, Abs.stop, Abs.onCtx])
  | joinNow hz _ =>
    exact hno (by simp [dispatches, hcore, hz]) rfl (by simp [entering, Abs.leave, Abs.onCtx, Abs.collect])
  | @condWait c m _ hn =>
    refine hyes hn rfl ?_
    cases m with
    | none => simp [entering, Abs.release, hpush]
    | some m =>
      rw [Abs.release_ready, hpush (by simp), entering, hhead]
      simp [Abs.push, Abs.stop, Abs.onCtx]
  | signalNone hq =>
    refine hno rfl rfl ?_
    rw [entering, hhead, hq]
    simp [Abs.mask, Abs.onCtx]
  | signal _ | unlockPass _ =>
    refine hno rfl (a.wake_run _) ?_
    rw [entering, hhead, ← a.wake_ready (by simp)]
    rfl
  | unlockFree hq =>
    refine hno rfl rfl ?_
    rw [entering, hhead, hq]
    simp [Abs.mask, Abs.onCtx, Abs.setTaken]
  | lockFree ht =>
    exact hno (by simp [dispatches, hcore, ht]) rfl (by simp [entering, Abs.mask, Abs.onCtx, Abs.setTaken])
  | lockWait ht hn => exact hyes hn (by simp [dispatches, hcore, ht]) (by simp [entering, hpush])
  | @ret v _ hn =>
    refine hyes hn rfl ?_
    rw [Abs.finish_ready, entering, h.this hen.2, hcore]
    rfl
  | resumeTake hpc ht =>
    exact hno (by simp [dispatches, hcpu, hpc, hcore, ht]) rfl (by simp [entering, Abs.leave, Abs.onCtx, Abs.setTaken])
  | resumeRewait hpc ht hn =>
    exact hyes hn (by simp [dispatches, hcpu, hpc, hcore, ht]) (by simp [entering, hpush])
  | resumeStart hpc _ | resumeYield hpc | resumeJoin hpc _ | resumeWait hpc =>
    exact hno (by simp [dispatches, hcpu, hpc]) rfl (by simp [entering, Abs.leave, Abs.onCtx, Abs.collect])
  | resumeLocked hpc =>
    refine hno ?_ rfl (by simp [entering, Abs.leave, Abs.onCtx])
    rcases hpc with hpc | hpc <;> simp [dispatches, hcpu, hpc]
  | condInit | mutexInit => exact hno rfl rfl (by simp [entering, Abs.mask, Abs.onCtx, Abs.drop, Abs.setTaken])

end Step

/-! ### Runs -/

section Runs

variable {s₀ s s₁ u : Sched} {act : Act} {l : Log} {r : Tid} {ts : List Tid} {tr₀ : List (Sched × Act)}
  {tr : List ((Sched × Log) × Act)}

/-- The invariant: who ran, and then who is ready, are those who were ready at first, and then those who have
become ready. -/
structure InOrder (r : Tid) (ts : List Tid) (a : Abs) (l : Log) : Prop where
  order : l.ran ++ a.queue .ready = ts ++ l.entered
  first : [r] <+: l.entered
  last : l.ran.getLast? = some a.run

theorem InOrder.step {a a' : Abs} {s' : Sched} (ho : InOrder r ts a l) (h : Refines s a) (h' : Refines s' a')
    (hen : enabled s.cpu act) (hst : AStep a act a') : InOrder r ts a' (Log.note s act s' l) := by
  obtain ⟨hready, hrun⟩ := ready_step h h' hen hst
  refine ⟨?_, ho.first.trans (List.prefix_append ..), ?_⟩
  · calc (l.ran ++ if dispatches s act then s'.running.toList else []) ++ a'.queue .ready
        = l.ran ++ (a.queue .ready ++ (entering s act).toList) := by rw [List.append_assoc, hready]
      _ = ts ++ (l.entered ++ (entering s act).toList) := by
          rw [← List.append_assoc, ho.order, List.append_assoc]
  · cases hd : dispatches s act with
    | true => simp [Log.note, hd, h'.loaded.1.running]
    | false => simpa [Log.note, hd, hrun hd] using ho.last

theorem InOrder.start {a a' : Abs} (h : Refines s a) (h' : Refines s₁ a') (hst : AStep a act a')
    (hact : act = .yield ∨ act = .timer) (hen : enabled s.cpu act) :
    InOrder a.run (a.queue .ready) a' (Log.note s act s₁ .empty) := by
  obtain ⟨hready, -⟩ := ready_step h h' hen hst
  have hd : dispatches s act = true := by rcases hact with rfl | rfl <;> rfl
  have he : entering s act = some a.run := by rcases hact with rfl | rfl <;> exact h.loaded.1.running
  exact ⟨hready, by simp [Log.note, Log.empty, he], by simp [Log.note, Log.empty, hd, h'.loaded.1.running]⟩

theorem order_run {a : Abs} (h : Refines s a) (ho : InOrder r ts a l) {l' : Log}
    (hp : Path (withHistory Step Log.note) (s, l) tr (u, l')) : ∃ a', Refines u a' ∧ InOrder r ts a' l' := by
  refine hp.invariant (I := fun x => ∃ a, Refines x.1 a ∧ InOrder r ts a x.2) ⟨a, h, ho⟩ ?_
  rintro ⟨t, l⟩ act ⟨t', l'⟩ - ⟨a, ha, ho⟩ ⟨hst, hl⟩
  obtain rfl : l' = Log.note t act t' l := hl
  obtain ⟨a', hst', ha'⟩ := step_refines ha hst
  exact ⟨a', ha', ho.step ha ha' hst.1 hst'⟩

/-- **Nobody overtakes.**  When `r` yields or is interrupted with the threads `ts` ready, the turns from then on are
those of `ts`, in this order, then `r`'s, then those of the threads that became ready after `r`, in the order in
which they did; the last turn is that of the running thread.  So `r` does not run before all of `ts` have run, and
nobody else runs before `r`. -/
theorem turn_run (h0 : s₀.Initial) (hp₀ : Path Step s₀ tr₀ s) (hr : s.running = some r)
    (hq : IsQueue s.next (s.head .ready) ts) (hact : act = .yield ∨ act = .timer) (hst : Step s act s₁)
    (hp : Path (withHistory Step Log.note) (s₁, Log.note s act s₁ .empty) tr (u, l)) :
    (ts.Nodup ∧ r ∉ ts) ∧
      (∃ ready later, IsQueue u.next (u.head .ready) ready ∧ l.entered = r :: later ∧
        l.ran ++ ready = ts ++ r :: later) ∧
      l.ran.getLast? = u.running ∧ (l.ran <+: ts ∨ ts ++ [r] <+: l.ran) := by
  obtain ⟨a, ha, -⟩ := run_refines (P := fun _ => True) hp₀ h0 trivial fun _ _ _ _ _ _ _ _ _ _ => trivial
  obtain rfl : a.run = r := Option.some.inj (ha.loaded.1.running.symm.trans hr)
  have hts : ts = a.queue .ready := hq.unique (ha.loaded.1.threads.queues.each .ready)
  obtain ⟨a₁, hst', ha₁⟩ := step_refines ha hst
  obtain ⟨a', ha', ho⟩ := order_run ha₁ (InOrder.start ha ha₁ hst' hact hst.1) hp
  rw [← hts] at ho
  obtain ⟨later, hlater⟩ := ho.first
  have horder : l.ran ++ a'.queue .ready = ts ++ a.run :: later := by rw [ho.order, ← hlater]; rfl
  refine ⟨⟨hts ▸ ha.inv.good.each .ready, hts ▸ ha.inv.not_queued .ready⟩,
    ⟨_, later, ha'.loaded.1.threads.queues.each .ready, hlater.symm, horder⟩, ?_, ?_⟩
  · rw [ho.last, ha'.loaded.1.running]
  · -- both lists begin the same list, so the shorter one begins the other
    have h1 : l.ran <+: ts ++ a.run :: later := ⟨_, horder⟩
    have h2 : ts ++ [a.run] <+: ts ++ a.run :: later := ⟨later, by simp⟩
    rcases Nat.lt_or_ge ts.length l.ran.length with hlen | hlen
    · exact .inr (List.prefix_of_prefix_length_le h2 h1 (by simp; omega))
    · exact .inl (List.prefix_of_prefix_length_le h1 (List.prefix_append ..) hlen)

end Runs

/-- `main` is interrupted with 1 and 2 ready.  1 creates 3 and waits for a condition, 2 signals it and ends: `main`
runs before 3 and before 1 again. -/
theorem turn_run_three : ∃ s s₁ tr u l, Step s .timer s₁ ∧
    Path (withHistory Step Log.note) (s₁, Log.note s .timer s₁ .empty) tr (u, l) ∧ l.ran = [1, 2, 0, 3] ∧
    l.entered = [0, 3, 1, 0] ∧ [1, 2, 0] <+: l.ran := by
  obtain ⟨tr₀, s, hp₀, h⟩ := exists_path next_step Sched.start [.create 1 1 0, .create 2 1 0]
    (fun x => decide (x.2.running = some 0 ∧ x.2.head .ready = some 1 ∧ x.2.next 1 = some 2 ∧ x.2.next 2 = none) &&
      (next x.2 .timer).any fun s₁ => (play (recorded next Log.note) (s₁, Log.note x.2 .timer s₁ .empty)
        [.resume, .create 3 1 0, .condWait 0 none, .resume, .condSignal 0, .ret 0, .resume, .timer]).any
          fun y => decide (y.2.2 = Log.mk [1, 2, 0, 3] [0, 3, 1, 0])) (by decide +kernel)
  obtain ⟨hs, h⟩ := (Bool.and_eq_true _ _).mp h
  obtain ⟨hr, hq⟩ := of_decide_eq_true hs
  obtain ⟨s₁, hs₁, h⟩ := (Option.any_eq_true _ _).mp h
  obtain ⟨tr, ⟨u, l⟩, hp, hl⟩ := exists_path (recorded_step next_step Log.note) _ _ _ h
  obtain rfl : l = _ := of_decide_eq_true hl
  have hst := next_step s .timer s₁ hs₁
  have hready : IsQueue s.next (s.head .ready) [1, 2] := by
    obtain ⟨h1, h2, h3⟩ := hq
    exact ⟨h1, h2, h3⟩
  have hturn := (turn_run Sched.start_initial hp₀ hr hready (.inr rfl) hst hp).2.2.2
  exact ⟨s, s₁, tr, u, _, hst, hp, rfl, rfl, hturn.resolve_left (by decide)⟩

end Seminars.Green
