import Seminars.Green.Change
import Seminars.Green.Lock

/-!
# Seminars.Green.Fcfs — a mutex without condition variables

Threads that never end lock and unlock one mutex, yield, and are interrupted.

* `Fcfs` is the invariant: the count of `Tokens`, the order in which the lock is handed over, and where its owner
  is.  `fcfs_step` is its step lemma.
* `lock_run`: the lock is exclusive, first-come-first-served, and a call of `green_mutex_lock` always finds a thread
  to run.
-/

namespace Seminars.Green

open Seminars.Lib

/-- The operations of such a program: a thread that does not hold the mutex locks it, a holder unlocks it. -/
def Alone (m : ℕ) (t : Option Tid) (b : Book) : Act → Prop
  | .create _ _ _ | .yield | .timer | .resume => True
  | .lock x => x = m ∧ ∀ u ∈ b.holds, t ≠ some u
  | .unlock x => x = m ∧ ∃ u ∈ b.holds, t = some u
  | .join _ _ | .condInit _ | .condWait _ _ | .condSignal _ | .mutexInit _ | .ret _ => False

instance (m : ℕ) (t : Option Tid) (b : Book) : DecidablePred (Alone m t b)
  | .create _ _ _ | .yield | .timer | .resume => inferInstanceAs (Decidable True)
  | .lock x => inferInstanceAs (Decidable (x = m ∧ ∀ u ∈ b.holds, t ≠ some u))
  | .unlock x => inferInstanceAs (Decidable (x = m ∧ ∃ u ∈ b.holds, t = some u))
  | .join _ _ | .condInit _ | .condWait _ _ | .condSignal _ | .mutexInit _ | .ret _ => inferInstanceAs (Decidable False)

/-- Where the code of their threads can stand. -/
def Stops (m : ℕ) (pc : Pc) : Prop := pc = .user ∨ pc = .start ∨ pc = .yield none ∨ pc = .lock m

/-- Calls of `lock` that have not returned are those of threads the mutex was passed to, then those that wait for
it; a holder runs or is ready. -/
structure Line (m : ℕ) (a : Abs) (b : Book) : Prop where
  order : b.asked = b.got ++ (b.owed ++ a.queue (.mutex m))
  near : ∀ t ∈ b.holds, t = a.run ∨ t ∈ a.queue .ready

/-- **The invariant.** -/
structure Fcfs (m : ℕ) (a : Abs) (b : Book) : Prop extends Line m a b where
  tokens : Tokens m a b
  empty : a.core.taken m = false → a.queue (.mutex m) = []
  stops : ∀ t, Live a.core t → Stops m (a.ctx t).pc

section Step

variable {m : ℕ} {a a' : Abs} {b : Book} {act : Act} {t : Tid}

/-- A step leaves the code of a thread where it can stand. -/
theorem stops_step (h : AInv a) (hen : enabled (a.ctx a.run) act) (hpr : proper a.core act) (hst : AStep a act a')
    (hal : Alone m (some a.run) b act) (hs : ∀ t, Live a.core t → Stops m (a.ctx t).pc) (ht : Live a'.core t) :
    Stops m (a'.ctx t).pc := by
  have hlands := hst.lands h hen hpr
  by_cases htr : t = a.run
  · subst htr
    cases act with
    | create new fn arg => exact .inl hlands
    | yield | timer => exact .inr (.inr (.inl hlands))
    | lock x =>
      obtain ⟨rfl, -⟩ := hal
      exact hlands.imp_right fun e => .inr (.inr e)
    | unlock x => exact .inl hlands
    | resume =>
      refine .inl (hlands.resolve_right ?_)
      rintro ⟨c, x, hpc, -⟩
      exact absurd (hs a.run h.live) (by simp [Stops, hpc])
    | _ => exact hal.elim
  · by_cases hc : t ∈ a.core.created
    · rw [hst.ctx hpr hc htr]
      exact hs t (hst.live hpr hc ht)
    · exact .inr (.inl (by rw [hst.spawned ht.1 hc htr]))

theorem Line.yield (hl : Line m a b) (hn : Next ((a.stop (.yield none)).push .ready a.run) a') : Line m a' b := by
  have hq : a'.queue (.mutex m) = a.queue (.mutex m) := by
    rw [hn.queue (by simp)]
    simp [Abs.push, Abs.stop, Abs.onCtx]
  refine ⟨by rw [hq]; exact hl.order, fun t ht => hn.mem ?_⟩
  rcases hl.near t ht with rfl | hr
  · simp [Abs.push]
  · simp [Abs.push, Abs.stop, Abs.onCtx, hr]

theorem Fcfs.take (hf : Fcfs m a b) (htk : a.core.taken m = false) :
    Line m ((a.setTaken m true).mask false) ((b.ask a.run).get a.run) := by
  obtain ⟨hb, ho⟩ := hf.tokens.free htk
  have howed : b.owed = [] := hf.tokens.owed.trans ho
  have horder := hf.order
  rw [howed, hf.empty htk] at horder
  refine ⟨?_, fun t ht => ?_⟩
  · have hq : ((a.setTaken m true).mask false).queue (.mutex m) = [] := hf.empty htk
    rw [hq]
    simpa [Book.get, Book.take, Book.ask, howed] using horder
  · have ht : t ∈ a.run :: b.holds := ht
    rw [hb] at ht
    exact .inl (List.mem_singleton.mp ht)

theorem Line.wait (hl : Line m a b) (hal : a.run ∉ b.holds)
    (hn : Next ((a.stop (.lock m)).push (.mutex m) a.run) a') : Line m a' (b.ask a.run) := by
  have hq : a'.queue (.mutex m) = a.queue (.mutex m) ++ [a.run] := by
    rw [hn.queue (by simp)]
    simp [Abs.push, Abs.stop, Abs.onCtx]
  refine ⟨?_, fun t ht => hn.mem ?_⟩
  · rw [hq]
    simp [Book.ask, hl.order]
  · have hr := (hl.near t ht).resolve_left fun e => hal (e ▸ ht)
    simpa [Abs.push, Abs.stop, Abs.onCtx] using hr

/-- The holder gives the mutex up: it goes to the first thread that waits, if there is one. -/
theorem Fcfs.pass (hf : Fcfs m a b) (hal : ∃ u ∈ b.holds, some a.run = some u)
    (hq : a'.queue (.mutex m) = (a.queue (.mutex m)).tail) :
    Line m a' (b.pass a.run (a.queue (.mutex m)).head?) := by
  obtain ⟨hb, -⟩ := hf.tokens.holder hal
  refine ⟨?_, fun t ht => ?_⟩
  · rw [hq]
    have horder := hf.order
    cases hl : a.queue (.mutex m) <;> simpa [Book.pass, Book.release, hl] using horder
  · have ht : t ∈ b.holds.erase a.run := ht
    rw [hb] at ht
    simp at ht

theorem Fcfs.get (hf : Fcfs m a b) (hpc : (a.ctx a.run).pc = .lock m) : Line m a.leave (b.get a.run) := by
  have howed : b.owed = a.run :: standing m a.ctx (a.queue .ready) := by
    rw [hf.tokens.owed]
    simp [owes, standing, hpc, stands]
  refine ⟨?_, fun t ht => ?_⟩
  · have horder := hf.order
    show b.asked = (b.got ++ [a.run]) ++ (b.owed.erase a.run ++ a.queue (.mutex m))
    rw [horder, howed]
    simp
  · have ht : t ∈ a.run :: b.holds := ht
    rcases List.mem_cons.mp ht with rfl | ht
    · exact .inl rfl
    · exact hf.near t ht

/-- **The step lemma.** -/
theorem fcfs_step (h : AInv a) (hen : enabled (a.ctx a.run) act) (hpr : proper a.core act) (hst : AStep a act a')
    (hal : Alone m (some a.run) b act) (hf : Fcfs m a b) : Fcfs m a' (a.note m act a' b) := by
  have htok : Tokens m a' (a.note m act a' b) := by
    refine tokens_step h hen hpr hst ?_ ?_ hf.tokens
    · cases act <;> first | exact hal.elim | exact fun _ => hal.2 | trivial
    · cases act <;> first | exact hal.elim | trivial
  refine ⟨?_, htok, hst.idle hf.empty, fun t ht => stops_step h hen hpr hst hal hf.stops ht⟩
  have hstops := hf.stops a.run h.live
  have hqueue := hst.queue (q := .mutex m) (by simp)
  cases hst with
  | create =>
    refine ⟨?_, fun t ht => (hf.near t ht).imp_right fun hr => ?_⟩
    · rw [hqueue]
      exact hf.order
    · simp [Abs.mask, Abs.onCtx, Abs.push, Abs.spawn, hr]
  | yield hn => exact hf.toLine.yield hn
  | timer hn => exact hf.toLine.yield hn
  | @lockFree x htk =>
    obtain ⟨rfl, -⟩ := hal
    have hpc : (a.ctx a.run).pc = .user := hen
    have hb : a.note x (.lock x) ((a.setTaken x true).mask false) b = (b.ask a.run).get a.run := by
      simp [Abs.note, Book.note, Abs.mask, Abs.onCtx, Abs.setTaken, hpc]
    rw [hb]
    exact hf.take htk
  | @lockWait x a' htk hn =>
    obtain ⟨rfl, hno⟩ := hal
    have hpc := (h.stopPush (q := .mutex x) (.inl rfl)).next_pc hn
    have hb : a.note x (.lock x) a' b = b.ask a.run := by simp [Abs.note, Book.note, hpc]
    rw [hb]
    exact hf.toLine.wait (fun hm => hno _ hm rfl) hn
  | @unlockFree x _ | @unlockPass x _ =>
    obtain ⟨rfl, hno⟩ := hal
    have hb : ∀ a', a.note x (.unlock x) a' b = b.pass a.run (a.queue (.mutex x)).head? := by simp [Abs.note, Book.note]
    rw [hb]
    exact hf.pass hno (by simpa [Abs.queueAfter] using hqueue)
  | resumeStart hpc _ | resumeYield hpc =>
    have hb : ∀ a', a.note m .resume a' b = b := fun a' => by simp [Abs.note, Book.note, hpc]
    rw [hb]
    exact ⟨hf.order, hf.near⟩
  | resumeLocked hpc =>
    have hpc : (a.ctx a.run).pc = .lock m := by
      rcases hpc with hpc | hpc <;> rcases hstops with e | e | e | e <;> rw [hpc] at e <;> cases e
      exact hpc
    have hb : a.note m .resume a.leave b = b.get a.run := by
      simp [Abs.note, Book.note, hpc, Abs.leave, Abs.onCtx]
    rw [hb]
    exact hf.get hpc
  | resumeJoin hpc _ => exact absurd hstops (by simp [Stops, hpc])
  | resumeWait hpc => exact absurd hstops (by simp [Stops, hpc])
  | resumeTake hpc _ => exact absurd hstops (by simp [Stops, hpc])
  | resumeRewait hpc _ _ => exact absurd hstops (by simp [Stops, hpc])
  | _ => exact hal.elim

end Step

/-! ### Runs -/

section Runs

variable {m : ℕ} {s₀ s : Sched} {a : Abs} {b : Book} {tr : List ((Sched × Book) × Act)}

theorem fcfs_initial (h0 : s₀.Initial) : Fcfs m s₀.abs .empty := by
  refine ⟨⟨rfl, fun t ht => absurd ht (by simp [Book.empty])⟩, tokens_initial h0, fun _ => rfl, fun t _ => .inl ?_⟩
  simp [Sched.abs, h0.cpu]

theorem fcfs_run (h0 : s₀.Initial) (hp : Path (withHistory Step (record m)) (s₀, .empty) tr (s, b))
    (hal : ∀ y act, (y, act) ∈ tr → Alone m y.1.running y.2 act) : ∃ a, Refines s a ∧ Fcfs m a b := by
  refine record_run h0 (fcfs_initial h0) hp fun y act hm a a' ha hen hpr hst hf => ?_
  have hal := hal y act hm
  rw [ha.loaded.1.running] at hal
  exact fcfs_step ha.inv hen hpr hst hal hf

/-- The mutex is taken exactly when someone holds it or was passed it, and that is one thread at most. -/
theorem Fcfs.exclusive (hf : Fcfs m a b) :
    (a.core.taken m = true ↔ (b.holds ++ b.owed).length = 1) ∧ (b.holds ++ b.owed).length ≤ 1 := by
  have hcount := hf.tokens.count
  rw [List.length_append, hf.tokens.owed, hcount]
  cases a.core.taken m <;> simp

/-- Whoever holds the mutex or was passed it runs or is ready. -/
theorem Fcfs.owner (hf : Fcfs m a b) {t : Tid} (ht : t ∈ b.holds ++ b.owed) : t = a.run ∨ t ∈ a.queue .ready := by
  rcases List.mem_append.mp ht with ht | ht
  · exact hf.near t ht
  · rw [hf.tokens.owed] at ht
    exact List.mem_cons.mp (List.mem_filter.mp ht).1

theorem Fcfs.can_lock (h : Refines s a) (hf : Fcfs m a b) (hpc : s.cpu.pc = .user)
    (hno : ∀ t ∈ b.holds, s.running ≠ some t) : ∃ s', Step s (.lock m) s' := by
  rw [h.loaded.1.running] at hno
  cases htk : a.core.taken m with
  | false => exact can_step h hpc trivial (.lockFree htk)
  | true =>
    have hone := hf.exclusive.1.mp htk
    obtain ⟨t, ht⟩ := List.exists_mem_of_length_pos (show 0 < (b.holds ++ b.owed).length by omega)
    have hready : t ∈ a.queue .ready := by
      refine (hf.owner ht).resolve_left ?_
      rintro rfl
      rcases List.mem_append.mp ht with hb | hb
      · exact hno _ hb rfl
      · have hu : (a.ctx a.run).pc = .user := by rw [← h.loaded.2]; exact hpc
        rw [hf.tokens.owed, owes_user hu] at hb
        exact h.inv.not_queued .ready (List.mem_filter.mp hb).1
    obtain ⟨n, l, hl⟩ := List.exists_cons_of_ne_nil (List.ne_nil_of_mem hready)
    refine can_step h hpc trivial (.lockWait htk ⟨n, l, ?_, rfl⟩)
    simpa [Abs.push, Abs.stop, Abs.onCtx] using hl

/-- **The hand-over of a mutex**: (a) it is taken exactly when one thread holds it or was passed it, (b) the calls of
`green_mutex_lock` return in the order in which they are made, (c) the owner runs or is ready, so that the assertion
of `green_mutex_lock` does not fail. -/
theorem lock_run (h0 : s₀.Initial) (hp : Path (withHistory Step (record m)) (s₀, .empty) tr (s, b))
    (hal : ∀ y act, (y, act) ∈ tr → Alone m y.1.running y.2 act) :
    ((s.core.taken m = true ↔ (b.holds ++ b.owed).length = 1) ∧ (b.holds ++ b.owed).length ≤ 1) ∧
      b.got <+: b.asked ∧
      (∃ ready, IsQueue s.next (s.head .ready) ready ∧ ∀ t ∈ b.holds ++ b.owed, s.running = some t ∨ t ∈ ready) ∧
      (s.cpu.pc = .user → (∀ t ∈ b.holds, s.running ≠ some t) → ∃ s', Step s (.lock m) s') := by
  obtain ⟨a, ha, hf⟩ := fcfs_run h0 hp hal
  refine ⟨?_, ?_, ⟨a.queue .ready, ha.loaded.1.threads.queues.each .ready, fun t ht => ?_⟩, hf.can_lock ha⟩
  · rw [ha.loaded.1.core]
    exact hf.exclusive
  · rw [hf.order]
    exact List.prefix_append ..
  · rw [ha.loaded.1.running]
    exact (hf.owner ht).imp_left fun e => by rw [e]

end Runs

/-- Two threads wait for the mutex while `main` holds it, and get it in this order. -/
theorem lock_run_three : ∃ tr s b, Path (withHistory Step (record 0)) (Sched.start, .empty) tr (s, b) ∧
    b.asked = [0, 1, 2, 0] ∧ b.got = [0, 1] ∧ b.owed = [2] ∧ s.core.taken 0 = true := by
  obtain ⟨tr, ⟨s, b⟩, hp, htest⟩ := exists_path (recorded_step next_step (record 0)) (Sched.start, Book.empty)
    [.create 1 1 0, .create 2 1 0, .lock 0, .timer, .resume, .lock 0, .resume, .lock 0, .resume, .unlock 0, .lock 0,
      .resume, .unlock 0]
    (fun x => decide ((∀ y ∈ x.1, Alone 0 y.1.1.running y.1.2 y.2) ∧
      x.2.2.asked = [0, 1, 2, 0] ∧ x.2.2.got = [0, 1] ∧ x.2.2.holds = [] ∧ x.2.2.owed = [2])) (by decide +kernel)
  obtain ⟨htr, hasked, hgot, hholds, howed⟩ := of_decide_eq_true htest
  have hholds : b.holds = [] := hholds
  have howed : b.owed = [2] := howed
  have h := (lock_run Sched.start_initial hp fun y act hm => htr _ hm).1.1
  exact ⟨tr, s, b, hp, hasked, hgot, howed, h.mpr (by simp [hholds, howed])⟩

end Seminars.Green
