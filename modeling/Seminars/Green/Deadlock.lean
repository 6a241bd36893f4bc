import Seminars.Green.Dry
import Seminars.Green.Epilogue
import Seminars.Green.Lock

/-!
# Seminars.Green.Deadlock — programs that join threads and lock mutexes

Threads are created, yield, are interrupted, join, end, and lock and unlock `N` mutexes, which never are initialised
again.  The history are the books of all mutexes.

* `Tidy`: what the callers promise: a holder unlocks, who ends holds nothing, a thread has one joiner at a time.
* `Orderly` is the invariant, `Orderly.step` its step lemma.  `Orderly.waiting`: when nobody is ready, every thread
  waits for one that has not ended.  So `no_deadlock`: unless threads wait in a circle, there is one to run.
* The end of `green_thread` is executed statement by statement, without a signal: `recordAll_run`.
-/

namespace Seminars.Green

open Seminars.Lib

/-- The books of all mutexes along a run. -/
def recordAll (s : Sched) (act : Act) (s' : Sched) (bs : ℕ → Book) : ℕ → Book := fun m => record m s act s' (bs m)

/-- What callers promise, in a program with the mutexes `0, …, N - 1` and without conditions. -/
def Tidy (N : ℕ) (k : Core) (r : Option Tid) (bs : ℕ → Book) : Act → Prop
  | .create _ _ _ | .yield | .timer | .resume => True
  | .lock x => x < N
  | .unlock x => x < N ∧ ∃ u ∈ (bs x).holds, r = some u
  | .join t _ => k.zombie t = false → k.join t = none
  | .ret _ => ∀ m < N, ∀ u ∈ (bs m).holds, r ≠ some u
  | .condInit _ | .condWait _ _ | .condSignal _ | .mutexInit _ => False

instance (N : ℕ) (k : Core) (r : Option Tid) (bs : ℕ → Book) : DecidablePred (Tidy N k r bs)
  | .create _ _ _ | .yield | .timer | .resume => inferInstanceAs (Decidable True)
  | .lock x => inferInstanceAs (Decidable (x < N))
  | .unlock x => inferInstanceAs (Decidable (x < N ∧ ∃ u ∈ (bs x).holds, r = some u))
  | .join t _ => inferInstanceAs (Decidable (k.zombie t = false → k.join t = none))
  | .ret _ => inferInstanceAs (Decidable (∀ m < N, ∀ u ∈ (bs m).holds, r ≠ some u))
  | .condInit _ | .condWait _ _ | .condSignal _ | .mutexInit _ => inferInstanceAs (Decidable False)

/-- `j` is in the queue of the mutex `m`, or calls `green_mutex_lock` now. -/
def Wants (s : Sched) (act : Act) (m : ℕ) (j : Tid) : Prop :=
  (∃ l, IsQueue s.next (s.head (.mutex m)) l ∧ j ∈ l) ∨ act = .lock m ∧ s.running = some j

/-- `j` waits for `t` to end, or for a mutex that `t` holds. -/
def WaitsOn (N : ℕ) (s : Sched) (bs : ℕ → Book) (act : Act) (j t : Tid) : Prop :=
  WaitsFor s act j t ∨ ∃ m < N, Wants s act m j ∧ t ∈ (bs m).holds

/-- The books after a step. -/
def Abs.noteAll (a : Abs) (act : Act) (a' : Abs) (bs : ℕ → Book) : ℕ → Book := fun m => a.note m act a' (bs m)

/-- **The invariant.** -/
structure Orderly (N : ℕ) (a : Abs) (bs : ℕ → Book) : Prop where
  queue : ∀ q, q ≠ .ready → (∀ m < N, q ≠ .mutex m) → a.queue q = []
  main : Live a.core mainGreen
  this : (a.ctx mainGreen).this = none ∧ (a.ctx mainGreen).pc ≠ .start
  pc : ∀ t, Live a.core t → ∀ c m, (a.ctx t).pc ≠ .wait c m
  tokens : ∀ m < N, Tokens m a (bs m)
  idle : ∀ m < N, a.core.taken m = false → a.queue (.mutex m) = []
  holds : ∀ m < N, ∀ t ∈ (bs m).holds, Live a.core t
  lost : a.lost = []

section Step

variable {N m : ℕ} {s : Sched} {a a' : Abs} {b : Book} {bs : ℕ → Book} {act : Act} {t : Tid}

/-- Only the thread that makes the step becomes a holder, and only when its call returns. -/
theorem Book.note_holds {pc : Pc} {back : Bool} {r : Tid} {first : Option Tid}
    (ht : t ∈ (b.note m r pc back first act).holds) : t ∈ b.holds ∨ t = r ∧ back = true := by
  have hget : ∀ {c : Book}, c.holds = b.holds → t ∈ (c.take r).holds → t ∈ b.holds ∨ t = r := by
    intro c hc ht
    rw [← hc]
    exact (List.mem_cons.mp ht).symm
  have hrel : t ∈ (b.release r).holds → t ∈ b.holds := List.mem_of_mem_erase
  cases act with
  | lock x =>
    simp only [Book.note] at ht
    split_ifs at ht with hx hback
    · exact (hget (c := b.ask r) rfl ht).imp_right fun e => ⟨e, hback⟩
    · exact .inl ht
    · exact .inl ht
  | unlock x =>
    simp only [Book.note] at ht
    split_ifs at ht
    · exact .inl (hrel ht)
    · exact .inl ht
  | condWait c x =>
    simp only [Book.note] at ht
    split_ifs at ht
    · exact .inl (hrel ht)
    · exact .inl ht
  | resume =>
    simp only [Book.note] at ht
    split at ht <;> try exact .inl ht
    all_goals
      split_ifs at ht with h
      · exact (hget (c := b) rfl ht).imp_right fun e => ⟨e, h.2⟩
      · exact .inl ht
  | _ => exact .inl ht

/-- Such an action takes a thread neither to the start of `green_thread` nor into `green_cond_wait`. -/
theorem Tidy.lands {k : Core} {r : Option Tid} {pc pc' : Pc} (hact : Tidy N k r bs act) (hl : Lands pc act pc')
    (hne : pc' ≠ pc) : pc' ≠ .start ∧ ∀ c m, pc' ≠ .wait c m := by
  have hforks : Forks act → pc' ≠ .start ∧ ∀ c m, pc' ≠ .wait c m := fun hf => hf.lands hl hne
  cases act with
  | lock x => rcases hl with rfl | rfl <;> simp
  | unlock x =>
    obtain rfl := hl
    simp
  | create _ _ _ | yield | timer | resume | join _ _ | ret _ => exact hforks trivial
  | _ => exact hact.elim

/-- **The step lemma.** -/
theorem Orderly.step (hc : Orderly N a bs) (h : AInv a) (hen : enabled (a.ctx a.run) act) (hpr : proper a.core act)
    (hst : AStep a act a') (hact : Tidy N a.core (some a.run) bs act) : Orderly N a' (a.noteAll act a' bs) := by
  have hlands := hst.lands h hen hpr
  have hret : ∀ v, act = .ret v → mainGreen ≠ a.run := by
    rintro v rfl hr
    exact hen.2 (hr ▸ hc.this.1)
  refine ⟨fun q hq hm => ?_, hst.live_on hc.main hret, ?_, fun t ht c m => ?_, fun m hm => ?_, fun m hm => ?_,
    fun m hm t ht => ?_, ?_⟩
  · rw [hst.queue hq]
    have hq' := hc.queue q hq hm
    cases act with
    | lock x | unlock x =>
      have hx : q ≠ .mutex x := hm x (by first | exact hact | exact hact.1)
      simpa [Abs.queueAfter, hx] using hq'
    | resume =>
      simp only [Abs.queueAfter]
      split
      · next hpc => exact absurd hpc (hc.pc a.run h.live _ _)
      · exact hq'
    | create _ _ _ | yield | timer | join _ _ | ret _ => exact hq'
    | _ => exact hact.elim
  · -- `main` has no local `this`, and does not get one
    by_cases hr : mainGreen = a.run
    · have hpc := hc.this.2
      rw [hr] at hpc ⊢
      refine ⟨(hst.this hpr h.live.1 hpc).trans (hr ▸ hc.this.1), fun hs => ?_⟩
      exact (hact.lands hlands (by rw [hs]; exact hpc.symm)).1 hs
    · rw [hst.ctx hpr hc.main.1 hr]
      exact hc.this
  · -- nobody comes into `green_cond_wait`
    by_cases htr : t = a.run
    · subst htr
      intro hw
      have hne := (hc.pc a.run h.live c m).symm
      exact (hact.lands hlands (by rw [hw]; exact hne)).2 c m hw
    · by_cases hcr : t ∈ a.core.created
      · rw [hst.ctx hpr hcr htr]
        exact hc.pc t (hst.live hpr hcr ht) c m
      · rw [hst.spawned ht.1 hcr htr]
        simp
  · refine tokens_step h hen hpr hst ?_ ?_ (hc.tokens m hm)
    · cases act <;> first | exact hact.elim | trivial | (rintro rfl; exact hact.2)
    · cases act <;> first | exact hact.elim | trivial
  · exact hst.idle (hc.idle m hm)
  · -- a thread that ends holds nothing
    by_cases hr : ∃ v, act = .ret v
    · obtain ⟨v, rfl⟩ := hr
      have ht : t ∈ (bs m).holds := ht
      exact hst.live_on (hc.holds m hm t ht) fun _ _ e => hact m hm t ht (by rw [e])
    · have hlive : Live a.core t := by
        rcases Book.note_holds ht with hb | ⟨rfl, -⟩
        · exact hc.holds m hm t hb
        · exact h.live
      exact hst.live_on hlive fun v e => absurd ⟨v, e⟩ hr
  · refine (hst.lost ?_).trans hc.lost
    cases act <;> first | exact hact.elim | exact hact | trivial

end Step

/-! ### Nobody is ready -/

section Ready

variable {N m : ℕ} {s : Sched} {a a' : Abs} {bs : ℕ → Book} {act : Act} {t : Tid}

/-- A mutex that is taken has a holder, when no thread is on the way to it. -/
theorem Orderly.holder (hc : Orderly N a bs) (hr : a.queue .ready = []) (hpc : (a.ctx a.run).pc = .user) (hm : m < N)
    (htk : a.core.taken m = true) : ∃ u ∈ (bs m).holds, Live a.core u := by
  have ho : owes m a = [] := by
    rw [owes_user hpc, hr]
    rfl
  have hcount := (hc.tokens m hm).count
  rw [ho, htk] at hcount
  obtain ⟨u, hu⟩ := List.exists_mem_of_length_pos (show 0 < (bs m).holds.length by simp at hcount; omega)
  exact ⟨u, hu, hc.holds m hm u hu⟩

/-- When nobody is ready, every live thread but the running one waits for another live one. -/
theorem Orderly.waiting (hc : Orderly N a bs) (h : Refines s a) (hr : a.queue .ready = [])
    (hpc : (a.ctx a.run).pc = .user) (ht : Live a.core t) (htr : t ≠ a.run) :
    ∃ u, Live a.core u ∧ (Joins a.core u t ∨ ∃ m < N, t ∈ a.queue (.mutex m) ∧ u ∈ (bs m).holds) := by
  rcases h.inv.good.total t ht with hrun | ⟨p, hp⟩
  · exact absurd (List.mem_singleton.mp hrun) htr
  cases p with
  | queue q =>
    have hp : t ∈ a.queue q := hp
    have hne : a.queue q ≠ [] := List.ne_nil_of_mem hp
    obtain ⟨m, hm, rfl⟩ : ∃ m < N, q = .mutex m := by
      by_contra hno
      refine hne (hc.queue q ?_ fun m hm e => hno ⟨m, hm, e⟩)
      rintro rfl
      exact hne hr
    have htk : a.core.taken m = true := by
      rw [← Bool.not_eq_false]
      exact fun hf => hne (hc.idle m hm hf)
    obtain ⟨u, hu, hlive⟩ := hc.holder hr hpc hm htk
    exact ⟨u, hlive, .inr ⟨m, hm, hp, hu⟩⟩
  | join u => exact ⟨u, hp.1, .inl hp⟩
  | lost => exact absurd hp (by simp [Placed, hc.lost])

theorem Refines.waitsOn (h : Refines s a) {u : Tid}
    (hw : Joins a.core u t ∨ ∃ m < N, t ∈ a.queue (.mutex m) ∧ u ∈ (bs m).holds) : WaitsOn N s bs act t u := by
  rcases hw with hj | ⟨m, hm, hq, hu⟩
  · exact .inl (.inl (h.loaded.1.core ▸ hj))
  · exact .inr ⟨m, hm, .inl ⟨_, h.loaded.1.threads.queues.each _, hq⟩, hu⟩

/-- A thread that is about to wait for a live one finds a thread that is ready. -/
theorem Orderly.ready_of_wait (hc : Orderly N a bs) (h : Refines s a) (hpc : (a.ctx a.run).pc = .user)
    (hno : ∀ y, ¬ Relation.TransGen (WaitsOn N s bs act) y y)
    (hw : a.queue .ready = [] → ∃ u, Live a.core u ∧ WaitsOn N s bs act a.run u) : a.queue .ready ≠ [] := by
  intro hr
  obtain ⟨y, hy⟩ := exists_cycle (r := WaitsOn N s bs act) (live_finite a) h.inv.live fun y hy => by
    by_cases hyr : y = a.run
    · rw [hyr]
      exact hw hr
    · obtain ⟨u, hu, hyu⟩ := hc.waiting h hr hpc hy hyr
      exact ⟨u, hu, h.waitsOn hyu⟩
  exact hno y hy

theorem Orderly.ready_of_ret (hc : Orderly N a bs) (h : Refines s a) (hpc : (a.ctx a.run).pc = .user) {v : ℕ}
    (hno : ∀ y, ¬ Relation.TransGen (WaitsOn N s bs (.ret v)) y y) (hmain : mainGreen ≠ a.run)
    (hact : Tidy N a.core (some a.run) bs (.ret v)) : (a.finish v).queue .ready ≠ [] := by
  rw [a.finish_ready v]
  cases hj : a.core.join a.run with
  | some j => simp
  | none =>
    intro hr
    have hr : a.queue .ready = [] := by simpa using hr
    have hfin : {t | Live a.core t ∧ t ≠ a.run}.Finite := (live_finite a).subset fun _ ht => ht.1
    obtain ⟨y, hy⟩ := exists_cycle (r := WaitsOn N s bs (.ret v)) hfin ⟨hc.main, hmain⟩ fun y hy => by
      obtain ⟨u, hu, hyu⟩ := hc.waiting h hr hpc hy.1 hy.2
      refine ⟨u, ⟨hu, ?_⟩, h.waitsOn hyu⟩
      rintro rfl
      -- nobody joins the thread that ends, and it holds no mutex
      rcases hyu with hyj | ⟨m, hm, -, hu⟩
      · exact absurd (hj.symm.trans hyj.2) (by simp)
      · exact hact m hm _ hu rfl
    exact hno y hy

/-- **Whoever takes a thread from the ready queue finds one.** -/
theorem Orderly.dispatch (hc : Orderly N a bs) (h : Refines s a) (hact : Tidy N a.core (some a.run) bs act)
    (hno : ∀ t, ¬ Relation.TransGen (WaitsOn N s bs act) t t) (hen : enabled s.cpu act) (hpr : proper s.core act)
    (hd : dispatches s act = true) : ∃ a', AStep a act a' := by
  have hcore := h.loaded.1.core
  have hrun := h.loaded.1.running
  have hcpu := h.loaded.2
  have hgo : ∀ b : Abs, b.queue .ready ≠ [] → ∃ a', Next b a' := by
    intro b hb
    obtain ⟨n, l, hl⟩ := List.exists_cons_of_ne_nil hb
    exact ⟨_, n, l, hl, rfl⟩
  cases act with
  | yield =>
    obtain ⟨a', hn⟩ := hgo ((a.stop (.yield none)).push .ready a.run) (by simp [Abs.push])
    exact ⟨a', .yield hn⟩
  | timer =>
    obtain ⟨a', hn⟩ := hgo ((a.stop (.yield none)).push .ready a.run) (by simp [Abs.push])
    exact ⟨a', .timer hn⟩
  | join t res =>
    have hz : a.core.zombie t = false := by simpa [dispatches, hcore] using hd
    -- were nobody ready, the wait for `t` would close a circle
    have hready := hc.ready_of_wait h (hcpu ▸ hen) hno fun _ =>
      ⟨t, ⟨hcore ▸ hpr, hz⟩, .inl (.inr ⟨rfl, hrun, hcore ▸ hz⟩)⟩
    obtain ⟨a', hn⟩ := hgo ((a.stop (.join t res)).await t) hready
    exact ⟨a', .joinWait hz hn⟩
  | lock x =>
    have htk : a.core.taken x = true := by simpa [dispatches, hcore] using hd
    have hpc : (a.ctx a.run).pc = .user := hcpu ▸ hen
    -- likewise with the holder of `x`
    have hready := hc.ready_of_wait h hpc hno fun hr => by
      obtain ⟨u, hu, hlive⟩ := hc.holder hr hpc hact htk
      exact ⟨u, hlive, .inr ⟨x, hact, .inr ⟨rfl, hrun⟩, hu⟩⟩
    obtain ⟨a', hn⟩ := hgo ((a.stop (.lock x)).push (.mutex x) a.run) (by simpa [Abs.push, Abs.stop, Abs.onCtx])
    exact ⟨a', .lockWait htk hn⟩
  | ret v =>
    have hmain : mainGreen ≠ a.run := by
      intro hr
      refine hen.2 ?_
      rw [hcpu, ← hr]
      exact hc.this.1
    obtain ⟨a', hn⟩ := hgo (a.finish v) (hc.ready_of_ret h (hcpu ▸ hen.1) hno hmain hact)
    exact ⟨a', .ret hn⟩
  | resume =>
    simp only [dispatches, hcpu] at hd
    split at hd
    · next hpc => exact absurd hpc (hc.pc a.run h.inv.live _ _)
    · exact absurd hd (by simp)
  | create _ _ _ | unlock _ => exact absurd hd (by simp [dispatches])
  | _ => exact hact.elim

end Ready

/-! ### Runs -/

section Runs

variable {N : ℕ} {s₀ s s' : Sched} {a a' : Abs} {bs : ℕ → Book} {act : Act} {tr : List ((Sched × (ℕ → Book)) × Act)}

theorem recordAll_eq (h : Refines s a) (h' : Refines s' a') : recordAll s act s' bs = a.noteAll act a' bs :=
  funext fun _ => record_eq h h'

theorem recordAll_blind : Blind recordAll := by
  refine ⟨fun s v s' t bs => funext fun m => ?_, fun s v e s' bs hpc => funext fun m => ?_⟩
  · unfold recordAll record
    cases s.running <;> rfl
  · unfold recordAll record
    cases s.running with
    | none => rfl
    | some r => simp [Book.note, hpc]

/-- **The run lemma**, for properties of the scheduler and the books. -/
theorem recordAll_run {P : Abs → (ℕ → Book) → Prop} (h0 : s₀.Initial) (hP0 : P s₀.abs fun _ => .empty)
    (hp : Path (withHistory FineStep recordAll) (s₀, fun _ => .empty) tr (s, bs))
    (hq : ∀ y act, (y, act) ∈ tr → Undisturbed y.1 act) (he : s.cpu.pc.ending = none)
    (hP : ∀ y act, (y, act) ∈ tr → ∀ a a', Refines y.1 a → enabled (a.ctx a.run) act → proper a.core act →
      AStep a act a' → P a y.2 → P a' (a.noteAll act a' y.2)) : ∃ a, Refines s a ∧ P a bs := by
  refine (undisturbed_run recordAll_blind h0 hp hq he).invariant (I := fun y => ∃ a, Refines y.1 a ∧ P a y.2)
    ⟨_, initial_refines h0, hP0⟩ ?_
  rintro y act y' hm ⟨a, ha, hPa⟩ ⟨hst, hy'⟩
  obtain ⟨a', hst', ha'⟩ := step_refines ha hst
  refine ⟨a', ha', ?_⟩
  rw [hy', recordAll_eq ha ha']
  exact hP y act (List.mem_of_mem_filter hm) a a' ha (ha.loaded.2 ▸ hst.1) (ha.loaded.1.core ▸ hst.2.1) hst' hPa

theorem orderly_initial (h0 : s₀.Initial) : Orderly N s₀.abs fun _ => .empty := by
  refine ⟨fun _ _ _ => rfl, ⟨by simp [Sched.abs, h0.created], h0.zombie⟩, ?_, fun t _ c m => ?_,
    fun _ _ => tokens_initial h0, fun _ _ _ => rfl, fun _ _ t ht => absurd ht (by simp [Book.empty]), rfl⟩ <;>
    simp [Sched.abs, h0.cpu]

theorem Orderly.switches (hc : Orderly N a bs) (h : Refines s a) (hact : Tidy N s.core s.running bs act)
    (hno : ∀ t, ¬ Relation.TransGen (WaitsOn N s bs act) t t) (hen : enabled s.cpu act) (hpr : proper s.core act)
    (hd : dispatches s act = true) : ∃ s' n, Step s act s' ∧ s'.running = some n := by
  rw [h.loaded.1.core, h.loaded.1.running] at hact
  obtain ⟨a', hst⟩ := hc.dispatch h hact hno hen hpr hd
  obtain ⟨s', hs'⟩ := can_step h hen hpr hst
  obtain ⟨a'', -, ha'⟩ := step_refines h hs'
  exact ⟨s', _, hs', ha'.loaded.1.running⟩

/-- **No deadlock without a circle.**  Threads are created, yield, are interrupted (but not at the end of
`green_thread`), join, end, lock and unlock.  Every operation that takes a thread from the ready queue gets one and
switches to it, as long as no threads, the caller included, wait for each other in a circle: for the end of a thread, or
for a mutex that a thread holds. -/
theorem no_deadlock (h0 : s₀.Initial) (hp : Path (withHistory FineStep recordAll) (s₀, fun _ => .empty) tr (s, bs))
    (hq : ∀ y act, (y, act) ∈ tr → Undisturbed y.1 act) (he : s.cpu.pc.ending = none)
    (htr : ∀ y act, (y, act) ∈ tr → Tidy N y.1.core y.1.running y.2 act) (hact : Tidy N s.core s.running bs act)
    (hno : ∀ t, ¬ Relation.TransGen (WaitsOn N s bs act) t t) (hen : enabled s.cpu act) (hpr : proper s.core act)
    (hd : dispatches s act = true) : ∃ s' n, Step s act s' ∧ s'.running = some n := by
  obtain ⟨a, ha, hc⟩ := recordAll_run h0 (orderly_initial (N := N) h0) hp hq he
    fun y act hm a a' ha hen hpr hst hc => by
      have hy := htr y act hm
      rw [ha.loaded.1.core, ha.loaded.1.running] at hy
      exact hc.step ha.inv hen hpr hst hy
  exact hc.switches ha hact hno hen hpr hd

end Runs

/-- Thread 3 has ended.  `main` waits for thread 1, which holds mutex 0.  Thread 2 holds mutex 1 and locks mutex 0. -/
theorem no_deadlock_two : ∃ tr s bs s' n,
    Path (withHistory FineStep recordAll) (Sched.start, fun _ => .empty) tr (s, bs) ∧ Ended s.core 3 ∧
      Joins s.core 1 0 ∧ (bs 0).holds = [1] ∧ (bs 1).holds = [2] ∧ Step s (.lock 0) s' ∧ s'.running = some n := by
  obtain ⟨tr, ⟨s, bs⟩, hp, htest⟩ := exists_path (recorded_step nextFine_step recordAll)
    (Sched.start, fun _ : ℕ => Book.empty)
    ([.create 3 1 0, .join 3 (some 0), .resume, .ret 5] ++ List.replicate 13 .resume ++
      [.create 1 1 0, .create 2 1 0, .join 1 (some 0), .resume, .lock 0, .yield, .resume, .lock 1])
    (fun x => decide ((∀ y ∈ x.1, Undisturbed y.1.1 y.2 ∧ Tidy 2 y.1.1.core y.1.1.running y.1.2 y.2) ∧
      (x.2.2 0).holds = [1] ∧ (x.2.2 1).holds = [2] ∧ Ended x.2.1.core 3 ∧ Live x.2.1.core 1 ∧
      x.2.1.core.join 1 = some 0 ∧
      (∀ u ∈ x.2.1.core.created, x.2.1.core.zombie u = false → ∀ j ∈ x.2.1.core.join u, j = 0 ∧ u = 1) ∧
      (∀ m ∈ List.range 2, x.2.1.head (.mutex m) = none) ∧ x.2.1.running = some 2 ∧ x.2.1.cpu.pc = .user ∧
      x.2.1.core.taken 0 = true)) (by decide +kernel)
  obtain ⟨htr, h0, h1, hended, hlive, hj, hjoins, hhead, hrun, hpc, htk⟩ := of_decide_eq_true htest
  have h0 : (bs 0).holds = [1] := h0
  have hrun : s.running = some 2 := hrun
  -- both that wait are below thread 1
  have hno : ∀ t, ¬ Relation.TransGen (WaitsOn 2 s bs (.lock 0)) t t := by
    refine no_cycle (fun t => if t = 1 then 1 else 0) ?_
    rintro j t ((⟨⟨ht, hz⟩, hjt⟩ | ⟨ha, -⟩) | ⟨m, hm, ⟨l, hl, hjl⟩ | ⟨ha, hr⟩, ht⟩)
    · obtain ⟨rfl, rfl⟩ := hjoins t ht hz j hjt
      decide
    · exact absurd ha (by simp [Act.joined])
    · have hnone : s.head (.mutex m) = none := hhead m (List.mem_range.mpr hm)
      rw [hnone] at hl
      rw [hl.eq_nil] at hjl
      exact absurd hjl (by simp)
    · obtain rfl := Act.lock.inj ha
      rw [h0] at ht
      obtain rfl := List.mem_singleton.mp ht
      obtain rfl := Option.some.inj (hrun.symm.trans hr)
      decide
  obtain ⟨s', n, hst, hn⟩ := no_deadlock Sched.start_initial hp (fun y act hm => (htr _ hm).1)
    (congrArg Pc.ending hpc) (fun y act hm => (htr _ hm).2) (show Tidy 2 _ _ _ (.lock 0) from Nat.zero_lt_two) hno hpc
    trivial htk
  exact ⟨tr, s, bs, s', n, hp, hended, ⟨hlive, hj⟩, h0, h1, hst, hn⟩

end Seminars.Green
