import Seminars.Green.Epilogue
import Seminars.Green.Overtake
import Seminars.Green.Partition

/-!
# Seminars.Green.Joiners — calls of `green_join`

What a run says about them is read off its trace: the threads joined (`calls`), the threads that were put into the
ready queue while they waited in `green_join` (`released`), the contexts freed (`freed`).  The end of `green_thread` is
executed statement by statement.

* `JoinInv` is the invariant of a run in which no thread is joined twice; `JoinInv.step` is its step lemma.
* `JoinInv.place`: where a thread is that waits; `releases_iff`: who is released by a step.
* What the trace names is what the steps do: `ready_step` for the ready queue, `frees_iff` for the contexts.
* `JoinTame`: the invariant when a thread is at the end of `green_thread`.
* `join_run`: then every joiner is released once, when the thread joined ends, and no context is freed twice.
-/

namespace Seminars.Green

open Seminars.Lib

/-- The thread that `j` waits for, suspended in `green_join`. -/
def joining (s : Sched) (j : Tid) : Option Tid :=
  if s.running = some j ∨ ¬ Live s.core j then none
  else
    match s.context j with
    | some ⟨_, _, .join t _, _⟩ => some t
    | _ => none

/-- `j`, if it is in `green_join`, and the thread that it joined. -/
def waiter (s : Sched) (j : Option Tid) : Option (Tid × Tid) := j.bind fun j => (joining s j).map fun t => (j, t)

/-- The thread for which the step calls `enqueue(&ready_queue, …)`; in `green_thread` this is a statement. -/
def putting (s : Sched) : Act → Option Tid
  | .ret _ => none
  | .resume =>
    match s.cpu.pc with
    | .epi _ .call => s.cpu.this.bind s.core.join
    | _ => none
  | act => entering s act

/-- The thread whose context the step frees. -/
def frees (s : Sched) : Act → Option Tid
  | .join t _ => if s.core.zombie t = true then some t else none
  | .resume =>
    match s.cpu.pc with
    | .join t _ => some t
    | _ => none
  | _ => none

def calls (tr : List (Sched × Act)) : List Tid := tr.filterMap fun x => x.2.joined

def released (tr : List (Sched × Act)) : List (Tid × Tid) := tr.filterMap fun x => waiter x.1 (putting x.1 x.2)

def freed (tr : List (Sched × Act)) : List Tid := tr.filterMap fun x => frees x.1 x.2

/-- `t` has ended, or it is at the end of `green_thread` and has called `enqueue` for its joiner. -/
def Gone (s : Sched) (t : Tid) : Prop :=
  s.core.zombie t = true ∨ s.cpu.owner = t ∧ ∃ v e, s.cpu.pc = .epi v e ∧ e.called = true

/-- **The joiners of a run** that has reached `s`, where `act` is next: a thread is released once at most; one that
waits has been released, and is ready, exactly when the thread it joined has ended; joining a thread that has ended
suspends nobody; a context is freed once at most, and `frees` names the thread whose context the step frees. -/
structure Released (tr : List (Sched × Act)) (s : Sched) (act : Act) : Prop where
  once : (released tr).Nodup
  ended : ∀ j t, joining s j = some t → ((j, t) ∈ released tr ↔ Gone s t)
  ready : s.cpu.pc.ending = none → ∀ ready, IsQueue s.next (s.head .ready) ready → ∀ j t, joining s j = some t →
    (j ∈ ready ↔ s.core.zombie t = true)
  zombie : ∀ t res s', act = .join t res → s.core.zombie t = true → FineStep s act s' →
    s'.running = s.running ∧ s'.cpu.pc = .user
  context : Undisturbed s act → ∀ s', FineStep s act s' → ∀ t ∈ s.core.created,
    (frees s act = some t ↔ s.context t ≠ none ∧ s'.context t = none)
  freed : (freed (tr ++ [(s, act)])).Nodup

/-- What has been called, released and freed. -/
structure Ledger where
  calls : List Tid
  released : List (Tid × Tid)
  freed : List Tid

/-- After a step that executes the end of `green_thread` as a whole. -/
def Ledger.note (l : Ledger) (s : Sched) (act : Act) : Ledger where
  calls := l.calls ++ act.joined.toList
  released := l.released ++ (waiter s (entering s act)).toList
  freed := l.freed ++ (frees s act).toList

/-- **The invariant.** -/
structure JoinInv (l : Ledger) (a : Abs) : Prop where
  called : ∀ u j, Joins a.core u j → u ∈ l.calls
  lost : ∀ j ∈ a.lost, ∀ t res, (a.ctx j).pc ≠ .join t res
  waits : ∀ j t res, Live a.core j → (a.ctx j).pc = .join t res →
    t ∈ l.calls ∧ t ∉ l.freed ∧ t ∈ a.core.created ∧ ((j, t) ∈ l.released ↔ Ended a.core t)
  one : ∀ j j' t res res', Live a.core j → Live a.core j' → (a.ctx j).pc = .join t res →
    (a.ctx j').pc = .join t res' → j = j'
  once : l.freed.Nodup ∧ ∀ t ∈ l.freed, t ∈ l.calls
  released : l.released.Nodup ∧ ∀ x ∈ l.released, x.2 ∈ l.calls ∧ Ended a.core x.2

section Step

variable {s s' : Sched} {a a' : Abs} {act : Act} {l : Ledger} {j t : Tid}

/-- A suspended thread's place in the code is in its saved context. -/
theorem joining_iff (h : Refines s a) :
    joining s j = some t ↔ (Live a.core j ∧ j ≠ a.run) ∧ ∃ res, (a.ctx j).pc = .join t res := by
  unfold joining
  rw [h.loaded.1.running, h.loaded.1.core]
  by_cases hj : some a.run = some j ∨ ¬ Live a.core j
  · rw [if_pos hj]
    refine ⟨fun h => absurd h (by simp), fun ⟨⟨hl, hr⟩, _⟩ => ?_⟩
    rcases hj with hj | hj
    · exact absurd (Option.some.inj hj).symm hr
    · exact absurd hl hj
  · rw [if_neg hj]
    obtain ⟨hr, hl⟩ := not_or.mp hj
    have hl := not_not.mp hl
    have hr : j ≠ a.run := fun e => hr (by rw [e])
    rw [h.loaded.1.saved j hl hr]
    refine Iff.trans ?_ (and_iff_right ⟨hl, hr⟩).symm
    rcases hc : a.ctx j with ⟨o, th, pc, b⟩
    cases pc <;> simp

/-- Who waits for a condition or a mutex does not wait for a thread. -/
theorem Good.not_join {F : List Tid} (hg : Good a F) {q : QRef} (hq : q ≠ .ready) (hm : j ∈ a.queue q)
    {res : Option ℕ} : (a.ctx j).pc ≠ .join t res := by
  intro hpc
  have hs := (hg.waits j (.queue q) hm).2
  rw [hpc] at hs
  cases q with
  | ready => exact hq rfl
  | cond c => obtain ⟨m, hm⟩ := hs; cases hm
  | mutex m => rcases hs with hs | hs <;> cases hs

/-- Whoever ends releases the thread that joined it, and nobody else is released. -/
theorem releases_iff (h : Refines s a) (hen : enabled s.cpu act) (hpr : proper s.core act) :
    waiter s (entering s act) = some (j, t) ↔ (∃ v, act = .ret v) ∧ t = a.run ∧ a.core.join a.run = some j := by
  have hg := h.inv.good
  have hcore := h.loaded.1.core
  have hhead := fun q => h.loaded.1.threads.queues.head_eq q
  have hsplit : waiter s (entering s act) = some (j, t) ↔ entering s act = some j ∧ joining s j = some t := by
    simp only [waiter, Option.bind_eq_some_iff, Option.map_eq_some_iff, Prod.mk.injEq]
    constructor
    · rintro ⟨x, hx, y, hy, rfl, rfl⟩
      exact ⟨hx, hy⟩
    · rintro ⟨hx, hy⟩
      exact ⟨j, hx, t, hy, rfl, rfl⟩
  rw [hsplit, joining_iff h]
  constructor
  · rintro ⟨he, ⟨hl, hr⟩, res, hpc⟩
    -- a thread that waits in a join stands in no other queue
    have hqueue : ∀ q, q ≠ .ready → s.head q ≠ some j := by
      intro q hq hh
      exact hg.not_join hq (List.mem_of_head? ((hhead q).symm.trans hh)) hpc
    cases act with
    | create new fn arg =>
      obtain rfl := Option.some.inj he
      exact absurd hl.1 (hcore ▸ hpr)
    | yield | timer => exact absurd (Option.some.inj (h.loaded.1.running.symm.trans he)).symm hr
    | condWait c m =>
      cases m with
      | none => exact absurd he (by simp [entering])
      | some m => exact absurd he (hqueue _ (by simp))
    | condSignal c => exact absurd he (hqueue _ (by simp))
    | unlock m => exact absurd he (hqueue _ (by simp))
    | ret v =>
      rw [entering, h.this hen.2, hcore] at he
      -- `this->join` is the thread that waits for this one
      have hat := hg.waits j (.join a.run) ⟨h.inv.live, he⟩
      obtain ⟨res', hpc'⟩ := hat.2
      rw [hpc] at hpc'
      cases hpc'
      exact ⟨⟨v, rfl⟩, rfl, he⟩
    | _ => exact absurd he (by simp [entering])
  · rintro ⟨⟨v, rfl⟩, rfl, hj⟩
    have hat : Placed a j (.join a.run) := ⟨h.inv.live, hj⟩
    refine ⟨?_, ⟨hg.placed j _ hat, fun e => ?_⟩, (hg.waits j _ hat).2⟩
    · rw [entering, h.this hen.2, hcore]
      exact hj
    · exact h.inv.not_placed _ (e ▸ hat)

/-- Who is in `green_join` after a step was there before or has just been suspended. -/
theorem AStep.joining (hst : AStep a act a') (h : AInv a) (hen : enabled (a.ctx a.run) act)
    (hpr : proper a.core act) {res : Option ℕ} (hl : Live a'.core j) (hpc : (a'.ctx j).pc = .join t res) :
    (j ≠ a.run ∧ Live a.core j ∧ (a.ctx j).pc = .join t res) ∨
      (j = a.run ∧ act = .join t res ∧ a.core.zombie t = false) := by
  by_cases hjr : j = a.run
  · subst hjr
    refine .inr ⟨rfl, ?_⟩
    have hlands := hst.lands h hen hpr
    rw [hpc] at hlands
    cases act with
    | join u res' =>
      rcases hlands with e | e
      · cases e
      · cases e
        refine ⟨rfl, ?_⟩
        cases hst with
        | joinWait hz _ => exact hz
        | joinNow _ _ => exact absurd hpc (by simp [Abs.leave, Abs.onCtx, Abs.collect])
    | ret v =>
      rw [hst.core] at hl
      exact absurd rfl (Good.live_bury.mp hl).2
    | lock m => rcases hlands with e | e <;> cases e
    | resume => rcases hlands with e | ⟨_, _, _, e⟩ <;> cases e
    | _ => cases hlands
  · by_cases hc : j ∈ a.core.created
    · rw [hst.ctx hpr hc hjr] at hpc
      exact .inl ⟨hjr, hst.live hpr hc hl, hpc⟩
    · rw [hst.spawned hl.1 hc hjr] at hpc
      cases hpc

/-- Who is lost was lost before, or waited for a condition, a mutex or a thread that is joined again. -/
theorem AStep.lost_mem (hst : AStep a act a') (hj : j ∈ a'.lost) :
    j ∈ a.lost ∨ (∃ q, q ≠ .ready ∧ j ∈ a.queue q) ∨
      ∃ u res, act = .join u res ∧ a.core.zombie u = false ∧ a.core.join u = some j := by
  cases hst with
  | yield hn | timer hn | lockWait _ hn | resumeRewait _ _ hn => exact .inl (hn.lost ▸ hj)
  | @joinWait u res _ hz hn =>
    rw [hn.lost] at hj
    rcases List.mem_append.mp hj with hj | hj
    · exact .inr (.inr ⟨u, res, rfl, hz, Option.mem_toList.mp hj⟩)
    · exact .inl hj
  | condInit | mutexInit =>
    rcases List.mem_append.mp hj with hj | hj
    · exact .inr (.inl ⟨_, by simp, hj⟩)
    · exact .inl hj
  | @condWait c m _ hn =>
    rw [hn.lost] at hj
    cases m with
    | none => exact .inl hj
    | some m =>
      rcases List.mem_append.mp hj with hj | hj
      · refine .inr (.inl ⟨.mutex m, by simp, ?_⟩)
        rw [Abs.wake_queue _ _ (by simp), if_pos rfl] at hj
        simpa [Abs.setTaken, Abs.push, Abs.stop, Abs.onCtx] using List.mem_of_mem_tail hj
      · rw [Abs.wake_lost] at hj
        exact .inl hj
  | signal _ | unlockPass _ => exact .inl (a.wake_lost _ ▸ hj)
  | @ret v _ hn =>
    rw [hn.lost] at hj
    unfold Abs.finish at hj
    split at hj <;> exact .inl hj
  | _ => exact .inl hj

theorem AStep.ended_mono (hst : AStep a act a') (hpr : proper a.core act) (ht : Ended a.core t) : Ended a'.core t := by
  refine (live_or_ended (hst.created_mono ht.1)).resolve_left fun hl => ?_
  exact (hst.live hpr ht.1 hl).not_ended ht

theorem AStep.ended_ret {v : ℕ} (hst : AStep a (.ret v) a') (h : AInv a) : Ended a'.core a.run := by
  rw [hst.core]
  exact ⟨h.live.1, by simp [Abs.coreAfter, Abs.bury, Core.setZombie]⟩

/-- Who waits in `green_join` is in the `join` field of the thread joined, and is ready once that has ended. -/
theorem JoinInv.place (hi : JoinInv l a) (h : AInv a) {res : Option ℕ} (hl : Live a.core j) (hjr : j ≠ a.run)
    (hpc : (a.ctx j).pc = .join t res) :
    (Live a.core t ∧ a.core.join t = some j ∧ j ∉ a.queue .ready) ∨ (Ended a.core t ∧ j ∈ a.queue .ready) := by
  rcases h.good.total j hl with hr | ⟨p, hp⟩
  · exact absurd (List.mem_singleton.mp hr) hjr
  have hs := (h.good.waits j p hp).2
  rw [hpc] at hs
  cases p with
  | queue q =>
    by_cases hq : q = .ready
    · subst hq
      exact .inr ⟨hs, hp⟩
    · exact absurd hpc (h.good.not_join hq hp)
  | join u =>
    obtain ⟨res', hres⟩ := hs
    cases hres
    exact .inl ⟨hp.1, hp.2, fun hr => absurd (h.good.one j _ (.queue .ready) hp hr) (by simp)⟩
  | lost => exact absurd hpc (hi.lost j hp _ _)

theorem nodup_append_option {α : Type} {l : List α} {o : Option α} (hl : l.Nodup) (ho : ∀ x, o = some x → x ∉ l) :
    (l ++ o.toList).Nodup := by
  cases o with
  | none => simpa using hl
  | some x => simpa [List.nodup_append] using ⟨hl, fun y hy e => ho x rfl (e ▸ hy)⟩

/-- A context is freed by a new call or at the end of an old one. -/
theorem frees_cases (h : Refines s a) (hf : frees s act = some t) :
    act.joined = some t ∨ ∃ res, (a.ctx a.run).pc = .join t res := by
  cases act with
  | join u res =>
    simp only [frees] at hf
    split_ifs at hf
    exact .inl hf
  | resume =>
    rw [frees, h.loaded.2] at hf
    split at hf
    · next hpc =>
      obtain rfl := Option.some.inj hf
      exact .inr ⟨_, hpc⟩
    · exact absurd hf (by simp)
  | _ => exact absurd hf (by simp [frees])

theorem JoinInv.freed_nodup (hi : JoinInv l a) (h : Refines s a) (hnd : (l.note s act).calls.Nodup) :
    (l.note s act).freed.Nodup := by
  refine nodup_append_option hi.once.1 fun u hu hm => ?_
  rcases frees_cases h hu with hu | ⟨res, hpc⟩
  · exact List.disjoint_of_nodup_append hnd (hi.once.2 u hm) (Option.mem_toList.mpr hu)
  · exact (hi.waits a.run u res h.inv.live hpc).2.1 hm

/-- What is said of the threads that wait in `green_join`. -/
theorem waits_step (hi : JoinInv l a) (h : Refines s a) (hen : enabled s.cpu act) (hpr : proper s.core act)
    (hst : AStep a act a') (hfresh : ∀ u, act.joined = some u → u ∉ l.calls) {res : Option ℕ}
    (hl : Live a'.core j) (hpc : (a'.ctx j).pc = .join t res) :
    t ∈ (l.note s act).calls ∧ t ∉ (l.note s act).freed ∧ t ∈ a'.core.created ∧
      ((j, t) ∈ (l.note s act).released ↔ Ended a'.core t) := by
  have hen' : enabled (a.ctx a.run) act := h.loaded.2 ▸ hen
  have hpr' : proper a.core act := h.loaded.1.core ▸ hpr
  simp only [Ledger.note, List.mem_append, Option.mem_toList]
  rcases hst.joining h.inv hen' hpr' hl hpc with ⟨hjr, hl, hpc⟩ | ⟨rfl, rfl, hz⟩
  · obtain ⟨hc, hf, ht, hr⟩ := hi.waits j t res hl hpc
    refine ⟨.inl hc, ?_, hst.created_mono ht, ?_, fun he => ?_⟩
    · rintro (hm | hm)
      · exact hf hm
      · rcases frees_cases h hm with hm | ⟨res', hm⟩
        · exact hfresh t hm hc
        · exact hjr (hi.one j a.run t res res' hl h.inv.live hpc hm)
    · rintro (hm | hm)
      · exact hst.ended_mono hpr' (hr.mp hm)
      · obtain ⟨⟨v, rfl⟩, rfl, -⟩ := (releases_iff h hen hpr).mp hm
        exact hst.ended_ret h.inv
    · rcases hst.ended he with ⟨he, -⟩ | ⟨v, rfl, rfl, -⟩
      · exact .inl (hr.mpr he)
      · rcases hi.place h.inv hl hjr hpc with ⟨-, hj, -⟩ | ⟨he, -⟩
        · exact .inr ((releases_iff h hen hpr).mpr ⟨⟨v, rfl⟩, rfl, hj⟩)
        · exact absurd he h.inv.live.not_ended
  · -- the thread has just been suspended, so nobody has joined `t` before
    have hc := hfresh t rfl
    refine ⟨.inr rfl, ?_, hst.created_mono hpr', ?_, fun he => ?_⟩
    · rintro (hm | hm)
      · exact hc (hi.once.2 t hm)
      · exact absurd hm (by simp [frees, h.loaded.1.core, hz])
    · rintro (hm | hm)
      · exact absurd (hi.released.2 _ hm).1 hc
      · obtain ⟨⟨v, hv⟩, -⟩ := (releases_iff h hen hpr).mp hm
        cases hv
    · rcases hst.ended he with ⟨he, -⟩ | ⟨v, hv, -⟩
      · cases hz.symm.trans he.2
      · cases hv

/-- What is said of the threads that have been released. -/
theorem released_step (hi : JoinInv l a) (h : Refines s a) (hen : enabled s.cpu act) (hpr : proper s.core act)
    (hst : AStep a act a') : (l.note s act).released.Nodup ∧
      ∀ x ∈ (l.note s act).released, x.2 ∈ (l.note s act).calls ∧ Ended a'.core x.2 := by
  have hpr' : proper a.core act := h.loaded.1.core ▸ hpr
  refine ⟨nodup_append_option hi.released.1 fun x hx hm => ?_, fun x hx => ?_⟩
  · obtain ⟨-, hxr, -⟩ := (releases_iff (j := x.1) (t := x.2) h hen hpr).mp hx
    have he := (hi.released.2 x hm).2
    rw [hxr] at he
    exact absurd he h.inv.live.not_ended
  · simp only [Ledger.note, List.mem_append, Option.mem_toList] at hx ⊢
    rcases hx with hx | hx
    · obtain ⟨hc, he⟩ := hi.released.2 x hx
      exact ⟨.inl hc, hst.ended_mono hpr' he⟩
    · obtain ⟨⟨v, rfl⟩, hxr, hj⟩ := (releases_iff (j := x.1) (t := x.2) h hen hpr).mp hx
      rw [hxr]
      exact ⟨.inl (hi.called a.run x.1 ⟨h.inv.live, hj⟩), hst.ended_ret h.inv⟩

/-- **The step lemma.** -/
theorem JoinInv.step (hi : JoinInv l a) (h : Refines s a) (hen : enabled s.cpu act) (hpr : proper s.core act)
    (hst : AStep a act a') (hnd : (l.note s act).calls.Nodup) : JoinInv (l.note s act) a' := by
  have hg := h.inv.good
  have hen' : enabled (a.ctx a.run) act := h.loaded.2 ▸ hen
  have hpr' : proper a.core act := h.loaded.1.core ▸ hpr
  have hfresh : ∀ u, act.joined = some u → u ∉ l.calls := fun u hu hc =>
    List.disjoint_of_nodup_append hnd hc (Option.mem_toList.mpr hu)
  have hplaced : ∀ {j p}, Placed a j p → a'.ctx j = a.ctx j := by
    intro j p hp
    exact hst.ctx hpr' (hg.placed j p hp).1 fun e => h.inv.not_placed p (e ▸ hp)
  refine ⟨fun u j hu => ?_, fun j hj t res => ?_, fun j t res hl hpc => waits_step hi h hen hpr hst hfresh hl hpc,
    fun j j' t res res' hl hl' hpc hpc' => ?_, ⟨hi.freed_nodup h hnd, fun t ht => ?_⟩, released_step hi h hen hpr hst⟩
  · rw [Ledger.note, List.mem_append]
    rcases hst.joins hu with hu | ⟨res, rfl, -⟩
    · exact .inl (hi.called u j hu)
    · exact .inr (by simp [Act.joined])
  · rcases hst.lost_mem hj with hj | ⟨q, hq, hj⟩ | ⟨u, res', rfl, hz, hj⟩
    · rw [hplaced (p := .lost) hj]
      exact hi.lost j hj t res
    · rw [hplaced (p := .queue q) hj]
      exact hg.not_join hq hj
    · exact absurd (hi.called u j ⟨⟨hpr', hz⟩, hj⟩) (hfresh u rfl)
  · have hold : ∀ {j res}, Live a.core j → (a.ctx j).pc = .join t res → act.joined ≠ some t :=
      fun hl hpc he => hfresh t he (hi.waits _ t _ hl hpc).1
    rcases hst.joining h.inv hen' hpr' hl hpc with ⟨-, hl, hpc⟩ | ⟨hj, hact, -⟩ <;>
      rcases hst.joining h.inv hen' hpr' hl' hpc' with ⟨-, hl', hpc'⟩ | ⟨hj', hact', -⟩
    · exact hi.one j j' t res res' hl hl' hpc hpc'
    · exact absurd (by rw [hact']; rfl) (hold hl hpc)
    · exact absurd (by rw [hact]; rfl) (hold hl' hpc')
    · rw [hj, hj']
  · simp only [Ledger.note, List.mem_append, Option.mem_toList] at ht ⊢
    rcases ht with ht | ht
    · exact .inl (hi.once.2 t ht)
    · rcases frees_cases h ht with hu | ⟨res, hpc⟩
      · exact .inr hu
      · exact .inl (hi.waits a.run t res h.inv.live hpc).1

theorem Next.freed (hn : Next a a') : a'.freed = a.freed := by
  obtain ⟨n, l, -, rfl⟩ := hn
  rfl

theorem Abs.wake_freed (a : Abs) (q : QRef) : (a.wake q).freed = a.freed := by
  unfold wake
  split <;> rfl

theorem Abs.release_freed (a : Abs) (m : Option ℕ) : (a.release m).freed = a.freed := by
  cases m with
  | none => rfl
  | some m => exact wake_freed _ _

/-- A context is freed at the end of `green_join`. -/
theorem AStep.freed (hst : AStep a act a') (ht : a'.freed t = true) : a.freed t = true ∨
    (∃ res, act = .join t res ∧ a.core.zombie t = true) ∨ act = .resume ∧ ∃ res, (a.ctx a.run).pc = .join t res := by
  have hcollect : ∀ u res, (a.collect u res).freed t = true → a.freed t = true ∨ u = t := by
    intro u res hf
    by_cases hu : t = u
    · exact .inr hu.symm
    · simp only [Abs.collect, Function.update_of_ne hu] at hf
      exact .inl hf
  cases hst with
  | @create new fn arg =>
    by_cases hne : t = new
    · subst hne
      exact absurd ht (by simp [Abs.mask, Abs.onCtx, Abs.push, Abs.spawn])
    · exact .inl (by simpa [Abs.mask, Abs.onCtx, Abs.push, Abs.spawn, hne] using ht)
  | yield hn | timer hn | joinWait _ hn | lockWait _ hn | resumeRewait _ _ hn =>
    rw [hn.freed] at ht
    exact .inl ht
  | @joinNow u res hz _ =>
    rcases hcollect u res ht with hf | rfl
    · exact .inl hf
    · exact .inr (.inl ⟨res, rfl, hz⟩)
  | condWait hn =>
    rw [hn.freed, Abs.release_freed] at ht
    exact .inl ht
  | signal _ | unlockPass _ => exact .inl ((Abs.wake_freed a _).symm ▸ ht)
  | @ret v _ hn =>
    rw [hn.freed] at ht
    unfold Abs.finish at ht
    split at ht <;> exact .inl ht
  | @resumeJoin u res hpc _ =>
    rcases hcollect u res ht with hf | rfl
    · exact .inl hf
    · exact .inr (.inr ⟨rfl, res, hpc⟩)
  | _ => exact .inl ht

/-- **The context freed**: a step of the library frees the context of the thread that `frees` names, which was there,
and no other. -/
theorem frees_iff (h : Refines s a) (hst : Step s act s') (ht : t ∈ s.core.created) :
    frees s act = some t ↔ s.context t ≠ none ∧ s'.context t = none := by
  obtain ⟨a', hst', h'⟩ := step_refines h hst
  have hcore := h.loaded.1.core
  have hc : t ∈ a.core.created := hcore ▸ ht
  rw [Ne, h.loaded.1.alloc t hc, h'.loaded.1.alloc t (hst'.created_mono hc)]
  constructor
  · intro hf
    cases hst' with
    | @joinNow u res hz hcol =>
      obtain rfl : u = t := by simpa [frees, hcore, hz] using hf
      exact ⟨by simp [hcol.2], by simp [Abs.leave, Abs.onCtx, Abs.collect]⟩
    | @resumeJoin u res hpc hcol =>
      obtain rfl : u = t := by simpa [frees, h.loaded.2, hpc] using hf
      exact ⟨by simp [hcol.2], by simp [Abs.leave, Abs.onCtx, Abs.collect]⟩
    | joinWait hz _ => simp [frees, hcore, hz] at hf
    | resumeStart hpc _ | resumeYield hpc | resumeWait hpc | resumeTake hpc _ | resumeRewait hpc _ _ =>
      simp [frees, h.loaded.2, hpc] at hf
    | resumeLocked hpc => rcases hpc with hpc | hpc <;> simp [frees, h.loaded.2, hpc] at hf
    | _ => simp [frees] at hf
  · rintro ⟨hf, hf'⟩
    rcases hst'.freed hf' with hf' | ⟨res, rfl, hz⟩ | ⟨rfl, res, hpc⟩
    · exact absurd hf' hf
    · simp [frees, hcore, hz]
    · simp [frees, h.loaded.2, hpc]

end Step

/-! ### Runs -/

section Runs

variable {s₀ s s' t : Sched} {a : Abs} {l : Ledger} {v : ℕ} {e : Epi} {act : Act} {tr : List (Sched × Act)}

/-- What a run has called, released and freed. -/
def ledger (tr : List (Sched × Act)) : Ledger := ⟨calls tr, released tr, freed tr⟩

theorem ledger_snoc (tr : List (Sched × Act)) (s : Sched) (act : Act) : ledger (tr ++ [(s, act)]) =
    ⟨calls tr ++ act.joined.toList, released tr ++ (waiter s (putting s act)).toList,
      freed tr ++ (frees s act).toList⟩ := by
  have hlist : ∀ {α : Type} (f : Sched × Act → Option α),
      (tr ++ [(s, act)]).filterMap f = tr.filterMap f ++ (f (s, act)).toList := by
    intro α f
    cases hf : f (s, act) <;> simp [hf]
  simp only [ledger, calls, released, freed, hlist]

/-- **The invariant when a thread is at the end of `green_thread`**, where it arrived in the state `t`: its joiner is
released by the call of `enqueue`. -/
inductive JoinTame (tr : List (Sched × Act)) (s : Sched) : Prop
  | out {a : Abs} : Refines s a → JoinInv (ledger tr) a → JoinTame tr s
  | ending {t : Sched} {a : Abs} {l : Ledger} {v : ℕ} {e : Epi} : Refines t a → JoinInv l a → t.cpu.pc = .user →
      t.cpu.this = some a.run → Ending t s a.run v e → calls tr = l.calls → freed tr = l.freed →
      released tr = l.released ++ (if e.called then (waiter t (entering t (.ret v))).toList else []) → JoinTame tr s

/-- Outside the end of `green_thread` the events of a step are those of the library's. -/
theorem ledger_out (tr : List (Sched × Act)) (he : s.cpu.pc.ending = none) (hret : ∀ v, act ≠ .ret v) :
    ledger (tr ++ [(s, act)]) = (ledger tr).note s act := by
  have hput : putting s act = entering s act := by
    cases act with
    | ret v => exact absurd rfl (hret v)
    | resume =>
      simp only [putting, entering]
      split
      · next hpc => simp [Pc.ending, hpc] at he
      · rfl
    | _ => rfl
  rw [ledger_snoc, hput]
  rfl

/-- What a statement of the end of `green_thread` releases. -/
theorem Leads.released {e' : Epi} {fuel fuel' : ℕ} (hl : Leads a.run v fuel e s s' e' fuel') (h : Ending t s a.run v e)
    (hthis : t.cpu.this = some a.run) :
    (if e.called then (waiter t (entering t (.ret v))).toList else []) ++ (waiter s (putting s .resume)).toList =
      if e'.called then (waiter t (entering t (.ret v))).toList else [] := by
  by_cases hc : e = .call
  · subst hc
    have ht : s.goto .user = t := h.early rfl
    rw [if_neg (by simp [Epi.called]), if_pos (hl.called (by simp)), putting, h.pc, ← ht]
    rfl
  · have hput : putting s .resume = none := by
      rw [putting, h.pc]
      cases e <;> first | rfl | exact absurd rfl hc
    rw [hput]
    by_cases ht : e = .testJoin
    · -- nobody has joined, or the call of `enqueue` comes next
      subst ht
      have htest := (hl.test rfl).2
      by_cases hj : s.core.join a.run = none
      · have hs : s.goto .user = t := h.early rfl
        rw [if_neg (by simp [Epi.called]), if_pos (htest.mpr hj), entering, hthis, ← hs]
        show _ = (waiter _ (s.core.join a.run)).toList
        rw [hj]
        rfl
      · rw [if_neg (by simp [Epi.called]), if_neg (fun he => hj (htest.mp he))]
        rfl
    · have he : e.called = true := by
        cases e <;> first | rfl | exact absurd rfl hc | exact absurd rfl ht
      rw [if_pos he, if_pos (hl.called ht)]
      simp [waiter]

/-- **The step lemma.** -/
theorem JoinTame.step (h : JoinTame tr s) (hst : FineStep s act s') (hq : Undisturbed s act)
    (hnd : (calls (tr ++ [(s, act)])).Nodup) : JoinTame (tr ++ [(s, act)]) s' := by
  have hsnoc := ledger_snoc tr s act
  simp only [ledger, Ledger.mk.injEq] at hsnoc
  obtain ⟨hcalls, hreleased, hfreed⟩ := hsnoc
  cases h with
  | @out a ha hi =>
    -- a body that returns enters the end of `green_thread`; the ledger waits for its last statement
    by_cases hret : ∃ v, act = .ret v
    · obtain ⟨v, rfl⟩ := hret
      obtain ⟨hpc, hthis, hend⟩ := hst.enters ha
      refine .ending ha hi hpc hthis hend ?_ ?_ ?_
      · rw [hcalls]
        exact List.append_nil _
      · rw [hfreed]
        exact List.append_nil _
      · rw [hreleased]
        rfl
    · have hret : ∀ v, act ≠ .ret v := fun v hv => hret ⟨v, hv⟩
      -- any other step is one of the coarse model
      have hstep := hst.step hq ha.ending hret
      obtain ⟨a', hst', ha'⟩ := step_refines ha hstep
      refine .out ha' ?_
      have hl := ledger_out tr ha.ending hret
      rw [hl]
      exact hi.step ha hstep.1 hstep.2.1 hst' (congrArg Ledger.calls hl ▸ hnd)
  | @ending t a l v e ha hi hpc hthis hend hc hf hr =>
    obtain ⟨rfl, hlast | ⟨e', fuel, fuel', hl, hend'⟩⟩ := hend.step ha hpc hthis hst hq
    · obtain ⟨n, rfl, hstep⟩ := hlast
      obtain ⟨a', hst', ha'⟩ := step_refines ha hstep
      -- the last statement: the whole `ret` enters the ledger at once
      have hcalls' : calls (tr ++ [(s, .resume)]) = (l.note t (.ret v)).calls := by
        rw [hcalls, hc]
        rfl
      refine .out ha' ?_
      have hl : ledger (tr ++ [(s, .resume)]) = l.note t (.ret v) := by
        rw [ledger_snoc, hc, hf, hr, putting, frees, hend.pc]
        simp [Ledger.note, waiter, frees, Act.joined, Epi.called]
      rw [hl]
      exact hi.step ha hstep.1 hstep.2.1 hst' (hcalls' ▸ hnd)
    · -- in between only the release of the joining thread is noted
      refine .ending ha hi hpc hthis hend' ?_ ?_ ?_
      · rw [hcalls, hc]
        exact List.append_nil _
      · rw [hfreed, hf, frees, hend.pc]
        exact List.append_nil _
      · rw [hreleased, hr, List.append_assoc, hl.released hend hthis]

theorem joinInv_initial (h0 : s₀.Initial) : JoinInv (ledger []) s₀.abs := by
  have hnone : ∀ u j, ¬ Joins s₀.abs.core u j := by
    rintro u j ⟨⟨hc, -⟩, hj⟩
    obtain rfl : u = mainGreen := by simpa [Sched.abs, h0.created] using hc
    exact absurd (h0.join.symm.trans hj) (by simp)
  refine ⟨fun u j hu => absurd hu (hnone u j), fun j hj => absurd hj (by simp [Sched.abs]), fun j t res _ hpc => ?_,
    fun j j' t res _ _ _ hpc => ?_, ⟨List.nodup_nil, fun x hx => absurd hx List.not_mem_nil⟩,
    ⟨List.nodup_nil, fun x hx => absurd hx List.not_mem_nil⟩⟩
  · exact absurd hpc (by simp [Sched.abs, h0.cpu])
  · exact absurd hpc (by simp [Sched.abs, h0.cpu])

theorem frees_out {u : Tid} (ha : Refines s a) (hq : Undisturbed s act) (hst : FineStep s act s')
    (hu : u ∈ s.core.created) : frees s act = some u ↔ s.context u ≠ none ∧ s'.context u = none := by
  by_cases hret : ∃ v, act = .ret v
  · obtain ⟨v, rfl⟩ := hret
    obtain ⟨-, -, hend⟩ := hst.enters ha
    rw [hend.context]
    exact iff_of_false (by simp [frees]) fun h => h.1 h.2
  · exact frees_iff ha (hst.step hq ha.ending fun v hv => hret ⟨v, hv⟩) hu

theorem frees_ending {u : Tid} (ha : Refines t a) (hpc : t.cpu.pc = .user) (hthis : t.cpu.this = some a.run)
    (h : Ending t s a.run v e) (hq : Undisturbed s act) (hst : FineStep s act s') (hu : u ∈ s.core.created) :
    frees s act = some u ↔ s.context u ≠ none ∧ s'.context u = none := by
  obtain ⟨rfl, ⟨n, -, hstep⟩ | ⟨e', -, -, -, hend'⟩⟩ := h.step ha hpc hthis hst hq
  · have hno := frees_iff ha hstep (h.created ▸ hu)
    rw [← h.context] at hno
    rw [← hno]
    simp [frees, h.pc]
  · rw [hend'.context, h.context]
    exact iff_of_false (by simp [frees, h.pc]) fun h => h.1 h.2

theorem released_out (hi : JoinInv (ledger tr) a) (ha : Refines s a)
    (hnd : (calls (tr ++ [(s, act)])).Nodup) : Released tr s act := by
  have hcore := ha.loaded.1.core
  have hended : ∀ {t}, t ∈ a.core.created → (Ended a.core t ↔ s.core.zombie t = true) := by
    intro t ht
    rw [hcore]
    exact and_iff_right ht
  have hsnoc := ledger_snoc tr s act
  simp only [ledger, Ledger.mk.injEq] at hsnoc
  refine ⟨hi.released.1, fun j t hj => ?_, fun _ ready hq j t hj => ?_, ?_,
    fun hq s' hst t ht => frees_out ha hq hst ht, ?_⟩
  · obtain ⟨⟨hl, -⟩, res, hpc⟩ := (joining_iff ha).mp hj
    obtain ⟨-, -, hc, hr⟩ := hi.waits j t res hl hpc
    refine (hr.trans (hended hc)).trans (or_iff_left ?_).symm
    rintro ⟨-, v, e, hpc, -⟩
    have he := ha.ending
    rw [hpc] at he
    cases he
  · obtain ⟨⟨hl, hjr⟩, res, hpc⟩ := (joining_iff ha).mp hj
    rw [hq.unique (ha.loaded.1.threads.queues.each .ready), ← hended (hi.waits j t res hl hpc).2.2.1]
    rcases hi.place ha.inv hl hjr hpc with ⟨ht, -, hno⟩ | ⟨ht, hr⟩
    · exact iff_of_false hno ht.not_ended
    · exact iff_of_true hr ht
  · rintro t res s' rfl hz hst
    obtain ⟨a', hst', ha'⟩ := step_refines ha (hst.step nofun ha.ending nofun)
    rw [hcore] at hz
    cases hst' with
    | joinWait hz' _ => exact absurd (hz.symm.trans hz') (by decide)
    | joinNow _ _ =>
      rw [ha'.loaded.1.running, ha.loaded.1.running, ha'.loaded.2]
      exact ⟨rfl, by simp [Abs.leave, Abs.onCtx, Abs.collect]⟩
  · rw [hsnoc.1] at hnd
    rw [hsnoc.2.2]
    exact hi.freed_nodup ha hnd

/-- Who waits in `green_join` while a thread ends did so when its function returned. -/
theorem Ending.waits {j u : Tid} (h : Ending t s a.run v e) (ha : Refines t a) (hj : joining s j = some u) :
    joining t j = some u := by
  have hz : s.core.zombie j = false → j ≠ a.run → t.core.zombie j = false := by
    intro hz hne
    rw [h.zombie] at hz
    split_ifs at hz
    · rwa [Function.update_of_ne hne] at hz
    · exact hz
  have hnot : ¬ (s.running = some j ∨ ¬ Live s.core j) := by
    intro hno
    rw [joining, if_pos hno] at hj
    cases hj
  obtain ⟨hrun, hlive⟩ := not_or.mp hnot
  have hlive := not_not.mp hlive
  have hjr : j ≠ a.run := by
    rintro rfl
    by_cases he : ∃ n, e = .setcontext n
    · -- the running thread has become a zombie
      obtain ⟨n, rfl⟩ := he
      have hz := hlive.2
      rw [h.zombie, if_pos (show (Epi.setcontext n).buried = true from rfl), Function.update_self] at hz
      cases hz
    · exact hrun (h.running fun n hn => he ⟨n, hn⟩)
  have hlive' : Live t.core j := ⟨h.created ▸ hlive.1, hz hlive.2 hjr⟩
  have hrun' : t.running ≠ some j := by
    rw [ha.loaded.1.running]
    exact fun e => hjr (Option.some.inj e).symm
  rw [joining, if_neg hnot, h.context] at hj
  rw [joining, if_neg (not_or.mpr ⟨hrun', not_not.mpr hlive'⟩)]
  exact hj

theorem released_ending (hi : JoinInv l a) (ha : Refines t a) (hpc : t.cpu.pc = .user)
    (hthis : t.cpu.this = some a.run) (h : Ending t s a.run v e) (hc : calls tr = l.calls) (hf : freed tr = l.freed)
    (hr : released tr = l.released ++ (if e.called then (waiter t (entering t (.ret v))).toList else []))
    (hnd : (calls (tr ++ [(s, act)])).Nodup) : Released tr s act := by
  have hen : enabled t.cpu (.ret v) := ⟨hpc, by rw [hthis]; simp⟩
  have hrun := ha.inv.live
  have hcore := ha.loaded.1.core
  have hsnoc := ledger_snoc tr s act
  simp only [ledger, Ledger.mk.injEq] at hsnoc
  have hnew : ∀ x ∈ (waiter t (entering t (.ret v))).toList, x ∉ l.released := by
    intro x hx hm
    obtain ⟨-, hxr, -⟩ := (releases_iff (j := x.1) (t := x.2) ha hen trivial).mp (Option.mem_toList.mp hx)
    exact hrun.not_ended (hxr ▸ (hi.released.2 x hm).2)
  refine ⟨?_, fun j u hj => ?_, fun he => ?_, ?_, fun hq s' hst u hu => frees_ending ha hpc hthis h hq hst hu, ?_⟩
  · -- the joiner is released once
    rw [hr]
    split_ifs
    · exact nodup_append_option hi.released.1 fun x hx => hnew x (Option.mem_toList.mpr hx)
    · simpa using hi.released.1
  · -- who is gone has ended before, or is the thread that ends now
    obtain ⟨⟨hl, hjr⟩, res, hpcj⟩ := (joining_iff ha).mp (h.waits ha hj)
    obtain ⟨-, -, hcr, hrel⟩ := hi.waits j u res hl hpcj
    have hwait : waiter t (entering t (.ret v)) = some (j, u) ↔ u = a.run := by
      rw [releases_iff ha hen trivial]
      refine ⟨fun h => h.2.1, fun hu => ⟨⟨v, rfl⟩, hu, ?_⟩⟩
      rcases hi.place ha.inv hl hjr hpcj with ⟨-, hjoin, -⟩ | ⟨he, -⟩
      · exact hu ▸ hjoin
      · exact absurd (hu ▸ he) hrun.not_ended
    have hmem : (j, u) ∈ released tr ↔ Ended a.core u ∨ (e.called = true ∧ u = a.run) := by
      rw [hr, List.mem_append, hrel]
      split_ifs with hcall
      · rw [Option.mem_toList, hwait]
        simp [hcall]
      · simp [hcall]
    rw [hmem]
    have hgone : Gone s u ↔ s.core.zombie u = true ∨ a.run = u ∧ e.called = true := by
      unfold Gone
      rw [h.owner, h.pc]
      simp
    -- `enqueue` is called before `zombie` is set
    have hburied : e.buried = true → e.called = true := by
      intro hb
      cases e <;> first | rfl | cases hb
    rw [hgone, h.zombie]
    by_cases hu : u = a.run
    · subst hu
      have hno : ¬ Ended a.core a.run := hrun.not_ended
      have hz : t.core.zombie a.run = false := hcore ▸ hrun.2
      split_ifs with hb
      · simp [hburied hb]
      · simp [hno, hz]
    · have hz : (if e.buried = true then Function.update t.core.zombie a.run true else t.core.zombie) u =
          t.core.zombie u := by
        split_ifs
        · exact Function.update_of_ne hu _ _
        · rfl
      rw [hz, hcore]
      simp [hu, Ne.symm hu, Ended, hcr]
  · rw [h.pc] at he
    cases he
  · rintro u res s' rfl - hst
    have huser : s.cpu.pc = .user := hst.1.resolve_right (by simp)
    cases h.pc.symm.trans huser
  · -- what is freed was joined now, and not before
    rw [hsnoc.1, hc] at hnd
    rw [hsnoc.2.2, hf]
    refine nodup_append_option hi.once.1 fun u hu hm => ?_
    refine List.disjoint_of_nodup_append hnd (hi.once.2 u hm) (Option.mem_toList.mpr ?_)
    cases act with
    | join w res =>
      simp only [frees] at hu
      split_ifs at hu
      exact hu
    | resume => simp [frees, h.pc] at hu
    | _ => cases hu

/-- **Every joiner is released once, and a context is freed once**, in a run in which no thread is joined twice and no
signal is delivered at the end of `green_thread`. -/
theorem join_run (h0 : s₀.Initial) (hp : Path FineStep s₀ tr s) (hq : ∀ y act, (y, act) ∈ tr → Undisturbed y act)
    (hnd : (calls (tr ++ [(s, act)])).Nodup) : Released tr s act := by
  have h : JoinTame tr s := by
    have hnd' : (calls tr).Nodup := List.Nodup.of_append_left (by simpa [calls] using hnd)
    clear hnd
    induction hp with
    | nil => exact .out (initial_refines h0) (joinInv_initial h0)
    | @snoc tr t u act _ hst ih =>
      refine JoinTame.step ?_ hst (hq t act (by simp)) hnd'
      exact ih (fun y act hm => hq y act (List.mem_append_left _ hm))
        (List.Nodup.of_append_left (by simpa [calls] using hnd'))
  cases h with
  | out ha hi => exact released_out hi ha hnd
  | ending ha hi hpc hthis hend hc hf hr => exact released_ending hi ha hpc hthis hend hc hf hr hnd

/-- `main` joins thread 1, then thread 2 joins it too and takes the place of `main` in its `join` field: `main` is not
released when thread 1 ends. -/
theorem join_fails : ¬ ∀ (s₀ s : Sched) (tr : List (Sched × Act)) (act : Act), s₀.Initial → Path FineStep s₀ tr s →
    Released tr s act := by
  intro hall
  obtain ⟨tr, s, hp, htest⟩ := exists_path nextFine_step Sched.start
    ([.create 1 1 0, .create 2 1 0, .join 1 (some 0), .resume, .yield, .resume, .join 1 (some 1), .resume, .ret 5] ++
      List.replicate 12 .resume)
    (fun x => decide (joining x.2 0 = some 1 ∧ (0, 1) ∉ released x.1 ∧ x.2.core.zombie 1 = true)) (by decide +kernel)
  obtain ⟨hj, hno, hz⟩ := of_decide_eq_true htest
  exact hno (((hall _ s tr .resume Sched.start_initial hp).ended 0 1 hj).mpr (.inl hz))

/-- `main` alone joins thread 1; a signal arrives at `susp->next = thread` when thread 1 ends, and the thread at `susp`
has left the ready queue when thread 1 goes on: `main` is linked behind it, and in no queue. -/
theorem join_disturbed : ∃ tr s, Path FineStep Sched.start tr s ∧ calls tr = [1] ∧ ¬ Released tr s .yield := by
  obtain ⟨tr, s, hp, htest⟩ := exists_path nextFine_step Sched.start
    ([.create 1 1 0, .create 2 1 0, .join 1 (some 0), .resume, .yield, .resume, .yield, .resume, .ret 5] ++
      List.replicate 5 .resume ++ [.timer, .resume, .create 3 1 0, .ret 7] ++ List.replicate 20 .resume)
    (fun x => decide (calls x.1 = [1] ∧ joining x.2 0 = some 1 ∧ x.2.core.zombie 1 = true ∧ x.2.cpu.pc = .user ∧
      x.2.head .ready = none)) (by decide +kernel)
  obtain ⟨hcalls, hj, hz, hpc, hhead⟩ := of_decide_eq_true htest
  refine ⟨tr, s, hp, hcalls, fun hr => ?_⟩
  have hempty : IsQueue s.next (s.head .ready) [] := hhead
  have hmem := (hr.ready (by rw [hpc]; rfl) [] hempty 0 1 hj).mpr hz
  exact absurd hmem (by simp)

/-- `main` joins thread 2, which joins thread 1; both are released and both contexts freed. -/
theorem join_run_three : ∃ tr s, Path FineStep Sched.start tr s ∧ released tr = [(2, 1), (0, 2)] ∧ freed tr = [1, 2] ∧
    Released tr s .yield := by
  obtain ⟨tr, s, hp, htest⟩ := exists_path nextFine_step Sched.start
    ([.create 1 1 0, .create 2 1 0, .join 2 (some 0), .resume, .yield, .resume, .join 1 (some 1), .resume, .timer] ++
      [.resume, .ret 5] ++ List.replicate 13 .resume ++ [.ret 7] ++ List.replicate 13 .resume)
    (fun x => decide (released x.1 = [(2, 1), (0, 2)] ∧ freed x.1 = [1, 2] ∧ (∀ y ∈ x.1, Undisturbed y.1 y.2) ∧
      (calls (x.1 ++ [(x.2, .yield)])).Nodup)) (by decide +kernel)
  obtain ⟨hrel, hfreed, hq, hnd⟩ := of_decide_eq_true htest
  exact ⟨tr, s, hp, hrel, hfreed, join_run Sched.start_initial hp (fun y act hm => hq _ hm) hnd⟩

end Runs

end Seminars.Green
