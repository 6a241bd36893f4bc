import Mathlib.Data.Set.Finite.List
import Seminars.Green.Overtake
import Seminars.Green.Partition
import Seminars.Lib.Interleave

/-!
# Seminars.Green.Dry — the ready queue does not run dry

Programs that create threads, yield, are interrupted, join and end.

* `Fork` is the invariant: nobody waits for a condition or a mutex, and `main` does not return into `green_thread`.
* `Refines.joining`: when nobody is ready, everyone but the running thread waits for someone to end.  Those joins
  would lead in a circle, so `dry_run`.
-/

namespace Seminars.Green

open Seminars.Lib

/-- The operations of such a program. -/
def Forks : Act → Prop
  | .create _ _ _ | .yield | .timer | .join _ _ | .ret _ | .resume => True
  | .condInit _ | .condWait _ _ | .condSignal _ | .mutexInit _ | .lock _ | .unlock _ => False

instance : DecidablePred Forks
  | .create _ _ _ | .yield | .timer | .join _ _ | .ret _ | .resume => inferInstanceAs (Decidable True)
  | .condInit _ | .condWait _ _ | .condSignal _ | .mutexInit _ | .lock _ | .unlock _ =>
    inferInstanceAs (Decidable False)

theorem Forks.plain {act : Act} (h : Forks act) : Plain act := by
  cases act <;> first | exact h.elim | trivial

/-- `j` waits in `green_join` for `t` to end, or calls `green_join` now. -/
def WaitsFor (s : Sched) (act : Act) (j t : Tid) : Prop :=
  Joins s.core t j ∨ act.joined = some t ∧ s.running = some j ∧ s.core.zombie t = false

/-- **The invariant.** -/
structure Fork (a : Abs) : Prop where
  queue : ∀ q, q ≠ .ready → a.queue q = []
  main : Live a.core mainGreen
  this : (a.ctx mainGreen).this = none ∧ (a.ctx mainGreen).pc ≠ .start
  pc : ∀ t, Live a.core t → ∀ c m, (a.ctx t).pc ≠ .wait c m

section Step

variable {a a' : Abs} {act : Act}

theorem AStep.this (hst : AStep a act a') (hpr : proper a.core act) (hc : a.run ∈ a.core.created)
    (hpc : (a.ctx a.run).pc ≠ .start) : (a'.ctx a.run).this = (a.ctx a.run).this := by
  cases hst with
  | @create new fn arg =>
    have hne : a.run ≠ new := fun e => hpr (e ▸ hc)
    simp [Abs.mask, Abs.onCtx, Abs.push, Abs.spawn, hne]
  | yield hn | timer hn | joinWait _ hn | lockWait _ hn | resumeRewait _ _ hn =>
    rw [hn.ctx]
    simp [Abs.push, Abs.await, Abs.stop, Abs.onCtx]
  | condWait hn =>
    rw [hn.ctx, Abs.release_ctx]
    simp [Abs.push, Abs.stop, Abs.onCtx]
  | signal _ | unlockPass _ =>
    rw [Abs.mask, Abs.onCtx, Abs.wake_run, Abs.wake_ctx]
    simp
  | @ret v _ hn =>
    rw [hn.ctx]
    unfold Abs.finish
    split <;> rfl
  | resumeStart hst _ => exact absurd hst hpc
  | _ => simp [Abs.mask, Abs.leave, Abs.onCtx, Abs.collect, Abs.drop, Abs.setTaken]

/-- Such an action takes a thread neither to the start of `green_thread` nor into `green_cond_wait`. -/
theorem Forks.lands {pc pc' : Pc} (hact : Forks act) (hl : Lands pc act pc') (hne : pc' ≠ pc) :
    pc' ≠ .start ∧ ∀ c m, pc' ≠ .wait c m := by
  cases act with
  | ret v => exact absurd hl hne
  | resume => rcases hl with rfl | ⟨_, _, _, rfl⟩ <;> simp
  | join _ _ => rcases hl with rfl | rfl <;> simp
  | create _ _ _ | yield | timer =>
    obtain rfl := hl
    simp
  | _ => exact hact.elim

/-- **The step lemma.** -/
theorem Fork.step (hf : Fork a) (h : AInv a) (hen : enabled (a.ctx a.run) act) (hpr : proper a.core act)
    (hst : AStep a act a') (hact : Forks act) : Fork a' := by
  have hlands := hst.lands h hen hpr
  have hret : ∀ v, act = .ret v → mainGreen ≠ a.run := by
    rintro v rfl hr
    exact hen.2 (hr ▸ hf.this.1)
  refine ⟨fun q hq => ?_, hst.live_on hf.main hret, ?_, fun t ht c m => ?_⟩
  · rw [hst.queue hq]
    cases act with
    | resume =>
      simp only [Abs.queueAfter]
      split
      · next hpc => exact absurd hpc (hf.pc a.run h.live _ _)
      · exact hf.queue q hq
    | create _ _ _ | yield | timer | join _ _ | ret _ => exact hf.queue q hq
    | _ => exact hact.elim
  · by_cases hr : mainGreen = a.run
    · have hpc := hf.this.2
      rw [hr] at hpc ⊢
      refine ⟨(hst.this hpr h.live.1 hpc).trans (hr ▸ hf.this.1), fun hs => ?_⟩
      exact (hact.lands hlands (by rw [hs]; exact hpc.symm)).1 hs
    · rw [hst.ctx hpr hf.main.1 hr]
      exact hf.this
  · by_cases htr : t = a.run
    · subst htr
      intro hw
      have hne := (hf.pc a.run h.live c m).symm
      exact (hact.lands hlands (by rw [hw]; exact hne)).2 c m hw
    · by_cases hc : t ∈ a.core.created
      · rw [hst.ctx hpr hc htr]
        exact hf.pc t (hst.live hpr hc ht) c m
      · rw [hst.spawned ht.1 hc htr]
        simp

end Step

/-! ### Runs -/

section Runs

variable {s₀ s : Sched} {a : Abs} {act : Act} {tr : List (Sched × Act)}

theorem fork_initial (h0 : s₀.Initial) : Fork s₀.abs := by
  refine ⟨fun _ _ => rfl, ⟨by simp [Sched.abs, h0.created], h0.zombie⟩, ?_, fun t _ c m => ?_⟩ <;>
    simp [Sched.abs, h0.cpu]

theorem Fork.agree {b : Abs} (hf : Fork b) (hb : Refines s b) (h : Refines s a) : Fork a := by
  obtain ⟨hcore, -, hqueue, hctx⟩ := hb.agree h
  refine ⟨fun q hq => hqueue ▸ hf.queue q hq, hcore ▸ hf.main, ?_, fun t ht => ?_⟩
  · rw [← hctx mainGreen hf.main]
    exact hf.this
  · rw [← hcore] at ht
    rw [← hctx t ht]
    exact hf.pc t ht

/-- When nobody is ready, every live thread but the running one waits for another one to end. -/
theorem Refines.joining (h : Refines s a) (hlost : a.lost = []) (hq : ∀ q, a.queue q = []) {t : Tid}
    (ht : Live a.core t) (htr : t ≠ a.run) : ∃ u, Live a.core u ∧ a.core.join u = some t := by
  rcases h.inv.good.total t ht with hr | ⟨p, hp⟩
  · exact absurd (List.mem_singleton.mp hr) htr
  cases p with
  | queue q => exact absurd hp (by simp [Placed, hq q])
  | join u => exact ⟨u, hp⟩
  | lost => exact absurd hp (by simp [Placed, hlost])

theorem Fork.all_empty (hf : Fork a) (hr : a.queue .ready = []) (q : QRef) : a.queue q = [] := by
  by_cases hq : q = .ready
  · rw [hq, hr]
  · exact hf.queue q hq

theorem live_finite (a : Abs) : {t | Live a.core t}.Finite :=
  (List.finite_toSet a.core.created).subset fun _ ht => ht.1

/-- A thread that is to join a live one finds a thread that is ready: else every live thread waits for a live one. -/
theorem Fork.ready_of_join (hf : Fork a) (h : Refines s a) (hlost : a.lost = []) {t : Tid} {res : Option ℕ}
    (hno : ∀ y, ¬ Relation.TransGen (WaitsFor s (.join t res)) y y) (ht : Live a.core t) : a.queue .ready ≠ [] := by
  have hcore := h.loaded.1.core
  intro hr
  obtain ⟨y, hy⟩ := exists_cycle (r := WaitsFor s (.join t res)) (live_finite a) ht fun y hy => by
    by_cases hyr : y = a.run
    · refine ⟨t, ht, .inr ⟨rfl, ?_, hcore ▸ ht.2⟩⟩
      rw [h.loaded.1.running, hyr]
    · obtain ⟨u, hu, hj⟩ := h.joining hlost (hf.all_empty hr) hy hyr
      exact ⟨u, hu, .inl (hcore ▸ ⟨hu, hj⟩)⟩
  exact hno y hy

/-- So does a thread that ends: if nobody waits for it, the others wait for each other. -/
theorem Fork.ready_of_ret (hf : Fork a) (h : Refines s a) (hlost : a.lost = []) {v : ℕ}
    (hno : ∀ y, ¬ Relation.TransGen (WaitsFor s (.ret v)) y y) (hmain : mainGreen ≠ a.run) :
    (a.finish v).queue .ready ≠ [] := by
  have hcore := h.loaded.1.core
  rw [a.finish_ready v]
  cases hj : a.core.join a.run with
  | some j => simp
  | none =>
    intro hr
    have hr : a.queue .ready = [] := by simpa using hr
    have hfin : {t | Live a.core t ∧ t ≠ a.run}.Finite := (live_finite a).subset fun _ ht => ht.1
    obtain ⟨y, hy⟩ := exists_cycle (r := WaitsFor s (.ret v)) hfin ⟨hf.main, hmain⟩ fun y hy => by
      obtain ⟨u, hu, huj⟩ := h.joining hlost (hf.all_empty hr) hy.1 hy.2
      refine ⟨u, ⟨hu, fun e => ?_⟩, .inl (hcore ▸ ⟨hu, huj⟩)⟩
      rw [e, hj] at huj
      exact absurd huj (by simp)
    exact hno y hy

/-- **Whoever takes a thread from the ready queue finds one**, if the joins that wait are no circle. -/
theorem Fork.dispatch (hf : Fork a) (h : Refines s a) (hlost : a.lost = []) (hact : Forks act)
    (hno : ∀ t, ¬ Relation.TransGen (WaitsFor s act) t t) (hen : enabled s.cpu act) (hpr : proper s.core act)
    (hd : dispatches s act = true) : ∃ a', AStep a act a' := by
  have hcore := h.loaded.1.core
  have hcpu := h.loaded.2
  have hgo : ∀ b : Abs, b.queue .ready ≠ [] → ∃ a', Next b a' := by
    intro b hb
    obtain ⟨n, l, hl⟩ := List.exists_cons_of_ne_nil hb
    exact ⟨_, n, l, hl, rfl⟩
  cases act with
  | create _ _ _ => exact absurd hd (by simp [dispatches])
  | yield =>
    obtain ⟨a', hn⟩ := hgo ((a.stop (.yield none)).push .ready a.run) (by simp [Abs.push])
    exact ⟨a', .yield hn⟩
  | timer =>
    obtain ⟨a', hn⟩ := hgo ((a.stop (.yield none)).push .ready a.run) (by simp [Abs.push])
    exact ⟨a', .timer hn⟩
  | join t res =>
    have hz : a.core.zombie t = false := by simpa [dispatches, hcore] using hd
    have ht : Live a.core t := ⟨hcore ▸ hpr, hz⟩
    obtain ⟨a', hn⟩ := hgo ((a.stop (.join t res)).await t) (hf.ready_of_join h hlost hno ht)
    exact ⟨a', .joinWait hz hn⟩
  | ret v =>
    have hmain : mainGreen ≠ a.run := by
      intro hr
      refine hen.2 ?_
      rw [hcpu, ← hr]
      exact hf.this.1
    obtain ⟨a', hn⟩ := hgo (a.finish v) (hf.ready_of_ret h hlost hno hmain)
    exact ⟨a', .ret hn⟩
  | resume =>
    simp only [dispatches, hcpu] at hd
    split at hd
    · next hpc => exact absurd hpc (hf.pc a.run h.inv.live _ _)
    · exact absurd hd (by simp)
  | _ => exact hact.elim

/-- **The ready queue does not run dry.**  In a run in which threads are created, yield, are interrupted, end, and
are joined by one thread at most, every operation that takes a thread from the ready queue gets one and switches to
it, as long as the threads that wait in `green_join`, the caller included, do not wait in a circle. -/
theorem dry_run (h0 : s₀.Initial) (hp : Path Step s₀ tr s) (hf : ∀ x ∈ tr, Forks x.2) (hj : JoinedByOne tr)
    (hact : Forks act) (hno : ∀ t, ¬ Relation.TransGen (WaitsFor s act) t t) (hen : enabled s.cpu act)
    (hpr : proper s.core act) (hd : dispatches s act = true) : ∃ s' n, Step s act s' ∧ s'.running = some n := by
  obtain ⟨a, ha, hlost, hfork⟩ : ∃ a, Refines s a ∧ a.lost = [] ∧ Fork a := by
    obtain ⟨a, ha, hlost, -⟩ := run_lost h0 hp (fun x hx => (hf x hx).plain) hj
    obtain ⟨b, hb, hfork⟩ := run_refines hp h0 (fork_initial h0) fun t act t' hm hst a a' ha hfa hst' =>
      hfa.step ha.inv (ha.loaded.2 ▸ hst.1) (ha.loaded.1.core ▸ hst.2.1) hst' (hf (t, act) hm)
    exact ⟨a, ha, hlost, hfork.agree hb ha⟩
  obtain ⟨a', hst⟩ := hfork.dispatch ha hlost hact hno hen hpr hd
  obtain ⟨s', hs'⟩ := can_step ha hen hpr hst
  obtain ⟨a'', -, ha'⟩ := step_refines ha hs'
  exact ⟨s', _, hs', ha'.loaded.1.running⟩

end Runs

/-- `main` waits for thread 1, which joins thread 2. -/
theorem dry_run_three : ∃ tr s s' n, Path Step Sched.start tr s ∧ Joins s.core 1 0 ∧ Step s (.join 2 (some 1)) s' ∧
    s'.running = some n := by
  obtain ⟨tr, s, hp, htest⟩ := exists_path next_step Sched.start
    [.create 1 1 0, .create 2 1 0, .join 1 (some 0), .resume]
    (fun x => decide ((∀ y ∈ x.1, Forks y.2) ∧ JoinedByOne x.1 ∧ x.2.core.created = [2, 1, 0] ∧
      x.2.core.zombie 1 = false ∧ x.2.core.join 1 = some 0 ∧ (∀ u ∈ x.2.core.created, ∀ j ∈ x.2.core.join u, j < u) ∧
      x.2.running = some 1 ∧ x.2.cpu.pc = .user ∧ x.2.core.zombie 2 = false)) (by decide)
  obtain ⟨hf, hj, hc, hz, hjoin, hless, hrun, hpc, hz'⟩ := of_decide_eq_true htest
  have hedge : ∀ j t, WaitsFor s (.join 2 (some 1)) j t → j < t := by
    rintro j t (⟨⟨ht, -⟩, hjt⟩ | ⟨ht, hr, -⟩)
    · exact hless t ht j hjt
    · obtain rfl := Option.some.inj ht
      obtain rfl := Option.some.inj (hrun.symm.trans hr)
      decide
  have hno : ∀ t, ¬ Relation.TransGen (WaitsFor s (.join 2 (some 1))) t t := by
    intro t ht
    have hlt : Relation.TransGen (· < ·) t t := Relation.TransGen.mono hedge t t ht
    rw [Relation.transGen_eq_self] at hlt
    exact lt_irrefl t hlt
  have hc : s.core.created = [2, 1, 0] := hc
  have hd : dispatches s (.join 2 (some 1)) = true := by simpa [dispatches] using hz'
  obtain ⟨s', n, hst, hn⟩ := dry_run Sched.start_initial hp hf hj (show Forks (.join 2 _) from trivial) hno hpc
    (by simp [proper, hc]) hd
  exact ⟨tr, s, s', n, hp, ⟨⟨by simp [hc], hz⟩, hjoin⟩, hst, hn⟩

end Seminars.Green
