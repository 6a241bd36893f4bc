import Seminars.Lib.Path
import Seminars.Green.Refine

/-!
# Seminars.Green.Run — runs of a program of green threads

* `step_refines` is the step lemma, `run_refines` the run lemma.
* `can_step`: a step that the abstract scheduler can make can be made.
* `next` computes a step.
-/

namespace Seminars.Green

open Seminars.Lib

section Runs

variable {s s₀ s' : Sched} {a : Abs} {act : Act} {tr : List (Sched × Act)}

/-- **The step lemma**: a step of the library is a step of the abstract scheduler. -/
theorem step_refines (h : Refines s a) (hst : Step s act s') : ∃ a', AStep a act a' ∧ Refines s' a' :=
  (exec_spec h hst.1 hst.2.1).of_eq hst.2.2

/-- A call that the abstract scheduler can make returns. -/
theorem can_step {a' : Abs} (h : Refines s a) (hen : enabled s.cpu act) (hpr : proper s.core act)
    (hst : AStep a act a') : ∃ s', Step s act s' := by
  obtain ⟨_, s', hr, -⟩ := (exec_spec h hen hpr).runs fun _ hno => hno a' hst
  exact ⟨s', hen, hpr, hr⟩

theorem Refines.owner (h : Refines s a) : s.cpu.owner = a.run := by
  rw [h.loaded.2]
  exact (h.inv.good.own a.run h.inv.live).1

theorem Refines.this (h : Refines s a) (hthis : s.cpu.this ≠ none) : s.cpu.this = some a.run := by
  rw [h.loaded.2] at hthis ⊢
  exact (h.inv.good.own a.run h.inv.live).2.resolve_left hthis

/-- A state holds one scheduler, up to the threads that are lost and the contexts of those that have ended. -/
theorem Refines.agree {b : Abs} (h : Refines s a) (h' : Refines s b) :
    a.core = b.core ∧ a.run = b.run ∧ a.queue = b.queue ∧ ∀ t, Live a.core t → a.ctx t = b.ctx t := by
  have hcore : a.core = b.core := h.loaded.1.core.symm.trans h'.loaded.1.core
  have hrun : a.run = b.run := Option.some.inj (h.loaded.1.running.symm.trans h'.loaded.1.running)
  refine ⟨hcore, hrun, funext fun q => ?_, fun t ht => ?_⟩
  · exact (h.loaded.1.threads.queues.each q).unique (h'.loaded.1.threads.queues.each q)
  · by_cases htr : t = a.run
    · rw [htr, ← h.loaded.2, hrun, ← h'.loaded.2]
    · have h1 := h.loaded.1.saved t ht htr
      rw [h'.loaded.1.saved t (hcore ▸ ht) (hrun ▸ htr)] at h1
      exact (Option.some.inj h1).symm

/-- The abstract scheduler at the start. -/
def Sched.abs (s : Sched) : Abs where
  core := s.core
  run := mainGreen
  ctx := fun _ => s.cpu
  freed := fun _ => false
  queue := fun _ => []
  lost := []

theorem initial_refines (h : s.Initial) : Refines s s.abs := by
  have hmain : ∀ t, t ∈ s.core.created ↔ t = mainGreen := fun t => by rw [h.created, List.mem_singleton]
  have hlive : ∀ t, Live s.core t → t = mainGreen := fun t ht => (hmain t).mp ht.1
  have hnot : ∀ t p, ¬ Placed s.abs t p := by
    intro t p hp
    cases p with
    | queue q => exact absurd hp (by simp [Placed, Sched.abs])
    | join u =>
      obtain ⟨hu, hj⟩ := hp
      obtain rfl := hlive u hu
      exact absurd (h.join.symm.trans hj) (by simp)
    | lost => exact absurd hp (by simp [Placed, Sched.abs])
  refine ⟨⟨⟨rfl, h.running, fun t ht hr => absurd (hlive t ht) hr, fun t ht => ?_, ⟨fun q => h.head q, ?_⟩,
      ?_, ?_⟩, rfl⟩,
    ⟨List.nodup_singleton _, ?_, fun t p hp => absurd hp (hnot t p), fun t p _ hp => absurd hp (hnot t p),
      fun t ht => .inl (by simp [hlive t ht, Sched.abs]), fun _ => List.nodup_nil,
      fun t p hp => absurd hp (hnot t p), fun t ht => ?_, fun t _ hf => absurd hf (by simp [Sched.abs])⟩, .inl ?_⟩
  · obtain rfl := (hmain t).mp ht
    simp [h.context, Sched.abs]
  · simp [Sched.abs]
  · simp [Sched.abs]
  · intro t ht _ _
    obtain rfl := (hmain t).mp ht
    exact h.next
  · intro t ht
    obtain rfl := List.mem_singleton.mp ht
    exact ⟨⟨(hmain _).mpr rfl, h.zombie⟩, hnot _⟩
  · obtain rfl := hlive t ht
    simp [Sched.abs, h.cpu]
  · simp [Sched.abs, h.cpu]

/-- **The run lemma**: what the abstract scheduler keeps along a run holds at its end. -/
theorem run_refines (hp : Path Step s₀ tr s) (h0 : s₀.Initial) {P : Abs → Prop} (hP0 : P s₀.abs)
    (hP : ∀ t act t', (t, act) ∈ tr → Step t act t' → ∀ a a', Refines t a → P a → AStep a act a' → P a') :
    ∃ a, Refines s a ∧ P a := by
  refine hp.invariant (I := fun s => ∃ a, Refines s a ∧ P a) ⟨_, initial_refines h0, hP0⟩ ?_
  rintro t act t' hm ⟨a, ha, hPa⟩ hst
  obtain ⟨a', hst', ha'⟩ := step_refines ha hst
  exact ⟨a', ha', hP t act t' hm hst a a' ha hPa hst'⟩

/-! ### Runs that can be computed -/

instance (cpu : Ctx) : (act : Act) → Decidable (enabled cpu act)
  | .resume => inferInstanceAs (Decidable (cpu.pc ≠ .user))
  | .timer => inferInstanceAs (Decidable (cpu.pc = .user ∧ cpu.blocked = false))
  | .ret _ => inferInstanceAs (Decidable (cpu.pc = .user ∧ cpu.this ≠ none))
  | .create _ _ _ | .yield | .join _ _ | .condInit _ | .condWait _ _ | .condSignal _ | .mutexInit _ | .lock _
  | .unlock _ => inferInstanceAs (Decidable (cpu.pc = .user))

instance (k : Core) : (act : Act) → Decidable (proper k act)
  | .create new _ _ => inferInstanceAs (Decidable (new ∉ k.created))
  | .join t _ => inferInstanceAs (Decidable (t ∈ k.created))
  | .resume | .timer | .ret _ | .yield | .condInit _ | .condWait _ _ | .condSignal _ | .mutexInit _ | .lock _
  | .unlock _ => inferInstanceAs (Decidable True)

/-- The state after code that can run when `p` holds, if it does not fault. -/
def attempt (p : Prop) [Decidable p] (c : M Unit) (s : Sched) : Option Sched :=
  if p then
    match c.run s with
    | .ok (_, s') => some s'
    | .error _ => none
  else none

theorem attempt_eq {p : Prop} [Decidable p] {c : M Unit} (h : attempt p c s = some s') :
    p ∧ c.run s = .ok ((), s') := by
  unfold attempt at h
  split_ifs at h with hp
  split at h
  · next hr =>
    obtain rfl := Option.some.inj h
    exact ⟨hp, hr⟩
  · exact absurd h (by simp)

/-- The step with the action `act`, when it is possible and does not fault. -/
def next (s : Sched) (act : Act) : Option Sched := attempt (enabled s.cpu act ∧ proper s.core act) (exec act) s

theorem next_step (s : Sched) (act : Act) (s' : Sched) (h : next s act = some s') : Step s act s' :=
  and_assoc.mp (attempt_eq h)

end Runs

end Seminars.Green
