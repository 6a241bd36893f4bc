import Mathlib.Logic.Basic
import Mathlib.Tactic.Common

/-!
# Seminars.Lib.RunLogic — total correctness for stateful code that can fault

Code is a `StateT σ (Except ε) α`: it reads and changes a state `σ` and either returns an `α` or stops with a
fault `ε`.  `Runs c s Q` says that `c` started in `s` returns (no fault) a result and a state satisfying `Q`.
One rule for every way of putting code together (`runs_pure`, `runs_bind`, `runs_get`, `runs_modify`,
`runs_ite`); `Runs.of_eq` and `Runs.run_eq` go between a run and its triple.  `check` computes a triple for one
state.  `Ends c s Q E` also says what holds when `c` stops with a fault; its rules are equations, so that `simp`
executes the parts of the code that only read and assign.
-/

namespace Seminars.Lib

variable {σ ε α β : Type}

/-- `c` run from `s` ends without a fault, in a result and a state satisfying `Q`. -/
def Runs (c : StateT σ (Except ε) α) (s : σ) (Q : α → σ → Prop) : Prop :=
  ∃ a s', c.run s = .ok (a, s') ∧ Q a s'

/-- The rule of consequence. -/
theorem Runs.imp {c : StateT σ (Except ε) α} {s : σ} {Q Q' : α → σ → Prop} (hQ : ∀ a s', Q a s' → Q' a s')
    (h : Runs c s Q) : Runs c s Q' :=
  let ⟨a, s', hr, hp⟩ := h
  ⟨a, s', hr, hQ a s' hp⟩

/-- Code is deterministic: what a triple promises holds of the run that is observed. -/
theorem Runs.of_eq {c : StateT σ (Except ε) α} {s s' : σ} {a : α} {Q : α → σ → Prop} (h : Runs c s Q)
    (hr : c.run s = .ok (a, s')) : Q a s' := by
  obtain ⟨b, t, h1, h2⟩ := h
  rw [hr] at h1
  simp only [Except.ok.injEq, Prod.mk.injEq] at h1
  obtain ⟨rfl, rfl⟩ := h1
  exact h2

theorem Runs.run_eq {c : StateT σ (Except ε) α} {s : σ} {Q : α → σ → Prop} (h : Runs c s Q) :
    ∃ a s', c.run s = .ok (a, s') :=
  let ⟨a, s', h1, _⟩ := h
  ⟨a, s', h1⟩

/-! ### Rules -/

theorem runs_pure {a : α} {s : σ} {Q : α → σ → Prop} (hQ : Q a s) :
    Runs (pure a : StateT σ (Except ε) α) s Q := ⟨a, s, rfl, hQ⟩

theorem runs_bind {c : StateT σ (Except ε) α} {k : α → StateT σ (Except ε) β} {s : σ} {Q : β → σ → Prop}
    (h : Runs c s (fun a s' => Runs (k a) s' Q)) : Runs (c >>= k) s Q := by
  obtain ⟨a, s', h1, b, s'', h2, hQ⟩ := h
  refine ⟨b, s'', ?_, hQ⟩
  rw [StateT.run_bind, h1]
  exact h2

theorem runs_get {s : σ} {Q : σ → σ → Prop} (hQ : Q s s) :
    Runs (get : StateT σ (Except ε) σ) s Q := ⟨s, s, rfl, hQ⟩

theorem runs_modify {f : σ → σ} {s : σ} {Q : PUnit → σ → Prop} (hQ : Q ⟨⟩ (f s)) :
    Runs (modify f : StateT σ (Except ε) PUnit) s Q := ⟨⟨⟩, f s, rfl, hQ⟩

theorem runs_ite {p : Prop} [Decidable p] {c d : StateT σ (Except ε) α} {s : σ} {Q : α → σ → Prop}
    (hc : p → Runs c s Q) (hd : ¬ p → Runs d s Q) : Runs (if p then c else d) s Q := by
  by_cases hp : p
  · rw [if_pos hp]; exact hc hp
  · rw [if_neg hp]; exact hd hp

/-- A fault in the first part is the fault of the whole. -/
theorem run_bind_error {c : StateT σ (Except ε) α} {k : α → StateT σ (Except ε) β} {s : σ} {e : ε}
    (h : c.run s = .error e) : (c >>= k).run s = .error e := by
  rw [StateT.run_bind, h]
  rfl

/-- After a first part that returns, the run of the whole is the run of the rest. -/
theorem run_bind_ok {c : StateT σ (Except ε) α} {k : α → StateT σ (Except ε) β} {s s' : σ} {a : α}
    (h : c.run s = .ok (a, s')) : (c >>= k).run s = (k a).run s' := by
  rw [StateT.run_bind, h]
  rfl

/-- Two first parts that run alike are continued alike. -/
theorem run_bind_congr {c d : StateT σ (Except ε) α} {k : α → StateT σ (Except ε) β} {s s' : σ}
    (h : c.run s = d.run s') : (c >>= k).run s = (d >>= k).run s' := by
  rw [StateT.run_bind, StateT.run_bind, h]

/-! ### Computing a triple -/

/-- `c` run from `s` returns a result and a state that pass the test `P`. -/
def check (c : StateT σ (Except ε) α) (s : σ) (P : α → σ → Bool) : Bool :=
  match c.run s with
  | .ok (a, s') => P a s'
  | .error _ => false

theorem runs_of_check {c : StateT σ (Except ε) α} {s : σ} {P : α → σ → Bool} (h : check c s P = true) :
    Runs c s (fun a s' => P a s' = true) := by
  unfold check at h
  split at h
  · exact ⟨_, _, by assumption, h⟩
  · exact absurd h (by decide)

/-! ### Code that may fault -/

/-- `c` run from `s` ends in a result and a state satisfying `Q`, or with a fault satisfying `E`. -/
def Ends (c : StateT σ (Except ε) α) (s : σ) (Q : α → σ → Prop) (E : ε → Prop) : Prop :=
  match c.run s with
  | .ok (a, s') => Q a s'
  | .error e => E e

section Ends

variable {c : StateT σ (Except ε) α} {s s' : σ} {a : α} {Q Q' : α → σ → Prop} {E E' : ε → Prop}

theorem Ends.imp (h : Ends c s Q E) (hQ : ∀ a s', Q a s' → Q' a s') (hE : ∀ e, E e → E' e) : Ends c s Q' E' := by
  unfold Ends at h ⊢
  split at h
  · exact hQ _ _ h
  · exact hE _ h

theorem Ends.of_eq (h : Ends c s Q E) (hr : c.run s = .ok (a, s')) : Q a s' := by
  unfold Ends at h
  rwa [hr] at h

theorem ends_of_ok (hr : c.run s = .ok (a, s')) (h : Q a s') : Ends c s Q E := by
  unfold Ends
  rwa [hr]

theorem ends_of_error {e : ε} (hr : c.run s = .error e) (h : E e) : Ends c s Q E := by
  unfold Ends
  rwa [hr]

/-- Code that does not fault. -/
theorem Runs.ends (h : Runs c s Q) (hQ : ∀ a s', Q a s' → Q' a s') : Ends c s Q' E := by
  obtain ⟨a, s', hr, hp⟩ := h
  unfold Ends
  rw [hr]
  exact hQ a s' hp

/-- If no fault is possible, the code returns. -/
theorem Ends.runs (h : Ends c s Q E) (hE : ∀ e, ¬ E e) : Runs c s Q := by
  unfold Ends at h
  split at h
  · exact ⟨_, _, by assumption, h⟩
  · exact absurd h (hE _)

theorem ends_bind {k : α → StateT σ (Except ε) β} {Q : β → σ → Prop} :
    Ends (c >>= k) s Q E ↔ Ends c s (fun a s' => Ends (k a) s' Q E) E := by
  unfold Ends
  rw [StateT.run_bind]
  cases c.run s <;> rfl

theorem ends_get_bind {k : σ → StateT σ (Except ε) α} : Ends (get >>= k) s Q E ↔ Ends (k s) s Q E := Iff.rfl

theorem ends_modify_bind {f : σ → σ} {k : PUnit → StateT σ (Except ε) α} :
    Ends (modify f >>= k) s Q E ↔ Ends (k ⟨⟩) (f s) Q E := Iff.rfl

theorem ends_throw {e : ε} : Ends (throw e : StateT σ (Except ε) α) s Q E ↔ E e := Iff.rfl

end Ends

end Seminars.Lib
