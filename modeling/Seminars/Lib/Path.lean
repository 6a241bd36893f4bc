import Mathlib.Data.List.Basic
import Mathlib.Tactic.Common

/-!
# Seminars.Lib.Path — runs of a labelled transition system

`Path step s tr u`: a run of the relation `step` from `s` to `u`.  The trace `tr` lists, in order, the state
before each step together with the step's label, so that a condition on a run is a condition on the members of
its trace.  `Path.invariant` is the one induction; `Path.cut` cuts a run at a step; `withHistory` adds a history
variable (a value that is computed from the steps and that no step reads).  `play` computes a run from its labels.
-/

namespace Seminars.Lib

variable {σ τ α γ : Type}

/-- A run of `step`; the trace holds the state before each step and the step's label. -/
inductive Path (step : σ → α → σ → Prop) (s : σ) : List (σ × α) → σ → Prop
  | nil : Path step s [] s
  | snoc {tr : List (σ × α)} {t u : σ} {a : α} : Path step s tr t → step t a u →
      Path step s (tr ++ [(t, a)]) u

namespace Path

variable {step : σ → α → σ → Prop} {s t u : σ} {tr : List (σ × α)}

/-- **The invariant rule**: what holds at the start and is kept by every step of the trace holds at the end. -/
theorem invariant {I : σ → Prop} (h : Path step s tr u) (h0 : I s)
    (hs : ∀ t a t', (t, a) ∈ tr → I t → step t a t' → I t') : I u := by
  induction h with
  | nil => exact h0
  | snoc _ hst ih =>
    refine hs _ _ _ (by simp) (ih fun t a t' hm => hs t a t' (by simp [hm])) hst

/-- A run can be cut at any of its steps. -/
theorem cut (h : Path step s tr u) {a : α} (hm : (t, a) ∈ tr) :
    ∃ tr₁ t' tr₂, tr = tr₁ ++ (t, a) :: tr₂ ∧ Path step s tr₁ t ∧ step t a t' ∧ Path step t' tr₂ u := by
  induction h with
  | nil => simp at hm
  | @snoc tr v u b hp hst ih =>
    rcases List.mem_append.mp hm with hm | hm
    · obtain ⟨tr₁, t', tr₂, rfl, h1, h2, h3⟩ := ih hm
      exact ⟨tr₁, t', tr₂ ++ [(v, b)], by simp, h1, h2, .snoc h3 hst⟩
    · simp only [List.mem_singleton, Prod.mk.injEq] at hm
      obtain ⟨rfl, rfl⟩ := hm
      exact ⟨tr, u, [], by simp, hp, hst, .nil⟩

/-- The last step of a run. -/
theorem of_snoc {a : α} (h : Path step s (tr ++ [(t, a)]) u) : Path step s tr t ∧ step t a u := by
  generalize hx : tr ++ [(t, a)] = tr' at h
  cases h with
  | nil => simp at hx
  | snoc hp hst =>
    obtain ⟨rfl, hlast⟩ := List.append_inj' hx rfl
    obtain ⟨rfl, rfl⟩ := Prod.mk.inj (List.cons.inj hlast).1
    exact ⟨hp, hst⟩

/-- One run after the other. -/
theorem append {tr' : List (σ × α)} (h : Path step s tr t) (h' : Path step t tr' u) : Path step s (tr ++ tr') u := by
  induction h' with
  | nil => simpa using h
  | snoc _ hst ih =>
    rw [← List.append_assoc]
    exact ih.snoc hst

/-- A step in front of a run. -/
theorem cons {a : α} (h : Path step t tr u) (hst : step s a t) : Path step s ((s, a) :: tr) u := by
  induction h with
  | nil => exact .snoc .nil hst
  | snoc _ hst' ih => exact .snoc ih hst'

end Path

/-! ## History variables -/

/-- `step` with a history variable: `g` computes its new value from the step. -/
def withHistory (step : σ → α → σ → Prop) (g : σ → α → σ → γ → γ) : σ × γ → α → σ × γ → Prop :=
  fun x a y => step x.1 a y.1 ∧ y.2 = g x.1 a y.1 x.2

/-! ## Runs that can be computed -/

/-- The run with the labels `as` from `s` on, when `next` computes a step for each. -/
def play (next : σ → α → Option σ) (s : σ) : List α → Option (List (σ × α) × σ)
  | [] => some ([], s)
  | a :: as =>
    match next s a with
    | some t => (play next t as).map fun x => ((s, a) :: x.1, x.2)
    | none => none

section Play

variable {step : σ → α → σ → Prop} {next : σ → α → Option σ}

theorem path_of_play (hn : ∀ s a t, next s a = some t → step s a t) {as : List α} {s u : σ} {tr : List (σ × α)}
    (h : play next s as = some (tr, u)) : Path step s tr u := by
  induction as generalizing s tr with
  | nil =>
    simp only [play, Option.some.injEq, Prod.mk.injEq] at h
    obtain ⟨rfl, rfl⟩ := h
    exact .nil
  | cons a as ih =>
    simp only [play] at h
    split at h
    · next t ht =>
      obtain ⟨⟨tr', v⟩, hp, he⟩ := Option.map_eq_some_iff.mp h
      simp only [Prod.mk.injEq] at he
      obtain ⟨rfl, rfl⟩ := he
      exact (ih hp).cons (hn s a t ht)
    · exact absurd h (by simp)

/-- A computed run carries the labels it was computed from. -/
theorem labels_of_play {as : List α} {s u : σ} {tr : List (σ × α)} (h : play next s as = some (tr, u)) :
    tr.map Prod.snd = as := by
  induction as generalizing s tr with
  | nil =>
    simp only [play, Option.some.injEq, Prod.mk.injEq] at h
    obtain ⟨rfl, -⟩ := h
    rfl
  | cons a as ih =>
    simp only [play] at h
    split at h
    · obtain ⟨⟨tr', v⟩, hp, he⟩ := Option.map_eq_some_iff.mp h
      simp only [Prod.mk.injEq] at he
      obtain ⟨rfl, rfl⟩ := he
      rw [List.map_cons, ih hp]
    · exact absurd h (by simp)

/-- A computed run and what a test says about it. -/
theorem exists_path (hn : ∀ s a t, next s a = some t → step s a t) (s : σ) (as : List α)
    (P : List (σ × α) × σ → Bool) (h : (play next s as).any P = true) :
    ∃ tr u, Path step s tr u ∧ P (tr, u) = true := by
  obtain ⟨⟨tr, u⟩, hplay, hP⟩ := (Option.any_eq_true _ _).mp h
  exact ⟨tr, u, path_of_play hn hplay, hP⟩

/-- A step of the run carries one of its labels. -/
theorem mem_labels {as : List α} {tr : List (σ × α)} (htr : tr.map Prod.snd = as) {s : σ} {a : α} (hm : (s, a) ∈ tr) :
    a ∈ as :=
  htr ▸ List.mem_map_of_mem (f := Prod.snd) hm

/-- Steps that also compute the history variable. -/
def recorded (next : σ → α → Option σ) (g : σ → α → σ → γ → γ) (x : σ × γ) (a : α) : Option (σ × γ) :=
  (next x.1 a).map fun t => (t, g x.1 a t x.2)

theorem recorded_step (hn : ∀ s a t, next s a = some t → step s a t) (g : σ → α → σ → γ → γ) (x : σ × γ) (a : α)
    (y : σ × γ) (h : recorded next g x a = some y) : withHistory step g x a y := by
  obtain ⟨t, ht, rfl⟩ := Option.map_eq_some_iff.mp h
  exact ⟨hn _ _ _ ht, rfl⟩

end Play

end Seminars.Lib
