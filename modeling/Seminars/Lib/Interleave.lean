import Mathlib.Algebra.BigOperators.Group.Finset.Basic
import Mathlib.Algebra.BigOperators.Fin
import Mathlib.Algebra.Order.BigOperators.Group.Finset
import Mathlib.Data.Fintype.BigOperators
import Mathlib.Data.Fintype.Card
import Mathlib.Data.Set.Finite.Basic
import Mathlib.Logic.Relation
import Mathlib.Tactic.Common
import Seminars.Lib.Path

/-!
# Seminars.Lib.Interleave — threads that share a memory

`Config ι μ τ`: a shared memory `μ` and one local state `τ` for each thread in `ι`.  A program is a function
`step i : μ × τ → Option (μ × τ)` (one atomic step of thread `i`); `Config.next` lets one thread take one step,
and a run of `Config.Step` is an interleaving.

* `Pairs L R`, `Pairs.next` — the rule of Owicki and Gries with assertions about one thread (`L`) and about two
  threads (`R`): kept by a thread's own step, and by a step of another thread.
* `Config.sum_next` — how a sum over the threads changes in one step.
* `exists_cycle` — of finitely many threads that all wait for one of them, some wait in a circle.  `no_cycle` — none
  do when whoever waits is below who is waited for.
-/

namespace Seminars.Lib

variable {ι μ τ : Type}

/-- A shared memory and the local state of each thread. -/
structure Config (ι μ τ : Type) where
  shared : μ
  thread : ι → τ

section Step

variable [DecidableEq ι] {step : ι → μ × τ → Option (μ × τ)} {s s' : Config ι μ τ} {i : ι}

/-- Thread `i` takes one atomic step. -/
def Config.next (step : ι → μ × τ → Option (μ × τ)) (s : Config ι μ τ) (i : ι) : Option (Config ι μ τ) :=
  (step i (s.shared, s.thread i)).map fun x => ⟨x.1, Function.update s.thread i x.2⟩

/-- One step of an interleaving; the label says which thread took it. -/
def Config.Step (step : ι → μ × τ → Option (μ × τ)) (s : Config ι μ τ) (i : ι) (s' : Config ι μ τ) : Prop :=
  s.next step i = some s'

theorem Config.step_cases (h : Config.Step step s i s') :
    ∃ m t, step i (s.shared, s.thread i) = some (m, t) ∧ s' = ⟨m, Function.update s.thread i t⟩ := by
  obtain ⟨⟨m, t⟩, hs, rfl⟩ := Option.map_eq_some_iff.mp h
  exact ⟨m, t, hs, rfl⟩

/-- An interleaving that is computed from the order in which the threads take their steps. -/
theorem Config.exists_path (step : ι → μ × τ → Option (μ × τ)) (s : Config ι μ τ) (is : List ι)
    (P : List (Config ι μ τ × ι) × Config ι μ τ → Bool) (h : (play (Config.next step) s is).any P = true) :
    ∃ tr u, Path (Config.Step step) s tr u ∧ P (tr, u) = true :=
  Lib.exists_path (fun _ _ _ hn => hn) s is P h

/-! ## Assertions about one thread and about two threads -/

/-- `L` holds of every thread and `R` of every two threads. -/
structure Pairs (L : ι → μ → τ → Prop) (R : ι → ι → μ → τ → τ → Prop) (s : Config ι μ τ) : Prop where
  each : ∀ i, L i s.shared (s.thread i)
  two : ∀ i j, i ≠ j → R i j s.shared (s.thread i) (s.thread j)

variable {L : ι → μ → τ → Prop} {R : ι → ι → μ → τ → τ → Prop}

/-- **Interference freedom**: a step of thread `i` keeps its own assertion (`own`), the assertion of another thread
(`other`), what is said of it and another thread (`left`, `right`), and what is said of two others (`apart`). -/
theorem Pairs.next (hp : Pairs L R s) (h : Config.Step step s i s')
    (own : ∀ m t m' t', step i (m, t) = some (m', t') → L i m t → L i m' t')
    (other : ∀ j m t m' t' u, i ≠ j → step i (m, t) = some (m', t') → L i m t → L j m u → R i j m t u →
      L j m' u)
    (left : ∀ j m t m' t' u, i ≠ j → step i (m, t) = some (m', t') → L i m t → L j m u → R i j m t u →
      R i j m' t' u)
    (right : ∀ j m t m' t' u, i ≠ j → step i (m, t) = some (m', t') → L i m t → L j m u → R j i m u t →
      R j i m' u t')
    (apart : ∀ j k m t m' t' u v, i ≠ j → i ≠ k → j ≠ k → step i (m, t) = some (m', t') → R j k m u v →
      R j k m' u v) : Pairs L R s' := by
  obtain ⟨m, t, hs, rfl⟩ := Config.step_cases h
  constructor
  · intro j
    dsimp only
    by_cases hj : i = j
    · subst hj
      simpa using own _ _ _ _ hs (hp.each i)
    · rw [Function.update_of_ne (Ne.symm hj)]
      exact other j _ _ _ _ _ hj hs (hp.each i) (hp.each j) (hp.two i j hj)
  · intro j k hjk
    dsimp only
    by_cases hj : i = j
    · subst hj
      rw [Function.update_self, Function.update_of_ne (Ne.symm hjk)]
      exact left k _ _ _ _ _ hjk hs (hp.each i) (hp.each k) (hp.two i k hjk)
    rw [Function.update_of_ne (Ne.symm hj)]
    by_cases hk : i = k
    · subst hk
      rw [Function.update_self]
      exact right j _ _ _ _ _ hj hs (hp.each i) (hp.each j) (hp.two j i hjk)
    · rw [Function.update_of_ne (Ne.symm hk)]
      exact apart j k _ _ _ _ _ _ hj hk hjk hs (hp.two j k hjk)

/-! ## Sums over the threads -/

variable [Fintype ι]

/-- One step changes one term of a sum over the threads. -/
theorem Config.sum_next (part : τ → ℤ) {t : τ} :
    ∑ j, part (Function.update s.thread i t j) = ∑ j, part (s.thread j) + (part t - part (s.thread i)) := by
  have hc : ∀ j, part (Function.update s.thread i t j) = Function.update (fun j => part (s.thread j)) i (part t) j := by
    intro j
    by_cases hj : j = i
    · subst hj; simp
    · simp [hj]
  rw [Finset.sum_congr rfl fun j _ => hc j, Finset.sum_update_of_mem (Finset.mem_univ i),
    ← Finset.sum_sdiff (Finset.subset_univ {i}) (f := fun j => part (s.thread j)), Finset.sum_singleton]
  omega

end Step

/-- What a thread has counted: `i`, and one more while `p` says that this round of its loop has been counted. -/
theorem ite_counted {p : Prop} [Decidable p] {i n : ℤ} (h : 0 ≤ i ∧ i ≤ n) (hp : p → i < n) :
    0 ≤ (if p then i + 1 else i) ∧ (if p then i + 1 else i) ≤ n := by
  split_ifs with hi
  · have := hp hi
    omega
  · exact h

/-! ### Threads that wait for each other -/

/-- In a finite set whose members all lead on within it, something leads to itself. -/
theorem exists_cycle {α : Type} {r : α → α → Prop} {S : Set α} (hS : S.Finite) {x : α} (hx : x ∈ S)
    (hr : ∀ y ∈ S, ∃ z ∈ S, r y z) : ∃ y, Relation.TransGen r y y := by
  by_contra hno
  have hfin := hS.to_subtype
  have htrans : IsTrans S fun y z => Relation.TransGen r z.1 y.1 := ⟨fun _ _ _ h h' => h'.trans h⟩
  have hirrefl : Std.Irrefl fun y z : S => Relation.TransGen r z.1 y.1 := ⟨fun y h => hno ⟨y.1, h⟩⟩
  have hwf := Finite.wellFounded_of_trans_of_irrefl fun y z : S => Relation.TransGen r z.1 y.1
  -- a last member leads on to one after it
  obtain ⟨y, -, hy⟩ := hwf.has_min Set.univ ⟨⟨x, hx⟩, trivial⟩
  obtain ⟨z, hz, hyz⟩ := hr y.1 y.2
  exact hy ⟨z, hz⟩ trivial (.single hyz)

/-- Nothing leads to itself if everything that is led to is further up. -/
theorem no_cycle {α β : Type} [Preorder β] {r : α → α → Prop} (up : α → β) (hr : ∀ y z, r y z → up y < up z) (y : α) :
    ¬ Relation.TransGen r y y := by
  intro hy
  have hlt : Relation.TransGen (· < ·) (up y) (up y) := hy.lift up hr
  rw [Relation.transGen_eq_self] at hlt
  exact lt_irrefl _ hlt

end Seminars.Lib
