import Seminars.Lib.Interleave

/-!
# Seminars.Lib.Fair — runs that are fair to every thread

A round is a piece of a run in which every thread takes `k` steps or has ended.  A rank that no step raises and every
round lowers bounds the number of rounds.

* `Path.idle_or_lt`: a run either lowers the rank or consists of steps that keep it (`Idle`).
* `Path.countP_le`: how often a run lowers a rank that its other steps raise by one at most.
* `Rounds.finish`: after more rounds than the rank of the start the program has ended.
* `Ranked`: what makes a program end under every fair schedule.  The rank of a configuration is the sum of the ranks of
  its threads (`Config.sum_lt`, `Config.sum_eq`); `Ranked.finish` bounds the number of rounds.
-/

namespace Seminars.Lib

/-! ### Ranks -/

section Rank

variable {σ α : Type} {step : σ → α → σ → Prop} {I : σ → Prop} {s u : σ} {tr : List (σ × α)}

/-- **A run lowers the rank or idles.** -/
theorem Path.idle_or_lt (Idle : σ → α → σ → Prop) (rank : σ → ℕ) (h : Path step s tr u) (hI : I s)
    (hs : ∀ t a t', I t → step t a t' → I t' ∧ (Idle t a t' ∧ rank t' = rank t ∨ rank t' < rank t)) :
    I u ∧ (Path Idle s tr u ∧ rank u = rank s ∨ rank u < rank s) := by
  induction h with
  | nil => exact ⟨hI, .inl ⟨.nil, rfl⟩⟩
  | snoc _ hst ih =>
    obtain ⟨hIt, ht⟩ := ih
    obtain ⟨hIu, hu⟩ := hs _ _ _ hIt hst
    refine ⟨hIu, ?_⟩
    rcases ht with ⟨hp, he⟩ | hlt
    · rcases hu with ⟨hidle, he'⟩ | hlt
      · exact .inl ⟨.snoc hp hidle, he'.trans he⟩
      · exact .inr (he ▸ hlt)
    · rcases hu with ⟨-, he'⟩ | hlt'
      · exact .inr (he' ▸ hlt)
      · exact .inr (hlt'.trans hlt)

/-- Nothing happens after a state without steps. -/
theorem Path.eq_of_stuck (h : Path step s tr u) (hs : ∀ a t, ¬ step s a t) : u = s := by
  induction h with
  | nil => rfl
  | snoc _ hst ih =>
    subst ih
    exact absurd hst (hs _ _)

/-- **Steps that lower a rank** are bounded by the rank at the start and the number of the other steps, if each of those
raises it by one at most. -/
theorem Path.countP_le {J : σ → ℕ → Prop} {p : α → Prop} [DecidablePred p] {n : ℕ} (h : Path step s tr u) (hJ : J s n)
    (hs : ∀ t a t' n, J t n → step t a t' → ∃ n', J t' n' ∧ if p a then n' < n else n' ≤ n + 1) :
    ∃ k, J u k ∧ tr.countP (fun x => p x.2) + k ≤ n + tr.countP (fun x => ¬ p x.2) := by
  induction h with
  | nil => exact ⟨n, hJ, by simp⟩
  | @snoc tr t u a _ hst ih =>
    obtain ⟨k, hk, hle⟩ := ih
    obtain ⟨k', hk', hstep⟩ := hs _ _ _ _ hk hst
    refine ⟨k', hk', ?_⟩
    rw [List.countP_append, List.countP_append, List.countP_singleton, List.countP_singleton]
    by_cases hp : p a
    · simp only [hp, if_true, not_true, decide_true, decide_false, if_false, Bool.false_eq_true] at hstep ⊢
      omega
    · simp only [hp, if_true, not_false_eq_true, decide_true, decide_false, if_false, Bool.false_eq_true] at hstep ⊢
      omega

/-- `n` rounds, one after the other. -/
inductive Rounds (round : σ → σ → Prop) (s : σ) : ℕ → σ → Prop
  | zero : Rounds round s 0 s
  | succ {n : ℕ} {t u : σ} : Rounds round s n t → round t u → Rounds round s (n + 1) u

variable {round : σ → σ → Prop} {n : ℕ}

/-- **A program whose rounds lower a rank ends.** -/
theorem Rounds.finish (final : σ → Prop) (rank : σ → ℕ) (h : Rounds round s n u) (hI : I s)
    (hr : ∀ t u, I t → round t u → I u ∧ (final t → final u) ∧ (final t ∨ rank u < rank t)) (hn : rank s < n) :
    I u ∧ final u := by
  have key : ∀ {n : ℕ} {u : σ}, Rounds round s n u → I u ∧ (final u ∨ rank u + n ≤ rank s) := by
    intro n u h
    induction h with
    | zero => exact ⟨hI, .inr le_rfl⟩
    | succ _ hround ih =>
      obtain ⟨hIt, ht⟩ := ih
      obtain ⟨hIu, hkeep, hlow⟩ := hr _ _ hIt hround
      refine ⟨hIu, ?_⟩
      rcases ht with ht | ht
      · exact .inl (hkeep ht)
      · rcases hlow with hlow | hlow
        · exact .inl (hkeep hlow)
        · exact .inr (by omega)
  obtain ⟨hIu, hu⟩ := key h
  exact ⟨hIu, hu.resolve_right (by omega)⟩

/-- Rounds in which nothing has to happen any more. -/
theorem Rounds.rest (h : Rounds round s n u) (hu : round u u) (k : ℕ) : Rounds round s (n + k) u := by
  induction k with
  | zero => exact h
  | succ k ih => exact .succ ih hu

end Rank

/-! ### Rounds of threads -/

section Threads

variable {ι μ τ : Type} [DecidableEq ι] {step : ι → μ × τ → Option (μ × τ)} {s u : Config ι μ τ} {i : ι}

/-- How often thread `i` takes a step. -/
def turns (i : ι) (tr : List (Config ι μ τ × ι)) : ℕ := tr.countP (·.2 = i)

/-- **A round**: every thread takes `k` steps, or has ended at the end of the round. -/
def Round (step : ι → μ × τ → Option (μ × τ)) (ended : τ → Prop) (k : ℕ) (s u : Config ι μ τ) : Prop :=
  ∃ tr, Path (Config.Step step) s tr u ∧ ∀ i, k ≤ turns i tr ∨ ended (u.thread i)

theorem turns_snoc (i : ι) (tr : List (Config ι μ τ × ι)) (t : Config ι μ τ) (j : ι) :
    turns i (tr ++ [(t, j)]) = turns i tr + if j = i then 1 else 0 := by
  rw [turns, List.countP_append, List.countP_singleton]
  simp [turns]

theorem round_self {ended : τ → Prop} {k : ℕ} (h : ∀ i, ended (s.thread i)) : Round step ended k s s :=
  ⟨[], .nil, fun i => .inr (h i)⟩

/-- The thread that takes the step. -/
theorem Config.step_self (h : Config.Step step s i u) :
    step i (s.shared, s.thread i) = some (u.shared, u.thread i) := by
  obtain ⟨m, t, hst, rfl⟩ := Config.step_cases h
  rw [hst]
  simp

/-- The other threads stay where they are. -/
theorem Config.step_other {j : ι} (h : Config.Step step s i u) (hj : j ≠ i) : u.thread j = s.thread j := by
  obtain ⟨m, t, -, rfl⟩ := Config.step_cases h
  exact Function.update_of_ne hj _ _

/-- A thread that takes no step stays where it is. -/
theorem thread_of_turns_eq {tr : List (Config ι μ τ × ι)} (h : Path (Config.Step step) s tr u) (hi : turns i tr = 0) :
    u.thread i = s.thread i := by
  induction h with
  | nil => rfl
  | @snoc tr t u j hp hst ih =>
    rw [turns_snoc] at hi
    have hji : j ≠ i := by
      rintro rfl
      rw [if_pos rfl] at hi
      omega
    rw [Config.step_other hst hji.symm]
    exact ih (by omega)

variable [Fintype ι]

theorem Config.sum_lt (part : ι → τ → ℕ) (h : Config.Step step s i u)
    (hlt : part i (u.thread i) < part i (s.thread i)) : ∑ j, part j (u.thread j) < ∑ j, part j (s.thread j) := by
  refine Finset.sum_lt_sum (fun j _ => ?_) ⟨i, Finset.mem_univ i, hlt⟩
  by_cases hj : j = i
  · subst hj
    exact hlt.le
  · rw [Config.step_other h hj]

theorem Config.sum_eq (part : ι → τ → ℕ) (h : Config.Step step s i u)
    (he : part i (u.thread i) = part i (s.thread i)) : ∑ j, part j (u.thread j) = ∑ j, part j (s.thread j) := by
  refine Finset.sum_congr rfl fun j _ => ?_
  by_cases hj : j = i
  · subst hj
    exact he
  · rw [Config.step_other h hj]

/-- **A program that ends under fair schedules**: a step keeps the invariant `I`, and brings its thread closer to the
end or idles; and when a whole round idles (`busy`), that is because every thread has ended. -/
structure Ranked (step : ι → μ × τ → Option (μ × τ)) (ended : τ → Prop) (k : ℕ) (I : Config ι μ τ → Prop)
    (part : ι → τ → ℕ) (Idle : Config ι μ τ → ι → Config ι μ τ → Prop) : Prop where
  next : ∀ {s i u}, I s → Config.Step step s i u → I u
  lower : ∀ {s i u}, I s → Config.Step step s i u →
    Idle s i u ∧ part i (u.thread i) = part i (s.thread i) ∨ part i (u.thread i) < part i (s.thread i)
  stuck : ∀ {i m t}, ended t → step i (m, t) = none
  busy : ∀ {s tr u}, I s → Path (Config.Step step) s tr u → Path Idle s tr u →
    (∀ i, k ≤ turns i tr ∨ ended (u.thread i)) → ∀ i, ended (s.thread i)

variable {ended : τ → Prop} {k n : ℕ} {I : Config ι μ τ → Prop} {part : ι → τ → ℕ}
  {Idle : Config ι μ τ → ι → Config ι μ τ → Prop}

omit [Fintype ι] in
/-- Nothing happens once every thread has ended. -/
theorem Ranked.eq_of_ended (hp : Ranked step ended k I part Idle) {tr : List (Config ι μ τ × ι)}
    (h : Path (Config.Step step) s tr u) (hf : ∀ i, ended (s.thread i)) : u = s := by
  refine h.eq_of_stuck fun i t hst => ?_
  obtain ⟨m, w, hs, -⟩ := Config.step_cases hst
  rw [hp.stuck (hf i)] at hs
  cases hs

/-- **A round gets something done**, unless all threads have ended. -/
theorem Ranked.round (hp : Ranked step ended k I part Idle) (hI : I s) (hr : Round step ended k s u) :
    I u ∧ ((∀ i, ended (s.thread i)) → ∀ i, ended (u.thread i)) ∧
      ((∀ i, ended (s.thread i)) ∨ ∑ i, part i (u.thread i) < ∑ i, part i (s.thread i)) := by
  obtain ⟨tr, h, hfair⟩ := hr
  obtain ⟨hu, hrank⟩ := h.idle_or_lt Idle (fun c => ∑ i, part i (c.thread i)) hI fun t i w hI hst =>
    ⟨hp.next hI hst, (hp.lower hI hst).imp (And.imp_right (Config.sum_eq part hst)) (Config.sum_lt part hst)⟩
  refine ⟨hu, fun hf => ?_, ?_⟩
  · rw [hp.eq_of_ended h hf]
    exact hf
  · rcases hrank with ⟨hidle, -⟩ | hlt
    · exact .inl (hp.busy hI h hidle hfair)
    · exact .inr hlt

/-- **A fair schedule ends**: after more rounds than the threads have steps, those that idle apart. -/
theorem Ranked.finish (hp : Ranked step ended k I part Idle) (h : Rounds (Round step ended k) s n u) (hI : I s)
    (hn : ∑ i, part i (s.thread i) < n) : I u ∧ ∀ i, ended (u.thread i) :=
  h.finish (fun c => ∀ i, ended (c.thread i)) (fun c => ∑ i, part i (c.thread i)) hI
    (fun _ _ hI hr => hp.round hI hr) hn

end Threads

end Seminars.Lib
