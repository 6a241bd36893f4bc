import Mathlib.Tactic.FinCases
import Seminars.Lib.Fair
import Seminars.Locks.Swap

/-!
# Seminars.Locks.SwapFair — waiting for the compare-and-swap lock

* `step_left`: every step brings its thread closer to the end, but for a `try` that fails.
* `swap_fair`: a schedule in which all threads keep taking steps ends, whatever else it does.
* `starve`: a schedule may let one thread fail at `try` for as long as another one has rounds to do.
-/

namespace Seminars.Locks.Swap

open Seminars.Lib

variable {N : ℕ} {inc : Fin N → ℤ} {id j : Fin N} {m m' : Memory} {t t' : Thread}
  {s s' u : Config (Fin N) Memory Thread} {tr : List (Config (Fin N) Memory Thread × Fin N)}

/-- How many steps of a round of the loop lie behind a thread. -/
def Pc.place : Pc → ℕ
  | .test => 0
  | .tryLock => 1
  | .loadCount => 2
  | .storeCount => 3
  | .unlock => 4
  | .next => 5
  | .done => 1

/-- How many steps thread `id` has left, those of failing `try`s apart. -/
def Thread.left (inc : Fin N → ℤ) (id : Fin N) (t : Thread) : ℕ := 6 * (inc id - t.i).toNat + 1 - t.pc.place

/-- **A step brings the thread closer to its end**, unless `try` fails. -/
theorem step_left (hmax : inc id < 2 ^ 31) (hl : Holds inc id m t) (h : step inc id (m, t) = some (m', t')) :
    (t.pc = .tryLock ∧ m.mutex ≠ 0) ∧ t' = t ∧ m' = m ∨ t'.left inc id < t.left inc id := by
  obtain ⟨-, -, hi, hm, -⟩ := hl
  rcases t with ⟨pc, i, tmp⟩
  cases pc
  case tryLock =>
    have hlt := hm (by simp) (by simp)
    simp only at hlt
    simp only [step] at h
    split_ifs at h with hz <;> simp only [Option.some.injEq, Prod.mk.injEq] at h <;> obtain ⟨rfl, rfl⟩ := h
    · right
      simp only [Thread.left, Pc.place]
      omega
    · exact .inl ⟨⟨rfl, hz⟩, rfl, rfl⟩
  all_goals simp only [step, Option.some.injEq, Prod.mk.injEq, reduceCtorEq] at h <;> obtain ⟨rfl, rfl⟩ := h
  case test =>
    right
    simp only at hi
    by_cases hlt : i < inc id
    · simp only [hlt, if_true, Thread.left, Pc.place]
      omega
    · simp only [hlt, if_false, Thread.left, Pc.place]
      omega
  case next =>
    right
    have hlt := hm (by simp) (by simp)
    simp only at hlt hi
    rw [Thread.left, Thread.left, int_eq (x := i + 1) (by omega)]
    simp only [Pc.place]
    omega
  all_goals
    right
    have hlt := hm (by simp) (by simp)
    simp only at hlt
    simp only [Thread.left, Pc.place]
    omega

/-- A `try` that fails. -/
def Idle (s : Config (Fin N) Memory Thread) (j : Fin N) (s' : Config (Fin N) Memory Thread) : Prop :=
  ((s.thread j).pc = .tryLock ∧ s.shared.mutex ≠ 0) ∧ s' = s

theorem idle_path (h : Path Idle s tr u) :
    u = s ∧ ∀ j, 0 < turns j tr → (s.thread j).pc = .tryLock ∧ s.shared.mutex ≠ 0 := by
  induction h with
  | nil => exact ⟨rfl, fun j hj => absurd hj (by simp [turns])⟩
  | @snoc tr v u k hp hst ih =>
    obtain ⟨rfl, ih⟩ := ih
    obtain ⟨hfail, rfl⟩ := hst
    refine ⟨rfl, fun j hj => ?_⟩
    rw [turns_snoc] at hj
    by_cases hk : k = j
    · exact hk ▸ hfail
    · rw [if_neg hk] at hj
      exact ih j hj

/-- **Why it ends**: no step raises the number of steps left, and `try`s all fail only while somebody is inside. -/
theorem ranked (hinc : ∀ id, 0 ≤ inc id) (hmax : ∑ id, inc id < 2 ^ 31) :
    Ranked (step inc) (·.pc = .done) 1 (Inv inc) (Thread.left inc) Idle where
  next hi h := hi.next hinc hmax h
  lower {s j s'} hi h := by
    obtain ⟨m, t, hst, hs'⟩ := Config.step_cases h
    rcases step_left (inc_lt hinc hmax j) (hi.pairs.each j) hst with ⟨hfail, rfl, rfl⟩ | hlt
    · obtain rfl : s' = s := by rw [hs', Function.update_eq_self]
      exact .inl ⟨⟨hfail, rfl⟩, rfl⟩
    · right
      rw [hs']
      simpa using hlt
  stuck hd := by simp [step, hd]
  busy {s tr u} hi _ hidle hfair := by
    obtain ⟨rfl, hseen⟩ := idle_path hidle
    intro j
    refine (hfair j).resolve_left fun hj => ?_
    -- the lock is taken: whoever is inside takes a step too
    obtain ⟨-, hmutex⟩ := hseen j hj
    have hin : ∃ id, (u.thread id).pc.inside := by
      by_contra hno
      exact hmutex (hi.free hno)
    obtain ⟨id, hid⟩ := hin
    rcases hfair id with h1 | hd
    · rw [(hseen id h1).1] at hid
      cases hid
    · rw [hd] at hid
      cases hid

/-- **The compare-and-swap lock under a fair schedule.**  If every thread takes a step in every round until it has
finished, then after more rounds than the threads have steps, the failing `try`s apart, all have finished, and `count`
is the sum of the `inc` values. -/
theorem swap_fair (N : ℕ) (inc : Fin N → ℤ) (hinc : ∀ id, 0 ≤ inc id) (hmax : ∑ id, inc id < 2 ^ 31) (n : ℕ)
    (s : Config (Fin N) Memory Thread) (h : Rounds (Round (step inc) (·.pc = .done) 1) start n s)
    (hn : ∑ id, (6 * (inc id).toNat + 1) < n) : (∀ id, (s.thread id).pc = .done) ∧ s.shared.count = ∑ id, inc id := by
  have hstart : ∑ id, (start.thread id).left inc id = ∑ id, (6 * (inc id).toNat + 1) := by
    refine Finset.sum_congr rfl fun id _ => ?_
    simp only [start, Thread.left, Pc.place]
    omega
  obtain ⟨hi, hf⟩ := (ranked hinc hmax).finish h (start_inv hinc) (by rw [hstart]; exact hn)
  refine ⟨hf, ?_⟩
  rw [hi.count]
  refine Finset.sum_congr rfl fun id _ => ?_
  simp [Thread.made, hf id, (hi.pairs.each id).done (hf id)]

/-- Three threads with `inc` 0, 1 and 2. -/
theorem swap_fair_three : ∃ s, Rounds (Round (step ![0, 1, 2]) (·.pc = .done) 1) start 22 s ∧
    (∀ id, (s.thread id).pc = .done) ∧ s.shared.count = ∑ id, ![0, 1, 2] id := by
  obtain ⟨tr, s, hp, hd⟩ := Config.exists_path (step ![0, 1, 2]) start
    ([0, 1, 2, 1, 2, 1, 1] ++ List.replicate 3 1 ++ List.replicate 12 2)
    (fun x => decide (∀ id, (x.2.thread id).pc = .done)) (by decide +kernel)
  have hd := of_decide_eq_true hd
  have hone : Rounds (Round (step ![0, 1, 2]) (·.pc = .done) 1) start 1 s := .succ .zero ⟨tr, hp, fun i => .inr (hd i)⟩
  have hall := hone.rest (round_self hd) 21
  exact ⟨s, hall, swap_fair 3 ![0, 1, 2] (by decide) (by decide) 22 s hall (by decide)⟩

/-! ### Starvation -/

section Starve

variable {inc : Fin 2 → ℤ} {a a' b b' : Thread}

theorem step_left_thread (h : step inc 0 (m, a) = some (m', a')) :
    Config.Step (step inc) ⟨m, ![a, b]⟩ 0 ⟨m', ![a', b]⟩ := by
  have hup : Function.update ![a, b] 0 a' = ![a', b] := by
    ext id : 1
    fin_cases id <;> rfl
  show ((step inc 0 (m, a)).map fun x => (⟨x.1, Function.update ![a, b] 0 x.2⟩ : Config (Fin 2) Memory Thread)) = _
  rw [h, Option.map_some, hup]

theorem step_right_thread (h : step inc 1 (m, b) = some (m', b')) :
    Config.Step (step inc) ⟨m, ![a, b]⟩ 1 ⟨m', ![a, b']⟩ := by
  have hup : Function.update ![a, b] 1 b' = ![a, b'] := by
    ext id : 1
    fin_cases id <;> rfl
  show ((step inc 1 (m, b)).map fun x => (⟨x.1, Function.update ![a, b] 1 x.2⟩ : Config (Fin 2) Memory Thread)) = _
  rw [h, Option.map_some, hup]

/-- How often thread 0 passes `try`, and how often thread 1 fails at it. -/
def passes (tr : List (Config (Fin 2) Memory Thread × Fin 2)) : ℕ :=
  tr.countP fun x => x.2.val = 0 ∧ (x.1.thread x.2).pc = .loadCount

/-- Before a round of thread 0, thread 1 at `try`. -/
def between (i : ℕ) (tmp : ℤ) : Config (Fin 2) Memory Thread :=
  ⟨{ count := i, mutex := 0 }, ![{ pc := .test, i := i, tmp := tmp }, { pc := .tryLock }]⟩

theorem exists_round {k i : ℕ} (hk : k < 2 ^ 31) (hi : i < k) (tmp : ℤ) :
    ∃ tr, Path (Config.Step (step ![(k : ℤ), 1])) (between i tmp) tr (between (i + 1) i) ∧ passes tr = 1 ∧
      turns 1 tr = 1 ∧ ∀ x ∈ tr, (x.1.thread 1).pc = .tryLock := by
  have hint : int (i + 1 : ℤ) = ((i + 1 : ℕ) : ℤ) := by
    rw [int_eq (by omega)]
    rfl
  set w : Thread := { pc := .tryLock } with hw
  have h1 : step ![(k : ℤ), 1] 0 ({ count := i }, { pc := .test, i := i, tmp := tmp }) =
      some ({ count := i }, { pc := .tryLock, i := i, tmp := tmp }) := by
    simp [step, hi]
  have h2 : step ![(k : ℤ), 1] 0 ({ count := i }, { pc := .tryLock, i := i, tmp := tmp }) =
      some ({ count := i, mutex := 1 }, { pc := .loadCount, i := i, tmp := tmp }) := rfl
  have h3 : step ![(k : ℤ), 1] 1 ({ count := i, mutex := 1 }, w) = some ({ count := i, mutex := 1 }, w) := rfl
  have h4 : step ![(k : ℤ), 1] 0 ({ count := i, mutex := 1 }, { pc := .loadCount, i := i, tmp := tmp }) =
      some ({ count := i, mutex := 1 }, { pc := .storeCount, i := i, tmp := i }) := rfl
  have h5 : step ![(k : ℤ), 1] 0 ({ count := i, mutex := 1 }, { pc := .storeCount, i := i, tmp := i }) =
      some ({ count := (i + 1 : ℕ), mutex := 1 }, { pc := .unlock, i := i, tmp := i }) := by
    simp only [step, hint]
  have h6 : step ![(k : ℤ), 1] 0 ({ count := (i + 1 : ℕ), mutex := 1 }, { pc := .unlock, i := i, tmp := i }) =
      some ({ count := (i + 1 : ℕ), mutex := 0 }, { pc := .next, i := i, tmp := i }) := rfl
  have h7 : step ![(k : ℤ), 1] 0 ({ count := (i + 1 : ℕ), mutex := 0 }, { pc := .next, i := i, tmp := i }) =
      some ({ count := (i + 1 : ℕ), mutex := 0 }, { pc := .test, i := (i + 1 : ℕ), tmp := i }) := by
    simp only [step, hint]
  refine ⟨_, .snoc (.snoc (.snoc (.snoc (.snoc (.snoc (.snoc .nil (step_left_thread h1)) (step_left_thread h2))
    (step_right_thread h3)) (step_left_thread h4)) (step_left_thread h5)) (step_left_thread h6)) (step_left_thread h7),
    rfl, rfl, ?_⟩
  intro x hx
  simp only [List.nil_append, List.cons_append, List.mem_cons, List.not_mem_nil, or_false] at hx
  rcases hx with rfl | rfl | rfl | rfl | rfl | rfl | rfl <;> rfl

/-- **No bounded bypass.**  For every `k` there is a run in which thread 1 waits at `try` and takes `k` steps there, all
of which fail, for it is still there at the end, and thread 0 passes `try` `k` times. -/
theorem starve (k : ℕ) (hk : k < 2 ^ 31) : ∃ tr₀ s tr u,
    Path (Config.Step (step ![(k : ℤ), 1])) start tr₀ s ∧ Path (Config.Step (step ![(k : ℤ), 1])) s tr u ∧
      (∀ x ∈ tr, (x.1.thread 1).pc = .tryLock) ∧ (u.thread 1).pc = .tryLock ∧ turns 1 tr = k ∧ passes tr = k := by
  have hrun : ∀ n ≤ k, ∃ tr tmp, Path (Config.Step (step ![(k : ℤ), 1])) (between 0 0) tr (between n tmp) ∧
      (∀ x ∈ tr, (x.1.thread 1).pc = .tryLock) ∧ turns 1 tr = n ∧ passes tr = n := by
    intro n
    induction n with
    | zero => exact fun _ => ⟨[], 0, .nil, by simp, rfl, rfl⟩
    | succ n ih =>
      intro hn
      obtain ⟨tr, tmp, hp, hw, ht, hc⟩ := ih (by omega)
      obtain ⟨tr', hp', hc', ht', hw'⟩ := exists_round hk (show n < k by omega) tmp
      refine ⟨tr ++ tr', n, hp.append hp', fun x hx => ?_, ?_, ?_⟩
      · exact (List.mem_append.mp hx).elim (hw x) (hw' x)
      · rw [turns] at ht ht' ⊢
        rw [List.countP_append, ht, ht']
      · rw [passes] at hc hc' ⊢
        rw [List.countP_append, hc, hc']
  obtain ⟨tr, tmp, hp, hw, ht, hc⟩ := hrun k le_rfl
  have hstart : (start : Config (Fin 2) Memory Thread) = ⟨{}, ![{}, {}]⟩ := by
    have hf : (fun _ => {} : Fin 2 → Thread) = ![{}, {}] := by
      ext id : 1
      fin_cases id <;> rfl
    rw [start, hf]
  refine ⟨[(start, 1)], between 0 0, tr, between k tmp, ?_, hp, hw, rfl, ht, hc⟩
  refine .snoc .nil ?_
  rw [hstart]
  exact step_right_thread rfl

/-- A run in which thread 0 passes `try` twice. -/
theorem starve_two : ∃ tr₀ s tr u,
    Path (Config.Step (step ![2, 1])) start tr₀ s ∧ Path (Config.Step (step ![2, 1])) s tr u ∧
      (∀ x ∈ tr, (x.1.thread 1).pc = .tryLock) ∧ (u.thread 1).pc = .tryLock ∧ turns 1 tr = 2 ∧ passes tr = 2 :=
  starve 2 (by decide)

end Starve

end Seminars.Locks.Swap
