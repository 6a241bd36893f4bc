import Seminars.Lib.Fair
import Seminars.Locks.Peterson

/-!
# Seminars.Locks.PetersonFair — waiting for Peterson's lock

* `bypass_once`: while one thread waits in the loop of `lock`, the other passes `lock` at most once.
* `step_left`: every step brings its thread closer to the end, but for the loads of a spinning thread.
* `peterson_fair`: a schedule in which both threads keep taking steps ends, whatever else it does.
-/

namespace Seminars.Locks.Peterson

open Seminars.Lib

section Bypass

variable {inc : ℤ} {id : Fin 2} {m m' : Memory} {t t' : Thread}

/-- The thread with the id `other id` does not pass `lock` before thread `id` has: it has the lock behind it, or it
will find `turn` against it. -/
def Barred (id : Fin 2) (m : Memory) (t : Thread) : Prop := t.pc ≠ .loadCount ∧ (t.pc.spins → m.turn = id.val)

theorem other_other (id : Fin 2) : other (other id) = id := by
  fin_cases id <;> rfl

theorem other_ne (id : Fin 2) : other id ≠ id := by
  fin_cases id <;> decide

theorem eq_or_other (id j : Fin 2) : j = id ∨ j = other id := by
  fin_cases id <;> fin_cases j <;> decide

/-- A step of the other thread, while thread `id` waits: it stays barred, or becomes barred by passing `lock`. -/
theorem Barred.step (h : step inc (other id) (m, t) = some (m', t')) (hr : m.request id = 1)
    (hb : Barred id m t ∨ t.pc = .loadCount) : Barred id m' t' := by
  have ho := other_other id
  rcases t with ⟨pc, i, tmp⟩
  cases pc <;> simp only [Peterson.step, Option.some.injEq, Prod.mk.injEq, reduceCtorEq] at h <;> obtain ⟨rfl, rfl⟩ := h
  case test => split_ifs <;> exact ⟨by simp, by simp [Pc.spins]⟩
  case setTurn => exact ⟨by simp, fun _ => by rw [ho]⟩
  case loadRequest =>
    have hturn := (hb.resolve_right (by simp)).2 rfl
    rw [ho, if_pos hr]
    exact ⟨by simp, fun _ => hturn⟩
  case loadTurn =>
    have hturn := (hb.resolve_right (by simp)).2 rfl
    rw [ho, if_pos hturn]
    exact ⟨by simp, fun _ => hturn⟩
  all_goals exact ⟨by simp, by simp [Pc.spins]⟩

theorem step_spins (h : step inc id (m, t) = some (m', t')) (hs : t.pc.spins) : m' = m := by
  rcases t with ⟨pc, i, tmp⟩
  cases pc <;> simp only [step, Option.some.injEq, Prod.mk.injEq, reduceCtorEq] at h <;> obtain ⟨rfl, rfl⟩ := h
  case loadRequest | loadTurn => rfl
  all_goals simp [Pc.spins] at hs

variable {s u : Config (Fin 2) Memory Thread} {tr₀ tr : List (Config (Fin 2) Memory Thread × Fin 2)}

/-- A thread's `request` is set from its first store in `lock` to the store of `unlock`. -/
theorem request_run (h : Path (Config.Step (step inc)) start tr s) (id : Fin 2) :
    s.shared.request id = if (s.thread id).pc.asks then 1 else 0 := by
  induction h with
  | nil => rfl
  | @snoc tr s u j _ hst ih =>
    have hs := Config.step_self hst
    by_cases hj : j = id
    · subst hj
      exact step_request hs ih
    · rw [step_request_other hj hs, Config.step_other hst (Ne.symm hj)]
      exact ih

/-- **Bounded bypass.**  In every run, while a thread is in the loop of `lock`, the other one passes `lock` at most
once (it loads `count` at most once). -/
theorem bypass_once (h₀ : Path (Config.Step (step inc)) start tr₀ s)
    (h : Path (Config.Step (step inc)) s tr u) (hw : ∀ x ∈ tr, (x.1.thread id).pc.spins) :
    tr.countP (fun x => x.2 = other id ∧ (x.1.thread x.2).pc = .loadCount) ≤ 1 := by
  suffices key : tr.countP (fun x => x.2 = other id ∧ (x.1.thread x.2).pc = .loadCount) = 0 ∨
      tr.countP (fun x => x.2 = other id ∧ (x.1.thread x.2).pc = .loadCount) = 1 ∧
        Barred id u.shared (u.thread (other id)) by
    rcases key with key | ⟨key, -⟩
    · exact key.le.trans (Nat.zero_le 1)
    · exact key.le
  induction h with
  | nil => exact .inl rfl
  | @snoc tr v u j hp hst ih =>
    have ih := ih fun x hx => hw x (by simp [hx])
    have hspin : (v.thread id).pc.spins := hw (v, j) (by simp)
    have hreq : v.shared.request id = 1 := by
      rw [request_run (h₀.append hp) id, if_pos (by simp [Pc.asks, hspin])]
    rw [List.countP_append, List.countP_singleton]
    obtain ⟨m, t, hs, rfl⟩ := Config.step_cases hst
    rcases eq_or_other id j with rfl | rfl
    · -- a load of the waiting thread
      obtain rfl := step_spins hs hspin
      rw [if_neg (by simp [(other_ne j).symm]), Nat.add_zero]
      dsimp only
      rw [Function.update_of_ne (other_ne j)]
      exact ih
    · dsimp only
      rw [Function.update_self]
      by_cases hload : (v.thread (other id)).pc = .loadCount
      · have hb := Barred.step hs hreq (.inr hload)
        rcases ih with ih | ⟨-, hbar⟩
        · refine .inr ⟨?_, hb⟩
          rw [ih, if_pos (by simp [hload])]
        · exact absurd hload hbar.1
      · rw [if_neg (by simp [hload]), Nat.add_zero]
        rcases ih with ih | ⟨ih, hbar⟩
        · exact .inl ih
        · exact .inr ⟨ih, Barred.step hs hreq (.inl hbar)⟩

/-- Thread 1 passes `lock` while thread 0 waits. -/
theorem bypass_once_one : ∃ tr₀ s tr u, Path (Config.Step (step 1)) start tr₀ s ∧ Path (Config.Step (step 1)) s tr u ∧
    (∀ x ∈ tr, (x.1.thread 0).pc.spins) ∧ ((u.thread 1).pc = .clearRequest ∧
    tr.countP (fun x => x.2 = other 0 ∧ (x.1.thread x.2).pc = .loadCount) ≤ 1) := by
  obtain ⟨tr₀, s, h₀, hs⟩ := Config.exists_path (step 1) start [1, 1, 1, 0, 0, 0]
    (fun x => (play (Config.next (step 1)) x.2 [0, 0, 1, 1, 1, 1]).any
      fun y : List (Config (Fin 2) Memory Thread × Fin 2) × Config (Fin 2) Memory Thread =>
        decide ((∀ x ∈ y.1, (x.1.thread 0).pc.spins) ∧ (y.2.thread 1).pc = .clearRequest)) (by decide +kernel)
  obtain ⟨tr, u, h, hd⟩ := Config.exists_path (step 1) s [0, 0, 1, 1, 1, 1] _ hs
  obtain ⟨hw, hu⟩ := of_decide_eq_true hd
  exact ⟨tr₀, s, tr, u, h₀, h, hw, hu, bypass_once h₀ h hw⟩

end Bypass

/-! ### Fair schedules -/

section Fair

variable {inc : ℤ} {id j : Fin 2} {m m' : Memory} {t t' : Thread} {s s' u : Config (Fin 2) Memory Thread}
  {tr : List (Config (Fin 2) Memory Thread × Fin 2)}

/-- How many steps of a round of the loop lie behind a thread. -/
def Pc.place : Pc → ℕ
  | .test => 0
  | .setRequest => 1
  | .setTurn => 2
  | .loadRequest | .loadTurn => 3
  | .loadCount => 4
  | .storeCount => 5
  | .clearRequest => 6
  | .next => 7
  | .done => 1

/-- How many steps a thread has left, those that repeat the loop of `lock` apart. -/
def Thread.left (inc : ℤ) (t : Thread) : ℕ := 8 * (inc - t.i).toNat + 1 - t.pc.place

/-- **A step brings the thread closer to its end**, unless the thread stays in the loop of `lock`. -/
theorem step_left (hmax : 2 * inc < 2 ^ 31) (hl : Holds inc id m t) (h : step inc id (m, t) = some (m', t')) :
    (t.pc.spins ∧ t'.pc.spins) ∧ t'.left inc = t.left inc ∨ t'.left inc < t.left inc := by
  obtain ⟨-, -, -, hi, hm, -⟩ := hl
  rcases t with ⟨pc, i, tmp⟩
  cases pc <;> simp only [step, Option.some.injEq, Prod.mk.injEq, reduceCtorEq] at h <;> obtain ⟨rfl, rfl⟩ := h
  case test =>
    right
    simp only at hi
    by_cases hlt : i < inc
    · simp only [hlt, if_true, Thread.left, Pc.place]
      omega
    · simp only [hlt, if_false, Thread.left, Pc.place]
      omega
  case next =>
    right
    have hlt := hm (by simp) (by simp)
    simp only at hlt hi
    rw [Thread.left, Thread.left, int_eq (x := i + 1) (by omega)]
    simp only [Pc.place]
    omega
  case loadRequest | loadTurn =>
    have hlt := hm (by simp) (by simp)
    simp only at hlt
    split_ifs
    · exact .inl ⟨⟨rfl, rfl⟩, rfl⟩
    · right
      simp only [Thread.left, Pc.place]
      omega
  all_goals
    right
    have hlt := hm (by simp) (by simp)
    simp only at hlt
    simp only [Thread.left, Pc.place]
    omega

/-- A step that stays in the loop of `lock`. -/
def Idle (inc : ℤ) (s : Config (Fin 2) Memory Thread) (j : Fin 2) (s' : Config (Fin 2) Memory Thread) : Prop :=
  Config.Step (step inc) s j s' ∧ (s.thread j).pc.spins ∧ (s'.thread j).pc.spins

theorem Idle.cases (h : Idle inc s j s') : s'.shared = s.shared ∧
    ((s.thread j).pc = .loadRequest ∧ s.shared.request (other j) = 1 ∧ (s'.thread j).pc = .loadTurn ∨
      (s.thread j).pc = .loadTurn ∧ s.shared.turn = (other j).val ∧ (s'.thread j).pc = .loadRequest) := by
  obtain ⟨hst, h1, h2⟩ := h
  have hs := Config.step_self hst
  have hsh := step_spins hs h1
  refine ⟨hsh, ?_⟩
  revert hs h1 h2
  generalize s.thread j = v, s'.thread j = w
  intro h1 h2 hs
  rcases v with ⟨pc, i, tmp⟩
  cases pc <;> simp only [step, Option.some.injEq, Prod.mk.injEq, reduceCtorEq] at hs
  case loadRequest =>
    obtain ⟨-, rfl⟩ := hs
    by_cases hq : s.shared.request (other j) = 1
    · exact .inl ⟨rfl, hq, if_pos hq⟩
    · simp [hq, Pc.spins] at h2
  case loadTurn =>
    obtain ⟨-, rfl⟩ := hs
    by_cases hq : s.shared.turn = (other j).val
    · exact .inr ⟨rfl, hq, if_pos hq⟩
    · simp [hq, Pc.spins] at h2
  all_goals simp [Pc.spins] at h1

/-- **What idle steps have seen**: a thread that took one is in the loop, and one that took two has found the whole
condition true. -/
theorem idle_path (h : Path (Idle inc) s tr u) : u.shared = s.shared ∧ ∀ j, 0 < turns j tr →
    (u.thread j).pc.spins ∧ ((u.thread j).pc = .loadTurn → s.shared.request (other j) = 1) ∧
      ((u.thread j).pc = .loadRequest → s.shared.turn = (other j).val) ∧ (2 ≤ turns j tr → kept s.shared j) := by
  induction h with
  | nil => exact ⟨rfl, fun j hj => absurd hj (by simp [turns])⟩
  | @snoc tr v u k hp hst ih =>
    obtain ⟨hsh, ih⟩ := ih
    obtain ⟨hsh', hcase⟩ := hst.cases
    refine ⟨hsh'.trans hsh, fun j hj => ?_⟩
    rw [turns_snoc] at hj ⊢
    by_cases hk : k = j
    · subst hk
      rw [if_pos rfl]
      rw [hsh] at hcase
      rcases hcase with ⟨h1, hq, h2⟩ | ⟨h1, hq, h2⟩
      · refine ⟨by rw [h2]; rfl, fun _ => hq, fun h => by simp [h2] at h, fun htwo => ⟨hq, ?_⟩⟩
        exact (ih k (by omega)).2.2.1 h1
      · refine ⟨by rw [h2]; rfl, fun h => by simp [h2] at h, fun _ => hq, fun htwo => ⟨?_, hq⟩⟩
        exact (ih k (by omega)).2.1 h1
    · rw [if_neg hk, Nat.add_zero] at hj ⊢
      rw [Config.step_other hst.1 (Ne.symm hk)]
      exact ih j hj

/-- **Why it ends**: no step raises the number of steps left, and of two threads that only test the condition of the
loop, twice each, one would have found it false. -/
theorem ranked (hmax : 2 * inc < 2 ^ 31) :
    Ranked (step inc) (·.pc = .done) 2 (Inv inc) (fun _ => Thread.left inc) (Idle inc) where
  next hi h := hi.next hmax h
  lower {s j s'} hi h := by
    rcases step_left hmax (hi.pairs.each j) (Config.step_self h) with ⟨⟨h1, h2⟩, he⟩ | hlt
    · exact .inl ⟨⟨h, h1, h2⟩, he⟩
    · exact .inr hlt
  stuck hd := by simp [step, hd]
  busy {s tr u} hi hp hidle hfair := by
    -- every thread has finished, or has found the condition of the loop true
    obtain ⟨-, hseen⟩ := idle_path hidle
    have hthread : ∀ j, (s.thread j).pc = .done ∨ kept s.shared j := by
      intro j
      rcases Nat.eq_zero_or_pos (turns j tr) with h0 | hpos
      · have hsame := thread_of_turns_eq hp h0
        refine .inl (hsame ▸ (hfair j).resolve_left ?_)
        omega
      · obtain ⟨hspin, -, -, hkept⟩ := hseen j hpos
        refine .inr (hkept ((hfair j).resolve_right fun hd => ?_))
        rw [hd] at hspin
        cases hspin
    intro j
    refine (hthread j).resolve_right fun hk => ?_
    rcases hthread (other j) with hd | hk'
    · have hreq := (hi.pairs.each (other j)).request
      rw [hk.1, hd] at hreq
      simp [Pc.asks, Pc.spins, Pc.inside] at hreq
    · -- `turn` would be both ids
      have h1 := hk.2
      have h2 := hk'.2
      rw [other_other] at h2
      have hne := other_ne j
      rw [h1] at h2
      exact hne (Fin.ext (by exact_mod_cast h2))

/-- **Peterson's lock under a fair schedule.**  If both threads take at least two steps in every round until they have
finished, then after more than `2 * (8 * inc + 1)` rounds both have finished, and `count` is `2 * inc`. -/
theorem peterson_fair (hinc : 0 ≤ inc) (hmax : 2 * inc < 2 ^ 31) {n : ℕ}
    (h : Rounds (Round (step inc) (·.pc = .done) 2) start n s) (hn : 2 * (8 * inc.toNat + 1) < n) :
    (∀ id, (s.thread id).pc = .done) ∧ s.shared.count = 2 * inc := by
  have hstart : ∑ j, (start.thread j).left inc = 2 * (8 * inc.toNat + 1) := by
    rw [Fin.sum_univ_two]
    simp only [start, Thread.left, Pc.place]
    omega
  obtain ⟨hi, hf⟩ := (ranked hmax).finish h (start_inv hinc) (by rw [hstart]; exact hn)
  refine ⟨hf, ?_⟩
  have d0 := (hi.pairs.each 0).done (hf 0)
  have d1 := (hi.pairs.each 1).done (hf 1)
  rw [hi.count, Fin.sum_univ_two]
  simp only [Thread.made, hf 0, hf 1, d0, d1]
  simp
  omega

/-- With `inc` = 1. -/
theorem peterson_fair_one : ∃ s, Rounds (Round (step 1) (·.pc = .done) 2) start 19 s ∧
    (∀ id, (s.thread id).pc = .done) ∧ s.shared.count = 2 * 1 := by
  obtain ⟨tr, s, hp, hd⟩ := Config.exists_path (step 1) start
    ([0, 1, 0, 1, 0, 1, 0, 1, 0, 1] ++ List.replicate 5 0 ++ List.replicate 6 1)
    (fun x => decide (∀ id, (x.2.thread id).pc = .done)) (by decide +kernel)
  have hd := of_decide_eq_true hd
  have hone : Rounds (Round (step 1) (·.pc = .done) 2) start 1 s := .succ .zero ⟨tr, hp, fun i => .inr (hd i)⟩
  have hall := hone.rest (round_self hd) 18
  exact ⟨s, hall, peterson_fair (by decide) (by decide) hall (by decide)⟩

end Fair

end Seminars.Locks.Peterson
