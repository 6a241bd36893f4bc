import Seminars.Green.Delivery
import Seminars.Green.Dry
import Seminars.Lib.Fair

/-!
# Seminars.Green.Program — a program that uses the library

A program is given by the calls of the library that its statements are, and by what they do to the variables.

* `Program.Step`: the executing thread goes on, or the timer interrupts it (not at the end of `green_thread`).
  `Program.Lift` is the same over the abstract scheduler; `Program.refines` and `Program.can_step` connect the two.
* `Sites`: where the code of a thread can stand when it is inside the library.  `Stand` is the invariant that follows.
* `Program.bounded_run`: a rank that every step of the program lowers, and an interrupt raises by one at most, bounds
  the steps of a run.  `Program.rank` counts what the threads have left; `rank_lift` says that it is one.
-/

namespace Seminars.Green

open Seminars.Lib

theorem AStep.fn {a a' : Abs} {act : Act} {t : Tid} (hst : AStep a act a') (ht : ∀ fn arg, act ≠ .create t fn arg) :
    a'.core.fn t = a.core.fn t := by
  have hcollect : ∀ u res, (a.collect u res).core.fn = a.core.fn := by
    intro u res
    unfold Abs.collect
    split_ifs <;> rfl
  rw [hst.core]
  cases act with
  | create new fn arg =>
    have hne : t ≠ new := by
      rintro rfl
      exact ht fn arg rfl
    simp [Abs.coreAfter, Core.init, hne]
  | join u res =>
    simp only [Abs.coreAfter]
    split_ifs
    · rfl
    · rw [hcollect]
  | condWait c m => cases m <;> rfl
  | lock m | unlock m =>
    simp only [Abs.coreAfter]
    split_ifs <;> rfl
  | resume =>
    simp only [Abs.coreAfter]
    split
    · rw [hcollect]
    · split_ifs <;> rfl
    · rfl
  | _ => rfl

/-- The timer, or the code of the library that goes on, creates no thread and ends none. -/
theorem AStep.goOn {a a' : Abs} {act : Act} (hst : AStep a act a') (hact : act = .timer ∨ act = .resume) :
    a'.core.created = a.core.created ∧ a'.core.zombie = a.core.zombie ∧ a'.core.arg = a.core.arg := by
  have hcr : ∀ new fn arg, act ≠ .create new fn arg := by rcases hact with rfl | rfl <;> simp
  have hret : ∀ v, act ≠ .ret v := by rcases hact with rfl | rfl <;> simp
  obtain ⟨h1, h2, -, h4⟩ := a.coreAfter_fixed hcr hret
  rw [hst.core]
  exact ⟨h1, h2, h4⟩

/-- What the code of the library does not do itself is done outside it. -/
theorem enabled_user {c : Ctx} {act : Act} (hen : enabled c act) (hne : act ≠ .resume) : c.pc = .user := by
  cases act with
  | resume => exact absurd rfl hne
  | timer | ret v => exact hen.1
  | _ => exact hen

/-- The executing thread goes on, or is interrupted. -/
inductive Move
  | go | timer
  deriving DecidableEq, Repr

/-- A program with the globals `G` and the locals `T` of a thread. -/
structure Program (G T : Type) where
  /-- the call of the library that the next statement of a thread is -/
  call : T → Option Act
  /-- what the statement of a thread with the argument `arg` does to the globals and the thread's locals -/
  exec : ℕ → G × T → G × T
  /-- the end of `main` -/
  finished : T → Bool

namespace Program

variable {G T : Type}

/-- The variables after the statement of `t`. -/
def after (P : Program G T) (arg : ℕ) (t : Tid) (v : Config Tid G T) : Config Tid G T :=
  ⟨(P.exec arg (v.shared, v.thread t)).1, Function.update v.thread t (P.exec arg (v.shared, v.thread t)).2⟩

/-- **One step.**  The timer interrupts everywhere but at the end of `green_thread`, which is one step. -/
inductive Step (P : Program G T) : Sched × Config Tid G T → Move → Sched × Config Tid G T → Prop
  | timer {s s' : Sched} {v : Config Tid G T} : Green.Step s .timer s' → Step P (s, v) .timer (s', v)
  | resume {s s' : Sched} {v : Config Tid G T} : Green.Step s .resume s' → Step P (s, v) .go (s', v)
  | call {s s' : Sched} {v : Config Tid G T} {act : Act} : P.call (v.thread s.cpu.owner) = some act →
      Green.Step s act s' → Step P (s, v) .go (s', P.after (s.core.arg s.cpu.owner) s.cpu.owner v)
  | compute {s : Sched} {v : Config Tid G T} : s.cpu.pc = .user → P.call (v.thread s.cpu.owner) = none →
      P.finished (v.thread s.cpu.owner) = false → Step P (s, v) .go (s, P.after (s.core.arg s.cpu.owner) s.cpu.owner v)

/-- The running thread has come to the end of `main`. -/
def Over (P : Program G T) (s : Sched) (v : Config Tid G T) : Prop :=
  s.cpu.pc = .user ∧ P.finished (v.thread s.cpu.owner) = true

/-! ### The abstract scheduler -/

/-- One step over the abstract scheduler. -/
inductive Lift (P : Program G T) : Abs × Config Tid G T → Move → Abs × Config Tid G T → Prop
  | timer {a a' : Abs} {v : Config Tid G T} : enabled (a.ctx a.run) .timer → AStep a .timer a' →
      Lift P (a, v) .timer (a', v)
  | resume {a a' : Abs} {v : Config Tid G T} : enabled (a.ctx a.run) .resume → AStep a .resume a' →
      Lift P (a, v) .go (a', v)
  | call {a a' : Abs} {v : Config Tid G T} {act : Act} : P.call (v.thread a.run) = some act →
      enabled (a.ctx a.run) act → proper a.core act → AStep a act a' →
      Lift P (a, v) .go (a', P.after (a.core.arg a.run) a.run v)
  | compute {a : Abs} {v : Config Tid G T} : (a.ctx a.run).pc = .user → P.call (v.thread a.run) = none →
      P.finished (v.thread a.run) = false → Lift P (a, v) .go (a, P.after (a.core.arg a.run) a.run v)

section Lift

variable {P : Program G T} {s₀ s s' : Sched} {a a' : Abs} {v₀ v v' : Config Tid G T} {m : Move}
variable {tr : List ((Sched × Config Tid G T) × Move)}

/-- **A step of the program is one of the abstract scheduler.** -/
theorem refines (hR : Refines s a) (hst : P.Step (s, v) m (s', v')) :
    ∃ a', P.Lift (a, v) m (a', v') ∧ Refines s' a' := by
  have hcpu := hR.loaded.2
  have hcore := hR.loaded.1.core
  cases hst with
  | timer hst =>
    obtain ⟨a', hst', ha'⟩ := step_refines hR hst
    exact ⟨a', .timer (hcpu ▸ hst.1) hst', ha'⟩
  | resume hst =>
    obtain ⟨a', hst', ha'⟩ := step_refines hR hst
    exact ⟨a', .resume (hcpu ▸ hst.1) hst', ha'⟩
  | call hact hst =>
    obtain ⟨a', hst', ha'⟩ := step_refines hR hst
    rw [hR.owner] at hact ⊢
    rw [hcore]
    exact ⟨a', .call hact (hcpu ▸ hst.1) (hcore ▸ hst.2.1) hst', ha'⟩
  | compute hpc hcall hover =>
    rw [hR.owner] at hcall hover ⊢
    rw [hcore]
    exact ⟨a, .compute (hcpu ▸ hpc) hcall hover, hR⟩

/-- **A step over the abstract scheduler is possible.** -/
theorem can_step {x : Abs × Config Tid G T} (hR : Refines s a) (hst : P.Lift (a, v) m x) : ∃ y, P.Step (s, v) m y := by
  have hcpu := hR.loaded.2
  have hcore := hR.loaded.1.core
  cases hst with
  | timer hen hst =>
    obtain ⟨s', hs'⟩ := Green.can_step hR (hcpu ▸ hen : enabled s.cpu .timer) trivial hst
    exact ⟨_, .timer hs'⟩
  | resume hen hst =>
    obtain ⟨s', hs'⟩ := Green.can_step hR (hcpu ▸ hen : enabled s.cpu .resume) trivial hst
    exact ⟨_, .resume hs'⟩
  | call hact hen hpr hst =>
    obtain ⟨s', hs'⟩ := Green.can_step hR (hcpu ▸ hen) (hcore ▸ hpr) hst
    rw [← hR.owner] at hact
    exact ⟨_, .call hact hs'⟩
  | compute hpc hcall hover =>
    rw [← hR.owner] at hcall hover
    exact ⟨_, .compute (hcpu ▸ hpc) hcall hover⟩

/-- **Runs.**  `rank` falls with every step of the program and rises by one at most with an interrupt. -/
theorem bounded_run {I : Abs → Config Tid G T → Prop} (rank : Abs → Config Tid G T → ℕ) (h0 : s₀.Initial)
    (hI : I s₀.abs v₀) (hp : Path P.Step (s₀, v₀) tr (s, v))
    (hs : ∀ a v m a' v', AInv a → I a v → P.Lift (a, v) m (a', v') →
      I a' v' ∧ if m = .go then rank a' v' < rank a v else rank a' v' ≤ rank a v + 1) :
    ∃ a, Refines s a ∧ I a v ∧
      tr.countP (·.2 = .go) + rank a v ≤ rank s₀.abs v₀ + tr.countP (·.2 = .timer) := by
  have key : ∀ x m y n, (∃ a, Refines x.1 a ∧ I a x.2 ∧ rank a x.2 = n) → P.Step x m y →
      ∃ n', (∃ a, Refines y.1 a ∧ I a y.2 ∧ rank a y.2 = n') ∧ if m = .go then n' < n else n' ≤ n + 1 := by
    rintro ⟨s, v⟩ m ⟨s', v'⟩ n ⟨a, ha, hIa, rfl⟩ hst
    obtain ⟨a', hst', ha'⟩ := refines ha hst
    obtain ⟨hIa', hr⟩ := hs a v m a' v' ha.inv hIa hst'
    exact ⟨_, ⟨a', ha', hIa', rfl⟩, hr⟩
  obtain ⟨k, ⟨a, ha, hIa, hk⟩, hle⟩ := hp.countP_le ⟨_, initial_refines h0, hI, rfl⟩ key
  have hno : ∀ m : Move, (¬ m = .go) ↔ m = .timer := by
    intro m
    cases m <;> simp
  simp only [hno] at hle
  exact ⟨a, ha, hIa, by rw [hk]; exact hle⟩

end Lift

/-! ### Where threads stand -/

/-- Where the code of a thread can be in the library when it is before a statement. -/
structure Sites (P : Program G T) where
  fits : T → Pc → Prop
  /-- the locals of a thread that has not been created -/
  fresh : T → Prop
  user : ∀ l, fits l .user
  yield : ∀ l, fits l (.yield none)
  start : ∀ l, fresh l → fits l .start
  rewait : ∀ l c m, fits l (.wait c (some m)) → fits l (.rewait m)
  call : ∀ x arg act c pc, P.call x.2 = some act → enabled c act → Lands c.pc act pc → fits (P.exec arg x).2 pc
  ret : ∀ x arg w, P.call x.2 = some (.ret w) → (P.exec arg x).2 = x.2
  user_call : ∀ l, P.call l ≠ some .resume
  create : ∀ l new fn arg, P.call l = some (.create new fn arg) → fn ≠ 0

/-- **Where the code of each thread stands.** -/
structure Stand {P : Program G T} (S : Sites P) (a : Abs) (v : Config Tid G T) : Prop where
  fits : ∀ t, Live a.core t → S.fits (v.thread t) (a.ctx t).pc
  fresh : ∀ t, t ∉ a.core.created → S.fresh (v.thread t)
  ended : ∀ t, Ended a.core t → P.call (v.thread t) = some (.ret (a.core.retval t))
  this : ∀ t, Live a.core t → t ≠ mainGreen → (a.ctx t).pc = .start ∨ (a.ctx t).this ≠ none
  fn : ∀ t ∈ a.core.created, t ≠ mainGreen → a.core.fn t ≠ 0

section Stand

variable {P : Program G T} {S : Sites P} {a a' : Abs} {v v' : Config Tid G T} {act : Act} {m : Move} {t : Tid}

/-- A statement that calls the library is executed outside it. -/
theorem Sites.pc_user {l : T} {c : Ctx} (S : Sites P) (hact : P.call l = some act) (hen : enabled c act) :
    c.pc = .user :=
  enabled_user hen fun h => S.user_call l (h ▸ hact)

theorem after_other {arg : ℕ} {r : Tid} (ht : t ≠ r) : (P.after arg r v).thread t = v.thread t :=
  Function.update_of_ne ht _ _

theorem after_self {arg : ℕ} : (P.after arg t v).thread t = (P.exec arg (v.shared, v.thread t)).2 :=
  Function.update_self ..

/-- Something that the thread in question does with the abstract scheduler. -/
theorem Stand.acts (h : Stand S a v) (hi : AInv a) (hst : AStep a act a') (hen : enabled (a.ctx a.run) act)
    (hpr : proper a.core act) (hother : ∀ t, t ≠ a.run → v'.thread t = v.thread t)
    (hfit : S.fits (v'.thread a.run) (a'.ctx a.run).pc)
    (hret : ∀ w, act = .ret w → P.call (v'.thread a.run) = some (.ret w))
    (hnew : ∀ new fn arg, act = .create new fn arg → fn ≠ 0) : Stand S a' v' := by
  have hrun := hi.live
  refine ⟨fun t ht => ?_, fun t ht => ?_, fun t ht => ?_, fun t ht hm => ?_, fun t ht hm => ?_⟩
  · by_cases htr : t = a.run
    · subst htr
      exact hfit
    · rw [hother t htr]
      by_cases hc : t ∈ a.core.created
      · rw [hst.ctx hpr hc htr]
        exact h.fits t (hst.live hpr hc ht)
      · rw [hst.spawned ht.1 hc htr]
        exact S.start _ (h.fresh t hc)
  · have hc : t ∉ a.core.created := fun hm => ht (hst.created_mono hm)
    rw [hother t fun e => hc (e ▸ hrun.1)]
    exact h.fresh t hc
  · rcases hst.ended ht with ⟨hend, hval⟩ | ⟨w, hact, htr, hval⟩
    · rw [hother t fun e => hrun.not_ended (e ▸ hend), hval]
      exact h.ended t hend
    · rw [htr] at hval ⊢
      rw [hval]
      exact hret w hact
  · by_cases htr : t = a.run
    · subst htr
      by_cases hpc : (a.ctx a.run).pc = .start
      · -- the thread starts, which sets its local `this`
        right
        cases hst with
        | resumeStart _ _ => simp [Abs.onCtx]
        | resumeYield hpc' | resumeJoin hpc' _ | resumeWait hpc' | resumeTake hpc' _ | resumeRewait hpc' _ _ =>
          cases hpc.symm.trans hpc'
        | resumeLocked hpc' => rcases hpc' with hpc' | hpc' <;> cases hpc.symm.trans hpc'
        | ret _ | timer _ => cases hpc.symm.trans hen.1
        | _ => cases hpc.symm.trans hen
      · have hthis := (h.this _ hrun hm).resolve_left hpc
        rw [hst.this hpr hrun.1 hpc]
        exact .inr hthis
    · by_cases hc : t ∈ a.core.created
      · rw [hst.ctx hpr hc htr]
        exact h.this t (hst.live hpr hc ht) hm
      · exact .inl (by rw [hst.spawned ht.1 hc htr])
  · by_cases hc : t ∈ a.core.created
    · rw [hst.fn fun fn arg hcr => absurd hc (hcr ▸ hpr : proper a.core (.create t fn arg))]
      exact h.fn t hc hm
    · rw [hst.created] at ht
      have hnew' := (List.mem_append.mp ht).resolve_right hc
      rw [hst.core]
      cases act with
      | create new fn arg =>
        obtain rfl := List.mem_singleton.mp hnew'
        simpa [Abs.coreAfter, Core.init] using hnew _ fn arg rfl
      | _ => exact absurd hnew' (by simp [Act.creates])

/-- **The step lemma.** -/
theorem Stand.step (h : Stand S a v) (hi : AInv a) (hst : P.Lift (a, v) m (a', v')) : Stand S a' v' := by
  have hrun := hi.live
  cases hst with
  | timer hen hst =>
    refine h.acts hi hst hen trivial (fun _ _ => rfl) ?_ (by simp) (by simp)
    rw [show (a'.ctx a.run).pc = .yield none from hst.lands hi hen trivial]
    exact S.yield _
  | resume hen hst =>
    refine h.acts hi hst hen trivial (fun _ _ => rfl) ?_ (by simp) (by simp)
    have hfit := h.fits a.run hrun
    rcases hst.lands hi hen trivial with hpc | ⟨c, x, hpc, hpc'⟩
    · rw [hpc]
      exact S.user _
    · rw [hpc] at hfit
      rw [hpc']
      exact S.rewait _ c x hfit
  | call hact hen hpr hst =>
    refine h.acts hi hst hen hpr (fun t ht => after_other ht) ?_ (fun w hw => ?_) fun new fn arg hnew => ?_
    · rw [after_self]
      exact S.call _ _ _ _ _ hact hen (hst.lands hi hen hpr)
    · subst hw
      rw [after_self, S.ret _ _ w hact]
      exact hact
    · subst hnew
      exact S.create _ _ _ _ hact
  | compute hpc _ _ =>
    have hother : ∀ t, t ≠ a.run → (P.after (a.core.arg a.run) a.run v).thread t = v.thread t :=
      fun t ht => after_other ht
    refine ⟨fun t ht => ?_, fun t ht => ?_, fun t ht => ?_, h.this, h.fn⟩
    · by_cases htr : t = a.run
      · rw [htr, hpc]
        exact S.user _
      · rw [hother t htr]
        exact h.fits t ht
    · rw [hother t fun e => ht (e ▸ hrun.1)]
      exact h.fresh t ht
    · rw [hother t fun e => hrun.not_ended (e ▸ ht)]
      exact h.ended t ht

end Stand

/-! ### What is left to do -/

section Rank

/-- What a thread has left: two for each of its statements, which `left` counts, and one for going on where it is
suspended or has not started. -/
def part (left : T → ℕ) (a : Abs) (v : Config Tid G T) (t : Tid) : ℕ :=
  if Ended a.core t then 0
  else 2 * left (v.thread t) + if t ∈ a.core.created ∧ (a.ctx t).pc = .user then 0 else 1

/-- What the threads with numbers below `K` have left. -/
def rank (left : T → ℕ) (K : ℕ) (a : Abs) (v : Config Tid G T) : ℕ := ∑ t ∈ Finset.range K, part left a v t

variable {P : Program G T} {a a' : Abs} {v v' : Config Tid G T} {act : Act} {m : Move} {t : Tid} {K : ℕ}
  (left : T → ℕ)

theorem part_le (v : Config Tid G T) (hc : t ∈ a.core.created) :
    part left a v t ≤ 2 * left (v.thread t) + if (a.ctx t).pc = .user then 0 else 1 := by
  unfold part
  split_ifs <;> simp_all

theorem part_live (v : Config Tid G T) (ht : Live a.core t) :
    part left a v t = 2 * left (v.thread t) + if (a.ctx t).pc = .user then 0 else 1 := by
  rw [part, if_neg ht.not_ended]
  simp [ht.1]

theorem part_other (hst : AStep a act a') (hpr : proper a.core act) (ht : t ≠ a.run)
    (hv : v'.thread t = v.thread t) : part left a' v' t = part left a v t := by
  have hend : Ended a'.core t ↔ Ended a.core t := by
    refine ⟨fun he => ?_, hst.ended_mono hpr⟩
    rcases hst.ended he with ⟨he, -⟩ | ⟨w, -, hr, -⟩
    · exact he
    · exact absurd hr ht
  have hpc : (t ∈ a'.core.created ∧ (a'.ctx t).pc = .user) ↔ t ∈ a.core.created ∧ (a.ctx t).pc = .user := by
    by_cases hc : t ∈ a.core.created
    · rw [hst.ctx hpr hc ht]
      exact and_congr_left' (iff_of_true (hst.created_mono hc) hc)
    · refine iff_of_false (fun hx => ?_) fun hx => hc hx.1
      rw [hst.spawned hx.1 hc ht] at hx
      cases hx.2
  simp only [part, hend, hpc, hv]

/-- **The step of a thread changes the rank as it changes what this thread has left.** -/
theorem rank_eq (v v' : Config Tid G T) (hK : a.run < K)
    (hother : ∀ t, t ≠ a.run → part left a' v' t = part left a v t) :
    rank left K a' v' + part left a v a.run = rank left K a v + part left a' v' a.run := by
  have hrun : a.run ∈ Finset.range K := Finset.mem_range.mpr hK
  have hrest : ∑ t ∈ (Finset.range K).erase a.run, part left a' v' t =
      ∑ t ∈ (Finset.range K).erase a.run, part left a v t :=
    Finset.sum_congr rfl fun t ht => hother t (Finset.ne_of_mem_erase ht)
  have h1 := Finset.add_sum_erase (Finset.range K) (part left a' v') hrun
  have h2 := Finset.add_sum_erase (Finset.range K) (part left a v) hrun
  rw [hrest] at h1
  rw [rank, rank]
  omega

/-- **Every step of the program lowers the rank**, an interrupt raises it by one, if every statement but a `return`
lowers what a thread has left. -/
theorem rank_lift (hi : AInv a) (hst : P.Lift (a, v) m (a', v')) (hK : a.run < K)
    (hwait : ∀ c x, (a.ctx a.run).pc ≠ .wait c x) (hret : ∀ w, P.call (v.thread a.run) = some (.ret w) →
      0 < left (v.thread a.run))
    (hleft : P.call (v.thread a.run) ≠ none ∨ P.finished (v.thread a.run) = false →
      (∀ w, P.call (v.thread a.run) ≠ some (.ret w)) →
        left (P.exec (a.core.arg a.run) (v.shared, v.thread a.run)).2 < left (v.thread a.run)) :
    if m = .go then rank left K a' v' < rank left K a v else rank left K a' v' ≤ rank left K a v + 1 := by
  have hrun := hi.live
  have hnow := part_live left v hrun
  have hself : (P.after (a.core.arg a.run) a.run v).thread a.run = _ := after_self
  cases hst with
  | timer hen hst =>
    -- one more resumption for the thread that was stopped
    have heq := rank_eq left v v hK fun t ht => part_other left hst trivial ht rfl
    have hle := part_le left v (hst.created_mono hrun.1)
    rw [if_neg (by simp)]
    split_ifs at hle <;> omega
  | resume hen hst =>
    -- the thread is back in its own code, its count one lower
    have heq := rank_eq left v v hK fun t ht => part_other left hst trivial ht rfl
    have hle := part_le left v (hst.created_mono hrun.1)
    have hpc : (a'.ctx a.run).pc = .user := by
      refine (hst.lands hi hen trivial).resolve_right ?_
      rintro ⟨c, x, hpc, -⟩
      exact hwait _ _ hpc
    rw [if_pos hpc] at hle
    rw [if_neg hen] at hnow
    rw [if_pos rfl]
    omega
  | @call _ _ _ act hact hen hpr hst =>
    have heq := rank_eq left v (P.after (a.core.arg a.run) a.run v) hK fun t ht =>
      part_other left hst hpr ht (after_other ht)
    rw [if_pos rfl]
    -- a thread that has ended counts nothing; any other call leaves less to do
    by_cases hend : ∃ w, act = .ret w
    · obtain ⟨w, rfl⟩ := hend
      have hzero : part left a' (P.after (a.core.arg a.run) a.run v) a.run = 0 := if_pos (hst.ended_ret hi)
      have hpos := hret w hact
      rw [if_pos hen.1] at hnow
      omega
    · have hlt := hleft (.inl (by rw [hact]; simp)) fun w hw => hend ⟨w, Option.some.inj (hact.symm.trans hw)⟩
      have hle := part_le left (P.after (a.core.arg a.run) a.run v) (hst.created_mono hrun.1)
      rw [hself] at hle
      split_ifs at hle <;> omega
  | compute hpc hcall hover =>
    -- no green call: only the locals of the running thread change
    have hother : ∀ t, t ≠ a.run → part left a (P.after (a.core.arg a.run) a.run v) t = part left a v t := by
      intro t ht
      simp only [part, after_other ht]
    have heq := rank_eq left v _ hK hother
    have hlt := hleft (.inr hover) fun w hw => by rw [hcall] at hw; cases hw
    have hle := part_le left (P.after (a.core.arg a.run) a.run v) hrun.1
    rw [hself] at hle
    rw [if_pos hpc] at hnow hle
    rw [if_pos rfl]
    omega

end Rank

/-! ### Runs that can be computed -/

/-- The step of the program with the move `m`, when it is possible and does not fault. -/
def next (P : Program G T) (x : Sched × Config Tid G T) (m : Move) : Option (Sched × Config Tid G T) :=
  match m with
  | .timer => (Green.next x.1 .timer).map fun s => (s, x.2)
  | .go =>
    if x.1.cpu.pc ≠ .user then
      (Green.next x.1 .resume).map fun s => (s, x.2)
    else
      let v := P.after (x.1.core.arg x.1.cpu.owner) x.1.cpu.owner x.2
      match P.call (x.2.thread x.1.cpu.owner) with
      | some act => (Green.next x.1 act).map fun s => (s, v)
      | none => if P.finished (x.2.thread x.1.cpu.owner) = true then none else some (x.1, v)

theorem next_step (P : Program G T) (x : Sched × Config Tid G T) (m : Move) (y : Sched × Config Tid G T)
    (h : P.next x m = some y) : P.Step x m y := by
  unfold next at h
  cases m with
  | timer =>
    obtain ⟨s', hs, rfl⟩ := Option.map_eq_some_iff.mp h
    exact .timer (Green.next_step _ _ _ hs)
  | go =>
    simp only at h
    by_cases hpc : x.1.cpu.pc = .user
    · rw [if_neg (not_not.mpr hpc)] at h
      split at h
      · next act hact =>
        obtain ⟨s', hs, rfl⟩ := Option.map_eq_some_iff.mp h
        exact .call hact (Green.next_step _ _ _ hs)
      · next hcall =>
        split_ifs at h with hover
        obtain rfl := Option.some.inj h
        exact .compute hpc hcall (Bool.eq_false_of_not_eq_true hover)
    · rw [if_pos hpc] at h
      obtain ⟨s', hs, rfl⟩ := Option.map_eq_some_iff.mp h
      exact .resume (Green.next_step _ _ _ hs)

end Program

end Seminars.Green
