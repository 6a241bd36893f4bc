import Seminars.Green.Abstract

/-!
# Seminars.Green.Change — what one step of the abstract scheduler changes

One lemma for each part of the state, over all operations.

* `AStep.core`: the fields of the threads and the mutexes afterwards; `AStep.created` and `AStep.ended` follow.
* `AStep.ctx`, `AStep.lands`: only the code of the running thread moves, and where it can be afterwards.
* `AStep.queue`: the queues afterwards; `AStep.cond` and `AStep.idle` follow.
* `AStep.lost`: when nobody is lost.
-/

namespace Seminars.Green

/-- The fields of the threads and the mutexes after a step. -/
def Abs.coreAfter (a : Abs) : Act → Core
  | .create new fn arg => a.core.init new fn arg
  | .join t res => if a.core.zombie t = false then a.core.setJoin t (some a.run) else (a.collect t res).core
  | .condWait _ (some m) => a.core.setTaken m false
  | .mutexInit m => a.core.setTaken m false
  | .lock m => if a.core.taken m = false then a.core.setTaken m true else a.core
  | .unlock m => if a.queue (.mutex m) = [] then a.core.setTaken m false else a.core
  | .ret v => (a.bury v).core
  | .resume =>
    match (a.ctx a.run).pc with
    | .join t res => (a.collect t res).core
    | .wait _ (some m) => if a.core.taken m = false then a.core.setTaken m true else a.core
    | _ => a.core
  | _ => a.core

/-- Where the code of the thread that makes a step is afterwards, if it was at `pc`. -/
def Lands (pc : Pc) : Act → Pc → Prop
  | .yield, pc' | .timer, pc' => pc' = .yield none
  | .join t res, pc' => pc' = .user ∨ pc' = .join t res
  | .condWait c m, pc' => pc' = .wait c m
  | .lock m, pc' => pc' = .user ∨ pc' = .lock m
  | .ret _, pc' => pc' = pc
  | .resume, pc' => pc' = .user ∨ ∃ c m, pc = .wait c (some m) ∧ pc' = .rewait m
  | _, pc' => pc' = .user

/-- A queue other than the ready queue after a step. -/
def Abs.queueAfter (a : Abs) (q : QRef) : Act → List Tid
  | .condInit c => if q = .cond c then [] else a.queue q
  | .condWait c none => if q = .cond c then a.queue q ++ [a.run] else a.queue q
  | .condWait c (some m) =>
    if q = .mutex m then [] else if q = .cond c then a.queue q ++ [a.run] else a.queue q
  | .condSignal c => if q = .cond c then (a.queue q).tail else a.queue q
  | .mutexInit m => if q = .mutex m then [] else a.queue q
  | .lock m => if q = .mutex m ∧ a.core.taken m = true then a.queue q ++ [a.run] else a.queue q
  | .unlock m => if q = .mutex m then (a.queue q).tail else a.queue q
  | .resume =>
    match (a.ctx a.run).pc with
    | .wait _ (some m) => if q = .mutex m ∧ a.core.taken m = true then a.queue q ++ [a.run] else a.queue q
    | _ => a.queue q
  | _ => a.queue q

/-- What a step must be like to lose nobody. -/
def Spares (a : Abs) : Act → Prop
  | .join t _ => a.core.zombie t = false → a.core.join t = none
  | .condInit c => a.queue (.cond c) = []
  | .condWait _ (some m) => a.queue (.mutex m) = []
  | .mutexInit m => a.queue (.mutex m) = []
  | _ => True

section Change

variable {a a' : Abs} {act : Act} {t : Tid}

theorem AStep.core (hst : AStep a act a') : a'.core = a.coreAfter act := by
  cases hst with
  | yield hn | timer hn => exact hn.core
  | joinWait hz hn =>
    rw [hn.core, Abs.coreAfter, if_pos hz]
    rfl
  | joinNow hz hc =>
    rw [Abs.coreAfter, if_neg (by simp [hz])]
    rfl
  | @condWait c m _ hn =>
    rw [hn.core, Abs.release_core]
    cases m <;> rfl
  | signal _ => exact a.wake_core _
  | lockFree ht =>
    rw [Abs.coreAfter, if_pos ht]
    rfl
  | lockWait ht hn =>
    rw [hn.core, Abs.coreAfter, if_neg (by simp [ht])]
    rfl
  | unlockFree hq =>
    rw [Abs.coreAfter, if_pos hq]
    rfl
  | unlockPass hq =>
    rw [Abs.coreAfter, if_neg hq]
    exact a.wake_core _
  | @ret v _ hn =>
    rw [hn.core]
    exact a.finish_core v
  | resumeStart hpc _ | resumeYield hpc | resumeJoin hpc _ | resumeWait hpc =>
    simp only [Abs.coreAfter, hpc]
    rfl
  | resumeTake hpc ht =>
    simp only [Abs.coreAfter, hpc, if_pos ht]
    rfl
  | resumeRewait hpc ht hn =>
    simp only [Abs.coreAfter, hpc, ht, Bool.true_eq_false, if_false]
    exact hn.core
  | resumeLocked hpc => rcases hpc with hpc | hpc <;> simp only [Abs.coreAfter, hpc] <;> rfl
  | _ => rfl

theorem AStep.ctx (hst : AStep a act a') (hpr : proper a.core act) (hc : t ∈ a.core.created) (ht : t ≠ a.run) :
    a'.ctx t = a.ctx t := by
  cases hst with
  | @create new fn arg =>
    have hne : t ≠ new := fun e => hpr (e ▸ hc)
    simp [Abs.mask, Abs.onCtx, Abs.push, Abs.spawn, ht, hne]
  | yield hn | timer hn | joinWait _ hn | lockWait _ hn | resumeRewait _ _ hn =>
    rw [hn.ctx]
    exact Function.update_of_ne ht _ _
  | condWait hn =>
    rw [hn.ctx, Abs.release_ctx]
    exact Function.update_of_ne ht _ _
  | signal _ | unlockPass _ =>
    rw [Abs.mask, Abs.onCtx, Abs.wake_run, Abs.wake_ctx]
    exact Function.update_of_ne ht _ _
  | @ret v _ hn =>
    rw [hn.ctx]
    unfold Abs.finish
    split <;> rfl
  | _ => exact Function.update_of_ne ht _ _

theorem AStep.lands (hst : AStep a act a') (h : AInv a) (hen : enabled (a.ctx a.run) act) (hpr : proper a.core act) :
    Lands (a.ctx a.run).pc act (a'.ctx a.run).pc := by
  cases hst with
  | @create new fn arg =>
    have hne : a.run ≠ new := fun e => hpr (e ▸ h.live.1)
    have hpc : (a.ctx a.run).pc = .user := hen
    simp [Lands, Abs.mask, Abs.onCtx, Abs.push, Abs.spawn, hne, hpc]
  | yield hn | timer hn =>
    rw [hn.ctx]
    simp [Lands, Abs.push, Abs.stop, Abs.onCtx]
  | joinWait _ hn =>
    rw [hn.ctx]
    simp [Lands, Abs.await, Abs.stop, Abs.onCtx]
  | joinNow _ _ => exact .inl (by simp [Abs.leave, Abs.onCtx, Abs.collect])
  | condWait hn =>
    rw [hn.ctx, Abs.release_ctx]
    simp [Lands, Abs.push, Abs.stop, Abs.onCtx]
  | lockFree _ =>
    have hpc : (a.ctx a.run).pc = .user := hen
    exact .inl (by simp [Abs.mask, Abs.onCtx, Abs.setTaken, hpc])
  | lockWait _ hn =>
    rw [hn.ctx]
    exact .inr (by simp [Abs.push, Abs.stop, Abs.onCtx])
  | signal _ | unlockPass _ =>
    have hpc : (a.ctx a.run).pc = .user := hen
    rw [Abs.mask, Abs.onCtx, Abs.wake_run, Abs.wake_ctx]
    simpa [Lands] using hpc
  | condInit | signalNone _ | mutexInit | unlockFree _ =>
    have hpc : (a.ctx a.run).pc = .user := hen
    simpa [Lands, Abs.mask, Abs.onCtx, Abs.drop, Abs.setTaken] using hpc
  | @ret v _ hn =>
    rw [hn.ctx]
    unfold Abs.finish
    split <;> rfl
  | resumeRewait hpc _ hn =>
    rw [hn.ctx]
    exact .inr ⟨_, _, hpc, by simp [Abs.push, Abs.stop, Abs.onCtx]⟩
  | _ => exact .inl (by simp [Abs.leave, Abs.onCtx, Abs.setTaken, Abs.collect])

/-- Only the creation and the end of a thread change who is created and has ended, with which result. -/
theorem Abs.coreAfter_fixed (hcr : ∀ new fn arg, act ≠ .create new fn arg) (hret : ∀ v, act ≠ .ret v) :
    (a.coreAfter act).created = a.core.created ∧ (a.coreAfter act).zombie = a.core.zombie ∧
      (a.coreAfter act).retval = a.core.retval ∧ (a.coreAfter act).arg = a.core.arg := by
  have hcollect : ∀ t res, (a.collect t res).core.created = a.core.created ∧
      (a.collect t res).core.zombie = a.core.zombie ∧ (a.collect t res).core.retval = a.core.retval ∧
      (a.collect t res).core.arg = a.core.arg := by
    intro t res
    unfold Abs.collect
    split_ifs <;> exact ⟨rfl, rfl, rfl, rfl⟩
  cases act with
  | create new fn arg => exact absurd rfl (hcr new fn arg)
  | ret v => exact absurd rfl (hret v)
  | join t res =>
    simp only [coreAfter]
    split_ifs
    · exact ⟨rfl, rfl, rfl, rfl⟩
    · exact hcollect t res
  | condWait c m => cases m <;> exact ⟨rfl, rfl, rfl, rfl⟩
  | lock m | unlock m =>
    simp only [coreAfter]
    split_ifs <;> exact ⟨rfl, rfl, rfl, rfl⟩
  | resume =>
    simp only [coreAfter]
    split
    · exact hcollect _ _
    · split_ifs <;> exact ⟨rfl, rfl, rfl, rfl⟩
    · exact ⟨rfl, rfl, rfl, rfl⟩
  | _ => exact ⟨rfl, rfl, rfl, rfl⟩

/-- The thread that the step creates. -/
def Act.creates : Act → List Tid
  | .create new _ _ => [new]
  | _ => []

theorem AStep.created (hst : AStep a act a') : a'.core.created = act.creates ++ a.core.created := by
  rw [hst.core]
  by_cases hcr : ∃ new fn arg, act = .create new fn arg
  · obtain ⟨new, fn, arg, rfl⟩ := hcr
    rfl
  · by_cases hret : ∃ v, act = .ret v
    · obtain ⟨v, rfl⟩ := hret
      rfl
    · simp only [not_exists] at hcr hret
      rw [(a.coreAfter_fixed hcr hret).1]
      cases act with
      | create new fn arg => exact absurd rfl (hcr new fn arg)
      | _ => rfl

theorem AStep.created_mono (hst : AStep a act a') (hc : t ∈ a.core.created) : t ∈ a'.core.created := by
  rw [hst.created]
  exact List.mem_append_right _ hc

/-- Who has ended had ended before, with the same result, or has just returned. -/
theorem AStep.ended (hst : AStep a act a') (ht : Ended a'.core t) :
    (Ended a.core t ∧ a'.core.retval t = a.core.retval t) ∨ ∃ v, act = .ret v ∧ t = a.run ∧ a'.core.retval t = v := by
  rw [hst.core] at ht ⊢
  by_cases hcr : ∃ new fn arg, act = .create new fn arg
  · obtain ⟨new, fn, arg, rfl⟩ := hcr
    obtain ⟨hc, hz⟩ := ht
    have hne : t ≠ new := by
      rintro rfl
      simp [Abs.coreAfter, Core.init] at hz
    refine .inl ⟨⟨(List.mem_cons.mp hc).resolve_left hne, ?_⟩, ?_⟩
    · simpa [Abs.coreAfter, Core.init, hne] using hz
    · simp [Abs.coreAfter, Core.init, hne]
  · by_cases hret : ∃ v, act = .ret v
    · obtain ⟨v, rfl⟩ := hret
      by_cases htr : t = a.run
      · exact .inr ⟨v, rfl, htr, by simp [htr, Abs.coreAfter, Abs.bury, Core.setRetval, Core.setZombie]⟩
      · refine .inl ⟨⟨ht.1, ?_⟩, ?_⟩
        · simpa [htr, Abs.coreAfter, Abs.bury, Core.setRetval, Core.setZombie] using ht.2
        · simp [htr, Abs.coreAfter, Abs.bury, Core.setRetval, Core.setZombie]
    · simp only [not_exists] at hcr hret
      obtain ⟨h1, h2, h3, -⟩ := a.coreAfter_fixed hcr hret
      rw [Ended, h1, h2] at ht
      exact .inl ⟨ht, congrFun h3 t⟩

theorem AStep.live_on (hst : AStep a act a') (ht : Live a.core t) (hret : ∀ v, act = .ret v → t ≠ a.run) :
    Live a'.core t := by
  refine (live_or_ended (hst.created_mono ht.1)).resolve_right fun he => ?_
  rcases hst.ended he with ⟨hold, -⟩ | ⟨v, hact, hr, -⟩
  · exact ht.not_ended hold
  · exact hret v hact hr

theorem AStep.live (hst : AStep a act a') (hpr : proper a.core act) (hc : t ∈ a.core.created) (ht : Live a'.core t) :
    Live a.core t := by
  refine ⟨hc, ?_⟩
  have hz := ht.2
  rw [hst.core] at hz
  by_cases hcr : ∃ new fn arg, act = .create new fn arg
  · obtain ⟨new, fn, arg, rfl⟩ := hcr
    have hne : t ≠ new := fun e => hpr (e ▸ hc)
    simpa [Abs.coreAfter, Core.init, hne] using hz
  · by_cases hret : ∃ v, act = .ret v
    · obtain ⟨v, rfl⟩ := hret
      have hlive : Live (a.bury v).core t := ⟨hc, hz⟩
      exact (Good.live_bury.mp hlive).1.2
    · simp only [not_exists] at hcr hret
      rwa [(a.coreAfter_fixed hcr hret).2.1] at hz

theorem AStep.arg (hst : AStep a act a') (ht : ∀ fn arg, act ≠ .create t fn arg) : a'.core.arg t = a.core.arg t := by
  rw [hst.core]
  by_cases hcr : ∃ new fn arg, act = .create new fn arg
  · obtain ⟨new, fn, arg, rfl⟩ := hcr
    have hne : t ≠ new := by
      rintro rfl
      exact ht fn arg rfl
    simp [Abs.coreAfter, Core.init, hne]
  · by_cases hret : ∃ v, act = .ret v
    · obtain ⟨v, rfl⟩ := hret
      rfl
    · simp only [not_exists] at hcr hret
      rw [(a.coreAfter_fixed hcr hret).2.2.2]

theorem AStep.spawned (hst : AStep a act a') (ht : t ∈ a'.core.created) (hc : t ∉ a.core.created) (htr : t ≠ a.run) :
    a'.ctx t = ⟨t, none, .start, true⟩ := by
  rw [hst.created] at ht
  have hnew := (List.mem_append.mp ht).resolve_right hc
  cases hst with
  | create =>
    obtain rfl := List.mem_singleton.mp hnew
    simp [Abs.mask, Abs.onCtx, Abs.push, Abs.spawn, htr]
  | _ => exact absurd hnew (by simp [Act.creates])

theorem AStep.queue {q : QRef} (hst : AStep a act a') (hq : q ≠ .ready) : a'.queue q = a.queueAfter q act := by
  have hpush : ∀ {pc : Pc} {r : QRef}, ((a.stop pc).push r a.run).queue q =
      if q = r then a.queue q ++ [a.run] else a.queue q := by
    intro pc r
    by_cases hr : q = r
    · subst hr
      simp [Abs.push, Abs.stop, Abs.onCtx]
    · simp [Abs.push, Abs.stop, Abs.onCtx, hr]
  have hdrop : ∀ (b : Abs) (r : QRef), (b.drop r).queue q = if q = r then [] else b.queue q := by
    intro b r
    by_cases hr : q = r
    · subst hr
      simp [Abs.drop]
    · simp [Abs.drop, hr]
  cases hst with
  | create => exact Function.update_of_ne hq _ _
  | yield hn | timer hn =>
    rw [hn.queue hq, hpush, if_neg hq]
    rfl
  | joinWait _ hn => exact hn.queue hq
  | condInit => exact hdrop a _
  | mutexInit => exact hdrop _ _
  | @condWait c m _ hn =>
    rw [hn.queue hq]
    cases m with
    | none => exact hpush
    | some m =>
      have hset : (((a.stop (.wait c (some m))).push (.cond c) a.run).setTaken m false).queue q = _ := hpush
      rw [Abs.release, hdrop, Abs.wake_queue _ _ hq, hset, Abs.queueAfter]
      split_ifs <;> rfl
  | signalNone hnil =>
    rw [Abs.queueAfter]
    split_ifs with h
    · subst h
      exact hnil.trans (by rw [hnil]; rfl)
    · rfl
  | signal _ => exact a.wake_queue _ hq
  | lockFree ht =>
    rw [Abs.queueAfter, if_neg (by simp [ht])]
    rfl
  | lockWait ht hn =>
    rw [hn.queue hq, hpush, Abs.queueAfter]
    simp only [ht, and_true]
  | unlockFree hnil =>
    rw [Abs.queueAfter]
    split_ifs with h
    · subst h
      exact hnil.trans (by rw [hnil]; rfl)
    · rfl
  | unlockPass _ => exact a.wake_queue _ hq
  | @ret v _ hn =>
    rw [hn.queue hq]
    exact a.finish_queue v hq
  | resumeStart hpc _ | resumeYield hpc | resumeJoin hpc _ | resumeWait hpc =>
    simp only [Abs.queueAfter, hpc]
    rfl
  | resumeTake hpc ht =>
    simp only [Abs.queueAfter, hpc, ht, Bool.false_eq_true, and_false, if_false]
    rfl
  | resumeRewait hpc ht hn =>
    rw [hn.queue hq, hpush]
    simp only [Abs.queueAfter, hpc, ht, and_true]
  | resumeLocked hpc => rcases hpc with hpc | hpc <;> simp only [Abs.queueAfter, hpc] <;> rfl
  | _ => rfl

/-- Who waits for a condition did so before or has just called `green_cond_wait`. -/
theorem AStep.cond {c : ℕ} (hst : AStep a act a') (ht : t ∈ a'.queue (.cond c)) :
    t ∈ a.queue (.cond c) ∨ t = a.run ∧ ∃ m, act = .condWait c m := by
  rw [hst.queue (by simp)] at ht
  cases act with
  | condWait x m =>
    by_cases hx : x = c
    · subst hx
      refine (List.mem_append.mp (?_ : t ∈ a.queue (.cond x) ++ [a.run])).imp_right fun ht =>
        ⟨List.mem_singleton.mp ht, m, rfl⟩
      cases m <;> simpa [Abs.queueAfter] using ht
    · refine .inl ?_
      cases m <;> simpa [Abs.queueAfter, Ne.symm hx] using ht
  | condInit x =>
    simp only [Abs.queueAfter] at ht
    split_ifs at ht
    · exact absurd ht (by simp)
    · exact .inl ht
  | condSignal x =>
    simp only [Abs.queueAfter] at ht
    split_ifs at ht
    · exact .inl (List.mem_of_mem_tail ht)
    · exact .inl ht
  | resume =>
    refine .inl ?_
    simp only [Abs.queueAfter] at ht
    split at ht
    · simpa using ht
    · exact ht
  | mutexInit _ | lock _ | unlock _ => exact .inl (by simpa [Abs.queueAfter] using ht)
  | _ => exact .inl ht

theorem AStep.idle {m : ℕ} (hst : AStep a act a') (h : a.core.taken m = false → a.queue (.mutex m) = [])
    (ht : a'.core.taken m = false) : a'.queue (.mutex m) = [] := by
  rw [hst.core] at ht
  rw [hst.queue (by simp)]
  have hset : ∀ {x : ℕ} {v : Bool}, x ≠ m → (a.core.setTaken x v).taken m = a.core.taken m :=
    fun hx => Function.update_of_ne (Ne.symm hx) _ _
  have hself : ∀ v, (a.core.setTaken m v).taken m = v := fun v => Function.update_self ..
  have hother : ∀ {p : Prop} [Decidable p] {x : ℕ} {v : Bool}, x ≠ m →
      (if p then a.core.setTaken x v else a.core).taken m = false → a.core.taken m = false := by
    intro p _ x v hx ht
    split_ifs at ht
    · exact (hset hx).symm.trans ht
    · exact ht
  cases act with
  | condWait c x =>
    -- a mutex that is set free is left without threads that wait
    cases x with
    | none => exact (by simpa [Abs.queueAfter] using h ht)
    | some x =>
      by_cases hx : x = m
      · simp [Abs.queueAfter, hx]
      · have ht : a.core.taken m = false := (hset hx).symm.trans ht
        simpa [Abs.queueAfter, Ne.symm hx] using h ht
  | mutexInit x =>
    by_cases hx : x = m
    · simp [Abs.queueAfter, hx]
    · have ht : a.core.taken m = false := (hset hx).symm.trans ht
      simpa [Abs.queueAfter, Ne.symm hx] using h ht
  | lock x =>
    simp only [Abs.coreAfter] at ht
    by_cases hx : x = m
    · subst hx
      split_ifs at ht with h0
      · cases (hself true).symm.trans ht
      · exact absurd ht h0
    · simpa [Abs.queueAfter, Ne.symm hx] using h (hother hx ht)
  | unlock x =>
    -- a mutex that somebody waits for stays taken
    simp only [Abs.coreAfter] at ht
    by_cases hx : x = m
    · subst hx
      have hnil : a.queue (.mutex x) = [] := by
        split_ifs at ht with h0
        · exact h0
        · exact h ht
      simp [Abs.queueAfter, hnil]
    · simpa [Abs.queueAfter, Ne.symm hx] using h (hother hx ht)
  | resume =>
    simp only [Abs.coreAfter, Abs.queueAfter] at ht ⊢
    split at ht
    · next hpc =>
      rw [a.collect_taken] at ht
      simpa [hpc] using h ht
    · next x hpc =>
      by_cases hx : x = m
      · subst hx
        split_ifs at ht with h0
        · cases (hself true).symm.trans ht
        · exact absurd ht h0
      · simpa [hpc, Ne.symm hx] using h (hother hx ht)
    · next hno =>
      split
      · next hpc => exact absurd hpc (hno _ _)
      · exact h ht
  | join t res =>
    simp only [Abs.coreAfter] at ht
    refine h ?_
    split_ifs at ht
    · exact ht
    · rwa [a.collect_taken] at ht
  | condInit c | condSignal c => simpa [Abs.queueAfter] using h ht
  | _ => exact h ht

/-- **Nobody is lost.** -/
theorem AStep.lost (hst : AStep a act a') (hs : Spares a act) : a'.lost = a.lost := by
  cases hst with
  | yield hn | timer hn | lockWait _ hn | resumeRewait _ _ hn => exact hn.lost
  | @joinWait t res _ hz hn =>
    have hnone : a.core.join t = none := hs hz
    rw [hn.lost]
    show (a.core.join t).toList ++ a.lost = a.lost
    rw [hnone]
    rfl
  | @condInit c =>
    show a.queue (.cond c) ++ a.lost = a.lost
    rw [show a.queue (.cond c) = [] from hs]
    rfl
  | @mutexInit m =>
    show a.queue (.mutex m) ++ a.lost = a.lost
    rw [show a.queue (.mutex m) = [] from hs]
    rfl
  | @condWait c m _ hn =>
    rw [hn.lost]
    cases m with
    | none => rfl
    | some m =>
      have hnil : a.queue (.mutex m) = [] := hs
      simp [Abs.release, Abs.drop, Abs.wake, Abs.setTaken, Abs.push, Abs.stop, Abs.onCtx, hnil]
  | signal _ | unlockPass _ => exact a.wake_lost _
  | @ret v _ hn =>
    rw [hn.lost]
    unfold Abs.finish
    split <;> rfl
  | _ => rfl

end Change

end Seminars.Green
