import Mathlib.Data.List.Nodup
import Seminars.Green.Code

/-!
# Seminars.Green.Abstract — a scheduler without pointers

`Abs`: the running thread, the queues as lists, one context for every thread.  `lost` are the threads that no
queue and no `join` field leads to any more, though they have not ended.  `AStep` are the operations of the
library on it; a thread that suspends itself is stopped, put somewhere, and the first of the ready queue runs.

* `Placed a t p`: where a suspended thread is.  `Good a F`: every thread that has not ended is in exactly one
  place or one of `F`, the threads in hand.
* One lemma for each move: `Good.push`, `Good.pop`, `Good.drop`, `Good.await`, `Good.bury`, `Good.spawn`,
  `Good.onCtx`.
* `AInv` is `Good` with the running thread in hand; `AStep.inv` is its step lemma.
-/

namespace Seminars.Green

/-- The abstract scheduler. -/
structure Abs where
  core : Core
  run : Tid
  ctx : Tid → Ctx
  freed : Tid → Bool
  queue : QRef → List Tid
  lost : List Tid

/-- Created and not ended. -/
def Live (k : Core) (t : Tid) : Prop := t ∈ k.created ∧ k.zombie t = false

instance (k : Core) (t : Tid) : Decidable (Live k t) := inferInstanceAs (Decidable (_ ∧ _))

def Ended (k : Core) (t : Tid) : Prop := t ∈ k.created ∧ k.zombie t = true

instance (k : Core) (t : Tid) : Decidable (Ended k t) := inferInstanceAs (Decidable (_ ∧ _))

theorem Live.not_ended {k : Core} {t : Tid} (h : Live k t) : ¬ Ended k t :=
  fun he => absurd (h.2.symm.trans he.2) (by decide)

theorem live_or_ended {k : Core} {t : Tid} (hc : t ∈ k.created) : Live k t ∨ Ended k t := by
  cases hz : k.zombie t with
  | false => exact .inl ⟨hc, hz⟩
  | true => exact .inr ⟨hc, hz⟩

namespace Abs

def push (a : Abs) (q : QRef) (t : Tid) : Abs := { a with queue := Function.update a.queue q (a.queue q ++ [t]) }

def pop (a : Abs) (q : QRef) : Abs := { a with queue := Function.update a.queue q (a.queue q).tail }

/-- A queue whose head variable is cleared. -/
def drop (a : Abs) (q : QRef) : Abs :=
  { a with queue := Function.update a.queue q [], lost := a.queue q ++ a.lost }

/-- The first member of `q`, if there is one, goes to the end of the ready queue. -/
def wake (a : Abs) (q : QRef) : Abs :=
  match a.queue q with
  | [] => a
  | t :: _ => (a.pop q).push .ready t

/-- The running thread becomes the joiner of `t`, in place of an earlier one. -/
def await (a : Abs) (t : Tid) : Abs :=
  { a with core := a.core.setJoin t (some a.run), lost := (a.core.join t).toList ++ a.lost }

/-- The running thread ends with the result `v`. -/
def bury (a : Abs) (v : ℕ) : Abs := { a with core := (a.core.setRetval a.run v).setZombie a.run }

/-- The running thread ends and wakes its joiner. -/
def finish (a : Abs) (v : ℕ) : Abs :=
  match a.core.join a.run with
  | none => a.bury v
  | some j => (a.bury v).push .ready j

def spawn (a : Abs) (new : Tid) (fn arg : ℕ) : Abs :=
  { a with
    core := a.core.init new fn arg
    ctx := Function.update a.ctx new ⟨new, none, .start, true⟩
    freed := Function.update a.freed new false }

def setTaken (a : Abs) (m : ℕ) (v : Bool) : Abs := { a with core := a.core.setTaken m v }

/-- The context of the running thread changes. -/
def onCtx (a : Abs) (f : Ctx → Ctx) : Abs := { a with ctx := Function.update a.ctx a.run (f (a.ctx a.run)) }

def mask (a : Abs) (blocked : Bool) : Abs := a.onCtx fun c => { c with blocked := blocked }

/-- The running thread is suspended at `pc`. -/
def stop (a : Abs) (pc : Pc) : Abs := a.onCtx fun c => { c with pc := pc, blocked := true }

def leave (a : Abs) : Abs := a.onCtx fun c => { c with pc := .user, blocked := false }

def go (a : Abs) (n : Tid) : Abs := { a with run := n }

/-- The result of `t` is stored, its context freed. -/
def collect (a : Abs) (t : Tid) (res : Option ℕ) : Abs :=
  { a with
    core := if a.core.retval t ≠ 0 then a.core.store (res.getD 0) (a.core.retval t) else a.core
    freed := Function.update a.freed t true }

/-- `green_join` on an ended thread goes through: there is a place for the result, nobody freed the context. -/
def Collectable (a : Abs) (t : Tid) (res : Option ℕ) : Prop :=
  (a.core.retval t ≠ 0 → res ≠ none) ∧ a.freed t = false

end Abs

namespace Abs

theorem wake_run (a : Abs) (q : QRef) : (a.wake q).run = a.run := by
  unfold wake
  split <;> rfl

theorem wake_ctx (a : Abs) (q : QRef) : (a.wake q).ctx = a.ctx := by
  unfold wake
  split <;> rfl

theorem wake_core (a : Abs) (q : QRef) : (a.wake q).core = a.core := by
  unfold wake
  split <;> rfl

theorem wake_lost (a : Abs) (q : QRef) : (a.wake q).lost = a.lost := by
  unfold wake
  split <;> rfl

theorem wake_queue (a : Abs) (q : QRef) {r : QRef} (hr : r ≠ .ready) :
    (a.wake q).queue r = if r = q then (a.queue r).tail else a.queue r := by
  unfold wake
  split
  · next hq =>
    split_ifs with h
    · rw [h, hq]
      rfl
    · rfl
  · by_cases h : r = q
    · subst h
      simp [push, pop, hr]
    · simp [push, pop, hr, h]

theorem finish_queue (a : Abs) (v : ℕ) {q : QRef} (hq : q ≠ .ready) : (a.finish v).queue q = a.queue q := by
  unfold finish
  split
  · rfl
  · exact Function.update_of_ne hq _ _

theorem finish_core (a : Abs) (v : ℕ) : (a.finish v).core = (a.bury v).core := by
  unfold finish
  split <;> rfl

theorem collect_created (a : Abs) (t : Tid) (res : Option ℕ) : (a.collect t res).core.created = a.core.created := by
  unfold collect
  split_ifs <;> rfl

theorem collect_zombie (a : Abs) (t : Tid) (res : Option ℕ) : (a.collect t res).core.zombie = a.core.zombie := by
  unfold collect
  split_ifs <;> rfl

theorem collect_join (a : Abs) (t : Tid) (res : Option ℕ) : (a.collect t res).core.join = a.core.join := by
  unfold collect
  split_ifs <;> rfl

theorem collect_taken (a : Abs) (t : Tid) (res : Option ℕ) : (a.collect t res).core.taken = a.core.taken := by
  unfold collect
  split_ifs <;> rfl

end Abs

/-- The first of the ready queue runs. -/
def Next (a a' : Abs) : Prop := ∃ n l, a.queue .ready = n :: l ∧ a' = (a.pop .ready).go n

section Next

variable {a a' : Abs} {q : QRef} {t : Tid}

theorem Next.core (hn : Next a a') : a'.core = a.core := by
  obtain ⟨n, l, -, rfl⟩ := hn
  rfl

theorem Next.ctx (hn : Next a a') : a'.ctx = a.ctx := by
  obtain ⟨n, l, -, rfl⟩ := hn
  rfl

theorem Next.lost (hn : Next a a') : a'.lost = a.lost := by
  obtain ⟨n, l, -, rfl⟩ := hn
  rfl

theorem Next.queue (hn : Next a a') (hq : q ≠ .ready) : a'.queue q = a.queue q := by
  obtain ⟨n, l, -, rfl⟩ := hn
  exact Function.update_of_ne hq _ _

theorem Next.mem (hn : Next a a') (ht : t ∈ a.queue .ready) : t = a'.run ∨ t ∈ a'.queue .ready := by
  obtain ⟨n, l, hq, rfl⟩ := hn
  rw [hq] at ht
  simpa [Abs.go, Abs.pop, hq] using List.mem_cons.mp ht

end Next

/-- What `green_cond_wait` does with the mutex: it is released, one waiter is woken, the others are lost. -/
def Abs.release (a : Abs) (m : Option ℕ) : Abs :=
  match m with
  | none => a
  | some m => ((a.setTaken m false).wake (.mutex m)).drop (.mutex m)

theorem Abs.release_run (a : Abs) (m : Option ℕ) : (a.release m).run = a.run := by
  cases m with
  | none => rfl
  | some m => exact wake_run _ _

theorem Abs.release_ctx (a : Abs) (m : Option ℕ) : (a.release m).ctx = a.ctx := by
  cases m with
  | none => rfl
  | some m => exact wake_ctx _ _

theorem Abs.release_core (a : Abs) (m : Option ℕ) :
    (a.release m).core = m.elim a.core fun m => a.core.setTaken m false := by
  cases m with
  | none => rfl
  | some m => exact wake_core _ _

theorem Abs.live_release (a : Abs) (m : Option ℕ) {t : Tid} : Live (a.release m).core t ↔ Live a.core t := by
  rw [release_core]
  cases m <;> rfl

/-- **The operations**, up to the next suspension of the thread that executes them. -/
inductive AStep (a : Abs) : Act → Abs → Prop
  | create {new : Tid} {fn arg : ℕ} : AStep a (.create new fn arg) (((a.spawn new fn arg).push .ready new).mask false)
  | yield {a' : Abs} : Next ((a.stop (.yield none)).push .ready a.run) a' → AStep a .yield a'
  | timer {a' : Abs} : Next ((a.stop (.yield none)).push .ready a.run) a' → AStep a .timer a'
  | joinWait {t : Tid} {res : Option ℕ} {a' : Abs} : a.core.zombie t = false →
      Next ((a.stop (.join t res)).await t) a' → AStep a (.join t res) a'
  | joinNow {t : Tid} {res : Option ℕ} : a.core.zombie t = true → a.Collectable t res →
      AStep a (.join t res) (a.collect t res).leave
  | condInit {c : ℕ} : AStep a (.condInit c) ((a.drop (.cond c)).mask false)
  | condWait {c : ℕ} {m : Option ℕ} {a' : Abs} :
      Next (((a.stop (.wait c m)).push (.cond c) a.run).release m) a' → AStep a (.condWait c m) a'
  | signalNone {c : ℕ} : a.queue (.cond c) = [] → AStep a (.condSignal c) (a.mask true)
  | signal {c : ℕ} : a.queue (.cond c) ≠ [] → AStep a (.condSignal c) ((a.wake (.cond c)).mask false)
  | mutexInit {m : ℕ} : AStep a (.mutexInit m) (((a.setTaken m false).drop (.mutex m)).mask false)
  | lockFree {m : ℕ} : a.core.taken m = false → AStep a (.lock m) ((a.setTaken m true).mask false)
  | lockWait {m : ℕ} {a' : Abs} : a.core.taken m = true →
      Next ((a.stop (.lock m)).push (.mutex m) a.run) a' → AStep a (.lock m) a'
  | unlockFree {m : ℕ} : a.queue (.mutex m) = [] → AStep a (.unlock m) ((a.setTaken m false).mask false)
  | unlockPass {m : ℕ} : a.queue (.mutex m) ≠ [] → AStep a (.unlock m) ((a.wake (.mutex m)).mask false)
  | ret {v : ℕ} {a' : Abs} : Next (a.finish v) a' → AStep a (.ret v) a'
  | resumeStart : (a.ctx a.run).pc = .start → a.core.fn a.run ≠ 0 →
      AStep a .resume (a.onCtx fun c => { c with this := some a.run, pc := .user, blocked := true })
  | resumeYield : (a.ctx a.run).pc = .yield none → AStep a .resume a.leave
  | resumeJoin {t : Tid} {res : Option ℕ} : (a.ctx a.run).pc = .join t res → a.Collectable t res →
      AStep a .resume (a.collect t res).leave
  | resumeWait {c : ℕ} : (a.ctx a.run).pc = .wait c none → AStep a .resume a.leave
  | resumeTake {c m : ℕ} : (a.ctx a.run).pc = .wait c (some m) → a.core.taken m = false →
      AStep a .resume (a.setTaken m true).leave
  | resumeRewait {c m : ℕ} {a' : Abs} : (a.ctx a.run).pc = .wait c (some m) → a.core.taken m = true →
      Next ((a.stop (.rewait m)).push (.mutex m) a.run) a' → AStep a .resume a'
  | resumeLocked {m : ℕ} : (a.ctx a.run).pc = .rewait m ∨ (a.ctx a.run).pc = .lock m → AStep a .resume a.leave

/-! ### Places -/

/-- Where a suspended thread is. -/
inductive Place
  | queue (q : QRef)
  | join (u : Tid)
  | lost
  deriving DecidableEq, Repr

/-- `t` is at the place `p`. -/
def Placed (a : Abs) (t : Tid) : Place → Prop
  | .queue q => t ∈ a.queue q
  | .join u => Live a.core u ∧ a.core.join u = some t
  | .lost => t ∈ a.lost

/-- Where the code of a thread that may run next stands. -/
def Resumable (k : Core) : Pc → Prop
  | .start => True
  | .yield none => True
  | .join u _ => Ended k u
  | .wait _ _ => True
  | .rewait _ => True
  | .lock _ => True
  | _ => False

/-- Where the code of a thread at `p` stands. -/
def Suits (k : Core) (pc : Pc) : Place → Prop
  | .queue .ready => Resumable k pc
  | .queue (.cond c) => ∃ m, pc = .wait c m
  | .queue (.mutex m) => pc = .lock m ∨ pc = .rewait m
  | .join u => ∃ res, pc = .join u res
  | .lost => True

/-- The context of a thread at `p`: suspended, with the signal blocked. -/
def Waits (k : Core) (c : Ctx) (p : Place) : Prop := c.blocked = true ∧ Suits k c.pc p

theorem Suits.mono {k k' : Core} {pc : Pc} {p : Place} (h : Suits k pc p)
    (hz : ∀ u, Ended k u → Ended k' u) : Suits k' pc p := by
  cases p with
  | queue q =>
    cases q with
    | ready =>
      cases pc with
      | join u res => exact hz u h
      | yield back => cases back <;> exact h
      | _ => exact h
    | cond c => exact h
    | mutex m => exact h
  | join u => exact h
  | lost => exact h

theorem Waits.mono {k k' : Core} {c : Ctx} {p : Place} (h : Waits k c p)
    (hz : ∀ u, Ended k u → Ended k' u) : Waits k' c p :=
  ⟨h.1, h.2.mono hz⟩

/-- A thread that waits in a queue can be moved to the ready queue. -/
theorem Waits.ready {k : Core} {c : Ctx} {q : QRef} (h : Waits k c (.queue q)) : Waits k c (.queue .ready) := by
  refine ⟨h.1, ?_⟩
  have hs := h.2
  cases q with
  | ready => exact hs
  | cond c =>
    obtain ⟨m, hm⟩ := hs
    simp [Suits, Resumable, hm]
  | mutex m => rcases hs with hm | hm <;> simp [Suits, Resumable, hm]

/-- **Every live thread is in exactly one place, or one of `F`.** -/
structure Good (a : Abs) (F : List Tid) : Prop where
  nodup : F.Nodup
  float : ∀ t ∈ F, Live a.core t ∧ ∀ p, ¬ Placed a t p
  placed : ∀ t p, Placed a t p → Live a.core t
  one : ∀ t p p', Placed a t p → Placed a t p' → p = p'
  total : ∀ t, Live a.core t → t ∈ F ∨ ∃ p, Placed a t p
  each : ∀ q, (a.queue q).Nodup
  waits : ∀ t p, Placed a t p → Waits a.core (a.ctx t) p
  own : ∀ t, Live a.core t → (a.ctx t).owner = t ∧ ((a.ctx t).this = none ∨ (a.ctx t).this = some t)
  freed : ∀ t, t ∈ a.core.created → a.freed t = true → a.core.zombie t = true

namespace Good

variable {a : Abs} {F : List Tid} {q : QRef} {t : Tid} {l : List Tid}

theorem go (h : Good a F) (n : Tid) : Good (a.go n) F :=
  ⟨h.nodup, h.float, h.placed, h.one, h.total, h.each, h.waits, h.own, h.freed⟩

theorem placed_push {u : Tid} {p : Place} :
    Placed (a.push q t) u p ↔ Placed a u p ∨ u = t ∧ p = .queue q := by
  cases p with
  | queue r =>
    by_cases hr : r = q
    · subst hr
      simp [Placed, Abs.push]
    · simp [Placed, Abs.push, hr]
  | join v => simp [Placed, Abs.push, Live]
  | lost => simp [Placed, Abs.push]

theorem push (h : Good a (t :: F)) (hs : Waits a.core (a.ctx t) (.queue q)) : Good (a.push q t) F := by
  obtain ⟨htF, hF⟩ := List.nodup_cons.mp h.nodup
  obtain ⟨htl, htp⟩ := h.float t (by simp)
  refine ⟨hF, fun u hu => ⟨(h.float u (by simp [hu])).1, fun p hp => ?_⟩, fun u p hp => ?_, fun u p p' hp hp' => ?_,
    fun u hu => ?_, fun r => ?_, fun u p hp => ?_, h.own, h.freed⟩
  · rcases placed_push.mp hp with hp | ⟨rfl, -⟩
    · exact (h.float u (by simp [hu])).2 p hp
    · exact htF hu
  · rcases placed_push.mp hp with hp | ⟨rfl, -⟩
    · exact h.placed u p hp
    · exact htl
  · rcases placed_push.mp hp with hp | ⟨rfl, rfl⟩ <;> rcases placed_push.mp hp' with hp' | ⟨e, rfl⟩
    · exact h.one u p p' hp hp'
    · exact absurd (e ▸ hp) (htp p)
    · exact absurd hp' (htp p')
    · rfl
  · rcases h.total u hu with hu | ⟨p, hp⟩
    · rcases List.mem_cons.mp hu with rfl | hu
      · exact .inr ⟨.queue q, placed_push.mpr (.inr ⟨rfl, rfl⟩)⟩
      · exact .inl hu
    · exact .inr ⟨p, placed_push.mpr (.inl hp)⟩
  · by_cases hr : r = q
    · subst hr
      have ht : t ∉ a.queue r := htp (.queue r)
      simpa [Abs.push, List.nodup_append] using ⟨h.each r, fun x hx e => ht (e ▸ hx)⟩
    · simpa [Abs.push, hr] using h.each r
  · rcases placed_push.mp hp with hp | ⟨rfl, rfl⟩
    · exact h.waits u p hp
    · exact hs

theorem placed_pop {u : Tid} {p : Place} (h : Good a F) (hq : a.queue q = t :: l) :
    Placed (a.pop q) u p ↔ Placed a u p ∧ u ≠ t := by
  have ht : Placed a t (.queue q) := by simp [Placed, hq]
  have hnd := h.each q
  rw [hq] at hnd
  have htl := (List.nodup_cons.mp hnd).1
  constructor
  · intro hp
    have hp' : Placed a u p := by
      cases p with
      | queue r =>
        by_cases hr : r = q
        · subst hr
          simp only [Placed, Abs.pop, Function.update_self, hq, List.tail_cons] at hp ⊢
          exact List.mem_cons_of_mem _ hp
        · simpa [Placed, Abs.pop, hr] using hp
      | join v => exact hp
      | lost => exact hp
    refine ⟨hp', ?_⟩
    rintro rfl
    obtain rfl := h.one u _ _ hp' ht
    simp only [Placed, Abs.pop, Function.update_self, hq, List.tail_cons] at hp
    exact htl hp
  · rintro ⟨hp, hne⟩
    cases p with
    | queue r =>
      by_cases hr : r = q
      · subst hr
        simp only [Placed, Abs.pop, Function.update_self, hq, List.tail_cons] at hp ⊢
        exact (List.mem_cons.mp hp).resolve_left hne
      · simpa [Placed, Abs.pop, hr] using hp
    | join v => exact hp
    | lost => exact hp

theorem pop (h : Good a F) (hq : a.queue q = t :: l) : Good (a.pop q) (t :: F) := by
  have ht : Placed a t (.queue q) := by simp [Placed, hq]
  have htF : t ∉ F := fun hm => (h.float t hm).2 _ ht
  refine ⟨List.nodup_cons.mpr ⟨htF, h.nodup⟩, fun u hu => ?_, fun u p hp => ?_, fun u p p' hp hp' => ?_,
    fun u hu => ?_, fun r => ?_, fun u p hp => ?_, h.own, h.freed⟩
  · rcases List.mem_cons.mp hu with rfl | hu
    · exact ⟨h.placed u _ ht, fun p hp => ((h.placed_pop hq).mp hp).2 rfl⟩
    · exact ⟨(h.float u hu).1, fun p hp => (h.float u hu).2 p ((h.placed_pop hq).mp hp).1⟩
  · exact h.placed u p ((h.placed_pop hq).mp hp).1
  · exact h.one u p p' ((h.placed_pop hq).mp hp).1 ((h.placed_pop hq).mp hp').1
  · by_cases hut : u = t
    · exact .inl (by simp [hut])
    · exact (h.total u hu).imp (fun hm => List.mem_cons_of_mem _ hm) fun ⟨p, hp⟩ =>
        ⟨p, (h.placed_pop hq).mpr ⟨hp, hut⟩⟩
  · by_cases hr : r = q
    · subst hr
      simpa [Abs.pop] using (h.each r).tail
    · simpa [Abs.pop, hr] using h.each r
  · exact h.waits u p ((h.placed_pop hq).mp hp).1

theorem placed_drop {u : Tid} {p : Place} :
    Placed (a.drop q) u p ↔ Placed a u p ∧ p ≠ .queue q ∨ p = .lost ∧ u ∈ a.queue q := by
  cases p with
  | queue r =>
    by_cases hr : r = q
    · subst hr
      simp [Placed, Abs.drop]
    · simp [Placed, Abs.drop, hr]
  | join v => simp [Placed, Abs.drop, Live]
  | lost => simp [Placed, Abs.drop, or_comm]

theorem drop (h : Good a F) (q : QRef) : Good (a.drop q) F := by
  have hold : ∀ u p, Placed (a.drop q) u p → ∃ p', Placed a u p' := fun u p hp =>
    (placed_drop.mp hp).elim (fun hp => ⟨p, hp.1⟩) fun hp => ⟨.queue q, hp.2⟩
  refine ⟨h.nodup, fun u hu => ⟨(h.float u hu).1, fun p hp => ?_⟩, fun u p hp => ?_, fun u p p' hp hp' => ?_,
    fun u hu => ?_, fun r => ?_, fun u p hp => ?_, h.own, h.freed⟩
  · obtain ⟨p', hp'⟩ := hold u p hp
    exact (h.float u hu).2 p' hp'
  · obtain ⟨p', hp'⟩ := hold u p hp
    exact h.placed u p' hp'
  · rcases placed_drop.mp hp with ⟨hp, hne⟩ | ⟨rfl, hq⟩ <;> rcases placed_drop.mp hp' with ⟨hp', hne'⟩ | ⟨rfl, hq'⟩
    · exact h.one u p p' hp hp'
    · exact absurd (h.one u p (.queue q) hp hq') hne
    · exact absurd (h.one u p' (.queue q) hp' hq) hne'
    · rfl
  · refine (h.total u hu).imp_right fun ⟨p, hp⟩ => ?_
    by_cases hpq : p = .queue q
    · subst hpq
      exact ⟨.lost, placed_drop.mpr (.inr ⟨rfl, hp⟩)⟩
    · exact ⟨p, placed_drop.mpr (.inl ⟨hp, hpq⟩)⟩
  · by_cases hr : r = q
    · subst hr
      simp [Abs.drop]
    · simpa [Abs.drop, hr] using h.each r
  · rcases placed_drop.mp hp with ⟨hp, -⟩ | ⟨rfl, hq⟩
    · exact h.waits u p hp
    · exact ⟨(h.waits u (.queue q) hq).1, trivial⟩

theorem placed_await {u : Tid} {p : Place} (ht : Live a.core t) : Placed (a.await t) u p ↔
    Placed a u p ∧ p ≠ .join t ∨ p = .join t ∧ u = a.run ∨ p = .lost ∧ a.core.join t = some u := by
  cases p with
  | queue r => simp [Placed, Abs.await]
  | join v =>
    by_cases hv : v = t
    · subst hv
      have hl : Live (a.await v).core v := ht
      simp [Placed, Abs.await, Core.setJoin, Live] at hl ⊢
      tauto
    · simp [Placed, Abs.await, Core.setJoin, Live, hv]
  | lost => simp [Placed, Abs.await, or_comm]

theorem await (h : Good a (a.run :: F)) (ht : Live a.core t) (hs : Waits a.core (a.ctx a.run) (.join t)) :
    Good (a.await t) F := by
  obtain ⟨hrF, hF⟩ := List.nodup_cons.mp h.nodup
  obtain ⟨hrl, hrp⟩ := h.float a.run (by simp)
  have hold : ∀ {u}, a.core.join t = some u → Placed a u (.join t) := fun hu => ⟨ht, hu⟩
  refine ⟨hF, fun u hu => ⟨(h.float u (by simp [hu])).1, fun p hp => ?_⟩, fun u p hp => ?_, fun u p p' hp hp' => ?_,
    fun u hu => ?_, h.each, fun u p hp => ?_, h.own, h.freed⟩
  · rcases (placed_await ht).mp hp with ⟨hp, -⟩ | ⟨-, rfl⟩ | ⟨-, hj⟩
    · exact (h.float u (by simp [hu])).2 p hp
    · exact hrF hu
    · exact (h.float u (by simp [hu])).2 _ (hold hj)
  · rcases (placed_await ht).mp hp with ⟨hp, -⟩ | ⟨-, rfl⟩ | ⟨-, hj⟩
    · exact h.placed u p hp
    · exact hrl
    · exact h.placed u _ (hold hj)
  · rcases (placed_await ht).mp hp with ⟨hp, hne⟩ | ⟨rfl, rfl⟩ | ⟨rfl, hj⟩ <;>
      rcases (placed_await ht).mp hp' with ⟨hp', hne'⟩ | ⟨rfl, e⟩ | ⟨rfl, hj'⟩
    · exact h.one u p p' hp hp'
    · exact absurd (e ▸ hp) (hrp p)
    · exact absurd (h.one u p _ hp (hold hj')) hne
    · exact absurd hp' (hrp p')
    · rfl
    · exact absurd (hold hj') (hrp _)
    · exact absurd (h.one u p' _ hp' (hold hj)) hne'
    · exact absurd (hold (e ▸ hj)) (hrp _)
    · rfl
  · rcases h.total u hu with hu | ⟨p, hp⟩
    · rcases List.mem_cons.mp hu with rfl | hu
      · exact .inr ⟨.join t, (placed_await ht).mpr (.inr (.inl ⟨rfl, rfl⟩))⟩
      · exact .inl hu
    · by_cases hpt : p = .join t
      · subst hpt
        exact .inr ⟨.lost, (placed_await ht).mpr (.inr (.inr ⟨rfl, hp.2⟩))⟩
      · exact .inr ⟨p, (placed_await ht).mpr (.inl ⟨hp, hpt⟩)⟩
  · rcases (placed_await ht).mp hp with ⟨hp, -⟩ | ⟨rfl, rfl⟩ | ⟨rfl, hj⟩
    · exact h.waits u p hp
    · exact hs
    · exact ⟨(h.waits u _ (hold hj)).1, trivial⟩

theorem zombie_bury {u : Tid} {v : ℕ} (h : a.core.zombie u = true) : (a.bury v).core.zombie u = true := by
  by_cases hu : u = a.run
  · simp [Abs.bury, Core.setZombie, hu]
  · simpa [Abs.bury, Core.setZombie, Core.setRetval, hu] using h

theorem ended_bury {u : Tid} {v : ℕ} (h : Ended a.core u) : Ended (a.bury v).core u := ⟨h.1, zombie_bury h.2⟩

theorem live_bury {u : Tid} {v : ℕ} : Live (a.bury v).core u ↔ Live a.core u ∧ u ≠ a.run := by
  by_cases hu : u = a.run
  · simp [Live, Abs.bury, Core.setZombie, hu]
  · simp [Live, Abs.bury, Core.setZombie, Core.setRetval, hu]

theorem placed_bury {u : Tid} {v : ℕ} {p : Place} :
    Placed (a.bury v) u p ↔ Placed a u p ∧ p ≠ .join a.run := by
  cases p with
  | queue r => simp [Placed, Abs.bury]
  | join w =>
    have hj : (a.bury v).core.join = a.core.join := rfl
    simp only [Placed, live_bury, hj]
    constructor
    · rintro ⟨⟨h1, h2⟩, h3⟩
      exact ⟨⟨h1, h3⟩, fun e => h2 (Place.join.inj e)⟩
    · rintro ⟨⟨h1, h3⟩, h2⟩
      exact ⟨⟨h1, fun e => h2 (by rw [e])⟩, h3⟩
  | lost => simp [Placed, Abs.bury]

theorem bury (h : Good a (a.run :: F)) (v : ℕ) : Good (a.bury v) ((a.core.join a.run).toList ++ F) := by
  obtain ⟨hrF, hF⟩ := List.nodup_cons.mp h.nodup
  obtain ⟨hrl, hrp⟩ := h.float a.run (by simp)
  have hold : ∀ {u}, a.core.join a.run = some u → Placed a u (.join a.run) := fun hu => ⟨hrl, hu⟩
  have hne : ∀ {u p}, Placed a u p → u ≠ a.run := fun hp e => hrp _ (e ▸ hp)
  refine ⟨?_, fun u hu => ?_, fun u p hp => ?_, fun u p p' hp hp' => ?_, fun u hu => ?_, h.each, fun u p hp => ?_,
    fun u hu => h.own u (live_bury.mp hu).1, fun u hc hu => zombie_bury (h.freed u hc hu)⟩
  · cases hj : a.core.join a.run with
    | none => exact hF
    | some j => exact List.nodup_cons.mpr ⟨fun hm => (h.float j (List.mem_cons_of_mem _ hm)).2 _ (hold hj), hF⟩
  · rcases List.mem_append.mp hu with hu | hu
    · have hj := hold (Option.mem_toList.mp hu)
      refine ⟨live_bury.mpr ⟨h.placed u _ hj, hne hj⟩, fun p hp => ?_⟩
      obtain ⟨hp, hpr⟩ := placed_bury.mp hp
      exact hpr (h.one u p _ hp hj)
    · obtain ⟨hul, hup⟩ := h.float u (by simp [hu])
      refine ⟨live_bury.mpr ⟨hul, fun e => hrF (e ▸ hu)⟩, fun p hp => hup p (placed_bury.mp hp).1⟩
  · obtain ⟨hp, -⟩ := placed_bury.mp hp
    exact live_bury.mpr ⟨h.placed u p hp, hne hp⟩
  · exact h.one u p p' (placed_bury.mp hp).1 (placed_bury.mp hp').1
  · obtain ⟨hu, hur⟩ := live_bury.mp hu
    rcases h.total u hu with hu | ⟨p, hp⟩
    · exact .inl (List.mem_append_right _ ((List.mem_cons.mp hu).resolve_left hur))
    · by_cases hpr : p = .join a.run
      · subst hpr
        exact .inl (List.mem_append_left _ (Option.mem_toList.mpr hp.2))
      · exact .inr ⟨p, placed_bury.mpr ⟨hp, hpr⟩⟩
  · exact (h.waits u p (placed_bury.mp hp).1).mono fun _ => ended_bury

section Spawn

variable {new : Tid} {fn arg : ℕ}

theorem live_spawn {u : Tid} : Live (a.spawn new fn arg).core u ↔ u = new ∨ Live a.core u := by
  by_cases hu : u = new
  · simp [Live, Abs.spawn, Core.init, hu]
  · simp [Live, Abs.spawn, Core.init, hu]

theorem placed_spawn (hn : new ∉ a.core.created) {u : Tid} {p : Place} :
    Placed (a.spawn new fn arg) u p ↔ Placed a u p := by
  cases p with
  | queue r => exact Iff.rfl
  | join w =>
    by_cases hw : w = new
    · subst hw
      simp [Placed, Abs.spawn, Core.init, Live, hn]
    · simp [Placed, Abs.spawn, Core.init, Live, hw]
  | lost => exact Iff.rfl

theorem ended_spawn (hn : new ∉ a.core.created) {u : Tid} (hz : Ended a.core u) :
    Ended (a.spawn new fn arg).core u := by
  have hu : u ≠ new := fun e => hn (e ▸ hz.1)
  simpa [Ended, Abs.spawn, Core.init, hu] using hz

theorem spawn (h : Good a F) (hn : new ∉ a.core.created) : Good (a.spawn new fn arg) (new :: F) := by
  have hnew : ∀ {u}, Live a.core u → u ≠ new := fun hu e => hn (e ▸ hu.1)
  have hctx : ∀ {u}, u ≠ new → (a.spawn new fn arg).ctx u = a.ctx u := fun hu => Function.update_of_ne hu _ _
  refine ⟨List.nodup_cons.mpr ⟨fun hm => hnew (h.float new hm).1 rfl, h.nodup⟩, fun u hu => ?_, fun u p hp => ?_,
    fun u p p' hp hp' => ?_, fun u hu => ?_, h.each, fun u p hp => ?_, fun u hu => ?_, fun u hc hu => ?_⟩
  · rcases List.mem_cons.mp hu with rfl | hu
    · exact ⟨live_spawn.mpr (.inl rfl), fun p hp => hnew (h.placed _ _ ((placed_spawn hn).mp hp)) rfl⟩
    · exact ⟨live_spawn.mpr (.inr (h.float u hu).1), fun p hp => (h.float u hu).2 p ((placed_spawn hn).mp hp)⟩
  · exact live_spawn.mpr (.inr (h.placed u p ((placed_spawn hn).mp hp)))
  · exact h.one u p p' ((placed_spawn hn).mp hp) ((placed_spawn hn).mp hp')
  · rcases live_spawn.mp hu with rfl | hu
    · exact .inl (by simp)
    · exact (h.total u hu).imp (fun hm => List.mem_cons_of_mem _ hm) fun ⟨p, hp⟩ => ⟨p, (placed_spawn hn).mpr hp⟩
  · have hp := (placed_spawn hn).mp hp
    rw [hctx (hnew (h.placed u p hp))]
    exact (h.waits u p hp).mono fun _ => ended_spawn hn
  · rcases live_spawn.mp hu with rfl | hu
    · simp [Abs.spawn]
    · rw [hctx (hnew hu)]
      exact h.own u hu
  · by_cases hun : u = new
    · simp [Abs.spawn, hun] at hu
    · have hf : a.freed u = true := by simpa [Abs.spawn, hun] using hu
      have hc : u ∈ a.core.created := by simpa [Abs.spawn, Core.init, hun] using hc
      simpa [Abs.spawn, Core.init, hun] using h.freed u hc hf

end Spawn

/-- The context of the running thread does not matter while it is in hand. -/
theorem onCtx (h : Good a F) (hr : a.run ∈ F) {f : Ctx → Ctx} (hf : (f (a.ctx a.run)).owner = (a.ctx a.run).owner)
    (hf' : (f (a.ctx a.run)).this = (a.ctx a.run).this ∨ (f (a.ctx a.run)).this = some a.run) :
    Good (a.onCtx f) F := by
  have hctx : ∀ {u}, u ≠ a.run → (a.onCtx f).ctx u = a.ctx u := fun hu => Function.update_of_ne hu _ _
  refine ⟨h.nodup, h.float, h.placed, h.one, h.total, h.each, fun u p hp => ?_, fun u hu => ?_, h.freed⟩
  · have hu : u ≠ a.run := fun e => (h.float a.run hr).2 p (e ▸ hp)
    rw [hctx hu]
    exact h.waits u p hp
  · by_cases hur : u = a.run
    · have hself : (a.onCtx f).ctx u = f (a.ctx a.run) := by simp [Abs.onCtx, hur]
      obtain ⟨h1, h2⟩ := h.own a.run (h.float a.run hr).1
      rw [hself, hf, hur]
      refine ⟨h1, ?_⟩
      rcases hf' with e | e
      · rw [e]; exact h2
      · exact .inr e
    · rw [hctx hur]
      exact h.own u hu

/-- Mutexes, results and variables of the program have no part in it. -/
theorem core {k : Core} (h : Good a F) (h1 : k.created = a.core.created) (h2 : k.zombie = a.core.zombie)
    (h3 : k.join = a.core.join) : Good { a with core := k } F := by
  have hlive : ∀ {u}, Live k u ↔ Live a.core u := fun {u} => by simp [Live, h1, h2]
  have hplaced : ∀ {u p}, Placed { a with core := k } u p ↔ Placed a u p := fun {u p} => by
    cases p with
    | queue r => exact Iff.rfl
    | join w => simp [Placed, hlive, h3]
    | lost => exact Iff.rfl
  refine ⟨h.nodup, fun u hu => ⟨hlive.mpr (h.float u hu).1, fun p hp => (h.float u hu).2 p (hplaced.mp hp)⟩,
    fun u p hp => hlive.mpr (h.placed u p (hplaced.mp hp)),
    fun u p p' hp hp' => h.one u p p' (hplaced.mp hp) (hplaced.mp hp'),
    fun u hu => (h.total u (hlive.mp hu)).imp_right fun ⟨p, hp⟩ => ⟨p, hplaced.mpr hp⟩, h.each, fun u p hp => ?_,
    fun u hu => h.own u (hlive.mp hu), fun u hc hu => ?_⟩
  · exact (h.waits u p (hplaced.mp hp)).mono fun v hv => ⟨h1 ▸ hv.1, h2 ▸ hv.2⟩
  · rw [h2]
    exact h.freed u (h1 ▸ hc) hu

theorem setTaken (h : Good a F) (m : ℕ) (v : Bool) : Good (a.setTaken m v) F := h.core rfl rfl rfl

theorem collect (h : Good a F) {res : Option ℕ} (ht : a.core.zombie t = true) : Good (a.collect t res) F := by
  have h1 : Good { a with core := (a.collect t res).core } F := by
    apply h.core <;> unfold Abs.collect <;> split_ifs <;> rfl
  refine ⟨h1.nodup, h1.float, h1.placed, h1.one, h1.total, h1.each, h1.waits, h1.own, fun u hc hu => ?_⟩
  by_cases hut : u = t
  · subst hut
    unfold Abs.collect
    split_ifs <;> exact ht
  · have hf : a.freed u = true := by simpa [Abs.collect, hut] using hu
    exact h1.freed u hc hf

theorem wake (h : Good a F) (q : QRef) : Good (a.wake q) F := by
  unfold Abs.wake
  split
  · exact h
  · next t l hl =>
    apply (h.pop hl).push
    exact (h.waits t (.queue q) (by simp [Placed, hl])).ready

end Good

/-! ### The invariant -/

/-- Every live thread but the running one is in exactly one place; the running thread is outside the library or
about to go on. -/
structure AInv (a : Abs) : Prop where
  good : Good a [a.run]
  pc : (a.ctx a.run).pc = .user ∨ Waits a.core (a.ctx a.run) (.queue .ready)

/-- Once the thread that ran has been put somewhere, the next one can run. -/
theorem Good.next {b a' : Abs} (h : Good b []) (hn : Next b a') : AInv a' := by
  obtain ⟨n, l, hq, rfl⟩ := hn
  exact ⟨(h.pop hq).go n, .inr (h.waits n (.queue .ready) (by simp [Placed, hq]))⟩

namespace AInv

variable {a : Abs}

theorem live (h : AInv a) : Live a.core a.run := (h.good.float a.run (by simp)).1

/-- Nothing but the processor has the running thread. -/
theorem not_placed (h : AInv a) (p : Place) : ¬ Placed a a.run p := (h.good.float a.run (by simp)).2 p

theorem not_queued (h : AInv a) (q : QRef) : a.run ∉ a.queue q := h.not_placed (.queue q)

theorem onCtx (h : AInv a) {f : Ctx → Ctx} (hf : ∀ c, (f c).owner = c.owner)
    (hf' : ∀ c, (f c).this = c.this ∨ (f c).this = some a.run) : Good (a.onCtx f) [a.run] :=
  h.good.onCtx (by simp) (hf _) (hf' _)

theorem of_user {b : Abs} (h : Good b [b.run]) (hpc : (b.ctx b.run).pc = .user) : AInv b := ⟨h, .inl hpc⟩

theorem mask {b : Abs} (h : Good b [b.run]) (hpc : (b.ctx b.run).pc = .user) (v : Bool) : AInv (b.mask v) := by
  refine of_user (h.onCtx (by simp) rfl (.inl rfl)) ?_
  simpa [Abs.mask, Abs.onCtx] using hpc

theorem leave {b : Abs} (h : Good b [b.run]) : AInv b.leave := by
  refine of_user (h.onCtx (by simp) rfl (.inl rfl)) ?_
  simp [Abs.leave, Abs.onCtx]

theorem stopPush (h : AInv a) {pc : Pc} {q : QRef} (hs : Suits a.core pc (.queue q)) :
    Good ((a.stop pc).push q a.run) [] := by
  have hg : Good (a.stop pc) [a.run] := h.onCtx (fun _ => rfl) fun _ => .inl rfl
  apply hg.push
  simpa [Waits, Abs.stop, Abs.onCtx] using hs

theorem maskWake (h : AInv a) {q : QRef} {v : Bool} (hpc : (a.ctx a.run).pc = .user) : AInv ((a.wake q).mask v) := by
  refine AInv.mask ?_ ?_ v
  · rw [a.wake_run]
    exact h.good.wake q
  · rw [a.wake_run, a.wake_ctx]
    exact hpc

theorem release {b : Abs} {F : List Tid} (h : Good b F) (m : Option ℕ) : Good (b.release m) F := by
  cases m with
  | none => exact h
  | some m => exact ((h.setTaken m false).wake _).drop _

theorem finish (h : AInv a) (v : ℕ) : Good (a.finish v) [] := by
  have hb := h.good.bury v
  unfold Abs.finish
  cases hj : a.core.join a.run with
  | none => simpa [hj] using hb
  | some j =>
    simp only [hj, Option.toList_some, List.append_nil] at hb
    apply hb.push
    obtain ⟨hw, res, hpc⟩ := h.good.waits j (.join a.run) ⟨(h.good.float a.run (by simp)).1, hj⟩
    refine ⟨hw, ?_⟩
    show Resumable (a.bury v).core (a.ctx j).pc
    rw [hpc]
    exact ⟨(h.good.float a.run (by simp)).1.1, by simp [Abs.bury, Core.setZombie]⟩

end AInv

/-- **Every operation keeps the invariant.** -/
theorem AStep.inv {a a' : Abs} {act : Act} (h : AInv a) (hen : enabled (a.ctx a.run) act) (hpr : proper a.core act)
    (hs : AStep a act a') : AInv a' := by
  cases hs with
  | @create new fn arg =>
    have hne : a.run ≠ new := fun e => hpr (e ▸ (h.good.float a.run (by simp)).1.1)
    have h1 : Good ((a.spawn new fn arg).push .ready new) [a.run] := by
      apply (h.good.spawn hpr).push
      simp [Waits, Suits, Resumable, Abs.spawn]
    refine AInv.mask h1 ?_ false
    show (Function.update a.ctx new _ a.run).pc = .user
    rw [Function.update_of_ne hne]
    exact hen
  | yield hn => exact (h.stopPush (by simp [Suits, Resumable])).next hn
  | timer hn => exact (h.stopPush (by simp [Suits, Resumable])).next hn
  | @joinWait t res _ hz hn =>
    refine Good.next ?_ hn
    have hg : Good (a.stop (.join t res)) [a.run] := h.onCtx (fun _ => rfl) fun _ => .inl rfl
    exact hg.await ⟨hpr, hz⟩ (by simp [Waits, Suits, Abs.stop, Abs.onCtx])
  | joinNow hz hc => exact AInv.leave (h.good.collect hz)
  | condInit => exact AInv.mask (h.good.drop _) hen _
  | condWait hn => exact (AInv.release (h.stopPush (q := .cond _) ⟨_, rfl⟩) _).next hn
  | signalNone hq => exact AInv.mask h.good hen _
  | signal hq => exact h.maskWake hen
  | mutexInit => exact AInv.mask ((h.good.setTaken _ _).drop _) hen _
  | lockFree ht => exact AInv.mask (h.good.setTaken _ _) hen _
  | lockWait ht hn => exact (h.stopPush (q := .mutex _) (.inl rfl)).next hn
  | unlockFree hq => exact AInv.mask (h.good.setTaken _ _) hen _
  | unlockPass hq => exact h.maskWake hen
  | ret hn => exact (h.finish _).next hn
  | resumeStart hpc hf =>
    refine AInv.of_user (h.onCtx (fun _ => rfl) fun _ => .inr rfl) ?_
    simp [Abs.onCtx]
  | resumeYield hpc => exact AInv.leave h.good
  | @resumeJoin t res hpc hc =>
    rcases h.pc with hu | ⟨-, hw⟩
    · exact absurd hu hen
    · have hz : Ended a.core t := by simpa [Suits, Resumable, hpc] using hw
      exact AInv.leave (h.good.collect hz.2)
  | resumeWait hpc => exact AInv.leave h.good
  | resumeTake hpc ht => exact AInv.leave (h.good.setTaken _ _)
  | resumeRewait hpc ht hn => exact (h.stopPush (q := .mutex _) (.inr rfl)).next hn
  | resumeLocked hpc => exact AInv.leave h.good

end Seminars.Green
