import Seminars.Green.Run

/-!
# Seminars.Green.Lock — who holds a mutex

`Book` records a mutex from outside the library: its holders, the threads `green_mutex_unlock` has passed it to,
the calls of `green_mutex_lock` and their returns, each in order.  `record` keeps the book along a run.

* `owes`: the threads that will return with the mutex once they run.  `Tokens`: holders and such threads together
  are one if the mutex is taken, none if it is free.
* `tokens_step` is the step lemma, for all operations of the library; `tokens_run` the run lemma.
-/

namespace Seminars.Green

open Seminars.Lib

/-- What can be seen of a mutex from outside. -/
structure Book where
  /-- from the return of `green_mutex_lock` or `green_cond_wait` to the next call of `green_mutex_unlock` or
  `green_cond_wait` -/
  holds : List Tid
  /-- moved to the ready queue by `green_mutex_unlock`, and not returned yet -/
  owed : List Tid
  /-- the callers of `green_mutex_lock`, in the order of the calls -/
  asked : List Tid
  /-- the callers of `green_mutex_lock`, in the order of the returns -/
  got : List Tid
  deriving DecidableEq, Repr

namespace Book

def empty : Book := ⟨[], [], [], []⟩

def ask (b : Book) (t : Tid) : Book := { b with asked := b.asked ++ [t] }

/-- A call of `t` returns with the mutex. -/
def take (b : Book) (t : Tid) : Book := { b with holds := t :: b.holds, owed := b.owed.erase t }

def get (b : Book) (t : Tid) : Book := { b.take t with got := b.got ++ [t] }

def release (b : Book) (t : Tid) : Book := { b with holds := b.holds.erase t }

def pass (b : Book) (t : Tid) (first : Option Tid) : Book := { b.release t with owed := b.owed ++ first.toList }

/-- The entry for a step of `t`, which stood at `pc`.  `back`: the call of `t` has returned; `first` is the first
thread on `mutex->susp`. -/
def note (b : Book) (m : ℕ) (t : Tid) (pc : Pc) (back : Bool) (first : Option Tid) : Act → Book
  | .lock x => if x = m then (if back then (b.ask t).get t else b.ask t) else b
  | .unlock x => if x = m then b.pass t first else b
  | .condWait _ x => if x = some m then b.release t else b
  | .resume =>
    match pc with
    | .lock x => if x = m ∧ back then b.get t else b
    | .rewait x => if x = m ∧ back then b.take t else b
    | .wait _ x => if x = some m ∧ back then b.take t else b
    | _ => b
  | _ => b

end Book

/-- The book of mutex `m` along a run. -/
def record (m : ℕ) (s : Sched) (act : Act) (s' : Sched) (b : Book) : Book :=
  match s.running with
  | some t => b.note m t s.cpu.pc (decide (s'.cpu.pc = .user)) (s.head (.mutex m)) act
  | none => b

/-- What callers promise: only a holder gives the mutex up, and it is not initialised again. -/
def Contract (m : ℕ) (t : Option Tid) (b : Book) : Act → Prop
  | .unlock x => x = m → ∃ u ∈ b.holds, t = some u
  | .condWait _ x => x = some m → ∃ u ∈ b.holds, t = some u
  | .mutexInit x => x ≠ m
  | _ => True

instance (m : ℕ) (t : Option Tid) (b : Book) : DecidablePred (Contract m t b)
  | .unlock x => inferInstanceAs (Decidable (x = m → ∃ u ∈ b.holds, t = some u))
  | .condWait _ x => inferInstanceAs (Decidable (x = some m → ∃ u ∈ b.holds, t = some u))
  | .mutexInit x => inferInstanceAs (Decidable (x ≠ m))
  | .create _ _ _ | .yield | .join _ _ | .condInit _ | .condSignal _ | .lock _ | .ret _ | .timer | .resume =>
    inferInstanceAs (Decidable True)

/-- When a thread waits for a condition with the mutex `m`, no other thread waits for `m`. -/
def Quiet (m : ℕ) (first : Option Tid) : Act → Prop
  | .condWait _ x => x = some m → first = none
  | _ => True

instance (m : ℕ) (first : Option Tid) : DecidablePred (Quiet m first)
  | .condWait _ x => inferInstanceAs (Decidable (x = some m → first = none))
  | .create _ _ _ | .yield | .join _ _ | .condInit _ | .condSignal _ | .mutexInit _ | .lock _ | .unlock _ | .ret _
  | .timer | .resume => inferInstanceAs (Decidable True)

/-- The operations of a program that uses one mutex and conditions. -/
def Monitor (m : ℕ) : Act → Prop
  | .create _ _ _ | .yield | .timer | .resume | .condSignal _ => True
  | .lock x | .unlock x => x = m
  | .condWait _ x => x = some m
  | .join _ _ | .condInit _ | .mutexInit _ | .ret _ => False

instance (m : ℕ) : DecidablePred (Monitor m)
  | .create _ _ _ | .yield | .timer | .resume | .condSignal _ => inferInstanceAs (Decidable True)
  | .lock x | .unlock x => inferInstanceAs (Decidable (x = m))
  | .condWait _ x => inferInstanceAs (Decidable (x = some m))
  | .join _ _ | .condInit _ | .mutexInit _ | .ret _ => inferInstanceAs (Decidable False)

/-! ### Tokens -/

/-- The code stands behind a suspension for the mutex `m`. -/
def stands (m : ℕ) : Pc → Bool
  | .lock x => x = m
  | .rewait x => x = m
  | _ => false

/-- The threads of `l` that return with the mutex when they run. -/
def standing (m : ℕ) (ctx : Tid → Ctx) (l : List Tid) : List Tid := l.filter fun t => stands m (ctx t).pc

/-- The threads that return with the mutex once they run. -/
def owes (m : ℕ) (a : Abs) : List Tid := standing m a.ctx (a.run :: a.queue .ready)

/-- **Holders and threads that will be, counted together, are one if the mutex is taken and none if not.** -/
structure Tokens (m : ℕ) (a : Abs) (b : Book) : Prop where
  count : b.holds.length + (owes m a).length = (a.core.taken m).toNat
  owed : b.owed = owes m a

section Standing

variable {m : ℕ} {a b a' : Abs} {ctx : Tid → Ctx} {l : List Tid} {t n : Tid} {c : Ctx}

theorem standing_update (ht : t ∉ l) : standing m (Function.update ctx t c) l = standing m ctx l := by
  unfold standing
  refine List.filter_congr fun u hu => ?_
  rw [Function.update_of_ne]
  rintro rfl
  exact ht hu

theorem standing_append (l l' : List Tid) : standing m ctx (l ++ l') = standing m ctx l ++ standing m ctx l' :=
  List.filter_append ..

theorem standing_single (t : Tid) : standing m ctx [t] = if stands m (ctx t).pc then [t] else [] := by
  unfold standing
  by_cases h : stands m (ctx t).pc <;> simp [h]

/-- A running thread that does not return with the mutex. -/
theorem owes_of (h : stands m (a.ctx a.run).pc = false) : owes m a = standing m a.ctx (a.queue .ready) := by
  simp [owes, standing, h]

theorem owes_next (hn : Next b a') : owes m a' = standing m b.ctx (b.queue .ready) := by
  obtain ⟨n, l, hq, rfl⟩ := hn
  simp [owes, Abs.go, Abs.pop, hq]

theorem Good.next_pc (hg : Good b []) (hn : Next b a') : (a'.ctx a'.run).pc ≠ .user := by
  obtain ⟨n, l, hq, rfl⟩ := hn
  obtain ⟨-, hs⟩ := hg.waits n (.queue .ready) (by simp [Placed, hq])
  intro hu
  have hpc : (b.ctx n).pc = .user := hu
  simp [Suits, Resumable, hpc] at hs

end Standing

section Step

variable {m : ℕ} {a a' c : Abs} {b : Book} {act : Act} {pc : Pc} {t : Tid}

theorem Tokens.same (ht : Tokens m a b) (ho : owes m a' = owes m a) (hk : a'.core.taken m = a.core.taken m) :
    Tokens m a' b :=
  ⟨by rw [ho, hk]; exact ht.count, by rw [ho]; exact ht.owed⟩

/-- The context of the running thread does not matter for the others. -/
theorem standing_stop (h : AInv a) (f : Ctx → Ctx) :
    standing m (a.onCtx f).ctx (a.queue .ready) = standing m a.ctx (a.queue .ready) :=
  standing_update (h.not_queued .ready)

theorem owes_onCtx (h : AInv a) {f : Ctx → Ctx} (hf : (f (a.ctx a.run)).pc = .user) :
    owes m (a.onCtx f) = standing m a.ctx (a.queue .ready) := by
  rw [owes_of (a := a.onCtx f) (by simp [Abs.onCtx, hf, stands])]
  exact standing_stop h f

theorem owes_user (hpc : (a.ctx a.run).pc = .user) : owes m a = standing m a.ctx (a.queue .ready) :=
  owes_of (by rw [hpc]; rfl)

/-- The running thread leaves the processor for another place than the ready queue. -/
theorem owes_stop_next (h : AInv a) (pc : Pc) (hpc : stands m (a.ctx a.run).pc = false) (hn : Next c a')
    (hctx : c.ctx = (a.stop pc).ctx) (hq : c.queue .ready = a.queue .ready) : owes m a' = owes m a := by
  rw [owes_next hn, hctx, hq, owes_of hpc]
  exact standing_stop h _

/-- A thread that does not return with the mutex is put in the ready queue. -/
theorem owes_push {l : List Tid} (hl : standing m a.ctx l = standing m c.ctx (c.queue .ready))
    (ht : stands m (a.ctx t).pc = false) : standing m a.ctx (l ++ [t]) = standing m c.ctx (c.queue .ready) := by
  rw [standing_append, hl, standing_single, if_neg (by simp [ht]), List.append_nil]

/-- The thread at the head of a queue is put in the ready queue, if it does not return with the mutex. -/
theorem owes_wake {q : QRef} (hq : ∀ t l, a.queue q = t :: l → stands m (a.ctx t).pc = false) (hr : q ≠ .ready) :
    standing m (a.wake q).ctx ((a.wake q).queue .ready) = standing m a.ctx (a.queue .ready) := by
  rw [Abs.wake_ctx]
  unfold Abs.wake
  cases h : a.queue q with
  | nil => rfl
  | cons t l =>
    have hqr : (a.pop q).queue .ready = a.queue .ready := Function.update_of_ne hr.symm _ _
    simp only [Abs.push, Function.update_self, hqr]
    exact owes_push rfl (hq t l h)

/-- The entry for a step of the abstract scheduler. -/
def Abs.note (m : ℕ) (a : Abs) (act : Act) (a' : Abs) (b : Book) : Book :=
  b.note m a.run (a.ctx a.run).pc (decide ((a'.ctx a'.run).pc = .user)) (a.queue (.mutex m)).head? act

theorem Tokens.take (ht : Tokens m a b) {f : Ctx → Ctx} (h : AInv a) (hpc : stands m (a.ctx a.run).pc = true)
    (hf : (f (a.ctx a.run)).pc = .user) : Tokens m (a.onCtx f) (b.take a.run) := by
  have ho : owes m a = a.run :: standing m a.ctx (a.queue .ready) := by simp [owes, standing, hpc]
  have hcount := ht.count
  have howed := ht.owed
  rw [ho] at hcount howed
  refine ⟨?_, ?_⟩
  · rw [owes_onCtx h hf]
    simp only [Book.take, List.length_cons] at hcount ⊢
    show b.holds.length + 1 + _ = (a.core.taken m).toNat
    omega
  · rw [owes_onCtx h hf]
    simp [Book.take, howed]

/-- The running thread suspends itself with its call of `green_yield`. -/
theorem owes_yield (h : AInv a) (hpc : (a.ctx a.run).pc = .user)
    (hn : Next ((a.stop (.yield none)).push .ready a.run) a') : owes m a' = owes m a := by
  rw [owes_next hn, owes_user hpc]
  show standing m (a.stop (.yield none)).ctx (Function.update a.queue .ready (a.queue .ready ++ [a.run]) .ready) = _
  rw [Function.update_self]
  refine owes_push (standing_stop h _) ?_
  simp [Abs.stop, Abs.onCtx, stands]

theorem owes_finish (h : AInv a) (hpc : (a.ctx a.run).pc = .user) {v : ℕ} (hn : Next (a.finish v) a') :
    owes m a' = owes m a := by
  rw [owes_next hn, owes_user hpc]
  unfold Abs.finish
  cases hj : a.core.join a.run with
  | none => rfl
  | some j =>
    obtain ⟨-, res, hjpc⟩ := h.good.waits j (.join a.run) ⟨h.live, hj⟩
    show standing m a.ctx (Function.update a.queue .ready (a.queue .ready ++ [j]) .ready) = _
    rw [Function.update_self]
    exact owes_push rfl (by rw [hjpc]; rfl)

theorem owes_create (h : AInv a) (hpc : (a.ctx a.run).pc = .user) {new : Tid} {fn arg : ℕ}
    (hnew : new ∉ a.core.created) : owes m (((a.spawn new fn arg).push .ready new).mask false) = owes m a := by
  have hrun : a.run ≠ new := fun e => hnew (e ▸ h.live.1)
  have hready : new ∉ a.queue .ready := fun hm => hnew (h.good.placed new (.queue .ready) hm).1
  have hctx : (((a.spawn new fn arg).push .ready new).mask false).ctx =
      Function.update (Function.update a.ctx new ⟨new, none, .start, true⟩) a.run
        { a.ctx a.run with blocked := false } := by
    simp [Abs.mask, Abs.onCtx, Abs.push, Abs.spawn, hrun]
  have hq : (((a.spawn new fn arg).push .ready new).mask false).queue .ready = a.queue .ready ++ [new] := by
    simp [Abs.mask, Abs.onCtx, Abs.push, Abs.spawn]
  have hr : (((a.spawn new fn arg).push .ready new).mask false).run = a.run := rfl
  rw [owes_user (by rw [hctx, hr]; simpa using hpc), hctx, hq, standing_update (by simp [h.not_queued .ready, hrun]),
    owes_user hpc, standing_append, standing_update hready, standing_single]
  simp [stands]

theorem owes_mask (h : AInv a) (hpc : (a.ctx a.run).pc = .user) (v : Bool) : owes m (a.mask v) = owes m a := by
  rw [owes_user hpc]
  exact owes_onCtx h hpc

theorem owes_leave (h : AInv a) (hpc : stands m (a.ctx a.run).pc = false) : owes m a.leave = owes m a := by
  rw [owes_of hpc]
  exact owes_onCtx h rfl

/-- A thread that waits for another mutex does not return with this one. -/
theorem stands_of_waits {k : Core} {x : ℕ} {ctx : Ctx} (hw : Waits k ctx (.queue (.mutex x))) :
    stands m ctx.pc = decide (x = m) := by
  rcases hw.2 with hpc | hpc <;> simp [stands, hpc, eq_comm]

/-- `green_cond_wait` does not change who returns with the mutex, if nobody waits for it. -/
theorem owes_condWait (h : AInv a) (hpc : (a.ctx a.run).pc = .user) {c : ℕ} {x : Option ℕ}
    (hx : x = some m → a.queue (.mutex m) = [])
    (hn : Next (((a.stop (.wait c x)).push (.cond c) a.run).release x) a') : owes m a' = owes m a := by
  have hg : Good ((a.stop (.wait c x)).push (.cond c) a.run) [] := h.stopPush ⟨x, rfl⟩
  have hq : ((a.stop (.wait c x)).push (.cond c) a.run).queue .ready = a.queue .ready := by
    simp [Abs.push, Abs.stop, Abs.onCtx]
  have hstop : standing m (a.stop (.wait c x)).ctx (a.queue .ready) = standing m a.ctx (a.queue .ready) :=
    standing_stop h _
  rw [owes_next hn, Abs.release_ctx, owes_user hpc, ← hstop, ← hq]
  cases x with
  | none => rfl
  | some x =>
    have hw := owes_wake (m := m) (a := ((a.stop (.wait c (some x))).push (.cond c) a.run).setTaken x false)
      (q := .mutex x) ?_ (by simp)
    · rw [Abs.wake_ctx] at hw
      have hready : ∀ b : Abs, (b.drop (.mutex x)).queue .ready = b.queue .ready := fun b => by simp [Abs.drop]
      rw [Abs.release, hready]
      exact hw
    · intro t l hl
      have hl : a.queue (.mutex x) = t :: l := hl
      have hne : x ≠ m := by
        rintro rfl
        rw [hx rfl] at hl
        exact absurd hl (by simp)
      have hw := hg.waits t (.queue (.mutex x)) (by
        show t ∈ a.queue (.mutex x)
        simp [hl])
      exact (stands_of_waits hw).trans (by simp [hne])

theorem owes_maskWake (h : AInv a) (hpc : (a.ctx a.run).pc = .user) {q : QRef} (v : Bool) :
    owes m ((a.wake q).mask v) = standing m (a.wake q).ctx ((a.wake q).queue .ready) := by
  have hinv : AInv ((a.wake q).mask v) := h.maskWake hpc
  have hrun : (a.wake q).run ∉ (a.wake q).queue .ready := hinv.not_queued .ready
  rw [owes_user]
  · exact standing_update hrun
  · simp [Abs.mask, Abs.onCtx, Abs.wake_run, Abs.wake_ctx, hpc]

theorem Tokens.holder (ht : Tokens m a b) (hb : ∃ u ∈ b.holds, some a.run = some u) :
    b.holds = [a.run] ∧ owes m a = [] := by
  obtain ⟨u, hu, hr⟩ := hb
  obtain rfl := Option.some.inj hr
  have hcount := ht.count
  have hpos := List.length_pos_of_mem hu
  have hle := Bool.toNat_le (a.core.taken m)
  obtain ⟨x, hx⟩ := List.length_eq_one_iff.mp (show b.holds.length = 1 by omega)
  rw [hx, List.mem_singleton] at hu
  exact ⟨by rw [hx, hu], List.eq_nil_of_length_eq_zero (by omega)⟩

theorem Tokens.free (ht : Tokens m a b) (hk : a.core.taken m = false) : b.holds = [] ∧ owes m a = [] := by
  have hcount := ht.count
  rw [hk, Bool.toNat_false] at hcount
  exact ⟨List.eq_nil_of_length_eq_zero (by omega), List.eq_nil_of_length_eq_zero (by omega)⟩

/-! Each operation that is about mutexes. -/

theorem Tokens.condWait (ht : Tokens m a b) (h : AInv a) (hpc : (a.ctx a.run).pc = .user) {c : ℕ} {x : Option ℕ}
    (hc : Contract m (some a.run) b (.condWait c x)) (hq : Quiet m (a.queue (.mutex m)).head? (.condWait c x))
    (hn : Next (((a.stop (.wait c x)).push (.cond c) a.run).release x) a') :
    Tokens m a' (a.note m (.condWait c x) a' b) := by
  by_cases hx : x = some m
  · subst hx
    obtain ⟨hb, ho⟩ := ht.holder (hc rfl)
    have hnil : a.queue (.mutex m) = [] := List.head?_eq_none_iff.mp (hq rfl)
    have ho' : owes m a' = [] := (owes_condWait h hpc (fun _ => hnil) hn).trans ho
    have hb' : a.note m (.condWait c (some m)) a' b = b.release a.run := by simp [Abs.note, Book.note]
    rw [hb']
    refine ⟨?_, by rw [ho', ← ho]; exact ht.owed⟩
    rw [ho', hn.core, Abs.release_core]
    simp [Book.release, hb, Core.setTaken]
  · have hb' : a.note m (.condWait c x) a' b = b := by simp [Abs.note, Book.note, hx]
    rw [hb']
    refine ht.same (owes_condWait h hpc (fun e => absurd e hx) hn) ?_
    rw [hn.core, Abs.release_core]
    cases x with
    | none => rfl
    | some x => exact Function.update_of_ne (fun e => hx (by rw [e])) _ _

theorem Tokens.lockFree (ht : Tokens m a b) (h : AInv a) (hpc : (a.ctx a.run).pc = .user) {x : ℕ}
    (htk : a.core.taken x = false) :
    Tokens m ((a.setTaken x true).mask false) (a.note m (.lock x) ((a.setTaken x true).mask false) b) := by
  have ho : owes m ((a.setTaken x true).mask false) = owes m a := owes_mask h hpc _
  by_cases hx : x = m
  · subst hx
    obtain ⟨hb, ho'⟩ := ht.free htk
    have hb' : a.note x (.lock x) ((a.setTaken x true).mask false) b = (b.ask a.run).get a.run := by
      simp [Abs.note, Book.note, Abs.mask, Abs.onCtx, Abs.setTaken, hpc]
    rw [hb']
    refine ⟨?_, ?_⟩
    · rw [ho, ho']
      simp [Book.get, Book.take, Book.ask, hb, Abs.mask, Abs.onCtx, Abs.setTaken, Core.setTaken]
    · rw [ho, ho']
      simp [Book.get, Book.take, Book.ask, ht.owed, ho']
  · have hb' : a.note m (.lock x) ((a.setTaken x true).mask false) b = b := by simp [Abs.note, Book.note, hx]
    rw [hb']
    exact ht.same ho (Function.update_of_ne (Ne.symm hx) _ _)

theorem Tokens.lockWait (ht : Tokens m a b) (h : AInv a) (hpc : (a.ctx a.run).pc = .user) {x : ℕ}
    (hn : Next ((a.stop (.lock x)).push (.mutex x) a.run) a') : Tokens m a' (a.note m (.lock x) a' b) := by
  have hpc' := (h.stopPush (q := .mutex x) (.inl rfl)).next_pc hn
  have howes := owes_stop_next (m := m) h _ (by rw [hpc]; rfl) hn rfl (by simp [Abs.push, Abs.stop, Abs.onCtx])
  have hkeep : Tokens m a' b := ht.same howes (by rw [hn.core]; rfl)
  by_cases hx : x = m
  · have hb' : a.note m (.lock x) a' b = b.ask a.run := by simp [Abs.note, Book.note, hx, hpc']
    rw [hb']
    exact ⟨hkeep.count, hkeep.owed⟩
  · have hb' : a.note m (.lock x) a' b = b := by simp [Abs.note, Book.note, hx]
    rw [hb']
    exact hkeep

theorem Tokens.unlockFree (ht : Tokens m a b) (h : AInv a) (hpc : (a.ctx a.run).pc = .user) {x : ℕ}
    (hc : Contract m (some a.run) b (.unlock x)) (hnil : a.queue (.mutex x) = []) :
    Tokens m ((a.setTaken x false).mask false) (a.note m (.unlock x) ((a.setTaken x false).mask false) b) := by
  have ho : owes m ((a.setTaken x false).mask false) = owes m a := owes_mask h hpc _
  by_cases hx : x = m
  · subst hx
    obtain ⟨hb, ho'⟩ := ht.holder (hc rfl)
    have hb' : a.note x (.unlock x) ((a.setTaken x false).mask false) b = b.release a.run := by
      simp [Abs.note, Book.note, Book.pass, Book.release, hnil]
    rw [hb']
    refine ⟨?_, by rw [ho]; exact ht.owed⟩
    rw [ho, ho']
    simp [Book.release, hb, Abs.mask, Abs.onCtx, Abs.setTaken, Core.setTaken]
  · have hb' : a.note m (.unlock x) ((a.setTaken x false).mask false) b = b := by simp [Abs.note, Book.note, hx]
    rw [hb']
    exact ht.same ho (Function.update_of_ne (Ne.symm hx) _ _)

/-- The mutex is handed over to the first thread that waits for it. -/
theorem Tokens.unlockPass (ht : Tokens m a b) (h : AInv a) (hpc : (a.ctx a.run).pc = .user) {x : ℕ}
    (hc : Contract m (some a.run) b (.unlock x)) (hne : a.queue (.mutex x) ≠ []) :
    Tokens m ((a.wake (.mutex x)).mask false) (a.note m (.unlock x) ((a.wake (.mutex x)).mask false) b) := by
  have hcore : ((a.wake (.mutex x)).mask false).core = a.core := Abs.wake_core _ _
  by_cases hx : x = m
  · subst hx
    obtain ⟨hb, ho'⟩ := ht.holder (hc rfl)
    obtain ⟨w, l, hl⟩ := List.exists_cons_of_ne_nil hne
    have hw := h.good.waits w (.queue (.mutex x)) (by simp [Placed, hl])
    have ho : owes x ((a.wake (.mutex x)).mask false) = owes x a ++ [w] := by
      rw [owes_maskWake h hpc, owes_user hpc, Abs.wake_ctx]
      simp [Abs.wake, hl, Abs.push, Abs.pop, standing_append, standing_single, stands_of_waits hw]
    have hb' : a.note x (.unlock x) ((a.wake (.mutex x)).mask false) b = b.pass a.run (some w) := by
      simp [Abs.note, Book.note, hl]
    rw [hb']
    have htk : a.core.taken x = true := by
      have hcount := ht.count
      cases hk : a.core.taken x with
      | true => rfl
      | false =>
        rw [hk, hb] at hcount
        simp at hcount
    refine ⟨?_, ?_⟩
    · rw [ho, ho', hcore, htk]
      simp [Book.pass, Book.release, hb]
    · rw [ho]
      simp [Book.pass, ht.owed]
  · have hb' : a.note m (.unlock x) ((a.wake (.mutex x)).mask false) b = b := by simp [Abs.note, Book.note, hx]
    rw [hb']
    refine ht.same ?_ (by rw [hcore])
    rw [owes_maskWake h hpc, owes_user hpc]
    refine owes_wake (fun t l hl => ?_) (by simp)
    have hw := h.good.waits t (.queue (.mutex x)) (by simp [Placed, hl])
    exact (stands_of_waits hw).trans (by simp [hx])

theorem Tokens.resumeTake (ht : Tokens m a b) (h : AInv a) {c x : ℕ} (hpc : (a.ctx a.run).pc = .wait c (some x))
    (htk : a.core.taken x = false) :
    Tokens m (a.setTaken x true).leave (a.note m .resume (a.setTaken x true).leave b) := by
  have ho : owes m a.leave = owes m a := owes_leave h (by rw [hpc]; rfl)
  have ho : owes m (a.setTaken x true).leave = owes m a := ho
  by_cases hx : x = m
  · subst hx
    obtain ⟨hb, ho'⟩ := ht.free htk
    have hb' : a.note x .resume (a.setTaken x true).leave b = b.take a.run := by
      simp [Abs.note, Book.note, hpc, Abs.leave, Abs.onCtx]
    rw [hb']
    refine ⟨?_, ?_⟩
    · rw [ho, ho']
      simp [Book.take, hb, Abs.leave, Abs.onCtx, Abs.setTaken, Core.setTaken]
    · rw [ho, ho']
      simp [Book.take, ht.owed, ho']
  · have hb' : a.note m .resume (a.setTaken x true).leave b = b := by simp [Abs.note, Book.note, hpc, hx]
    rw [hb']
    exact ht.same ho (Function.update_of_ne (Ne.symm hx) _ _)

theorem Tokens.resumeLocked (ht : Tokens m a b) (h : AInv a) {x : ℕ}
    (hpc : (a.ctx a.run).pc = .rewait x ∨ (a.ctx a.run).pc = .lock x) :
    Tokens m a.leave (a.note m .resume a.leave b) := by
  have hstand : stands m (a.ctx a.run).pc = decide (x = m) := by
    rcases hpc with hpc | hpc <;> simp [stands, hpc, eq_comm]
  have hback : (a.leave.ctx a.leave.run).pc = .user := by simp [Abs.leave, Abs.onCtx]
  by_cases hx : x = m
  · have htake := ht.take (f := fun c => { c with pc := .user, blocked := false }) h (by simp [hstand, hx]) rfl
    rcases hpc with hpc | hpc
    · have hb' : a.note m .resume a.leave b = b.take a.run := by simp [Abs.note, Book.note, hpc, hx, hback]
      rw [hb']
      exact htake
    · have hb' : a.note m .resume a.leave b = b.get a.run := by simp [Abs.note, Book.note, hpc, hx, hback]
      rw [hb']
      exact ⟨htake.count, htake.owed⟩
  · have hb' : a.note m .resume a.leave b = b := by
      rcases hpc with hpc | hpc <;> simp [Abs.note, Book.note, hpc, hx]
    rw [hb']
    exact ht.same (owes_leave h (by simp [hstand, hx])) rfl

/-- **The step lemma**: every operation keeps the count. -/
theorem tokens_step (h : AInv a) (hen : enabled (a.ctx a.run) act) (hpr : proper a.core act) (hst : AStep a act a')
    (hc : Contract m (some a.run) b act) (hq : Quiet m (a.queue (.mutex m)).head? act) (ht : Tokens m a b) :
    Tokens m a' (a.note m act a' b) := by
  have hstands : (a.ctx a.run).pc = .user → stands m (a.ctx a.run).pc = false := fun hpc => by rw [hpc]; rfl
  cases hst with
  | create => exact ht.same (owes_create h hen hpr) rfl
  | yield hn => exact ht.same (owes_yield h hen hn) (by rw [hn.core]; rfl)
  | timer hn => exact ht.same (owes_yield h hen.1 hn) (by rw [hn.core]; rfl)
  | @joinWait t res _ _ hn =>
    exact ht.same (owes_stop_next h _ (hstands hen) hn rfl rfl) (by rw [hn.core]; rfl)
  | @joinNow t res hz hcol =>
    have ho : owes m a.leave = owes m a := owes_leave h (hstands hen)
    exact ht.same ho (congrFun (a.collect_taken t res) m)
  | condInit => exact ht.same (owes_mask h hen _) rfl
  | condWait hn => exact ht.condWait h hen hc hq hn
  | signalNone => exact ht.same (owes_mask h hen _) rfl
  | @signal c hq' =>
    -- who waits for a condition does not return with the mutex
    refine ht.same ?_ (by rw [show ((a.wake (.cond c)).mask false).core = a.core from Abs.wake_core _ _])
    rw [owes_maskWake h hen, owes_user hen]
    refine owes_wake (fun t l hl => ?_) (by simp)
    obtain ⟨-, x, hpc⟩ := h.good.waits t (.queue (.cond c)) (by simp [Placed, hl])
    rw [hpc]
    rfl
  | @mutexInit x =>
    -- another mutex is initialised
    refine ht.same (owes_mask h hen _) ?_
    exact Function.update_of_ne (Ne.symm hc) _ _
  | lockFree htk => exact ht.lockFree h hen htk
  | lockWait _ hn => exact ht.lockWait h hen hn
  | unlockFree hnil => exact ht.unlockFree h hen hc hnil
  | unlockPass hne => exact ht.unlockPass h hen hc hne
  | ret hn => exact ht.same (owes_finish h hen.1 hn) (by rw [hn.core, Abs.finish_core]; rfl)
  | resumeStart hpc hf =>
    have hb' : ∀ a', a.note m .resume a' b = b := fun a' => by simp [Abs.note, Book.note, hpc]
    rw [hb']
    refine ht.same ?_ rfl
    rw [owes_onCtx h rfl, owes_of (by rw [hpc]; rfl)]
  | resumeYield hpc | resumeWait hpc =>
    have hb : a.note m .resume a.leave b = b := by simp [Abs.note, Book.note, hpc]
    rw [hb]
    exact ht.same (owes_leave h (by rw [hpc]; rfl)) rfl
  | @resumeJoin t res hpc hcol =>
    have hb' : ∀ a', a.note m .resume a' b = b := fun a' => by simp [Abs.note, Book.note, hpc]
    have ho : owes m a.leave = owes m a := owes_leave h (by rw [hpc]; rfl)
    rw [hb']
    exact ht.same ho (congrFun (a.collect_taken t res) m)
  | resumeTake hpc htk => exact ht.resumeTake h hpc htk
  | @resumeRewait c x _ hpc htk hn =>
    -- the thread waits for the mutex once more
    have hpc' := (h.stopPush (q := .mutex x) (.inr rfl)).next_pc hn
    have hb' : a.note m .resume a' b = b := by simp [Abs.note, Book.note, hpc, hpc']
    rw [hb']
    have howes := owes_stop_next (m := m) h _ (by rw [hpc]; rfl) hn rfl (by simp [Abs.push, Abs.stop, Abs.onCtx])
    exact ht.same howes (by rw [hn.core]; rfl)
  | resumeLocked hpc => exact ht.resumeLocked h hpc

end Step

/-! ### Runs -/

section Runs

variable {m : ℕ} {s₀ s s' : Sched} {a a' : Abs} {b : Book} {act : Act} {tr : List ((Sched × Book) × Act)}

/-- The book of the code is that of the abstract scheduler. -/
theorem record_eq (h : Refines s a) (h' : Refines s' a') : record m s act s' b = a.note m act a' b := by
  unfold record Abs.note
  rw [h.loaded.1.running, h.loaded.2, h'.loaded.2, h.loaded.1.threads.queues.head_eq]

/-- **The run lemma**, for properties of the scheduler and the book. -/
theorem record_run {P : Abs → Book → Prop} (h0 : s₀.Initial) (hP0 : P s₀.abs .empty)
    (hp : Path (withHistory Step (record m)) (s₀, .empty) tr (s, b))
    (hP : ∀ y act, (y, act) ∈ tr → ∀ a a', Refines y.1 a → enabled (a.ctx a.run) act → proper a.core act →
      AStep a act a' → P a y.2 → P a' (a.note m act a' y.2)) : ∃ a, Refines s a ∧ P a b := by
  refine hp.invariant (I := fun y => ∃ a, Refines y.1 a ∧ P a y.2) ⟨_, initial_refines h0, hP0⟩ ?_
  rintro y act y' hm ⟨a, ha, hPa⟩ ⟨hst, hy'⟩
  obtain ⟨a', hst', ha'⟩ := step_refines ha hst
  refine ⟨a', ha', ?_⟩
  rw [hy', record_eq ha ha']
  exact hP y act hm a a' ha (ha.loaded.2 ▸ hst.1) (ha.loaded.1.core ▸ hst.2.1) hst' hPa

theorem tokens_initial (h0 : s₀.Initial) : Tokens m s₀.abs .empty := by
  have ho : owes m s₀.abs = [] := by simp [owes, standing, Sched.abs, h0.cpu, stands]
  refine ⟨?_, by rw [ho]; rfl⟩
  rw [ho]
  simp [Book.empty, Sched.abs, h0.taken]

/-- The contract and the condition on `green_cond_wait`, along a run. -/
theorem tokens_run (h0 : s₀.Initial) (hp : Path (withHistory Step (record m)) (s₀, .empty) tr (s, b))
    (hc : ∀ y act, (y, act) ∈ tr → Contract m y.1.running y.2 act)
    (hq : ∀ y act, (y, act) ∈ tr → Quiet m (y.1.head (.mutex m)) act) : ∃ a, Refines s a ∧ Tokens m a b := by
  refine record_run h0 (tokens_initial h0) hp fun y act hm a a' ha hen hpr hst ht => ?_
  have hc := hc y act hm
  have hq := hq y act hm
  rw [ha.loaded.1.running] at hc
  rw [ha.loaded.1.threads.queues.head_eq] at hq
  exact tokens_step ha.inv hen hpr hst hc hq ht

/-- **Mutual exclusion**: in a run in which no thread waits for the mutex whenever one calls `green_cond_wait` with
it, at most one thread holds the mutex, and the mutex is taken whenever one does. -/
theorem exclusion_run (h0 : s₀.Initial) (hp : Path (withHistory Step (record m)) (s₀, .empty) tr (s, b))
    (hc : ∀ y act, (y, act) ∈ tr → Contract m y.1.running y.2 act)
    (hq : ∀ y act, (y, act) ∈ tr → Quiet m (y.1.head (.mutex m)) act) :
    b.holds.length ≤ 1 ∧ (b.holds ≠ [] → s.core.taken m = true) := by
  obtain ⟨a, ha, ht⟩ := tokens_run h0 hp hc hq
  have hcount := ht.count
  have hle := Bool.toNat_le (a.core.taken m)
  refine ⟨by omega, fun hne => ?_⟩
  have hpos := List.length_pos_iff.mpr hne
  rw [ha.loaded.1.core]
  cases hk : a.core.taken m with
  | true => rfl
  | false =>
    rw [hk, Bool.toNat_false] at hcount
    omega

end Runs

/-- A thread waits for the mutex when `main` calls `green_cond_wait`: it is woken while the mutex is set free, and
goes on without looking at it.  Another thread has taken it by then. -/
theorem exclusion_broken : ¬ ∀ (m : ℕ) (s₀ s : Sched) (b : Book) (tr : List ((Sched × Book) × Act)), s₀.Initial →
    Path (withHistory Step (record m)) (s₀, .empty) tr (s, b) → (∀ y act, (y, act) ∈ tr → Monitor m act) →
    (∀ y act, (y, act) ∈ tr → Contract m y.1.running y.2 act) →
    b.holds.length ≤ 1 ∧ (b.holds ≠ [] → s.core.taken m = true) := by
  intro hall
  obtain ⟨tr, ⟨s, b⟩, hp, htest⟩ := exists_path (recorded_step next_step (record 0)) (Sched.start, Book.empty)
    [.create 1 1 0, .create 2 1 0, .lock 0, .yield, .resume, .lock 0, .resume, .yield, .resume, .condWait 0 (some 0),
      .resume, .lock 0, .yield, .resume]
    (fun x => decide ((∀ y ∈ x.1, Monitor 0 y.2 ∧ Contract 0 y.1.1.running y.1.2 y.2) ∧ x.2.2.holds = [1, 2]))
    (by decide +kernel)
  obtain ⟨htr, hb⟩ := of_decide_eq_true htest
  have h := (hall 0 _ s b tr Sched.start_initial hp (fun y act hm => (htr _ hm).1) fun y act hm => (htr _ hm).2).1
  have hb : b.holds = [1, 2] := hb
  rw [hb] at h
  exact absurd h (by decide)

/-- `main` waits for a condition while nobody waits for the mutex, is signalled and takes the mutex again. -/
theorem exclusion_run_two : ∃ tr s b, Path (withHistory Step (record 0)) (Sched.start, .empty) tr (s, b) ∧
    b.holds = [0] ∧ s.core.taken 0 = true := by
  obtain ⟨tr, ⟨s, b⟩, hp, htest⟩ := exists_path (recorded_step next_step (record 0)) (Sched.start, Book.empty)
    [.create 1 1 0, .lock 0, .condWait 0 (some 0), .resume, .lock 0, .condSignal 0, .unlock 0, .yield, .resume]
    (fun x => decide ((∀ y ∈ x.1, Contract 0 y.1.1.running y.1.2 y.2 ∧ Quiet 0 (y.1.1.head (.mutex 0)) y.2) ∧
      x.2.2.holds = [0])) (by decide +kernel)
  obtain ⟨htr, hb⟩ := of_decide_eq_true htest
  have h := exclusion_run Sched.start_initial hp (fun y act hm => (htr _ hm).1) fun y act hm => (htr _ hm).2
  have hb : b.holds = [0] := hb
  exact ⟨tr, s, b, hp, hb, h.2 (by simp [hb])⟩

end Seminars.Green
