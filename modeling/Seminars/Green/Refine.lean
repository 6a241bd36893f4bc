import Seminars.Green.Queue
import Seminars.Green.Abstract

/-!
# Seminars.Green.Refine — the library refines the abstract scheduler

`Rep s a`: the pointers of `s` hold the queues of `a`, the saved contexts are those of `a`.  `Refines s a` adds
the executing context and the invariant.

* `enqueue_rep`, `dequeue_rep`, `swapcontext_rep`: one lemma for each part the operations are put together from.
* `exec_spec`: an operation returns if and only if the abstract scheduler can make the step, and then it refines it.
-/

namespace Seminars.Green

open Seminars.Lib

/-- **The state `s` holds the scheduler `a`**, up to the executing context. -/
structure Rep (s : Sched) (a : Abs) : Prop where
  core : s.core = a.core
  running : s.running = some a.run
  saved : ∀ t, Live a.core t → t ≠ a.run → s.context t = some (a.ctx t)
  alloc : ∀ t ∈ a.core.created, s.context t = none ↔ a.freed t = true
  threads : Threaded s.core.created s.next s.head a.queue a.lost

/-! ### Queues -/

section Queues

variable {s : Sched} {a : Abs} {q : QRef} {t : Tid} {l : List Tid}

theorem enqueue_rep (h : Rep s a) (ht : Loose a.core.created a.queue a.lost t) :
    Runs (enqueue q (some t)) s (fun _ s' => Rep s' (a.push q t) ∧ s'.cpu = s.cpu) := by
  refine (enqueue_spec h.threads (h.core ▸ ht)).imp ?_
  rintro _ _ ⟨next, head, rfl, hT⟩
  exact ⟨⟨h.core, h.running, h.saved, h.alloc, hT⟩, rfl⟩

theorem dequeue_rep (h : Rep s a) (hq : a.queue q = t :: l) :
    Runs (dequeue q) s (fun r s' => r = some t ∧ Rep s' (a.pop q) ∧ s'.cpu = s.cpu) := by
  refine (dequeue_spec h.threads hq).imp ?_
  rintro _ _ ⟨rfl, next, head, rfl, hT⟩
  refine ⟨rfl, ⟨h.core, h.running, h.saved, h.alloc, ?_⟩, rfl⟩
  simpa [Abs.pop, hq] using hT

theorem setHead_rep (h : Rep s a) (q : QRef) :
    Rep { s with head := Function.update s.head q none } (a.drop q) :=
  ⟨h.core, h.running, h.saved, h.alloc, h.threads.drop q⟩

end Queues

/-! ### Contexts -/

section Contexts

variable {s : Sched} {a b : Abs} {n : Tid} {pc : Pc}

/-- The context of the running thread is where the code executes, not where it is saved. -/
theorem Rep.onCtx (h : Rep s a) (f : Ctx → Ctx) (c : Ctx) : Rep { s with cpu := c } (a.onCtx f) := by
  refine ⟨h.core, h.running, fun t ht hr => ?_, h.alloc, h.threads⟩
  have hc : (a.onCtx f).ctx t = a.ctx t := Function.update_of_ne hr _ _
  rw [hc]
  exact h.saved t ht hr

theorem Rep.setCore (h : Rep s a) (k : Core) (h1 : k.created = a.core.created)
    (h2 : ∀ t, Live k t → Live a.core t) : Rep { s with core := k } { a with core := k } := by
  refine ⟨rfl, h.running, fun t ht => h.saved t (h2 t ht), fun t ht => h.alloc t (h1 ▸ ht), ?_⟩
  have hT := h.threads
  rw [h.core, ← h1] at hT
  exact hT

theorem Rep.setTaken (h : Rep s a) (m : ℕ) (v : Bool) :
    Rep { s with core := s.core.setTaken m v } (a.setTaken m v) := by
  rw [h.core]
  exact h.setCore (a.core.setTaken m v) rfl fun t ht => ht

theorem Rep.allocated (h : Rep s a) {F : List Tid} (hg : Good a F) {t : Tid} (hl : Live a.core t) :
    s.context t ≠ none := by
  intro hc
  have hz := hg.freed t hl.1 ((h.alloc t hl.1).mp hc)
  rw [hl.2] at hz
  cases hz

/-- **`swapcontext`** saves the executing context and enters that of the next thread. -/
theorem swapcontext_rep (h : Rep s b) (hr : s.context b.run ≠ none)
    (hcpu : { s.cpu with pc := pc } = b.ctx b.run) (hn : Live b.core n) :
    Runs (do setRunning (some n); swapcontext (some b.run) (some n) pc) s
      (fun _ s' => Rep s' (b.go n) ∧ s'.cpu = b.ctx n) := by
  have hsome : Function.update s.context b.run (some (b.ctx b.run)) n = some (b.ctx n) := by
    by_cases hnr : n = b.run
    · simp [hnr]
    · rw [Function.update_of_ne hnr]
      exact h.saved n hn hnr
  refine ⟨(), { s with
      running := some n, cpu := b.ctx n, context := Function.update s.context b.run (some (b.ctx b.run)) },
    ?_, ?_, rfl⟩
  · rw [run_bind_ok rfl]
    unfold swapcontext
    rw [run_bind_ok rfl, run_bind_ok rfl, run_bind_ok rfl, if_neg hr, run_bind_ok rfl, run_bind_ok rfl]
    rw [hcpu]
    exact setcontext_some hsome
  · refine ⟨h.core, rfl, fun t ht htn => ?_, fun t ht => ?_, h.threads⟩
    · show Function.update s.context b.run (some (b.ctx b.run)) t = some (b.ctx t)
      by_cases htr : t = b.run
      · simp [htr]
      · rw [Function.update_of_ne htr]
        exact h.saved t ht htr
    · show Function.update s.context b.run (some (b.ctx b.run)) t = none ↔ b.freed t = true
      by_cases htr : t = b.run
      · subst htr
        have hf : b.freed b.run ≠ true := fun hf => hr ((h.alloc _ ht).mpr hf)
        simp [hf]
      · rw [Function.update_of_ne htr]
        exact h.alloc t ht

/-- `s` holds `a` and executes the context of its running thread. -/
def Loaded (s : Sched) (a : Abs) : Prop := Rep s a ∧ s.cpu = a.ctx a.run

theorem Good.head_live (hg : Good b []) {l : List Tid} (hq : b.queue .ready = n :: l) : Live b.core n :=
  hg.placed n (.queue .ready) (by simp [Placed, hq])

/-- `setcontext` enters the next thread when the running one has ended. -/
theorem setcontext_rep (h : Rep s b) (hr : ¬ Live b.core b.run) (hn : Live b.core n) :
    Runs (do setRunning (some n); setcontext (some n)) s (fun _ s' => Rep s' (b.go n) ∧ s'.cpu = b.ctx n) := by
  have hsaved : ∀ t, Live b.core t → s.context t = some (b.ctx t) :=
    fun t ht => h.saved t ht fun e => hr (e ▸ ht)
  refine ⟨(), { s with running := some n, cpu := b.ctx n }, ?_, ?_, rfl⟩
  · rw [run_bind_ok rfl]
    exact setcontext_some (hsaved n hn)
  · exact ⟨h.core, rfl, fun t ht _ => hsaved t ht, h.alloc, h.threads⟩

/-- The next thread is taken from the ready queue and entered; without one the code stops. -/
theorem dispatch {k : Option Tid → M Unit} (h : Rep s b) (hg : Good b [])
    (hnone : ∀ s, ∃ e, (k none).run s = .error e)
    (hsome : ∀ n s', Live b.core n → Rep s' (b.pop .ready) → Good (b.pop .ready) [n] → s'.cpu = s.cpu →
      Runs (k (some n)) s' (fun _ s'' => Rep s'' ((b.pop .ready).go n) ∧ s''.cpu = b.ctx n)) :
    Ends (dequeue .ready >>= k) s (fun _ s' => ∃ a', Next b a' ∧ Loaded s' a') (fun _ => ∀ a', ¬ Next b a') := by
  rw [ends_bind]
  cases hq : b.queue .ready with
  | nil =>
    have hno : ∀ a', ¬ Next b a' := by
      rintro a' ⟨n, l, hn, -⟩
      rw [hq] at hn
      exact absurd hn (by simp)
    obtain ⟨e, he⟩ := hnone s
    exact ends_of_ok (dequeue_null h.threads hq) (ends_of_error he hno)
  | cons n l =>
    refine (dequeue_rep h hq).ends ?_
    rintro _ s' ⟨rfl, hR, hc⟩
    exact (hsome n s' (hg.head_live hq) hR (hg.pop hq) hc).ends fun _ s'' hs => ⟨_, ⟨n, l, hq, rfl⟩, hs⟩

/-- The running thread is saved and the next one entered. -/
theorem dispatch_swap {k : Option Tid → M Unit} (h : Rep s b) (hg : Good b []) (hl : Live b.core b.run)
    (hcpu : { s.cpu with pc := pc } = b.ctx b.run) (hnone : ∀ s, ∃ e, (k none).run s = .error e)
    (hsome : ∀ n, k (some n) = do setRunning (some n); swapcontext (some b.run) (some n) pc) :
    Ends (dequeue .ready >>= k) s (fun _ s' => ∃ a', Next b a' ∧ Loaded s' a') (fun _ => ∀ a', ¬ Next b a') := by
  refine dispatch h hg hnone fun n s' hn hR hG hc => ?_
  rw [hsome]
  exact swapcontext_rep hR (hR.allocated hG (t := b.run) hl) (by rw [hc]; exact hcpu) hn

end Contexts

/-! ### Operations -/

/-- **`s` refines to `a`**: it holds it, and the abstract invariant holds. -/
structure Refines (s : Sched) (a : Abs) : Prop where
  loaded : Loaded s a
  inv : AInv a

section Operations

variable {s : Sched} {a : Abs} {t : Tid} {F : List Tid}

theorem Good.loose (hg : Good a F) (ht : t ∈ F) : Loose a.core.created a.queue a.lost t :=
  ⟨(hg.float t ht).1.1, fun q hq => (hg.float t ht).2 (.queue q) hq, (hg.float t ht).2 .lost⟩

theorem AInv.stop (h : AInv a) (pc : Pc) : Good (a.stop pc) [a.run] := h.onCtx (fun _ => rfl) fun _ => .inl rfl

/-- Up to the switch, the code of a thread that suspends itself at `pc` runs with the signal blocked. -/
theorem Refines.stopped (h : Refines s a) (pc : Pc) :
    Rep { s with cpu := { s.cpu with blocked := true } } (a.stop pc) ∧
      { s.cpu with blocked := true, pc := pc } = (a.stop pc).ctx a.run := by
  refine ⟨h.loaded.1.onCtx _ _, ?_⟩
  rw [h.loaded.2]
  simp [Abs.stop, Abs.onCtx]

/-- The running thread puts itself in the queue `q` and gives the processor to the next one. -/
theorem suspend (h : Refines s a) {q : QRef} (pc : Pc) (hs : Suits a.core pc (.queue q)) (k : Option Tid → M Unit)
    (hnone : ∀ s, ∃ e, (k none).run s = .error e)
    (hsome : ∀ n, k (some n) = do setRunning (some n); swapcontext s.running (some n) pc) :
    Ends (do enqueue q s.running; let next ← dequeue .ready; k next)
      { s with cpu := { s.cpu with blocked := true } }
      (fun _ s' => ∃ a', Next ((a.stop pc).push q a.run) a' ∧ Loaded s' a')
      (fun _ => ∀ a', ¬ Next ((a.stop pc).push q a.run) a') := by
  obtain ⟨hR, hcpu⟩ := h.stopped pc
  have hrun := h.loaded.1.running
  rw [ends_bind, hrun]
  refine (enqueue_rep (hrun ▸ hR) ((h.inv.stop pc).loose (t := a.run) (by simp))).ends ?_
  rintro _ s' ⟨hR', hc⟩
  refine dispatch_swap hR' (h.inv.stopPush hs) h.inv.live ?_ hnone (hrun ▸ hsome)
  rw [hc]
  exact hcpu

theorem greenYield_spec (h : Refines s a) :
    Ends (greenYield none) s (fun _ s' => ∃ a', Next ((a.stop (.yield none)).push .ready a.run) a' ∧ Loaded s' a')
      (fun _ => ∀ a', ¬ Next ((a.stop (.yield none)).push .ready a.run) a') := by
  simp only [greenYield, sigprocmask, modifyCpu, ends_modify_bind, ends_get_bind]
  exact suspend h (q := .ready) (.yield none) trivial
    (fun next => do setRunning next; swapcontext s.running next (.yield none))
    (fun _ => ⟨.null, by rw [h.loaded.1.running]; rfl⟩) fun _ => rfl

theorem Rep.leave {b : Abs} (h : Rep s b)
    (hc : { s.cpu with pc := .user, blocked := false } = { b.ctx b.run with pc := .user, blocked := false }) :
    Loaded { s with cpu := { s.cpu with pc := .user, blocked := false } } b.leave := by
  refine ⟨h.onCtx _ _, ?_⟩
  rw [hc]
  simp [Abs.leave, Abs.onCtx]

theorem Rep.setCpu (h : Rep s a) (c : Ctx) : Rep { s with cpu := c } a :=
  ⟨h.core, h.running, h.saved, h.alloc, h.threads⟩

theorem Rep.mask {b : Abs} (h : Rep s b) (v : Bool)
    (hc : { s.cpu with blocked := v } = { b.ctx b.run with blocked := v }) :
    Loaded { s with cpu := { s.cpu with blocked := v } } (b.mask v) := by
  refine ⟨h.onCtx _ _, ?_⟩
  rw [hc]
  simp [Abs.mask, Abs.onCtx]

theorem Rep.spawn (h : Rep s a) {new : Tid} (fn arg : ℕ) (hn : new ∉ a.core.created) :
    Rep { s with
      context := Function.update s.context new (some ⟨new, none, .start, true⟩)
      core := s.core.init new fn arg
      next := Function.update s.next new none } (a.spawn new fn arg) := by
  have hn' : new ∉ s.core.created := h.core ▸ hn
  refine ⟨by rw [h.core]; rfl, h.running, fun t ht htr => ?_, fun t ht => ?_, h.threads.create hn'⟩
  · by_cases htn : t = new
    · simp [Abs.spawn, htn]
    · have hlive : Live a.core t := (Good.live_spawn.mp ht).resolve_left htn
      simpa [Abs.spawn, htn] using h.saved t hlive htr
  · by_cases htn : t = new
    · simp [Abs.spawn, htn]
    · have hc : t ∈ a.core.created := (List.mem_cons.mp ht).resolve_left htn
      simpa [Abs.spawn, htn] using h.alloc t hc

theorem greenCreate_spec (h : Refines s a) {new : Tid} {fn arg : ℕ} (hn : new ∉ a.core.created) :
    Runs (greenCreate new fn arg) s
      (fun _ s' => Loaded s' (((a.spawn new fn arg).push .ready new).mask false)) := by
  have hrun := h.inv.live.1
  have hne : a.run ≠ new := fun e => hn (e ▸ hrun)
  have hR := h.loaded.1.spawn fn arg hn
  have hg := Good.loose (a := a.spawn new fn arg) (t := new) (h.inv.good.spawn hn) (by simp)
  have hR' : Rep { s with
      cpu := { s.cpu with blocked := true }
      context := Function.update s.context new (some ⟨new, none, .start, true⟩)
      core := s.core.init new fn arg
      next := Function.update s.next new none } (a.spawn new fn arg) :=
    ⟨hR.core, hR.running, hR.saved, hR.alloc, hR.threads⟩
  refine Ends.runs (E := fun _ => False) ?_ fun _ => id
  simp only [greenCreate, sigprocmask, modifyCpu, setContext, modifyCore, setNext, ends_modify_bind, ends_get_bind]
  rw [ends_bind]
  refine (enqueue_rep hR' hg).ends ?_
  rintro _ s' ⟨hR'', hc⟩
  refine hR''.mask false ?_
  rw [hc]
  have hctx : ((a.spawn new fn arg).push .ready new).ctx a.run = a.ctx a.run := Function.update_of_ne hne _ _
  show _ = { ((a.spawn new fn arg).push .ready new).ctx a.run with blocked := false }
  rw [hctx, h.loaded.2]

theorem live_collect {res : Option ℕ} {u : Tid} : Live (a.collect t res).core u ↔ Live a.core u := by
  simp [Live, Abs.collect_created, Abs.collect_zombie]

theorem Rep.collect (h : Rep s a) (hz : a.core.zombie t = true) (res : Option ℕ) :
    Rep { s with core := (a.collect t res).core, context := Function.update s.context t none } (a.collect t res) := by
  have hcr := a.collect_created t res
  have hT := h.threads
  rw [h.core, ← hcr] at hT
  refine ⟨rfl, h.running, fun u hu hur => ?_, fun u hu => ?_, hT⟩
  · have hul := live_collect.mp hu
    have hut : u ≠ t := by
      rintro rfl
      rw [hul.2] at hz
      cases hz
    show Function.update s.context t none u = some (a.ctx u)
    rw [Function.update_of_ne hut]
    exact h.saved u hul hur
  · by_cases hut : u = t
    · simp [Abs.collect, hut]
    · simpa [Abs.collect, hut] using h.alloc u (hcr ▸ hu)

/-- `green_join` after the thread has ended. -/
theorem greenJoinEnd_spec (h : Rep s a) (hz : Ended a.core t) {res : Option ℕ}
    (hc : { s.cpu with pc := .user, blocked := false } = { a.ctx a.run with pc := .user, blocked := false }) :
    Ends (greenJoinEnd t res) s (fun _ s' => a.Collectable t res ∧ Loaded s' (a.collect t res).leave)
      (fun _ => ¬ a.Collectable t res) := by
  have hpay : ∀ k : Core, k = (a.collect t res).core → (a.core.retval t ≠ 0 → res ≠ none) →
      Ends (do if (← get).context t = none then throw .freed else do setContext t none; leave)
        { s with core := k } (fun _ s' => a.Collectable t res ∧ Loaded s' (a.collect t res).leave)
        (fun _ => ¬ a.Collectable t res) := by
    rintro k rfl hres
    have hfree := h.alloc t hz.1
    rw [ends_get_bind]
    split_ifs with hctx
    · refine ends_throw.mpr fun hcol => ?_
      have hf := hcol.2
      rw [hfree.mp hctx] at hf
      cases hf
    · refine ⟨⟨hres, ?_⟩, (h.collect hz.2 res).leave hc⟩
      by_contra hf
      exact hctx (hfree.mpr (by simpa using hf))
  unfold greenJoinEnd
  rw [ends_get_bind, h.core]
  split_ifs with hr
  · cases res with
    | none => exact ends_throw.mpr fun hcol => hcol.1 hr rfl
    | some x =>
      refine hpay _ ?_ fun _ => by simp
      simp [Abs.collect, hr, h.core]
  · have hk : s.core = (a.collect t res).core := by simp [Abs.collect, hr, h.core]
    exact hpay _ hk fun h0 => absurd h0 hr

theorem greenJoin_wait (h : Refines s a) (ht : Live a.core t) {res : Option ℕ} :
    Ends (greenJoin t res) s (fun _ s' => ∃ a', Next ((a.stop (.join t res)).await t) a' ∧ Loaded s' a')
      (fun _ => ∀ a', ¬ Next ((a.stop (.join t res)).await t) a') := by
  obtain ⟨hR, hcpu⟩ := h.stopped (.join t res)
  have hz : s.core.zombie t = false := by rw [h.loaded.1.core]; exact ht.2
  have hrun := h.loaded.1.running
  have hg := (h.inv.stop (.join t res)).await ht (by simp [Waits, Suits, Abs.stop, Abs.onCtx])
  have hR' : Rep { s with cpu := { s.cpu with blocked := true }, core := s.core.setJoin t s.running }
      ((a.stop (.join t res)).await t) := by
    have hset := hR.setCore (a.core.setJoin t (some a.run)) rfl fun u hu => hu
    rw [hrun, h.loaded.1.core]
    exact ⟨hset.core, hrun ▸ hset.running, hset.saved, hset.alloc, hset.threads.lose _⟩
  simp only [greenJoin, sigprocmask, modifyCpu, modifyCore, ends_modify_bind, ends_get_bind, hz, if_true]
  exact dispatch_swap hR' hg h.inv.live hcpu (fun _ => ⟨.null, by rw [hrun]; rfl⟩) fun n => by rw [hrun]; rfl

theorem greenJoin_now (h : Refines s a) (ht : Ended a.core t) {res : Option ℕ} :
    Ends (greenJoin t res) s (fun _ s' => a.Collectable t res ∧ Loaded s' (a.collect t res).leave)
      (fun _ => ¬ a.Collectable t res) := by
  have hz : s.core.zombie t = true := by rw [h.loaded.1.core]; exact ht.2
  simp only [greenJoin, sigprocmask, modifyCpu, ends_modify_bind, ends_get_bind, hz, Bool.true_eq_false, if_false]
  refine greenJoinEnd_spec (h.loaded.1.setCpu _) ht ?_
  rw [h.loaded.2]

/-- The first member of `q`, if there is one, is put in the ready queue, and the code goes on with `k`. -/
theorem wake_rep (h : Rep s a) (hg : Good a F) (q : QRef) {k : PUnit → M Unit} {Q : Unit → Sched → Prop}
    {E : Fault → Prop} (hk : ∀ s', Rep s' (a.wake q) → s'.cpu = s.cpu → Ends (k ⟨⟩) s' Q E) :
    Ends (do let thread ← dequeue q; let r ← enqueue .ready thread; k r) s Q E := by
  rw [ends_bind]
  unfold Abs.wake at hk
  cases hq : a.queue q with
  | nil =>
    rw [hq] at hk
    refine ends_of_ok (dequeue_null h.threads hq) (ends_bind.mpr ?_)
    exact ends_of_ok (enqueue_null h.threads) (hk s h rfl)
  | cons t l =>
    rw [hq] at hk
    refine (dequeue_rep h hq).ends ?_
    rintro _ s' ⟨rfl, hR, hc⟩
    refine ends_bind.mpr ((enqueue_rep hR ((hg.pop hq).loose (by simp))).ends ?_)
    rintro _ s'' ⟨hR', hc'⟩
    exact hk s'' hR' (hc'.trans hc)

theorem condRelease_rep (h : Rep s a) (hg : Good a F) (m : Option ℕ) :
    Runs (condRelease m) s (fun _ s' => Rep s' (a.release m) ∧ s'.cpu = s.cpu) := by
  cases m with
  | none => exact ⟨(), s, rfl, h, rfl⟩
  | some m =>
    refine Ends.runs (E := fun _ => False) ?_ fun _ => id
    simp only [condRelease, modifyCore, ends_modify_bind]
    refine wake_rep (h.setTaken m false) (hg.setTaken m false) (.mutex m) fun s' hR' hc => ?_
    exact ⟨setHead_rep hR' _, hc⟩

theorem greenCondWait_spec (h : Refines s a) {c : ℕ} {m : Option ℕ} :
    Ends (greenCondWait c m) s
      (fun _ s' => ∃ a', Next (((a.stop (.wait c m)).push (.cond c) a.run).release m) a' ∧ Loaded s' a')
      (fun _ => ∀ a', ¬ Next (((a.stop (.wait c m)).push (.cond c) a.run).release m) a') := by
  obtain ⟨hR, hcpu⟩ := h.stopped (.wait c m)
  have hrun := h.loaded.1.running
  have hg : Good ((a.stop (.wait c m)).push (.cond c) a.run) [] := h.inv.stopPush ⟨m, rfl⟩
  simp only [greenCondWait, sigprocmask, modifyCpu, ends_modify_bind, ends_get_bind]
  split_ifs with h0
  · rw [hrun] at h0
    exact absurd h0 (by simp)
  rw [ends_bind, hrun]
  refine (enqueue_rep (hrun ▸ hR) ((h.inv.stop _).loose (t := a.run) (by simp))).ends ?_
  rintro _ s₁ ⟨hR₁, hc₁⟩
  refine ends_bind.mpr ((condRelease_rep hR₁ hg m).ends ?_)
  rintro _ s₂ ⟨hR₂, hc₂⟩
  have hctx : { s₂.cpu with pc := .wait c m } = (((a.stop (.wait c m)).push (.cond c) a.run).release m).ctx
      (((a.stop (.wait c m)).push (.cond c) a.run).release m).run := by
    rw [Abs.release_run, Abs.release_ctx, hc₂, hc₁]
    exact hcpu
  refine dispatch_swap hR₂ (AInv.release hg m) ?_ hctx (fun _ => ⟨.assert, rfl⟩) fun n => ?_
  · rw [Abs.release_run, Abs.live_release]
    exact h.inv.live
  · rw [Abs.release_run]
    rfl

theorem greenCondSignal_none (h : Refines s a) {c : ℕ} (hq : a.queue (.cond c) = []) :
    Runs (greenCondSignal c) s (fun _ s' => Loaded s' (a.mask true)) := by
  refine Ends.runs (E := fun _ => False) ?_ fun _ => id
  simp only [greenCondSignal, sigprocmask, modifyCpu, ends_modify_bind, ends_get_bind,
    h.loaded.1.threads.queues.head_of_nil hq, if_true]
  exact h.loaded.1.mask true (by rw [h.loaded.2])

theorem greenCondSignal_some (h : Refines s a) {c : ℕ} (hq : a.queue (.cond c) ≠ []) :
    Runs (greenCondSignal c) s (fun _ s' => Loaded s' ((a.wake (.cond c)).mask false)) := by
  obtain ⟨t, l, hl⟩ := List.exists_cons_of_ne_nil hq
  refine Ends.runs (E := fun _ => False) ?_ fun _ => id
  simp only [greenCondSignal, sigprocmask, modifyCpu, ends_modify_bind, ends_get_bind,
    h.loaded.1.threads.queues.head_of_cons hl, reduceCtorEq, if_false]
  refine wake_rep (h.loaded.1.setCpu _) h.inv.good (.cond c) fun s' hR hc => hR.mask false ?_
  rw [hc, Abs.wake_run, Abs.wake_ctx, h.loaded.2]

theorem greenMutexLock_free (h : Refines s a) {m : ℕ} (ht : a.core.taken m = false) :
    Runs (greenMutexLock m) s (fun _ s' => Loaded s' ((a.setTaken m true).mask false)) := by
  have htk : s.core.taken m = false := by rw [h.loaded.1.core]; exact ht
  have hR := (h.loaded.1.setCpu { s.cpu with blocked := true }).setTaken m true
  refine Ends.runs (E := fun _ => False) ?_ fun _ => id
  simp only [greenMutexLock, sigprocmask, modifyCpu, modifyCore, ends_modify_bind, ends_get_bind, htk,
    Bool.false_eq_true, if_false]
  exact hR.mask (b := a.setTaken m true) false (by rw [h.loaded.2]; rfl)

theorem greenMutexLock_wait (h : Refines s a) {m : ℕ} (ht : a.core.taken m = true) :
    Ends (greenMutexLock m) s (fun _ s' => ∃ a', Next ((a.stop (.lock m)).push (.mutex m) a.run) a' ∧ Loaded s' a')
      (fun _ => ∀ a', ¬ Next ((a.stop (.lock m)).push (.mutex m) a.run) a') := by
  have htk : s.core.taken m = true := by rw [h.loaded.1.core]; exact ht
  simp only [greenMutexLock, sigprocmask, modifyCpu, ends_modify_bind, ends_get_bind, htk, if_true]
  exact suspend h (q := .mutex m) (.lock m) (.inl rfl)
    (fun next => if next = none then throw .assert else do setRunning next; swapcontext s.running next (.lock m))
    (fun _ => ⟨.assert, rfl⟩) fun _ => rfl

theorem greenMutexUnlock_free (h : Refines s a) {m : ℕ} (hq : a.queue (.mutex m) = []) :
    Runs (greenMutexUnlock m) s (fun _ s' => Loaded s' ((a.setTaken m false).mask false)) := by
  have hh := h.loaded.1.threads.queues.head_of_nil hq
  have hR := (h.loaded.1.setCpu { s.cpu with blocked := true }).setTaken m false
  have hupd : Function.update s.head (.mutex m) none = s.head := by rw [← hh, Function.update_eq_self]
  refine Ends.runs (E := fun _ => False) ?_ fun _ => id
  simp only [greenMutexUnlock, sigprocmask, modifyCpu, modifyCore, setHead, ends_modify_bind, ends_get_bind, hh,
    ne_eq, not_true_eq_false, if_false, hupd]
  exact hR.mask (b := a.setTaken m false) false (by rw [h.loaded.2]; rfl)

theorem greenMutexUnlock_pass (h : Refines s a) {m : ℕ} (hq : a.queue (.mutex m) ≠ []) :
    Runs (greenMutexUnlock m) s (fun _ s' => Loaded s' ((a.wake (.mutex m)).mask false)) := by
  obtain ⟨t, l, hl⟩ := List.exists_cons_of_ne_nil hq
  refine Ends.runs (E := fun _ => False) ?_ fun _ => id
  simp only [greenMutexUnlock, sigprocmask, modifyCpu, ends_modify_bind, ends_get_bind,
    h.loaded.1.threads.queues.head_of_cons hl, ne_eq, reduceCtorEq, not_false_eq_true, if_true]
  refine wake_rep (h.loaded.1.setCpu _) h.inv.good (.mutex m) fun s' hR hc => hR.mask false ?_
  rw [hc, Abs.wake_run, Abs.wake_ctx, h.loaded.2]

theorem greenMutexInit_spec (h : Refines s a) {m : ℕ} :
    Runs (greenMutexInit m) s (fun _ s' => Loaded s' (((a.setTaken m false).drop (.mutex m)).mask false)) := by
  have hR := (h.loaded.1.setCpu { s.cpu with blocked := true }).setTaken m false
  refine Ends.runs (E := fun _ => False) ?_ fun _ => id
  simp only [greenMutexInit, sigprocmask, modifyCpu, modifyCore, setHead, ends_modify_bind]
  exact (setHead_rep hR (.mutex m)).mask (b := (a.setTaken m false).drop (.mutex m)) false (by rw [h.loaded.2]; rfl)

theorem greenCondInit_spec (h : Refines s a) {c : ℕ} :
    Runs (greenCondInit c) s (fun _ s' => Loaded s' ((a.drop (.cond c)).mask false)) := by
  have hR := h.loaded.1.setCpu { s.cpu with blocked := true }
  refine Ends.runs (E := fun _ => False) ?_ fun _ => id
  simp only [greenCondInit, sigprocmask, modifyCpu, setHead, ends_modify_bind]
  exact (setHead_rep hR (.cond c)).mask false (by rw [h.loaded.2]; rfl)

/-- `green_thread` after the function's return. -/
theorem greenThreadEnd_spec (h : Refines s a) {v : ℕ} (hthis : s.cpu.this ≠ none) :
    Ends (greenThreadEnd v) s (fun _ s' => ∃ a', Next (a.finish v) a' ∧ Loaded s' a')
      (fun _ => ∀ a', ¬ Next (a.finish v) a') := by
  have hthis : s.cpu.this = some a.run := by
    rw [h.loaded.2] at hthis ⊢
    exact (h.inv.good.own a.run h.inv.live).2.resolve_left hthis
  -- from `this->retval = result` on, whether or not a joiner was woken
  have hrest : ∀ s₁ b, Rep s₁ b → b.run = a.run → b.core = a.core → b.bury v = a.finish v →
      Ends (do
        modifyCore fun k => k.setRetval a.run v
        modifyCore fun k => k.setZombie a.run
        let next ← dequeue .ready
        setRunning next
        setcontext next) s₁ (fun _ s' => ∃ a', Next (a.finish v) a' ∧ Loaded s' a')
        (fun _ => ∀ a', ¬ Next (a.finish v) a') := by
    intro s₁ b hR hrun hcore hfin
    have hR' := hR.setCore (b.bury v).core rfl fun t ht => (Good.live_bury.mp ht).1
    have hbury : (b.bury v).core = (s₁.core.setRetval a.run v).setZombie a.run := by
      rw [hR.core, ← hrun]
      rfl
    rw [hbury] at hR'
    simp only [modifyCore, ends_modify_bind]
    have hR'' : Rep { s₁ with core := (s₁.core.setRetval a.run v).setZombie a.run } (a.finish v) := by
      rw [← hfin]
      exact ⟨hbury.symm, hR'.running, hbury ▸ hR'.saved, hbury ▸ hR'.alloc, hbury ▸ hR'.threads⟩
    refine dispatch hR'' (h.inv.finish v) (fun _ => ⟨.null, rfl⟩) fun n s' hn hR₂ _ _ => ?_
    refine setcontext_rep hR₂ ?_ hn
    rw [← hfin]
    exact fun hl => (Good.live_bury.mp hl).2 rfl
  unfold greenThreadEnd
  rw [ends_get_bind, hthis, ends_bind]
  show Ends (if s.core.join a.run ≠ none then _ else _) s _ _
  cases hj : a.core.join a.run with
  | none =>
    rw [if_neg (by simp [h.loaded.1.core, hj])]
    exact hrest s a h.loaded.1 rfl rfl (by simp [Abs.finish, hj])
  | some j =>
    rw [if_pos (by simp [h.loaded.1.core, hj]), ends_get_bind, ends_bind, h.loaded.1.core, hj]
    have hp : Placed a j (.join a.run) := ⟨h.inv.live, hj⟩
    have hloose : Loose a.core.created a.queue a.lost j := ⟨(h.inv.good.placed j _ hp).1,
      fun q hq => absurd (h.inv.good.one j _ (.queue q) hp hq) (by simp),
      fun hl => absurd (h.inv.good.one j _ .lost hp hl) (by simp)⟩
    refine (enqueue_rep h.loaded.1 hloose).ends ?_
    rintro _ s₁ ⟨hR, -⟩
    exact hrest s₁ _ hR rfl rfl (by simp [Abs.finish, hj]; rfl)

/-- The first statements of `green_thread`. -/
theorem greenThread_spec (h : Refines s a) :
    Ends greenThread s (fun _ s' => a.core.fn a.run ≠ 0 ∧
        Loaded s' (a.onCtx fun c => { c with this := some a.run, pc := .user, blocked := true }))
      (fun _ => a.core.fn a.run = 0) := by
  have hrun := h.loaded.1.running
  simp only [greenThread, sigprocmask, modifyCpu, ends_modify_bind, ends_get_bind]
  rw [hrun, ends_bind]
  show Ends (if s.core.fn a.run = 0 then _ else _) _ _ _
  rw [h.loaded.1.core]
  split_ifs with hf
  · exact ends_throw.mpr hf
  · refine ⟨hf, ?_, ?_⟩
    · have hR := h.loaded.1.onCtx (fun c => { c with this := some a.run, pc := .user, blocked := true })
        { s.cpu with this := some a.run, pc := .user, blocked := true }
      exact ⟨h.loaded.1.core ▸ hR.core, hrun ▸ hR.running, hR.saved, hR.alloc,
        h.loaded.1.core ▸ hR.threads⟩
    · simp [Abs.onCtx, h.loaded.2]

/-- The rest of `green_cond_wait` when the mutex is taken again. -/
theorem greenCondWaitEnd_wait (h : Refines s a) (hb : s.cpu.blocked = true) {m : ℕ} (ht : a.core.taken m = true) :
    Ends (greenCondWaitEnd (some m)) s
      (fun _ s' => ∃ a', Next ((a.stop (.rewait m)).push (.mutex m) a.run) a' ∧ Loaded s' a')
      (fun _ => ∀ a', ¬ Next ((a.stop (.rewait m)).push (.mutex m) a.run) a') := by
  have htk : s.core.taken m = true := by rw [h.loaded.1.core]; exact ht
  have hs : { s with cpu := { s.cpu with blocked := true } } = s := by rw [← hb]
  have hsus := suspend h (q := .mutex m) (.rewait m) (.inr rfl)
    (fun next => do setRunning next; swapcontext s.running next (.rewait m))
    (fun _ => ⟨.null, by rw [h.loaded.1.running]; rfl⟩) fun _ => rfl
  rw [hs] at hsus
  simp only [greenCondWaitEnd, ends_get_bind, htk, if_true]
  exact hsus

theorem greenCondWaitEnd_take (h : Refines s a) {m : ℕ} (ht : a.core.taken m = false) :
    Runs (greenCondWaitEnd (some m)) s (fun _ s' => Loaded s' (a.setTaken m true).leave) := by
  have htk : s.core.taken m = false := by rw [h.loaded.1.core]; exact ht
  refine Ends.runs (E := fun _ => False) ?_ fun _ => id
  simp only [greenCondWaitEnd, ends_get_bind, htk, Bool.false_eq_true, if_false, modifyCore, ends_modify_bind]
  exact (h.loaded.1.setTaken m true).leave (by rw [h.loaded.2]; rfl)

/-- Going on after a suspension. -/
theorem resume_spec (h : Refines s a) (hen : s.cpu.pc ≠ .user) :
    Ends resume s (fun _ s' => ∃ a', AStep a .resume a' ∧ Loaded s' a') (fun _ => ∀ a', ¬ AStep a .resume a') := by
  have hcpu := h.loaded.2
  have hw : Waits a.core (a.ctx a.run) (.queue .ready) := h.inv.pc.resolve_left (hcpu ▸ hen)
  have hleave : Loaded { s with cpu := { s.cpu with pc := .user, blocked := false } } a.leave :=
    h.loaded.1.leave (by rw [hcpu])
  have hres : Resumable a.core s.cpu.pc := hcpu ▸ hw.2
  unfold resume
  rw [ends_get_bind]
  rw [hcpu] at hres ⊢
  -- one arm for each place a thread can have stopped at
  split
  · next hpc =>
    refine (greenThread_spec h).imp ?_ ?_
    · exact fun _ s' ⟨hf, hL⟩ => ⟨_, .resumeStart hpc hf, hL⟩
    · rintro _ hf a' hst
      cases hst with
      | resumeStart _ hf' => exact hf' hf
      | _ => simp_all
  · next hpc => exact ⟨_, .resumeYield hpc, hleave⟩
  · next hpc => rw [hpc] at hres; exact hres.elim
  · next t res hpc =>
    rw [hpc] at hres
    refine (greenJoinEnd_spec h.loaded.1 hres (by rw [hcpu])).imp ?_ ?_
    · exact fun _ s' ⟨hc, hL⟩ => ⟨_, .resumeJoin hpc hc, hL⟩
    · rintro _ hc a' hst
      cases hst <;> simp_all
  · next c m hpc =>
    cases m with
    | none => exact ⟨_, .resumeWait hpc, hleave⟩
    | some m =>
      cases ht : a.core.taken m with
      | false => exact (greenCondWaitEnd_take h ht).ends fun _ s' hL => ⟨_, .resumeTake hpc ht, hL⟩
      | true =>
        refine (greenCondWaitEnd_wait h (hcpu ▸ hw.1) ht).imp ?_ ?_
        · exact fun _ s' ⟨a', hn, hL⟩ => ⟨a', .resumeRewait hpc ht hn, hL⟩
        · -- the ready queue is empty, so neither the code nor the step goes on
          rintro _ hn a' hst
          cases hst with
          | resumeRewait hpc' _ hn' =>
            rw [hpc] at hpc'
            cases hpc'
            exact hn _ hn'
          | _ => simp_all
  · next hpc => exact ⟨_, .resumeLocked (.inl hpc), hleave⟩
  · next hpc => exact ⟨_, .resumeLocked (.inr hpc), hleave⟩
  · next hpc => exact absurd (hcpu ▸ hpc) hen
  · next hpc => rw [hpc] at hres; exact hres.elim

/-- **An operation returns if and only if the abstract scheduler can make the step, and then it refines it.** -/
theorem exec_spec (h : Refines s a) {act : Act} (hen : enabled s.cpu act) (hpr : proper s.core act) :
    Ends (exec act) s (fun _ s' => ∃ a', AStep a act a' ∧ Refines s' a') (fun _ => ∀ a', ¬ AStep a act a') := by
  have hkeep : ∀ a', AStep a act a' → AInv a' :=
    fun a' hst => hst.inv h.inv (h.loaded.2 ▸ hen) (h.loaded.1.core ▸ hpr)
  suffices hL : Ends (exec act) s (fun _ s' => ∃ a', AStep a act a' ∧ Loaded s' a')
      (fun _ => ∀ a', ¬ AStep a act a') from
    hL.imp (fun _ s' ⟨a', hst, hL⟩ => ⟨a', hst, hL, hkeep a' hst⟩) fun _ => id
  cases act with
  | create new fn arg =>
    have hn : new ∉ a.core.created := h.loaded.1.core ▸ hpr
    exact (greenCreate_spec h hn).ends fun _ s' hL => ⟨_, .create, hL⟩
  | yield =>
    refine (greenYield_spec h).imp (fun _ s' ⟨a', hn, hL⟩ => ⟨a', .yield hn, hL⟩) ?_
    intro _ hno a' hst
    cases hst with
    | yield hn => exact hno a' hn
  | timer =>
    refine (greenYield_spec h).imp (fun _ s' ⟨a', hn, hL⟩ => ⟨a', .timer hn, hL⟩) ?_
    intro _ hno a' hst
    cases hst with
    | timer hn => exact hno a' hn
  | join t res =>
    have hc : t ∈ a.core.created := h.loaded.1.core ▸ hpr
    cases hz : a.core.zombie t with
    | false =>
      refine (greenJoin_wait h ⟨hc, hz⟩).imp (fun _ s' ⟨a', hn, hL⟩ => ⟨a', .joinWait hz hn, hL⟩) ?_
      intro _ hno a' hst
      cases hst with
      | joinWait _ hn => exact hno a' hn
      | joinNow hz' _ => simp_all
    | true =>
      refine (greenJoin_now h ⟨hc, hz⟩).imp (fun _ s' ⟨hcol, hL⟩ => ⟨_, .joinNow hz hcol, hL⟩) ?_
      intro _ hno a' hst
      cases hst with
      | joinWait hz' _ => simp_all
      | joinNow _ hcol => exact hno hcol
  | condInit c => exact (greenCondInit_spec h).ends fun _ s' hL => ⟨_, .condInit, hL⟩
  | condWait c m =>
    refine (greenCondWait_spec h).imp (fun _ s' ⟨a', hn, hL⟩ => ⟨a', .condWait hn, hL⟩) ?_
    intro _ hno a' hst
    cases hst with
    | condWait hn => exact hno a' hn
  | condSignal c =>
    by_cases hq : a.queue (.cond c) = []
    · exact (greenCondSignal_none h hq).ends fun _ s' hL => ⟨_, .signalNone hq, hL⟩
    · exact (greenCondSignal_some h hq).ends fun _ s' hL => ⟨_, .signal hq, hL⟩
  | mutexInit m => exact (greenMutexInit_spec h).ends fun _ s' hL => ⟨_, .mutexInit, hL⟩
  | lock m =>
    cases ht : a.core.taken m with
    | false => exact (greenMutexLock_free h ht).ends fun _ s' hL => ⟨_, .lockFree ht, hL⟩
    | true =>
      refine (greenMutexLock_wait h ht).imp (fun _ s' ⟨a', hn, hL⟩ => ⟨a', .lockWait ht hn, hL⟩) ?_
      intro _ hno a' hst
      cases hst with
      | lockFree ht' => simp_all
      | lockWait _ hn => exact hno a' hn
  | unlock m =>
    by_cases hq : a.queue (.mutex m) = []
    · exact (greenMutexUnlock_free h hq).ends fun _ s' hL => ⟨_, .unlockFree hq, hL⟩
    · exact (greenMutexUnlock_pass h hq).ends fun _ s' hL => ⟨_, .unlockPass hq, hL⟩
  | ret v =>
    refine (greenThreadEnd_spec h hen.2).imp (fun _ s' ⟨a', hn, hL⟩ => ⟨a', .ret hn, hL⟩) ?_
    intro _ hno a' hst
    cases hst with
    | ret hn => exact hno a' hn
  | resume => exact resume_spec h hen

end Operations

end Seminars.Green
