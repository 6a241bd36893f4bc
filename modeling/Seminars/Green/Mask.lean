import Seminars.Green.Epilogue

/-!
# Seminars.Green.Mask — the signal mask outside the library

* `Leaks`: the steps after which code outside the library runs with the signal blocked, the start of a thread and
  `green_cond_signal` with nobody waiting.
* `Saved`: a context that is saved stands inside the library.  No queue has a part in this invariant, so it holds
  whatever a signal at the end of `green_thread` does to them.
* `fine_after` says for each action how it ends; `mask_run` is about whole runs.
-/

namespace Seminars.Green

open Seminars.Lib

/-- The timer is enabled, if the code of a thread executes. -/
def Unmasked (s : Sched) : Prop := s.cpu.pc = .user → s.cpu.blocked = false

instance : DecidablePred Unmasked := fun s => inferInstanceAs (Decidable (s.cpu.pc = .user → s.cpu.blocked = false))

/-- `green_thread` calls the thread's function, or `green_cond_signal` returns early. -/
def Leaks (s : Sched) : Act → Prop
  | .resume => s.cpu.pc = .start
  | .condSignal c => s.head (.cond c) = none
  | _ => False

instance (s : Sched) : DecidablePred (Leaks s)
  | .resume => inferInstanceAs (Decidable (s.cpu.pc = .start))
  | .condSignal c => inferInstanceAs (Decidable (s.head (.cond c) = none))
  | .create _ _ _ | .yield | .join _ _ | .condInit _ | .condWait _ _ | .mutexInit _ | .lock _ | .unlock _ | .ret _
  | .timer => inferInstanceAs (Decidable False)

/-- A context that is saved is that of code of the library; `main` may have another one until it is suspended. -/
def Saved (s : Sched) : Prop :=
  ∀ t c, s.context t = some c → c.pc = .user → s.running = some t ∧ s.cpu.this = none ∧ s.cpu.pc = .user

/-- How a step ends. -/
structure After (s : Sched) (act : Act) (s' : Sched) : Prop where
  saved : Saved s'
  mask : s'.cpu.pc = .user ∧ s'.cpu.blocked = true ↔ Leaks s act

/-- Another context was entered. -/
structure Switched (s : Sched) : Prop where
  saved : ∀ t c, s.context t = some c → c.pc ≠ .user
  pc : s.cpu.pc ≠ .user

/-- Code that is about the queues. -/
structure Untouched (s s' : Sched) : Prop where
  running : s'.running = s.running
  context : s'.context = s.context
  cpu : s'.cpu = s.cpu

section Code

variable {s s' : Sched} {act : Act}

theorem Switched.after (h : Switched s') (hl : ¬ Leaks s act) : After s act s' :=
  ⟨fun t c hc hu => absurd hu (h.saved t c hc), fun hu => absurd hu.1 h.pc, fun h => absurd h hl⟩

theorem Saved.switched (hs : Saved s) (hpc : s.cpu.pc ≠ .user ∨ s.cpu.this ≠ none) (hctx : s'.context = s.context)
    (hpc' : s'.cpu.pc ≠ .user) : Switched s' := by
  refine ⟨fun t c hc hu => ?_, hpc'⟩
  obtain ⟨-, hthis, hu⟩ := hs t c (hctx ▸ hc) hu
  rcases hpc with h | h
  · exact h hu
  · exact h hthis

theorem Saved.user (hs : Saved s) (hrun : s'.running = s.running)
    (hctx : ∀ t c, s'.context t = some c → c.pc = .user → s.context t = some c)
    (hthis : s.cpu.pc = .user → s'.cpu.this = s.cpu.this) (hpc : s'.cpu.pc = .user)
    (hmask : s'.cpu.blocked = true ↔ Leaks s act) : After s act s' := by
  refine ⟨fun t c hc hu => ?_, (and_iff_right hpc).trans hmask⟩
  obtain ⟨h1, h2, h3⟩ := hs t c (hctx t c hc hu) hu
  exact ⟨hrun.trans h1, (hthis h3).trans h2, hpc⟩

theorem enqueue_untouched (q : QRef) (p : Option Tid) (s : Sched) :
    Ends (enqueue q p) s (fun _ s' => Untouched s s') (fun _ => True) := by
  refine (enqueue_frame q p s).imp ?_ fun _ => id
  rintro _ s' ⟨hF, -⟩
  exact ⟨hF.running, hF.context, hF.cpu⟩

theorem dequeue_untouched (q : QRef) (s : Sched) :
    Ends (dequeue q) s (fun _ s' => Untouched s s') (fun _ => True) := by
  refine (dequeue_frame q s).imp ?_ fun _ => id
  rintro _ s' ⟨-, hF, -⟩
  exact ⟨hF.running, hF.context, hF.cpu⟩

theorem Untouched.trans {s₁ s₂ s₃ : Sched} (h : Untouched s₁ s₂) (h' : Untouched s₂ s₃) : Untouched s₁ s₃ :=
  ⟨h'.running.trans h.running, h'.context.trans h.context, h'.cpu.trans h.cpu⟩

theorem ends_wake (q : QRef) (s : Sched) {k : M Unit} {Q : Unit → Sched → Prop}
    (hk : ∀ s', Untouched s s' → Ends k s' Q (fun _ => True)) :
    Ends (do let n ← dequeue q; enqueue .ready n; k) s Q (fun _ => True) := by
  rw [ends_bind]
  refine (dequeue_untouched _ _).imp ?_ fun _ => id
  rintro n s₁ h₁
  rw [ends_bind]
  refine (enqueue_untouched _ _ _).imp ?_ fun _ => id
  rintro _ s₂ h₂
  exact hk s₂ (h₁.trans h₂)

theorem condRelease_untouched (m : Option ℕ) (s : Sched) :
    Ends (condRelease m) s (fun _ s' => Untouched s s') (fun _ => True) := by
  cases m with
  | none => exact ⟨rfl, rfl, rfl⟩
  | some m =>
    simp only [condRelease, modifyCore, ends_modify_bind]
    exact ends_wake _ _ fun s₁ h₁ => ⟨h₁.running, h₁.context, h₁.cpu⟩

theorem ends_deref {p : Option Tid} {k : Tid → M Unit} {Q : Unit → Sched → Prop}
    (hk : ∀ t, p = some t → Ends (k t) s Q (fun _ => True)) : Ends (deref p >>= k) s Q (fun _ => True) := by
  cases p with
  | none => trivial
  | some t => exact hk t rfl

theorem setcontext_switched {n : Option Tid} (hs : ∀ t c, s.context t = some c → c.pc ≠ .user) :
    Ends (setcontext n) s (fun _ s' => Switched s') (fun _ => True) := by
  unfold setcontext
  refine ends_deref fun t _ => ?_
  rw [ends_get_bind]
  cases hc : s.context t with
  | none => trivial
  | some c => exact ⟨hs, hs t c hc⟩

/-- The thread `r` is suspended at `pc`, and the first of the ready queue runs. -/
theorem dequeue_switched (r : Option Tid) (pc : Pc) (hpc : pc ≠ .user)
    (hs : ∀ t c, r ≠ some t → s.context t = some c → c.pc ≠ .user)
    {k : Option Tid → M Unit}
    (hk : ∀ n, (∃ e, k n = throw e) ∨ k n = do setRunning n; swapcontext r n pc) :
    Ends (dequeue .ready >>= k) s (fun _ s' => Switched s') (fun _ => True) := by
  rw [ends_bind]
  refine (dequeue_untouched _ _).imp ?_ fun _ => id
  rintro n s₁ h₁
  rcases hk n with ⟨e, he⟩ | he
  · rw [he]
    trivial
  rw [he]
  unfold setRunning swapcontext
  rw [ends_modify_bind]
  refine ends_deref fun t ht => ends_deref fun _ _ => ?_
  rw [ends_get_bind]
  split_ifs
  · trivial
  rw [ends_get_bind]
  unfold setContext
  rw [ends_modify_bind]
  refine setcontext_switched fun u c hc => ?_
  change Function.update s₁.context t (some { s₁.cpu with pc := pc }) u = some c at hc
  by_cases hu : u = t
  · rw [hu, Function.update_self] at hc
    obtain rfl := Option.some.inj hc
    exact hpc
  · rw [Function.update_of_ne hu, h₁.context] at hc
    refine hs u c (fun e => hu ?_) hc
    exact Option.some.inj (e.symm.trans ht)

theorem Saved.others (hs : Saved s) (t : Tid) (c : Ctx) (ht : s.running ≠ some t) (hc : s.context t = some c) :
    c.pc ≠ .user :=
  fun hu => ht (hs t c hc hu).1

theorem greenYield_switched (hs : Saved s) (back : Option (ℕ × Epi)) :
    Ends (greenYield back) s (fun _ s' => Switched s') (fun _ => True) := by
  simp only [greenYield, sigprocmask, modifyCpu, ends_modify_bind, ends_get_bind]
  rw [ends_bind]
  refine (enqueue_untouched _ _ _).imp ?_ fun _ => id
  rintro _ s₁ h₁
  refine dequeue_switched _ _ (by simp) (fun t c ht hc => ?_) fun n => .inr rfl
  exact hs.others t c ht (h₁.context ▸ hc)

theorem suspend_switched (hs : Saved s) (hq : s'.context = s.context) (q : QRef) (pc : Pc) (hpc : pc ≠ .user)
    {k : Option Tid → M Unit} (hk : ∀ n, (∃ e, k n = throw e) ∨ k n = do setRunning n; swapcontext s.running n pc) :
    Ends (do enqueue q s.running; let n ← dequeue .ready; k n) s' (fun _ s'' => Switched s'') (fun _ => True) := by
  rw [ends_bind]
  refine (enqueue_untouched _ _ _).imp ?_ fun _ => id
  rintro _ s₁ h₁
  refine dequeue_switched _ pc hpc (fun t c ht hc => ?_) hk
  exact hs.others t c ht (hq ▸ h₁.context ▸ hc)

theorem greenJoinEnd_after (hs : Saved s) (hl : ¬ Leaks s act) (hrun : s'.running = s.running)
    (hctx : s'.context = s.context) (hcpu : s'.cpu.this = s.cpu.this) (t : Tid) (res : Option ℕ) :
    Ends (greenJoinEnd t res) s' (fun _ s'' => After s act s'') (fun _ => True) := by
  have hend : ∀ s₁ : Sched, Untouched s' s₁ → Ends (do
      if (← get).context t = none then throw .freed else do setContext t none; leave : M Unit) s₁
        (fun _ s'' => After s act s'') (fun _ => True) := by
    intro s₁ h₁
    rw [ends_get_bind]
    split_ifs
    · trivial
    · refine hs.user (h₁.running.trans hrun) (fun u c hc _ => ?_) (fun _ => ?_) rfl ?_
      · change Function.update s₁.context t none u = some c at hc
        by_cases hu : u = t
        · rw [hu, Function.update_self] at hc
          exact absurd hc (by simp)
        · rwa [Function.update_of_ne hu, h₁.context, hctx] at hc
      · show s₁.cpu.this = s.cpu.this
        rw [h₁.cpu, hcpu]
      · exact ⟨fun h => absurd h Bool.false_ne_true, fun h => absurd h hl⟩
  unfold greenJoinEnd
  rw [ends_get_bind]
  split_ifs
  · refine ends_deref fun x _ => ?_
    simp only [modifyCore, ends_modify_bind]
    exact hend _ ⟨rfl, rfl, rfl⟩
  · exact hend _ ⟨rfl, rfl, rfl⟩

theorem epilogue_switched (hs : Saved s) {v : ℕ} {e : Epi} (hpc : s.cpu.pc = .epi v e) :
    Ends (epilogue v e) s (fun _ s' => Switched s') (fun _ => True) := by
  have hgo : ∀ {s' : Sched} {e' : Epi}, s'.context = s.context → s'.cpu.pc = .epi v e' → Switched s' :=
    fun hctx hpc' => hs.switched (.inl (by simp [hpc])) hctx (by simp [hpc'])
  unfold epilogue
  rw [ends_get_bind]
  refine ends_deref fun this _ => ?_
  rw [ends_get_bind]
  cases e with
  | enqWhile _ _ | enqNext _ _ | deqHead _ =>
    rw [ends_get_bind]
    exact ends_deref fun _ _ => hgo rfl rfl
  | enqLink _ _ | deqNext _ => exact ends_deref fun _ _ => hgo rfl rfl
  | setcontext next => exact setcontext_switched (hs.switched (.inl (by simp [hpc])) rfl (by simp [hpc])).saved
  | _ => exact hgo rfl rfl

theorem greenCondWaitEnd_after (hs : Saved s) (hpc : s.cpu.pc ≠ .user) (hl : ¬ Leaks s act) (m : Option ℕ) :
    Ends (greenCondWaitEnd m) s (fun _ s' => After s act s') (fun _ => True) := by
  have hleave : ∀ {s' : Sched}, Untouched s s' →
      After s act { s' with cpu := { s'.cpu with pc := .user, blocked := false } } := by
    intro s' h'
    refine hs.user h'.running (fun t c hc _ => h'.context ▸ hc) (fun h => absurd h hpc) rfl ?_
    exact ⟨fun h => absurd h Bool.false_ne_true, fun h => absurd h hl⟩
  cases m with
  | none => exact hleave ⟨rfl, rfl, rfl⟩
  | some m =>
    simp only [greenCondWaitEnd, ends_get_bind]
    split_ifs
    · exact (suspend_switched hs rfl _ _ (by simp) fun n => .inr rfl).imp (fun _ _ h => h.after hl) fun _ => id
    · exact hleave ⟨rfl, rfl, rfl⟩

/-! Each operation. -/

theorem ends_after {c : M Unit} {s₁ : Sched} (hl : ¬ Leaks s act)
    (h : Ends c s₁ (fun _ s' => Switched s') (fun _ => True)) :
    Ends c s₁ (fun _ s' => After s act s') (fun _ => True) :=
  h.imp (fun _ _ h => h.after hl) fun _ => id

/-- An operation that suspends nobody unblocks the signal it has blocked. -/
theorem Saved.returns (hs : Saved s) (hpc : s.cpu.pc = .user) (hl : ¬ Leaks s act)
    (h' : Untouched { s with cpu := { s.cpu with blocked := true } } s') :
    After s act { s' with cpu := { s'.cpu with blocked := false } } := by
  refine hs.user h'.running (fun t c hc _ => h'.context ▸ hc) (fun _ => ?_) ?_ ?_
  · simp [h'.cpu]
  · simpa [h'.cpu] using hpc
  · exact ⟨fun h => absurd h Bool.false_ne_true, fun h => absurd h hl⟩

theorem greenCreate_after (hs : Saved s) (hpc : s.cpu.pc = .user) (new : Tid) (fn arg : ℕ) :
    Ends (greenCreate new fn arg) s (fun _ s' => After s (.create new fn arg) s') (fun _ => True) := by
  simp only [greenCreate, sigprocmask, modifyCpu, modifyCore, setContext, setNext, ends_modify_bind, ends_get_bind]
  rw [ends_bind]
  refine (enqueue_untouched _ _ _).imp ?_ fun _ => id
  rintro _ s₁ h₁
  refine hs.user h₁.running (fun t c hc hu => ?_) (fun _ => ?_) ?_ ?_
  · -- the context of the new thread stands at the start of `green_thread`
    change s₁.context t = some c at hc
    rw [h₁.context] at hc
    change Function.update s.context new _ t = some c at hc
    by_cases ht : t = new
    · rw [ht, Function.update_self] at hc
      rw [← Option.some.inj hc] at hu
      exact absurd hu (by simp)
    · rwa [Function.update_of_ne ht] at hc
  · show s₁.cpu.this = s.cpu.this
    rw [h₁.cpu]
  · show s₁.cpu.pc = .user
    rw [h₁.cpu]
    exact hpc
  · exact ⟨fun h => absurd h Bool.false_ne_true, fun h => h.elim⟩

theorem greenJoin_after (hs : Saved s) (t : Tid) (res : Option ℕ) :
    Ends (greenJoin t res) s (fun _ s' => After s (.join t res) s') (fun _ => True) := by
  have hl : ¬ Leaks s (.join t res) := fun h => h
  simp only [greenJoin, sigprocmask, modifyCpu, ends_modify_bind, ends_get_bind]
  split_ifs
  · simp only [modifyCore, ends_get_bind, ends_modify_bind]
    refine ends_after hl (dequeue_switched s.running (.join t res) (by simp) ?_ fun n => .inr rfl)
    exact hs.others
  · refine greenJoinEnd_after hs hl ?_ ?_ ?_ t res <;> rfl

theorem greenCondWait_after (hs : Saved s) (c : ℕ) (m : Option ℕ) :
    Ends (greenCondWait c m) s (fun _ s' => After s (.condWait c m) s') (fun _ => True) := by
  simp only [greenCondWait, sigprocmask, modifyCpu, ends_modify_bind, ends_get_bind]
  split_ifs
  · trivial
  rw [ends_bind]
  refine (enqueue_untouched _ _ _).imp ?_ fun _ => id
  rintro _ s₁ h₁
  rw [ends_bind]
  refine (condRelease_untouched _ _).imp ?_ fun _ => id
  rintro _ s₂ h₂
  refine ends_after (fun h => h) (dequeue_switched s.running (.wait c m) (by simp) (fun t c ht hc => ?_) fun n => ?_)
  · exact hs.others t c ht (h₁.context ▸ h₂.context ▸ hc)
  · by_cases hn : n = none
    · exact .inl ⟨.assert, by simp [hn]⟩
    · exact .inr (by simp [hn])

theorem greenCondSignal_after (hs : Saved s) (hpc : s.cpu.pc = .user) (c : ℕ) :
    Ends (greenCondSignal c) s (fun _ s' => After s (.condSignal c) s') (fun _ => True) := by
  simp only [greenCondSignal, sigprocmask, modifyCpu, ends_modify_bind, ends_get_bind]
  split_ifs with hq
  · exact hs.user rfl (fun t c hc _ => hc) (fun _ => rfl) hpc ⟨fun _ => hq, fun _ => rfl⟩
  · exact ends_wake _ _ fun s₁ h₁ => hs.returns hpc hq h₁

theorem greenMutexLock_after (hs : Saved s) (hpc : s.cpu.pc = .user) (m : ℕ) :
    Ends (greenMutexLock m) s (fun _ s' => After s (.lock m) s') (fun _ => True) := by
  have hl : ¬ Leaks s (.lock m) := fun h => h
  simp only [greenMutexLock, sigprocmask, modifyCpu, ends_modify_bind, ends_get_bind]
  split_ifs
  · rw [ends_get_bind]
    refine ends_after hl (suspend_switched hs ?_ _ (.lock m) (by simp) fun n => ?_)
    · rfl
    by_cases hn : n = none
    · exact .inl ⟨.assert, by simp [hn]⟩
    · exact .inr (by simp [hn])
  · exact hs.returns hpc hl ⟨rfl, rfl, rfl⟩

theorem greenMutexUnlock_after (hs : Saved s) (hpc : s.cpu.pc = .user) (m : ℕ) :
    Ends (greenMutexUnlock m) s (fun _ s' => After s (.unlock m) s') (fun _ => True) := by
  have hl : ¬ Leaks s (.unlock m) := fun h => h
  simp only [greenMutexUnlock, sigprocmask, modifyCpu, ends_modify_bind, ends_get_bind]
  split_ifs
  · exact ends_wake _ _ fun s₁ h₁ => hs.returns hpc hl h₁
  · exact hs.returns hpc hl ⟨rfl, rfl, rfl⟩

theorem resume_after (hs : Saved s) (hpc : s.cpu.pc ≠ .user) :
    Ends resume s (fun _ s' => After s .resume s') (fun _ => True) := by
  have hleave : ¬ Leaks s .resume → Ends leave s (fun _ s' => After s .resume s') (fun _ => True) := by
    intro hl
    refine hs.user rfl (fun t c hc _ => hc) (fun h => absurd h hpc) rfl ?_
    exact ⟨fun h => absurd h Bool.false_ne_true, fun h => absurd h hl⟩
  unfold resume
  rw [ends_get_bind]
  split
  · next hst =>
    simp only [greenThread, sigprocmask, modifyCpu, ends_modify_bind, ends_get_bind]
    refine ends_deref fun t _ => ?_
    rw [ends_get_bind]
    split_ifs
    · trivial
    · exact hs.user rfl (fun t c hc _ => hc) (fun h => absurd h hpc) rfl ⟨fun _ => hst, fun _ => rfl⟩
  · next hst => exact hleave (by simp [Leaks, hst])
  · next hst => exact Switched.after (hs.switched (.inl hpc) rfl (by simp)) (by simp [Leaks, hst])
  · next hst => exact greenJoinEnd_after hs (by simp [Leaks, hst]) rfl rfl rfl _ _
  · next hst => exact greenCondWaitEnd_after hs hpc (by simp [Leaks, hst]) _
  · next hst => exact hleave (by simp [Leaks, hst])
  · next hst => exact hleave (by simp [Leaks, hst])
  · next hst => exact absurd hst hpc
  · next hst => exact ends_after (by simp [Leaks, hst]) (epilogue_switched hs hst)

/-- **How each action ends**, if it does not fault. -/
theorem fine_after (hs : Saved s) (hen : enabledFine s.cpu act) :
    Ends (fine act) s (fun _ s' => After s act s') (fun _ => True) := by
  cases act with
  | create new fn arg => exact greenCreate_after hs (hen.resolve_right (by simp)) new fn arg
  | yield => exact ends_after (fun h => h) (greenYield_switched hs none)
  | timer =>
    unfold fine
    rw [ends_get_bind]
    exact ends_after (fun h => h) (greenYield_switched hs _)
  | join t res => exact greenJoin_after hs t res
  | condInit c => exact hs.returns (hen.resolve_right (by simp)) (fun h => h) ⟨rfl, rfl, rfl⟩
  | condWait c m => exact greenCondWait_after hs c m
  | condSignal c => exact greenCondSignal_after hs (hen.resolve_right (by simp)) c
  | mutexInit m => exact hs.returns (hen.resolve_right (by simp)) (fun h => h) ⟨rfl, rfl, rfl⟩
  | lock m => exact greenMutexLock_after hs (hen.resolve_right (by simp)) m
  | unlock m => exact greenMutexUnlock_after hs (hen.resolve_right (by simp)) m
  | ret v =>
    have hthis : s.cpu.this ≠ none := (hen.resolve_right (by simp)).2
    exact Switched.after (hs.switched (.inr hthis) rfl (fun h => nomatch h)) (fun h => h)
  | resume => exact resume_after hs (hen.resolve_right (by simp))

end Code

/-! ### Runs -/

section Runs

variable {s₀ s s' : Sched} {act : Act} {tr : List (Sched × Act)}

theorem FineStep.after (hst : FineStep s act s') (hs : Saved s) : After s act s' := (fine_after hs hst.1).of_eq hst.2.2

theorem Unmasked.iff_not : Unmasked s ↔ ¬ (s.cpu.pc = .user ∧ s.cpu.blocked = true) := by
  simp [Unmasked]

/-- **The timer outside the library.**  It is enabled in every state of a run in which the code of a thread executes
if and only if no step of the run starts a thread or signals a condition that nobody waits for.  At the start
there is no context but that of `main`. -/
theorem mask_run (h0 : s₀.Initial) (hnone : ∀ t, t ≠ mainGreen → s₀.context t = none) (hp : Path FineStep s₀ tr s) :
    (Unmasked s ∧ ∀ x ∈ tr, Unmasked x.1) ↔ ∀ x ∈ tr, ¬ Leaks x.1 x.2 := by
  suffices h : Saved s ∧ ((Unmasked s ∧ ∀ x ∈ tr, Unmasked x.1) ↔ ∀ x ∈ tr, ¬ Leaks x.1 x.2) from h.2
  induction hp with
  | nil =>
    refine ⟨fun t c hc _ => ?_, ?_⟩
    · have ht : t = mainGreen := by
        by_contra hne
        exact absurd (hc.symm.trans (hnone t hne)) (by simp)
      rw [ht, h0.running, h0.cpu]
      exact ⟨rfl, rfl, rfl⟩
    · simp [Unmasked, h0.cpu]
  | @snoc tr t u act _ hst ih =>
    obtain ⟨hs, hiff⟩ := ih
    have ha := hst.after hs
    refine ⟨ha.saved, ?_⟩
    have hlast : Unmasked u ↔ ¬ Leaks t act := Unmasked.iff_not.trans (not_congr ha.mask)
    simp only [List.forall_mem_append, List.forall_mem_singleton, ← hiff, hlast]
    tauto

end Runs

/-- Thread 1 is created by `main`, which yields: it calls its function with the signal blocked. -/
theorem mask_fails : ¬ ∀ (s₀ s : Sched) (tr : List (Sched × Act)), s₀.Initial →
    (∀ t, t ≠ mainGreen → s₀.context t = none) → Path FineStep s₀ tr s → Unmasked s := by
  intro hall
  obtain ⟨tr, s, hp, htest⟩ := exists_path nextFine_step Sched.start [.create 1 1 0, .yield, .resume]
    (fun x => decide (¬ Unmasked x.2)) (by decide)
  exact of_decide_eq_true htest (hall _ s tr Sched.start_initial (fun t ht => if_neg ht) hp)

/-- `main` creates a thread that does not run yet, locks a mutex and initialises a condition. -/
theorem mask_run_main : ∃ tr s, Path FineStep Sched.start tr s ∧ tr.length = 3 ∧ s.core.taken 0 = true ∧
    Unmasked s := by
  obtain ⟨tr, s, hp, htest⟩ := exists_path nextFine_step Sched.start [.create 1 1 0, .lock 0, .condInit 0]
    (fun x => decide (x.1.length = 3 ∧ x.2.core.taken 0 = true ∧ ∀ y ∈ x.1, ¬ Leaks y.1 y.2)) (by decide)
  obtain ⟨hlen, htk, hl⟩ := of_decide_eq_true htest
  exact ⟨tr, s, hp, hlen, htk, ((mask_run Sched.start_initial (fun t ht => if_neg ht) hp).mpr hl).1⟩

end Seminars.Green
