import Seminars.Green.Partition

/-!
# Seminars.Green.CondWait — what `green_cond_wait` does with the threads

`Keeps` is what the function should do up to its switch to the next thread: the caller goes to the end of the
condition's list, at most one thread that waits for the mutex goes to the end of the ready queue, the others keep
waiting, and every live thread still is in exactly one place.

* `condWait_frame`: the caller's link is not touched, and `mutex->susp = NULL` empties the mutex's queue.
* `condWait_moves`: with a null link, and nobody to be dropped, the threads move as they should.
* `condWait_keeps_iff`: so the function keeps the threads exactly when at most one waits for the mutex.
-/

namespace Seminars.Green

open Seminars.Lib

/-- The threads that wait for the mutex `m`, if there is one. -/
def waiters (queue : QRef → List Tid) (m : Option ℕ) : List Tid := m.elim [] fun x => queue (.mutex x)

/-- **Every live thread stays in one place**: the caller `r` is put at the end of the list of `c`, `k ≤ 1` threads
are moved from the front of the queue of `m` to the end of the ready queue, whose first member then runs. -/
def Keeps (J : Tid → Tid → Prop) (queue : QRef → List Tid) (r : Tid) (c : ℕ) (m : Option ℕ) (s' : Sched) : Prop :=
  ∃ queue' k n, Partition J s' queue' ∧ k ≤ 1 ∧ queue' (.cond c) = queue (.cond c) ++ [r] ∧
    (∀ x, m = some x → queue' (.mutex x) = (queue (.mutex x)).drop k) ∧
    queue .ready ++ (waiters queue m).take k = n :: queue' .ready ∧ s'.running = some n

/-! ### The caller's link, and the mutex's queue -/

section Frame

variable {s s' : Sched} {r : Tid} {c : ℕ} {m : Option ℕ}

theorem condRelease_frame (hready : s.head .ready ≠ some r) (hmutex : ∀ x, m = some x → s.head (.mutex x) ≠ some r) :
    Ends (condRelease m) s (fun _ s' => s'.running = s.running ∧ s'.head .ready ≠ some r ∧
      (s.next r ≠ none → s'.next r = s.next r) ∧ ∀ x, m = some x → s'.head (.mutex x) = none) (fun _ => True) := by
  cases m with
  | none => exact ⟨rfl, hready, fun _ => rfl, by simp⟩
  | some x =>
    simp only [condRelease, modifyCore, ends_modify_bind]
    rw [ends_bind]
    refine (dequeue_frame _ _).imp ?_ fun _ => id
    rintro o s₁ ⟨ho, hF₁, hn₁⟩
    have hor : o ≠ some r := fun e => hmutex x rfl (ho.symm.trans e)
    have hr₁ : s₁.next r = s.next r := hn₁ r (hmutex x rfl)
    rw [ends_bind]
    refine (enqueue_frame _ _ _).imp ?_ fun _ => id
    rintro _ s₂ ⟨hF₂, hn₂, hh₂⟩
    refine ⟨hF₂.running.trans hF₁.running, ?_, fun hr => ?_, fun y hy => ?_⟩
    · show Function.update s₂.head (.mutex x) none .ready ≠ some r
      rw [Function.update_of_ne (by simp)]
      rcases hh₂ with hh | hh
      · rw [hh, hF₁.head _ (by simp)]
        exact hready
      · rw [hh]
        exact hor
    · exact (hn₂ r (by rw [hr₁]; exact hr)).trans hr₁
    · obtain rfl := Option.some.inj hy
      exact Function.update_self ..

/-- **The caller's link is not touched** if it is not null; the queue of the mutex is empty afterwards. -/
theorem condWait_frame (hready : s.head .ready ≠ some r) (hmutex : ∀ x, m = some x → s.head (.mutex x) ≠ some r)
    (hr : s.running = some r) (hrun : (greenCondWait c m).run s = .ok ((), s')) :
    (s.next r ≠ none → s'.next r = s.next r) ∧ ∀ x, m = some x → s'.head (.mutex x) = none := by
  suffices h : Ends (greenCondWait c m) s (fun _ s' => (s.next r ≠ none → s'.next r = s.next r) ∧
      ∀ x, m = some x → s'.head (.mutex x) = none) (fun _ => True) from h.of_eq hrun
  simp only [greenCondWait, sigprocmask, modifyCpu, ends_modify_bind, ends_get_bind]
  split_ifs
  · trivial
  rw [ends_bind]
  refine (enqueue_frame _ _ _).imp ?_ fun _ => id
  rintro _ s₁ ⟨hF₁, hn₁, -⟩
  rw [ends_bind]
  refine (condRelease_frame (s := s₁) (r := r) ?_ ?_).imp ?_ fun _ => id
  · rw [hF₁.head _ (by simp)]
    exact hready
  · intro x hx
    rw [hF₁.head _ (by simp)]
    exact hmutex x hx
  rintro _ s₂ ⟨-, hready₂, hn₂, hm₂⟩
  rw [ends_bind]
  refine (dequeue_frame _ _).imp ?_ fun _ => id
  rintro n s₃ ⟨-, hF₃, hn₃⟩
  split_ifs
  · trivial
  rw [hr]
  refine (switch_frame _ _ _ _).imp ?_ fun _ => id
  rintro _ s₄ ⟨hnext, hhead, -, -, -, -⟩
  refine ⟨fun h => ?_, fun x hx => ?_⟩
  · have h₁ := hn₁ r h
    rw [hnext, hn₃ r hready₂, hn₂ (by rw [h₁]; exact h), h₁]
  · rw [hhead, hF₃.head _ (by simp), hm₂ x hx]

end Frame

/-! ### The queues -/

section Moves

variable {s s' : Sched} {queue : QRef → List Tid} {lost : List Tid} {r : Tid} {c : ℕ} {m : Option ℕ}

/-- The queues after the mutex was given up, when one thread at most waited for it. -/
theorem condRelease_moves (hT : Threaded s.core.created s.next s.head queue lost) (hw : (waiters queue m).length ≤ 1)
    (hlost : ∀ q t, t ∈ queue q → t ∉ lost) :
    Ends (condRelease m) s (fun _ s' => s'.running = s.running ∧ s'.core.created = s.core.created ∧
      s'.core.zombie = s.core.zombie ∧ ∃ queue', Threaded s.core.created s'.next s'.head queue' lost ∧
        queue' .ready = queue .ready ++ waiters queue m ∧ (∀ x, m = some x → queue' (.mutex x) = []) ∧
        ∀ q, q ≠ .ready → (∀ x, m = some x → q ≠ .mutex x) → queue' q = queue q) (fun _ => True) := by
  cases m with
  | none => exact ⟨rfl, rfl, rfl, queue, hT, by simp [waiters], by simp, fun _ _ _ => rfl⟩
  | some x =>
    simp only [condRelease, modifyCore, ends_modify_bind]
    rw [ends_bind]
    cases hq : queue (.mutex x) with
    | nil =>
      -- a NULL `susp` is enqueued: nothing moves
      refine ends_of_ok (dequeue_null hT hq) ?_
      rw [ends_bind]
      refine ends_of_ok (enqueue_null hT) ⟨rfl, rfl, rfl, queue, ?_, ?_, ?_, fun _ _ _ => rfl⟩
      · have hd := hT.drop (.mutex x)
        rw [hq, ← hq, Function.update_eq_self] at hd
        simpa [hq] using hd
      · simp [waiters, hq]
      · rintro y hy
        obtain rfl := Option.some.inj hy
        exact hq
    | cons t l =>
      -- at most one thread waits, so none is left behind
      obtain rfl : l = [] := by simpa [waiters, hq] using hw
      have hk := hlost (.mutex x) t (by simp [hq])
      refine (dequeue_spec (s := { s with core := s.core.setTaken x false }) hT hq).ends ?_
      rintro _ _ ⟨rfl, nx, hd, rfl, hT₁⟩
      rw [ends_bind]
      refine (enqueue_spec (s := { s with core := s.core.setTaken x false, next := nx, head := hd }) hT₁
        (hT.loose_pop hq hk)).ends ?_
      rintro _ _ ⟨nx', hd', rfl, hT₂⟩
      have hT₃ := hT₂.drop (.mutex x)
      rw [Function.update_of_ne (by simp), Function.update_of_ne (by simp), Function.update_self] at hT₃
      refine ⟨rfl, rfl, rfl, _, hT₃, ?_, ?_, fun q hq' hqx => ?_⟩
      · simp [waiters, hq]
      · rintro y hy
        obtain rfl := Option.some.inj hy
        simp
      · simp [hq', hqx x rfl]

/-- The queues after the step: the caller is `r`, the next thread is `n`. -/
structure Moved (queue queue' : QRef → List Tid) (r n : Tid) (c : ℕ) (m : Option ℕ) : Prop where
  cond : queue' (.cond c) = queue (.cond c) ++ [r]
  mutex : ∀ x, m = some x → queue' (.mutex x) = []
  ready : queue .ready ++ waiters queue m = n :: queue' .ready
  other : ∀ q, q ≠ .ready → q ≠ .cond c → (∀ x, m = some x → q ≠ .mutex x) → queue' q = queue q

/-- **How the threads move** when the caller's link is null and one thread at most waits for the mutex. -/
theorem condWait_moves (hT : Threaded s.core.created s.next s.head queue lost) (hw : (waiters queue m).length ≤ 1)
    (hlost : ∀ q t, t ∈ queue q → t ∉ lost) (hr : s.running = some r) (hloose : Loose s.core.created queue lost r)
    (hrun : (greenCondWait c m).run s = .ok ((), s')) :
    s'.core.created = s.core.created ∧ s'.core.zombie = s.core.zombie ∧
      ∃ queue' n, Queues s'.next s'.head queue' ∧ s'.running = some n ∧ Moved queue queue' r n c m := by
  suffices h : Ends (greenCondWait c m) s (fun _ s' => s'.core.created = s.core.created ∧
      s'.core.zombie = s.core.zombie ∧ ∃ queue' n, Queues s'.next s'.head queue' ∧ s'.running = some n ∧
        Moved queue queue' r n c m) (fun _ => True) from h.of_eq hrun
  -- the caller goes onto the queue of the condition
  have henq := enqueue_spec (s := { s with cpu := { s.cpu with blocked := true } }) (q := .cond c) hT hloose
  rw [← hr] at henq
  simp only [greenCondWait, sigprocmask, modifyCpu, ends_modify_bind, ends_get_bind]
  split_ifs
  · trivial
  rw [ends_bind]
  refine henq.ends ?_
  rintro _ s₁ ⟨nx, hd, rfl, hT₁⟩
  rw [ends_bind]
  have hwait : waiters (Function.update queue (.cond c) (queue (.cond c) ++ [r])) m = waiters queue m := by
    cases m <;> simp [waiters]
  -- the mutex is released, which leaves the queue of the condition alone
  refine (condRelease_moves (s := { s with cpu := { s.cpu with blocked := true }, next := nx, head := hd }) hT₁
    (by rw [hwait]; exact hw) ?_).imp ?_ fun _ => id
  · intro q t ht
    by_cases hq : q = .cond c
    · subst hq
      rw [Function.update_self] at ht
      rcases List.mem_append.mp ht with ht | ht
      · exact hlost _ _ ht
      · obtain rfl := List.mem_singleton.mp ht
        exact hloose.kept
    · rw [Function.update_of_ne hq] at ht
      exact hlost _ _ ht
  rintro _ s₂ ⟨hrun₂, hcr₂, hz₂, queue₂, hT₂, hready, hmutex, hother⟩
  rw [hwait, Function.update_of_ne (by simp)] at hready
  rw [← hcr₂] at hT₂
  rw [ends_bind]
  -- the first of the ready queue is dispatched; with none the switch is a NULL access
  cases hq : queue₂ .ready with
  | nil => exact ends_of_ok (dequeue_null hT₂ hq) (ends_throw.mpr trivial)
  | cons n l =>
    refine (dequeue_spec hT₂ hq).ends ?_
    rintro _ s₃ ⟨rfl, nx', hd', rfl, hT₃⟩
    rw [if_neg (by simp), hr]
    refine (switch_frame _ _ _ _).imp ?_ fun _ => id
    rintro _ s₄ ⟨hnext, hhead, hcore, hrun₄, -, -⟩
    refine ⟨by rw [hcore, hcr₂], by rw [hcore, hz₂], _, n, by rw [hnext, hhead]; exact hT₃.queues, hrun₄, ?_⟩
    refine ⟨?_, fun x hx => ?_, ?_, fun q hq₁ hq₂ hq₃ => ?_⟩
    · rw [Function.update_of_ne (by simp), hother _ (by simp) (by simp), Function.update_self]
    · rw [Function.update_of_ne (by simp), hmutex x hx]
    · rw [Function.update_self, ← hready, hq]
    · rw [Function.update_of_ne hq₁, hother q hq₁ hq₃, Function.update_of_ne hq₂]

end Moves

/-! ### Nobody is lost -/

section Keeps

variable {J : Tid → Tid → Prop} {s s' : Sched} {queue queue' : QRef → List Tid} {r n : Tid} {c : ℕ} {m : Option ℕ}

theorem at_of_unique {t : Tid} {p o : Spot} (h : Partition J s queue) (ht : Live s.core t) (hp : At J s queue t p)
    (ho : At J s queue t o) : o = p := (h.one t ht).unique ho hp

theorem mem_waiters {t : Tid} : t ∈ waiters queue m ↔ ∃ x, m = some x ∧ t ∈ queue (.mutex x) := by
  cases m <;> simp [waiters]

/-- The queues that are put together in the ready queue. -/
def Woken (m : Option ℕ) (q : QRef) : Prop := q = .ready ∨ ∃ x, m = some x ∧ q = .mutex x

theorem mem_woken {t : Tid} : t ∈ queue .ready ++ waiters queue m ↔ ∃ q, Woken m q ∧ t ∈ queue q := by
  rw [List.mem_append, mem_waiters]
  constructor
  · rintro (ht | ⟨x, hx, ht⟩)
    · exact ⟨.ready, .inl rfl, ht⟩
    · exact ⟨.mutex x, .inr ⟨x, hx, rfl⟩, ht⟩
  · rintro ⟨q, rfl | ⟨x, hx, rfl⟩, ht⟩
    · exact .inl ht
    · exact .inr ⟨x, hx, ht⟩

theorem nodup_woken (h : Queues s.next s.head queue) : (queue .ready ++ waiters queue m).Nodup := by
  cases m with
  | none => simpa [waiters] using (h.each .ready).nodup
  | some x =>
    refine List.nodup_append.mpr ⟨(h.each .ready).nodup, (h.each (.mutex x)).nodup, fun t ht u hu e => ?_⟩
    exact absurd (h.apart _ _ t ht (e ▸ hu)) (by simp)

/-- The members of the queues after the threads have moved. -/
theorem Moved.mem_iff (h : Queues s.next s.head queue) (hm : Moved queue queue' r n c m) {t : Tid} {q : QRef} :
    t ∈ queue' q ↔ (q = .cond c ∧ t = r) ∨ (q = .ready ∧ t ≠ n ∧ ∃ q', Woken m q' ∧ t ∈ queue q') ∨
      (¬ Woken m q ∧ t ∈ queue q) := by
  by_cases hq : q = .ready
  · subst hq
    have hnd := nodup_woken (m := m) h
    rw [hm.ready] at hnd
    obtain ⟨hn, -⟩ := List.nodup_cons.mp hnd
    rw [← mem_woken, hm.ready]
    constructor
    · intro ht
      exact .inr (.inl ⟨rfl, fun e => hn (e ▸ ht), List.mem_cons_of_mem _ ht⟩)
    · rintro (⟨hc, -⟩ | ⟨-, hne, ht⟩ | ⟨hw, -⟩)
      · exact absurd hc (by simp)
      · exact (List.mem_cons.mp ht).resolve_left hne
      · exact absurd (.inl rfl) hw
  · by_cases hc : q = .cond c
    · subst hc
      have hw : ¬ Woken m (.cond c) := by simp [Woken]
      simp [hm.cond, hw, or_comm]
    · by_cases hx : ∃ x, m = some x ∧ q = .mutex x
      · obtain ⟨x, hmx, rfl⟩ := hx
        have hw : Woken m (.mutex x) := .inr ⟨x, hmx, rfl⟩
        simp [hm.mutex x hmx, hw]
      · have hw : ¬ Woken m q := fun hw => hw.elim hq hx
        rw [hm.other q hq hc fun x hmx e => hx ⟨x, hmx, e⟩]
        simp [hq, hc, hw]

theorem Moved.at_iff (h : Partition J s queue) (hr : s.running = some r) (hm : Moved queue queue' r n c m)
    (hn : s'.running = some n) {t : Tid} (ht : Live s.core t) {p : Spot} (hp : At J s queue t p) :
    ∃ p', ∀ x, At J s' queue' t x ↔ x = p' := by
  have hat : ∀ x, At J s queue t x ↔ x = p := fun x => ⟨fun hx => at_of_unique h ht hp hx, fun e => e ▸ hp⟩
  have hmem : ∀ q, t ∈ queue q ↔ p = .queue q := fun q => (hat (.queue q)).trans eq_comm
  have hrun : t = r ↔ p = .running := by
    rw [← eq_comm (a := Spot.running), ← hat, At, hr, Option.some.injEq, eq_comm]
  have hrun' : s'.running = some t ↔ t = n := by rw [hn, Option.some.injEq, eq_comm]
  have hmem' : ∀ q, t ∈ queue' q ↔ (q = .cond c ∧ p = .running) ∨
      (q = .ready ∧ t ≠ n ∧ ∃ q', Woken m q' ∧ p = .queue q') ∨ (¬ Woken m q ∧ p = .queue q) := by
    intro q
    rw [hm.mem_iff h.queues, hrun]
    simp only [hmem]
  have hnw : t = n → ∃ q', Woken m q' ∧ p = .queue q' := by
    rintro rfl
    have hw : t ∈ queue .ready ++ waiters queue m := by rw [hm.ready]; simp
    simpa only [hmem] using mem_woken.mp hw
  have hjoin : ∀ u, J u t ↔ p = .join u := fun u => (hat (.join u)).trans eq_comm
  -- a thread moves if it ran or was in one of the queues that are woken, else it stays
  cases p with
  | running =>
    have htn : t ≠ n := fun e => by simpa using hnw e
    refine ⟨.queue (.cond c), fun x => ?_⟩
    cases x <;> simp [At, hrun', hmem', hjoin, htn]
  | join u =>
    have htn : t ≠ n := fun e => by simpa using hnw e
    refine ⟨.join u, fun x => ?_⟩
    cases x <;> simp [At, hrun', hmem', hjoin, htn, eq_comm]
  | queue q =>
    have hsame : ∀ {q'}, Spot.queue q = .queue q' → q = q' := Spot.queue.inj
    have hsame' : ∀ {q' q'' : QRef}, Spot.queue q' = .queue q'' → q' = q'' := Spot.queue.inj
    by_cases hw : Woken m q
    · by_cases htn : t = n
      · refine ⟨.running, fun x => ?_⟩
        cases x with
        | running => exact iff_of_true (hrun'.mpr htn) rfl
        | queue q' =>
          refine iff_of_false (fun hq => ?_) (by simp)
          rcases (hmem' q').mp hq with ⟨-, hp⟩ | ⟨-, hne, -⟩ | ⟨hw', hp⟩
          · exact absurd hp (by simp)
          · exact hne htn
          · exact hw' (hsame hp ▸ hw)
        | join u => simp [At, hjoin]
      · refine ⟨.queue .ready, fun x => ?_⟩
        cases x with
        | running => simp [At, hrun', htn]
        | queue q' =>
          refine (hmem' q').trans ⟨?_, fun e => .inr (.inl ⟨hsame' e, htn, q, hw, rfl⟩)⟩
          rintro (⟨-, hp⟩ | ⟨rfl, -⟩ | ⟨hw', hp⟩)
          · exact absurd hp (by simp)
          · rfl
          · exact absurd (hsame hp ▸ hw) hw'
        | join u => simp [At, hjoin]
    · have htn : t ≠ n := by
        intro e
        obtain ⟨q', hw', hq'⟩ := hnw e
        exact hw (hsame hq' ▸ hw')
      refine ⟨.queue q, fun x => ?_⟩
      cases x with
      | running => simp [At, hrun', htn]
      | queue q' =>
        refine (hmem' q').trans ⟨?_, fun e => ?_⟩
        · rintro (⟨-, hp⟩ | ⟨-, -, q'', hw', hp⟩ | ⟨-, hp⟩)
          · exact absurd hp (by simp)
          · exact absurd (hsame hp ▸ hw') hw
          · exact hp.symm
        · obtain rfl := hsame e.symm
          exact .inr (.inr ⟨hw, rfl⟩)
      | join u => simp [At, hjoin]

/-- **The threads are kept** when the caller's link is null and one thread at most waits for the mutex. -/
theorem condWait_keeps (h : Partition J s queue) (hr : s.running = some r) (hl : Live s.core r)
    (hrun : (greenCondWait c m).run s = .ok ((), s')) (hnext : s.next r = none) (hw : (waiters queue m).length ≤ 1) :
    Keeps J queue r c m s' := by
  classical
  have hout : ∀ q, r ∉ queue q := fun q hq =>
    absurd (at_of_unique h hl (p := .running) hr (o := .queue q) hq) (by simp)
  -- every other thread outside the queues may have any link
  have hT : Threaded s.core.created s.next s.head queue
      (s.core.created.filter fun t => t ≠ r ∧ ∀ q, t ∉ queue q) := by
    refine ⟨h.queues, h.created, fun t ht hq hlost => ?_⟩
    have htr : t = r := by
      by_contra htr
      exact hlost (List.mem_filter.mpr ⟨ht, by simpa using ⟨htr, hq⟩⟩)
    rw [htr, hnext]
  obtain ⟨hcr, hz, queue', n, hQ, hn, hm⟩ := condWait_moves hT hw
    (fun q t ht hlost => (by simpa using (List.mem_filter.mp hlost).2 : t ≠ r ∧ ∀ q, t ∉ queue q).2 q ht) hr
    ⟨hl.1, hout, fun hlost => by simpa using (List.mem_filter.mp hlost).2⟩ hrun
  have hlive : ∀ t, Live s'.core t ↔ Live s.core t := fun t => by rw [Live, hcr, hz, Live]
  refine ⟨queue', 1, n, ⟨hQ, fun q t ht => ?_, fun t ht => ?_⟩, Nat.le_refl 1, hm.cond, fun x hx => ?_, ?_, hn⟩
  · rw [hcr]
    rcases (hm.mem_iff h.queues).mp ht with ⟨-, rfl⟩ | ⟨-, -, q', -, ht⟩ | ⟨-, ht⟩
    · exact hl.1
    · exact h.created q' t ht
    · exact h.created q t ht
  · have ht := (hlive t).mp ht
    obtain ⟨p, hp, -⟩ := h.one t ht
    obtain ⟨p', hp'⟩ := hm.at_iff h hr hn ht hp
    exact ⟨p', (hp' p').mpr rfl, fun x hx => (hp' x).mp hx⟩
  · rw [hm.mutex x hx]
    subst hx
    exact (List.drop_eq_nil_of_le hw).symm
  · rw [List.take_of_length_le hw]
    exact hm.ready

/-- **Otherwise they are not.** -/
theorem keeps_short (h : Partition J s queue) (hr : s.running = some r) (hl : Live s.core r)
    (hrun : (greenCondWait c m).run s = .ok ((), s')) (hk : Keeps J queue r c m s') :
    s.next r = none ∧ (waiters queue m).length ≤ 1 := by
  have hout : ∀ q, s.head q ≠ some r := by
    intro q hq
    obtain ⟨l, hl'⟩ := h.queues.head_some hq
    exact absurd (at_of_unique h hl (p := .running) hr (o := .queue q) (by simp [At, hl'])) (by simp)
  obtain ⟨hnext, hmutex⟩ := condWait_frame (hout _) (fun x _ => hout _) hr hrun
  obtain ⟨queue', k, n, hP, hk, hcond, hdrop, -⟩ := hk
  constructor
  · by_contra hne
    have hq := hP.queues.each (.cond c)
    rw [hcond] at hq
    exact hne (hnext hne ▸ hq.last)
  · cases m with
    | none => simp [waiters]
    | some x =>
      have hnil := hP.queues.head_none (hmutex x rfl)
      rw [hdrop x rfl] at hnil
      exact Nat.le_trans (List.drop_eq_nil_iff.mp hnil) hk

/-- **`green_cond_wait` loses nobody if and only if** the caller's link is null and at most one thread waits for the
mutex: `mutex->susp = NULL` cuts off the others.  `J` are the joins that wait. -/
theorem condWait_keeps_iff (J : Tid → Tid → Prop) (queue : QRef → List Tid) (h : Partition J s queue)
    (hr : s.running = some r) (hl : Live s.core r) (hrun : (greenCondWait c m).run s = .ok ((), s')) :
    Keeps J queue r c m s' ↔ s.next r = none ∧ (waiters queue m).length ≤ 1 :=
  ⟨keeps_short h hr hl hrun, fun ⟨hnext, hw⟩ => condWait_keeps h hr hl hrun hnext hw⟩

end Keeps

/-! ### A state that can be reached -/

/-- `main` is about to wait, and the threads `l` wait for mutex 0. -/
def Waiting (l : List Tid) (x : List (Sched × Act) × Sched) : Prop :=
  (∀ y ∈ x.1, Plain y.2) ∧ JoinedByOne x.1 ∧ x.2.running = some mainGreen ∧ Live x.2.core mainGreen ∧
    x.2.next mainGreen = none ∧ IsQueue x.2.next (x.2.head (.mutex 0)) l ∧
    ((greenCondWait 0 (some 0)).run x.2).isOk = true

instance (l : List Tid) : DecidablePred (Waiting l) := fun _ => inferInstanceAs (Decidable (_ ∧ _))

/-- Such a state, when it is reached, is partitioned, and the call returns from its switch. -/
theorem exists_waiting (acts : List Act) (l : List Tid)
    (h : (play next Sched.start acts).any (fun x => decide (Waiting l x)) = true) :
    ∃ s s' queue, Partition (Joins s.core) s queue ∧ s.running = some mainGreen ∧ Live s.core mainGreen ∧
      s.next mainGreen = none ∧ queue (.mutex 0) = l ∧ (greenCondWait 0 (some 0)).run s = .ok ((), s') := by
  obtain ⟨tr, s, hp, htest⟩ := exists_path next_step Sched.start acts _ h
  obtain ⟨hplain, hj, hr, hl, hnext, hq, hok⟩ := of_decide_eq_true htest
  obtain ⟨a, ha, hlost, -⟩ := run_lost Sched.start_initial hp hplain hj
  have hP := ha.partition hlost
  cases hrun : (greenCondWait 0 (some 0)).run s with
  | error e => rw [hrun] at hok; exact absurd hok (by simp [Except.isOk, Except.toBool])
  | ok x => exact ⟨s, x.2, a.queue, hP, hr, hl, hnext, (hP.queues.each _).unique hq, hrun⟩

/-- Two threads wait for the mutex of `main`; the second is lost when `main` waits for a condition. -/
theorem condWait_loses : ¬ ∀ (J : Tid → Tid → Prop) (s s' : Sched) (queue : QRef → List Tid) (r : Tid) (c : ℕ)
    (m : Option ℕ), Partition J s queue → s.running = some r → Live s.core r →
      (greenCondWait c m).run s = .ok ((), s') → Keeps J queue r c m s' := by
  intro hall
  obtain ⟨s, s', queue, hP, hr, hl, -, hq, hrun⟩ := exists_waiting
    [.create 1 1 0, .create 2 1 0, .lock 0, .yield, .resume, .lock 0, .resume, .lock 0, .resume] [1, 2] (by decide)
  have hshort := (keeps_short hP hr hl hrun (hall _ _ _ _ _ _ _ hP hr hl hrun)).2
  simp [waiters, hq] at hshort

/-- With one thread waiting nobody is lost. -/
theorem condWait_keeps_one : ∃ s s' queue, queue (.mutex 0) = [1] ∧ (greenCondWait 0 (some 0)).run s = .ok ((), s') ∧
    Keeps (Joins s.core) queue mainGreen 0 (some 0) s' := by
  obtain ⟨s, s', queue, hP, hr, hl, hnext, hq, hrun⟩ := exists_waiting
    [.create 1 1 0, .lock 0, .yield, .resume, .lock 0, .resume] [1] (by decide)
  refine ⟨s, s', queue, hq, hrun, (condWait_keeps_iff _ queue hP hr hl hrun).mpr ⟨hnext, ?_⟩⟩
  simp [waiters, hq]

end Seminars.Green
