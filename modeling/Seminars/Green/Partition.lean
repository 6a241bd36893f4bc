import Seminars.Green.Change
import Seminars.Green.Run

/-!
# Seminars.Green.Partition — every live thread is in exactly one place

`Partition J s queue`: the queues of `s` are the lists `queue`, and every live thread is running, in one queue, or
suspended in `green_join`, and only one of these.  `J u t` says that `t` is suspended until `u` ends; `Joins` reads
it off the `join` fields.

* `Refines.partition`: a state that refines to a scheduler without lost threads is partitioned.
* `partition_run`: so is every state of a run in which no mutex is given up in `green_cond_wait` and no thread is
  joined by two.
-/

namespace Seminars.Green

open Seminars.Lib

/-- The places where a live thread can be. -/
inductive Spot
  | running
  | queue (q : QRef)
  | join (u : Tid)
  deriving DecidableEq, Repr

/-- `t` is the thread in the `join` field of `u`, which has not ended. -/
def Joins (k : Core) (u t : Tid) : Prop := Live k u ∧ k.join u = some t

/-- `t` is at the place `p`, when the queues are `queue` and `J` are the joins that wait. -/
def At (J : Tid → Tid → Prop) (s : Sched) (queue : QRef → List Tid) (t : Tid) : Spot → Prop
  | .running => s.running = some t
  | .queue q => t ∈ queue q
  | .join u => J u t

/-- **Every live thread is in exactly one place**, and the pointers hold the queues. -/
structure Partition (J : Tid → Tid → Prop) (s : Sched) (queue : QRef → List Tid) : Prop where
  queues : Queues s.next s.head queue
  created : ∀ q t, t ∈ queue q → t ∈ s.core.created
  one : ∀ t, Live s.core t → ∃! p, At J s queue t p

section Step

variable {a a' : Abs} {act : Act}

/-- Who waits in a `join` field was there before or has just called `green_join`. -/
theorem AStep.joins (hst : AStep a act a') {u j : Tid} (h : Joins a'.core u j) :
    Joins a.core u j ∨ ∃ res, act = .join u res ∧ j = a.run := by
  have hcollect : ∀ t res, Joins (a.collect t res).core u j → Joins a.core u j := fun t res h =>
    ⟨live_collect.mp h.1, by rw [← a.collect_join t res]; exact h.2⟩
  rw [hst.core] at h
  cases act with
  | create new fn arg =>
    obtain ⟨hl, hj⟩ := h
    have hu : u ≠ new := by
      rintro rfl
      simp [Abs.coreAfter, Core.init] at hj
    refine .inl ⟨(Good.live_spawn.mp (show Live (a.spawn new fn arg).core u from hl)).resolve_left hu, ?_⟩
    simpa [Abs.coreAfter, Core.init, hu] using hj
  | join t res =>
    simp only [Abs.coreAfter] at h
    split_ifs at h with hz
    · obtain ⟨hl, hj⟩ := h
      by_cases hu : u = t
      · subst hu
        exact .inr ⟨res, rfl, by simpa [Core.setJoin, eq_comm] using hj⟩
      · exact .inl ⟨hl, by simpa [Core.setJoin, hu] using hj⟩
    · exact .inl (hcollect t res h)
  | condWait c m => cases m <;> exact .inl h
  | lock m | unlock m =>
    simp only [Abs.coreAfter] at h
    split_ifs at h <;> exact .inl h
  | ret v => exact .inl ⟨(Good.live_bury.mp h.1).1, h.2⟩
  | resume =>
    simp only [Abs.coreAfter] at h
    split at h
    · exact .inl (hcollect _ _ h)
    · split_ifs at h <;> exact .inl h
    · exact .inl h
  | _ => exact .inl h

/-- The operations without initialisers, and without a mutex in `green_cond_wait`. -/
def Plain : Act → Prop
  | .condInit _ => False
  | .mutexInit _ => False
  | .condWait _ m => m = none
  | _ => True

instance : DecidablePred Plain
  | .condInit _ | .mutexInit _ => inferInstanceAs (Decidable False)
  | .condWait _ m => inferInstanceAs (Decidable (m = none))
  | .create _ _ _ | .yield | .join _ _ | .condSignal _ | .lock _ | .unlock _ | .ret _ | .timer | .resume =>
    inferInstanceAs (Decidable True)

/-- Such an operation loses nobody, if the thread joined has no joiner yet. -/
theorem Plain.spares (hp : Plain act)
    (hj : ∀ u res, act = .join u res → a.core.zombie u = false → a.core.join u = none) :
    Spares a act := by
  cases act with
  | join t res => exact hj t res rfl
  | condInit c => exact hp.elim
  | mutexInit m => exact hp.elim
  | condWait c m =>
    obtain rfl : m = none := hp
    trivial
  | _ => trivial

end Step

section Runs

variable {s s₀ : Sched} {a : Abs} {tr : List (Sched × Act)}

theorem at_iff (h : Refines s a) {t : Tid} {p : Spot} : At (Joins s.core) s a.queue t p ↔
    (p = .running ∧ t = a.run) ∨ (∃ q, p = .queue q ∧ Placed a t (.queue q)) ∨
      ∃ u, p = .join u ∧ Placed a t (.join u) := by
  cases p with
  | running => simp [At, h.loaded.1.running, eq_comm]
  | queue q => simp [At, Placed]
  | join u => simp [At, Placed, Joins, h.loaded.1.core]

/-- **No thread is lost, so every live thread is in exactly one place.** -/
theorem Refines.partition (h : Refines s a) (hlost : a.lost = []) : Partition (Joins s.core) s a.queue := by
  have hcore := h.loaded.1.core
  have hg := h.inv.good
  refine ⟨h.loaded.1.threads.queues, fun q t ht => hcore ▸ h.loaded.1.threads.members q t ht, fun t ht => ?_⟩
  have hrun : ∀ {p}, Placed a t p → t ≠ a.run := fun hp e => h.inv.not_placed _ (e ▸ hp)
  rcases hg.total t (hcore ▸ ht) with hr | ⟨p, hp⟩
  · obtain rfl := List.mem_singleton.mp hr
    refine ⟨.running, (at_iff h).mpr (.inl ⟨rfl, rfl⟩), fun p' hp' => ?_⟩
    rcases (at_iff h).mp hp' with ⟨rfl, -⟩ | ⟨q, -, hq⟩ | ⟨u, -, hu⟩
    · rfl
    · exact absurd rfl (hrun hq)
    · exact absurd rfl (hrun hu)
  · obtain ⟨p₁, hp₁, hat⟩ : ∃ p₁, At (Joins s.core) s a.queue t p₁ ∧
        (∀ q, Placed a t (.queue q) → p₁ = .queue q) ∧ ∀ u, Placed a t (.join u) → p₁ = .join u := by
      cases p with
      | queue q =>
        refine ⟨.queue q, (at_iff h).mpr (.inr (.inl ⟨q, rfl, hp⟩)), fun q' hq' => ?_, fun u hu => ?_⟩
        · rw [Place.queue.inj (hg.one t _ _ hp hq')]
        · exact absurd (hg.one t _ _ hp hu) (by simp)
      | join u =>
        refine ⟨.join u, (at_iff h).mpr (.inr (.inr ⟨u, rfl, hp⟩)), fun q hq => ?_, fun u' hu' => ?_⟩
        · exact absurd (hg.one t _ _ hp hq) (by simp)
        · rw [Place.join.inj (hg.one t _ _ hp hu')]
      | lost => exact absurd hp (by simp [Placed, hlost])
    refine ⟨p₁, hp₁, fun p' hp' => ?_⟩
    rcases (at_iff h).mp hp' with ⟨-, e⟩ | ⟨q, rfl, hq⟩ | ⟨u, rfl, hu⟩
    · exact absurd e (hrun hp)
    · exact (hat.1 q hq).symm
    · exact (hat.2 u hu).symm

/-- The thread a call of `green_join` waits for. -/
def Act.joined : Act → Option Tid
  | .join t _ => some t
  | _ => none

/-- No thread is joined by two. -/
def JoinedByOne (tr : List (Sched × Act)) : Prop :=
  ∀ x ∈ tr, ∀ y ∈ tr, x.2.joined ≠ none → x.2.joined = y.2.joined → x.1.running = y.1.running

instance : DecidablePred JoinedByOne := fun tr =>
  inferInstanceAs (Decidable (∀ x ∈ tr, ∀ y ∈ tr, x.2.joined ≠ none → x.2.joined = y.2.joined →
    x.1.running = y.1.running))

/-- Along a run, whoever is in a `join` field called `green_join`, so nobody is pushed out of it. -/
theorem run_lost (h0 : s₀.Initial) (hp : Path Step s₀ tr s) (hplain : ∀ x ∈ tr, Plain x.2) (hj : JoinedByOne tr) :
    ∃ a, Refines s a ∧ a.lost = [] ∧
      ∀ u j, Joins a.core u j → ∃ x ∈ tr, x.2.joined = some u ∧ x.1.running = some j := by
  induction hp with
  | nil =>
    refine ⟨_, initial_refines h0, rfl, fun u j hu => ?_⟩
    obtain ⟨⟨hc, -⟩, hjo⟩ := hu
    obtain rfl : u = mainGreen := by simpa [Sched.abs, h0.created] using hc
    exact absurd (h0.join.symm.trans hjo) (by simp)
  | @snoc tr t u act hp hst ih =>
    obtain ⟨a, ha, hlost, hjoin⟩ := ih (fun x hx => hplain x (by simp [hx]))
      fun x hx y hy => hj x (by simp [hx]) y (by simp [hy])
    obtain ⟨a', hst', ha'⟩ := step_refines ha hst
    have hfree : ∀ u res, act = .join u res → a.core.zombie u = false → a.core.join u = none := by
      rintro u res rfl hz
      have hc : u ∈ a.core.created := ha.loaded.1.core ▸ hst.2.1
      cases hju : a.core.join u with
      | none => rfl
      | some j =>
        obtain ⟨x, hx, hxu, hxj⟩ := hjoin u j ⟨⟨hc, hz⟩, hju⟩
        have hsame := hj x (by simp [hx]) (t, .join u res) (by simp) (by simp [hxu]) hxu
        rw [hxj, ha.loaded.1.running] at hsame
        obtain rfl := Option.some.inj hsame
        have hpl : Placed a a.run (.join u) := ⟨⟨hc, hz⟩, hju⟩
        exact absurd hpl (ha.inv.not_placed _)
    refine ⟨a', ha', (hst'.lost ((hplain (t, act) (by simp)).spares hfree)).trans hlost, fun v j hv => ?_⟩
    rcases hst'.joins hv with hv | ⟨res, rfl, rfl⟩
    · obtain ⟨x, hx, h1, h2⟩ := hjoin v j hv
      exact ⟨x, by simp [hx], h1, h2⟩
    · exact ⟨(t, .join v res), by simp, rfl, ha.loaded.1.running⟩

/-- **The scheduler's partition.**  In every state of such a run each live thread is in exactly one place; the
queues end, pass nobody twice and hold no ended thread; a thread in no queue has a null link. -/
theorem partition_run (h0 : s₀.Initial) (hp : Path Step s₀ tr s) (hplain : ∀ x ∈ tr, Plain x.2)
    (hj : JoinedByOne tr) :
    ∃ queue : QRef → List Tid,
      (∀ q, IsQueue s.next (s.head q) (queue q) ∧ (queue q).Nodup) ∧
      (∀ t, Live s.core t → ∃! p, At (Joins s.core) s queue t p) ∧
      (∀ t, Ended s.core t → ∀ q, t ∉ queue q) ∧
      ∀ t ∈ s.core.created, (∀ q, t ∉ queue q) → s.next t = none := by
  obtain ⟨a, ha, hlost, -⟩ := run_lost h0 hp hplain hj
  have hpart := ha.partition hlost
  have hcore := ha.loaded.1.core
  refine ⟨a.queue, fun q => ⟨hpart.queues.each q, (hpart.queues.each q).nodup⟩, hpart.one, fun t ht q hq => ?_,
    fun t ht hq => ha.loaded.1.threads.idle t (hcore ▸ ht) hq (by simp [hlost])⟩
  have hlive := ha.inv.good.placed t (.queue q) hq
  rw [← hcore, Live, ht.2] at hlive
  cases hlive.2

/-- Two threads that lock a mutex, are interrupted, wait for a condition and end; `main` joins the first. -/
theorem partition_run_three : ∃ tr s, Path Step Sched.start tr s ∧ tr.length = 17 ∧
    ∃ queue : QRef → List Tid,
      (∀ q, IsQueue s.next (s.head q) (queue q) ∧ (queue q).Nodup) ∧
      (∀ t, Live s.core t → ∃! p, At (Joins s.core) s queue t p) ∧
      (∀ t, Ended s.core t → ∀ q, t ∉ queue q) ∧
      ∀ t ∈ s.core.created, (∀ q, t ∉ queue q) → s.next t = none := by
  obtain ⟨tr, s, hp, htest⟩ := exists_path next_step Sched.start
    [.create 1 1 0, .create 2 1 0, .join 1 (some 0), .resume, .lock 0, .timer, .resume, .lock 0, .resume, .unlock 0,
      .condWait 0 none, .resume, .condSignal 0, .ret 5, .resume, .ret 7, .resume]
    (fun x => decide (x.1.length = 17 ∧ (∀ y ∈ x.1, Plain y.2) ∧ JoinedByOne x.1)) (by decide)
  obtain ⟨hlen, hplain, hj⟩ := of_decide_eq_true htest
  exact ⟨tr, s, hp, hlen, partition_run Sched.start_initial hp hplain hj⟩

end Runs

end Seminars.Green
