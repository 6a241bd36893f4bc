import Mathlib.Data.List.Perm.Subperm
import Seminars.Lib.RunLogic
import Seminars.Lib.Fifo
import Seminars.Green.Code

/-!
# Seminars.Green.Queue — `enqueue` and `dequeue`

`Threaded created next head queue lost`: the pointers hold the queues `queue`, whose members are threads; a thread
in no queue has a null link, unless it is one of `lost` (which were members of a queue that was cut off).

* `enqueue_spec`, `dequeue_spec`, `Threaded.drop`: what the operations do to the lists.
* `enqueue_some`, `dequeue_some`, `setcontext_some` and so on: one step of each operation.
* `enqueue_run`: the pointer that `enqueue` sets, for one queue whatever the others look like.
* `Frame`, `Switch`: what the operations on queues and `swapcontext` leave alone.
-/

namespace Seminars.Green

open Seminars.Lib

/-- **The pointers hold the queues `queue`.** -/
structure Threaded (created : List Tid) (next : Tid → Option Tid) (head : QRef → Option Tid)
    (queue : QRef → List Tid) (lost : List Tid) : Prop where
  queues : Queues next head queue
  members : ∀ q t, t ∈ queue q → t ∈ created
  idle : ∀ t ∈ created, (∀ q, t ∉ queue q) → t ∉ lost → next t = none

/-- A thread with a null link, in no queue. -/
structure Loose (created : List Tid) (queue : QRef → List Tid) (lost : List Tid) (t : Tid) : Prop where
  created : t ∈ created
  out : ∀ q, t ∉ queue q
  kept : t ∉ lost

section Code

variable {s : Sched} {q : QRef} {t n : Tid} {l : List Tid} {p : Option Tid} {fuel : ℕ} {c : Ctx}

/-! One step of each operation. -/

theorem enqueueLoop_some (h : s.next t = some n) :
    (enqueueLoop p (fuel + 1) t).run s = (enqueueLoop p fuel n).run s := by
  conv_lhs => unfold enqueueLoop
  rw [run_bind_ok rfl, h]

theorem enqueueLoop_none (h : s.next t = none) :
    (enqueueLoop p (fuel + 1) t).run s = .ok ((), { s with next := Function.update s.next t p }) := by
  unfold enqueueLoop
  rw [run_bind_ok rfl, h]
  rfl

theorem enqueue_some (h : s.head q = some t) :
    (enqueue q p).run s = (enqueueLoop p s.core.created.length t).run s := by
  unfold enqueue
  rw [run_bind_ok rfl, h]
  rfl

theorem enqueue_none (h : s.head q = none) :
    (enqueue q p).run s = .ok ((), { s with head := Function.update s.head q p }) := by
  unfold enqueue
  rw [run_bind_ok rfl, h]
  rfl

/-- What `dequeue` does: the queue's pointer and the field of its first member are set. -/
theorem dequeue_some (h : s.head q = some t) :
    (dequeue q).run s = .ok (some t, { s with
      head := Function.update s.head q (s.next t), next := Function.update s.next t none }) := by
  unfold dequeue
  rw [run_bind_ok rfl, h]
  rfl

theorem dequeue_none (h : s.head q = none) : (dequeue q).run s = .ok (none, s) := by
  unfold dequeue
  rw [run_bind_ok rfl, h]
  rfl

theorem setcontext_some (h : s.context t = some c) : (setcontext (some t)).run s = .ok ((), { s with cpu := c }) := by
  unfold setcontext
  rw [run_bind_ok rfl, run_bind_ok rfl, h]
  rfl

theorem setcontext_freed (h : s.context t = none) : (setcontext (some t)).run s = .error .freed := by
  unfold setcontext
  rw [run_bind_ok rfl, run_bind_ok rfl, h]
  rfl

theorem setcontext_null : (setcontext none).run s = .error .null := rfl

/-! A whole call. -/

/-- The loop of `enqueue` stops at the last member. -/
theorem enqueueLoop_spec (hq : IsQueue s.next (some t) (l ++ [n])) (hf : l.length < fuel) :
    (enqueueLoop p fuel t).run s = .ok ((), { s with next := Function.update s.next n p }) := by
  induction l generalizing fuel t with
  | nil =>
    obtain ⟨fuel, rfl⟩ : ∃ f, fuel = f + 1 := ⟨fuel - 1, by simp at hf; omega⟩
    obtain ⟨ht, hn⟩ := hq
    obtain rfl := Option.some.inj ht
    exact enqueueLoop_none hn
  | cons x l ih =>
    obtain ⟨fuel, rfl⟩ : ∃ f, fuel = f + 1 := ⟨fuel - 1, by simp at hf; omega⟩
    obtain ⟨ht, hn⟩ := hq
    obtain rfl := Option.some.inj ht
    obtain ⟨y, hy⟩ : ∃ y, s.next t = some y := by
      cases l with
      | nil => exact ⟨n, hn.1⟩
      | cons y l => exact ⟨y, hn.1⟩
    rw [enqueueLoop_some hy]
    exact ih (hy ▸ hn) (by simpa using hf)

/-- What `enqueue` does: the queue's pointer is set or the field of its last member. -/
theorem enqueue_run (hq : IsQueue s.next (s.head q) l) (hlen : l.length ≤ s.core.created.length) (p : Option Tid) :
    (l = [] ∧ (enqueue q p).run s = .ok ((), { s with head := Function.update s.head q p })) ∨
    ∃ l' z, l = l' ++ [z] ∧ (enqueue q p).run s = .ok ((), { s with next := Function.update s.next z p }) := by
  cases hh : s.head q with
  | none =>
    rw [hh] at hq
    exact .inl ⟨hq.eq_nil, enqueue_none hh⟩
  | some x =>
    rw [hh] at hq
    obtain ⟨l₁, rfl⟩ := hq.exists_cons
    have hsplit := List.dropLast_append_getLast (l := x :: l₁) (by simp)
    refine .inr ⟨_, _, hsplit.symm, ?_⟩
    rw [enqueue_some hh]
    apply enqueueLoop_spec (by rw [hsplit]; exact hq)
    simp only [List.length_dropLast, List.length_cons] at hlen ⊢
    omega

end Code

namespace Threaded

variable {created : List Tid} {next : Tid → Option Tid} {head : QRef → Option Tid} {queue : QRef → List Tid}
  {lost : List Tid} {q : QRef} {t z : Tid} {l : List Tid}

theorem length_le (h : Threaded created next head queue lost) (q : QRef) : (queue q).length ≤ created.length :=
  ((h.queues.each q).nodup.subperm fun t ht => h.members q t ht).length_le

/-- Members before are members after something was appended. -/
theorem mem_push {u : Tid} (hu : ∀ r, u ∉ Function.update queue q (queue q ++ [t]) r) (r : QRef) : u ∉ queue r := by
  intro hr
  by_cases hrq : r = q
  · subst hrq
    exact hu r (by simp [hr])
  · exact hu r (by simpa [hrq] using hr)

theorem members_push (h : Threaded created next head queue lost) (ht : t ∈ created) (r : QRef) (u : Tid)
    (hu : u ∈ Function.update queue q (queue q ++ [t]) r) : u ∈ created := by
  by_cases hr : r = q
  · subst hr
    simp only [Function.update_self, List.mem_append, List.mem_singleton] at hu
    rcases hu with hu | rfl
    · exact h.members r u hu
    · exact ht
  · exact h.members r u (by simpa [hr] using hu)

theorem push_empty (h : Threaded created next head queue lost) (ht : Loose created queue lost t) (hq : queue q = []) :
    Threaded created next (Function.update head q (some t)) (Function.update queue q (queue q ++ [t])) lost :=
  ⟨h.queues.push_empty hq ht.out (h.idle t ht.created ht.out ht.kept), h.members_push ht.created,
    fun u hc hu hl => h.idle u hc (mem_push hu) hl⟩

theorem push_last (h : Threaded created next head queue lost) (ht : Loose created queue lost t)
    (hq : queue q = l ++ [z]) :
    Threaded created (Function.update next z (some t)) head (Function.update queue q (queue q ++ [t])) lost := by
  refine ⟨h.queues.push_last hq ht.out (h.idle t ht.created ht.out ht.kept), h.members_push ht.created,
    fun u hc hu hl => ?_⟩
  have huz : u ≠ z := by
    rintro rfl
    exact mem_push hu q (by simp [hq])
  rw [Function.update_of_ne huz]
  exact h.idle u hc (mem_push hu) hl

theorem pop (h : Threaded created next head queue lost) (hq : queue q = t :: l) :
    Threaded created (Function.update next t none) (Function.update head q (next t)) (Function.update queue q l)
      lost := by
  refine ⟨h.queues.pop hq, fun r u hu => ?_, fun u hc hu hl => ?_⟩
  · by_cases hr : r = q
    · subst hr
      rw [Function.update_self] at hu
      exact h.members r u (by rw [hq]; exact List.mem_cons_of_mem _ hu)
    · exact h.members r u (by simpa [hr] using hu)
  · by_cases hut : u = t
    · simp [hut]
    · rw [Function.update_of_ne hut]
      refine h.idle u hc (fun r hm => hu r ?_) hl
      by_cases hr : r = q
      · subst hr
        rw [hq] at hm
        simpa using (List.mem_cons.mp hm).resolve_left hut
      · simpa [hr] using hm

theorem create {new : Tid} (h : Threaded created next head queue lost) (hn : new ∉ created) :
    Threaded (new :: created) (Function.update next new none) head queue lost := by
  have hq : ∀ q, new ∉ queue q := fun q hm => hn (h.members q new hm)
  refine ⟨⟨fun q => (h.queues.each q).congr fun t ht => Function.update_of_ne ?_ _ _, h.queues.apart⟩,
    fun q t ht => List.mem_cons_of_mem _ (h.members q t ht), fun t ht hl hlost => ?_⟩
  · rintro rfl
    exact hq q ht
  · by_cases htn : t = new
    · simp [htn]
    · rw [Function.update_of_ne htn]
      exact h.idle t ((List.mem_cons.mp ht).resolve_left htn) hl hlost

/-- Clearing the head variable of a queue loses its members. -/
theorem drop (h : Threaded created next head queue lost) (q : QRef) :
    Threaded created next (Function.update head q none) (Function.update queue q []) (queue q ++ lost) := by
  refine ⟨h.queues.drop q, fun r u hu => ?_, fun u hc hu hl => ?_⟩
  · by_cases hr : r = q
    · subst hr
      simp at hu
    · exact h.members r u (by simpa [hr] using hu)
  · simp only [List.mem_append, not_or] at hl
    refine h.idle u hc (fun r hm => ?_) hl.2
    by_cases hr : r = q
    · exact hl.1 (hr ▸ hm)
    · exact hu r (by simpa [hr] using hm)

theorem loose_pop (h : Threaded created next head queue lost) (hq : queue q = t :: l) (hk : t ∉ lost) :
    Loose created (Function.update queue q l) lost t := by
  have ht : t ∈ queue q := by rw [hq]; simp
  refine ⟨h.members q t ht, fun r hr => ?_, hk⟩
  by_cases hrq : r = q
  · subst hrq
    rw [Function.update_self] at hr
    have hnd := (h.queues.each r).nodup
    rw [hq] at hnd
    exact (List.nodup_cons.mp hnd).1 hr
  · rw [Function.update_of_ne hrq] at hr
    exact hrq (h.queues.apart r q t hr ht)

theorem lose (h : Threaded created next head queue lost) (more : List Tid) :
    Threaded created next head queue (more ++ lost) :=
  ⟨h.queues, h.members, fun u hc hu hl => h.idle u hc hu fun hm => hl (List.mem_append_right _ hm)⟩

end Threaded

section Specs

variable {s : Sched} {queue : QRef → List Tid} {lost : List Tid} {q : QRef} {t : Tid} {l : List Tid}

/-- **`enqueue`** puts a thread at the end of a queue. -/
theorem enqueue_spec (h : Threaded s.core.created s.next s.head queue lost) (ht : Loose s.core.created queue lost t) :
    Runs (enqueue q (some t)) s (fun _ s' => ∃ next head, s' = { s with next := next, head := head } ∧
      Threaded s.core.created next head (Function.update queue q (queue q ++ [t])) lost) := by
  rcases enqueue_run (h.queues.each q) (h.length_le q) (some t) with ⟨hq, hr⟩ | ⟨l, z, hq, hr⟩
  · exact ⟨_, _, hr, _, _, rfl, h.push_empty ht hq⟩
  · exact ⟨_, _, hr, _, _, rfl, h.push_last ht hq⟩

theorem enqueue_null (h : Threaded s.core.created s.next s.head queue lost) : (enqueue q none).run s = .ok ((), s) := by
  rcases enqueue_run (h.queues.each q) (h.length_le q) none with ⟨hq, hr⟩ | ⟨l, z, hq, hr⟩
  · rw [hr, ← h.queues.head_of_nil hq, Function.update_eq_self]
  · have hz : s.next z = none := (hq ▸ h.queues.each q).last
    rw [hr, ← hz, Function.update_eq_self]

theorem dequeue_null (h : Threaded s.core.created s.next s.head queue lost) (hq : queue q = []) :
    (dequeue q).run s = .ok (none, s) :=
  dequeue_none (h.queues.head_of_nil hq)

/-- **`dequeue`** takes the first member out. -/
theorem dequeue_spec (h : Threaded s.core.created s.next s.head queue lost) (hq : queue q = t :: l) :
    Runs (dequeue q) s (fun r s' => r = some t ∧ ∃ next head, s' = { s with next := next, head := head } ∧
      Threaded s.core.created next head (Function.update queue q l) lost) :=
  ⟨_, _, dequeue_some (hq ▸ h.queues.each q).1, rfl, _, _, rfl, h.pop hq⟩

end Specs

/-! ### Whatever the queues look like -/

section Frame

variable {s s' : Sched}

/-- What an operation on the queue `q` leaves alone. -/
structure Frame (q : QRef) (s s' : Sched) : Prop where
  core : s'.core = s.core
  running : s'.running = s.running
  context : s'.context = s.context
  cpu : s'.cpu = s.cpu
  head : ∀ q', q' ≠ q → s'.head q' = s.head q'

theorem enqueueLoop_frame {p : Option Tid} (fuel : ℕ) (t : Tid) (s : Sched) :
    Ends (enqueueLoop p fuel t) s (fun _ s' => s'.core = s.core ∧ s'.running = s.running ∧
      s'.context = s.context ∧ s'.cpu = s.cpu ∧ s'.head = s.head ∧ ∀ u, s.next u ≠ none → s'.next u = s.next u)
      (fun _ => True) := by
  induction fuel generalizing t with
  | zero => trivial
  | succ fuel ih =>
    unfold enqueueLoop
    rw [ends_get_bind]
    cases hn : s.next t with
    | some y => exact ih y
    | none =>
      refine ⟨rfl, rfl, rfl, rfl, rfl, fun u hu => Function.update_of_ne ?_ _ _⟩
      rintro rfl
      exact hu hn

theorem enqueue_frame (q : QRef) (p : Option Tid) (s : Sched) :
    Ends (enqueue q p) s (fun _ s' => Frame q s s' ∧ (∀ u, s.next u ≠ none → s'.next u = s.next u) ∧
      (s'.head q = s.head q ∨ s'.head q = p)) (fun _ => True) := by
  unfold enqueue
  rw [ends_get_bind]
  cases hh : s.head q with
  | none =>
    refine ⟨⟨rfl, rfl, rfl, rfl, fun q' hq => ?_⟩, fun _ _ => rfl, .inr (Function.update_self ..)⟩
    exact Function.update_of_ne hq _ _
  | some x =>
    rw [ends_get_bind]
    refine (enqueueLoop_frame _ x s).imp ?_ fun _ => id
    rintro _ s' ⟨h1, h2, h3, h4, h5, h6⟩
    exact ⟨⟨h1, h2, h3, h4, fun q' _ => by rw [h5]⟩, h6, .inl (by rw [h5, hh])⟩

theorem dequeue_frame (q : QRef) (s : Sched) :
    Ends (dequeue q) s (fun o s' => o = s.head q ∧ Frame q s s' ∧ ∀ u, s.head q ≠ some u → s'.next u = s.next u)
      (fun _ => True) := by
  unfold dequeue
  rw [ends_get_bind]
  cases hh : s.head q with
  | none => exact ⟨rfl, ⟨rfl, rfl, rfl, rfl, fun _ _ => rfl⟩, fun _ _ => rfl⟩
  | some t =>
    refine ⟨rfl, ⟨rfl, rfl, rfl, rfl, fun q' hq => ?_⟩, fun u hu => Function.update_of_ne ?_ _ _⟩
    · exact Function.update_of_ne hq _ _
    · rintro rfl
      exact hu rfl

/-- What the switch from `r` to the next thread leaves alone. -/
structure Switch (n : Option Tid) (r : Tid) (s s' : Sched) : Prop where
  next : s'.next = s.next
  head : s'.head = s.head
  core : s'.core = s.core
  running : s'.running = n
  context : ∀ u, u ≠ r → s'.context u = s.context u
  saved : ∃ c, s'.context r = some c ∧ c.owner = s.cpu.owner

theorem switch_frame (n : Option Tid) (r : Tid) (pc : Pc) (s : Sched) :
    Ends (do setRunning n; swapcontext (some r) n pc) s (fun _ s' => Switch n r s s') (fun _ => True) := by
  unfold setRunning
  rw [ends_modify_bind]
  unfold swapcontext
  cases n with
  | none => trivial
  | some n =>
    show Ends (if s.context r = none then _ else _) { s with running := some n } _ _
    split_ifs
    · trivial
    · unfold setcontext
      simp only [setContext, ends_modify_bind, ends_get_bind, deref, pure_bind]
      split
      · exact ⟨rfl, rfl, rfl, rfl, fun u hu => Function.update_of_ne hu _ _, _, Function.update_self .., rfl⟩
      · trivial

end Frame

end Seminars.Green
