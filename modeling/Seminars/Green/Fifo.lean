import Seminars.Lib.Path
import Seminars.Green.Queue

/-!
# Seminars.Green.Fifo — `enqueue` and `dequeue` are first in, first out

All queues run through the one field `next`, and `enqueue` does not clear it.  `fifo_run` compares any sequence of
calls with lists, one for each head variable: `QOp.code` is a call, `QOp.fifo` what it does to the lists.

* `Fifo s queue`: the pointers hold the lists; a thread in no queue has a null link.
* `Fifo.step`: a call the program may make keeps that, and returns what the lists say.
-/

namespace Seminars.Green

open Seminars.Lib

/-- The calls. -/
inductive QOp
  | enqueue (q : QRef) (t : Option Tid)
  | dequeue (q : QRef)
  deriving DecidableEq, Repr

namespace QOp

/-- The queue the call is about. -/
def list : QOp → QRef
  | enqueue q _ => q
  | dequeue q => q

/-- The call; `enqueue` returns nothing. -/
def code : QOp → M (Option Tid)
  | enqueue q t => do
    Green.enqueue q t
    return none
  | dequeue q => Green.dequeue q

/-- What the call does to the lists. -/
def fifo (queue : QRef → List Tid) : QOp → Option Tid × (QRef → List Tid)
  | enqueue q (some t) => (none, Function.update queue q (queue q ++ [t]))
  | enqueue _ none => (none, queue)
  | dequeue q => ((queue q).head?, Function.update queue q (queue q).tail)

/-- A thread is put into a queue while it is in none. -/
def Allowed (s : Sched) : QOp → Prop
  | enqueue _ (some t) => t ∈ s.core.created ∧ ∀ q l, IsQueue s.next (s.head q) l → t ∉ l
  | _ => True

theorem fifo_other (queue : QRef → List Tid) (op : QOp) {q : QRef} (hq : q ≠ op.list) :
    (op.fifo queue).2 q = queue q := by
  cases op with
  | enqueue r t =>
    cases t with
    | some t => exact Function.update_of_ne hq _ _
    | none => rfl
  | dequeue r => exact Function.update_of_ne hq _ _

end QOp

/-- One call. -/
def QStep (s : Sched) (op : QOp) (s' : Sched) : Prop := op.Allowed s ∧ ∃ r, op.code.run s = .ok (r, s')

/-- The lists after a call. -/
abbrev fifoNext (_ : Sched) (op : QOp) (_ : Sched) (queue : QRef → List Tid) : QRef → List Tid := (op.fifo queue).2

/-- The pointers hold the lists. -/
abbrev Fifo (s : Sched) (queue : QRef → List Tid) : Prop := Threaded s.core.created s.next s.head queue []

section Step

variable {s s' : Sched} {queue : QRef → List Tid} {op : QOp}

theorem fifo_start (hnext : ∀ t ∈ s.core.created, s.next t = none) (hhead : ∀ q, s.head q = none) :
    Fifo s fun _ => [] :=
  ⟨⟨hhead, fun _ _ t ht => absurd ht (by simp)⟩, fun _ t ht => absurd ht (by simp), fun t ht _ _ => hnext t ht⟩

/-- **The step lemma**: a call returns what the lists say, and the lists stay those of the pointers. -/
theorem Fifo.step (h : Fifo s queue) (ha : op.Allowed s) : Runs op.code s (fun r s' =>
    r = (op.fifo queue).1 ∧ Fifo s' (op.fifo queue).2) := by
  cases op with
  | enqueue q t =>
    cases t with
    | some t =>
      obtain ⟨hc, hout⟩ := ha
      have hloose : Loose s.core.created queue [] t := ⟨hc, fun r => hout r _ (h.queues.each r), by simp⟩
      refine runs_bind (Runs.imp ?_ (enqueue_spec (q := q) h hloose))
      rintro - _ ⟨next, head, rfl, h'⟩
      exact runs_pure ⟨rfl, h'⟩
    | none => exact ⟨none, s, run_bind_ok (enqueue_null h), rfl, h⟩
  | dequeue q =>
    cases hq : queue q with
    | nil =>
      refine ⟨none, s, dequeue_null h hq, by simp [QOp.fifo, hq], ?_⟩
      rw [QOp.fifo, hq, List.tail_nil, ← hq, Function.update_eq_self]
      exact h
    | cons t l =>
      refine Runs.imp ?_ (dequeue_spec h hq)
      rintro _ _ ⟨rfl, next, head, rfl, h'⟩
      refine ⟨by simp [QOp.fifo, hq], ?_⟩
      rw [QOp.fifo, hq, List.tail_cons]
      exact h'

theorem Fifo.exists_enqueue (h : Fifo s queue) {t : Tid} (hc : t ∈ s.core.created) (hout : ∀ q, t ∉ queue q)
    (q : QRef) : ∃ s', QStep s (.enqueue q (some t)) s' ∧ s'.core = s.core ∧
      Fifo s' (Function.update queue q (queue q ++ [t])) := by
  obtain ⟨_, s', hrun, next, head, rfl, h'⟩ := enqueue_spec (q := q) h ⟨hc, hout, by simp⟩
  refine ⟨_, ⟨⟨hc, fun r l hl => ?_⟩, none, run_bind_ok hrun⟩, rfl, h'⟩
  rw [hl.unique (h.queues.each r)]
  exact hout r

end Step

/-- **`enqueue` and `dequeue` are queues**, any number of them over one field.  After any calls, each of a thread that
is in no queue at that moment, the contents are those of the lists; the next call returns (the walk ends) with what the
lists say, and changes its own queue only; `enqueue(q, NULL)` changes nothing. -/
theorem fifo_run {s₀ s : Sched} (hnext : ∀ t ∈ s₀.core.created, s₀.next t = none) (hhead : ∀ q, s₀.head q = none)
    {tr : List ((Sched × (QRef → List Tid)) × QOp)} {queue : QRef → List Tid}
    (hp : Path (withHistory QStep fifoNext) (s₀, fun _ => []) tr (s, queue)) :
    (∀ q, IsQueue s.next (s.head q) (queue q)) ∧
    (∀ op : QOp, op.Allowed s → Runs op.code s (fun r s' => r = (op.fifo queue).1 ∧
      (∀ q, IsQueue s'.next (s'.head q) ((op.fifo queue).2 q)) ∧
      ∀ q l, q ≠ op.list → IsQueue s.next (s.head q) l → IsQueue s'.next (s'.head q) l)) ∧
    ∀ q, (enqueue q none).run s = .ok ((), s) := by
  have hF : Fifo s queue := by
    refine hp.invariant (I := fun x => Fifo x.1 x.2) (fifo_start hnext hhead) ?_
    rintro ⟨t, k⟩ op ⟨t', k'⟩ - hF ⟨⟨ha, r, hr⟩, hk⟩
    obtain rfl : k' = (op.fifo k).2 := hk
    exact ((Fifo.step hF ha).of_eq hr).2
  refine ⟨hF.queues.each, fun op ha => ?_, fun q => enqueue_null hF⟩
  refine Runs.imp ?_ (hF.step ha)
  rintro r s' ⟨hr, hF'⟩
  refine ⟨hr, hF'.queues.each, fun q l hq hl => ?_⟩
  obtain rfl := hl.unique (hF.queues.each q)
  rw [← op.fifo_other queue hq]
  exact hF'.queues.each q

/-- Three threads and two queues: threads 1 and 3 are put into `ready_queue`, thread 2 into that of a condition, and
thread 1 is taken out. -/
theorem fifo_run_three : ∃ (s₀ s : Sched) (tr : List ((Sched × (QRef → List Tid)) × QOp)) (queue : QRef → List Tid),
    tr.map Prod.snd = [.enqueue .ready (some 1), .enqueue (.cond 0) (some 2), .enqueue .ready (some 3),
      .dequeue .ready] ∧
    Path (withHistory QStep fifoNext) (s₀, fun _ => []) tr (s, queue) ∧
    (queue .ready = [3] ∧ queue (.cond 0) = [2]) ∧
    (∀ q, IsQueue s.next (s.head q) (queue q)) ∧
    (∀ op : QOp, op.Allowed s → Runs op.code s (fun r s' => r = (op.fifo queue).1 ∧
      (∀ q, IsQueue s'.next (s'.head q) ((op.fifo queue).2 q)) ∧
      ∀ q l, q ≠ op.list → IsQueue s.next (s.head q) l → IsQueue s'.next (s'.head q) l)) ∧
    ∀ q, (enqueue q none).run s = .ok ((), s) := by
  set s₀ : Sched := { Sched.start with core := { Sched.start.core with created := [0, 1, 2, 3] } } with hs₀
  have hF : Fifo s₀ fun _ => [] := fifo_start (fun _ _ => rfl) fun _ => rfl
  obtain ⟨s₁, h₁, hc₁, hF₁⟩ := hF.exists_enqueue (t := 1) (by decide) (by simp) .ready
  obtain ⟨s₂, h₂, hc₂, hF₂⟩ := hF₁.exists_enqueue (t := 2) (by rw [hc₁]; decide)
    (fun q => by by_cases hq : q = .ready <;> simp [hq]) (.cond 0)
  obtain ⟨s₃, h₃, hc₃, hF₃⟩ := hF₂.exists_enqueue (t := 3) (by rw [hc₂, hc₁]; decide)
    (fun q => by by_cases hq : q = .ready <;> by_cases hq' : q = .cond 0 <;> simp [hq, hq']) .ready
  have ha : (QOp.dequeue .ready).Allowed s₃ := trivial
  obtain ⟨r, s₄, h₄⟩ := (hF₃.step ha).run_eq
  have hp : Path (withHistory QStep fifoNext) (s₀, fun _ => []) _ (s₁, _) := Path.nil.snoc ⟨h₁, rfl⟩
  have hp := hp.snoc (a := .enqueue (.cond 0) (some 2)) (u := (s₂, _)) ⟨h₂, rfl⟩
  have hp := hp.snoc (a := .enqueue .ready (some 3)) (u := (s₃, _)) ⟨h₃, rfl⟩
  have hp := hp.snoc (a := .dequeue .ready) (u := (s₄, _)) ⟨⟨ha, r, h₄⟩, rfl⟩
  exact ⟨s₀, s₄, _, _, rfl, hp, ⟨rfl, rfl⟩, fifo_run (fun _ _ => rfl) (fun _ => rfl) hp⟩

end Seminars.Green
