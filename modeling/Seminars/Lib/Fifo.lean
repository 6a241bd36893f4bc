import Mathlib.Data.List.Nodup
import Mathlib.Logic.Function.Basic
import Mathlib.Tactic.Common

/-!
# Seminars.Lib.Fifo — queues threaded through one pointer field

`IsQueue nxt o l`: from the pointer `o` the field `nxt` leads through the members of `l` to null.  Such a queue
is determined by its pointer and passes nobody twice (`IsQueue.unique`, `IsQueue.nodup`).

`Queues nxt head queue`: a family of queues that share the one field, no member in two of them.

* `Queues.push_empty`, `Queues.push_last`: the pointer that is set to append a member, in an empty queue and
  behind the last member.
* `Queues.pop`: the two pointers that are set to take the first member out.
* `Queues.drop`: a queue whose pointer is cleared; its members keep their `nxt`.
-/

namespace Seminars.Lib

variable {α ι : Type}

/-- From the pointer `o` the field `nxt` leads through `l` to null. -/
def IsQueue (nxt : α → Option α) : Option α → List α → Prop
  | o, [] => o = none
  | o, x :: l => o = some x ∧ IsQueue nxt (nxt x) l

namespace IsQueue

variable {nxt nxt' : α → Option α} {o : Option α} {l l' : List α} {w x z t : α}

theorem eq_nil (h : IsQueue nxt none l) : l = [] := by
  cases l with
  | nil => rfl
  | cons x l => exact absurd h.1 (by simp)

theorem exists_cons (h : IsQueue nxt (some x) l) : ∃ l', l = x :: l' := by
  cases l with
  | nil => exact absurd h (by simp [IsQueue])
  | cons y l' =>
    obtain rfl := Option.some.inj h.1
    exact ⟨l', rfl⟩

theorem append_right (h : IsQueue nxt o (l ++ x :: l')) : IsQueue nxt (some x) (x :: l') := by
  induction l generalizing o with
  | nil => exact ⟨rfl, h.2⟩
  | cons y l ih => exact ih h.2

/-- The pointer determines the members. -/
theorem unique (h : IsQueue nxt o l) (h' : IsQueue nxt o l') : l = l' := by
  induction l generalizing o l' with
  | nil =>
    obtain rfl := h
    exact h'.eq_nil.symm
  | cons x l ih =>
    obtain ⟨rfl, h⟩ := h
    obtain ⟨l'', rfl⟩ := h'.exists_cons
    rw [ih h h'.2]

/-- A queue that ends passes nobody twice: from the second visit on it would be as long as from the first. -/
theorem nodup (h : IsQueue nxt o l) : l.Nodup := by
  induction l generalizing o with
  | nil => exact List.nodup_nil
  | cons x l ih =>
    refine List.nodup_cons.mpr ⟨fun hx => ?_, ih h.2⟩
    obtain ⟨l1, l2, hl⟩ := List.append_of_mem hx
    have h1 : IsQueue nxt (some x) (x :: l2) := append_right (hl ▸ h.2)
    have h2 := (h.1 ▸ h).unique h1
    rw [hl] at h2
    have h3 := congrArg List.length h2
    simp only [List.length_cons, List.length_append] at h3
    omega

theorem congr (h : IsQueue nxt o l) (hn : ∀ a ∈ l, nxt' a = nxt a) : IsQueue nxt' o l := by
  induction l generalizing o with
  | nil => exact h
  | cons x l ih =>
    refine ⟨h.1, ?_⟩
    rw [hn x (by simp)]
    exact ih h.2 fun a ha => hn a (List.mem_cons_of_mem _ ha)

theorem last (h : IsQueue nxt o (l ++ [z])) : nxt z = none := h.append_right.2

/-- A member behind `w` taken out by setting the pointer of `w`. -/
theorem unlink (h : IsQueue nxt o (l ++ w :: x :: l')) (hw : nxt' w = nxt x)
    (hn : ∀ a ∈ l ++ l', nxt' a = nxt a) : IsQueue nxt' o (l ++ w :: l') := by
  induction l generalizing o with
  | nil =>
    refine ⟨h.1, ?_⟩
    rw [hw]
    exact h.2.2.congr hn
  | cons y l ih =>
    refine ⟨h.1, ?_⟩
    rw [hn y (by simp)]
    exact ih h.2 fun a ha => hn a (List.mem_cons_of_mem _ ha)

variable [DecidableEq α]

instance decide (nxt : α → Option α) : ∀ (o : Option α) (l : List α), Decidable (IsQueue nxt o l)
  | o, [] => inferInstanceAs (Decidable (o = none))
  | o, x :: l =>
    have := decide nxt (nxt x) l
    inferInstanceAs (Decidable (o = some x ∧ IsQueue nxt (nxt x) l))

theorem pop (h : IsQueue nxt o (x :: l)) : IsQueue (Function.update nxt x none) (nxt x) l := by
  have hx := (List.nodup_cons.mp h.nodup).1
  refine h.2.congr fun a ha => Function.update_of_ne ?_ _ _
  rintro rfl
  exact hx ha

theorem snoc (h : IsQueue nxt o (l ++ [z])) (ht : t ∉ l ++ [z]) (hn : nxt t = none) :
    IsQueue (Function.update nxt z (some t)) o (l ++ [z] ++ [t]) := by
  have htz : t ≠ z := fun e => ht (by simp [e])
  induction l generalizing o with
  | nil =>
    refine ⟨h.1, ?_, ?_⟩
    · simp
    · show Function.update nxt z (some t) t = none
      rw [Function.update_of_ne htz, hn]
  | cons y l ih =>
    have hy : y ≠ z := by
      rintro rfl
      exact (List.nodup_cons.mp h.nodup).1 (by simp)
    refine ⟨h.1, ?_⟩
    rw [Function.update_of_ne hy]
    exact ih h.2 fun hm => ht (List.mem_cons_of_mem _ hm)

end IsQueue

/-! ### A family of queues -/

/-- Queues that share one pointer field, nobody in two of them. -/
structure Queues (nxt : α → Option α) (head : ι → Option α) (queue : ι → List α) : Prop where
  each : ∀ i, IsQueue nxt (head i) (queue i)
  apart : ∀ i j t, t ∈ queue i → t ∈ queue j → i = j

namespace Queues

variable {nxt : α → Option α} {head : ι → Option α} {queue : ι → List α} {i : ι} {l : List α} {x z t : α}

theorem head_none (h : Queues nxt head queue) (hi : head i = none) : queue i = [] := (hi ▸ h.each i).eq_nil

theorem head_some (h : Queues nxt head queue) (hi : head i = some x) : ∃ l, queue i = x :: l :=
  (hi ▸ h.each i).exists_cons

theorem head_of_cons (h : Queues nxt head queue) (hi : queue i = x :: l) : head i = some x :=
  (hi ▸ h.each i).1

theorem head_of_nil (h : Queues nxt head queue) (hi : queue i = []) : head i = none := by
  have h1 := h.each i
  rw [hi] at h1
  exact h1

theorem head_eq (h : Queues nxt head queue) (i : ι) : head i = (queue i).head? := by
  cases hi : queue i with
  | nil => exact h.head_of_nil hi
  | cons x l => exact h.head_of_cons hi

variable [DecidableEq ι]

theorem drop (h : Queues nxt head queue) (i : ι) :
    Queues nxt (Function.update head i none) (Function.update queue i []) := by
  refine ⟨fun j => ?_, fun j k t hj hk => ?_⟩
  · by_cases hji : j = i
    · subst hji
      simp [IsQueue]
    · simpa [hji] using h.each j
  · by_cases hji : j = i
    · subst hji
      simp at hj
    · by_cases hki : k = i
      · subst hki
        simp at hk
      · simp only [ne_eq, hji, hki, not_false_eq_true, Function.update_of_ne] at hj hk
        exact h.apart j k t hj hk

/-- Membership in a family one of whose queues was changed. -/
theorem apart_update {l : List α} (h : Queues nxt head queue) (hl : ∀ t ∈ l, ∀ j, j ≠ i → t ∉ queue j) (j k : ι) (t : α)
    (hj : t ∈ Function.update queue i l j) (hk : t ∈ Function.update queue i l k) : j = k := by
  by_cases hji : j = i <;> by_cases hki : k = i
  · exact hji.trans hki.symm
  · subst hji
    rw [Function.update_self] at hj
    rw [Function.update_of_ne hki] at hk
    exact absurd hk (hl t hj k hki)
  · subst hki
    rw [Function.update_self] at hk
    rw [Function.update_of_ne hji] at hj
    exact absurd hj (hl t hk j hji)
  · rw [Function.update_of_ne hji] at hj
    rw [Function.update_of_ne hki] at hk
    exact h.apart j k t hj hk

/-- Appending to an empty queue: its pointer is set. -/
theorem push_empty (h : Queues nxt head queue) (hi : queue i = []) (ht : ∀ j, t ∉ queue j) (hn : nxt t = none) :
    Queues nxt (Function.update head i (some t)) (Function.update queue i (queue i ++ [t])) := by
  refine ⟨fun j => ?_, h.apart_update fun u hu j _ => ?_⟩
  · by_cases hji : j = i
    · subst hji
      simp [IsQueue, hi, hn]
    · simpa [hji] using h.each j
  · simp only [hi, List.nil_append, List.mem_singleton] at hu
    exact hu ▸ ht j

variable [DecidableEq α]

/-- Appending behind the last member: the last member's field is set. -/
theorem push_last (h : Queues nxt head queue) (hi : queue i = l ++ [z]) (ht : ∀ j, t ∉ queue j) (hn : nxt t = none) :
    Queues (Function.update nxt z (some t)) head (Function.update queue i (queue i ++ [t])) := by
  have hz : z ∈ queue i := by rw [hi]; simp
  refine ⟨fun j => ?_, h.apart_update fun u hu j hji => ?_⟩
  · by_cases hji : j = i
    · subst hji
      rw [Function.update_self]
      have hq := h.each j
      rw [hi] at hq ⊢
      exact hq.snoc (hi ▸ ht j) hn
    · rw [Function.update_of_ne hji]
      refine (h.each j).congr fun a ha => Function.update_of_ne ?_ _ _
      rintro rfl
      exact hji (h.apart j i a ha hz)
  · rcases List.mem_append.mp hu with hu | hu
    · exact fun hj => hji (h.apart j i u hj hu)
    · rw [List.mem_singleton.mp hu]
      exact ht j

/-- Taking the first member out: the queue's pointer and the member's field are set. -/
theorem pop (h : Queues nxt head queue) (hi : queue i = x :: l) :
    Queues (Function.update nxt x none) (Function.update head i (nxt x)) (Function.update queue i l) := by
  have hx : x ∈ queue i := by rw [hi]; simp
  refine ⟨fun j => ?_, h.apart_update fun u hu j hji => ?_⟩
  · by_cases hji : j = i
    · subst hji
      simp only [Function.update_self]
      exact (hi ▸ h.each j).pop
    · simp only [ne_eq, hji, not_false_eq_true, Function.update_of_ne]
      refine (h.each j).congr fun a ha => Function.update_of_ne ?_ _ _
      rintro rfl
      exact hji (h.apart j i a ha hx)
  · exact fun hj => hji (h.apart j i u hj (by rw [hi]; exact List.mem_cons_of_mem _ hu))

end Queues

end Seminars.Lib
