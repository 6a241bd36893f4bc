import Mathlib.Data.Fintype.Card
import Mathlib.Logic.Function.Basic
import Mathlib.Tactic.Common

/-!
# Seminars.Lib.Slots — an array of pointers

A program that keeps what it holds in an array, no pointer twice and `null` in the slots that are not in use.

* `Slots.clear`, `Slots.fill` — what an assignment to a slot does.
* `Slots.length_lt` — while a slot is not in use less is held than there are slots.
-/

namespace Seminars.Lib

variable {ι α : Type}

/-- What is held stands in `slot`, each in a slot of its own. -/
structure Slots (null : α) (slot : ι → α) (held : α → Prop) : Prop where
  held : ∀ p, held p ↔ p ≠ null ∧ ∃ i, slot i = p
  inj : ∀ i j, slot i = slot j → slot i ≠ null → i = j

namespace Slots

variable {null p : α} {slot : ι → α} {held held' : α → Prop} {i : ι}

/-- Nothing is held when no slot is in use. -/
theorem empty (h : ∀ p, ¬ held p) : Slots null (fun _ : ι => null) held :=
  ⟨fun p => ⟨fun hp => (h p hp).elim, fun hp => (hp.1 (hp.2.elim fun _ => Eq.symm)).elim⟩,
    fun _ _ _ hne => (hne rfl).elim⟩

variable [DecidableEq ι]

/-- The slot `i` is given up. -/
theorem clear (h : Slots null slot held) (hheld : ∀ p, held' p ↔ held p ∧ p ≠ slot i) :
    Slots null (Function.update slot i null) held' := by
  refine ⟨fun p => ?_, fun j k hjk hj => ?_⟩
  · rw [hheld, h.held]
    constructor
    · rintro ⟨⟨hp, j, rfl⟩, hne⟩
      exact ⟨hp, j, Function.update_of_ne (fun e => hne (congrArg slot e)) _ _⟩
    · rintro ⟨hp, j, hj⟩
      have hji : j ≠ i := by
        rintro rfl
        rw [Function.update_self] at hj
        exact hp hj.symm
      rw [Function.update_of_ne hji] at hj
      subst hj
      exact ⟨⟨hp, j, rfl⟩, fun e => hji (h.inj j i e hp)⟩
  · have hne : ∀ l, Function.update slot i null l ≠ null → l ≠ i := by
      rintro l hl rfl
      exact hl (Function.update_self ..)
    have hji := hne j hj
    have hki := hne k (hjk ▸ hj)
    rw [Function.update_of_ne hji] at hjk hj
    rw [Function.update_of_ne hki] at hjk
    exact h.inj j k hjk hj

/-- Something that was not held is put into the slot `i`. -/
theorem fill (h : Slots null slot held) (hi : slot i = null) (hp : p ≠ null) (hnew : ¬ held p)
    (hheld : ∀ q, held' q ↔ q = p ∨ held q) : Slots null (Function.update slot i p) held' := by
  have hnot : ∀ j, slot j ≠ p := fun j hj => hnew ((h.held p).mpr ⟨hp, j, hj⟩)
  refine ⟨fun q => ?_, fun j k hjk hj => ?_⟩
  · rw [hheld, h.held]
    constructor
    · rintro (rfl | ⟨hq, j, rfl⟩)
      · exact ⟨hp, i, Function.update_self ..⟩
      · exact ⟨hq, j, Function.update_of_ne (fun e => hq ((congrArg slot e).trans hi)) _ _⟩
    · rintro ⟨hq, j, rfl⟩
      by_cases hji : j = i
      · subst hji
        exact .inl (Function.update_self ..)
      · rw [Function.update_of_ne hji] at hq ⊢
        exact .inr ⟨hq, j, rfl⟩
  · by_cases hji : j = i <;> by_cases hki : k = i
    · rw [hji, hki]
    · rw [hji, Function.update_self, Function.update_of_ne hki] at hjk
      exact absurd hjk.symm (hnot k)
    · rw [hki, Function.update_self, Function.update_of_ne hji] at hjk
      exact absurd hjk (hnot j)
    · rw [Function.update_of_ne hji] at hjk hj
      rw [Function.update_of_ne hki] at hjk
      exact h.inj j k hjk hj

/-- **While a slot is not in use** there is room for one more. -/
theorem length_lt [Fintype ι] [DecidableEq α] (h : Slots null slot held) (hi : slot i = null) {l : List α}
    (hnodup : l.Nodup) (hl : ∀ p ∈ l, held p) : l.length < Fintype.card ι := by
  have hsub : l.toFinset ⊆ (Finset.univ.erase i).image slot := by
    intro p hp
    obtain ⟨hne, j, rfl⟩ := (h.held p).mp (hl p (List.mem_toFinset.mp hp))
    refine Finset.mem_image_of_mem slot (Finset.mem_erase.mpr ⟨?_, Finset.mem_univ j⟩)
    rintro rfl
    exact hne hi
  calc l.length = l.toFinset.card := (List.toFinset_card_of_nodup hnodup).symm
    _ ≤ ((Finset.univ.erase i).image slot).card := Finset.card_le_card hsub
    _ ≤ (Finset.univ.erase i).card := Finset.card_image_le
    _ < Finset.univ.card := Finset.card_erase_lt_of_mem (Finset.mem_univ i)
    _ = Fintype.card ι := Finset.card_univ

end Slots

end Seminars.Lib
