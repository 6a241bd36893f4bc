import Mathlib.Data.List.Nodup
import Mathlib.Data.List.Basic
import Mathlib.Tactic.Common

/-!
# Seminars.Lib.Linked — doubly linked lists given by two pointer functions

`nxt` and `prv` are the pointers read out of some memory and `nil` is the null pointer; `nxt nil` stands for
the list's head variable.  `Seg nil nxt prv x l z`: from the node `x` the links lead through the nodes of `l`
to `z`, and back.  `Linked nil nxt prv l` is the whole list, from the head variable to null.

* `Seg.append_iff` cuts a list at a node; `Seg.congr` moves it to other pointers that agree on it.
* `Linked.unlink`: the two pointer updates that take a node out, wherever it stands.
* `Linked.push`: the updates that put a node in front.
-/

namespace Seminars.Lib

variable {α : Type} {nil : α} {nxt prv nxt' prv' : α → α}

/-- From `x` the links lead through `l` to `z`, and back (`nil` has no back link). -/
def Seg (nil : α) (nxt prv : α → α) (x : α) : List α → α → Prop
  | [], z => nxt x = z ∧ (z ≠ nil → prv z = x)
  | y :: l, z => (nxt x = y ∧ (y ≠ nil → prv y = x)) ∧ Seg nil nxt prv y l z

/-- The list with members `l`: `nxt nil` is its head variable. -/
def Linked (nil : α) (nxt prv : α → α) (l : List α) : Prop := Seg nil nxt prv nil l nil

namespace Seg

theorem append_iff {x y z : α} {l l' : List α} :
    Seg nil nxt prv x (l ++ y :: l') z ↔ Seg nil nxt prv x l y ∧ Seg nil nxt prv y l' z := by
  induction l generalizing x with
  | nil => rfl
  | cons a l ih =>
    constructor
    · rintro ⟨h1, h2⟩
      exact ⟨⟨h1, (ih.mp h2).1⟩, (ih.mp h2).2⟩
    · rintro ⟨⟨h1, h2⟩, h3⟩
      exact ⟨h1, ih.mpr ⟨h2, h3⟩⟩

/-- The forward pointers of `x :: l` and the back pointers of `l ++ [z]` are all a segment depends on. -/
theorem congr {x z : α} {l : List α} (h : Seg nil nxt prv x l z) (hn : ∀ a ∈ x :: l, nxt' a = nxt a)
    (hp : ∀ c ∈ l ++ [z], c ≠ nil → prv' c = prv c) : Seg nil nxt' prv' x l z := by
  induction l generalizing x with
  | nil =>
    refine ⟨(hn x (by simp)).trans h.1, fun hz => ?_⟩
    rw [hp z (by simp) hz]
    exact h.2 hz
  | cons y l ih =>
    refine ⟨⟨(hn x (by simp)).trans h.1.1, fun hy => ?_⟩, ?_⟩
    · rw [hp y (by simp) hy]
      exact h.1.2 hy
    · exact ih h.2 (fun a ha => hn a (List.mem_cons_of_mem _ ha))
        (fun c hc => hp c (List.mem_cons_of_mem _ hc))

theorem nxt_eq {x z : α} {l : List α} (h : Seg nil nxt prv x l z) : nxt x = l.headD z := by
  cases l with
  | nil => exact h.1
  | cons y l => exact h.1.1

/-- The pointers determine the nodes of a segment that ends at null. -/
theorem unique {x : α} {l l' : List α} (h : Seg nil nxt prv x l nil) (h' : Seg nil nxt prv x l' nil)
    (hnil : nil ∉ l) (hnil' : nil ∉ l') : l = l' := by
  induction l generalizing x l' with
  | nil =>
    cases l' with
    | nil => rfl
    | cons y l' => exact absurd (h.1.symm.trans h'.1.1) fun e => hnil' (by simp [e])
  | cons y l ih =>
    cases l' with
    | nil => exact absurd (h'.1.symm.trans h.1.1) fun e => hnil (by simp [e])
    | cons y' l' =>
      obtain rfl : y = y' := h.1.1.symm.trans h'.1.1
      rw [ih h.2 h'.2 (fun hm => hnil (by simp [hm])) fun hm => hnil' (by simp [hm])]

/-- Take out the node after `w`. -/
theorem unlink_next {w b z : α} {l : List α} (h : Seg nil nxt prv w (b :: l) z) (hz : z ∉ l) (hl : l.Nodup)
    (hw : nxt' w = nxt b) (hb : nxt b ≠ nil → prv' (nxt b) = w) (hn : ∀ a ∈ l, nxt' a = nxt a)
    (hp : ∀ c ∈ l ++ [z], c ≠ nil → c ≠ nxt b → prv' c = prv c) : Seg nil nxt' prv' w l z := by
  obtain ⟨-, hs⟩ := h
  have hb1 := hs.nxt_eq
  cases l with
  | nil =>
    simp only [List.headD_nil] at hb1
    exact ⟨hw.trans hb1, fun hne => by rw [← hb1]; exact hb (hb1 ▸ hne)⟩
  | cons y l =>
    simp only [List.headD_cons] at hb1
    obtain ⟨hy, hl⟩ := List.nodup_cons.mp hl
    refine ⟨⟨hw.trans hb1, fun hne => by rw [← hb1]; exact hb (hb1 ▸ hne)⟩, ?_⟩
    refine hs.2.congr (fun a ha => hn a ha) fun c hc hne => hp c (List.mem_cons_of_mem _ hc) hne ?_
    rintro rfl
    rw [hb1] at hc
    rcases List.mem_append.mp hc with hc | hc
    · exact hy hc
    · simp only [List.mem_singleton] at hc
      exact hz (by simp [hc])

end Seg

namespace Linked

variable {l l₁ l₂ : List α} {b : α}

theorem head_eq (h : Linked nil nxt prv l) : nxt nil = l.headD nil := Seg.nxt_eq h

/-- The pointers determine the list. -/
theorem unique {l l' : List α} (h : Linked nil nxt prv l) (h' : Linked nil nxt prv l') (hnil : nil ∉ l)
    (hnil' : nil ∉ l') : l = l' := Seg.unique h h' hnil hnil'

/-- The pointers of a member: forward to the rest of the list, back to what is before it. -/
theorem nxt_mem (h : Linked nil nxt prv (l₁ ++ b :: l₂)) : nxt b = l₂.headD nil :=
  (Seg.append_iff.mp h).2.nxt_eq

theorem prv_mem (h : Linked nil nxt prv (l₁ ++ b :: l₂)) (hb : b ≠ nil) : prv b = l₁.getLastD nil := by
  have h1 := (Seg.append_iff.mp h).1
  rcases List.eq_nil_or_concat l₁ with rfl | ⟨l', w, rfl⟩
  · exact h1.2 hb
  · rw [List.concat_eq_append] at h1 ⊢
    rw [(Seg.append_iff.mp h1).2.2 hb, List.getLastD_concat]

/-- **Unlinking**: the forward pointer before `b` skips it, the back pointer after `b` skips it, and the other
pointers of the remaining members stay. -/
theorem unlink (h : Linked nil nxt prv (l₁ ++ b :: l₂)) (hnd : (l₁ ++ b :: l₂).Nodup)
    (hnil : nil ∉ l₁ ++ b :: l₂) (hskip : nxt' (prv b) = nxt b) (hback : nxt b ≠ nil → prv' (nxt b) = prv b)
    (hn : ∀ x ∈ nil :: (l₁ ++ l₂), x ≠ prv b → nxt' x = nxt x)
    (hp : ∀ y ∈ l₁ ++ l₂, y ≠ nxt b → prv' y = prv y) : Linked nil nxt' prv' (l₁ ++ l₂) := by
  have hb : b ≠ nil := by rintro rfl; exact hnil (by simp)
  have hprv := prv_mem h hb
  have hnxt := nxt_mem h
  have hnil1 : nil ∉ l₁ := fun hm => hnil (by simp [hm])
  have hnil2 : nil ∉ l₂ := fun hm => hnil (by simp [hm])
  obtain ⟨hnd1, hnd2, hdis⟩ := List.nodup_append.mp hnd
  have hnd2' := (List.nodup_cons.mp hnd2).2
  have hkeep : ∀ c ∈ l₂ ++ [nil], c ≠ nil → c ≠ nxt b → prv' c = prv c := fun c hc hcn hcb =>
    hp c (List.mem_append_right _ (by simpa [hcn] using hc)) hcb
  have hafter : ∀ a ∈ l₂, a ≠ prv b → nxt' a = nxt a := fun a ha hab => hn a (by simp [ha]) hab
  rcases List.eq_nil_or_concat l₁ with rfl | ⟨l', w, rfl⟩
  · -- `b` was the head: the head variable is the pointer that skips it
    simp only [List.getLastD_nil] at hprv
    refine Seg.unlink_next h hnil2 hnd2' (hprv ▸ hskip) (fun hne => (hback hne).trans hprv) ?_ hkeep
    exact fun a ha => hafter a ha (by rintro rfl; exact hnil2 (hprv ▸ ha))
  · rw [List.concat_eq_append] at *
    rw [List.getLastD_concat] at hprv
    simp only [List.append_assoc, List.singleton_append] at *
    obtain ⟨h1, h2⟩ := Seg.append_iff.mp h
    obtain ⟨hndl, hndw, hdisw⟩ := List.nodup_append.mp hnd1
    refine Seg.append_iff.mpr ⟨h1.congr (fun a ha => ?_) fun c hc hcn => ?_, ?_⟩
    · refine hn a (by simp only [List.mem_cons, List.mem_append] at ha ⊢; tauto) ?_
      rw [hprv]
      rintro rfl
      rcases List.mem_cons.mp ha with rfl | ha
      · exact hnil1 (by simp)
      · exact hdisw a ha a (by simp) rfl
    · refine hp c (by simp only [List.mem_append, List.mem_cons] at hc ⊢; tauto) ?_
      rintro rfl
      rw [hnxt] at hc hcn
      cases l₂ with
      | nil => exact hcn rfl
      | cons y l => exact hdis y hc y (by simp) rfl
    · refine Seg.unlink_next h2 hnil2 hnd2' (hprv ▸ hskip) (fun hne => (hback hne).trans hprv) ?_ hkeep
      exact fun a ha => hafter a ha (by rw [hprv]; rintro rfl; exact hdis a (by simp) a (by simp [ha]) rfl)

/-- **Pushing** `b` in front: the head variable and the old head's back pointer turn to `b`. -/
theorem push (h : Linked nil nxt prv l) (hnd : l.Nodup) (hnil : nil ∉ l) (hhead : nxt' nil = b)
    (hb : nxt' b = nxt nil) (hb' : prv' b = nil) (hback : nxt nil ≠ nil → prv' (nxt nil) = b)
    (hn : ∀ x ∈ l, nxt' x = nxt x) (hp : ∀ y ∈ l, y ≠ nxt nil → prv' y = prv y) :
    Linked nil nxt' prv' (b :: l) := by
  refine ⟨⟨hhead, fun _ => hb'⟩, ?_⟩
  cases l with
  | nil => exact ⟨hb.trans h.1, fun hne => absurd rfl hne⟩
  | cons y l =>
    have hy := (List.nodup_cons.mp hnd).1
    refine ⟨⟨hb.trans h.1.1, fun hne => h.1.1 ▸ hback (h.1.1.symm ▸ hne)⟩, h.2.congr hn fun c hc hcn => ?_⟩
    have hc' : c ∈ l := by simpa [hcn] using hc
    refine hp c (by simp [hc']) ?_
    rw [h.1.1]
    rintro rfl
    exact hy hc'

end Linked

end Seminars.Lib
