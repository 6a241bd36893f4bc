import Mathlib.Data.Finset.Card
import Mathlib.Logic.Relation
import Mathlib.Order.Interval.Finset.Nat
import Seminars.Dlmalloc.Spec

/-!
# Seminars.Dlmalloc.Sanity — what `sanity` accepts

Nothing is assumed of the heap: the blocks `flist` leads to have any contents, the list may be empty, broken or cyclic.

* `WellLinked h`: the free list is as it should be.
* `Rounds h a p l b q`: the loop passes the blocks `l` on its way from `(a, p)` to `(b, q)`, the values of `sanity` and
  `prev`.
* `Rounds.nodup`: on the way to where it stops the loop passes no block twice; `sanity_diverges`: if the model runs out
  of rounds, then so it does with any number of them.
* `sanity_iff`: the heaps on which `sanity` ends and is right.
-/

namespace Seminars.Dlmalloc

open Lib

/-- What `sanity` prints when it has found nothing. -/
def complete : String := "sanity check complete without any abnormalities \n"

section Sanity

variable {μ L V : Type} [BlockMem μ L V] {h : Heap μ} {a b c p q r n : ℕ} {l l' : List ℕ}

/-- The three checks of the block `b`, when `p` is the block in front of it. -/
def Checks (h : Heap μ) (p b : ℕ) : Prop :=
  val h b .free = TRUE ∧ val h b .size % ALIGN = 0 ∧ val h b .prev = p

instance (h : Heap μ) (p b : ℕ) : Decidable (Checks h p b) := inferInstanceAs (Decidable (_ ∧ _))

/-- From `b` on, behind `p`, the blocks `l` pass the checks and end in `NULL`. -/
inductive Valid (h : Heap μ) : ℕ → ℕ → List ℕ → Prop
  | nil {p : ℕ} : Valid h p NULL []
  | cons {p b : ℕ} {l : List ℕ} : b ≠ NULL → Checks h p b → Valid h b (val h b .next) l → Valid h p b (b :: l)

/-- **The free list is well formed**: it ends, and all its blocks are free, aligned and linked backwards too. -/
def WellLinked (h : Heap μ) : Prop := ∃ l, Valid h NULL h.flist l

/-- The fields of all blocks that `flist` leads to can be read. -/
def Readable (h : Heap μ) : Prop :=
  ∀ b, Relation.ReflTransGen (fun a c => a ≠ NULL ∧ c = val h a .next) h.flist b → b ≠ NULL → ∀ f, inside h b f

/-- The loop goes on behind `b`. -/
def Passes (h : Heap μ) (p b : ℕ) : Prop := b ≠ NULL ∧ val h b .size ≠ 0 ∧ Checks h p b

/-- The loop passes the blocks `l` from `(a, p)` to `(b, q)`. -/
inductive Rounds (h : Heap μ) : ℕ → ℕ → List ℕ → ℕ → ℕ → Prop
  | done {a p : ℕ} : Rounds h a p [] a p
  | step {a p b q : ℕ} {l : List ℕ} : Passes h p a → Rounds h (val h a .next) a l b q → Rounds h a p (a :: l) b q

/-- **The free list has a flaw that `sanity` sees**: at a block that is not of size 0, in front of which are only blocks
that are not of size 0 and pass the checks.  The `prev` of the first block is compared with itself. -/
def Flawed (h : Heap μ) : Prop :=
  ∃ l b q, Rounds h h.flist (val h h.flist .prev) l b q ∧ b ≠ NULL ∧ val h b .size ≠ 0 ∧ ¬ Checks h q b

/-! ### The rounds of the loop -/

theorem Rounds.trans (h1 : Rounds h a p l b q) (h2 : Rounds h b q l' c r) : Rounds h a p (l ++ l') c r := by
  induction h1 with
  | done => exact h2
  | step hp _ ih => exact .step hp (ih h2)

/-- The state behind a block that is passed is `(b->next, b)`. -/
theorem Rounds.split (h1 : Rounds h a p (l ++ b :: l') c r) :
    Rounds h a p (l ++ [b]) (val h b .next) b ∧ Rounds h (val h b .next) b l' c r := by
  induction l generalizing a p with
  | nil =>
    cases h1 with
    | step hp hr => exact ⟨.step hp .done, hr⟩
  | cons x l ih =>
    cases h1 with
    | step hp hr => exact ⟨.step hp (ih hr).1, (ih hr).2⟩

theorem Rounds.prefix_or (h1 : Rounds h a p l b q) (h2 : Rounds h a p l' c r) (hlen : l.length ≤ l'.length) :
    ∃ l'', l' = l ++ l'' ∧ Rounds h b q l'' c r := by
  induction h1 generalizing l' with
  | done => exact ⟨l', rfl, h2⟩
  | step hp _ ih =>
    cases h2 with
    | done => exact absurd hlen (by simp)
    | step _ h2 =>
      obtain ⟨l'', rfl, h3⟩ := ih h2 (by simpa using hlen)
      exact ⟨l'', rfl, h3⟩

theorem Rounds.again (h1 : Rounds h a p l a p) (hl : l ≠ []) (n : ℕ) : ∃ l', n ≤ l'.length ∧ Rounds h a p l' a p := by
  induction n with
  | zero => exact ⟨[], le_rfl, .done⟩
  | succ n ih =>
    obtain ⟨l', hn, h2⟩ := ih
    refine ⟨l ++ l', ?_, h1.trans h2⟩
    have := List.length_pos_of_ne_nil hl
    rw [List.length_append]
    omega

theorem Rounds.le_of_stop (h1 : Rounds h a p l b q) (h2 : Rounds h a p l' c r) (hstop : ¬ Passes h q b) :
    l'.length ≤ l.length := by
  by_contra hlt
  obtain ⟨l'', rfl, h3⟩ := h1.prefix_or h2 (by omega)
  cases h3 with
  | done => simp at hlt
  | step hp _ => exact hstop hp

/-- **On the way to where it stops, the loop passes no block twice.** -/
theorem Rounds.nodup (h1 : Rounds h a p l b q) (hstop : ¬ Passes h q b) : l.Nodup := by
  induction h1 with
  | done => exact List.nodup_nil
  | @step a p b q l hp hr ih =>
    refine List.nodup_cons.mpr ⟨fun ha => ?_, ih hstop⟩
    -- the state behind `a` would come again, and with it every later one
    obtain ⟨l₁, l₂, rfl⟩ := List.append_of_mem ha
    obtain ⟨h2, h3⟩ := hr.split
    obtain ⟨k, hk, h4⟩ := h2.again (by simp) (l₂.length + 1)
    have := h3.le_of_stop h4 hstop
    omega

theorem Rounds.passes (h1 : Rounds h a p l b q) : ∀ c ∈ l, c ≠ NULL := by
  induction h1 with
  | done => exact fun c hc => absurd hc (by simp)
  | step hp _ ih =>
    intro c hc
    rcases List.mem_cons.mp hc with rfl | hc
    · exact hp.1
    · exact ih c hc

/-- The blocks passed and the one the loop stands at can be read. -/
theorem Rounds.reach (h1 : Rounds h a p l b q) : (∀ c ∈ l,
    Relation.ReflTransGen (fun a c => a ≠ NULL ∧ c = val h a .next) a c) ∧
      Relation.ReflTransGen (fun a c => a ≠ NULL ∧ c = val h a .next) a b := by
  induction h1 with
  | done => exact ⟨fun c hc => absurd hc (by simp), .refl⟩
  | step hp _ ih =>
    refine ⟨fun c hc => ?_, .head ⟨hp.1, rfl⟩ ih.2⟩
    rcases List.mem_cons.mp hc with rfl | hc
    · exact .refl
    · exact .head ⟨hp.1, rfl⟩ (ih.1 c hc)

theorem Rounds.length_le (hread : Readable h) (h1 : Rounds h h.flist p l b q) (hstop : ¬ Passes h q b) :
    l.length ≤ ARENA + 1 := by
  have hin : ∀ c ∈ l, ∃ base ∈ h.mapped, base ≤ c ∧ c ≤ base + ARENA := by
    intro c hc
    obtain ⟨base, hb, h2, h3⟩ := hread c (h1.reach.1 c hc) (h1.passes c hc) .size
    exact ⟨base, hb, h2, by omega⟩
  cases hm : h.mapped with
  | none =>
    cases l with
    | nil => simp
    | cons c l =>
      obtain ⟨base, hb, -⟩ := hin c (by simp)
      rw [hm] at hb
      exact absurd hb (by simp)
  | some base =>
    have hsub : l.toFinset ⊆ Finset.Icc base (base + ARENA) := by
      intro c hc
      obtain ⟨base', hb, h2, h3⟩ := hin c (List.mem_toFinset.mp hc)
      obtain rfl : base = base' := Option.some.inj (hm.symm.trans hb)
      exact Finset.mem_Icc.mpr ⟨h2, h3⟩
    have hcard := Finset.card_le_card hsub
    rw [List.toFinset_card_of_nodup (h1.nodup hstop), Nat.card_Icc] at hcard
    omega

/-! ### The loop of `sanity` -/

theorem rd_run {f : Field} (hb : b ≠ NULL) (hin : inside h b f) : (rd b f).run h = .ok (val h b f, h) :=
  (if_neg hb).trans (if_pos hin)

theorem sanityLoop_step (hp : Passes h p b) (hin : ∀ f, inside h b f) :
    (sanityLoop (n + 1) b p).run h = (sanityLoop n (val h b .next) b).run h := by
  obtain ⟨hb, hsize, hfree, halign, hprev⟩ := hp
  rw [sanityLoop, if_pos hb, run_bind_ok (rd_run hb (hin _)), if_pos hsize, run_bind_ok (rd_run hb (hin _))]
  rw [if_neg (not_not.mpr hfree), run_bind_ok (rd_run hb (hin _)), if_neg (not_not.mpr halign)]
  rw [run_bind_ok (rd_run hb (hin _)), if_neg (not_not.mpr hprev), run_bind_ok (rd_run hb (hin _))]

/-- The loop ends at the end of the list, and at a block of size 0. -/
theorem sanityLoop_end (hin : b ≠ NULL → ∀ f, inside h b f) (hend : b = NULL ∨ val h b .size = 0) :
    (sanityLoop (n + 1) b p).run h = .ok (complete, h) := by
  rw [sanityLoop]
  by_cases hb : b = NULL
  · rw [if_neg (not_not.mpr hb)]
    rfl
  · rw [if_pos hb, run_bind_ok (rd_run hb (hin hb _)), if_neg (not_not.mpr (hend.resolve_left hb))]
    rfl

theorem sanityLoop_exit (hb : b ≠ NULL) (hin : ∀ f, inside h b f) (hsize : val h b .size ≠ 0) (hc : ¬ Checks h p b) :
    ∃ out, out ≠ complete ∧ (sanityLoop (n + 1) b p).run h = .ok (out, h) := by
  rw [sanityLoop, if_pos hb, run_bind_ok (rd_run hb (hin _)), if_pos hsize, run_bind_ok (rd_run hb (hin _))]
  by_cases hfree : val h b .free = TRUE
  · rw [if_neg (not_not.mpr hfree), run_bind_ok (rd_run hb (hin _))]
    by_cases halign : val h b .size % ALIGN = 0
    · rw [if_neg (not_not.mpr halign), run_bind_ok (rd_run hb (hin _)), if_pos fun hprev => hc ⟨hfree, halign, hprev⟩]
      exact ⟨_, by decide, rfl⟩
    · rw [if_pos halign]
      exact ⟨_, by decide, rfl⟩
  · rw [if_pos hfree]
    exact ⟨_, by decide, rfl⟩

theorem sanityLoop_rounds (hread : Readable h) (h1 : Rounds h a p l b q)
    (ha : Relation.ReflTransGen (fun a c => a ≠ NULL ∧ c = val h a .next) h.flist a) :
    (sanityLoop (n + l.length) a p).run h = (sanityLoop n b q).run h := by
  induction h1 with
  | done => rfl
  | step hp _ ih =>
    rw [List.length_cons, ← Nat.add_assoc, sanityLoop_step hp (hread _ ha hp.1)]
    exact ih (ha.tail ⟨hp.1, rfl⟩)

/-- After any number of rounds the loop has stopped or goes on. -/
theorem rounds_or (h : Heap μ) (a p n : ℕ) : (∃ l b q, Rounds h a p l b q ∧ l.length < n ∧ ¬ Passes h q b) ∨
    ∃ l b q, Rounds h a p l b q ∧ l.length = n := by
  induction n generalizing a p with
  | zero => exact .inr ⟨[], a, p, .done, rfl⟩
  | succ n ih =>
    by_cases hp : Passes h p a
    · rcases ih (val h a .next) a with ⟨l, b, q, h1, hlen, hstop⟩ | ⟨l, b, q, h1, hlen⟩
      · exact .inl ⟨a :: l, b, q, .step hp h1, by simpa using hlen, hstop⟩
      · exact .inr ⟨a :: l, b, q, .step hp h1, by simpa using hlen⟩
    · exact .inl ⟨[], a, p, .done, by simp, hp⟩

/-! ### `sanity` -/

/-- On a list that is not empty, `sanity` is its loop; the first `prev` comes from the list. -/
theorem sanity_run (hread : Readable h) (hf : h.flist ≠ NULL) :
    (sanity.run h : Except Fault (String × Heap μ)) =
      (sanityLoop (ARENA + 2) h.flist (val h h.flist .prev)).run h := by
  have hin := hread h.flist .refl hf
  unfold sanity
  rw [run_bind_ok rfl, run_bind_ok (rd_run hf (hin _)), run_bind_ok (rd_run hf (hin _))]

/-- Where the loop stops, the program has enough rounds to get there. -/
theorem sanityLoop_stop (hread : Readable h) (h1 : Rounds h h.flist p l b q) (hstop : ¬ Passes h q b) :
    ∃ k, (sanityLoop (ARENA + 2) h.flist p).run h = (sanityLoop (k + 1) b q).run h := by
  have hlen := h1.length_le hread hstop
  refine ⟨ARENA + 1 - l.length, ?_⟩
  rw [← sanityLoop_rounds hread h1 .refl]
  congr 2
  omega

/-- What is printed at the end of the list, and at a block of size 0. -/
theorem sanityLoop_complete (hread : Readable h) (h1 : Rounds h h.flist p l b q) (hend : b = NULL ∨ val h b .size = 0) :
    (sanityLoop (ARENA + 2) h.flist p).run h = .ok (complete, h) := by
  have hstop : ¬ Passes h q b := fun hp => hend.elim hp.1 hp.2.1
  obtain ⟨k, hk⟩ := sanityLoop_stop hread h1 hstop
  exact hk.trans (sanityLoop_end (fun hb => hread b h1.reach.2 hb) hend)

theorem sanityLoop_flaw (hread : Readable h) (h1 : Rounds h h.flist p l b q) (hb : b ≠ NULL) (hsize : val h b .size ≠ 0)
    (hc : ¬ Checks h q b) :
    ∃ out, out ≠ complete ∧ (sanityLoop (ARENA + 2) h.flist p).run h = .ok (out, h) := by
  obtain ⟨k, hk⟩ := sanityLoop_stop hread h1 fun hp => hc hp.2.2
  obtain ⟨out, hout, hrun⟩ := sanityLoop_exit (n := k) hb (hread b h1.reach.2 hb) hsize hc
  exact ⟨out, hout, hk.trans hrun⟩

/-- **The rounds of the model are enough**: a loop that uses them up does not end. -/
theorem sanity_diverges (hread : Readable h) (hd : (sanityLoop (ARENA + 2) h.flist p).run h = .error .diverge) (n : ℕ) :
    (sanityLoop n h.flist p).run h = .error .diverge := by
  rcases rounds_or h h.flist p n with ⟨l, b, q, h1, -, hstop⟩ | ⟨l, b, q, h1, rfl⟩
  · by_cases hend : b = NULL ∨ val h b .size = 0
    · rw [sanityLoop_complete hread h1 hend] at hd
      exact nomatch hd
    · obtain ⟨hb, hsize⟩ := not_or.mp hend
      obtain ⟨out, -, hrun⟩ := sanityLoop_flaw hread h1 hb hsize fun hc => hstop ⟨hb, hsize, hc⟩
      rw [hrun] at hd
      exact nomatch hd
  · have hrun := sanityLoop_rounds (n := 0) hread h1 .refl
    rw [Nat.zero_add] at hrun
    exact hrun

/-- On a well-formed list the loop goes on up to the end or to a block of size 0. -/
theorem Valid.rounds (hv : Valid h p b l) : ∃ l' c q, Rounds h b p l' c q ∧ (c = NULL ∨ val h c .size = 0) := by
  induction hv with
  | nil => exact ⟨[], NULL, _, .done, .inl rfl⟩
  | @cons p b l hb hc _ ih =>
    by_cases hsize : val h b .size = 0
    · exact ⟨[], b, p, .done, .inr hsize⟩
    · obtain ⟨l', c, q, h1, hend⟩ := ih
      exact ⟨b :: l', c, q, .step ⟨hb, hsize, hc⟩ h1, hend⟩

theorem Valid.rest (hv : Valid h p a l) (h1 : Rounds h a p l' b q) : ∃ k, Valid h q b k := by
  induction h1 generalizing l with
  | done => exact ⟨l, hv⟩
  | step hp _ ih =>
    cases hv with
    | nil => exact absurd rfl hp.1
    | cons _ _ hv => exact ih hv

theorem Valid.prev (hv : Valid h p a l) (ha : a ≠ NULL) : val h a .prev = p := by
  cases hv with
  | nil => exact absurd rfl ha
  | cons _ hc _ => exact hc.2.2

theorem WellLinked.valid (hw : WellLinked h) (hf : h.flist ≠ NULL) : ∃ l, Valid h (val h h.flist .prev) h.flist l := by
  obtain ⟨l, hv⟩ := hw
  rw [hv.prev hf]
  exact ⟨l, hv⟩

theorem Flawed.not_wellLinked (hd : Flawed h) (hf : h.flist ≠ NULL) : ¬ WellLinked h := by
  intro hw
  obtain ⟨l, hv⟩ := hw.valid hf
  obtain ⟨l', b, q, h1, hb, -, hc⟩ := hd
  obtain ⟨k, hv'⟩ := hv.rest h1
  cases hv' with
  | nil => exact hb rfl
  | cons _ hc' _ => exact hc hc'

/-- **When `sanity` is right**: it ends, and reports a complete check exactly for a well-formed list, when the list is
not empty and is well formed or has a flaw that `sanity` sees. -/
theorem sanity_iff (hread : Readable h) :
    (∃ out, sanity.run h = .ok (out, h) ∧ (out = complete ↔ WellLinked h)) ↔
      h.flist ≠ NULL ∧ (WellLinked h ∨ Flawed h) := by
  constructor
  · rintro ⟨out, hrun, hout⟩
    have hf : h.flist ≠ NULL := by
      intro hf
      have hnull : sanity.run h = .error .null := (run_bind_ok rfl).trans (run_bind_error (if_pos hf))
      rw [hnull] at hrun
      exact nomatch hrun
    refine ⟨hf, ?_⟩
    rw [sanity_run hread hf] at hrun
    rcases rounds_or h h.flist (val h h.flist .prev) (ARENA + 2) with ⟨l, b, q, h1, -, hstop⟩ | ⟨l, b, q, h1, hlen⟩
    · by_cases hend : b = NULL ∨ val h b .size = 0
      · rw [sanityLoop_complete hread h1 hend] at hrun
        obtain ⟨rfl, -⟩ := Prod.mk.inj (Except.ok.inj hrun)
        exact .inl (hout.mp rfl)
      · obtain ⟨hb, hsize⟩ := not_or.mp hend
        exact .inr ⟨l, b, q, h1, hb, hsize, fun hc => hstop ⟨hb, hsize, hc⟩⟩
    · have hloop := sanityLoop_rounds (n := 0) hread h1 .refl
      rw [hlen, Nat.zero_add, hrun] at hloop
      exact nomatch hloop
  · rintro ⟨hf, hw⟩
    rw [sanity_run hread hf]
    by_cases hwl : WellLinked h
    · obtain ⟨l, hv⟩ := hwl.valid hf
      obtain ⟨l', b, q, h1, hend⟩ := hv.rounds
      exact ⟨complete, sanityLoop_complete hread h1 hend, iff_of_true rfl hwl⟩
    · obtain ⟨l, b, q, h1, hb, hsize, hc⟩ := hw.resolve_left hwl
      obtain ⟨out, hout, hrun⟩ := sanityLoop_flaw hread h1 hb hsize hc
      exact ⟨out, hrun, iff_of_false hout hwl⟩

end Sanity

/-- A heap with one block on the list, whose `next` and `prev` lead to itself, as after freeing it twice. -/
def twice : Heap Cells :=
  ⟨fun _ f => match f with
    | .bfree => 0
    | .bsize => 0
    | .free => 1
    | .size => 16
    | .next => 4096
    | .prev => 4096, some 4096, 4096, 4096, false⟩

/-- The equivalence for that heap. -/
theorem sanity_iff_twice : Readable twice ∧
    ((∃ out, sanity.run twice = .ok (out, twice) ∧ (out = complete ↔ WellLinked twice)) ↔
      twice.flist ≠ NULL ∧ (WellLinked twice ∨ Flawed twice)) := by
  have hread : Readable twice := by
    intro b hb _ f
    obtain rfl : b = 4096 := by
      induction hb with
      | refl => rfl
      | tail _ hs _ => exact hs.2
    exact ⟨4096, rfl, le_rfl, by change 4096 + 1 ≤ _; decide⟩
  exact ⟨hread, sanity_iff hread⟩

/-- The empty list is well formed, and `sanity` reads `flist->prev` through `NULL`. -/
theorem sanity_fails : ¬ ∀ h : Heap Cells, Readable h →
    ∃ out, sanity.run h = .ok (out, h) ∧ (out = complete ↔ WellLinked h) := by
  intro hall
  have hread : Readable (Heap.start fun _ _ => 0 : Heap Cells) := by
    intro b hb hb0
    refine absurd (show b = NULL from ?_) hb0
    clear hb0
    induction hb with
    | refl => rfl
    | tail _ hs ih => exact absurd ih hs.1
  obtain ⟨out, hrun, -⟩ := hall _ hread
  have hnull : sanity.run (Heap.start fun _ _ => 0 : Heap Cells) = .error .null := rfl
  rw [hnull] at hrun
  exact nomatch hrun

end Seminars.Dlmalloc
