import Seminars.Dlmalloc.Spec
import Seminars.Lib.Path

/-!
# Seminars.Dlmalloc.Run — programs that use the allocator

A `Session` is the heap together with the pointers the program holds: those `dalloc` returned and `dfree` has
not taken back.  `Step` is one thing the program does with it: a request of any size, freeing `NULL` or a
pointer it holds, writing whatever it likes into the payloads it holds.  `Started m tr s`: `init()` succeeded
with the mapping `m` and the program then did `tr`, which led to `s`.

* `Move A c A'`: the same step on layouts.  `step_holds`: the session refines the layouts as long as a freed
  block has room for its links (`Roomy`); `Started.holds` is that for whole runs.
* `can_step`: no call the program may make faults.
* `play` computes a run.
-/

namespace Seminars.Dlmalloc

open Lib BlockMem

/-- What the program does. -/
inductive Call
  | dalloc (n : ℕ)
  | dfree (p : ℕ)
  | write
  deriving DecidableEq, Repr

/-- The heap and the pointers the program holds. -/
structure Session (μ : Type) where
  heap : Heap μ
  live : List ℕ

/-- The pointers held once `dalloc` has returned `p`. -/
def hold (p : ℕ) (live : List ℕ) : List ℕ := if p = NULL then live else p :: live

section Step

variable {μ L V : Type} [BlockMem μ L V]

/-- The location `x` is in the payload of a block the program holds. -/
def Session.Payload (s : Session μ) (x : L) : Prop :=
  ∃ p ∈ s.live, p ≤ addr μ x ∧ addr μ x < p + val s.heap (p - HEAD) .size

/-- One step of the program. -/
inductive Step : Session μ → Call → Session μ → Prop
  | dalloc {s : Session μ} {n p : ℕ} {h : Heap μ} : n < 2 ^ 64 → (dalloc n).run s.heap = .ok (p, h) →
      Step s (.dalloc n) ⟨h, hold p s.live⟩
  | dfree {s : Session μ} {p : ℕ} {h : Heap μ} : p = NULL ∨ p ∈ s.live → (dfree p).run s.heap = .ok ((), h) →
      Step s (.dfree p) ⟨h, s.live.erase p⟩
  | write {s : Session μ} {mem : μ} :
      (∀ x, ¬ s.Payload x → FootMem.read mem x = FootMem.read s.heap.mem x) →
      Step s .write ⟨{ s.heap with mem := mem }, s.live⟩

/-- `init()` succeeded with the mapping `m`, then the program did `tr`. -/
def Started (m : Mapping) (tr : List (Session μ × Call)) (s : Session μ) : Prop :=
  ∃ mem h₀, (init (some m)).run (Heap.start mem) = .ok ((), h₀) ∧ Path Step ⟨h₀, []⟩ tr s

/-- A block that is freed has room for its links. -/
def Roomy (s : Session μ) (c : Call) : Prop :=
  ∀ p, c = .dfree p → p ≠ NULL → room μ ≤ val s.heap (p - HEAD) .size

theorem roomy_of_ne {s : Session μ} {c : Call} (hc : ∀ p, c ≠ .dfree p) : Roomy s c := fun p he => absurd he (hc p)

end Step

/-! ### Taken blocks of a layout -/

namespace Layout

variable {base room : ℕ} {A A' : Layout base room} {pre post l₁ l₂ : List Blk} {b : Blk} {r p : ℕ}
  {C : Set (ℕ × Field)}

/-- `p` points to the payload of a taken block. -/
def Taken (A : Layout base room) (p : ℕ) : Prop := ∃ b ∈ A.blocks, b.free = false ∧ p = b.addr + HEAD

theorem taken_carve {h : A.blocks = pre ++ b :: post} {hf : A.flist = l₁ ++ b :: l₂}
    {hr : r + HEAD + 16 ≤ b.size} {hroom : room ≤ 16} (q : ℕ) :
    (A.carve h hf r hr hroom).Taken q ↔ q = (cut b r).addr + HEAD ∨ A.Taken q := by
  have hb : b.free = true := ((A.mem_flist b).mp (by rw [hf]; simp)).2
  simp only [Taken, carve, h, List.mem_append, List.mem_cons]
  constructor
  · rintro ⟨c, hc | rfl | rfl | hc, hcf, rfl⟩
    · exact .inr ⟨c, .inl hc, hcf, rfl⟩
    · exact absurd hcf (by simp [rest])
    · exact .inl rfl
    · exact .inr ⟨c, .inr (.inr hc), hcf, rfl⟩
  · rintro (rfl | ⟨c, hc | rfl | hc, hcf, rfl⟩)
    · exact ⟨cut b r, .inr (.inr (.inl rfl)), rfl, rfl⟩
    · exact ⟨c, .inl hc, hcf, rfl⟩
    · rw [hb] at hcf
      exact absurd hcf.symm Bool.false_ne_true
    · exact ⟨c, .inr (.inr (.inr hc)), hcf, rfl⟩

theorem taken_claim {h : A.blocks = pre ++ b :: post} {hf : A.flist = l₁ ++ b :: l₂} (q : ℕ) :
    (A.claim h hf).Taken q ↔ q = b.addr + HEAD ∨ A.Taken q := by
  have hb : b.free = true := ((A.mem_flist b).mp (by rw [hf]; simp)).2
  simp only [Taken, claim, h, List.mem_append, List.mem_cons]
  constructor
  · rintro ⟨c, hc | rfl | hc, hcf, rfl⟩
    · exact .inr ⟨c, .inl hc, hcf, rfl⟩
    · exact .inl rfl
    · exact .inr ⟨c, .inr (.inr hc), hcf, rfl⟩
  · rintro (rfl | ⟨c, hc | rfl | hc, hcf, rfl⟩)
    · exact ⟨{ b with free := false }, .inr (.inl rfl), rfl, rfl⟩
    · exact ⟨c, .inl hc, hcf, rfl⟩
    · rw [hb] at hcf
      exact absurd hcf.symm Bool.false_ne_true
    · exact ⟨c, .inr (.inr hc), hcf, rfl⟩

theorem taken_release {h : A.blocks = pre ++ b :: post} {hb : b.free = false} {hr : room ≤ b.size} (q : ℕ) :
    (A.release h hb hr).Taken q ↔ q ≠ b.addr + HEAD ∧ A.Taken q := by
  have hbA : b ∈ A.blocks := by rw [h]; simp
  have hne := notMem_of_blocks h
  have hinj : ∀ c, c ∈ pre ∨ c ∈ post → c.addr + HEAD ≠ b.addr + HEAD := by
    intro c hc he
    have hcA : c ∈ A.blocks := by rw [h]; simp only [List.mem_append, List.mem_cons]; tauto
    obtain rfl := A.tiled.addr_inj hcA hbA (Nat.add_right_cancel he)
    exact hc.elim hne.1 hne.2
  simp only [Taken, release, h, List.mem_append, List.mem_cons]
  constructor
  · rintro ⟨c, hc | rfl | hc, hcf, rfl⟩
    · exact ⟨hinj c (.inl hc), c, .inl hc, hcf, rfl⟩
    · exact absurd hcf (by simp)
    · exact ⟨hinj c (.inr hc), c, .inr (.inr hc), hcf, rfl⟩
  · rintro ⟨hq, c, hc | rfl | hc, hcf, rfl⟩
    · exact ⟨c, .inl hc, hcf, rfl⟩
    · exact absurd rfl hq
    · exact ⟨c, .inr (.inr hc), hcf, rfl⟩

/-- The block cut from a free block is at no address of a block of the layout. -/
theorem cut_notTaken (h : A.blocks = pre ++ b :: post) (hr : r + HEAD + 16 ≤ b.size) :
    ¬ A.Taken ((cut b r).addr + HEAD) := by
  rintro ⟨c, hc, -, he⟩
  have hbA : b ∈ A.blocks := by rw [h]; simp
  have he' := Nat.add_right_cancel he
  rcases A.tiled.eq_or_apart hbA hc with rfl | h1 | h1
  all_goals
    simp only [cut, Blk.fin, HEAD] at *
    omega

theorem addr_notTaken (h : A.blocks = pre ++ b :: post) (hb : b.free = true) : ¬ A.Taken (b.addr + HEAD) := by
  rintro ⟨c, hc, hcf, he⟩
  obtain rfl := A.tiled.addr_inj hc (by rw [h]; simp) (Nat.add_right_cancel he).symm
  rw [hb] at hcf
  exact absurd hcf.symm Bool.false_ne_true

end Layout

/-- First fit hands out a pointer that was not taken, and that one only. -/
theorem Took.taken {base room : ℕ} {A A' : Layout base room} {r p : ℕ} {C : Set (ℕ × Field)}
    (ht : Took A r p A' C) (hp : p ≠ NULL) : ¬ A.Taken p ∧ ∀ q, A'.Taken q ↔ q = p ∨ A.Taken q := by
  cases ht with
  | none h => exact absurd rfl hp
  | carve hb hf h1 hr hroom => exact ⟨Layout.cut_notTaken hb hr, Layout.taken_carve⟩
  | claim hb hf h1 hr hr' =>
    exact ⟨Layout.addr_notTaken hb ((A.mem_flist _).mp (by rw [hf]; simp)).2, Layout.taken_claim⟩

/-! ### The session refines the layouts -/

/-- The program's step on layouts. -/
inductive Move {base room : ℕ} (A : Layout base room) : Call → Layout base room → Prop
  | dalloc_zero : Move A (.dalloc 0) A
  | dalloc {n p : ℕ} {A' : Layout base room} {C : Set (ℕ × Field)} : n ≠ 0 → Took A (sizeT (adjust n)) p A' C →
      Move A (.dalloc n) A'
  | dfree_null : Move A (.dfree NULL) A
  | dfree {pre post : List Blk} {b : Blk} (hb : A.blocks = pre ++ b :: post) (hbt : b.free = false)
      (hr : room ≤ b.size) : Move A (.dfree (b.addr + HEAD)) (A.release hb hbt hr)
  | write : Move A .write A

section Holds

variable {μ L V : Type} [BlockMem μ L V] {m : Mapping} {A : Layout m.base (room μ)} {s s' : Session μ} {c : Call}

/-- **The session `s` holds the layout `A`**: so does its memory, and the program holds the payloads of the
taken blocks, each once. -/
structure Holds (m : Mapping) (s : Session μ) (A : Layout m.base (room μ)) : Prop where
  rep : Rep m s.heap A
  live : ∀ p, p ∈ s.live ↔ A.Taken p
  nodup : s.live.Nodup

theorem Holds.block (hh : Holds m s A) {p : ℕ} (hp : p ∈ s.live) : ∃ b pre post, A.blocks = pre ++ b :: post ∧
    b.free = false ∧ p = b.addr + HEAD ∧ val s.heap (p - HEAD) .size = b.size := by
  obtain ⟨b, hb, hbf, rfl⟩ := (hh.live p).mp hp
  obtain ⟨pre, post, hsplit⟩ := List.append_of_mem hb
  refine ⟨b, pre, post, hsplit, hbf, rfl, ?_⟩
  rw [Nat.add_sub_cancel]
  exact (hh.rep.headers.mem (A.mem_all_of_mem hb)).2

/-- What the program writes into its payloads reaches no cell of a block. -/
theorem Holds.not_payload (hh : Holds m s A) {b : Blk} {f : Field} (hb : b ∈ A.all) (ho : Owns b f) {x : L}
    (hx : x ∈ FootMem.foot μ (b.addr, f)) : ¬ s.Payload x := by
  rintro ⟨p, hp, h1, h2⟩
  obtain ⟨c, pre, post, hc, hcf, rfl, hsz⟩ := hh.block hp
  rw [hsz] at h2
  have hcA : c ∈ A.all := A.mem_all_of_mem (by rw [hc]; simp)
  have hx' := foot_addr b.addr f x hx
  have hspan := Layout.span_le_fin hb ho
  rcases A.tiled_all.eq_or_apart hb hcA with rfl | h | h
  · rcases ho with ho | ho
    · have := span_header (μ := μ) f ho
      omega
    · rw [ho] at hcf
      exact absurd hcf.symm Bool.false_ne_true
  all_goals
    simp only [Blk.fin] at h hspan
    omega

theorem Rep.write (hh : Holds m s A) {mem : μ}
    (hmem : ∀ x, ¬ s.Payload x → FootMem.read mem x = FootMem.read s.heap.mem x) :
    Rep m { s.heap with mem := mem } A := by
  have hval : ∀ b ∈ A.all, ∀ f : Field, Owns b f → val { s.heap with mem := mem } b.addr f = val s.heap b.addr f :=
    fun b hb f ho => FootMem.load_congr _ _ _ fun x hx => hmem x (hh.not_payload hb ho hx)
  refine ⟨hh.rep.mapped, hh.rep.arena, hh.rep.exact, hh.rep.headers.congr fun b hb f hf => hval b hb f (.inl hf), ?_⟩
  exact linked_congr (A := A) (List.Subset.refl _) hh.rep.links rfl fun b hb f _ =>
    hval b (A.mem_all_of_flist hb) f (.of_free ((A.mem_flist b).mp hb).2)

theorem dfree_null {h : Heap μ} : Runs (dfree NULL) h (fun _ h' => h' = h) :=
  runs_ite (fun h0 => absurd rfl h0) fun _ => runs_pure rfl

theorem Holds.hold (hh : Holds m s A) {r p : ℕ} {A' : Layout m.base (room μ)} {C : Set (ℕ × Field)} {h : Heap μ}
    (ht : Took A r p A' C) (hR : Rep m h A') : Holds m ⟨h, hold p s.live⟩ A' := by
  by_cases hp : p = NULL
  · subst hp
    obtain rfl := ht.eq_of_null
    exact ⟨hR, hh.live, hh.nodup⟩
  · obtain ⟨hnew, htaken⟩ := ht.taken hp
    refine ⟨hR, fun q => ?_, ?_⟩
    · simp only [Dlmalloc.hold, hp, if_false, List.mem_cons]
      rw [htaken q, hh.live q]
    · simp only [Dlmalloc.hold, hp, if_false]
      exact List.nodup_cons.mpr ⟨fun hm => hnew ((hh.live p).mp hm), hh.nodup⟩

/-- **The step lemma**: a step of the session is the same step on the layout. -/
theorem step_holds (hh : Holds m s A) (hst : Step s c s') (hroom : Roomy s c) :
    ∃ A', Move A c A' ∧ Holds m s' A' := by
  cases hst with
  | @dalloc n p h hn hr =>
    by_cases hn0 : n = 0
    · subst hn0
      obtain ⟨rfl, rfl⟩ := dalloc_zero.of_eq hr
      exact ⟨A, .dalloc_zero, hh.rep, hh.live, hh.nodup⟩
    · obtain ⟨A', C, ht, hR, -, -⟩ := (dalloc_spec hh.rep hn0).of_eq hr
      exact ⟨A', .dalloc hn0 ht, hh.hold ht hR⟩
  | @dfree p h hp hr =>
    by_cases hp0 : p = NULL
    · subst hp0
      obtain rfl := dfree_null.of_eq hr
      have h0 : NULL ∉ s.live := by
        intro hm
        obtain ⟨b, -, -, he⟩ := (hh.live _).mp hm
        simp [NULL] at he
      rw [List.erase_of_not_mem h0]
      exact ⟨A, .dfree_null, hh⟩
    · have hp := hp.resolve_left hp0
      obtain ⟨b, pre, post, hb, hbf, rfl, hsz⟩ := hh.block hp
      have hrb : room μ ≤ b.size := hsz ▸ hroom _ rfl hp0
      obtain ⟨hR, -⟩ := (dfree_spec hh.rep hb hbf hrb).of_eq hr
      refine ⟨_, .dfree hb hbf hrb, hR, fun q => ?_, hh.nodup.erase _⟩
      rw [Layout.taken_release, hh.nodup.mem_erase_iff, hh.live q]
  | write hmem => exact ⟨A, .write, Rep.write hh hmem, hh.live, hh.nodup⟩

/-- **No fault**: a call the program may make returns. -/
theorem can_step (hh : Holds m s A) (hroom : Roomy s c)
    (hc : (∃ n < 2 ^ 64, c = .dalloc n) ∨ ∃ p, c = .dfree p ∧ (p = NULL ∨ p ∈ s.live)) : ∃ s', Step s c s' := by
  rcases hc with ⟨n, hn, rfl⟩ | ⟨p, rfl, hp⟩
  · by_cases hn0 : n = 0
    · subst hn0
      obtain ⟨p, h', hr⟩ := (dalloc_zero (h := s.heap)).run_eq
      exact ⟨_, .dalloc hn hr⟩
    · obtain ⟨p, h', hr⟩ := (dalloc_spec hh.rep hn0).run_eq
      exact ⟨_, .dalloc hn hr⟩
  · by_cases hp0 : p = NULL
    · subst hp0
      obtain ⟨_, h', hr⟩ := (dfree_null (h := s.heap)).run_eq
      exact ⟨_, .dfree hp hr⟩
    · obtain ⟨b, pre, post, hb, hbf, rfl, hsz⟩ := hh.block (hp.resolve_left hp0)
      have hrb : room μ ≤ b.size := hsz ▸ hroom _ rfl hp0
      obtain ⟨_, h', hr⟩ := (dfree_spec hh.rep hb hbf hrb).run_eq
      exact ⟨_, .dfree hp hr⟩

theorem Started.cut {tr : List (Session μ × Call)} {t : Session μ} (hst : Started m tr s) (hm : (t, c) ∈ tr) :
    ∃ tr₁ t' tr₂, tr = tr₁ ++ (t, c) :: tr₂ ∧ Started m tr₁ t ∧ Step t c t' ∧ Path Step t' tr₂ s := by
  obtain ⟨mem, h₀, hi, hp⟩ := hst
  obtain ⟨tr₁, t', tr₂, htr, h1, h2, h3⟩ := hp.cut hm
  exact ⟨tr₁, t', tr₂, htr, ⟨mem, h₀, hi, h1⟩, h2, h3⟩

theorem Started.snoc {tr : List (Session μ × Call)} (hst : Started m tr s) (hs : Step s c s') :
    Started m (tr ++ [(s, c)]) s' := by
  obtain ⟨mem, h₀, hi, hp⟩ := hst
  exact ⟨mem, h₀, hi, hp.snoc hs⟩

/-- **The run lemma**: a property of layouts that the steps of a run keep is kept by the run. -/
theorem run_holds {s₀ : Session μ} {tr : List (Session μ × Call)} (hp : Path Step s₀ tr s)
    {P : Layout m.base (room μ) → Prop} (h0 : ∃ A, Holds m s₀ A ∧ P A)
    (hs : ∀ t c t', (t, c) ∈ tr → Step t c t' → ∀ A, Holds m t A → P A → Roomy t c ∧ ∀ A', Move A c A' → P A') :
    ∃ A, Holds m s A ∧ P A := by
  refine hp.invariant (I := fun s => ∃ A, Holds m s A ∧ P A) h0 ?_
  rintro t c t' hm ⟨A, hA, hPA⟩ hstep
  obtain ⟨hroom, hP'⟩ := hs t c t' hm hstep A hA hPA
  obtain ⟨A', hmv, hA'⟩ := step_holds hA hstep hroom
  exact ⟨A', hA', hP' A' hmv⟩

/-- The run lemma from `init()` on: the property has to hold of the first layout. -/
theorem Started.holds {tr : List (Session μ × Call)} (hst : Started m tr s) {P : Layout m.base (room μ) → Prop}
    (h0 : P (Layout.fresh m.base (room μ) room_le))
    (hs : ∀ t c t', (t, c) ∈ tr → Step t c t' → ∀ A, Holds m t A → P A → Roomy t c ∧ ∀ A', Move A c A' → P A') :
    ∃ A, Holds m s A ∧ P A := by
  obtain ⟨mem, h₀, hi, hp⟩ := hst
  refine run_holds hp ⟨_, ⟨(init_spec m mem).of_eq hi, fun p => ?_, List.nodup_nil⟩, h0⟩ hs
  simp [Layout.Taken, Layout.fresh]

end Holds

/-! ### Runs that can be computed -/

section Play

variable {μ L V : Type} [BlockMem μ L V] {m : Mapping}

/-- The session after the calls `cs`, when the program may make them and none faults. -/
def play (s : Session μ) : List Call → Option (Session μ)
  | [] => some s
  | .dalloc n :: cs =>
    if n < 2 ^ 64 then
      match (dalloc n).run s.heap with
      | .ok (p, h) => play ⟨h, hold p s.live⟩ cs
      | .error _ => none
    else none
  | .dfree p :: cs =>
    if p = NULL ∨ p ∈ s.live then
      match (dfree p).run s.heap with
      | .ok (_, h) => play ⟨h, s.live.erase p⟩ cs
      | .error _ => none
    else none
  | .write :: cs => play s cs

/-- `init()`, then the calls `cs`. -/
def playFrom (m : Mapping) (mem : μ) (cs : List Call) : Option (Session μ) :=
  match (init (some m)).run (Heap.start mem) with
  | .ok (_, h₀) => play ⟨h₀, []⟩ cs
  | .error _ => none

theorem Started.play (tr : List (Session μ × Call)) {s s' : Session μ} {cs : List Call} (hst : Started m tr s)
    (hp : play s cs = some s') : ∃ tr', Started m (tr ++ tr') s' ∧ tr'.map Prod.snd = cs := by
  induction cs generalizing tr s with
  | nil =>
    obtain rfl : s = s' := Option.some.inj hp
    exact ⟨[], by simpa using hst, rfl⟩
  | cons c cs ih =>
    have key : ∀ t, Step s c t → Dlmalloc.play t cs = some s' →
        ∃ tr', Started m (tr ++ tr') s' ∧ tr'.map Prod.snd = c :: cs := by
      intro t hs ht
      obtain ⟨tr', h1, h2⟩ := ih _ (hst.snoc hs) ht
      exact ⟨(s, c) :: tr', by simpa using h1, by simp [h2]⟩
    cases c with
    | dalloc n =>
      simp only [Dlmalloc.play] at hp
      split_ifs at hp with hn
      split at hp
      · exact key _ (.dalloc hn ‹_›) hp
      · exact absurd hp (by simp)
    | dfree p =>
      simp only [Dlmalloc.play] at hp
      split_ifs at hp with hlive
      split at hp
      · exact key _ (.dfree hlive ‹_›) hp
      · exact absurd hp (by simp)
    | write => exact key s (.write fun _ _ => rfl) hp

/-- A computed session is reached by a run that makes these calls. -/
theorem started_of_playFrom {mem : μ} {cs : List Call} {s : Session μ} (hp : playFrom m mem cs = some s) :
    ∃ tr, Started m tr s ∧ tr.map Prod.snd = cs := by
  unfold playFrom at hp
  split at hp
  · exact Started.play [] ⟨mem, _, ‹_›, .nil⟩ hp
  · exact absurd hp (by simp)

theorem exists_started (m : Mapping) (mem : μ) (cs : List Call) (P : Session μ → Bool)
    (h : (playFrom m mem cs).any P = true) :
    ∃ tr s, tr.map Prod.snd = cs ∧ Started m tr s ∧ P s = true := by
  obtain ⟨s, hs, hP⟩ := (Option.any_eq_true _ _).mp h
  obtain ⟨tr, hst, htr⟩ := started_of_playFrom hs
  exact ⟨tr, s, htr, hst, hP⟩

/-- The second page of the address space, as an example of a mapping. -/
def Mapping.second : Mapping := ⟨4096, by decide, by decide, by decide⟩

end Play

end Seminars.Dlmalloc
