import Mathlib.Data.Finset.Card
import Mathlib.Data.Finset.Range
import Seminars.Lib.Path
import Seminars.Lib.RunLogic

/-!
# Seminars.Swapping.Simulate — `swapping-assignment/bench.c`

The simulation of random page replacement.  A `pte` is one `int`, so the memory is seen as a row of `int`s: the entry
of page `j` is at `tbl + j`, addresses that are not mapped hold `none`.  `rand()` is a given sequence of results.

The local `evict` of `simulate` is never assigned, and the page drawn in the eviction loop (`rnd`) is never used:
`evict i` is the value that happens to be in the variable during iteration `i`.

* `evictLoop_ends`, `evictLoop_diverges`: the loop ends after one draw or never, whatever is drawn.
* `Filled`: the table as long as nothing was evicted; `Filled.step` is its step lemma.
* `respects_iff`: the sequences for which the simulation is one of random replacement.
-/

namespace Seminars.Swapping

open Seminars.Lib

/-- Ways for the program to go wrong. -/
inductive Fault
  | segv | diverge
  deriving DecidableEq, Repr

/-- Memory, the number of calls of `rand()`, the local variables of `simulate`. -/
structure Sim where
  mem : ℕ → Option ℤ
  drawn : ℕ
  i : ℕ
  hits : ℕ
  allocated : ℕ

/-- The parameters of `simulate`, the results of `rand()`, what is in `evict`, and how many rounds of the eviction loop
are executed. -/
structure Env where
  tbl : ℕ
  frms : ℕ
  pgs : ℕ
  rand : ℕ → ℕ
  evict : ℕ → ℕ
  rounds : ℕ

abbrev M := StateT Sim (Except Fault)

/-- The `int` at `a`. -/
def load (a : ℕ) : M ℤ := do
  match (← get).mem a with
  | some v => return v
  | none => throw .segv

def store (a : ℕ) (v : ℤ) : M Unit := do
  if (← get).mem a = none then
    throw .segv
  else
    modify fun s => { s with mem := Function.update s.mem a (some v) }

def draw (env : Env) : M ℕ := do
  let r := env.rand (← get).drawn
  modify fun s => { s with drawn := s.drawn + 1 }
  return r

/-- The loop of `clear_page_table`, from `i` on. -/
def clearLoop (tbl : ℕ) : ℕ → ℕ → M Unit
  | 0, _ => pure ()
  | left + 1, i => do
    store (tbl + i) 0
    clearLoop tbl left (i + 1)

def clearPageTable (tbl pgs : ℕ) : M Unit := clearLoop tbl pgs 0

/-- `do { int rnd = rand() % pgs; } while(evict->present != 1);` -/
def evictLoop (env : Env) (evict : ℕ) : ℕ → M Unit
  | 0 => throw .diverge
  | rounds + 1 => do
    let _rnd := (← draw env) % env.pgs
    if (← load evict) ≠ 1 then
      evictLoop env evict rounds
    else
      pure ()

/-- The body of the loop of `simulate`, for the reference `next`. -/
def reference (env : Env) (next : ℕ) : M Unit := do
  let entry := env.tbl + next
  if (← load entry) = 1 then
    modify fun s => { s with hits := s.hits + 1 }
  else
    if (← get).allocated < env.frms then
      modify fun s => { s with allocated := s.allocated + 1 }
      store entry 1
    else
      let evict := env.evict (← get).i
      evictLoop env evict env.rounds
      store evict 0
      store entry 1
  modify fun s => { s with i := s.i + 1 }

/-- The loop of `simulate`. -/
def simulateLoop (env : Env) : List ℕ → M Unit
  | [] => pure ()
  | next :: seq => do
    reference env next
    simulateLoop env seq

def simulate (env : Env) (seq : List ℕ) : M ℕ := do
  modify fun s => { s with i := 0, hits := 0, allocated := 0 }
  simulateLoop env seq
  return (← get).hits

/-! ### What a simulation of random replacement does -/

/-- One reference is processed. -/
def Reference (env : Env) (s : Sim) (next : ℕ) (s' : Sim) : Prop := (reference env next).run s = .ok ((), s')

/-- The page is in a frame. -/
def Present (env : Env) (s : Sim) (p : ℕ) : Prop := s.mem (env.tbl + p) = some 1

instance (env : Env) (s : Sim) : DecidablePred (Present env s) := fun _ => inferInstanceAs (Decidable (_ = _))

/-- The reference makes `simulate` evict a page. -/
def Evicts (env : Env) (s : Sim) (p : ℕ) : Prop := ¬ Present env s p ∧ env.frms ≤ s.allocated

/-- The number of references that did not find their page, and that did. -/
def misses (env : Env) (tr : List (Sim × ℕ)) : ℕ := tr.countP fun x => ¬ Present env x.1 x.2

def found (env : Env) (tr : List (Sim × ℕ)) : ℕ := tr.countP fun x => Present env x.1 x.2

/-- The locals of `simulate` are set. -/
def Sim.begin (s : Sim) : Sim := { s with i := 0, hits := 0, allocated := 0 }

/-- **The frame limit is respected** while `seq` is processed from `s` on.  What is said of a reference is said when it
has been processed; what decides about an eviction is said before. -/
structure Respects (env : Env) (seq : List ℕ) (s : Sim) : Prop where
  present : ∀ tr t u p, Path (Reference env) s.begin (tr ++ [(t, p)]) u → tr.map Prod.snd ++ [p] <+: seq →
    Present env u p
  frames : ∀ tr u, Path (Reference env) s.begin tr u → tr.map Prod.snd <+: seq →
    ((Finset.range env.pgs).filter (Present env u)).card = min env.frms (misses env tr)
  evicts : ∀ tr t u p, Path (Reference env) s.begin (tr ++ [(t, p)]) u → tr.map Prod.snd ++ [p] <+: seq →
    Evicts env t p → ∃ q < env.pgs, Present env t q ∧ ¬ Present env u q
  depends : ∀ tr t p, Path (Reference env) s.begin tr t → tr.map Prod.snd ++ [p] <+: seq → Evicts env t p →
    ∃ rand, (reference { env with rand := rand } p).run t ≠ (reference env p).run t
  hits : ∀ tr u, Path (Reference env) s.begin tr u → tr.map Prod.snd = seq →
    (simulate env seq).run s = .ok (found env tr, u)

section Code

variable {env : Env} {s s' : Sim} {a p n : ℕ} {v : ℤ}

theorem load_run (hv : s.mem a = some v) : (load a).run s = .ok (v, s) := by
  unfold load
  rw [run_bind_ok rfl, hv]
  rfl

theorem store_run (ha : s.mem a ≠ none) (v : ℤ) :
    (store a v).run s = .ok ((), { s with mem := Function.update s.mem a (some v) }) := by
  unfold store
  rw [run_bind_ok rfl]
  exact congrArg (fun c : M Unit => c.run s) (if_neg ha)

theorem load_segv (hv : s.mem a = none) : (load a).run s = .error .segv := by
  unfold load
  rw [run_bind_ok rfl, hv]
  rfl

theorem evictLoop_succ : (evictLoop env a (n + 1)).run s =
    (load a >>= fun v => if v ≠ 1 then evictLoop env a n else pure ()).run { s with drawn := s.drawn + 1 } :=
  run_bind_ok rfl

/-- **The eviction loop does not look at the page it draws.** -/
theorem evictLoop_rand (rand : ℕ → ℕ) (a n : ℕ) (s : Sim) :
    (evictLoop { env with rand := rand } a n).run s = (evictLoop env a n).run s := by
  induction n generalizing s with
  | zero => rfl
  | succ n ih =>
    rw [evictLoop_succ, evictLoop_succ]
    cases hv : s.mem a with
    | none =>
      have hload := load_segv (s := { s with drawn := s.drawn + 1 }) hv
      rw [run_bind_error hload, run_bind_error hload]
    | some v =>
      have hload := load_run (s := { s with drawn := s.drawn + 1 }) hv
      rw [run_bind_ok hload, run_bind_ok hload]
      split_ifs
      · exact ih _
      · rfl

/-- The loop ends after one draw when `evict` leads to a 1. -/
theorem evictLoop_ends (hv : s.mem a = some 1) :
    (evictLoop env a (n + 1)).run s = .ok ((), { s with drawn := s.drawn + 1 }) := by
  rw [evictLoop_succ, run_bind_ok (load_run (s := { s with drawn := s.drawn + 1 }) hv)]
  rfl

/-- When `evict` leads to anything else, it does not end. -/
theorem evictLoop_diverges (hv : s.mem a = some v) (h1 : v ≠ 1) : (evictLoop env a n).run s = .error .diverge := by
  induction n generalizing s with
  | zero => rfl
  | succ n ih =>
    rw [evictLoop_succ, run_bind_ok (load_run (s := { s with drawn := s.drawn + 1 }) hv), if_pos h1]
    exact ih hv

/-- Processing a reference has the same outcome whatever is drawn. -/
theorem reference_rand (rand : ℕ → ℕ) (p : ℕ) (s : Sim) :
    (reference { env with rand := rand } p).run s = (reference env p).run s := by
  have hloop : evictLoop { env with rand := rand } = evictLoop env := by
    funext a n s
    exact evictLoop_rand rand a n s
  unfold reference
  simp only [hloop]

theorem reference_hit (h : Present env s p) :
    Reference env s p { s with hits := s.hits + 1, i := s.i + 1 } := by
  unfold Reference reference
  rw [run_bind_ok (load_run h)]
  rfl

theorem reference_fill (hm : s.mem (env.tbl + p) = some v) (h1 : v ≠ 1) (hfree : s.allocated < env.frms) :
    Reference env s p { s with
      mem := Function.update s.mem (env.tbl + p) (some 1), allocated := s.allocated + 1, i := s.i + 1 } := by
  unfold Reference reference
  rw [run_bind_ok (load_run hm), if_neg h1, run_bind_ok rfl, if_pos hfree, run_bind_ok rfl]
  have hstore := store_run (s := { s with allocated := s.allocated + 1 }) (a := env.tbl + p) (by simp [hm]) 1
  rw [run_bind_ok hstore]
  rfl

theorem clearLoop_zero {tbl left i : ℕ} (h : (clearLoop tbl left i).run s = .ok ((), s')) :
    (∀ j, i ≤ j → j < i + left → s'.mem (tbl + j) = some 0) ∧ ∀ a, a < tbl + i → s'.mem a = s.mem a := by
  induction left generalizing s i with
  | zero =>
    obtain ⟨-, rfl⟩ := Prod.mk.inj (Except.ok.inj h)
    exact ⟨fun j h1 h2 => absurd h2 (by omega), fun _ _ => rfl⟩
  | succ left ih =>
    by_cases hm : s.mem (tbl + i) = none
    · have hstore : (store (tbl + i) 0).run s = .error .segv := by
        unfold store
        rw [run_bind_ok rfl]
        exact congrArg (fun c : M Unit => c.run s) (if_pos hm)
      rw [clearLoop, run_bind_error hstore] at h
      exact nomatch h
    · rw [clearLoop, run_bind_ok (store_run hm 0)] at h
      obtain ⟨h1, h2⟩ := ih h
      refine ⟨fun j hj hj' => ?_, fun a ha => ?_⟩
      · rcases Nat.eq_or_lt_of_le hj with rfl | hlt
        · rw [h2 _ (by omega)]
          exact Function.update_self ..
        · exact h1 j hlt (by omega)
      · rw [h2 a (by omega)]
        exact Function.update_of_ne (by omega) _ _

end Code

/-! ### As long as nothing is evicted -/

section Fill

variable {env : Env} {s₀ s s' : Sim} {p n : ℕ} {tr : List (Sim × ℕ)} {seq : List ℕ}

/-- **The invariant**: the pages in the table are those referenced so far, one frame is taken for each. -/
structure Filled (env : Env) (tr : List (Sim × ℕ)) (s : Sim) : Prop where
  mapped : ∀ j < env.pgs, s.mem (env.tbl + j) ≠ none
  pages : ∀ j < env.pgs, Present env s j ↔ j ∈ tr.map Prod.snd
  allocated : s.allocated = (tr.map Prod.snd).toFinset.card
  misses : misses env tr = s.allocated
  hits : s.hits = found env tr

theorem pages_snoc : ((tr ++ [(s, p)]).map Prod.snd).toFinset = insert p (tr.map Prod.snd).toFinset := by
  ext j
  simp

/-- **The step lemma**: a reference to a page that is there, or for which a frame is left, is processed, and then the
page is there. -/
theorem Filled.step (h : Filled env tr s) (hp : p < env.pgs) (hfree : ¬ Evicts env s p) :
    ∃ s', Reference env s p s' ∧ Filled env (tr ++ [(s, p)]) s' ∧ Present env s' p := by
  by_cases hpres : Present env s p
  · have hmem := (h.pages p hp).mp hpres
    refine ⟨_, reference_hit hpres, ⟨h.mapped, fun j hj => ?_, ?_, ?_, ?_⟩, hpres⟩
    · rw [List.map_append, List.mem_append]
      refine ⟨fun hj' => .inl ((h.pages j hj).mp hj'), fun hj' => ?_⟩
      rcases hj' with hj' | hj'
      · exact (h.pages j hj).mpr hj'
      · rw [List.mem_singleton.mp hj']
        exact hpres
    · rw [pages_snoc, Finset.insert_eq_of_mem (List.mem_toFinset.mpr hmem)]
      exact h.allocated
    · simpa [Swapping.misses, hpres] using h.misses
    · simpa [found, hpres] using h.hits
  · obtain ⟨v, hv⟩ := Option.ne_none_iff_exists'.mp (h.mapped p hp)
    have h1 : v ≠ 1 := by
      rintro rfl
      exact hpres hv
    have hlt : s.allocated < env.frms := not_le.mp fun hle => hfree ⟨hpres, hle⟩
    have hnot : p ∉ tr.map Prod.snd := fun hm => hpres ((h.pages p hp).mpr hm)
    refine ⟨_, reference_fill hv h1 hlt, ⟨fun j hj => ?_, fun j hj => ?_, ?_, ?_, ?_⟩, Function.update_self ..⟩
    · by_cases hjp : j = p
      · subst hjp
        simp
      · simpa [hjp] using h.mapped j hj
    · by_cases hjp : j = p
      · subst hjp
        simp [Present]
      · simpa [Present, hjp] using h.pages j hj
    · rw [pages_snoc, Finset.card_insert_of_notMem (by simpa using hnot)]
      exact congrArg (· + 1) h.allocated
    · simpa [Swapping.misses, hpres] using h.misses
    · simpa [found, hpres] using h.hits

theorem card_of_initial {l : List ℕ} (h : l <+: seq) (hcard : seq.toFinset.card ≤ n) : l.toFinset.card ≤ n :=
  (Finset.card_le_card fun _ hx => List.mem_toFinset.mpr (h.subset (List.mem_toFinset.mp hx))).trans hcard

/-- A reference is evicting when its page is one too many. -/
theorem Filled.evicts_iff (h : Filled env tr s) (hp : p < env.pgs)
    (hcard : (tr.map Prod.snd).toFinset.card ≤ env.frms) :
    Evicts env s p ↔ env.frms < (tr.map Prod.snd ++ [p]).toFinset.card := by
  have hins : (tr.map Prod.snd ++ [p]).toFinset = insert p (tr.map Prod.snd).toFinset := by
    ext j
    simp
  rw [hins, Evicts, h.pages p hp, h.allocated]
  by_cases hm : p ∈ tr.map Prod.snd
  · rw [Finset.insert_eq_of_mem (List.mem_toFinset.mpr hm)]
    exact iff_of_false (fun hev => hev.1 hm) (not_lt.mpr hcard)
  · rw [Finset.card_insert_of_notMem (by simpa using hm)]
    exact ⟨fun hev => Nat.lt_succ_of_le hev.2, fun hlt => ⟨hm, Nat.le_of_lt_succ hlt⟩⟩

/-- A frame is left as long as not too many pages have been referenced. -/
theorem Filled.not_evicts (h : Filled env tr s) (hp : p < env.pgs)
    (hcard : (tr.map Prod.snd ++ [p]).toFinset.card ≤ env.frms) : ¬ Evicts env s p := by
  intro hev
  have hlt := (h.evicts_iff hp (card_of_initial (List.prefix_append _ _) hcard)).mp hev
  exact absurd hcard (not_le.mpr hlt)

theorem Filled.card_present (h : Filled env tr s) (hpgs : ∀ p ∈ tr.map Prod.snd, p < env.pgs) :
    ((Finset.range env.pgs).filter (Present env s)).card = s.allocated := by
  have hset : (Finset.range env.pgs).filter (Present env s) = (tr.map Prod.snd).toFinset := by
    ext j
    rw [Finset.mem_filter, Finset.mem_range, List.mem_toFinset]
    refine ⟨fun hj => (h.pages j hj.1).mp hj.2, fun hj => ?_⟩
    exact ⟨hpgs j hj, (h.pages j (hpgs j hj)).mpr hj⟩
  rw [hset, h.allocated]

theorem Reference.eq {t t' : Sim} (h : Reference env s p t) (h' : Reference env s p t') : t = t' :=
  (Prod.mk.inj (Except.ok.inj (h.symm.trans h'))).2

/-- **The run lemma.** -/
theorem filled_run (h0 : Filled env [] s₀) (hp : Path (Reference env) s₀ tr s)
    (hpgs : ∀ p ∈ tr.map Prod.snd, p < env.pgs) (hcard : (tr.map Prod.snd).toFinset.card ≤ env.frms) :
    Filled env tr s := by
  induction hp with
  | nil => exact h0
  | @snoc tr t u p _ hst ih =>
    rw [List.map_append, List.map_singleton] at hcard
    have hfill := ih (fun q hq => hpgs q (by simp only [List.map_append, List.mem_append]; exact .inl hq))
      (card_of_initial (List.prefix_append _ _) hcard)
    have hpp : p < env.pgs := hpgs p (by simp)
    obtain ⟨u', hst', hfill', -⟩ := hfill.step hpp (hfill.not_evicts hpp hcard)
    rw [hst.eq hst']
    exact hfill'

theorem exists_fill (h0 : Filled env [] s₀) (hpgs : ∀ p ∈ seq, p < env.pgs) (hcard : seq.toFinset.card ≤ env.frms) :
    ∃ tr s, Path (Reference env) s₀ tr s ∧ tr.map Prod.snd = seq := by
  induction seq using List.reverseRecOn with
  | nil => exact ⟨[], s₀, .nil, rfl⟩
  | append_singleton seq p ih =>
    obtain ⟨tr, s, hp, rfl⟩ := ih (fun q hq => hpgs q (by simp [hq])) (card_of_initial (List.prefix_append _ _) hcard)
    have hpp : p < env.pgs := hpgs p (by simp)
    have hfill := filled_run h0 hp (fun q hq => hpgs q (by simp only [List.mem_append]; exact .inl hq))
      (card_of_initial (List.prefix_append _ _) hcard)
    obtain ⟨s', hst, -, -⟩ := hfill.step hpp (hfill.not_evicts hpp hcard)
    exact ⟨_, s', hp.snoc hst, by simp⟩

theorem simulateLoop_snoc (env : Env) (seq : List ℕ) (p : ℕ) :
    simulateLoop env (seq ++ [p]) = simulateLoop env seq >>= fun _ => reference env p := by
  induction seq with
  | nil =>
    rw [List.nil_append, simulateLoop, simulateLoop, simulateLoop, pure_bind]
    exact bind_pure _
  | cons q seq ih =>
    rw [List.cons_append, simulateLoop, ih, simulateLoop, bind_assoc]

theorem simulateLoop_run (hp : Path (Reference env) s tr s') :
    (simulateLoop env (tr.map Prod.snd)).run s = .ok ((), s') := by
  induction hp with
  | nil => rfl
  | snoc _ hst ih =>
    rw [List.map_append, List.map_singleton, simulateLoop_snoc, run_bind_ok ih]
    exact hst

theorem simulate_run (hp : Path (Reference env) s.begin tr s') :
    (simulate env (tr.map Prod.snd)).run s = .ok (s'.hits, s') := by
  have hbegin : (simulate env (tr.map Prod.snd)).run s =
      (simulateLoop env (tr.map Prod.snd) >>= fun _ => do return (← get).hits).run s.begin := run_bind_ok rfl
  rw [hbegin, run_bind_ok (simulateLoop_run hp)]
  rfl

end Fill

/-! ### The frame limit -/

section Limit

variable {env : Env} {s s₀ : Sim} {seq : List ℕ} {n : ℕ}

theorem filled_start (hclear : (clearPageTable env.tbl env.pgs).run s = .ok ((), s₀)) : Filled env [] s₀.begin := by
  have hzero : ∀ j < env.pgs, s₀.mem (env.tbl + j) = some 0 := fun j hj =>
    (clearLoop_zero hclear).1 j (Nat.zero_le j) (by omega)
  refine ⟨fun j hj => ?_, fun j hj => ?_, rfl, rfl, rfl⟩
  · rw [Sim.begin, hzero j hj]
    simp
  · simp [Present, Sim.begin, hzero j hj]

/-- Where the sequence has referenced more pages than there are frames. -/
theorem exists_overflow (hcard : n < seq.toFinset.card) :
    ∃ pre p, pre ++ [p] <+: seq ∧ pre.toFinset.card ≤ n ∧ n < (pre ++ [p]).toFinset.card := by
  induction seq using List.reverseRecOn with
  | nil => exact absurd hcard (by simp)
  | append_singleton seq p ih =>
    by_cases hlt : n < seq.toFinset.card
    · obtain ⟨pre, q, hpre, h1, h2⟩ := ih hlt
      exact ⟨pre, q, hpre.trans (List.prefix_append _ _), h1, h2⟩
    · exact ⟨seq, p, List.prefix_rfl, not_lt.mp hlt, hcard⟩

/-- **When the frame limit is respected**: when no reference reaches the eviction, that is, when the sequence refers to
as many different pages as there are frames, or fewer.  Then `simulate` also returns. -/
theorem respects_iff (hclear : (clearPageTable env.tbl env.pgs).run s = .ok ((), s₀))
    (hseq : ∀ p ∈ seq, p < env.pgs) :
    (Respects env seq s₀ ↔ seq.toFinset.card ≤ env.frms) ∧
      (seq.toFinset.card ≤ env.frms → ∃ n u, (simulate env seq).run s₀ = .ok (n, u)) := by
  have h0 := filled_start hclear
  refine ⟨⟨?_, ?_⟩, fun hcard => ?_⟩
  · intro hr
    by_contra hlt
    obtain ⟨pre, p, hpre, hcard, hover⟩ := exists_overflow (not_le.mp hlt)
    have hpgs : ∀ q ∈ pre ++ [p], q < env.pgs := fun q hq => hseq q (hpre.subset hq)
    have hpgs' : ∀ q ∈ pre, q < env.pgs := fun q hq => hpgs q (List.mem_append_left _ hq)
    obtain ⟨tr, t, hp, rfl⟩ := exists_fill h0 hpgs' hcard
    have hfill := filled_run h0 hp hpgs' hcard
    have hev : Evicts env t p := (hfill.evicts_iff (hpgs p (by simp)) hcard).mpr hover
    obtain ⟨rand, hne⟩ := hr.depends tr t p hp hpre hev
    exact hne (reference_rand rand p t)
  · intro hcard
    have hfilled : ∀ tr u, Path (Reference env) s₀.begin tr u → tr.map Prod.snd <+: seq → Filled env tr u :=
      fun tr u hp hpre => filled_run h0 hp (fun q hq => hseq q (hpre.subset hq)) (card_of_initial hpre hcard)
    have hno : ∀ tr t p, Path (Reference env) s₀.begin tr t → tr.map Prod.snd ++ [p] <+: seq → ¬ Evicts env t p :=
      fun tr t p hp hpre => (hfilled tr t hp ((List.prefix_append _ _).trans hpre)).not_evicts
        (hseq p (hpre.subset (by simp))) (card_of_initial hpre hcard)
    refine ⟨fun tr t u p hp hpre => ?_, fun tr u hp hpre => ?_, fun tr t u p hp hpre hev => ?_,
      fun tr t p hp hpre hev => absurd hev (hno tr t p hp hpre), fun tr u hp htr => ?_⟩
    · have hfill := hfilled _ u hp (by simpa using hpre)
      exact (hfill.pages p (hseq p (hpre.subset (by simp)))).mpr (by simp)
    · have hfill := hfilled tr u hp hpre
      rw [hfill.card_present fun q hq => hseq q (hpre.subset hq), hfill.misses, min_eq_right]
      rw [hfill.allocated]
      exact card_of_initial hpre hcard
    · exact absurd hev (hno tr t p hp.of_snoc.1 hpre)
    · subst htr
      rw [simulate_run hp, (hfilled tr u hp List.prefix_rfl).hits]
  · obtain ⟨tr, u, hp, rfl⟩ := exists_fill h0 hseq hcard
    exact ⟨_, u, simulate_run hp⟩

/-- Two pages, one frame, both `evict` and the table at the start of the memory. -/
def twoPages : Env := ⟨0, 1, 2, fun _ => 0, fun _ => 0, 3⟩

/-- The equivalence for references to page 1 only. -/
theorem respects_iff_one : ∃ s : Sim,
    (clearPageTable twoPages.tbl twoPages.pgs).run ⟨fun _ => some 5, 0, 0, 0, 0⟩ = .ok ((), s) ∧
    (Respects twoPages [1, 1, 1] s ↔ [1, 1, 1].toFinset.card ≤ twoPages.frms) := by
  obtain ⟨s, hs⟩ : ∃ s,
      (clearPageTable twoPages.tbl twoPages.pgs).run ⟨fun _ => some 5, 0, 0, 0, 0⟩ = .ok ((), s) := ⟨_, rfl⟩
  exact ⟨s, hs, (respects_iff hs (by decide)).1⟩

/-- Page 0, then page 1: page 0 is evicted because `evict` happens to lead there, whatever is drawn. -/
theorem not_respects : ∃ s : Sim,
    (clearPageTable twoPages.tbl twoPages.pgs).run ⟨fun _ => some 5, 0, 0, 0, 0⟩ = .ok ((), s) ∧
    ¬ Respects twoPages [0, 1] s := by
  obtain ⟨s, hs⟩ : ∃ s,
      (clearPageTable twoPages.tbl twoPages.pgs).run ⟨fun _ => some 5, 0, 0, 0, 0⟩ = .ok ((), s) := ⟨_, rfl⟩
  refine ⟨s, hs, fun hr => ?_⟩
  have h0 : Filled twoPages [] s.begin := filled_start hs
  have hone : ∀ p ∈ [0], p < twoPages.pgs := by decide
  obtain ⟨tr, t, hp, htr⟩ := exists_fill h0 hone (by decide)
  have hfill := filled_run h0 hp (by rw [htr]; decide) (by rw [htr]; decide)
  have hev : Evicts twoPages t 1 := by
    refine ⟨fun hpres => ?_, ?_⟩
    · have hm := (hfill.pages 1 (by decide)).mp hpres
      rw [htr] at hm
      exact absurd hm (by decide)
    · rw [hfill.allocated, htr]
      decide
  obtain ⟨rand, hne⟩ := hr.depends tr t 1 hp (by rw [htr]; decide) hev
  exact hne (reference_rand rand 1 t)

end Limit

end Seminars.Swapping
