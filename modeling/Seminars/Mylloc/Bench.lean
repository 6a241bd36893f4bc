import Mathlib.Algebra.BigOperators.Intervals
import Mathlib.Data.List.Sort
import Mathlib.Tactic.Ring
import Seminars.Lib.Slots
import Seminars.Mylloc.Growth

/-!
# Seminars.Mylloc.Bench — `mylloc-assignment/bench.c`

The program of section 2.5: a buffer of 100 pointers; an iteration frees one of them, or fills it and writes an `int`.
What an iteration draws (`rand() % BUFFER`, `request()`), and whether the kernel grants memory in it, is given.  The C
library takes the buffer for the output from the same `malloc`; how large that is is given too.

* `turn`, `turns`, `rounds`, `main`: the program, over either allocator.
* `bench_mhysa` — over `mhysa.c` the top of the heap that is printed stays within a bound.
* `bench_mylloc` — over `mylloc.c` it is the sum of all requests.
-/

namespace Seminars.Mylloc

open Seminars.Lib

abbrev BUFFER : ℕ := 100

/-- What an iteration draws; `size` is what `request()` returns. -/
structure Draw where
  index : Fin BUFFER
  size : ℕ
  grant : Bool

/-- `*memory = 123`, an `int` -/
def Sys.poke (s : Sys) (memory : ℕ) : Sys := { s with mem := storeLE s.mem memory 4 123 }

/-- The body of the inner loop; no buffer when `malloc` failed. -/
def turn (A : Allocator) (d : Draw) (buffer : Fin BUFFER → ℕ) (s : Sys) : Option (Option (Fin BUFFER → ℕ) × Sys) :=
  if buffer d.index ≠ NULL then
    -- buffer position not empty, so we free it
    some (some (Function.update buffer d.index NULL), A.free (buffer d.index) s)
  else do
    -- buffer position empty, so we allocate memory
    let (memory, s) ← A.malloc d.grant d.size s
    if memory = NULL then
      return (none, s)
    else
      return (some (Function.update buffer d.index memory), s.poke memory)

/-- The inner loop. -/
def turns (A : Allocator) : List Draw → (Fin BUFFER → ℕ) → Sys → Option (Option (Fin BUFFER → ℕ) × Sys)
  | [], buffer, s => some (some buffer, s)
  | d :: ds, buffer, s => do
    let (buffer, s) ← turn A d buffer s
    match buffer with
    | some buffer => turns A ds buffer s
    | none => return (none, s)

/-- What is printed after a round. -/
structure Line where
  j : ℕ
  current : ℕ
  allocated : ℤ
  deriving DecidableEq

def report (init j current : ℕ) : Line := ⟨j, current, int (Int.tdiv (intptr (current - init)) 1024)⟩

/-- The outer loop from the round `j` on: the lines printed and what `main` returns. -/
def rounds (A : Allocator) (init : ℕ) : ℕ → List (List Draw) → (Fin BUFFER → ℕ) → Sys → Option (List Line × ℕ × Sys)
  | _, [], _, s => some ([], 0, s)
  | j, ds :: draws, buffer, s => do
    let (buffer, s) ← turns A ds buffer s
    match buffer with
    | none => return ([], 1, s)
    | some buffer =>
      let top := s.sbrk true 0
      let (lines, code, s) ← rounds A init (j + 1) draws buffer top.2
      return (report init j top.1 :: lines, code, s)

/-- What the C library asks `malloc` for: nothing if `size` is 0. -/
structure Output where
  size : ℕ
  grant : Bool

/-- `main`: for each round the draws of its iterations. -/
def main (A : Allocator) (out : Output) (draws : List (List Draw)) (s : Sys) : Option (List Line × ℕ × Sys) := do
  let top := s.sbrk true 0
  -- the first `printf` allocates the buffer of `stdout`, and does without when it gets none
  let (_, s) ← A.malloc out.grant out.size top.2
  rounds A top.1 0 draws (fun _ => NULL) s

variable {b₀ k : ℕ} {s s' : Session} {cs : List Chunk} {fl : List ℕ} {buffer : Fin BUFFER → ℕ} {d : Draw}
  {ds : List Draw} {draws : List (List Draw)}

theorem Sys.sbrk_zero {s : Sys} (h : s.brk < TOP) : s.sbrk true 0 = (s.brk, { s with calls := s.calls + 1 }) := by
  have hk : true = true ∧ 0 ≤ (s.brk : ℤ) + 0 ∧ (s.brk : ℤ) + 0 < TOP := ⟨rfl, by omega, by omega⟩
  rw [Sys.sbrk_granted hk]
  simp

section Loops

variable {A : Allocator} {sys sys' : Sys} {buffer' : Fin BUFFER → ℕ} {init j : ℕ}

theorem main_eq {mem : ℕ → Byte} {b₀ p : ℕ} {out : Output} (ht : b₀ < TOP)
    (h : A.malloc out.grant out.size ⟨mem, b₀, NULL, 1⟩ = some (p, sys)) :
    main A out draws (Session.start mem b₀).sys = rounds A b₀ 0 draws (fun _ => NULL) sys := by
  rw [main, Sys.sbrk_zero ht]
  show Option.bind (A.malloc out.grant out.size ⟨mem, b₀, NULL, 1⟩) _ = _
  rw [h]
  rfl

theorem turns_some (h : turn A d buffer sys = some (some buffer', sys')) :
    turns A (d :: ds) buffer sys = turns A ds buffer' sys' := by
  rw [turns, h]
  rfl

theorem turns_none (h : turn A d buffer sys = some (none, sys')) :
    turns A (d :: ds) buffer sys = some (none, sys') := by
  rw [turns, h]
  rfl

theorem rounds_some (h : turns A ds buffer sys = some (some buffer', sys')) (ht : sys'.brk < TOP) :
    rounds A init j (ds :: draws) buffer sys =
      (rounds A init (j + 1) draws buffer' { sys' with calls := sys'.calls + 1 }).map fun r =>
        (report init j sys'.brk :: r.1, r.2) := by
  rw [rounds, h]
  show Option.bind (rounds A init (j + 1) draws buffer' (sys'.sbrk true 0).2) _ = _
  rw [Sys.sbrk_zero ht, Option.map_eq_bind]
  rfl

theorem rounds_none (h : turns A ds buffer sys = some (none, sys')) :
    rounds A init j (ds :: draws) buffer sys = some ([], 1, sys') := by
  rw [rounds, h]
  rfl

end Loops

/-! ### Over `mhysa.c` -/

/-- The smallest size a block of the program has, `sizeof(int)`, and the largest that `request()` returns. -/
abbrev MIN : ℕ := 4

abbrev MAX : ℕ := 4000

theorem Heap.store {a n v : ℕ} (h : Heap b₀ s cs fl) (hin : ∀ x, a ≤ x → x < a + n → s.Payload x) :
    Heap b₀ { s with sys := { s.sys with mem := storeLE s.sys.mem a n v } } cs fl := by
  induction n generalizing a v with
  | zero => exact h
  | succ n ih =>
    have hrest := ih (a := a + 1) (v := v / 256) fun x h1 h2 => hin x (by omega) (by omega)
    have hput : storeLE s.sys.mem a (n + 1) v =
        Function.update (storeLE s.sys.mem (a + 1) n (v / 256)) a (Fin.ofNat 256 v) := by
      funext x
      rw [Function.update_apply]
      rfl
    rw [hput]
    exact hrest.write (hin a le_rfl (by omega)) _

/-- What holds between two iterations: `k` calls of `sbrk` gave no chunk, if the kernel refuses nothing (`G`). -/
structure Kept (b₀ k : ℕ) (G : Prop) (buffer : Fin BUFFER → ℕ) (s : Session) : Prop where
  grown : ∃ cs fl, Grown b₀ MIN MAX BUFFER s cs fl ∧ (G → s.sys.calls = cs.length + k)
  slots : Slots NULL buffer (· ∈ s.live.map Prod.fst)

variable {G : Prop}

theorem turn_free (hk : Kept b₀ k G buffer s) (hi : buffer d.index ≠ NULL) :
    ∃ buffer' s', turn mhysa d buffer s.sys = some (some buffer', s'.sys) ∧ Kept b₀ k G buffer' s' ∧
      s.sys.brk ≤ s'.sys.brk := by
  obtain ⟨⟨cs, fl, hg, hc⟩, hslots⟩ := hk
  have hp : buffer d.index ∈ s.live.map Prod.fst := (hslots.held _).mpr ⟨hi, _, rfl⟩
  obtain ⟨fl', hh⟩ := hg.heap.freed (.inr hp)
  have hfree : mhysa.free (buffer d.index) s.sys =
      { s.sys.setNext (buffer d.index - CHUNK) s.sys.flist with flist := buffer d.index - CHUNK } := if_pos hi
  refine ⟨_, ⟨mhysa.free (buffer d.index) s.sys, s.live.filter fun b => b.1 ≠ buffer d.index, s.room⟩, if_pos hi,
    ⟨⟨cs, fl', ⟨hh, hg.room, hg.count⟩, ?_⟩, hslots.clear fun p => ?_⟩, ?_⟩
  · rw [hfree]
    exact hc
  · simp only [List.mem_map, List.mem_filter, decide_eq_true_eq]
    constructor
    · rintro ⟨b, ⟨hb, hne⟩, rfl⟩
      exact ⟨⟨b, hb, rfl⟩, hne⟩
    · rintro ⟨⟨b, hb, rfl⟩, hne⟩
      exact ⟨b, ⟨hb, hne⟩, rfl⟩
  · rw [hfree]
    exact le_rfl

/-- A buffer position that is not in use is filled, or `malloc` failed. -/
theorem turn_fill (hk : Kept b₀ k G buffer s) (hi : buffer d.index = NULL) (h4 : 4 ≤ d.size) (hM : d.size ≤ MAX)
    (hG : G → d.grant = true ∧ b₀ + mostFrom MIN BUFFER MAX < TOP) :
    (∃ sys, turn mhysa d buffer s.sys = some (none, sys) ∧ ¬ G) ∨
      ∃ buffer' s', turn mhysa d buffer s.sys = some (some buffer', s'.sys) ∧ Kept b₀ k G buffer' s' ∧
        s.sys.brk ≤ s'.sys.brk := by
  obtain ⟨⟨cs, fl, hg, hc⟩, hslots⟩ := hk
  have hlive : s.live.length < BUFFER := by
    have hlt := hslots.length_lt hi hg.heap.once fun p hp => hp
    rwa [List.length_map, Fintype.card_fin] at hlt
  obtain ⟨p, sys, hrun, hout⟩ := hg.heap.malloc_spec d.grant d.size
  obtain ⟨cs', fl', ha⟩ := hg.malloc (by decide) (fun _ => h4) hM hlive hout
  have hturn : turn mhysa d buffer s.sys =
      if p = NULL then some (none, sys) else some (some (Function.update buffer d.index p), sys.poke p) := by
    rw [turn, if_neg (not_not.mpr hi)]
    show Option.bind (mhysa.malloc d.grant d.size s.sys) _ = _
    rw [hrun]
    rfl
  by_cases hp : p = NULL
  · refine .inl ⟨sys, hturn.trans (if_pos hp), fun hg => ?_⟩
    obtain ⟨hgrant, htop⟩ := hG hg
    exact ha.ok hgrant htop (by omega) hp
  · have hserved : (s.served d.size p sys).live = (p, d.size) :: s.live := if_neg hp
    have hheap := ha.grown.heap
    have honce := hheap.once
    rw [hserved, List.map_cons, List.nodup_cons] at honce
    refine .inr ⟨_, { s.served d.size p sys with sys := sys.poke p }, hturn.trans (if_neg hp),
      ⟨⟨cs', fl', ⟨hheap.store fun x h1 h2 => ?_, ha.grown.room, ha.grown.count⟩, fun hg => ?_⟩,
        hslots.fill hi hp honce.1 fun q => ?_⟩, ha.brk⟩
    · refine ⟨(p, d.size), by rw [hserved]; exact List.mem_cons_self .., h1, ?_⟩
      show x < p + d.size
      omega
    · obtain ⟨hgrant, htop⟩ := hG hg
      have h1 := ha.calls hgrant htop
      have h2 := hc hg
      show sys.calls = cs'.length + k
      omega
    · show q ∈ (s.served d.size p sys).live.map Prod.fst ↔ _
      rw [hserved, List.map_cons, List.mem_cons]

/-- What the program draws: sizes that hold an `int`, and that `request()` returns. -/
def Draw.Fits (d : Draw) : Prop := MIN ≤ d.size ∧ d.size ≤ MAX

/-- The inner loop ends with a filled buffer, or because `malloc` failed. -/
theorem turns_spec (hk : Kept b₀ k G buffer s) (hfit : ∀ d ∈ ds, d.Fits)
    (hG : G → (∀ d ∈ ds, d.grant = true) ∧ b₀ + mostFrom MIN BUFFER MAX < TOP) :
    (∃ sys, turns mhysa ds buffer s.sys = some (none, sys) ∧ ¬ G) ∨
      ∃ buffer' s', turns mhysa ds buffer s.sys = some (some buffer', s'.sys) ∧ Kept b₀ k G buffer' s' ∧
        s.sys.brk ≤ s'.sys.brk := by
  induction ds generalizing buffer s with
  | nil => exact .inr ⟨buffer, s, rfl, hk, le_rfl⟩
  | cons d ds ih =>
    have hturn : (∃ sys, turn mhysa d buffer s.sys = some (none, sys) ∧ ¬ G) ∨
        ∃ buffer' s', turn mhysa d buffer s.sys = some (some buffer', s'.sys) ∧ Kept b₀ k G buffer' s' ∧
          s.sys.brk ≤ s'.sys.brk := by
      by_cases hi : buffer d.index = NULL
      · obtain ⟨h4, hM⟩ := hfit d (List.mem_cons_self ..)
        exact turn_fill hk hi h4 hM fun hg => ⟨(hG hg).1 d (List.mem_cons_self ..), (hG hg).2⟩
      · exact .inr (turn_free hk hi)
    rcases hturn with ⟨sys, hrun, hno⟩ | ⟨buffer₁, s₁, hrun, hk₁, hle₁⟩
    · exact .inl ⟨sys, turns_none hrun, hno⟩
    · rw [turns_some hrun]
      rcases ih hk₁ (fun d hd => hfit d (List.mem_cons_of_mem _ hd)) fun hg =>
          ⟨fun d hd => (hG hg).1 d (List.mem_cons_of_mem _ hd), (hG hg).2⟩ with
        ⟨sys, h, hno⟩ | ⟨buffer₂, s₂, h, hk₂, hle₂⟩
      · exact .inl ⟨sys, h, hno⟩
      · exact .inr ⟨buffer₂, s₂, h, hk₂, hle₁.trans hle₂⟩

/-- What is printed while the break is between `lo` and `hi`; it was `init` at the start. -/
structure Printed (init lo hi : ℕ) (lines : List Line) : Prop where
  line : ∀ l ∈ lines, lo ≤ l.current ∧ l.current ≤ hi ∧ l = report init l.j l.current
  sorted : (lines.map Line.current).Pairwise (· ≤ ·)

theorem Printed.cons {init lo hi j current : ℕ} {lines : List Line} (h : Printed init current hi lines)
    (hlo : lo ≤ current) (hle : current ≤ hi) : Printed init lo hi (report init j current :: lines) := by
  constructor
  · intro l hl
    rcases List.mem_cons.mp hl with rfl | hl
    · exact ⟨hlo, hle, rfl⟩
    · obtain ⟨h1, h2⟩ := h.line l hl
      exact ⟨hlo.trans h1, h2⟩
  · refine List.pairwise_cons.mpr ⟨fun c hc => ?_, h.sorted⟩
    obtain ⟨l, hl, rfl⟩ := List.mem_map.mp hc
    exact (h.line l hl).1

/-- **The outer loop.** -/
theorem rounds_spec (init : ℕ) {j : ℕ} (hk : Kept b₀ k G buffer s) (hfit : ∀ ds ∈ draws, ∀ d ∈ ds, d.Fits)
    (hG : G → (∀ ds ∈ draws, ∀ d ∈ ds, d.grant = true) ∧ b₀ + mostFrom MIN BUFFER MAX < TOP) :
    ∃ lines code sys, rounds mhysa init j draws buffer s.sys = some (lines, code, sys) ∧
      Printed init s.sys.brk (b₀ + mostFrom MIN BUFFER MAX) lines ∧
      (code = 0 ∧ lines.map Line.j = List.range' j draws.length ∧
          (G → sys.calls ≤ BUFFER * (MAX + 1 - MIN) + k + draws.length) ∨ code = 1 ∧ ¬ G) := by
  induction draws generalizing buffer s j k with
  | nil =>
    refine ⟨[], 0, s.sys, rfl, ⟨by simp, by simp⟩, .inl ⟨rfl, rfl, fun hg => ?_⟩⟩
    obtain ⟨⟨cs, fl, hgr, hc⟩, -⟩ := hk
    have hlen := length_le_of_count hgr.room hgr.count
    rw [hc hg, List.length_nil, Nat.add_zero]
    exact Nat.add_le_add_right hlen k
  | cons ds draws ih =>
    rcases turns_spec hk (hfit ds (List.mem_cons_self ..)) fun hg =>
        ⟨(hG hg).1 ds (List.mem_cons_self ..), (hG hg).2⟩ with ⟨sys, hrun, hno⟩ | ⟨buffer₁, s₁, hrun, hk₁, hle₁⟩
    · exact ⟨[], 1, sys, rounds_none hrun, ⟨by simp, by simp⟩, .inr ⟨rfl, hno⟩⟩
    · obtain ⟨⟨cs, fl, hgr, hc⟩, hslots⟩ := hk₁
      have hk₂ : Kept b₀ (k + 1) G buffer₁ { s₁ with sys := { s₁.sys with calls := s₁.sys.calls + 1 } } := by
        refine ⟨⟨cs, fl, ⟨hgr.heap.counted _, hgr.room, hgr.count⟩, fun hg => ?_⟩, hslots⟩
        have := hc hg
        show s₁.sys.calls + 1 = cs.length + (k + 1)
        omega
      obtain ⟨lines, code, sys, hrest, hprint, hend⟩ := ih (j := j + 1) hk₂
        (fun ds hds => hfit ds (List.mem_cons_of_mem _ hds))
        fun hg => ⟨fun ds hds => (hG hg).1 ds (List.mem_cons_of_mem _ hds), (hG hg).2⟩
      refine ⟨report init j s₁.sys.brk :: lines, code, sys, ?_, hprint.cons hle₁ hgr.brk_le, ?_⟩
      · rw [rounds_some hrun hgr.heap.top, hrest]
        rfl
      · rcases hend with ⟨h0, hj, hcalls⟩ | h1
        · refine .inl ⟨h0, ?_, fun hg => ?_⟩
          · rw [List.map_cons, hj, List.length_cons, List.range'_succ]
            rfl
          · have := hcalls hg
            rw [List.length_cons]
            omega
        · exact .inr h1

theorem mostFrom_eq : mostFrom MIN BUFFER MAX = 806594600 := by
  have hsum : ∀ S, 3 ≤ S → 2 * ∑ r ∈ Finset.Icc MIN S, (CHUNK + r) + 108 = S * (S + 33) := by
    intro S hS
    induction S, hS using Nat.le_induction with
    | base => rfl
    | succ S hS ih =>
      have hnext : (S + 1) * (S + 1 + 33) = S * (S + 33) + 2 * (CHUNK + (S + 1)) := by
        simp only [CHUNK]
        ring
      rw [Finset.sum_Icc_succ_top (by simp only [MIN]; omega), Nat.mul_add, hnext]
      omega
  have h := hsum MAX (by decide)
  simp only [mostFrom, BUFFER, MAX] at h ⊢
  omega

/-- What is printed does not overflow while the heap grew by less than 2 TByte. -/
theorem report_allocated {init j current : ℕ} (h1 : init ≤ current) (h2 : current < init + 2 ^ 41) :
    (report init j current).allocated = ((current - init) / 1024 : ℕ) := by
  have hdiff : intptr ((current : ℤ) - init) = ((current - init : ℕ) : ℤ) := by
    rw [intptr_eq (by omega)]
    omega
  show int (Int.tdiv (intptr ((current : ℤ) - init)) 1024) = _
  rw [hdiff]
  show int (((current - init) / 1024 : ℕ) : ℤ) = _
  exact int_eq (by omega)

/-- The first `printf` obtains a chunk for its buffer, or nothing; the heap of the program lies behind it. -/
theorem output_mhysa (sys : Sys) (out : Output) (hout : out.size ≤ 5384) (hb : 0 < sys.brk) (ht : sys.brk < TOP)
    (hf : sys.flist = NULL) : ∃ p sys', mhysa.malloc out.grant out.size sys = some (p, sys') ∧ sys'.flist = NULL ∧
      sys.brk ≤ sys'.brk ∧ sys'.brk ≤ sys.brk + 5400 ∧ sys'.brk < TOP ∧ sys'.calls ≤ sys.calls + 1 := by
  have hh : Heap sys.brk ⟨sys, [], fun _ => 0⟩ [] [] :=
    ⟨hb, ht, rfl, by simp, by simp, if_pos hf, by simp, by simp, by simp, by simp, by simp⟩
  obtain ⟨p, sys', hrun, hcase⟩ := hh.malloc_spec out.grant out.size
  refine ⟨p, sys', hrun, ?_⟩
  rcases hcase with hz | ⟨-, hl, -, -⟩ | ⟨hpos, -, hke, hk⟩ | ⟨hpos, -, hk⟩
  · exact ⟨hf, le_rfl, Nat.le_add_right .., ht, Nat.le_add_right ..⟩
  · exact absurd hl (by simp)
  · rw [Heap.increment (by simp only [CHUNK]; omega)] at hke
    subst hke
    refine ⟨hf, ?_, ?_, ?_, le_rfl⟩ <;> simp only [Sys.setSize, CHUNK] at hk ⊢ <;> omega
  · exact ⟨hf, le_rfl, Nat.le_add_right .., ht, le_rfl⟩

/-- **`bench` over `mhysa.c` runs in bounded memory**: with any number of rounds and iterations, whatever they draw,
whatever buffer up to 5384 bytes the C library allocates, and whether or not the kernel grants memory, it ends, and
prints an increase that never shrinks and never exceeds 787695 Kbyte.  If the kernel refuses nothing, no allocation
fails, and `sbrk` is called at most 400000 times for memory, besides once at the start and once after each round. -/
theorem bench_mhysa (mem : ℕ → Byte) (b₀ : ℕ) (hb : 0 < b₀) (ht : b₀ < TOP) (out : Output) (hout : out.size ≤ 5384)
    (draws : List (List Draw)) (hfit : ∀ ds ∈ draws, ∀ d ∈ ds, d.Fits) :
    ∃ lines code sys, main mhysa out draws (Session.start mem b₀).sys = some (lines, code, sys) ∧
      (∀ l ∈ lines, b₀ ≤ l.current ∧ l.allocated = ((l.current - b₀) / 1024 : ℕ) ∧ l.allocated ≤ 787695) ∧
      (lines.map Line.current).Pairwise (· ≤ ·) ∧
      (code = 0 ∧ lines.map Line.j = List.range draws.length ∨ code = 1) ∧
      ((∀ ds ∈ draws, ∀ d ∈ ds, d.grant = true) → b₀ + 806600000 < TOP →
        code = 0 ∧ sys.calls ≤ 400001 + draws.length) := by
  obtain ⟨p, sys₁, hprintf, hf, hlo, hhi, ht₁, hcalls₁⟩ :=
    output_mhysa ⟨mem, b₀, NULL, 1⟩ out hout hb ht rfl
  simp only at hlo hhi hcalls₁
  let s : Session := ⟨sys₁, [], fun _ => 0⟩
  have hstart : Heap sys₁.brk s [] [] :=
    ⟨by omega, ht₁, rfl, by simp, by simp, if_pos hf, by simp, by simp [s], by simp, by simp, by simp [s]⟩
  have hk : Kept sys₁.brk sys₁.calls ((∀ ds ∈ draws, ∀ d ∈ ds, d.grant = true) ∧
      sys₁.brk + mostFrom MIN BUFFER MAX < TOP) (fun _ => NULL) s :=
    ⟨⟨[], [], ⟨hstart, by simp, by simp⟩, fun _ => (Nat.zero_add _).symm⟩, .empty (by simp [s])⟩
  obtain ⟨lines, code, sys, hrun, hprint, hend⟩ := rounds_spec b₀ (j := 0) hk hfit id
  rw [mostFrom_eq] at hend hprint
  refine ⟨lines, code, sys, ?_, fun l hl => ?_, hprint.sorted, ?_, fun hgrant hroom => ?_⟩
  · rw [main_eq ht hprintf]
    exact hrun
  · obtain ⟨h1, h2, h3⟩ := hprint.line l hl
    have h1 : b₀ ≤ l.current := hlo.trans h1
    have halloc := report_allocated (j := l.j) h1 (by omega)
    rw [← h3] at halloc
    exact ⟨h1, halloc, by omega⟩
  · rcases hend with ⟨h0, hj, -⟩ | ⟨h1, -⟩
    · exact .inl ⟨h0, hj.trans (List.range_eq_range' ..).symm⟩
    · exact .inr h1
  · rcases hend with ⟨h0, -, hcalls⟩ | ⟨-, hno⟩
    · refine ⟨h0, (hcalls ⟨hgrant, by omega⟩).trans ?_⟩
      simp only [BUFFER, MAX, MIN]
      omega
    · exact absurd ⟨hgrant, by omega⟩ hno

instance (d : Draw) : Decidable d.Fits := inferInstanceAs (Decidable (_ ∧ _))

/-- Two rounds, with a buffer of 4096 bytes: a chunk is used again. -/
theorem bench_mhysa_two : ∃ lines code sys,
    main mhysa ⟨4096, true⟩ [[⟨⟨3, by decide⟩, 24, true⟩, ⟨⟨5, by decide⟩, 8, true⟩],
      [⟨⟨3, by decide⟩, 9, true⟩, ⟨⟨7, by decide⟩, 10, true⟩]] (Session.start (fun _ => 0) 4096).sys =
        some (lines, code, sys) ∧
      (∀ l ∈ lines, 4096 ≤ l.current ∧ l.allocated = ((l.current - 4096) / 1024 : ℕ) ∧ l.allocated ≤ 787695) ∧
      (lines.map Line.current).Pairwise (· ≤ ·) ∧ (code = 0 ∧ lines.map Line.j = List.range 2 ∨ code = 1) ∧
      ((∀ ds ∈ [[(⟨⟨3, by decide⟩, 24, true⟩ : Draw), ⟨⟨5, by decide⟩, 8, true⟩],
          [⟨⟨3, by decide⟩, 9, true⟩, ⟨⟨7, by decide⟩, 10, true⟩]], ∀ d ∈ ds, d.grant = true) →
        4096 + 806600000 < TOP → code = 0 ∧ sys.calls ≤ 400001 + 2) :=
  bench_mhysa (fun _ => 0) 4096 (by decide) (by decide) ⟨4096, true⟩ (by decide) _ (by decide)

/-! ### Over `mylloc.c` -/

/-- The buffer positions in use after the draws. -/
def used : List Draw → (Fin BUFFER → Bool) → Fin BUFFER → Bool
  | [], u => u
  | d :: ds, u => used ds (Function.update u d.index !u d.index)

/-- The sum of the sizes requested: a draw requests memory when its buffer position is not in use. -/
def requested : List Draw → (Fin BUFFER → Bool) → ℕ
  | [], _ => 0
  | d :: ds, u => (if u d.index then 0 else d.size) + requested ds (Function.update u d.index !u d.index)

variable {u : Fin BUFFER → Bool}

theorem requested_append {es : List Draw} : requested (ds ++ es) u = requested ds u + requested es (used ds u) := by
  induction ds generalizing u with
  | nil => exact (Nat.zero_add _).symm
  | cons d ds ih =>
    rw [List.cons_append, requested, requested, used, ih]
    omega

/-- The buffer holds a pointer where a position is in use. -/
def InUse (u : Fin BUFFER → Bool) (buffer : Fin BUFFER → ℕ) : Prop := ∀ i, u i = true ↔ buffer i ≠ NULL

theorem InUse.update (h : InUse u buffer) {i : Fin BUFFER} {b : Bool} {p : ℕ} (hb : b = true ↔ p ≠ NULL) :
    InUse (Function.update u i b) (Function.update buffer i p) := by
  intro j
  by_cases hj : j = i
  · subst hj
    rw [Function.update_self, Function.update_self]
    exact hb
  · rw [Function.update_of_ne hj, Function.update_of_ne hj]
    exact h j

theorem mylloc_malloc (grant : Bool) (n : ℕ) (sys : Sys) :
    Allocator.malloc mylloc grant n sys = mylloc.malloc grant n sys := rfl

/-- A request that the kernel has addresses for moves the break by its size; it is served if it is not for 0 bytes. -/
theorem malloc_mylloc {grant : Bool} (hg : grant = true) {sys : Sys} {n : ℕ} (ht : sys.brk + n < TOP) :
    ∃ p sys', Allocator.malloc mylloc grant n sys = some (p, sys') ∧ sys'.brk = sys.brk + n ∧
      (n ≠ 0 → p = sys.brk) := by
  by_cases hn : n = 0
  · subst hn
    refine ⟨NULL, sys, ?_, (Nat.add_zero _).symm, fun h => absurd rfl h⟩
    rw [mylloc_malloc]
    exact if_pos rfl
  · have hn63 : n < 2 ^ 63 := (Nat.le_add_left ..).trans_lt ht
    have hinc : intptr n = n := intptr_eq (by omega)
    have hlow : sys.brk < TOP := (Nat.le_add_right ..).trans_lt ht
    have hk : grant = true ∧ 0 ≤ sys.brk + intptr n ∧ sys.brk + intptr n < TOP := by
      rw [hinc]
      exact ⟨hg, by omega, by omega⟩
    refine ⟨sys.brk, { sys with brk := (sys.brk + intptr n).toNat, calls := sys.calls + 1 }, ?_, ?_, fun _ => rfl⟩
    · rw [mylloc_malloc]
      simp only [mylloc.malloc, if_neg hn, Sys.sbrk_granted hk, if_neg (Sys.brk_ne_failed hlow)]
    · dsimp only
      rw [hinc]
      omega

/-- An iteration moves the break by what it requests, or fails for want of addresses. -/
theorem turn_mylloc {sys : Sys} (hu : InUse u buffer) (hpos : 0 < sys.brk) (ht : sys.brk < TOP) (hfit : d.Fits)
    (hg : d.grant = true) :
    (∃ buffer' sys', turn mylloc d buffer sys = some (some buffer', sys') ∧ sys'.brk < TOP ∧
        sys'.brk = sys.brk + (if u d.index then 0 else d.size) ∧
        InUse (Function.update u d.index !u d.index) buffer') ∨
      (∃ sys', turn mylloc d buffer sys = some (none, sys')) ∧
        TOP ≤ sys.brk + (if u d.index then 0 else d.size) := by
  obtain ⟨h4, hM⟩ := hfit
  by_cases hi : buffer d.index = NULL
  · have hno : u d.index = false := Bool.eq_false_iff.mpr fun h => (hu d.index).mp h hi
    rw [hno]
    have hturn : turn mylloc d buffer sys = Option.bind (Allocator.malloc mylloc d.grant d.size sys) fun r =>
        if r.1 = NULL then some (none, r.2) else some (some (Function.update buffer d.index r.1), r.2.poke r.1) :=
      if_neg (not_not.mpr hi)
    have hn : d.size ≠ 0 := by simp only [MIN] at h4; omega
    by_cases htop : sys.brk + d.size < TOP
    · obtain ⟨p, sys₁, hmalloc, hbrk, hp⟩ := malloc_mylloc hg htop
      obtain rfl := hp hn
      have hrun : turn mylloc d buffer sys =
          some (some (Function.update buffer d.index sys.brk), sys₁.poke sys.brk) := by
        rw [hturn, hmalloc]
        exact if_neg (Nat.ne_of_gt hpos)
      exact .inl ⟨_, _, hrun, hbrk.trans_lt htop, hbrk, hu.update ⟨fun _ => Nat.ne_of_gt hpos, fun _ => rfl⟩⟩
    · have hinc : intptr d.size = d.size := intptr_eq (by simp only [MAX] at hM; omega)
      have hk : ¬ (d.grant = true ∧ 0 ≤ sys.brk + intptr d.size ∧ sys.brk + intptr d.size < TOP) := by
        rw [hinc]
        rintro ⟨-, -, hlt⟩
        omega
      have hmalloc : mylloc.malloc d.grant d.size sys = some (NULL, { sys with calls := sys.calls + 1 }) := by
        simp only [mylloc.malloc, if_neg hn, Sys.sbrk_refused hk, if_true]
      refine .inr ⟨⟨{ sys with calls := sys.calls + 1 }, ?_⟩, Nat.le_of_not_lt htop⟩
      rw [hturn, mylloc_malloc, hmalloc]
      rfl
  · have hyes : u d.index = true := (hu d.index).mpr hi
    rw [hyes]
    exact .inl ⟨_, sys, if_pos hi, ht, rfl, hu.update ⟨fun h => absurd h (by decide), fun h => absurd rfl h⟩⟩

theorem turns_mylloc {sys : Sys} (hu : InUse u buffer) (hpos : 0 < sys.brk) (ht : sys.brk < TOP)
    (hfit : ∀ d ∈ ds, d.Fits ∧ d.grant = true) :
    (∃ buffer' sys', turns mylloc ds buffer sys = some (some buffer', sys') ∧ sys'.brk < TOP ∧
        sys'.brk = sys.brk + requested ds u ∧ InUse (used ds u) buffer') ∨
      (∃ sys', turns mylloc ds buffer sys = some (none, sys')) ∧ TOP ≤ sys.brk + requested ds u := by
  induction ds generalizing u buffer sys with
  | nil => exact .inl ⟨buffer, sys, rfl, ht, rfl, hu⟩
  | cons d ds ih =>
    obtain ⟨hd, hg⟩ := hfit d (List.mem_cons_self ..)
    rw [requested, used, ← Nat.add_assoc]
    rcases turn_mylloc hu hpos ht hd hg with ⟨buffer₁, sys₁, hrun, ht₁, hbrk, hu₁⟩ | ⟨⟨sys₁, hrun⟩, hle⟩
    · rw [turns_some hrun, ← hbrk]
      exact ih hu₁ (by omega) ht₁ fun d hd => hfit d (List.mem_cons_of_mem _ hd)
    · exact .inr ⟨⟨sys₁, turns_none hrun⟩, by omega⟩

theorem rounds_mylloc (b₀ : ℕ) {sys : Sys} {j : ℕ} (hu : InUse u buffer) (hpos : 0 < sys.brk) (ht : sys.brk < TOP)
    (hfit : ∀ ds ∈ draws, ∀ d ∈ ds, d.Fits ∧ d.grant = true) :
    sys.brk + requested draws.flatten u < TOP ∧ (∃ sys', rounds mylloc b₀ j draws buffer sys =
        some ((List.range draws.length).map fun i =>
          report b₀ (j + i) (sys.brk + requested (draws.take (i + 1)).flatten u), 0, sys')) ∨
      TOP ≤ sys.brk + requested draws.flatten u ∧
        ∃ lines sys', rounds mylloc b₀ j draws buffer sys = some (lines, 1, sys') := by
  induction draws generalizing u buffer sys j with
  | nil => exact .inl ⟨ht, sys, rfl⟩
  | cons ds draws ih =>
    rw [List.flatten_cons, requested_append, ← Nat.add_assoc]
    rcases turns_mylloc hu hpos ht (hfit ds (List.mem_cons_self ..)) with
      ⟨buffer₁, sys₁, hrun, ht₁, hbrk, hu₁⟩ | ⟨⟨sys₁, hrun⟩, hle⟩
    · rw [rounds_some hrun ht₁, ← hbrk]
      have hpos₁ : 0 < ({ sys₁ with calls := sys₁.calls + 1 } : Sys).brk := by
        show 0 < sys₁.brk
        omega
      have hrest := ih (j := j + 1) hu₁ hpos₁ ht₁ fun ds hds => hfit ds (List.mem_cons_of_mem _ hds)
      rcases hrest with ⟨hlt, sys', hrun'⟩ | ⟨hle, lines, sys', hrun'⟩
      · refine .inl ⟨hlt, sys', ?_⟩
        rw [hrun', List.length_cons, List.range_succ_eq_map, List.map_cons, List.map_map, hbrk]
        have hfirst : ((ds :: draws).take (0 + 1)).flatten = ds := by
          rw [List.take_succ_cons, List.take_zero, List.flatten_cons, List.flatten_nil, List.append_nil]
        have hline : ∀ i,
            report b₀ (j + 1 + i) (sys.brk + requested ds u + requested (draws.take (i + 1)).flatten (used ds u)) =
              report b₀ (j + (i + 1)) (sys.brk + requested ((ds :: draws).take (i + 1 + 1)).flatten u) := by
          intro i
          rw [List.take_succ_cons, List.flatten_cons, requested_append]
          congr 1 <;> omega
        simp only [hline, hfirst]
        rfl
      · refine .inr ⟨hle, report b₀ j sys₁.brk :: lines, sys', ?_⟩
        rw [hrun']
        rfl
    · exact .inr ⟨by omega, [], sys₁, rounds_none hrun⟩

/-- **`bench` over `mylloc.c` gives nothing back**: if the kernel refuses nothing, the top of the heap printed after
each round is its start plus the buffer of the output and the sum of all requests so far; the program returns 1 exactly
when that sum runs out of addresses. -/
theorem bench_mylloc (mem : ℕ → Byte) (b₀ out : ℕ) (hb : 0 < b₀) (ht : b₀ + out < TOP) (draws : List (List Draw))
    (hfit : ∀ ds ∈ draws, ∀ d ∈ ds, d.Fits ∧ d.grant = true) :
    b₀ + out + requested draws.flatten (fun _ => false) < TOP ∧
        (∃ sys, main mylloc ⟨out, true⟩ draws (Session.start mem b₀).sys =
          some ((List.range draws.length).map fun j =>
            report b₀ j (b₀ + out + requested (draws.take (j + 1)).flatten fun _ => false), 0, sys)) ∨
      TOP ≤ b₀ + out + requested draws.flatten (fun _ => false) ∧
        ∃ lines sys, main mylloc ⟨out, true⟩ draws (Session.start mem b₀).sys = some (lines, 1, sys) := by
  have hu : InUse (fun _ => false) fun _ => NULL := by
    intro i
    exact ⟨fun h => absurd h Bool.false_ne_true, fun h => absurd rfl h⟩
  obtain ⟨p, sys, hprintf, hbrk, -⟩ := malloc_mylloc rfl (show (⟨mem, b₀, NULL, 1⟩ : Sys).brk + out < TOP from ht)
  have hbrk : sys.brk = b₀ + out := hbrk
  have hb₀ : b₀ < TOP := (Nat.le_add_right ..).trans_lt ht
  have hpos : 0 < sys.brk := by omega
  have h := rounds_mylloc b₀ (j := 0) hu hpos (hbrk.trans_lt ht) hfit
  simp only [Nat.zero_add, hbrk] at h
  have hmain : main mylloc ⟨out, true⟩ draws (Session.start mem b₀).sys =
      rounds mylloc b₀ 0 draws (fun _ => NULL) sys := main_eq (A := mylloc) hb₀ hprintf
  rw [hmain]
  exact h

/-- Two rounds, with a buffer of 1024 bytes: one of the three requests is for a position that was freed. -/
theorem bench_mylloc_two :
    4096 + 1024 + requested [[(⟨⟨3, by decide⟩, 24, true⟩ : Draw), ⟨⟨5, by decide⟩, 8, true⟩,
        ⟨⟨3, by decide⟩, 9, true⟩], [⟨⟨3, by decide⟩, 10, true⟩]].flatten (fun _ => false) < TOP ∧
      (∃ sys, main mylloc ⟨1024, true⟩ [[⟨⟨3, by decide⟩, 24, true⟩, ⟨⟨5, by decide⟩, 8, true⟩,
          ⟨⟨3, by decide⟩, 9, true⟩], [⟨⟨3, by decide⟩, 10, true⟩]] (Session.start (fun _ => 0) 4096).sys =
        some ([report 4096 0 5152, report 4096 1 5162], 0, sys)) := by
  refine (bench_mylloc (fun _ => 0) 4096 1024 (by decide) (by decide)
    [[⟨⟨3, by decide⟩, 24, true⟩, ⟨⟨5, by decide⟩, 8, true⟩, ⟨⟨3, by decide⟩, 9, true⟩],
      [⟨⟨3, by decide⟩, 10, true⟩]] (by decide)).resolve_right fun h => absurd h.1 (by decide)

end Seminars.Mylloc
