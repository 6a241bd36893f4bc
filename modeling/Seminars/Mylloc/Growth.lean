import Mathlib.Algebra.BigOperators.Intervals
import Mathlib.Algebra.BigOperators.Ring.Finset
import Mathlib.Algebra.Order.BigOperators.Group.Finset
import Mathlib.Order.Interval.Finset.Nat
import Seminars.Mylloc.Run

/-!
# Seminars.Mylloc.Growth — how much memory `mhysa.c` obtains

A chunk is obtained from `sbrk` only while no chunk of its size, or a larger one, is free.

* `Grown`: the heap, and of each size at most `B` chunks, if the program never holds more than `B` blocks.
* `growth_run`: the memory obtained is bounded, however long the program runs.  `growth_attained`: by nothing less.
-/

namespace Seminars.Mylloc

open Seminars.Lib

variable {b₀ a b L S B n : ℕ} {s s' : Session} {cs : List Chunk} {fl : List ℕ} {act : Act}

theorem Tiles.sum (h : Tiles a cs b) : a + (cs.map fun c => CHUNK + c.room).sum = b := by
  induction cs generalizing a with
  | nil => exact h
  | cons c cs ih =>
    obtain ⟨rfl, h⟩ := h
    rw [← ih h, List.map_cons, List.sum_cons, c.fin_eq]
    simp only [CHUNK]
    omega

/-- Of each size from `L` to `S` at most `B` chunks: a sum over all of them. -/
theorem sum_weight_le (f : ℕ → ℕ) (hroom : ∀ c ∈ cs, L ≤ c.room ∧ c.room ≤ S)
    (hcount : ∀ r, cs.countP (·.room = r) ≤ B) :
    (cs.map fun c => f c.room).sum ≤ B * ∑ r ∈ Finset.Icc L S, f r := by
  have hmap : (cs.map fun c => f c.room) = (cs.map Chunk.room).map f := by
    rw [List.map_map]
    rfl
  have hsub : (cs.map Chunk.room).toFinset ⊆ Finset.Icc L S := by
    intro r hr
    obtain ⟨c, hc, rfl⟩ := List.mem_map.mp (List.mem_toFinset.mp hr)
    exact Finset.mem_Icc.mpr (hroom c hc)
  rw [hmap, Finset.sum_list_map_count, Finset.mul_sum]
  refine (Finset.sum_le_sum fun r _ => ?_).trans (Finset.sum_le_sum_of_subset hsub)
  refine Nat.mul_le_mul_right _ ?_
  rw [List.count, List.countP_map]
  refine le_trans (le_of_eq (List.countP_congr fun c _ => ?_)) (hcount r)
  simp

theorem Tiles.nodup (h : Tiles a cs b) : (cs.map Chunk.addr).Nodup := by
  induction cs generalizing a with
  | nil => exact List.nodup_nil
  | cons c cs ih =>
    obtain ⟨rfl, h⟩ := h
    refine List.nodup_cons.mpr ⟨fun hm => ?_, ih h⟩
    obtain ⟨d, hd, he⟩ := List.mem_map.mp hm
    have hle := (h.bounds hd).1
    rw [c.fin_eq] at hle
    omega

theorem length_le_of_count (hroom : ∀ c ∈ cs, L ≤ c.room ∧ c.room ≤ S) (hcount : ∀ r, cs.countP (·.room = r) ≤ B) :
    cs.length ≤ B * (S + 1 - L) := by
  have hle := sum_weight_le (fun _ => 1) hroom hcount
  simpa using hle

section Count

variable {c : Chunk}

theorem Heap.live_of_small (h : Heap b₀ s cs fl) (hS : S < 2 ^ 31) (hroom : ∀ c ∈ cs, c.room ≤ S)
    (hno : ∀ x ∈ fl, ¬ s.sys.Serves n x) (hc : c ∈ cs) (hn : c.room = n) :
    c.addr + CHUNK ∈ s.live.map Prod.fst := by
  refine (h.either c hc).resolve_left fun hm => hno _ hm ?_
  have hr := hroom c hc
  rw [Sys.Serves, h.size c hc, int_eq (by omega), sizeT_eq (by omega)]
  omega

/-- **While no chunk of a size is free** there are not more of them than blocks. -/
theorem Heap.count_le_live (h : Heap b₀ s cs fl) (hS : S < 2 ^ 31) (hroom : ∀ c ∈ cs, c.room ≤ S)
    (hno : ∀ x ∈ fl, ¬ s.sys.Serves n x) : cs.countP (·.room = n) ≤ s.live.length := by
  have hnodup : ((cs.filter (·.room = n)).map fun c => c.addr + CHUNK).Nodup := by
    have hsub : ((cs.filter (·.room = n)).map Chunk.addr).Nodup := h.tiles.nodup.sublist (List.filter_sublist.map _)
    have hmap := hsub.map (f := (· + CHUNK)) fun x y hxy => Nat.add_right_cancel hxy
    rwa [List.map_map] at hmap
  have hheld : ((cs.filter (·.room = n)).map fun c => c.addr + CHUNK) ⊆ s.live.map Prod.fst := by
    intro p hp
    obtain ⟨c, hc, rfl⟩ := List.mem_map.mp hp
    obtain ⟨hc, hn⟩ := List.mem_filter.mp hc
    exact h.live_of_small hS hroom hno hc (of_decide_eq_true hn)
  have hle := (hnodup.subperm hheld).length_le
  rwa [List.length_map, List.length_map, ← List.countP_eq_length_filter] at hle

end Count

/-- The memory that `B` chunks of each size from `L` to `S` take. -/
def mostFrom (L B S : ℕ) : ℕ := B * ∑ r ∈ Finset.Icc L S, (CHUNK + r)

/-- The memory that `B` chunks of each size up to `S` take. -/
def most (B S : ℕ) : ℕ := mostFrom 1 B S

/-- **The heap of a program that never holds more than `B` blocks**, all of them for `L` to `S` bytes. -/
structure Grown (b₀ L S B : ℕ) (s : Session) (cs : List Chunk) (fl : List ℕ) : Prop where
  heap : Heap b₀ s cs fl
  room : ∀ c ∈ cs, L ≤ c.room ∧ c.room ≤ S
  count : ∀ r, cs.countP (·.room = r) ≤ B

theorem Grown.brk_le (h : Grown b₀ L S B s cs fl) : s.sys.brk ≤ b₀ + mostFrom L B S := by
  rw [← h.heap.tiles.sum]
  exact Nat.add_le_add_left (sum_weight_le (fun r => CHUNK + r) h.room h.count) _

/-- There is room for one chunk more when none that is free is large enough. -/
theorem Grown.more (h : Grown b₀ L S B s cs fl) (hS : S < 2 ^ 31) (h1 : L ≤ n) (hn : n ≤ S)
    (hno : ∀ x ∈ fl, ¬ s.sys.Serves n x) (hlive : s.live.length < B) :
    (∀ c ∈ cs ++ [Chunk.mk s.sys.brk n], L ≤ c.room ∧ c.room ≤ S) ∧
      (∀ r, (cs ++ [Chunk.mk s.sys.brk n]).countP (·.room = r) ≤ B) ∧ s.sys.brk + CHUNK + n ≤ b₀ + mostFrom L B S := by
  have hroom : ∀ c ∈ cs ++ [Chunk.mk s.sys.brk n], L ≤ c.room ∧ c.room ≤ S := by
    intro c hc
    rcases List.mem_append.mp hc with hc | hc
    · exact h.room c hc
    · obtain rfl := List.mem_singleton.mp hc
      exact ⟨h1, hn⟩
  have hcount : ∀ r, (cs ++ [Chunk.mk s.sys.brk n]).countP (·.room = r) ≤ B := by
    intro r
    rw [List.countP_append, List.countP_singleton]
    by_cases hr : n = r
    · subst hr
      have hle := h.heap.count_le_live hS (fun c hc => (h.room c hc).2) hno
      simp only [decide_true, if_true]
      omega
    · simpa [hr] using h.count r
  refine ⟨hroom, hcount, ?_⟩
  have hsum := sum_weight_le (fun r => CHUNK + r) hroom hcount
  have hend : Tiles b₀ (cs ++ [Chunk.mk s.sys.brk n]) (s.sys.brk + CHUNK + n) := h.heap.tiles.snoc
  rw [← hend.sum]
  exact Nat.add_le_add_left hsum _

/-- What a request does to the chunks: none is new, or one, which a call of `sbrk` gave. -/
structure Asked (b₀ L S B n : ℕ) (grant : Bool) (s : Session) (cs : List Chunk) (p : ℕ) (sys : Sys)
    (cs' : List Chunk) (fl' : List ℕ) : Prop where
  grown : Grown b₀ L S B (s.served n p sys) cs' fl'
  brk : s.sys.brk ≤ sys.brk
  calls : grant = true → b₀ + mostFrom L B S < TOP → sys.calls + cs.length = s.sys.calls + cs'.length
  ok : grant = true → b₀ + mostFrom L B S < TOP → n ≠ 0 → p ≠ NULL

/-- **A request**: it is served if the kernel gives what is asked of it. -/
theorem Grown.malloc {grant : Bool} {p : ℕ} {sys : Sys} (h : Grown b₀ L S B s cs fl) (hS : S < 2 ^ 31)
    (h1 : n ≠ 0 → L ≤ n) (hn : n ≤ S) (hlive : s.live.length < B) (hout : Heap.Outcome grant n s.sys fl p sys) :
    ∃ cs' fl', Asked b₀ L S B n grant s cs p sys cs' fl' := by
  have hinc : intptr (sizeT (n + CHUNK)) = ((n + CHUNK : ℕ) : ℤ) := Heap.increment (by simp only [CHUNK]; omega)
  rcases hout with hz | ⟨hpos, rfl, hno, ha⟩ | ⟨hpos, hno, hke, hk⟩ | ⟨hpos, hno, hk⟩
  · refine ⟨cs, fl, ?_, le_rfl, fun _ _ => rfl, fun _ _ hne => absurd hz hne⟩
    rw [Session.served_null]
    exact h
  · -- a chunk of the free list
    rename_i l₁ l₂ a
    have hcalls : (s.sys.skip (l₁.getLastD NULL) (s.sys.next a)).calls = s.sys.calls := by
      unfold Sys.skip
      split_ifs <;> rfl
    obtain ⟨c, hc, rfl⟩ := h.heap.mine a (by simp)
    have hroom := h.room c hc
    have hle : n ≤ s.room (c.addr + CHUNK) := by
      rw [h.heap.room c hc]
      rwa [Sys.Serves, h.heap.size c hc, int_eq (by omega), sizeT_eq (by omega)] at ha
    refine ⟨cs, l₁ ++ l₂, ⟨?_, h.room, h.count⟩, (h.heap.skip_spec rfl).1.ge, fun _ _ => by rw [hcalls],
      fun _ _ _ => payload_ne_null _⟩
    rw [Session.served_listed (payload_ne_null _) hcalls]
    exact h.heap.reuse hle
  · -- a new chunk
    obtain ⟨hroom, hcount, hle⟩ := h.more hS (h1 (by omega)) hn hno hlive
    rw [hinc] at hke
    subst hke
    have hb : ((s.sys.brk : ℤ) + ((n + CHUNK : ℕ) : ℤ)).toNat = s.sys.brk + CHUNK + n := by omega
    refine ⟨cs ++ [⟨s.sys.brk, n⟩], fl, ⟨?_, hroom, hcount⟩, ?_, fun _ _ => ?_, fun _ _ _ => payload_ne_null _⟩
    · rw [Session.served_fresh (payload_ne_null _) (Nat.succ_ne_self _), hb]
      exact h.heap.fresh (by omega)
    · show s.sys.brk ≤ ((s.sys.brk : ℤ) + ((n + CHUNK : ℕ) : ℤ)).toNat
      omega
    · show s.sys.calls + 1 + cs.length = s.sys.calls + (cs ++ [_]).length
      rw [List.length_append, List.length_singleton]
      omega
  · -- the kernel refuses
    have hno' : grant = true → b₀ + mostFrom L B S < TOP → False := by
      intro hg ht
      obtain ⟨-, -, hle⟩ := h.more hS (h1 (by omega)) hn hno hlive
      have hok : grant = true ∧ 0 ≤ s.sys.brk + intptr (sizeT (n + CHUNK)) ∧
          s.sys.brk + intptr (sizeT (n + CHUNK)) < TOP := by
        rw [hinc]
        exact ⟨hg, by omega, by omega⟩
      rw [Sys.sbrk_granted hok] at hk
      exact Sys.brk_ne_failed h.heap.top hk
    refine ⟨cs, fl, ⟨?_, h.room, h.count⟩, le_rfl, fun hg ht => (hno' hg ht).elim,
      fun hg ht => (hno' hg ht).elim⟩
    rw [Session.served_null]
    exact h.heap.counted _

/-- The program asks for at most `S` bytes, and only while it holds less than `B` blocks. -/
def Modest (S B : ℕ) (x : Session × Act) : Prop := ∀ n grant, x.2 = .malloc n grant → n ≤ S ∧ x.1.live.length < B

/-- The kernel does not refuse memory. -/
def Granted (act : Act) : Prop := ∀ n grant, act = .malloc n grant → grant = true

/-- **One step of a program.** -/
theorem Grown.step (h : Grown b₀ 1 S B s cs fl) (hS : S < 2 ^ 31) (hst : mhysa.Step s act s')
    (hm : Modest S B (s, act)) :
    ∃ cs' fl', Grown b₀ 1 S B s' cs' fl' ∧
      (Granted act → b₀ + most B S < TOP → s'.sys.calls + cs.length = s.sys.calls + cs'.length) := by
  rcases act with ⟨n, grant⟩ | p | ⟨x, v⟩
  · obtain ⟨p, sys, hrun, rfl⟩ := Allocator.step_malloc hst
    obtain ⟨p', sys', hrun', hout⟩ := h.heap.malloc_spec grant n
    obtain ⟨rfl, rfl⟩ := Prod.mk.inj (Option.some.inj (hrun.symm.trans hrun'))
    obtain ⟨hn, hlive⟩ := hm n grant rfl
    obtain ⟨cs', fl', ha⟩ := h.malloc hS (by omega) hn hlive hout
    exact ⟨cs', fl', ha.grown, fun hg ht => ha.calls (hg n grant rfl) ht⟩
  · have hcalls : (mhysa.free p s.sys).calls = s.sys.calls := by
      unfold mhysa.free
      split_ifs <;> rfl
    obtain ⟨hp, rfl⟩ := Allocator.step_free hst
    obtain ⟨fl', hh⟩ := h.heap.freed hp
    exact ⟨cs, fl', ⟨hh, h.room, h.count⟩, fun _ _ => congrArg (· + cs.length) hcalls⟩
  · obtain ⟨hx, rfl⟩ := Allocator.step_write hst
    exact ⟨cs, fl, ⟨h.heap.write hx v, h.room, h.count⟩, fun _ _ => rfl⟩

/-- **The memory `mhysa.c` obtains is bounded**, however long the program runs: in every run whose requests are for at
most `S` bytes, made while it holds less than `B` blocks, the break stays within `most B S` bytes above its start.  If
the kernel never refuses, `sbrk` is called at most `B * S` times and `malloc` serves every further such request. -/
theorem growth_run (mem : ℕ → Byte) (b₀ S B : ℕ) (hb : 0 < b₀) (ht : b₀ < TOP) (hS : S ≤ 2 ^ 31 - 1)
    (tr : List (Session × Act)) (s : Session) (h : Path mhysa.Step (Session.start mem b₀) tr s)
    (hm : ∀ x ∈ tr, Modest S B x) :
    s.sys.brk ≤ b₀ + most B S ∧
      ((∀ x ∈ tr, Granted x.2) → b₀ + most B S < TOP →
        s.sys.calls ≤ B * S ∧
          ∀ n, 0 < n → n ≤ S → s.live.length < B → ∃ p sys, mhysa.malloc true n s.sys = some (p, sys) ∧ p ≠ NULL) := by
  have hS : S < 2 ^ 31 := by omega
  have hstart : Grown b₀ 1 S B (Session.start mem b₀) [] [] := ⟨.start hb ht, by simp, by simp⟩
  constructor
  · have hinv : ∃ cs fl, Grown b₀ 1 S B s cs fl := by
      refine h.invariant (I := fun s => ∃ cs fl, Grown b₀ 1 S B s cs fl) ⟨[], [], hstart⟩ fun t act t' hx hi hst => ?_
      obtain ⟨cs, fl, hg⟩ := hi
      obtain ⟨cs', fl', hg', -⟩ := hg.step hS hst (hm _ hx)
      exact ⟨cs', fl', hg'⟩
    obtain ⟨cs, fl, hg⟩ := hinv
    exact hg.brk_le
  · intro hgr hroom
    have hinv : ∃ cs fl, Grown b₀ 1 S B s cs fl ∧ s.sys.calls = cs.length := by
      refine h.invariant (I := fun s => ∃ cs fl, Grown b₀ 1 S B s cs fl ∧ s.sys.calls = cs.length) ⟨[], [], hstart, rfl⟩
        fun t act t' hx hi hst => ?_
      obtain ⟨cs, fl, hg, hc⟩ := hi
      obtain ⟨cs', fl', hg', hc'⟩ := hg.step hS hst (hm _ hx)
      have hsum := hc' (hgr _ hx) hroom
      exact ⟨cs', fl', hg', by omega⟩
    obtain ⟨cs, fl, hg, hc⟩ := hinv
    refine ⟨hc.trans_le (length_le_of_count hg.room hg.count), fun n h1 hn hlive => ?_⟩
    obtain ⟨p, sys, hrun, hout⟩ := hg.heap.malloc_spec true n
    obtain ⟨cs', fl', ha⟩ := hg.malloc hS (by omega) hn hlive hout
    exact ⟨p, sys, hrun, ha.ok rfl hroom (by omega)⟩

instance (S B : ℕ) (x : Session × Act) : Decidable (Modest S B x) :=
  match x with
  | (s, .malloc n grant) => decidable_of_iff (n ≤ S ∧ s.live.length < B) (by simp [Modest])
  | (_, .free _) => .isTrue (by simp [Modest])
  | (_, .write _ _) => .isTrue (by simp [Modest])

/-- Two blocks, the first freed and used again for a smaller request. -/
theorem growth_run_two : ∃ tr s, Path mhysa.Step (Session.start (fun _ => 0) 4096) tr s ∧
    s.live = [(4112, 10), (4152, 8)] ∧ s.sys.brk ≤ 4096 + most 2 24 ∧
      ((∀ x ∈ tr, Granted x.2) → 4096 + most 2 24 < TOP →
        s.sys.calls ≤ 2 * 24 ∧
          ∀ n, 0 < n → n ≤ 24 → s.live.length < 2 → ∃ p sys, mhysa.malloc true n s.sys = some (p, sys) ∧ p ≠ NULL) := by
  obtain ⟨tr, s, hp, hd⟩ := Mylloc.mhysa.exists_path (Session.start (fun _ => 0) 4096)
    [.malloc 24 true, .malloc 8 true, .free 4112, .malloc 10 true]
    (fun x => decide (x.2.live = [(4112, 10), (4152, 8)]) && x.1.all fun y => decide (Modest 24 2 y))
    (by decide +kernel)
  simp only [Bool.and_eq_true, decide_eq_true_eq, List.all_eq_true] at hd
  exact ⟨tr, s, hp, hd.1, growth_run (fun _ => 0) 4096 24 2 (by decide) (by decide) (by decide) tr s hp hd.2⟩

/-! ### The bound is attained -/

theorem Modest.mono {S' : ℕ} {x : Session × Act} (h : Modest S B x) (hS : S ≤ S') : Modest S' B x := by
  intro n grant he
  obtain ⟨hn, hlive⟩ := h n grant he
  exact ⟨hn.trans hS, hlive⟩

theorem Heap.extend (h : Heap b₀ s cs fl) (hpos : 0 < n) (hn : n < 2 ^ 31) (hroom : ∀ c ∈ cs, c.room ≤ n)
    (hfree : ∀ c ∈ cs, c.addr ∈ fl → c.room < n) (ht : s.sys.brk + CHUNK + n < TOP) :
    ∃ s', mhysa.Step s (.malloc n true) s' ∧ Heap b₀ s' (cs ++ [Chunk.mk s.sys.brk n]) fl ∧
      s'.sys.brk = s.sys.brk + CHUNK + n ∧ s'.live.length = s.live.length + 1 := by
  have hno : ∀ a ∈ fl, ¬ s.sys.Serves n a := by
    intro a ha hs
    obtain ⟨c, hc, rfl⟩ := h.mine a ha
    have hle := hroom c hc
    have hlt := hfree c hc ha
    rw [Sys.Serves, h.size c hc, int_eq (by omega), sizeT_eq (by omega)] at hs
    omega
  have hinc : intptr (sizeT (n + CHUNK)) = ((n + CHUNK : ℕ) : ℤ) := Heap.increment (by simp only [CHUNK]; omega)
  have hb : ((s.sys.brk : ℤ) + ((n + CHUNK : ℕ) : ℤ)).toNat = s.sys.brk + CHUNK + n := by omega
  obtain ⟨p, sys, hrun, hout⟩ := h.malloc_spec true n
  have hstep : mhysa.Step s (.malloc n true) (s.served n p sys) := by
    have hrun : mhysa.malloc true n s.sys = some (p, sys) := hrun
    show mhysa.next s (.malloc n true) = _
    rw [Allocator.next, if_pos (by omega)]
    show (mhysa.malloc true n s.sys).map _ = _
    rw [hrun]
    rfl
  refine ⟨s.served n p sys, hstep, ?_⟩
  rcases hout with hz | ⟨-, rfl, -, ha⟩ | ⟨-, -, hke, hk⟩ | ⟨-, -, hk⟩
  · exact absurd hz (by omega)
  · exact absurd ha (hno _ (by simp))
  · rw [hinc] at hke
    subst hke
    rw [Session.served_fresh (payload_ne_null _) (Nat.succ_ne_self _), hb]
    exact ⟨h.fresh ht, rfl, rfl⟩
  · have hok : true = true ∧ 0 ≤ s.sys.brk + intptr (sizeT (n + CHUNK)) ∧
        s.sys.brk + intptr (sizeT (n + CHUNK)) < TOP := by
      rw [hinc]
      exact ⟨rfl, by omega, by omega⟩
    rw [Sys.sbrk_granted hok] at hk
    exact absurd hk (Sys.brk_ne_failed h.top)

theorem Heap.extend_all (h : Heap b₀ s cs fl) (hpos : 0 < n) (hn : n < 2 ^ 31) (hroom : ∀ c ∈ cs, c.room ≤ n)
    (hfree : ∀ c ∈ cs, c.addr ∈ fl → c.room < n) (k : ℕ) (hk : s.live.length + k ≤ B)
    (ht : s.sys.brk + k * (CHUNK + n) < TOP) :
    ∃ tr s' cs', Path mhysa.Step s tr s' ∧ (∀ x ∈ tr, Modest n B x) ∧ Heap b₀ s' cs' fl ∧
      (∀ c ∈ cs', c.room ≤ n) ∧ s'.sys.brk = s.sys.brk + k * (CHUNK + n) := by
  induction k generalizing s cs with
  | zero => exact ⟨[], s, cs, .nil, by simp, h, hroom, by simp⟩
  | succ k ih =>
    rw [Nat.succ_mul] at ht
    obtain ⟨s₁, hst, h₁, hbrk, hlive⟩ := h.extend hpos hn hroom hfree (by omega)
    have hmem : ∀ c ∈ cs ++ [Chunk.mk s.sys.brk n], c ∈ cs ∨ c = ⟨s.sys.brk, n⟩ := by
      intro c hc
      simpa using hc
    have hroom₁ : ∀ c ∈ cs ++ [Chunk.mk s.sys.brk n], c.room ≤ n := by
      intro c hc
      rcases hmem c hc with hc | rfl
      · exact hroom c hc
      · exact le_rfl
    have hfree₁ : ∀ c ∈ cs ++ [Chunk.mk s.sys.brk n], c.addr ∈ fl → c.room < n := by
      intro c hc hf
      rcases hmem c hc with hc | rfl
      · exact hfree c hc hf
      · -- the break is behind all chunks
        obtain ⟨d, hd, he⟩ := h.mine _ hf
        have hle := (h.tiles.bounds hd).2
        rw [d.fin_eq] at hle
        simp only at he
        omega
    obtain ⟨tr, s', cs', hp, hm, h', hroom', hbrk'⟩ := ih h₁ hroom₁ hfree₁ (by omega) (by rw [hbrk]; omega)
    refine ⟨(s, .malloc n true) :: tr, s', cs', hp.cons hst, fun x hx => ?_, h', hroom', ?_⟩
    · rcases List.mem_cons.mp hx with rfl | hx
      · rintro m grant ⟨⟩
        exact ⟨le_rfl, by show s.live.length < B; omega⟩
      · exact hm x hx
    · rw [hbrk', hbrk, Nat.succ_mul]
      omega

theorem Heap.free_all (h : Heap b₀ s cs fl) :
    ∃ tr s' fl', Path mhysa.Step s tr s' ∧ (∀ x ∈ tr, Modest n B x) ∧ Heap b₀ s' cs fl' ∧ s'.live = [] ∧
      s'.sys.brk = s.sys.brk := by
  generalize hk : s.live.length = k
  induction k using Nat.strong_induction_on generalizing s fl with
  | _ k ih =>
    rcases hlive : s.live with - | ⟨b, live⟩
    · exact ⟨[], s, fl, .nil, by simp, h, hlive, rfl⟩
    · have hp : b.1 ∈ s.live.map Prod.fst := by simp [hlive]
      obtain ⟨fl₁, h₁⟩ := h.freed (.inr hp)
      have hst : mhysa.Step s (.free b.1) ⟨mhysa.free b.1 s.sys, s.live.filter fun d => d.1 ≠ b.1, s.room⟩ :=
        if_pos (.inr hp)
      have hlt : (s.live.filter fun d => d.1 ≠ b.1).length < k := by
        rw [← hk]
        exact List.length_filter_lt_length_iff_exists.mpr ⟨b, by simp [hlive], by simp⟩
      obtain ⟨tr, s', fl', hpath, hm, h', hnil, hbrk⟩ := ih _ hlt h₁ rfl
      refine ⟨(s, .free b.1) :: tr, s', fl', hpath.cons hst, fun x hx => ?_, h', hnil, ?_⟩
      · rcases List.mem_cons.mp hx with rfl | hx
        · rintro m grant ⟨⟩
        · exact hm x hx
      · rw [hbrk]
        show (mhysa.free b.1 s.sys).brk = _
        unfold mhysa.free
        split_ifs <;> rfl

/-- **No smaller bound holds**: a program that asks for `B` blocks of one byte, frees them, asks for `B` blocks of two
bytes and so on makes `mhysa.c` obtain `most B S` bytes. -/
theorem growth_attained (mem : ℕ → Byte) (b₀ S B : ℕ) (hb : 0 < b₀) (hS : S ≤ 2 ^ 31 - 1) (ht : b₀ + most B S < TOP) :
    ∃ tr s, Path mhysa.Step (Session.start mem b₀) tr s ∧ (∀ x ∈ tr, Modest S B x) ∧ s.live = [] ∧
      s.sys.brk = b₀ + most B S := by
  have key : ∃ tr s cs fl, Path mhysa.Step (Session.start mem b₀) tr s ∧ (∀ x ∈ tr, Modest S B x) ∧ s.live = [] ∧
      s.sys.brk = b₀ + most B S ∧ Heap b₀ s cs fl ∧ ∀ c ∈ cs, c.room ≤ S := by
    induction S with
    | zero =>
      refine ⟨[], Session.start mem b₀, [], [], .nil, by simp, rfl, rfl, .start hb (by omega), by simp⟩
    | succ S ih =>
      have hmost : most B (S + 1) = most B S + B * (CHUNK + (S + 1)) := by
        rw [most, mostFrom, Finset.sum_Icc_succ_top (by omega), Nat.mul_add]
        rfl
      rw [hmost] at ht ⊢
      obtain ⟨tr, s, cs, fl, hp, hm, hlive, hbrk, h, hroom⟩ := ih (by omega) (by omega)
      obtain ⟨tr₁, s₁, cs₁, hp₁, hm₁, h₁, hroom₁, hbrk₁⟩ := h.extend_all (n := S + 1) (B := B) (by omega) (by omega)
        (fun c hc => (hroom c hc).trans (Nat.le_succ S)) (fun c hc _ => Nat.lt_succ_of_le (hroom c hc)) B
        (by simp [hlive]) (by omega)
      obtain ⟨tr₂, s₂, fl₂, hp₂, hm₂, h₂, hlive₂, hbrk₂⟩ := h₁.free_all (n := S + 1) (B := B)
      refine ⟨tr ++ tr₁ ++ tr₂, s₂, cs₁, fl₂, (hp.append hp₁).append hp₂, fun x hx => ?_, hlive₂, ?_, h₂, hroom₁⟩
      · rcases List.mem_append.mp hx with hx | hx
        · rcases List.mem_append.mp hx with hx | hx
          · exact (hm x hx).mono (Nat.le_succ S)
          · exact hm₁ x hx
        · exact hm₂ x hx
      · rw [hbrk₂, hbrk₁, hbrk]
        omega
  obtain ⟨tr, s, cs, fl, hp, hm, hlive, hbrk, -, -⟩ := key
  exact ⟨tr, s, hp, hm, hlive, hbrk⟩

/-- Two blocks at a time, of one byte, then of two. -/
theorem growth_attained_two : ∃ tr s, Path mhysa.Step (Session.start (fun _ => 0) 4096) tr s ∧
    (∀ x ∈ tr, Modest 2 2 x) ∧ s.live = [] ∧ s.sys.brk = 4096 + most 2 2 :=
  growth_attained (fun _ => 0) 4096 2 2 (by decide) (by decide) (by decide)

end Seminars.Mylloc
