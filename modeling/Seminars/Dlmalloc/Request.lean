import Seminars.Dlmalloc.Walk

/-!
# Seminars.Dlmalloc.Request — from `size_t` to `int` and back

`dalloc(n)` passes `n` through `int minsize = MIN(size)`, the signed `%`, and the `int` result that `find` takes
as a `size_t`.  `ask n` is what comes out, in closed form, for every `n` of `size_t` (`adjust_ask`): the request
rounded up to 8 up to half the range of 32 bits, and small numbers again just below each multiple of `2 ^ 32`.

* `ask_regular`: what the callers of `seminar2` ask for.
* `dalloc_enough_iff`: when the block handed out is at least as large as the request.
-/

namespace Seminars.Dlmalloc

open Lib BlockMem

/-- The size `find` is asked for when the program asks for `n` bytes (`ARENA` stands for sizes no block has). -/
def ask (n : ℕ) : ℕ :=
  if n ≤ 16 then n
  else if n % 2 ^ 32 ≤ ARENA then (n % 2 ^ 32 + 7) / 8 * 8
  else if 2 ^ 32 - 7 ≤ n % 2 ^ 32 then 8
  else if 2 ^ 32 - 15 ≤ n % 2 ^ 32 ∧ n % 2 ^ 32 ≠ 2 ^ 32 - 8 then 0
  else ARENA

/-! ### The conversions -/

theorem int_natCast (n : ℕ) :
    int n = if n % 2 ^ 32 < 2 ^ 31 then ((n % 2 ^ 32 : ℕ) : ℤ) else ((n % 2 ^ 32 : ℕ) : ℤ) - 2 ^ 32 := by
  unfold int
  rw [Int.bmod_def]
  push_cast
  split_ifs <;> omega

/-- A negative `int` becomes a huge `size_t`. -/
theorem sizeT_neg {v : ℤ} (h0 : v < 0) (h1 : -2 ^ 31 ≤ v) : ARENA ≤ sizeT v := by
  unfold sizeT
  simp only [ARENA]
  omega

/-- C's `%` by 8: the remainder has the sign of the dividend. -/
theorem tmod_align (v : ℤ) : v.tmod ALIGN = if 0 ≤ v then v % 8 else -(-v % 8) := by
  split_ifs with h
  · exact Int.tmod_eq_emod_of_nonneg h
  · rw [← Int.tmod_eq_emod_of_nonneg (by omega : 0 ≤ -v), Int.neg_tmod, neg_neg]
    rfl

/-! ### What `find` is asked for -/

theorem adjust_small {n : ℕ} (hn : n ≤ 16) : adjust n = n := by
  have hmin : MIN n = 16 := if_neg (by omega)
  have h16 : int ((16 : ℕ) : ℤ) = 16 := int_eq (by decide)
  unfold adjust
  rw [hmin, h16, int_eq (by omega)]
  exact if_pos rfl

/-- Above 16, `adjust` works on the low 32 bits of the request, as an `int`. -/
theorem adjust_large {n : ℕ} (hn : 16 < n) : adjust n =
    if (int n).tmod ALIGN = 0 then int n else int (int n + ALIGN - (int n).tmod ALIGN) := by
  have hmin : MIN n = n := if_pos hn
  unfold adjust
  rw [hmin]

/-- The low half of the 32-bit range is rounded up to a multiple of 8. -/
theorem adjust_low {n w : ℕ} (hn : 16 < n) (hw : n % 2 ^ 32 = w) (hlow : w < 2 ^ 31) :
    sizeT (adjust n) = (w + 7) / 8 * 8 ∨ ARENA < w ∧ ARENA ≤ sizeT (adjust n) := by
  have hM : int n = w := by rw [int_natCast, hw, if_pos hlow]
  have hrem : (w : ℤ).tmod ALIGN = w % 8 := by rw [tmod_align, if_pos (Int.natCast_nonneg w)]
  rw [adjust_large hn, hM, hrem]
  split_ifs with h0
  · refine .inl ?_
    rw [sizeT_eq (by omega)]
    omega
  · have hv : (w : ℤ) + ALIGN - (w : ℤ) % 8 = ((w + 7) / 8 * 8 : ℕ) := by
      simp only [ALIGN]
      omega
    rw [hv]
    by_cases hov : (w + 7) / 8 * 8 < 2 ^ 31
    · refine .inl ?_
      rw [int_eq (by omega), sizeT_eq (by omega)]
    · have hmin : int ((w + 7) / 8 * 8 : ℕ) = -2 ^ 31 := by
        rw [int_natCast, if_neg (by omega)]
        omega
      rw [hmin]
      refine .inr ⟨?_, sizeT_neg (by decide) (by decide)⟩
      simp only [ARENA]
      omega

/-- The high half stands for negative numbers: a few of them round to 8 or 0, the others stay negative. -/
theorem adjust_high {n w : ℕ} (hn : 16 < n) (hw : n % 2 ^ 32 = w) (hhigh : 2 ^ 31 ≤ w) :
    if 2 ^ 32 - 7 ≤ w then sizeT (adjust n) = 8
    else if 2 ^ 32 - 15 ≤ w ∧ w ≠ 2 ^ 32 - 8 then sizeT (adjust n) = 0 else ARENA ≤ sizeT (adjust n) := by
  have hlt : w < 2 ^ 32 := by omega
  obtain ⟨k, hk⟩ : ∃ k : ℕ, w + k = 2 ^ 32 := ⟨2 ^ 32 - w, by omega⟩
  have hM : int n = -k := by
    rw [int_natCast, hw, if_neg (by omega)]
    omega
  have hrem : (-k : ℤ).tmod ALIGN = -(k % 8) := by
    rw [tmod_align, if_neg (by omega), neg_neg]
  have hadj : adjust n = if k % 8 = 0 then -(k : ℤ) else -k + 8 + k % 8 := by
    rw [adjust_large hn, hM, hrem]
    by_cases h8 : k % 8 = 0
    · rw [if_pos (by omega), if_pos h8]
    · rw [if_neg (by omega), if_neg h8, int_eq (by simp only [ALIGN]; omega)]
      simp only [ALIGN]
      omega
  rw [hadj]
  split_ifs with h1 h2 h3 h4 h5
  · omega
  · rw [show (-k + 8 + k % 8 : ℤ) = (8 : ℕ) by omega, sizeT_eq (by decide)]
  · omega
  · rw [show (-k + 8 + k % 8 : ℤ) = (0 : ℕ) by omega, sizeT_eq (by decide)]
  all_goals exact sizeT_neg (by omega) (by omega)

/-- **`ask` is what `find` is asked for**, as far as blocks of the arena are concerned. -/
theorem adjust_ask (n : ℕ) : sizeT (adjust n) = ask n ∨ ARENA ≤ sizeT (adjust n) ∧ ARENA ≤ ask n := by
  by_cases hn : n ≤ 16
  · rw [adjust_small hn, sizeT_eq (by omega), ask, if_pos hn]
    exact .inl rfl
  rw [not_le] at hn
  rw [ask, if_neg (by omega)]
  by_cases hlow : n % 2 ^ 32 < 2 ^ 31
  · rcases adjust_low hn rfl hlow with h | ⟨h1, h2⟩
    · rw [h]
      by_cases hA : n % 2 ^ 32 ≤ ARENA
      · rw [if_pos hA]
        exact .inl rfl
      · rw [if_neg hA, if_neg (by omega), if_neg (by omega)]
        simp only [ARENA] at hA ⊢
        omega
    · rw [if_neg (by omega), if_neg (by omega), if_neg (by omega)]
      exact .inr ⟨h2, le_rfl⟩
  · have h := adjust_high hn rfl (not_lt.mp hlow)
    rw [if_neg (by simp only [ARENA]; omega)]
    split_ifs at h ⊢
    · exact .inl h
    · exact .inl h
    · exact .inr ⟨h, le_rfl⟩

/-- Blocks of the arena do not tell `ask n` from what `find` is asked for. -/
theorem fits_ask {k n : ℕ} (hk : k < ARENA) : sizeT (adjust n) ≤ k ↔ ask n ≤ k := by
  rcases adjust_ask n with h | ⟨h1, h2⟩
  · rw [h]
  · omega

theorem ask_small {n : ℕ} (hn : n ≤ 16) : ask n = n := if_pos hn

theorem ask_regular {n : ℕ} (h16 : 16 ≤ n) (hn : n ≤ ARENA) : ask n = (n + 7) / 8 * 8 := by
  simp only [ARENA] at hn
  unfold ask
  split_ifs with h1 h2
  · omega
  · rw [Nat.mod_eq_of_lt (by omega)]
  all_goals exact absurd (show n % 2 ^ 32 ≤ ARENA by simp only [ARENA]; omega) h2

theorem le_ask {n : ℕ} (hn : n < 2 ^ 16) : n ≤ ask n := by
  by_cases h : n ≤ 16
  · rw [ask_small h]
  · rw [ask_regular (by omega) (by simp only [ARENA]; omega)]
    omega

/-! ### Enough bytes -/

section Enough

variable {μ L V : Type} [BlockMem μ L V] {m : Mapping} {s : Session μ} {tr : List (Session μ × Call)}

theorem Holds.dalloc (A : Layout m.base (room μ)) (hh : Holds m s A) (n : ℕ) : Runs (dalloc n) s.heap (fun p h' =>
    (p ≠ NULL → n ≠ 0 ∧ ask n ≤ val h' (p - HEAD) .size ∧ val h' (p - HEAD) .size < 2 ^ 16) ∧
      (n ≠ 0 → (p = NULL ↔ ∀ b ∈ A.flist, b.size < ask n))) := by
  by_cases hn : n = 0
  · subst hn
    exact Runs.imp (fun p h' ⟨hp, _⟩ => ⟨fun h => absurd hp h, fun h => absurd rfl h⟩) dalloc_zero
  refine Runs.imp ?_ (dalloc_spec hh.rep hn)
  rintro p h' ⟨A', C, ht, hR, -, -⟩
  have hlt : ∀ b ∈ A.flist, b.size < ARENA := fun b hb => size_lt A (A.mem_all_of_flist hb)
  refine ⟨fun hp => ⟨hn, ?_⟩, fun _ => ?_⟩
  · obtain ⟨b, hb, -, rfl, hrb⟩ := ht.block hp
    have hbA := A'.mem_all_of_mem hb
    have hb16 := size_lt A' hbA
    rw [Nat.add_sub_cancel, (hR.headers.mem hbA).2]
    exact ⟨(fits_ask hb16).mp hrb, hb16⟩
  · rw [ht.null_iff]
    refine forall₂_congr fun b hb => ?_
    rw [← not_le, ← not_le, not_iff_not]
    exact fits_ask (hlt b hb)

/-- **When a request gets what it asked for**: the block handed out has at least `n` bytes exactly when `n` fits
16 bits or nothing is handed out because no free block has `ask n` bytes. -/
theorem dalloc_enough_iff (hst : Started m tr s) (hroom : ∀ t c, (t, c) ∈ tr → Roomy t c) (n : ℕ) :
    Runs (dalloc n) s.heap (fun p h' => (p ≠ NULL → n ≤ val h' (p - HEAD) .size) ↔
      n < 2 ^ 16 ∨ ∀ l, FreeList s.heap l → ∀ b ∈ l, val s.heap b .size < ask n) := by
  obtain ⟨A, hh, -⟩ := hst.holds (P := fun _ => True) trivial fun t c _ hm _ _ _ _ =>
    ⟨hroom t c hm, fun _ _ => trivial⟩
  have hfree : (∀ l, FreeList s.heap l → ∀ b ∈ l, val s.heap b .size < ask n) ↔ ∀ b ∈ A.flist, b.size < ask n := by
    have hval : ∀ b ∈ A.flist, val s.heap b.addr .size = b.size := fun b hb =>
      (hh.rep.headers.mem (A.mem_all_of_flist hb)).2
    constructor
    · intro h b hb
      rw [← hval b hb]
      exact h _ hh.rep.freeList _ (List.mem_map_of_mem hb)
    · intro h l hl b hb
      rw [hl.unique hh.rep.freeList] at hb
      obtain ⟨c, hc, rfl⟩ := List.mem_map.mp hb
      rw [hval c hc]
      exact h c hc
  refine Runs.imp ?_ (hh.dalloc A n)
  rintro p h' ⟨h1, h2⟩
  rw [hfree]
  constructor
  · intro hle
    by_cases hp : p = NULL
    · by_cases hn : n = 0
      · exact .inl (by omega)
      · exact .inr ((h2 hn).mp hp)
    · have := hle hp
      have := (h1 hp).2.2
      exact .inl (by omega)
  · rintro (hn | hn) hp
    · exact (le_ask hn).trans (h1 hp).2.1
    · exact absurd ((h2 (h1 hp).1).mpr hn) hp

/-- The equivalence after one call, for a request of 4 GiB. -/
theorem dalloc_enough_iff_4G : ∃ (tr : List (Session Bytes × Call)) (s : Session Bytes),
    tr.map Prod.snd = [.dalloc 24] ∧ Started .second tr s ∧
      Runs (dalloc (2 ^ 32)) s.heap (fun p h' => (p ≠ NULL → 2 ^ 32 ≤ val h' (p - HEAD) .size) ↔
        2 ^ 32 < 2 ^ 16 ∨ ∀ l, FreeList s.heap l → ∀ b ∈ l, val s.heap b .size < ask (2 ^ 32)) := by
  obtain ⟨tr, s, htr, hst, -⟩ := exists_started .second (fun _ => 0 : Bytes) [.dalloc 24] (fun _ => true)
    (by decide +kernel)
  refine ⟨tr, s, htr, hst, dalloc_enough_iff hst (fun t c hm => roomy_of_ne fun p he => ?_) _⟩
  have hc := mem_labels htr hm
  rw [he] at hc
  simp at hc

/-- A request of 4 GiB on the fresh heap is granted, with less than that. -/
theorem dalloc_short : ∃ (m : Mapping) (tr : List (Session Bytes × Call)) (s : Session Bytes), Started m tr s ∧
    Runs (dalloc (2 ^ 32)) s.heap (fun p h' => p ≠ NULL ∧ ¬ 2 ^ 32 ≤ val h' (p - HEAD) .size) := by
  obtain ⟨tr, s, -, hst, hc⟩ := exists_started .second (fun _ => 0 : Bytes) []
    (fun s => check (dalloc (2 ^ 32)) s.heap fun p h' => decide (p ≠ NULL ∧ ¬ 2 ^ 32 ≤ val h' (p - HEAD) .size))
    (by decide +kernel)
  exact ⟨.second, tr, s, hst, Runs.imp (fun _ _ h => of_decide_eq_true h) (runs_of_check hc)⟩

end Enough

end Seminars.Dlmalloc
