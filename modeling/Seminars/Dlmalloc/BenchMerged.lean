import Seminars.Dlmalloc.Bench
import Seminars.Dlmalloc.Merged

/-!
# Seminars.Dlmalloc.BenchMerged — `bench` over the allocator with `merge` called in `dfree`

* `turnMerged`, `benchMerged`: the loop of `bench`; what the iterations draw is given.
* `turnMerged_spec`: an iteration ends, and the buffer holds the blocks in use.
* `benchMerged_spec`: the program ends after any number of iterations, and its reports stay inside `frequency`.
-/

namespace Seminars.Dlmalloc

open Lib BlockMem

/-- The first half of the loop body. -/
def turnMerged (index : Fin BUFFER) (size : ℕ) (buffer : Fin BUFFER → ℕ) : M Bytes (Fin BUFFER → ℕ) := do
  if buffer index ≠ NULL then
    dfreeMerged (buffer index)
    return Function.update buffer index NULL
  else
    let memory ← dalloc size
    poke memory
    return Function.update buffer index memory

/-- The loop: for each iteration the index and the size it draws; what `sizes` wrote to `frequency`, and `length`. -/
def benchLoopMerged : List (Fin BUFFER × ℕ) → (Fin BUFFER → ℕ) → M Bytes (List (List ℕ × ℕ))
  | [], _ => return []
  | draw :: draws, buffer => do
    let buffer ← turnMerged draw.1 draw.2 buffer
    let frequency ← sizes SIZES
    let length ← freelistlength
    return (frequency, length) :: (← benchLoopMerged draws buffer)

def benchMerged (mmap : Option Mapping) (draws : List (Fin BUFFER × ℕ)) : M Bytes (List (List ℕ × ℕ)) := do
  init mmap
  benchLoopMerged draws fun _ => NULL

variable {m : Mapping} {A : Layout m.base (room Bytes)} {h : Heap Bytes} {buffer : Fin BUFFER → ℕ} {live : List ℕ}
  {i : Fin BUFFER} {n : ℕ}

/-- The invariant of the loop: `Kept` and `Merged`, for requests of at most 128 bytes. -/
def KeptMerged (m : Mapping) (h : Heap Bytes) (buffer : Fin BUFFER → ℕ) : Prop :=
  ∃ A live, Kept m h buffer A live ∧ Merged m 128 ⟨h, live⟩ A

theorem Kept.length_le (hk : Kept m h buffer A live) : live.length ≤ BUFFER := by
  have hsub : live.toFinset ⊆ Finset.univ.image buffer := by
    intro p hp
    obtain ⟨-, j, rfl⟩ := (hk.live p).mp (List.mem_toFinset.mp hp)
    exact Finset.mem_image_of_mem buffer (Finset.mem_univ j)
  have hcard := (Finset.card_le_card hsub).trans Finset.card_image_le
  rwa [List.toFinset_card_of_nodup hk.holds.nodup, Finset.card_univ, Fintype.card_fin] at hcard

theorem Merged.poke {R p : ℕ} (hk : Merged m R ⟨h, live⟩ A) (hp : p ∈ live) :
    Runs (poke p) h fun _ h' => Merged m R ⟨h', live⟩ A :=
  Runs.imp (fun _ _ hh => ⟨hh, hk.regular, hk.coalesced, hk.taken⟩) (poke_spec hk.holds hk.regular hp)

/-- **An iteration**: there is always a block for the request. -/
theorem turnMerged_spec (hk : KeptMerged m h buffer) (h16 : 16 ≤ n) (hn : n ≤ 128) :
    Runs (turnMerged i n buffer) h fun buffer' h' => KeptMerged m h' buffer' := by
  obtain ⟨A, live, hk, hm⟩ := hk
  have hlen := hk.length_le
  refine runs_ite (fun hi => ?_) fun hi => ?_
  · -- the buffer is freed
    have hlive : buffer i ∈ live := (hk.live _).mpr ⟨hi, i, rfl⟩
    refine runs_bind (Runs.imp ?_ (hm.dfree hlive))
    rintro - h' ⟨⟨A', hm'⟩, -⟩
    exact runs_pure ⟨A', _, hk.clear hi hm'.holds hm'.regular, hm'⟩
  · -- the buffer is filled
    rw [not_not] at hi
    have hn0 : n ≠ 0 := by omega
    obtain ⟨p, h₁, hrun, A', C, ht, hR, -, -⟩ := dalloc_spec hk.holds.rep hn0
    have hhold := hk.holds.hold ht hR
    have hreq : ∀ k, Call.dalloc n = .dalloc k → 16 ≤ k ∧ k ≤ 128 := by
      intro k hk
      obtain rfl := Call.dalloc.inj hk
      exact ⟨h16, hn⟩
    obtain ⟨A₁, hm₁⟩ := hm.same (.dalloc (by omega) hrun) (fun q => by simp) hreq (by decide)
    have hp : p ≠ NULL := by
      rw [adjust_regular h16 (by omega)] at ht
      have hfew : (2 * live.length + 1) * (128 + 39) < ARENA - HEAD := by
        simp only [BUFFER, ARENA, HEAD] at hlen ⊢
        omega
      obtain ⟨b, hb, hsize⟩ := hm.exists_large hfew (r := (n + 7) / 8 * 8) (by omega)
      intro hp
      exact absurd (ht.null_iff.mp hp b hb) (by omega)
    have hnew : p ∉ live := fun hq => (ht.taken hp).1 ((hk.holds.live p).mp hq)
    have hlive : hold p live = p :: live := if_neg hp
    rw [hlive] at hm₁
    refine runs_bind ⟨p, h₁, hrun, runs_bind (Runs.imp ?_ (hm₁.poke (List.mem_cons_self ..)))⟩
    rintro - h₂ hm₂
    exact runs_pure ⟨A₁, _, hk.fill hi hp hnew hm₂.holds hm₂.regular, hm₂⟩

/-- **The loop**, by induction over what it draws. -/
theorem benchLoopMerged_spec (draws : List (Fin BUFFER × ℕ)) (hk : KeptMerged m h buffer)
    (hd : ∀ d ∈ draws, 16 ≤ d.2 ∧ d.2 ≤ 128) : Runs (benchLoopMerged draws buffer) h fun reports _ =>
      reports.length = draws.length ∧ ∀ r ∈ reports, r.1.length = r.2 ∧ r.2 ≤ BUFFER + 1 := by
  induction draws generalizing h buffer with
  | nil => exact runs_pure ⟨rfl, by simp⟩
  | cons d draws ih =>
    obtain ⟨h16, hn⟩ := hd d (by simp)
    refine runs_bind (Runs.imp ?_ (turnMerged_spec hk h16 hn))
    intro buffer' h' hk'
    obtain ⟨A, live, hk, hm⟩ := hk'
    have hflist := hm.length_flist_le.trans (Nat.add_le_add_right hk.length_le 1)
    refine runs_bind (Runs.imp ?_ (sizes_spec hm.holds.rep SIZES))
    rintro _ _ ⟨rfl, rfl⟩
    refine runs_bind (Runs.imp ?_ (length_spec hm.holds.rep))
    rintro _ _ ⟨rfl, rfl⟩
    refine runs_bind (Runs.imp ?_ (ih ⟨A, live, hk, hm⟩ fun e he => hd e (List.mem_cons_of_mem _ he)))
    rintro reports k ⟨hlen, hall⟩
    refine runs_pure ⟨by rw [List.length_cons, List.length_cons, hlen], fun r hr => ?_⟩
    rcases List.mem_cons.mp hr with rfl | hr
    · refine ⟨?_, hflist⟩
      rw [List.length_take, List.length_map]
      simp only [SIZES, BUFFER] at hflist ⊢
      omega
    · exact hall r hr

/-- **`bench` with `merge`**: for every number of iterations and everything they draw, no call fails and no access
faults, and each report has as many entries as the free list, at most 101, all of them written by `sizes`. -/
theorem benchMerged_spec (m : Mapping) (mem : Bytes) (draws : List (Fin BUFFER × ℕ))
    (hd : ∀ d ∈ draws, 16 ≤ d.2 ∧ d.2 ≤ 128) : Runs (benchMerged (some m) draws) (Heap.start mem) fun reports _ =>
      reports.length = draws.length ∧ ∀ r ∈ reports, r.1.length = r.2 ∧ r.2 ≤ BUFFER + 1 := by
  obtain ⟨_, h₀, hi, hR⟩ := init_spec m mem
  refine runs_bind ⟨_, h₀, hi, ?_⟩
  exact benchLoopMerged_spec draws ⟨_, [], kept_start hi, merged_fresh hR⟩ hd

/-- Two iterations that fill a buffer, and one that frees it. -/
theorem benchMerged_spec_three : Runs (benchMerged (some .second) [(0, 24), (1, 128), (0, 16)])
    (Heap.start (fun _ => 0 : Bytes)) fun reports _ =>
      reports.length = 3 ∧ ∀ r ∈ reports, r.1.length = r.2 ∧ r.2 ≤ BUFFER + 1 :=
  benchMerged_spec .second (fun _ => 0) [(0, 24), (1, 128), (0, 16)] (by decide)

end Seminars.Dlmalloc
