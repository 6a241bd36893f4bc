import Mathlib.Data.List.Chain
import Seminars.Dlmalloc.Request

/-!
# Seminars.Dlmalloc.Invariant — the heap invariant, field by field

`Sound m s l fl` is the invariant in terms of the code alone: the walk `l` of `after()`, the tags in the headers,
the list `fl` threaded from `flist`, the pointers the program holds.  No layout occurs in it.

* `Holds.sound`: a session that holds a regular layout (sizes multiples of 8, at least 16) is sound.
* `Move.regular`: requests of 16 bytes to 1 GiB keep the layout regular.
* `heap_invariant`: every run of such requests and of any frees keeps the session sound, and no call faults.
-/

namespace Seminars.Dlmalloc

open Lib BlockMem

/-- The block sizes `seminar2` works with. -/
def Regular {base room : ℕ} (A : Layout base room) : Prop := ∀ b ∈ A.blocks, b.size % ALIGN = 0 ∧ 16 ≤ b.size

section Sound

variable {μ L V : Type} [BlockMem μ L V]

/-- **The heap invariant**, with the blocks `l` in physical order and the free list `fl`. -/
structure Sound (m : Mapping) (s : Session μ) (l fl : List ℕ) : Prop where
  /-- the blocks tile the arena up to the sentinel -/
  arena : s.heap.arena = m.base
  walk : Blocks s.heap l
  sizes : ∀ b ∈ l, val s.heap b .size % ALIGN = 0 ∧ 16 ≤ val s.heap b .size
  sentinel : val s.heap (m.base + (ARENA - HEAD)) .size = 0
  exact : s.heap.truncated = false
  /-- every header repeats the size and the status of the block in front of it -/
  first : ∀ b ∈ (l ++ [m.base + (ARENA - HEAD)]).head?, val s.heap b .bsize = 0 ∧ val s.heap b .bfree = FALSE
  tags : (l ++ [m.base + (ARENA - HEAD)]).IsChain fun b c =>
    val s.heap c .bsize = val s.heap b .size ∧ val s.heap c .bfree = val s.heap b .free
  /-- the free list consists of the free blocks, each once -/
  status : ∀ b ∈ l, val s.heap b .free = TRUE ∨ val s.heap b .free = FALSE
  list : FreeList s.heap fl
  flist : ∀ b, b ∈ fl ↔ b ∈ l ∧ val s.heap b .free = TRUE
  /-- the program holds the payloads of the other blocks, each once, and they do not overlap -/
  live : ∀ p, p ∈ s.live ↔ ∃ b ∈ l, val s.heap b .free = FALSE ∧ p = b + HEAD
  nodup : s.live.Nodup
  within : ∀ p ∈ s.live, m.base + HEAD ≤ p ∧ p + val s.heap (p - HEAD) .size ≤ m.base + (ARENA - HEAD)
  apart : s.live.Pairwise fun p q =>
    p + val s.heap (p - HEAD) .size + HEAD ≤ q ∨ q + val s.heap (q - HEAD) .size + HEAD ≤ p

theorem Headers.isChain {h : Heap μ} {pf : Bool} {ps : ℕ} {l : List Blk} (hh : Headers h pf ps l) :
    (l.map Blk.addr).IsChain fun b c => val h c .bsize = val h b .size ∧ val h c .bfree = val h b .free := by
  induction l generalizing pf ps with
  | nil => exact .nil
  | cons b l ih =>
    cases l with
    | nil => exact .singleton _
    | cons c l =>
      obtain ⟨⟨-, -, hf, hs⟩, hc⟩ := hh
      exact .cons_cons ⟨hc.1.2.1.trans hs.symm, hc.1.1.trans hf.symm⟩ (ih hc)

variable {m : Mapping} {A : Layout m.base (room μ)} {s : Session μ}

theorem Holds.sound (hh : Holds m s A) (hreg : Regular A) :
    Sound m s (A.blocks.map Blk.addr) (A.flist.map Blk.addr) := by
  have hR := hh.rep
  have hmem : ∀ b ∈ A.blocks, val s.heap b.addr .free = b.free.toNat ∧ val s.heap b.addr .size = b.size :=
    fun b hb => hR.headers.mem (A.mem_all_of_mem hb)
  have hz := hR.headers.mem (b := sentinel m.base) (by simp [Layout.all])
  have hall : A.blocks.map Blk.addr ++ [m.base + (ARENA - HEAD)] = A.all.map Blk.addr := by
    simp [Layout.all, sentinel]
  have hfree : ∀ b ∈ A.blocks, ∀ v, val s.heap b.addr .free = v.toNat → b.free = v := by
    intro b hb v hv
    rw [(hmem b hb).1] at hv
    cases hbf : b.free <;> cases v <;> simp_all
  refine ⟨hR.arena, hR.blocks, ?_, hz.2, hR.exact, ?_, ?_, ?_, hR.freeList, ?_, ?_, hh.nodup, ?_, ?_⟩
  · -- the sizes
    intro p hp
    obtain ⟨b, hb, rfl⟩ := List.mem_map.mp hp
    rw [(hmem b hb).2]
    exact hreg b hb
  · -- nothing stands in front of the first block
    rw [hall]
    intro p hp
    have hhd := hR.headers
    obtain ⟨b, t, hbt⟩ : ∃ b t, A.all = b :: t := by cases hA : A.all <;> simp_all
    rw [hbt] at hhd hp
    obtain rfl : b.addr = p := by simpa using hp
    exact ⟨hhd.1.2.1, hhd.1.1⟩
  · -- the tags
    rw [hall]
    exact hR.headers.isChain
  · -- the status is one bit
    intro p hp
    obtain ⟨b, hb, rfl⟩ := List.mem_map.mp hp
    rw [(hmem b hb).1]
    cases b.free
    · exact .inr rfl
    · exact .inl rfl
  · -- who is on the free list
    intro p
    constructor
    · intro hp
      obtain ⟨b, hb, rfl⟩ := List.mem_map.mp hp
      obtain ⟨hbA, hbf⟩ := (A.mem_flist b).mp hb
      exact ⟨List.mem_map_of_mem hbA, by rw [(hmem b hbA).1, hbf]; rfl⟩
    · rintro ⟨hp, hf⟩
      obtain ⟨b, hb, rfl⟩ := List.mem_map.mp hp
      exact List.mem_map_of_mem ((A.mem_flist b).mpr ⟨hb, hfree b hb true hf⟩)
  · -- who is in use
    intro p
    rw [hh.live p]
    constructor
    · rintro ⟨b, hb, hbf, rfl⟩
      exact ⟨b.addr, List.mem_map_of_mem hb, by rw [(hmem b hb).1, hbf]; rfl, rfl⟩
    · rintro ⟨q, hq, hf, rfl⟩
      obtain ⟨b, hb, rfl⟩ := List.mem_map.mp hq
      exact ⟨b, hb, hfree b hb false hf, rfl⟩
  · -- payloads lie in the arena
    intro p hp
    obtain ⟨b, pre, post, hb, -, rfl, hsz⟩ := hh.block hp
    have := A.tiled.mem (b := b) (by rw [hb]; simp)
    rw [hsz]
    simp only [Blk.fin] at this
    omega
  · -- and are apart
    refine hh.nodup.imp_of_mem fun {p q} hp hq hpq => ?_
    obtain ⟨b, pre, post, hb, -, rfl, hbs⟩ := hh.block hp
    obtain ⟨c, pre', post', hc, -, rfl, hcs⟩ := hh.block hq
    rw [hbs, hcs]
    rcases A.tiled.eq_or_apart (b := b) (c := c) (by rw [hb]; simp) (by rw [hc]; simp) with rfl | h | h
    · exact absurd rfl hpq
    all_goals
      simp only [Blk.fin] at h
      omega

end Sound

/-! ### Requests that keep the layout regular -/

/-- Requests from 16 bytes to 1 GiB are rounded up to a multiple of 8, nothing else. -/
theorem adjust_regular {n : ℕ} (h16 : 16 ≤ n) (hn : n ≤ 2 ^ 30) : sizeT (adjust n) = (n + 7) / 8 * 8 := by
  rcases Nat.lt_or_eq_of_le h16 with h | rfl
  · have hw : n % 2 ^ 32 = n := Nat.mod_eq_of_lt (by omega)
    rw [adjust_large h, int_eq (by omega), tmod_align, if_pos (Int.natCast_nonneg n)]
    split_ifs with h0
    · rw [sizeT_eq (by omega)]
      omega
    · rw [show (n : ℤ) + ALIGN - (n : ℤ) % 8 = ((n + 7) / 8 * 8 : ℕ) by simp only [ALIGN]; omega,
        int_eq (by omega), sizeT_eq (by omega)]
  · rw [adjust_small le_rfl, sizeT_eq (by decide)]

theorem Regular.mark {base room : ℕ} {A A' : Layout base room} {pre post : List Blk} {b : Blk} {v : Bool}
    (hreg : Regular A) (hb : A.blocks = pre ++ b :: post) (hb' : A'.blocks = pre ++ { b with free := v } :: post) :
    Regular A' := by
  intro c hc
  rw [hb', List.mem_append, List.mem_cons] at hc
  rcases hc with hc | rfl | hc
  · exact hreg c (by rw [hb]; simp [hc])
  · exact hreg b (by rw [hb]; simp)
  · exact hreg c (by rw [hb]; simp [hc])

/-- **The step lemma** of the invariant. -/
theorem Move.regular {base room : ℕ} {A A' : Layout base room} {c : Call} (hmv : Move A c A') (hreg : Regular A)
    (hc : ∀ n, c = .dalloc n → 16 ≤ n ∧ n ≤ 2 ^ 30) : Regular A' := by
  cases hmv with
  | dalloc_zero => exact hreg
  | @dalloc n p _ _ hn ht =>
    obtain ⟨h16, hmax⟩ := hc n rfl
    rw [adjust_regular h16 hmax] at ht
    cases ht with
    | none h => exact hreg
    | @carve pre post l₁ l₂ b hb hf h1 hr hroom =>
      have hbA := hreg b (by rw [hb]; simp)
      have hold : ∀ c, c ∈ pre ∨ c ∈ post → c ∈ A.blocks := by
        intro c hc
        rw [hb]; simp only [List.mem_append, List.mem_cons]; tauto
      intro c hc
      simp only [Layout.carve, List.mem_append, List.mem_cons] at hc
      rcases hc with hc | rfl | rfl | hc
      · exact hreg c (hold c (.inl hc))
      · simp only [Layout.rest, HEAD, ALIGN] at hbA hr ⊢
        omega
      · simp only [Layout.cut, ALIGN]
        omega
      · exact hreg c (hold c (.inr hc))
    | @claim pre post l₁ l₂ b hb hf h1 hr hr' => exact hreg.mark hb rfl
  | dfree_null => exact hreg
  | @dfree pre post b hb hbt hr => exact hreg.mark hb rfl
  | write => exact hreg

section Run

variable {μ L V : Type} [BlockMem μ L V] {m : Mapping} {s : Session μ} {tr : List (Session μ × Call)}

theorem Holds.roomy {A : Layout m.base (room μ)} (hh : Holds m s A) (hreg : Regular A) {p : ℕ}
    (hp : p = NULL ∨ p ∈ s.live) : Roomy s (.dfree p) := by
  rintro _ ⟨⟩ hp0
  obtain ⟨b, pre, post, hb, -, rfl, hsz⟩ := hh.block (hp.resolve_left hp0)
  rw [hsz]
  exact room_le.trans (hreg b (by rw [hb]; simp)).2

theorem regular_fresh : Regular (Layout.fresh m.base (room μ) room_le) := by
  intro b hb
  obtain rfl : b = _ := List.mem_singleton.mp hb
  exact ⟨by simp only [HEAD, ARENA, ALIGN], by simp only [HEAD, ARENA]; omega⟩

theorem Step.regular {A : Layout m.base (room μ)} {c : Call} {s' : Session μ} (hst : Step s c s') (hh : Holds m s A)
    (hreg : Regular A) (hreq : ∀ n, c = .dalloc n → 16 ≤ n ∧ n ≤ 2 ^ 30) :
    Roomy s c ∧ ∀ A', Move A c A' → Regular A' := by
  refine ⟨?_, fun A' hmv => hmv.regular hreg hreq⟩
  cases hst with
  | dalloc => exact roomy_of_ne fun p => by simp
  | dfree hp => exact hh.roomy hreg hp
  | write => exact roomy_of_ne fun p => by simp

theorem Started.regular (hst : Started m tr s) (hreq : ∀ t n, (t, .dalloc n) ∈ tr → 16 ≤ n ∧ n ≤ 2 ^ 30) :
    ∃ A, Holds m s A ∧ Regular A :=
  hst.holds regular_fresh fun t _ _ hm hstep _ hh hreg => hstep.regular hh hreg fun n hc => hreq t n (hc ▸ hm)

/-- **Every run of requests of 16 bytes to 1 GiB keeps the heap sound**, whatever is freed and whatever the
program writes into its blocks, and the next call does not fault. -/
theorem heap_invariant (hst : Started m tr s) (hreq : ∀ t n, (t, .dalloc n) ∈ tr → 16 ≤ n ∧ n ≤ 2 ^ 30) :
    (∃ l fl, Sound m s l fl) ∧ (∀ n, 16 ≤ n → n ≤ 2 ^ 30 → ∃ s', Step s (.dalloc n) s') ∧
      ∀ p, p = NULL ∨ p ∈ s.live → ∃ s', Step s (.dfree p) s' := by
  obtain ⟨A, hh, hreg⟩ := hst.regular hreq
  refine ⟨⟨_, _, hh.sound hreg⟩, fun n _ hn => ?_, fun p hp => ?_⟩
  · exact can_step hh (roomy_of_ne fun p => by simp) (.inl ⟨n, by omega, rfl⟩)
  · exact can_step hh (hh.roomy hreg hp) (.inr ⟨p, rfl, hp⟩)

/-- The invariant after a run that splits twice, frees in between and splits the freed block's neighbour. -/
theorem heap_invariant_four : ∃ (tr : List (Session Bytes × Call)) (s : Session Bytes),
    tr.map Prod.snd = [.dalloc 24, .dalloc 40, .dfree 69600, .dalloc 17] ∧ Started .second tr s ∧
      (∃ l fl, Sound .second s l fl) ∧ (∀ n, 16 ≤ n → n ≤ 2 ^ 30 → ∃ s', Step s (.dalloc n) s') ∧
      ∀ p, p = NULL ∨ p ∈ s.live → ∃ s', Step s (.dfree p) s' := by
  obtain ⟨tr, s, htr, hst, -⟩ := exists_started .second (fun _ => 0 : Bytes)
    [.dalloc 24, .dalloc 40, .dfree 69600, .dalloc 17] (fun _ => true) (by decide +kernel)
  refine ⟨tr, s, htr, hst, heap_invariant hst fun t n hm => ?_⟩
  have hn := mem_labels htr hm
  simp at hn
  omega

end Run

end Seminars.Dlmalloc
