import Mathlib.Data.List.Perm.Subperm
import Seminars.Dlmalloc.Find

/-!
# Seminars.Dlmalloc.Spec — the allocator's entry points on layouts

`Took A r p A' C`: first fit on the layout `A` for `r` bytes gives the pointer `p` and the layout `A'`, storing
into cells of `C` only.  `dalloc_spec` is `dalloc` in those terms, `dalloc_zero` the request for no bytes,
`init_spec` the first layout.  The walk of `find` ends on every heap that holds a layout (`find_skip`,
`flist_length_le`).
-/

namespace Seminars.Dlmalloc

open Lib BlockMem

/-- First fit: the outcomes of a request for `r` bytes. -/
inductive Took {base room : ℕ} (A : Layout base room) (r : ℕ) :
    ℕ → Layout base room → Set (ℕ × Field) → Prop
  | none : (∀ c ∈ A.flist, c.size < r) → Took A r NULL A ∅
  | carve {pre post l₁ l₂ : List Blk} {b : Blk} (hb : A.blocks = pre ++ b :: post)
      (hf : A.flist = l₁ ++ b :: l₂) (hfirst : ∀ c ∈ l₁, c.size < r) (hr : r + HEAD + 16 ≤ b.size)
      (hroom : room ≤ 16) :
      Took A r ((Layout.cut b r).addr + HEAD) (A.carve hb hf r hr hroom)
        (touched [b.addr, (Layout.cut b r).addr] b.fin A.flist)
  | claim {pre post l₁ l₂ : List Blk} {b : Blk} (hb : A.blocks = pre ++ b :: post)
      (hf : A.flist = l₁ ++ b :: l₂) (hfirst : ∀ c ∈ l₁, c.size < r) (hr : r ≤ b.size)
      (hr' : b.size < r + HEAD + 16) :
      Took A r (b.addr + HEAD) (A.claim hb hf) (touched [b.addr] b.fin A.flist)

namespace Took

variable {base room : ℕ} {A A' : Layout base room} {r p : ℕ} {C : Set (ℕ × Field)}

/-- A request fails only when no free block is large enough. -/
theorem null_iff (ht : Took A r p A' C) : p = NULL ↔ ∀ c ∈ A.flist, c.size < r := by
  cases ht with
  | none h => exact ⟨fun _ => h, fun _ => rfl⟩
  | @carve pre post l₁ l₂ b hb hf h1 hr hroom =>
    refine ⟨fun e => by simp [NULL] at e, fun h => ?_⟩
    have := h b (by rw [hf]; simp)
    omega
  | @claim pre post l₁ l₂ b hb hf h1 hr hr' =>
    refine ⟨fun e => by simp [NULL] at e, fun h => ?_⟩
    have := h b (by rw [hf]; simp)
    omega

theorem block (ht : Took A r p A' C) (hp : p ≠ NULL) :
    ∃ b ∈ A'.blocks, b.free = false ∧ p = b.addr + HEAD ∧ r ≤ b.size := by
  cases ht with
  | none h => exact absurd rfl hp
  | @carve pre post l₁ l₂ b hb hf h1 hr hroom =>
    exact ⟨Layout.cut b r, by simp [Layout.carve], rfl, rfl, le_rfl⟩
  | @claim pre post l₁ l₂ b hb hf h1 hr hr' =>
    exact ⟨{ b with free := false }, by simp [Layout.claim], rfl, rfl, hr⟩

theorem eq_of_null (ht : Took A r NULL A' C) : A' = A := by
  generalize hp : NULL = p at ht
  cases ht with
  | none h => rfl
  | carve hb hf h1 hr hroom => simp [NULL] at hp
  | claim hb hf h1 hr hr' => simp [NULL] at hp

end Took

/-- The first block of a list that is large enough, if there is one. -/
theorem first_fit (r : ℕ) (l : List Blk) :
    (∀ c ∈ l, c.size < r) ∨ ∃ l₁ b l₂, l = l₁ ++ b :: l₂ ∧ (∀ c ∈ l₁, c.size < r) ∧ r ≤ b.size := by
  induction l with
  | nil => exact .inl (by simp)
  | cons c l ih =>
    by_cases hc : r ≤ c.size
    · exact .inr ⟨[], c, l, rfl, by simp, hc⟩
    · rw [not_le] at hc
      rcases ih with h | ⟨l₁, b, l₂, rfl, h1, h2⟩
      · exact .inl fun d hd => (List.mem_cons.mp hd).elim (fun e => e ▸ hc) (h d)
      · exact .inr ⟨c :: l₁, b, l₂, rfl, fun d hd => (List.mem_cons.mp hd).elim (fun e => e ▸ hc) (h1 d), h2⟩

theorem Tiled.length_le {a e : ℕ} {l : List Blk} (h : Tiled a l e) : a + HEAD * l.length ≤ e := by
  induction l generalizing a with
  | nil => simpa using Nat.le_of_eq h
  | cons b l ih =>
    have h1 := h.1
    have h2 := ih h.2
    simp only [Blk.fin, HEAD, List.length_cons] at h2 ⊢
    omega

theorem Layout.flist_length_le {base room : ℕ} (A : Layout base room) : A.flist.length ≤ ARENA := by
  have h1 := A.tiled.length_le
  have h2 : A.flist.length ≤ A.blocks.length :=
    (A.nodup.subperm fun _ hb => A.mem_blocks_of_flist hb).length_le
  simp only [HEAD, ARENA] at h1 ⊢
  omega

section Spec

variable {μ L V : Type} [BlockMem μ L V] {m : Mapping} {A : Layout m.base (room μ)} {h : Heap μ} {r n : ℕ}

/-- The head pointer of a piece of the free list. -/
def head (l : List Blk) : ℕ := (l.map Blk.addr).headD NULL

theorem Rep.links_mem (hR : Rep m h A) {l k : List Blk} {b : Blk} (hf : A.flist = l ++ b :: k) :
    b.addr ≠ NULL ∧ (∀ f : Field, inside h b.addr f) ∧ val h b.addr .next = head k ∧
      val h b.addr .prev = (l.map Blk.addr).getLastD NULL := by
  have hbF : b ∈ A.flist := by rw [hf]; simp
  have hb0 := A.addr_pos m.pos (A.mem_all_of_flist hbF)
  have hl := hR.links
  rw [hf, List.map_append, List.map_cons] at hl
  refine ⟨hb0, fun f => inside_flist hR.mapped hbF, ?_, hl.prv_mem hb0⟩
  rw [← nxt_addr hbF]
  exact hl.nxt_mem

theorem Rep.flist_eq (hR : Rep m h A) : h.flist = head A.flist := by
  have h1 := hR.links.head_eq
  simp only [nxt, if_true] at h1
  exact h1

theorem head_cons {b : Blk} {k : List Blk} : head (b :: k) = b.addr := rfl

/-- The loop of `find` passes over blocks that are too small. -/
theorem find_skip (l k l' : List Blk) (hR : Rep m h A) (hf : A.flist = l ++ (k ++ l'))
    (hk : ∀ c ∈ k, c.size < r) {Q : ℕ → Heap μ → Prop} (hQ : Runs (findLoop r n (head l')) h Q) :
    Runs (findLoop r (n + k.length) (head (k ++ l'))) h Q := by
  induction k generalizing l with
  | nil => exact hQ
  | cons c k ih =>
    obtain ⟨hc0, hin, hnext, -⟩ := hR.links_mem hf
    have hcA := A.mem_all_of_flist (show c ∈ A.flist by rw [hf]; simp)
    rw [List.cons_append, head_cons, List.length_cons, ← Nat.add_assoc, findLoop]
    refine runs_ite (fun _ => ?_) fun h0 => absurd hc0 h0
    refine runs_bind (runs_rd hc0 (hin _) (runs_ite (fun hge => ?_) fun _ => ?_))
    · rw [(hR.headers.mem hcA).2] at hge
      exact absurd (hk c (by simp)) (not_lt.mpr hge)
    · refine runs_bind (runs_rd hc0 (hin _) ?_)
      rw [hnext]
      exact ih (l ++ [c]) (by rw [hf]; simp) fun d hd => hk d (List.mem_cons_of_mem _ hd)

/-- **`find`** on a heap that holds the layout `A`. -/
theorem find_spec (hR : Rep m h A) : Runs (find r) h (fun p h' => ∃ A' C,
      Took A r (if p = NULL then NULL else p + HEAD) A' C ∧ Rep m h' A' ∧ Changes h h' C ∧
      (p = NULL → h' = h)) := by
  have hlen := A.flist_length_le
  refine runs_bind (runs_get ?_)
  rw [hR.flist_eq]
  rcases first_fit r A.flist with hnone | ⟨l₁, b, l₂, hf, h1, h2⟩
  · have hfuel : ARENA + 2 = (ARENA + 1 - A.flist.length) + 1 + A.flist.length := by omega
    have hskip := find_skip [] A.flist [] (n := ARENA + 1 - A.flist.length + 1) hR (by simp) hnone
      (Q := fun p h' => p = NULL ∧ h' = h) (runs_pure ⟨rfl, rfl⟩)
    rw [List.append_nil, ← hfuel] at hskip
    refine Runs.imp ?_ hskip
    rintro _ _ ⟨rfl, rfl⟩
    exact ⟨A, ∅, .none hnone, hR, Changes.refl _ _, fun _ => rfl⟩
  · have hl1 : l₁.length ≤ A.flist.length := by rw [hf]; simp
    have hfuel : ARENA + 2 = (ARENA + 1 - l₁.length) + 1 + l₁.length := by omega
    have hbF : b ∈ A.flist := by rw [hf]; simp
    obtain ⟨pre, post, hb⟩ := List.append_of_mem (A.mem_blocks_of_flist hbF)
    have hb0 := A.addr_pos m.pos (A.mem_all_of_flist hbF)
    rw [hf, hfuel]
    refine find_skip [] l₁ (b :: l₂) hR hf h1 ?_
    rw [head_cons]
    by_cases hlim : r + HEAD + 16 ≤ b.size
    · refine Runs.imp ?_ (find_carve hR hb hf hlim)
      rintro p h' ⟨rfl, hR', hch⟩
      have hp : (Layout.cut b r).addr ≠ NULL := by
        simp only [Layout.cut, NULL]
        omega
      rw [if_neg hp]
      exact ⟨_, _, .carve hb hf h1 hlim room_le, hR', hch, fun e => absurd e hp⟩
    · refine Runs.imp ?_ (find_claim hR hb hf h2 (by omega))
      rintro p h' ⟨rfl, hR', hch⟩
      rw [if_neg hb0]
      exact ⟨_, _, .claim hb hf h1 h2 (by omega), hR', hch, fun e => absurd e hb0⟩

/-- **`dalloc`** of some bytes is first fit on the layout, for the size `adjust` makes of the request. -/
theorem dalloc_spec (hR : Rep m h A) (hn : n ≠ 0) : Runs (dalloc n) h (fun p h' => ∃ A' C,
      Took A (sizeT (adjust n)) p A' C ∧ Rep m h' A' ∧ Changes h h' C ∧ (p = NULL → h' = h)) := by
  refine runs_ite (fun h0 => absurd (Nat.le_zero.mp h0) hn) fun _ => ?_
  refine runs_bind (Runs.imp ?_ (find_spec hR))
  rintro p h' ⟨A', C, ht, hR', hch, h0⟩
  refine runs_ite (fun hp => runs_pure ?_) fun hp => runs_pure ?_
  · rw [if_pos hp] at ht
    exact ⟨A', C, ht, hR', hch, fun _ => h0 hp⟩
  · rw [if_neg hp] at ht
    exact ⟨A', C, ht, hR', hch, fun e => absurd e (by simp [NULL])⟩

theorem dalloc_zero : Runs (dalloc 0) h (fun p h' => p = NULL ∧ h' = h) :=
  runs_ite (fun _ => runs_pure ⟨rfl, rfl⟩) fun h0 => absurd le_rfl h0

/-- The program's start: nothing is mapped, both static variables are null. -/
def Heap.start (mem : μ) : Heap μ := ⟨mem, none, NULL, NULL, false⟩

/-- **`init`**, when `mmap` succeeds, sets up one free block. -/
theorem init_spec (m : Mapping) (mem : μ) : Runs (init (some m)) (Heap.start mem)
    (fun _ h' => Rep m h' (Layout.fresh m.base (room μ) room_le)) := by
  set A := Layout.fresh m.base (room μ) room_le with hA
  set b : Blk := ⟨m.base, ARENA - 2 * HEAD, true⟩ with hb
  set z := sentinel m.base with hz
  have hall : A.all = [b, z] := rfl
  have hbA : b ∈ A.all := by rw [hall]; simp
  have hzA : z ∈ A.all := by rw [hall]; simp
  have hbz : b ≠ z := by simp [hb, hz, sentinel]
  have hb0 : m.base ≠ NULL := A.addr_pos m.pos hbA
  have hz0 := A.addr_pos m.pos hzA
  -- the state after each store
  set k0 : Heap μ := { Heap.start mem with mapped := some m.base } with hk0
  set k1 := k0.put b.addr .bfree FALSE with hk1
  set k2 := k1.put b.addr .bsize (0 : ℕ) with hk2
  set k3 := k2.put b.addr .free TRUE with hk3
  set k4 := k3.put b.addr .size (ARENA - 2 * HEAD : ℕ) with hk4
  set k5 := k4.put z.addr .bfree TRUE with hk5
  set k6 := k5.put z.addr .bsize (ARENA - 2 * HEAD : ℕ) with hk6
  set k7 := k6.put z.addr .free FALSE with hk7
  set k8 := k7.put z.addr .size (0 : ℕ) with hk8
  set k9 : Heap μ := { k8 with arena := m.base } with hk9
  have hin : ∀ (k : Heap μ), k.mapped = some m.base → ∀ d ∈ A.all, ∀ f : Field, f.isLink = false → inside k d.addr f :=
    fun k hk d hd f hf => Layout.inside hk hd (.inl hf)
  have hput : ∀ (k : Heap μ), ∀ c ∈ A.all, ∀ d ∈ A.all, ∀ f g : Field, f.isLink = false → g.isLink = false →
      ∀ n : ℕ, n < 2 ^ 16 → val (k.put d.addr g n) c.addr f = if c = d ∧ f = g then n else val k c.addr f :=
    fun k c hc d hd f g hf hg n hn => Layout.val_put hc hd (.inl hf) hg hn
  have hval : ∀ c ∈ A.all, ∀ f : Field, f.isLink = false → val k8 c.addr f =
      if c = z ∧ f = .size then 0 else if c = z ∧ f = .free then FALSE else
      if c = z ∧ f = .bsize then ARENA - 2 * HEAD else if c = z ∧ f = .bfree then TRUE else
      if c = b ∧ f = .size then ARENA - 2 * HEAD else if c = b ∧ f = .free then TRUE else
      if c = b ∧ f = .bsize then 0 else if c = b ∧ f = .bfree then FALSE else val k0 c.addr f := by
    intro c hc f hf
    rw [hk8, hput _ _ hc _ hzA _ _ hf rfl _ (by decide), hk7, hput _ _ hc _ hzA _ _ hf rfl _ (by decide), hk6,
      hput _ _ hc _ hzA _ _ hf rfl _ (by decide), hk5, hput _ _ hc _ hzA _ _ hf rfl _ (by decide), hk4,
      hput _ _ hc _ hbA _ _ hf rfl _ (by decide), hk3, hput _ _ hc _ hbA _ _ hf rfl _ (by decide), hk2,
      hput _ _ hc _ hbA _ _ hf rfl _ (by decide), hk1, hput _ _ hc _ hbA _ _ hf rfl _ (by decide)]
  have v4 : val k4 b.addr .size = ARENA - 2 * HEAD := Heap.val_put_self (by decide)
  have v4' : val k4 b.addr .free = TRUE := by
    rw [hk4, hput _ _ hbA _ hbA _ _ rfl rfl _ (by decide), if_neg (by simp)]
    exact Heap.val_put_self (by decide)
  have hexact : k9.truncated = false := by
    show k8.truncated = false
    rw [hk8, Heap.put_truncated (by decide), hk7, Heap.put_truncated (by decide), hk6,
      Heap.put_truncated (by decide), hk5, Heap.put_truncated (by decide), hk4, Heap.put_truncated (by decide),
      hk3, Heap.put_truncated (by decide), hk2, Heap.put_truncated (by decide), hk1,
      Heap.put_truncated (by decide)]
    rfl
  have hhead : Headers k9 false 0 A.all := by
    refine ⟨⟨?_, ?_, ?_, ?_⟩, ⟨?_, ?_, ?_, ?_⟩, trivial⟩
    · exact (hval b hbA _ rfl).trans (by simp [hbz])
    · exact (hval b hbA _ rfl).trans (by simp [hbz])
    · exact (hval b hbA _ rfl).trans (by simp [hbz])
    · exact (hval b hbA _ rfl).trans (by simp [hbz])
    · exact (hval z hzA _ rfl).trans (by simp)
    · exact (hval z hzA _ rfl).trans (by simp)
    · exact (hval z hzA _ rfl).trans (by simp [hz, sentinel])
    · exact (hval z hzA _ rfl).trans (by simp [hz, sentinel])
  unfold init
  refine runs_bind (Runs.imp (Q := fun p k => p = m.base ∧ k = k9) ?_ ?_)
  · rintro _ _ ⟨rfl, rfl⟩
    refine Runs.imp ?_ (insert_spec (A := A) (b := b) (l := []) rfl rfl ⟨rfl, fun e => absurd rfl e⟩)
    rintro - h' ⟨hc, hl⟩
    refine ⟨hc.mapped, hc.arena, hc.truncated.trans hexact, hhead.congr fun d hd f hf => ?_, hl⟩
    exact hc.header_eq (List.Subset.refl _) hd hf
  · unfold new
    refine runs_bind (runs_get (runs_ite (fun h0 => absurd rfl h0) fun _ => ?_))
    refine runs_bind (runs_modify (runs_bind (runs_wr hb0 (hin k0 rfl b hbA _ rfl) ?_)))
    refine runs_bind (runs_wr hb0 (hin k1 rfl b hbA _ rfl) (runs_bind (runs_wr hb0 (hin k2 rfl b hbA _ rfl) ?_)))
    refine runs_bind (runs_wr hb0 (hin k3 rfl b hbA _ rfl) ?_)
    refine runs_bind (Runs.imp (Q := fun p k => p = z.addr ∧ k = k4) ?_
      (runs_after hb0 (hin k4 rfl b hbA _ rfl) ⟨?_, rfl⟩))
    swap
    · exact (congrArg (fun v => m.base + v + HEAD) v4).trans (by simp only [hz, sentinel, HEAD, ARENA])
    rintro _ _ ⟨rfl, rfl⟩
    refine runs_bind (runs_rd hb0 (hin k4 rfl b hbA _ rfl) ?_)
    rw [show val _ m.base .free = TRUE from v4']
    refine runs_bind (runs_wr hz0 (hin k4 rfl z hzA _ rfl) (runs_bind (runs_wr hz0 (hin k5 rfl z hzA _ rfl) ?_)))
    refine runs_bind (runs_wr hz0 (hin k6 rfl z hzA _ rfl) (runs_bind (runs_wr hz0 (hin k7 rfl z hzA _ rfl) ?_)))
    exact runs_bind (runs_modify (runs_pure ⟨rfl, rfl⟩))

end Spec

end Seminars.Dlmalloc
