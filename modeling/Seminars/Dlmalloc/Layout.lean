import Mathlib.Data.List.Nodup
import Seminars.Dlmalloc.Access
import Seminars.Lib.Linked

/-!
# Seminars.Dlmalloc.Layout — the abstract heap and what it means for memory to hold it

A `Layout` is the allocator's heap without bytes: the blocks in physical order, tiling the arena up to the
sentinel, and the free blocks in free-list order.  A layout that is not tiled, or whose free list is not its
free blocks, cannot be built.  `carve`, `claim` and `release` are the three things the allocator does to it.

`Rep m h L`: the memory of `h` holds `L`; every header carries its own size and status and those of the block
before it, and the links thread the free list.

* `Layout.inside`, `Layout.apart`: the fields of the blocks lie in the arena and apart from one another.  The
  links of a free block are among them because it has `room` for them.
-/

namespace Seminars.Dlmalloc

open Lib

/-- A block: its header's address, its payload size, its status. -/
structure Blk where
  addr : ℕ
  size : ℕ
  free : Bool
  deriving DecidableEq, Repr

/-- The address behind a block. -/
abbrev Blk.fin (b : Blk) : ℕ := b.addr + b.size + HEAD

/-- The blocks follow one another from `a` to `e` without gaps. -/
def Tiled (a : ℕ) : List Blk → ℕ → Prop
  | [], e => a = e
  | b :: l, e => b.addr = a ∧ Tiled b.fin l e

/-- The sentinel: a block of size 0 that is never free. -/
def sentinel (base : ℕ) : Blk := ⟨base + (ARENA - HEAD), 0, false⟩

/-- The abstract heap of an arena at `base` whose free blocks have at least `room` bytes. -/
structure Layout (base room : ℕ) where
  blocks : List Blk
  flist : List Blk
  tiled : Tiled base blocks (base + (ARENA - HEAD))
  nodup : flist.Nodup
  mem_flist : ∀ b, b ∈ flist ↔ b ∈ blocks ∧ b.free = true
  fits : ∀ b ∈ flist, room ≤ b.size

/-! ### Tilings -/

section Tiled

theorem tiled_append {a e : ℕ} {l l' : List Blk} :
    Tiled a (l ++ l') e ↔ ∃ c, Tiled a l c ∧ Tiled c l' e := by
  induction l generalizing a with
  | nil => exact ⟨fun h => ⟨a, rfl, h⟩, fun ⟨c, h1, h2⟩ => (show a = c from h1) ▸ h2⟩
  | cons b l ih =>
    constructor
    · rintro ⟨h1, h2⟩
      obtain ⟨c, h3, h4⟩ := ih.mp h2
      exact ⟨c, ⟨h1, h3⟩, h4⟩
    · rintro ⟨c, ⟨h1, h3⟩, h4⟩
      exact ⟨h1, ih.mpr ⟨c, h3, h4⟩⟩

theorem Tiled.le {a e : ℕ} {l : List Blk} (h : Tiled a l e) : a ≤ e := by
  induction l generalizing a with
  | nil => exact Nat.le_of_eq h
  | cons b l ih =>
    have h1 := h.1
    have h2 := ih h.2
    simp only [Blk.fin] at h2
    omega

theorem Tiled.mem {a e : ℕ} {l : List Blk} (h : Tiled a l e) {b : Blk} (hb : b ∈ l) :
    a ≤ b.addr ∧ b.fin ≤ e := by
  obtain ⟨l1, l2, rfl⟩ := List.append_of_mem hb
  obtain ⟨c, h1, h2, h3⟩ := tiled_append.mp h
  have := h1.le
  have := h3.le
  omega

/-- The blocks of a tiling come in the order of their addresses, without overlap. -/
theorem Tiled.pairwise {a e : ℕ} {l : List Blk} (h : Tiled a l e) :
    l.Pairwise (fun b c => b.fin ≤ c.addr) := by
  induction l generalizing a with
  | nil => exact .nil
  | cons b l ih => exact List.pairwise_cons.mpr ⟨fun c hc => (h.2.mem hc).1, ih h.2⟩

theorem Tiled.nodup {a e : ℕ} {l : List Blk} (h : Tiled a l e) : l.Nodup :=
  h.pairwise.imp fun {b c} hbc => by
    rintro rfl
    simp only [Blk.fin, HEAD] at hbc
    omega

/-- Two blocks of a tiling are the same, or one ends before the other begins. -/
theorem Tiled.eq_or_apart {a e : ℕ} {l : List Blk} (h : Tiled a l e) {b c : Blk} (hb : b ∈ l) (hc : c ∈ l) :
    b = c ∨ b.fin ≤ c.addr ∨ c.fin ≤ b.addr := by
  obtain ⟨l1, l2, rfl⟩ := List.append_of_mem hb
  obtain ⟨-, h2, h3⟩ := List.pairwise_append.mp h.pairwise
  rcases List.mem_append.mp hc with hc | hc
  · exact .inr (.inr (h3 c hc b (by simp)))
  · rcases List.mem_cons.mp hc with rfl | hc
    · exact .inl rfl
    · exact .inr (.inl ((List.pairwise_cons.mp h2).1 c hc))

theorem Tiled.addr_inj {a e : ℕ} {l : List Blk} (h : Tiled a l e) {b c : Blk} (hb : b ∈ l) (hc : c ∈ l)
    (hbc : b.addr = c.addr) : b = c := by
  rcases h.eq_or_apart hb hc with h | h
  · exact h
  · simp only [Blk.fin, HEAD] at h
    omega

end Tiled

namespace Layout

variable {base room : ℕ} (A : Layout base room)

/-- The blocks and the sentinel. -/
def all : List Blk := A.blocks ++ [sentinel base]

theorem tiled_all : Tiled base A.all (base + ARENA) :=
  tiled_append.mpr ⟨_, A.tiled, rfl, rfl⟩

theorem mem_all_of_mem {b : Blk} (hb : b ∈ A.blocks) : b ∈ A.all := List.mem_append_left _ hb

theorem mem_blocks_of_flist {b : Blk} (hb : b ∈ A.flist) : b ∈ A.blocks := ((A.mem_flist b).mp hb).1

theorem mem_all_of_flist {b : Blk} (hb : b ∈ A.flist) : b ∈ A.all := A.mem_all_of_mem (A.mem_blocks_of_flist hb)

/-- The free flag of a block and its place in a layout decide whether it is on the free list. -/
theorem mem_flist_of_all {b : Blk} (hb : b ∈ A.all) (hf : b.free = true) : b ∈ A.flist := by
  refine (A.mem_flist b).mpr ⟨?_, hf⟩
  rcases List.mem_append.mp hb with hb | hb
  · exact hb
  · simp only [List.mem_singleton] at hb
    subst hb
    exact absurd hf Bool.false_ne_true

theorem addr_pos (m : 0 < base) {b : Blk} (hb : b ∈ A.all) : b.addr ≠ NULL := by
  have := (A.tiled_all.mem hb).1
  simp only [NULL]
  omega

/-- There is a block behind every block but the sentinel. -/
theorem exists_next {pre post : List Blk} {b : Blk} (h : A.blocks = pre ++ b :: post) :
    ∃ c rest, A.all = pre ++ b :: c :: rest ∧ post ++ [sentinel base] = c :: rest ∧ c.addr = b.fin := by
  obtain ⟨c, rest, hc⟩ : ∃ c rest, post ++ [sentinel base] = c :: rest := by
    cases post <;> simp
  refine ⟨c, rest, by rw [all, h, List.append_assoc, List.cons_append, hc], hc, ?_⟩
  have ht := A.tiled_all
  rw [all, h, List.append_assoc, List.cons_append, hc] at ht
  obtain ⟨d, -, h2⟩ := tiled_append.mp ht
  exact h2.2.1

/-! ### What the allocator does to a layout -/

section Moves

variable {A} {pre post l₁ l₂ : List Blk} {b : Blk}

/-- The part of a free block that stays free when `r` bytes and their header are cut from its end. -/
def rest (b : Blk) (r : ℕ) : Blk := ⟨b.addr, b.size - r - HEAD, true⟩

/-- The block cut from the end. -/
def cut (b : Blk) (r : ℕ) : Blk := ⟨b.addr + (b.size - r - HEAD) + HEAD, r, false⟩

theorem notMem_of_blocks (h : A.blocks = pre ++ b :: post) : b ∉ pre ∧ b ∉ post := by
  have hnd := A.tiled.nodup
  rw [h] at hnd
  have h2 := List.nodup_middle.mp hnd
  simpa [not_or] using (List.nodup_cons.mp h2).1

/-- The members of the free list apart from one of them. -/
theorem mem_of_flist (h : A.blocks = pre ++ b :: post) (hf : A.flist = l₁ ++ b :: l₂) (c : Blk) :
    c ∈ l₁ ++ l₂ ↔ (c ∈ pre ∨ c ∈ post) ∧ c.free = true := by
  have hm := A.mem_flist c
  have hnd := A.nodup
  obtain ⟨hb1, hb2⟩ := notMem_of_blocks h
  rw [hf] at hnd hm
  rw [h] at hm
  have hb := (List.nodup_cons.mp (List.nodup_middle.mp hnd)).1
  by_cases hcb : c = b
  · subst hcb
    exact ⟨fun hc => absurd hc hb, fun hc => absurd hc.1 (by simp [hb1, hb2])⟩
  · simpa [hcb] using hm

theorem nodup_of_flist (hf : A.flist = l₁ ++ b :: l₂) : (l₁ ++ l₂).Nodup :=
  (List.nodup_cons.mp (List.nodup_middle.mp (hf ▸ A.nodup))).2

/-- `find` cuts `r` bytes from the end of the free block `b`; what stays of `b` goes to the front of the list. -/
def carve (A : Layout base room) (h : A.blocks = pre ++ b :: post) (hf : A.flist = l₁ ++ b :: l₂) (r : ℕ)
    (hr : r + HEAD + 16 ≤ b.size) (hroom : room ≤ 16) : Layout base room where
  blocks := pre ++ rest b r :: cut b r :: post
  flist := rest b r :: (l₁ ++ l₂)
  tiled := by
    have ht := A.tiled
    rw [h] at ht
    obtain ⟨c, h1, h2, h3⟩ := tiled_append.mp ht
    refine tiled_append.mpr ⟨c, h1, h2, rfl, ?_⟩
    have hfin : (cut b r).fin = b.fin := by
      simp only [cut, Blk.fin, HEAD] at *
      omega
    rw [hfin]
    exact h3
  nodup := by
    refine List.nodup_cons.mpr ⟨fun hm => ?_, nodup_of_flist hf⟩
    obtain ⟨hm, -⟩ := (mem_of_flist h hf _).mp hm
    have hmem : rest b r ∈ A.blocks := by rw [h]; simpa [or_left_comm] using Or.inr hm
    have hbb : b ∈ A.blocks := by rw [h]; simp
    have hsz := congrArg Blk.size (A.tiled.addr_inj hmem hbb rfl)
    simp only [rest, HEAD] at hsz hr
    omega
  mem_flist c := by
    have hb := (A.mem_flist b).mp (by rw [hf]; simp)
    rw [List.mem_cons, mem_of_flist h hf c]
    constructor
    · rintro (rfl | ⟨hc, hcf⟩)
      · exact ⟨by simp, rfl⟩
      · rcases hc with hc | hc
        · exact ⟨by simp [hc], hcf⟩
        · exact ⟨by simp [hc], hcf⟩
    · rintro ⟨hc, hcf⟩
      simp only [List.mem_append, List.mem_cons] at hc
      rcases hc with hc | rfl | rfl | hc
      · exact .inr ⟨.inl hc, hcf⟩
      · exact .inl rfl
      · exact absurd hcf Bool.false_ne_true
      · exact .inr ⟨.inr hc, hcf⟩
  fits c hc := by
    rcases List.mem_cons.mp hc with rfl | hc
    · simp only [rest, HEAD] at hr ⊢
      omega
    · refine A.fits c ?_
      rw [hf]
      simp only [List.mem_append, List.mem_cons] at hc ⊢
      tauto

/-- `find` hands out the free block `b` whole. -/
def claim (A : Layout base room) (h : A.blocks = pre ++ b :: post) (hf : A.flist = l₁ ++ b :: l₂) :
    Layout base room where
  blocks := pre ++ { b with free := false } :: post
  flist := l₁ ++ l₂
  tiled := by
    have ht := A.tiled
    rw [h] at ht
    obtain ⟨c, h1, h2, h3⟩ := tiled_append.mp ht
    exact tiled_append.mpr ⟨c, h1, h2, h3⟩
  nodup := nodup_of_flist hf
  mem_flist c := by
    rw [mem_of_flist h hf c]
    simp only [List.mem_append, List.mem_cons]
    constructor
    · tauto
    · rintro ⟨hc | rfl | hc, hcf⟩
      · exact ⟨.inl hc, hcf⟩
      · exact absurd hcf Bool.false_ne_true
      · exact ⟨.inr hc, hcf⟩
  fits c hc := A.fits c (by
    rw [hf]
    simp only [List.mem_append, List.mem_cons] at hc ⊢
    tauto)

/-- `dfree` puts the taken block `b` in front of the free list. -/
def release (A : Layout base room) (h : A.blocks = pre ++ b :: post) (hb : b.free = false)
    (hr : room ≤ b.size) : Layout base room where
  blocks := pre ++ { b with free := true } :: post
  flist := { b with free := true } :: A.flist
  tiled := by
    have ht := A.tiled
    rw [h] at ht
    obtain ⟨c, h1, h2, h3⟩ := tiled_append.mp ht
    exact tiled_append.mpr ⟨c, h1, h2, h3⟩
  nodup := by
    refine List.nodup_cons.mpr ⟨fun hm => ?_, A.nodup⟩
    have hbb : b ∈ A.blocks := by rw [h]; simp
    have hfree := congrArg Blk.free (A.tiled.addr_inj (A.mem_blocks_of_flist hm) hbb rfl)
    rw [hb] at hfree
    exact absurd hfree.symm Bool.false_ne_true
  mem_flist c := by
    rw [List.mem_cons, A.mem_flist c, h]
    simp only [List.mem_append, List.mem_cons]
    constructor
    · rintro (rfl | ⟨hc | rfl | hc, hcf⟩)
      · exact ⟨.inr (.inl rfl), rfl⟩
      · exact ⟨.inl hc, hcf⟩
      · rw [hb] at hcf
        exact absurd hcf Bool.false_ne_true
      · exact ⟨.inr (.inr hc), hcf⟩
    · rintro ⟨hc | rfl | hc, hcf⟩
      · exact .inr ⟨.inl hc, hcf⟩
      · exact .inl rfl
      · exact .inr ⟨.inr (.inr hc), hcf⟩
  fits c hc := by
    rcases List.mem_cons.mp hc with rfl | hc
    · exact hr
    · exact A.fits c hc

end Moves

/-- The layout `init` sets up: one free block. -/
def fresh (base room : ℕ) (hr : room ≤ 16) : Layout base room where
  blocks := [⟨base, ARENA - 2 * HEAD, true⟩]
  flist := [⟨base, ARENA - 2 * HEAD, true⟩]
  tiled := ⟨rfl, by simp only [Tiled, Blk.fin, ARENA, HEAD]⟩
  nodup := List.nodup_singleton _
  mem_flist b := by
    simp only [List.mem_singleton]
    exact ⟨fun h => ⟨h, by rw [h]⟩, fun h => h.1⟩
  fits b hb := by
    simp only [List.mem_singleton] at hb
    subst hb
    simp only [ARENA, HEAD]
    omega

end Layout

/-! ### Memory that holds a layout -/

section Rep

open BlockMem

variable {μ L V : Type} [BlockMem μ L V]

/-- The cell `(b.addr, f)` belongs to `b`: a header field, or a link of a free block. -/
def Owns (b : Blk) (f : Field) : Prop := f.isLink = false ∨ b.free = true

theorem Owns.of_free {b : Blk} {f : Field} (hb : b.free = true) : Owns b f := .inr hb

namespace Layout

variable {base : ℕ} {A : Layout base (room μ)} {b c : Blk} {f g : Field} {h : Heap μ}

theorem span_le_fin (hb : b ∈ A.all) (ho : Owns b f) : b.addr + span μ f ≤ b.fin := by
  rcases ho with ho | ho
  · have := span_header (μ := μ) f ho
    simp only [Blk.fin]
    omega
  · have h1 := A.fits b (A.mem_flist_of_all hb ho)
    have h2 := span_le (μ := μ) f
    simp only [Blk.fin]
    omega

theorem inside (hm : h.mapped = some base) (hb : b ∈ A.all) (ho : Owns b f) :
    inside h b.addr f := by
  have h1 := A.tiled_all.mem hb
  have h2 := span_le_fin hb ho
  exact ⟨base, hm, h1.1, by omega⟩

theorem apart (hb : b ∈ A.all) (hc : c ∈ A.all) (hf : Owns b f) (hg : Owns c g) (hne : b ≠ c ∨ f ≠ g) :
    FootMem.Apart μ (b.addr, f) (c.addr, g) := by
  have h1 := span_le_fin hb hf
  have h2 := span_le_fin hc hg
  rcases A.tiled_all.eq_or_apart hb hc with rfl | h | h
  · exact apart_field (hne.resolve_left fun h => h rfl)
  · exact apart_of_le (by omega)
  · exact (apart_of_le (by omega)).symm

/-- A store of a small number into a header changes that field only. -/
theorem val_put {n : ℕ} (hb : b ∈ A.all) (hc : c ∈ A.all) (hf : Owns b f) (hg : g.isLink = false) (hn : n < 2 ^ 16) :
    val (h.put c.addr g n) b.addr f = if b = c ∧ f = g then n else val h b.addr f := by
  split_ifs with he
  · obtain ⟨rfl, rfl⟩ := he
    refine Heap.val_put_self ?_
    cases f <;> first | exact hn | exact absurd hg (by decide)
  · rw [not_and_or] at he
    exact Heap.val_put_apart (apart hb hc hf (.inl hg) he)

end Layout

/-- The header fields of the blocks `l`, when the block in front has status `pf` and size `ps`. -/
def Headers (h : Heap μ) (pf : Bool) (ps : ℕ) : List Blk → Prop
  | [] => True
  | b :: l => (val h b.addr .bfree = pf.toNat ∧ val h b.addr .bsize = ps ∧ val h b.addr .free = b.free.toNat ∧
      val h b.addr .size = b.size) ∧ Headers h b.free b.size l

/-- Forward pointers; `NULL` stands for the head variable. -/
def nxt (h : Heap μ) (p : ℕ) : ℕ := if p = NULL then h.flist else val h p .next

def prv (h : Heap μ) (p : ℕ) : ℕ := val h p .prev

/-- **The memory of `h` holds the layout `A`.** -/
structure Rep (m : Mapping) (h : Heap μ) (A : Layout m.base (room μ)) : Prop where
  mapped : h.mapped = some m.base
  arena : h.arena = m.base
  exact : h.truncated = false
  headers : Headers h false 0 A.all
  links : Linked NULL (nxt h) (prv h) (A.flist.map Blk.addr)

/-- Status and size of the last block of a list, those of the block in front of it when it is empty. -/
def endTag (pf : Bool) (ps : ℕ) : List Blk → Bool × ℕ
  | [] => (pf, ps)
  | b :: l => endTag b.free b.size l

theorem headers_append {h : Heap μ} {pf : Bool} {ps : ℕ} {l l' : List Blk} :
    Headers h pf ps (l ++ l') ↔ Headers h pf ps l ∧ Headers h (endTag pf ps l).1 (endTag pf ps l).2 l' := by
  induction l generalizing pf ps with
  | nil => simp [Headers, endTag]
  | cons c l ih => simp only [List.cons_append, Headers, endTag, ih, and_assoc]

/-- Headers depend on the header fields of the blocks only. -/
theorem Headers.congr {h h' : Heap μ} {pf : Bool} {ps : ℕ} {l : List Blk} (hh : Headers h pf ps l)
    (he : ∀ b ∈ l, ∀ f : Field, f.isLink = false → val h' b.addr f = val h b.addr f) :
    Headers h' pf ps l := by
  induction l generalizing pf ps with
  | nil => trivial
  | cons b l ih =>
    have e := he b (by simp)
    refine ⟨?_, ih hh.2 fun c hc => he c (List.mem_cons_of_mem _ hc)⟩
    rw [e .bfree rfl, e .bsize rfl, e .free rfl, e .size rfl]
    exact hh.1

theorem Headers.mem {h : Heap μ} {pf : Bool} {ps : ℕ} {l : List Blk} (hh : Headers h pf ps l) {b : Blk}
    (hb : b ∈ l) : val h b.addr .free = b.free.toNat ∧ val h b.addr .size = b.size := by
  obtain ⟨l1, l2, rfl⟩ := List.append_of_mem hb
  induction l1 generalizing pf ps with
  | nil => exact hh.1.2.2
  | cons c l1 ih => exact ih hh.2 (by simp)

end Rep

end Seminars.Dlmalloc
