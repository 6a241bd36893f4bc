import Mathlib.Data.Int.Init
import Mathlib.Tactic.Positivity
import Seminars.Lib.FootMem

/-!
# Seminars.Dlmalloc.Memory — block headers in the arena

`seminar2/dlmalloc.c` keeps a `struct taken` of four 16-bit fields in front of every block (`TAKENSTRUCT`
layout, `HEAD = 8`); a free block also uses the first 16 bytes of its payload for the links `next` and `prev`
of `struct head`.  The allocator is written once, for any `BlockMem`:

* `Bytes`: the bytes of the address space.  A field is its little-endian bytes at its offset, so the links of a
  block smaller than 16 bytes run into the block behind it.
* `Cells`: every field of every header is a cell of its own.

`span f` is how far the field `f` reaches from the start of the header, `room` the payload a block needs for
its links to stay inside it (16 bytes, or none).
-/

namespace Seminars.Dlmalloc

open Lib

/-- The fields of `struct head`; the first four are those of `struct taken`. -/
inductive Field
  | bfree | bsize | free | size | next | prev
  deriving DecidableEq, Repr

namespace Field

/-- `offsetof` in `struct head`. -/
def offset : Field → ℕ
  | bfree => 0
  | bsize => 2
  | free => 4
  | size => 6
  | next => 8
  | prev => 16

/-- `sizeof`: `uint16_t` or a pointer. -/
def width : Field → ℕ
  | next => 8
  | prev => 8
  | _ => 2

/-- The fields a taken block does not have. -/
def isLink : Field → Bool
  | next => true
  | prev => true
  | _ => false

theorem ne_of_isLink {f g : Field} (hf : f.isLink = true) (hg : g.isLink = false) : f ≠ g := by
  rintro rfl
  cases hf.symm.trans hg

end Field

/-- `sizeof(struct taken)` -/
abbrev HEAD : ℕ := 8
abbrev ALIGN : ℕ := 8
abbrev ARENA : ℕ := 64 * 1024
abbrev TRUE : ℕ := 1
abbrev FALSE : ℕ := 0
abbrev NULL : ℕ := 0

/-- `MIN(size)` of the `TAKENSTRUCT` layout. -/
def MIN (size : ℕ) : ℕ := if size > 16 then size else 16

/-- A memory of block headers: the cell `(p, f)` is the field `f` of the block at `p`. -/
class BlockMem (μ : Type) (L V : outParam Type) extends FootMem μ (ℕ × Field) L V where
  addr : L → ℕ
  span : Field → ℕ
  room : ℕ
  wrap_eq : ∀ p f v, wrap (p, f) v = (v % (2 ^ (8 * f.width) : ℕ)).toNat
  foot_addr : ∀ p f x, x ∈ foot (p, f) → p ≤ addr x ∧ addr x < p + span f
  foot_field : ∀ p f g, f ≠ g → Disjoint (foot (p, f)) (foot (p, g))
  span_header : ∀ f : Field, f.isLink = false → span f ≤ HEAD
  span_le : ∀ f, span f ≤ HEAD + room
  room_le : room ≤ 16

namespace BlockMem

variable {μ L V : Type} [BlockMem μ L V]

/-- Cells of two blocks are apart when the first ends before the second begins. -/
theorem apart_of_le {p q : ℕ} {f g : Field} (h : p + span μ f ≤ q) : FootMem.Apart μ (p, f) (q, g) := by
  refine Set.disjoint_left.mpr fun x hx hy => ?_
  have h1 := foot_addr p f x hx
  have h2 := foot_addr q g x hy
  omega

theorem apart_field {p : ℕ} {f g : Field} (h : f ≠ g) : FootMem.Apart μ (p, f) (p, g) := foot_field p f g h

end BlockMem

/-! ### The two memories -/

/-- The address space, byte by byte. -/
abbrev Bytes := ℕ → Byte

theorem Field.apart_bytes {f g : Field} (h : f ≠ g) :
    f.offset + f.width ≤ g.offset ∨ g.offset + g.width ≤ f.offset := by
  cases f <;> cases g <;> first | exact absurd rfl h | decide

instance : BlockMem Bytes ℕ Byte where
  read m x := m x
  foot c := {x | c.1 + c.2.offset ≤ x ∧ x < c.1 + c.2.offset + c.2.width}
  load m c := loadLE m (c.1 + c.2.offset) c.2.width
  store m c v := storeLE m (c.1 + c.2.offset) c.2.width (v % (2 ^ (8 * c.2.width) : ℕ)).toNat
  wrap c v := (v % (2 ^ (8 * c.2.width) : ℕ)).toNat
  load_store m c v := by
    rw [loadLE_storeLE]
    refine Nat.mod_eq_of_lt ?_
    have hpos : (0 : ℤ) < (2 ^ (8 * c.2.width) : ℕ) := by positivity
    have h1 := Int.emod_nonneg v hpos.ne'
    have h2 := Int.emod_lt_of_pos v hpos
    have h3 : 2 ^ (8 * c.2.width) = 256 ^ c.2.width := by rw [pow_mul]; rfl
    omega
  read_store m c v x hx := storeLE_out (by simp only [Set.mem_ofPred_eq] at hx; omega)
  load_congr m m' c h := loadLE_congr fun x h1 h2 => h x ⟨h1, h2⟩
  addr x := x
  span f := f.offset + f.width
  room := 16
  wrap_eq _ _ _ := rfl
  foot_addr p f x h := by
    simp only [Set.mem_ofPred_eq] at h
    omega
  foot_field p f g h := by
    refine Set.disjoint_left.mpr fun x hx hy => ?_
    have hfg := Field.apart_bytes h
    simp only [Set.mem_ofPred_eq] at hx hy
    omega
  span_header f hf := by cases f <;> first | decide | exact absurd hf (by decide)
  span_le f := by cases f <;> decide
  room_le := le_rfl

/-- One cell for every field of every header. -/
abbrev Cells := ℕ → Field → ℕ

instance : BlockMem Cells (ℕ × Field) ℕ where
  read m x := m x.1 x.2
  foot c := {c}
  load m c := m c.1 c.2
  store m c v := fun p f => if (p, f) = c then (v % (2 ^ (8 * c.2.width) : ℕ)).toNat else m p f
  wrap c v := (v % (2 ^ (8 * c.2.width) : ℕ)).toNat
  load_store m c v := if_pos rfl
  read_store m c v x hx := if_neg hx
  load_congr m m' c h := h c rfl
  addr x := x.1
  span _ := 1
  room := 0
  wrap_eq _ _ _ := rfl
  foot_addr p f x h := by
    obtain rfl : x = (p, f) := h
    exact ⟨le_rfl, Nat.lt_succ_self p⟩
  foot_field p f g h := by
    refine Set.disjoint_left.mpr fun x hx hy => ?_
    obtain rfl : x = (p, f) := hx
    exact h (Prod.mk.inj hy).2
  span_header _ _ := by decide
  span_le _ := by decide
  room_le := by decide

end Seminars.Dlmalloc
