import Seminars.Dlmalloc.Memory
import Seminars.Lib.CInt

/-!
# Seminars.Dlmalloc.Code — `seminar2/dlmalloc.c`

The functions of the allocator as the source has them, over any `BlockMem`.  Pointers are addresses (`NULL` is
0), `size_t` arithmetic is modulo `2 ^ 64`, `int` values are two's complement 32 bit.  Reading or writing a
field through `NULL`, or outside the mapped arena, is a fault; so is a walk along the free list that does not
end (one of more than `ARENA` blocks passes a block twice).

`Heap.truncated` belongs to no variable of the program: it records that some store did not fit its field.
-/

namespace Seminars.Dlmalloc

open Lib

/-- Ways for the program to go wrong. -/
inductive Fault
  | null | outside | diverge
  deriving DecidableEq, Repr

/-- The arena's memory, the address `mmap` gave it, the two static variables, and the record of truncation. -/
structure Heap (μ : Type) where
  mem : μ
  mapped : Option ℕ
  arena : ℕ
  flist : ℕ
  truncated : Bool

/-- Code of the allocator. -/
abbrev M (μ : Type) := StateT (Heap μ) (Except Fault)

/-- A mapping of `ARENA` bytes as `mmap(NULL, ARENA, ..)` returns it: page-aligned, not at 0, inside the
address space. -/
structure Mapping where
  base : ℕ
  pos : 0 < base
  page : 4096 ∣ base
  fits : base + ARENA ≤ 2 ^ 64

section Access

variable {μ L V : Type} [BlockMem μ L V]

/-- The field `f` of a block at `p` lies inside the arena. -/
def inside (h : Heap μ) (p : ℕ) (f : Field) : Prop :=
  ∃ base ∈ h.mapped, base ≤ p ∧ p + BlockMem.span μ f ≤ base + ARENA

instance (h : Heap μ) (p : ℕ) (f : Field) : Decidable (inside h p f) :=
  match hm : h.mapped with
  | none => .isFalse (by rintro ⟨b, hb, -⟩; simp [hm] at hb)
  | some b => decidable_of_iff (b ≤ p ∧ p + BlockMem.span μ f ≤ b + ARENA) (by simp [inside, hm])

/-- The value of `p->f`. -/
def val (h : Heap μ) (p : ℕ) (f : Field) : ℕ := FootMem.load h.mem (p, f)

/-- The store `p->f = v`. -/
def Heap.put (h : Heap μ) (p : ℕ) (f : Field) (v : ℤ) : Heap μ :=
  { h with
    mem := FootMem.store h.mem (p, f) v
    truncated := h.truncated || decide (v ≠ (FootMem.wrap μ (p, f) v : ℤ)) }

/-- `p->f` as a value. -/
def rd (p : ℕ) (f : Field) : M μ ℕ := fun h =>
  if p = NULL then .error .null else if inside h p f then .ok (val h p f, h) else .error .outside

/-- `p->f = v` -/
def wr (p : ℕ) (f : Field) (v : ℤ) : M μ Unit := fun h =>
  if p = NULL then .error .null else if inside h p f then .ok ((), h.put p f v) else .error .outside

/-! ### Blocks -/

/-- returns memory address to block after -/
def after (block : ℕ) : M μ ℕ := do
  return block + (← rd block .size) + HEAD

/-- returns memory address to block before -/
def before (block : ℕ) : M μ ℕ := do
  return block - (← rd block .bsize) - HEAD

/-- splits one big block to form new block with `size` and returns pointer to it (second) -/
def split (block : ℕ) (size : ℤ) : M μ ℕ := do
  let rsize := int ((← rd block .size) - size - HEAD)
  wr block .size rsize
  let splt ← after block
  wr splt .bfree (← rd block .free)
  wr splt .bsize (← rd block .size)
  wr splt .free FALSE
  wr splt .size size
  let aft ← after splt
  wr aft .bsize (← rd splt .size)
  return splt

/-- `new()`; the argument is what `mmap` returns (`none` for `MAP_FAILED`). -/
def new (mmap : Option Mapping) : M μ ℕ := do
  if (← get).arena ≠ NULL then
    return NULL
  else
    match mmap with
    | none => return NULL
    | some m =>
      modify fun h => { h with mapped := some m.base }
      let size := ARENA - 2 * HEAD
      wr m.base .bfree FALSE
      wr m.base .bsize 0
      wr m.base .free TRUE
      wr m.base .size size
      let sentinel ← after m.base
      wr sentinel .bfree (← rd m.base .free)
      wr sentinel .bsize size
      wr sentinel .free FALSE
      wr sentinel .size 0
      modify fun h => { h with arena := m.base }
      return m.base

/-! ### The free list -/

/-- detach a block from the free list -/
def detach (block : ℕ) : M μ Unit := do
  if (← rd block .next) ≠ NULL then
    wr (← rd block .next) .prev (← rd block .prev)
  if (← rd block .prev) ≠ NULL then
    wr (← rd block .prev) .next (← rd block .next)
  else
    let next ← rd block .next
    modify fun h => { h with flist := next }

/-- insert a new block in the free list -/
def insert (block : ℕ) : M μ Unit := do
  wr block .next (← get).flist
  wr block .prev NULL
  let flist := (← get).flist
  if flist ≠ NULL then
    wr flist .prev block
  modify fun h => { h with flist := block }

/-! ### Malloc and free -/

/-- Determine suitable size and even multiple of `ALIGN` and not smaller than `MIN` -/
def adjust (size : ℕ) : ℤ :=
  let minsize := int (MIN size)
  if minsize.tmod ALIGN = 0 then
    int size
  else
    let adj := minsize.tmod ALIGN
    int (minsize + ALIGN - adj)

/-- `LIMIT(size)`: size a block has to reach in order to split it -/
def LIMIT (size : ℕ) : ℕ := (MIN 0 + HEAD + size) % 2 ^ 64

/-- The loop of `find`, from `temp` on. -/
def findLoop (size : ℕ) : ℕ → ℕ → M μ ℕ
  | 0, _ => throw .diverge
  | fuel + 1, temp => do
    if temp ≠ NULL then
      if (← rd temp .size) ≥ size then
        detach temp
        if (← rd temp .size) ≥ LIMIT size then
          let block ← split temp (int size)
          insert temp
          let aft ← after block
          wr aft .bfree FALSE
          wr block .free FALSE
          return block
        else
          wr temp .free FALSE
          let aft ← after temp
          wr aft .bfree FALSE
          return temp
      else
        findLoop size fuel (← rd temp .next)
    else
      return NULL

/-- used to find a block of right size -/
def find (size : ℕ) : M μ ℕ := do
  findLoop size (ARENA + 2) (← get).flist

/-- joins a block with the free blocks before and after it -/
def merge (block : ℕ) : M μ ℕ := do
  let aft ← after block
  let block ←
    if (← rd block .bfree) = TRUE then do
      let bef ← before block
      detach bef
      let size := (← rd bef .size) + (← rd block .size) + HEAD
      wr bef .size size
      wr aft .bsize (← rd bef .size)
      pure bef
    else
      pure block
  if (← rd aft .free) = TRUE then
    detach aft
    let size := (← rd block .size) + (← rd aft .size) + HEAD
    wr block .size size
    let aft ← after block
    wr aft .bsize (← rd block .size)
  return block

/-- allocates `requested` bytes and returns a pointer to the allocated memory -/
def dalloc (requested : ℕ) : M μ ℕ := do
  if requested ≤ 0 then
    return NULL
  else
    let size := adjust requested
    let taken ← find (sizeT size)
    if taken = NULL then
      return NULL
    else
      return taken + HEAD

/-- frees the memory space pointed to by `memory` -/
def dfree (memory : ℕ) : M μ Unit := do
  if memory ≠ NULL then
    let block := memory - HEAD
    let aft ← after block
    wr block .free TRUE
    wr aft .bfree (← rd block .free)
    insert block

/-! ### Looking at the heap -/

/-- What `traverseblocks` prints about a block: address, `free`, `size`, `bfree`, `bsize`. -/
structure Row where
  address : ℕ
  free : ℕ
  size : ℕ
  bfree : ℕ
  bsize : ℕ
  deriving DecidableEq, Repr

/-- The loop of `traverseblocks`, from `temp` on. -/
def traverseLoop : ℕ → ℕ → M μ (List Row)
  | 0, _ => throw .diverge
  | fuel + 1, temp => do
    if (← rd temp .size) ≠ 0 then
      let row := ⟨temp, ← rd temp .free, ← rd temp .size, ← rd temp .bfree, ← rd temp .bsize⟩
      return row :: (← traverseLoop fuel (← after temp))
    else
      return []

def traverseblocks : M μ (List Row) := do
  traverseLoop (ARENA + 2) (← get).arena

/-- The loop of `sanity`; the result is what the program prints (and, but for the last text, its end). -/
def sanityLoop : ℕ → ℕ → ℕ → M μ String
  | 0, _, _ => throw .diverge
  | fuel + 1, sanity, prev => do
    if sanity ≠ NULL then
      if (← rd sanity .size) ≠ 0 then
        if (← rd sanity .free) ≠ TRUE then
          return "NOT OK - found a block that is not free"
        if (← rd sanity .size) % ALIGN ≠ 0 then
          return "NOT OK - found a block that is not aligned"
        if (← rd sanity .prev) ≠ prev then
          return "NOT OK - found a block with incorrect prev"
        sanityLoop fuel (← rd sanity .next) sanity
      else
        return "sanity check complete without any abnormalities \n"
    else
      return "sanity check complete without any abnormalities \n"

/-- Check so that all blocks in the freelist have correct previous pointers -/
def sanity : M μ String := do
  let sanity := (← get).flist
  let prev ← rd sanity .prev
  let _size ← rd sanity .size
  sanityLoop (ARENA + 2) sanity prev

/-- The loop of `freelistlength`, from `temp` on. -/
def lengthLoop : ℕ → ℕ → M μ ℕ
  | 0, _ => throw .diverge
  | fuel + 1, temp => do
    if temp ≠ NULL then
      return (← lengthLoop fuel (← rd temp .next)) + 1
    else
      return 0

def freelistlength : M μ ℕ := do
  lengthLoop (ARENA + 2) (← get).flist

/-- The loop of `sizes`: what it writes to the buffer, which has room for `max` more entries. -/
def sizesLoop : ℕ → ℕ → ℕ → M μ (List ℕ)
  | 0, _, _ => throw .diverge
  | fuel + 1, next, max => do
    if next ≠ NULL ∧ 0 < max then
      return (← rd next .size) :: (← sizesLoop fuel (← rd next .next) (max - 1))
    else
      return []

def sizes (max : ℕ) : M μ (List ℕ) := do
  sizesLoop (ARENA + 2) (← get).flist max

def init (mmap : Option Mapping) : M μ Unit := do
  let first ← new mmap
  insert first

end Access

end Seminars.Dlmalloc
