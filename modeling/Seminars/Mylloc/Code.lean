import Seminars.Lib.CInt
import Seminars.Lib.FootMem

/-!
# Seminars.Mylloc.Code — `mylloc-assignment/mhysa.c` and `mylloc.c`

The two allocators over a byte memory and `sbrk`.  `struct chunk` takes 16 bytes: the `int` `size` at offset 0, the
pointer `next` at offset 8.  `size_t` arithmetic is modulo `2 ^ 64`, the argument of `sbrk` is an `intptr_t`.

`sbrk k` returns the old break and moves it by `k`, or returns -1 and changes nothing: the latter when the kernel
refuses (`grant` is false) and when the break would leave the lower half of the address space.  `calls` counts the
calls of `sbrk`; no variable of the program holds it.
-/

namespace Seminars.Mylloc

open Seminars.Lib

abbrev NULL : ℕ := 0

/-- `sizeof(struct chunk)` -/
abbrev CHUNK : ℕ := 16

/-- The end of the addresses a process can have. -/
abbrev TOP : ℕ := 2 ^ 63

/-- A walk over more chunks than there are addresses passes one twice. -/
@[irreducible] def WALK : ℕ := TOP + 1

/-- The process: memory, break, and the static variable `flist` of `mhysa.c`. -/
structure Sys where
  mem : ℕ → Byte
  brk : ℕ
  flist : ℕ
  calls : ℕ

namespace Sys

/-- `(void*)-1` -/
def FAILED : ℕ := sizeT (-1)

def sbrk (grant : Bool) (k : ℤ) (s : Sys) : ℕ × Sys :=
  if grant ∧ 0 ≤ s.brk + k ∧ s.brk + k < TOP then
    (s.brk, { s with brk := (s.brk + k).toNat, calls := s.calls + 1 })
  else (FAILED, { s with calls := s.calls + 1 })

/-- `c->size` -/
def size (s : Sys) (c : ℕ) : ℤ := int (loadLE s.mem c 4)

/-- `c->next` -/
def next (s : Sys) (c : ℕ) : ℕ := loadLE s.mem (c + 8) 8

/-- `c->size = v` -/
def setSize (s : Sys) (c : ℕ) (v : ℤ) : Sys := { s with mem := storeLE s.mem c 4 (v % 2 ^ 32).toNat }

/-- `c->next = v` -/
def setNext (s : Sys) (c : ℕ) (v : ℕ) : Sys := { s with mem := storeLE s.mem (c + 8) 8 v }

end Sys

/-! ### `mhysa.c` -/

namespace mhysa

/-- The `while` loop of `malloc`, from `next` with `prev` before it: the memory handed out, `NULL` when the list ends,
no result when the list does not end. -/
def search (size : ℕ) : ℕ → ℕ → ℕ → Sys → Option (ℕ × Sys)
  | 0, _, _, _ => none
  | fuel + 1, next, prev, s =>
    if next ≠ NULL then
      if sizeT (s.size next) ≥ size then
        if prev ≠ NULL then
          some (next + CHUNK, s.setNext prev (s.next next))
        else
          some (next + CHUNK, { s with flist := s.next next })
      else
        search size fuel (s.next next) next s
    else
      some (NULL, s)

/-- find a free block -/
def malloc (grant : Bool) (size : ℕ) (s : Sys) : Option (ℕ × Sys) :=
  if size = 0 then
    some (NULL, s)
  else do
    let (found, s) ← search size WALK s.flist NULL s
    if found ≠ NULL then
      return (found, s)
    -- we now include the head of each memory frame
    let (memory, s) := s.sbrk grant (intptr (sizeT (size + CHUNK)))
    if memory = Sys.FAILED then
      return (NULL, s)
    else
      return (memory + CHUNK, s.setSize memory (int size))

def free (memory : ℕ) (s : Sys) : Sys :=
  if memory ≠ NULL then
    -- jumping back one chunk position
    let cnk := memory - CHUNK
    { s.setNext cnk s.flist with flist := cnk }
  else s

end mhysa

/-! ### `mylloc.c` -/

namespace mylloc

def malloc (grant : Bool) (size : ℕ) (s : Sys) : Option (ℕ × Sys) :=
  if size = 0 then
    some (NULL, s)
  else
    let (memory, s) := s.sbrk grant (intptr size)
    if memory = Sys.FAILED then
      some (NULL, s)
    else
      some (memory, s)

def free (_memory : ℕ) (s : Sys) : Sys := s

end mylloc

/-! ### Programs that use an allocator -/

/-- The two functions of an allocator. -/
structure Allocator where
  malloc : Bool → ℕ → Sys → Option (ℕ × Sys)
  free : ℕ → Sys → Sys

/-- `mhysa.c` -/
def mhysa : Allocator := ⟨mhysa.malloc, mhysa.free⟩

/-- `mylloc.c` -/
def mylloc : Allocator := ⟨mylloc.malloc, mylloc.free⟩

/-- The process and the blocks the program holds (what `malloc` returned and for which request).  `room p` is the
request for which the memory at `p` was obtained from `sbrk`; no variable of the program holds it. -/
structure Session where
  sys : Sys
  live : List (ℕ × ℕ)
  room : ℕ → ℕ

/-- What the program does; `grant` is whether the kernel lets a call of `sbrk` succeed. -/
inductive Act
  | malloc (n : ℕ) (grant : Bool)
  | free (p : ℕ)
  | write (x : ℕ) (b : Byte)
  deriving DecidableEq

/-- The byte at `x` is in a block the program holds. -/
def Session.Payload (s : Session) (x : ℕ) : Prop := ∃ b ∈ s.live, b.1 ≤ x ∧ x < b.1 + b.2

instance (s : Session) (x : ℕ) : Decidable (s.Payload x) := List.decidableBEx _ _

/-- The session once `malloc(n)` has returned `p`. -/
def Session.served (s : Session) (n p : ℕ) (sys : Sys) : Session :=
  ⟨sys, if p = NULL then s.live else (p, n) :: s.live,
    if p = NULL ∨ sys.calls = s.sys.calls then s.room else Function.update s.room p n⟩

/-- One step: a request of any `size_t`, freeing `NULL` or a block the program holds, writing a byte of such a block. -/
def Allocator.next (A : Allocator) (s : Session) : Act → Option Session
  | .malloc n grant =>
    if n < 2 ^ 64 then
      (A.malloc grant n s.sys).map fun r => s.served n r.1 r.2
    else none
  | .free p =>
    if p = NULL ∨ p ∈ s.live.map Prod.fst then
      some ⟨A.free p s.sys, s.live.filter fun b => b.1 ≠ p, s.room⟩
    else none
  | .write x b =>
    if s.Payload x then some { s with sys := { s.sys with mem := Function.update s.sys.mem x b } } else none

/-- One step of a program. -/
def Allocator.Step (A : Allocator) (s : Session) (a : Act) (s' : Session) : Prop := A.next s a = some s'

/-- Program start: any memory, the break somewhere above 0, nothing allocated. -/
def Session.start (mem : ℕ → Byte) (brk : ℕ) : Session := ⟨⟨mem, brk, NULL, 0⟩, [], fun _ => 0⟩

end Seminars.Mylloc
