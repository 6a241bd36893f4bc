import Mathlib.Algebra.Ring.Nat
import Mathlib.Logic.Function.Basic
import Mathlib.Logic.Relation
import Mathlib.Tactic.Common

/-!
# Seminars.Lib.Ucontext — `getcontext`, `makecontext` and `swapcontext`

A context is a call stack, its topmost frame first, the context that goes on when its first function returns
(`uc_link`), and the size of the array that the stack is in (`ss_size`).  A program says what the code of a frame does
up to its next call, return or `swapcontext`, how many bytes a frame takes, and how many the library functions that the
topmost one calls.  A stack that is larger than its array is the end of the run.

* `Program.next`: one such piece of code.  `Program.Leads`: any number of them.
* `leads_goes`, `leads_calls`, `leads_returns`, `leads_ends`, `leads_swaps`: one rule for every way a piece can end.
-/

namespace Seminars.Lib.Ucontext

/-- What the code of a frame does: the frame goes on as another, calls a function and then goes on as `ret`, returns,
or is suspended by `swapcontext(save, load)`. -/
inductive Outcome (S F K : Type)
  | goes (s : S) (f : F)
  | calls (s : S) (ret callee : F)
  | returns (s : S)
  | swaps (s : S) (f : F) (save load : K)

/-- A call stack, `uc_link`, and `ss_size`, which the stack that the program was started on does not have. -/
structure Ctx (F K : Type) where
  stack : List F
  link : Option K
  room : Option ℕ
  deriving DecidableEq, Repr

/-- The variables, the contexts saved, the context that executes. -/
structure Machine (S F K : Type) where
  vars : S
  saved : K → Option (Ctx F K)
  cpu : Ctx F K

/-- A program with the variables `S`, the frames `F` and the contexts `K`. -/
structure Program (S F K : Type) where
  exec : F → S → Outcome S F K
  bytes : F → ℕ
  lib : ℕ

namespace Program

variable {S F K : Type} {P : Program S F K} {link : Option K}

/-- The stack is within its array. -/
def fits (P : Program S F K) (c : Ctx F K) : Bool :=
  match c.room with
  | some b => decide ((c.stack.map P.bytes).sum + P.lib ≤ b)
  | none => true

theorem fits_none (stack : List F) (link : Option K) : P.fits ⟨stack, link, none⟩ = true := rfl

theorem fits_some {stack : List F} {b : ℕ} :
    P.fits ⟨stack, link, some b⟩ = true ↔ (stack.map P.bytes).sum + P.lib ≤ b :=
  decide_eq_true_iff

variable [DecidableEq K]

/-- One piece of code; no result when the stack is larger than its array, when a context is loaded that was not set up,
or when the program has ended. -/
def next (P : Program S F K) (m : Machine S F K) : Option (Machine S F K) :=
  match m.cpu.stack with
  | [] => none
  | f :: rest =>
    if P.fits m.cpu = false then none else
    match P.exec f m.vars with
    | .goes s f => some { m with vars := s, cpu := { m.cpu with stack := f :: rest } }
    | .calls s ret callee => some { m with vars := s, cpu := { m.cpu with stack := callee :: ret :: rest } }
    | .returns s =>
      match rest, m.cpu.link with
      | [], some k => (m.saved k).map fun c => { m with vars := s, cpu := c }
      | rest, _ => some { m with vars := s, cpu := { m.cpu with stack := rest } }
    | .swaps s f save load =>
      let saved := Function.update m.saved save (some { m.cpu with stack := f :: rest })
      (saved load).map fun c => ⟨s, saved, c⟩

/-- The program gets from one state to another. -/
def Leads (P : Program S F K) : Machine S F K → Machine S F K → Prop :=
  Relation.ReflTransGen fun m m' => P.next m = some m'

variable {m m' m'' : Machine S F K} {s s' : S} {f f' g : F} {rest : List F} {room : Option ℕ}
  {saved : K → Option (Ctx F K)} {k save load : K} {c : Ctx F K}

theorem Leads.trans (h : P.Leads m m') (h' : P.Leads m' m'') : P.Leads m m'' := Relation.ReflTransGen.trans h h'

theorem leads_goes (hf : P.fits ⟨f :: rest, link, room⟩) (h : P.exec f s = .goes s' f') :
    P.Leads ⟨s, saved, ⟨f :: rest, link, room⟩⟩ ⟨s', saved, ⟨f' :: rest, link, room⟩⟩ := by
  refine .single ?_
  simp [next, hf, h]

theorem leads_calls (hf : P.fits ⟨f :: rest, link, room⟩) (h : P.exec f s = .calls s' f' g) :
    P.Leads ⟨s, saved, ⟨f :: rest, link, room⟩⟩ ⟨s', saved, ⟨g :: f' :: rest, link, room⟩⟩ := by
  refine .single ?_
  simp [next, hf, h]

/-- A return to the caller. -/
theorem leads_returns (hf : P.fits ⟨f :: g :: rest, link, room⟩) (h : P.exec f s = .returns s') :
    P.Leads ⟨s, saved, ⟨f :: g :: rest, link, room⟩⟩ ⟨s', saved, ⟨g :: rest, link, room⟩⟩ := by
  refine .single ?_
  simp [next, hf, h]

/-- The first function of a context returns. -/
theorem leads_ends (hf : P.fits ⟨[f], some k, room⟩) (h : P.exec f s = .returns s') (hk : saved k = some c) :
    P.Leads ⟨s, saved, ⟨[f], some k, room⟩⟩ ⟨s', saved, c⟩ := by
  refine .single ?_
  simp [next, hf, h, hk]

theorem leads_exit (hf : P.fits ⟨[f], none, room⟩) (h : P.exec f s = .returns s') :
    P.Leads ⟨s, saved, ⟨[f], none, room⟩⟩ ⟨s', saved, ⟨[], none, room⟩⟩ := by
  refine .single ?_
  simp [next, hf, h]

theorem leads_swaps (hf : P.fits ⟨f :: rest, link, room⟩) (h : P.exec f s = .swaps s' f' save load)
    (hne : load ≠ save) (hl : saved load = some c) :
    P.Leads ⟨s, saved, ⟨f :: rest, link, room⟩⟩
      ⟨s', Function.update saved save (some ⟨f' :: rest, link, room⟩), c⟩ := by
  refine .single ?_
  simp [next, hf, h, Function.update_of_ne hne, hl]

end Program

end Seminars.Lib.Ucontext
