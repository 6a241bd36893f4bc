import Seminars.Lib.Ucontext

/-!
# Seminars.Contexts.Yield — `contexts-assignment/yield.c`

Two contexts that call `push` down to the depth `MAX`, where each hands over to the other, and a third one that both
lead to when they end.

* `yieldProgram MAX sizes`: the program; `start`: the state once `main` has set the contexts up.
* `leads_down`, `leads_up`: the calls of `push` of one context, and their returns.
* `yield_output`: when the stacks hold the calls of `push`, the program ends, and what it has printed then.
-/

namespace Seminars.Contexts

open Seminars.Lib.Ucontext Seminars.Lib.Ucontext.Program

/-- `cntx_one`, `cntx_two`, `cntx_main` and `cntx_done` -/
inductive Cntx
  | one | two | main | done
  deriving DecidableEq, Repr

/-- The lines that are printed, with their numbers. -/
inductive Line
  | push (p i : ℕ)
  | pop (p i : ℕ)
  | top (p i : ℕ)
  | yield
  /-- `Switching (p, q)` -/
  | switching (p q : ℕ)
  /-- `process p terminating` -/
  | terminating (p : ℕ)
  | doneTerminating
  | letsGo
  | thatsAll
  deriving DecidableEq, Repr

/-- The static variables, and what has been printed. -/
@[ext]
structure Vars where
  running : ℕ := 0
  done1 : ℕ := 0
  done2 : ℕ := 0
  out : List Line := []
  deriving DecidableEq, Repr

/-- `printf` -/
def Vars.print (s : Vars) (l : List Line) : Vars := { s with out := s.out ++ l }

/-- Where the code of a function stands. -/
inductive Frame
  | push (p i : ℕ)
  /-- in `push`, after the call of `push` -/
  | pop (p i : ℕ)
  /-- in `push`, after the call of `yield` -/
  | popTop
  | yield
  /-- in `yield`, after `swapcontext` -/
  | yielded
  /-- in `done`, at the head of the loop with the local `done` being 0 -/
  | done
  /-- in `done`, behind the loop -/
  | doneEnd
  /-- in `main`, once the contexts are set up -/
  | main
  /-- in `main`, after `swapcontext` -/
  | mainEnd
  deriving DecidableEq, Repr

/-- `yield` -/
def yield (s : Vars) : Outcome Vars Frame Cntx :=
  let s := s.print [.yield]
  if s.running = 1 then
    .swaps { s.print [.switching 1 2] with running := 2 } .yielded .one .two
  else
    -- running was 2, so we set it to 1
    .swaps { s.print [.switching 2 1] with running := 1 } .yielded .two .one

/-- `push`, up to the call it makes -/
def push (MAX p i : ℕ) (s : Vars) : Outcome Vars Frame Cntx :=
  if i < MAX then
    .calls (s.print [.push p i]) (.pop p i) (.push p (i + 1))
  else
    .calls (s.print [.top p i]) .popTop .yield

/-- The body of the loop of `done`. -/
def done (s : Vars) : Outcome Vars Frame Cntx :=
  if s.running = 1 then
    let s := { s.print [.terminating 1] with done1 := 1 }
    if s.done2 = 0 then .swaps { s with running := 2 } .done .done .two else .goes s .doneEnd
  else
    let s := { s.print [.terminating 2] with done2 := 1 }
    if s.done1 = 0 then .swaps { s with running := 1 } .done .done .one else .goes s .doneEnd

/-- The bytes that a call of a function takes on the stack, and those that `printf` and `swapcontext` take. -/
structure Sizes where
  push : ℕ
  yield : ℕ
  done : ℕ
  lib : ℕ

def Sizes.bytes (z : Sizes) : Frame → ℕ
  | .push _ _ | .pop _ _ | .popTop => z.push
  | .yield | .yielded => z.yield
  | .done | .doneEnd => z.done
  | .main | .mainEnd => 0

/-- `stack1`, `stack2` and `stack_done` have this many bytes. -/
def STACK : ℕ := 8 * 1024

/-- **The program.** -/
def yieldProgram (MAX : ℕ) (z : Sizes) : Program Vars Frame Cntx where
  bytes := z.bytes
  lib := z.lib
  exec
    | .push p i, s => push MAX p i s
    | .pop p i, s => .returns (s.print [.pop p i])
    | .popTop, s => .returns s
    | .yield, s => yield s
    | .yielded, s => .returns s
    | .done, s => done s
    | .doneEnd, s => .returns (s.print [.doneTerminating])
    | .main, s => .swaps ({ s with running := 1 }.print [.letsGo]) .mainEnd .main .one
    | .mainEnd, s => .returns (s.print [.thatsAll])

/-- `main` has set up the contexts. -/
def start : Machine Vars Frame Cntx where
  vars := {}
  saved
    | .one => some ⟨[.push 1 1], some .done, some STACK⟩
    | .two => some ⟨[.push 2 1], some .done, some STACK⟩
    | .done => some ⟨[.done], some .main, some STACK⟩
    | .main => none
  cpu := ⟨[.main], none, none⟩

/-- What the calls of `push` of the process `p` print, from the depth `i` on. -/
def descent (MAX p i : ℕ) : List Line := (List.range' i (MAX - i)).map (.push p) ++ [.top p (max i MAX)]

/-- The frames they leave. -/
def frames (MAX p i : ℕ) : List Frame := (List.range' i (MAX - i)).reverse.map (.pop p)

/-- What their returns print. -/
def ascent (MAX p i : ℕ) : List Line := (List.range' i (MAX - i)).reverse.map (.pop p)

variable {MAX p i b : ℕ} {z : Sizes} {s : Vars} {saved : Cntx → Option (Ctx Frame Cntx)} {rest : List Frame}
  {link : Option Cntx} {k : Cntx} {c : Ctx Frame Cntx}

theorem Vars.print_print (s : Vars) (l l' : List Line) : (s.print l).print l' = s.print (l ++ l') := by
  simp [Vars.print]

theorem Vars.print_nil (s : Vars) : s.print [] = s := by
  simp [Vars.print]

section Exec

variable {d₁ d₂ : ℕ} {out : List Line}

theorem exec_yield_one : (yieldProgram MAX z).exec .yield ⟨1, d₁, d₂, out⟩ =
    .swaps ⟨2, d₁, d₂, out ++ [.yield] ++ [.switching 1 2]⟩ .yielded .one .two := rfl

theorem exec_yield_two : (yieldProgram MAX z).exec .yield ⟨2, d₁, d₂, out⟩ =
    .swaps ⟨1, d₁, d₂, out ++ [.yield] ++ [.switching 2 1]⟩ .yielded .two .one := rfl

/-- The first process terminates while the second one has not. -/
theorem exec_done_one : (yieldProgram MAX z).exec .done ⟨1, d₁, 0, out⟩ =
    .swaps ⟨2, 1, 0, out ++ [.terminating 1]⟩ .done .done .two := rfl

theorem exec_done_two : (yieldProgram MAX z).exec .done ⟨2, 1, d₂, out⟩ =
    .goes ⟨2, 1, 1, out ++ [.terminating 2]⟩ .doneEnd := rfl

end Exec

/-- **The calls of `push`**, as long as the stack holds them and the call of `yield`. -/
theorem leads_down (hfit : (rest.map z.bytes).sum + (MAX - i + 1) * z.push + z.yield + z.lib ≤ b) :
    (yieldProgram MAX z).Leads ⟨s, saved, ⟨.push p i :: rest, link, some b⟩⟩
      ⟨s.print (descent MAX p i), saved, ⟨.yield :: .popTop :: (frames MAX p i ++ rest), link, some b⟩⟩ := by
  generalize hn : MAX - i = n at hfit
  induction n generalizing i s rest with
  | zero =>
    have hle : MAX ≤ i := Nat.sub_eq_zero_iff_le.mp hn
    have hexec : (yieldProgram MAX z).exec (.push p i) s = .calls (s.print [.top p i]) .popTop .yield :=
      if_neg (Nat.not_lt.mpr hle)
    have hf : (yieldProgram MAX z).fits ⟨.push p i :: rest, link, some b⟩ := by
      refine fits_some.mpr ?_
      simp only [List.map_cons, List.sum_cons, yieldProgram, Sizes.bytes]
      omega
    simpa [descent, frames, hn, hle] using leads_calls hf hexec
  | succ n ih =>
    have hexec : (yieldProgram MAX z).exec (.push p i) s =
        .calls (s.print [.push p i]) (.pop p i) (.push p (i + 1)) := if_pos (by omega)
    have hsum : (n + 1 + 1) * z.push = (n + 1) * z.push + z.push := Nat.succ_mul _ _
    have hf : (yieldProgram MAX z).fits ⟨.push p i :: rest, link, some b⟩ := by
      refine fits_some.mpr ?_
      simp only [List.map_cons, List.sum_cons, yieldProgram, Sizes.bytes]
      omega
    have hrest : (yieldProgram MAX z).Leads
        ⟨s.print [.push p i], saved, ⟨.push p (i + 1) :: .pop p i :: rest, link, some b⟩⟩ _ :=
      ih (by omega) (by
        simp only [List.map_cons, List.sum_cons, Sizes.bytes]
        omega)
    have hdescent : descent MAX p i = .push p i :: descent MAX p (i + 1) := by
      rw [descent, descent, hn, show MAX - (i + 1) = n by omega, List.range'_succ, List.map_cons, List.cons_append,
        show max i MAX = max (i + 1) MAX by omega]
    have hframes : frames MAX p i = frames MAX p (i + 1) ++ [.pop p i] := by
      rw [frames, frames, hn, show MAX - (i + 1) = n by omega, List.range'_succ, List.reverse_cons, List.map_append]
      rfl
    rw [hdescent, hframes, List.append_assoc]
    rw [Vars.print_print] at hrest
    exact (leads_calls hf hexec).trans hrest

theorem bytes_pops (l : List ℕ) : ((l.map (.pop p)).map z.bytes).sum = l.length * z.push := by
  induction l with
  | nil => simp
  | cons i l ih =>
    rw [List.map_cons, List.map_cons, List.sum_cons, ih, List.length_cons, Nat.succ_mul, Nat.add_comm]
    rfl

/-- **The returns**, and then the context that `uc_link` names. -/
theorem leads_up {g : Frame} {l : List ℕ} {s' : Vars} (hfit : l.length * z.push + z.bytes g + z.lib ≤ b)
    (hg : (yieldProgram MAX z).exec g s = .returns s') (hk : saved k = some c) :
    (yieldProgram MAX z).Leads ⟨s, saved, ⟨g :: l.map (.pop p), some k, some b⟩⟩
      ⟨s'.print (l.map (.pop p)), saved, c⟩ := by
  have hf : (yieldProgram MAX z).fits ⟨g :: l.map (.pop p), some k, some b⟩ := by
    refine fits_some.mpr ?_
    show ((g :: l.map (.pop p)).map z.bytes).sum + z.lib ≤ b
    rw [List.map_cons, List.sum_cons, bytes_pops]
    omega
  induction l generalizing g s s' with
  | nil =>
    rw [List.map_nil, List.map_nil, Vars.print_nil]
    exact leads_ends hf hg hk
  | cons i l ih =>
    have hlen : (i :: l).length * z.push = l.length * z.push + z.push := by rw [List.length_cons, Nat.succ_mul]
    have hfit' : l.length * z.push + z.bytes (.pop p i) + z.lib ≤ b := by
      show l.length * z.push + z.push + z.lib ≤ b
      omega
    have hrest := ih (g := .pop p i) (s := s') hfit' rfl (by
      refine fits_some.mpr ?_
      show (((.pop p i) :: l.map (.pop p)).map z.bytes).sum + z.lib ≤ b
      rw [List.map_cons, List.sum_cons, bytes_pops]
      omega)
    rw [Vars.print_print] at hrest
    exact (leads_returns hf hg).trans hrest

theorem leads_back (hfit : (MAX - i + 1) * z.push + z.yield + z.lib ≤ b) (hk : saved k = some c) :
    (yieldProgram MAX z).Leads ⟨s, saved, ⟨.yielded :: .popTop :: frames MAX p i, some k, some b⟩⟩
      ⟨s.print (ascent MAX p i), saved, c⟩ := by
  have hlen : (List.range' i (MAX - i)).reverse.length = MAX - i := by simp
  rw [Nat.succ_mul] at hfit
  have hf : (yieldProgram MAX z).fits ⟨.yielded :: .popTop :: frames MAX p i, some k, some b⟩ := by
    refine fits_some.mpr ?_
    show ((.yielded :: .popTop :: frames MAX p i : List Frame).map z.bytes).sum + z.lib ≤ b
    rw [List.map_cons, List.map_cons, List.sum_cons, List.sum_cons, frames, bytes_pops, hlen]
    simp only [Sizes.bytes]
    omega
  refine (leads_returns hf rfl).trans (leads_up ?_ rfl hk)
  rw [hlen]
  show (MAX - i) * z.push + z.push + z.lib ≤ b
  omega

/-- What has been printed when both processes are suspended in `yield`, or about to be. -/
def goingDown (MAX : ℕ) : List Line :=
  [.letsGo] ++ descent MAX 1 1 ++ [.yield] ++ [.switching 1 2] ++ descent MAX 2 1 ++ [.yield] ++ [.switching 2 1]

/-- What the program prints. -/
def output (MAX : ℕ) : List Line :=
  goingDown MAX ++ ascent MAX 1 1 ++ [.terminating 1] ++ ascent MAX 2 1 ++ [.terminating 2] ++ [.doneTerminating] ++
    [.thatsAll]

/-- The contexts saved when the first process goes on after its `yield`. -/
def bothDown (MAX : ℕ) : Cntx → Option (Ctx Frame Cntx) :=
  Function.update (Function.update (Function.update start.saved
    .main (some ⟨[.mainEnd], none, none⟩))
    .one (some ⟨.yielded :: .popTop :: frames MAX 1 1, some .done, some STACK⟩))
    .two (some ⟨.yielded :: .popTop :: frames MAX 2 1, some .done, some STACK⟩)

theorem fits_deepest (hfit : (MAX - 1 + 1) * z.push + z.yield + z.lib ≤ STACK) :
    (yieldProgram MAX z).fits ⟨.yield :: .popTop :: frames MAX p 1, some .done, some STACK⟩ := by
  refine fits_some.mpr ?_
  show ((.yield :: .popTop :: frames MAX p 1 : List Frame).map z.bytes).sum + z.lib ≤ STACK
  rw [List.map_cons, List.map_cons, List.sum_cons, List.sum_cons, frames, bytes_pops]
  rw [Nat.succ_mul] at hfit
  simp only [Sizes.bytes, List.length_reverse, List.length_range']
  omega

theorem leads_bothDown (hfit : (MAX - 1 + 1) * z.push + z.yield + z.lib ≤ STACK) : (yieldProgram MAX z).Leads start
    ⟨⟨1, 0, 0, goingDown MAX⟩, bothDown MAX, ⟨.yielded :: .popTop :: frames MAX 1 1, some .done, some STACK⟩⟩ := by
  have hdown : ∀ (s : Vars) saved p, (yieldProgram MAX z).Leads ⟨s, saved, ⟨[.push p 1], some .done, some STACK⟩⟩
      ⟨s.print (descent MAX p 1), saved, ⟨.yield :: .popTop :: frames MAX p 1, some .done, some STACK⟩⟩ := by
    intro s saved p
    have h : (yieldProgram MAX z).Leads ⟨s, saved, ⟨.push p 1 :: [], some .done, some STACK⟩⟩ _ :=
      leads_down (by simpa using hfit)
    rwa [List.append_nil] at h
  have hone : (yieldProgram MAX z).Leads start _ := leads_swaps (fits_none ..) rfl (by decide) rfl
  have hdown₁ := hdown ⟨1, 0, 0, [.letsGo]⟩ (Function.update start.saved .main (some ⟨[.mainEnd], none, none⟩)) 1
  refine hone.trans (hdown₁.trans ?_)
  refine (leads_swaps (fits_deepest hfit) exec_yield_one (by decide) rfl).trans ((hdown _ _ 2).trans ?_)
  exact leads_swaps (fits_deepest hfit) exec_yield_two (by decide) rfl

/-- **The run.**  For every depth whose calls of `push` fit on the stacks, with that of `yield`, the program ends,
and loads no context that was not saved.  Each process goes down while the other has not started, or is suspended at its
deepest call; both come back, the first one first. -/
theorem yield_output (MAX : ℕ) (z : Sizes) (hfit : max MAX 1 * z.push + z.yield + z.lib ≤ STACK)
    (hdone : z.done + z.lib ≤ STACK) :
    ∃ m, (yieldProgram MAX z).Leads start m ∧ m.cpu = ⟨[], none, none⟩ ∧ m.vars = ⟨2, 1, 1, output MAX⟩ := by
  have hfit : (MAX - 1 + 1) * z.push + z.yield + z.lib ≤ STACK := by rwa [show MAX - 1 + 1 = max MAX 1 by omega]
  have hdoneFits : ∀ f : Frame, z.bytes f = z.done →
      (yieldProgram MAX z).fits ⟨[f], some .main, some STACK⟩ := by
    intro f hf
    refine fits_some.mpr ?_
    show z.bytes f + 0 + z.lib ≤ STACK
    omega
  have hone : (yieldProgram MAX z).Leads _ _ := (leads_bothDown hfit).trans (leads_back hfit rfl)
  have hdone₁ := hone.trans (leads_swaps (hdoneFits _ rfl) exec_done_one (by decide) rfl)
  have htwo := hdone₁.trans (leads_back hfit rfl)
  have hend := htwo.trans (leads_goes (hdoneFits _ rfl) exec_done_two)
  have hmain := hend.trans (leads_ends (hdoneFits _ rfl) rfl rfl)
  exact ⟨_, hmain.trans (leads_exit (fits_none ..) rfl), rfl, rfl⟩

/-- The depth of the source, with calls of 64 bytes, and 4096 bytes for the library. -/
theorem yield_output_ten : ∃ m, (yieldProgram 10 ⟨64, 64, 64, 4096⟩).Leads start m ∧ m.cpu = ⟨[], none, none⟩ ∧
    m.vars = ⟨2, 1, 1, output 10⟩ :=
  yield_output 10 ⟨64, 64, 64, 4096⟩ (by decide) (by decide)

end Seminars.Contexts
