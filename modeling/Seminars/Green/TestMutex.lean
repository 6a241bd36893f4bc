import Mathlib.Tactic.FinCases
import Seminars.Green.Team
import Seminars.Lib.CInt

/-!
# Seminars.Green.TestMutex — `seminar3/test_mutex.c`

`main` starts three threads and joins them.  Each of them increments, `L` times, a variable of its own and one that
they share, and holds a mutex meanwhile.  An increment is a load and a store, and the timer may come between them.

* `testMutex L`: the program.
* `Own`, `Own.exec`: what is true of a thread's locals.
* `left`, `left_exec`: how many statements a thread has left.
* `team`: where its threads can be in the library, and which section the mutex protects.
* `Score`: what the threads have made of the variables; `Score.exec` is its step lemma.
-/

namespace Seminars.Green.TestMutex

open Seminars.Lib

/-- The statements of `main`, then those of `test`. -/
inductive Loc
  | mutexInit
  | create (i : Fin 3)
  | join (i : Fin 3)
  | exit
  /-- `id = *(int*)arg`, the empty loop, and `i = 0` -/
  | enter
  /-- `i < loop` -/
  | head
  | lock
  /-- `zero++`, `one++` or `two++`, the load -/
  | loadOwn
  | storeOwn
  /-- `shared++`, the load -/
  | loadShared
  | storeShared
  | unlock
  /-- `i++` -/
  | incr
  | ret
  deriving DecidableEq, Repr

/-- The number of `mutex`. -/
def mutex : ℕ := 0

/-- The threads `g0`, `g1` and `g2`. -/
def g (i : Fin 3) : Tid := i + 1

/-- The global variables. -/
@[ext]
structure Globals where
  shared : ℤ := 0
  zero : ℤ := 0
  one : ℤ := 0
  two : ℤ := 0
  deriving DecidableEq, Repr

/-- The local variables of a thread, with the register of an increment, and where its code stands. -/
structure Locals where
  loc : Loc := .enter
  id : ℕ := 0
  i : ℕ := 0
  tmp : ℤ := 0
  deriving DecidableEq, Repr

/-- The variable that the thread with the number `id` increments. -/
def Globals.own (x : Globals) (id : ℕ) : ℤ := if id = 0 then x.zero else if id = 1 then x.one else x.two

def Globals.setOwn (x : Globals) (id : ℕ) (v : ℤ) : Globals :=
  if id = 0 then { x with zero := v } else if id = 1 then { x with one := v } else { x with two := v }

/-- The statement of `main` after the creation of a thread, and after a join. -/
def afterCreate : Fin 3 → Loc
  | 0 => .create 1
  | 1 => .create 2
  | 2 => .join 0

def afterJoin : Fin 3 → Loc
  | 0 => .join 1
  | 1 => .join 2
  | 2 => .exit

/-- The call of the library that a statement is; `arg` points to the number of the thread. -/
def call : Loc → Option Act
  | .mutexInit => some (.mutexInit mutex)
  | .create i => some (.create (g i) 1 i)
  | .join i => some (.join (g i) none)
  | .lock => some (.lock mutex)
  | .unlock => some (.unlock mutex)
  | .ret => some (.ret 0)
  | .exit | .enter | .head | .loadOwn | .storeOwn | .loadShared | .storeShared | .incr => none

/-- The statement of a thread with the argument `arg`; `L` is the value of `loop`. -/
def exec (L arg : ℕ) (x : Globals × Locals) : Globals × Locals :=
  match x.2.loc with
  | .mutexInit => (x.1, { x.2 with loc := .create 0 })
  | .create i => (x.1, { x.2 with loc := afterCreate i })
  | .join i => (x.1, { x.2 with loc := afterJoin i })
  | .exit => x
  | .enter => (x.1, { x.2 with id := arg, i := 0, loc := .head })
  | .head => (x.1, { x.2 with loc := if x.2.i < L then .lock else .ret })
  | .lock => (x.1, { x.2 with loc := .loadOwn })
  | .loadOwn => (x.1, { x.2 with tmp := x.1.own x.2.id, loc := .storeOwn })
  | .storeOwn => (x.1.setOwn x.2.id (int (x.2.tmp + 1)), { x.2 with loc := .loadShared })
  | .loadShared => (x.1, { x.2 with tmp := x.1.shared, loc := .storeShared })
  | .storeShared => ({ x.1 with shared := int (x.2.tmp + 1) }, { x.2 with loc := .unlock })
  | .unlock => (x.1, { x.2 with loc := .incr })
  | .incr => (x.1, { x.2 with i := x.2.i + 1, loc := .head })
  | .ret => x

/-- **The program.** -/
def testMutex (L : ℕ) : Program Globals Locals where
  call := fun l => call l.loc
  exec := exec L
  finished := fun l => l.loc = .exit

/-- The start: the global variables are zero. -/
def start : Config Tid Globals Locals :=
  ⟨{}, fun t => if t = mainGreen then { loc := .mutexInit } else {}⟩

/-- Where a thread's code can be in the library. -/
def Fits (l : Loc) : Pc → Prop
  | .user => True
  | .yield back => back = none
  | .start => l = .enter
  | .lock m => m = mutex ∧ l = .loadOwn
  | .join u res => ∃ i, u = g i ∧ res = none ∧ l = afterJoin i
  | .wait _ _ | .rewait _ | .epi _ _ => False

/-- A statement that is a call takes its thread where it fits. -/
theorem fits_call {L arg : ℕ} {x : Globals × Locals} {act : Act} {c : Ctx} {pc : Pc} (hact : call x.2.loc = some act)
    (hen : enabled c act) (hl : Lands c.pc act pc) : Fits (exec L arg x).2.loc pc := by
  cases hloc : x.2.loc <;> rw [hloc] at hact <;> cases hact <;> simp only [exec, hloc]
  case join i =>
    rcases hl with rfl | rfl
    · trivial
    · exact ⟨i, rfl, rfl, rfl⟩
  case lock =>
    rcases hl with rfl | rfl
    · trivial
    · exact ⟨rfl, rfl⟩
  case ret =>
    obtain rfl : pc = .user := (show pc = c.pc from hl).trans hen.1
    trivial
  all_goals
    obtain rfl : pc = .user := hl
    trivial

/-! ### The locals of a thread -/

namespace Loc

/-- The statements of `main`. -/
def isMain : Loc → Bool
  | .mutexInit | .create _ | .join _ | .exit => true
  | _ => false

/-- From the return of `green_mutex_lock` to the call of `green_mutex_unlock`. -/
def inside : Loc → Bool
  | .loadOwn | .storeOwn | .loadShared | .storeShared | .unlock => true
  | _ => false

/-- In a round of the loop. -/
def busy : Loc → Bool
  | .lock | .incr => true
  | l => l.inside

/-- `main` has not come behind its call `green_join(&g i, NULL)`. -/
def before (i : Fin 3) : Loc → Bool
  | .mutexInit | .create _ => true
  | .join j => j ≤ i
  | _ => false

end Loc

/-- **The locals of the thread with the number `id`.** -/
structure Own (L id : ℕ) (l : Locals) : Prop where
  test : l.loc.isMain = false
  id : l.loc ≠ .enter → l.id = id
  enter : l.loc = .enter → l.i = 0
  le : l.i ≤ L
  busy : l.loc.busy = true → l.i < L
  ret : l.loc = .ret → l.i = L

/-- How often the thread has incremented its own variable, and `shared`. -/
def Locals.madeOwn (l : Locals) : ℕ :=
  l.i + if l.loc = .loadShared ∨ l.loc = .storeShared ∨ l.loc = .unlock ∨ l.loc = .incr then 1 else 0

def Locals.made (l : Locals) : ℕ := l.i + if l.loc = .unlock ∨ l.loc = .incr then 1 else 0

/-- The statements that the thread has left. -/
def Locals.left (L : ℕ) (l : Locals) : ℕ :=
  match l.loc with
  | .mutexInit => 7
  | .create i => 6 - i
  | .join i => 3 - i
  | .exit => 0
  | .enter => 8 * L + 3
  | .head => 8 * (L - l.i) + 2
  | .lock => 8 * (L - l.i) + 1
  | .loadOwn => 8 * (L - l.i)
  | .storeOwn => 8 * (L - l.i) - 1
  | .loadShared => 8 * (L - l.i) - 2
  | .storeShared => 8 * (L - l.i) - 3
  | .unlock => 8 * (L - l.i) - 4
  | .incr => 8 * (L - l.i) - 5
  | .ret => 1

section Locals

variable {L arg id : ℕ} {x : Globals × Locals}

/-- A statement leaves its thread in `main` or in `test`. -/
theorem exec_isMain : (exec L arg x).2.loc.isMain = x.2.loc.isMain := by
  cases hl : x.2.loc <;> simp [exec, hl, Loc.isMain]
  case create i => fin_cases i <;> rfl
  case join i => fin_cases i <;> rfl
  case head => split_ifs <;> rfl

/-- A statement of `test` keeps what is true of the locals. -/
theorem Own.exec (h : Own L id x.2) (harg : x.2.loc = .enter → arg = id) : Own L id (exec L arg x).2 := by
  have hmain : (TestMutex.exec L arg x).2.loc.isMain = false := exec_isMain.trans h.test
  obtain ⟨htest, hid, henter, hle, hbusy, hret⟩ := h
  cases hl : x.2.loc <;> simp [hl, Loc.busy, Loc.inside, Loc.isMain] at harg htest hid henter hbusy hret
  case head =>
    by_cases hlt : x.2.i < L
    · refine ⟨hmain, ?_, ?_, ?_, ?_, ?_⟩ <;> simp [TestMutex.exec, hl, hlt, hid, hle]
    · refine ⟨hmain, ?_, ?_, ?_, ?_, ?_⟩ <;> simp [TestMutex.exec, hl, hlt, hid, hle, Loc.busy, Loc.inside]
      omega
  case incr => refine ⟨hmain, ?_, ?_, ?_, ?_, ?_⟩ <;> simp [TestMutex.exec, hl, hid, Loc.busy, Loc.inside]; omega
  all_goals
    refine ⟨hmain, ?_, ?_, ?_, ?_, ?_⟩ <;>
      simp [TestMutex.exec, hl, harg, hid, hle, hbusy, hret, Loc.busy, Loc.inside]

theorem left_exec (hbusy : x.2.loc.busy = true → x.2.i < L) (hexit : x.2.loc ≠ .exit) (hret : x.2.loc ≠ .ret) :
    (exec L arg x).2.left L < x.2.left L := by
  cases hl : x.2.loc <;> simp [exec, hl, Loc.busy, Loc.inside, Locals.left] at hbusy hexit hret ⊢
  case create i => fin_cases i <;> simp [afterCreate]
  case join i => fin_cases i <;> simp [afterJoin]
  case head => split_ifs <;> simp
  all_goals omega

/-- A statement that is no call is inside if the next one is. -/
theorem inside_exec (hcall : call x.2.loc = none) : (exec L arg x).2.loc.inside = x.2.loc.inside := by
  cases hl : x.2.loc <;> rw [hl] at hcall <;> simp [call] at hcall <;> simp [exec, hl, Loc.inside]
  split_ifs <;> rfl

/-- Storing `shared` is what is counted. -/
theorem made_exec (h : Own L id x.2) :
    (exec L arg x).2.made = x.2.made + if x.2.loc = .storeShared then 1 else 0 := by
  have henter := h.enter
  cases hl : x.2.loc <;> simp [exec, hl, Locals.made] at henter ⊢
  case create i => fin_cases i <;> simp [afterCreate]
  case join i => fin_cases i <;> simp [afterJoin]
  case head => split_ifs <;> simp
  case enter => omega

theorem madeOwn_exec (h : Own L id x.2) :
    (exec L arg x).2.madeOwn = x.2.madeOwn + if x.2.loc = .storeOwn then 1 else 0 := by
  have henter := h.enter
  cases hl : x.2.loc <;> simp [exec, hl, Locals.madeOwn] at henter ⊢
  case create i => fin_cases i <;> simp [afterCreate]
  case join i => fin_cases i <;> simp [afterJoin]
  case head => split_ifs <;> simp
  case enter => omega

theorem before_afterJoin (i : Fin 3) : (afterJoin i).before i = false := by
  fin_cases i <;> rfl

theorem before_exec {i : Fin 3} (hm : x.2.loc.isMain = true) :
    (exec L arg x).2.loc.before i = false ↔ x.2.loc.before i = false ∨ x.2.loc = .join i := by
  cases hl : x.2.loc <;> simp [exec, hl, Loc.isMain, Loc.before] at hm ⊢
  case create j => fin_cases j <;> simp [afterCreate]
  case join j => fin_cases j <;> fin_cases i <;> simp [afterJoin]

theorem Own.made_le (h : Own L id x.2) : x.2.made ≤ L ∧ x.2.madeOwn ≤ L ∧
    (x.2.loc = .storeShared → x.2.made < L) ∧ (x.2.loc = .storeOwn → x.2.madeOwn < L) := by
  have hle := h.le
  have hbusy := h.busy
  cases hl : x.2.loc <;> simp [hl, Loc.busy, Loc.inside, Locals.made, Locals.madeOwn] at hbusy ⊢ <;> omega

theorem shared_exec : (exec L arg x).1.shared = if x.2.loc = .storeShared then int (x.2.tmp + 1) else x.1.shared := by
  cases hl : x.2.loc <;> simp [exec, hl, Globals.setOwn]
  split_ifs <;> rfl

theorem own_exec (hid : x.2.loc = .storeOwn → x.2.id < 3) {j : ℕ} (hj : j < 3) :
    (exec L arg x).1.own j = if x.2.loc = .storeOwn ∧ x.2.id = j then int (x.2.tmp + 1) else x.1.own j := by
  cases hl : x.2.loc <;> simp [exec, hl, Globals.own]
  have hid := hid hl
  unfold Globals.setOwn
  split_ifs <;> first | rfl | omega

theorem tmp_exec : ((exec L arg x).2.loc = .storeOwn → (exec L arg x).2.tmp = x.1.own x.2.id ∧ x.2.loc = .loadOwn) ∧
    ((exec L arg x).2.loc = .storeShared → (exec L arg x).2.tmp = x.1.shared ∧ x.2.loc = .loadShared) := by
  cases hl : x.2.loc <;> simp [exec, hl]
  case create i => fin_cases i <;> simp [afterCreate]
  case join i => fin_cases i <;> simp [afterJoin]
  case head => split_ifs <;> simp

end Locals

/-! ### The team -/

/-- The threads that have been created when `main` is at a statement. -/
def crew : Loc → List Tid
  | .create i => (List.range (i + 1)).reverse
  | .join _ | .exit => [3, 2, 1, mainGreen]
  | _ => [mainGreen]

section Team

variable {L arg : ℕ} {x : Globals × Locals} {l : Loc} {act : Act} {pc : Pc}

theorem Fits.pending (h : Fits l pc) : Pending mutex l.inside l.isMain pc := by
  cases pc with
  | lock m =>
    obtain ⟨rfl, rfl⟩ := h
    exact ⟨rfl, rfl⟩
  | wait c m => exact h.elim
  | rewait m => exact h.elim
  | join u res =>
    obtain ⟨i, -, -, rfl⟩ := h
    fin_cases i <;> rfl
  | _ => trivial

/-- What a call does to the section that the mutex protects. -/
theorem crosses_exec (hact : call x.2.loc = some act) :
    Crosses mutex x.2.loc.inside (exec L arg x).2.loc.inside act := by
  cases hl : x.2.loc <;> rw [hl] at hact <;> cases hact <;> simp [exec, hl, Crosses, Loc.inside]
  case create i => fin_cases i <;> rfl
  case join i => fin_cases i <;> rfl

theorem crew_exec (hact : call x.2.loc = some act) (hm : x.2.loc.isMain = true) :
    crew (exec L arg x).2.loc = act.creates ++ crew x.2.loc := by
  cases hl : x.2.loc <;> rw [hl] at hact hm <;> cases hact <;> simp [exec, hl, crew, Act.creates, Loc.isMain] at hm ⊢
  case mutexInit => rfl
  case create i => fin_cases i <;> rfl
  case join i => fin_cases i <;> rfl

/-- **The threads share the mutex.** -/
def team (L : ℕ) : Team (testMutex L) mutex where
  fits := fun l => Fits l.loc
  fresh := fun l => l = {}
  user := fun _ => trivial
  yield := fun _ => rfl
  start := fun _ h => congrArg Locals.loc h
  rewait := fun _ _ _ h => h.elim
  call := fun _ _ _ _ _ hact hen hl => fits_call hact hen hl
  ret := by
    intro x arg w hact
    have hact : call x.2.loc = some (.ret w) := hact
    show (exec L arg x).2 = x.2
    cases hl : x.2.loc <;> rw [hl] at hact <;> cases hact
    simp only [exec, hl]
  user_call := fun l hact => by cases hl : l.loc <;> simp [testMutex, call, hl] at hact
  create := by
    intro l new fn arg hact
    have hact : call l.loc = some (.create new fn arg) := hact
    cases hl : l.loc <;> rw [hl] at hact <;> cases hact
    decide
  isMain := fun l => l.loc.isMain
  inside := fun l => l.loc.inside
  crew := fun l => crew l.loc
  num := fun t => t - 1
  test := fun l h => by rw [show l = {} from h]; exact ⟨rfl, rfl⟩
  out := fun l h => by cases hl : l.loc <;> rw [hl] at h <;> first | rfl | cases h
  root := fun l => by cases l.loc <;> simp [crew, mainGreen]
  stay := fun _ _ => exec_isMain
  pending := fun _ _ h => h.pending
  computes := by
    intro x arg hcall hexit
    have hcall : call x.2.loc = none := hcall
    have hexit : x.2.loc ≠ .exit := of_decide_eq_false hexit
    refine ⟨?_, inside_exec hcall⟩
    show x.2.loc.isMain = false
    cases hl : x.2.loc <;> simp [call, hl, Loc.isMain] at hcall hexit ⊢
  crosses := fun _ _ _ hact => crosses_exec hact
  creates := fun _ _ _ hact hm => crew_exec hact hm
  role := by
    intro l act hact
    have hact : call l.loc = some act := hact
    show Role _ l.loc.isMain (crew l.loc) act
    cases hl : l.loc <;> rw [hl] at hact <;> cases hact <;> simp [Role, Loc.isMain, crew, g]

end Team

/-! ### The score -/

/-- **Each variable is what the threads have made of it.** -/
structure Score (L : ℕ) (v : Config Tid Globals Locals) : Prop where
  each : ∀ i : Fin 3, Own L i (v.thread (g i))
  shared : v.shared.shared = ∑ i, ((v.thread (g i)).made : ℤ)
  own : ∀ i : Fin 3, v.shared.own i = (v.thread (g i)).madeOwn
  tmpOwn : ∀ i, (v.thread (g i)).loc = .storeOwn → (v.thread (g i)).tmp = v.shared.own i
  tmpShared : ∀ i, (v.thread (g i)).loc = .storeShared → (v.thread (g i)).tmp = v.shared.shared

theorem g_inj {i j : Fin 3} (h : g i = g j) : i = j := Fin.ext (Nat.succ_injective h)

section Score

variable {L arg : ℕ} {v : Config Tid Globals Locals}

/-- `main` computes nothing. -/
theorem Score.main (h : Score L v) (hm : (v.thread mainGreen).loc.isMain = true) :
    Score L ((testMutex L).after arg mainGreen v) := by
  have hother : ∀ i, ((testMutex L).after arg mainGreen v).thread (g i) = v.thread (g i) :=
    fun i => Program.after_other (by simp [g, mainGreen])
  have hshared : ((testMutex L).after arg mainGreen v).shared = v.shared := by
    show (exec L arg (v.shared, v.thread mainGreen)).1 = v.shared
    cases hl : (v.thread mainGreen).loc <;> rw [hl] at hm <;> simp [exec, hl] <;> cases hm
  refine ⟨fun i => ?_, ?_, fun i => ?_, fun i => ?_, fun i => ?_⟩ <;> simp only [hother, hshared]
  · exact h.each i
  · exact h.shared
  · exact h.own i
  · exact h.tmpOwn i
  · exact h.tmpShared i

/-- **A statement of a thread keeps the score**, if only one thread is about to store `shared`. -/
theorem Score.exec (hL : 3 * L < 2 ^ 31) (h : Score L v) {i : Fin 3} (harg : (v.thread (g i)).loc = .enter → arg = i)
    (halone : (v.thread (g i)).loc = .storeShared → ∀ j, j ≠ i → (v.thread (g j)).loc ≠ .storeShared) :
    Score L ((testMutex L).after arg (g i) v) := by
  have hself : ((testMutex L).after arg (g i) v).thread (g i) = (TestMutex.exec L arg (v.shared, v.thread (g i))).2 :=
    Program.after_self
  have hother : ∀ j, j ≠ i → ((testMutex L).after arg (g i) v).thread (g j) = v.thread (g j) :=
    fun j hj => Program.after_other fun e => hj (g_inj e)
  have hi := h.each i
  have hown : Own L i (TestMutex.exec L arg (v.shared, v.thread (g i))).2 := Own.exec (x := (_, _)) hi harg
  have hid : (v.thread (g i)).loc = .storeOwn → (v.thread (g i)).id = i := fun hl => hi.id (by simp [hl])
  have hlt := Own.made_le (x := (v.shared, v.thread (g i))) hi
  dsimp only at hlt
  have hint : ∀ k : ℕ, k < 3 * L → int ((k : ℤ) + 1) = k + 1 := fun k hk => int_eq (by omega)
  have hshared : ((testMutex L).after arg (g i) v).shared.shared =
      if (v.thread (g i)).loc = .storeShared then v.shared.shared + 1 else v.shared.shared := by
    refine shared_exec.trans ?_
    split_ifs with hl
    · have hsum : ∑ j, (v.thread (g j)).made < 3 * L := by
        have hle : ∀ j, (v.thread (g j)).made ≤ L := fun j => (Own.made_le (x := (v.shared, _)) (h.each j)).1
        calc ∑ j, (v.thread (g j)).made < ∑ _j : Fin 3, L :=
              Finset.sum_lt_sum (fun j _ => hle j) ⟨i, Finset.mem_univ i, hlt.2.2.1 hl⟩
          _ = 3 * L := by simp
      have hcast : v.shared.shared = ((∑ j, (v.thread (g j)).made : ℕ) : ℤ) := by
        rw [h.shared]
        push_cast
        rfl
      show int ((v.thread (g i)).tmp + 1) = _
      rw [h.tmpShared i hl, hcast]
      exact hint _ hsum
    · rfl
  have hglobal : ∀ j : Fin 3, ((testMutex L).after arg (g i) v).shared.own j =
      if (v.thread (g i)).loc = .storeOwn ∧ j = i then v.shared.own j + 1 else v.shared.own j := by
    intro j
    refine (own_exec (fun hl => by rw [hid hl]; exact i.isLt) j.isLt).trans ?_
    by_cases hl : (v.thread (g i)).loc = .storeOwn
    · by_cases hj : j = i
      · subst hj
        rw [if_pos ⟨hl, hid hl⟩, if_pos ⟨hl, rfl⟩]
        show int ((v.thread (g j)).tmp + 1) = _
        rw [h.tmpOwn j hl, h.own j]
        exact hint _ ((hlt.2.2.2 hl).trans_le (by omega))
      · have hne : ¬ (v.thread (g i)).id = j := fun e => hj (Fin.ext (e.symm.trans (hid hl)))
        rw [if_neg fun hx => hne hx.2, if_neg fun hx => hj hx.2]
    · rw [if_neg fun hx => hl hx.1, if_neg fun hx => hl hx.1]
  refine ⟨fun j => ?_, ?_, fun j => ?_, fun j hl => ?_, fun j hl => ?_⟩
  · by_cases hj : j = i
    · subst hj
      rw [hself]
      exact hown
    · rw [hother j hj]
      exact h.each j
  · have hmade : (TestMutex.exec L arg (v.shared, v.thread (g i))).2.made =
        (v.thread (g i)).made + if (v.thread (g i)).loc = .storeShared then 1 else 0 := made_exec hi
    rw [hshared, ← Finset.add_sum_erase _ _ (Finset.mem_univ i), hself, hmade]
    have hrest : ∑ j ∈ Finset.univ.erase i, ((((testMutex L).after arg (g i) v).thread (g j)).made : ℤ) =
        ∑ j ∈ Finset.univ.erase i, ((v.thread (g j)).made : ℤ) :=
      Finset.sum_congr rfl fun j hj => by rw [hother j (Finset.ne_of_mem_erase hj)]
    have hsum := h.shared
    rw [← Finset.add_sum_erase _ _ (Finset.mem_univ i)] at hsum
    rw [hrest, hsum]
    split_ifs <;> push_cast <;> omega
  · rw [hglobal j]
    by_cases hj : j = i
    · subst hj
      rw [hself, madeOwn_exec (x := (_, _)) hi, h.own j]
      by_cases hl : (v.thread (g j)).loc = .storeOwn
      · rw [if_pos ⟨hl, rfl⟩, if_pos hl]
        push_cast
        rfl
      · rw [if_neg fun hx => hl hx.1, if_neg hl, Nat.add_zero]
    · rw [if_neg fun hx => hj hx.2, hother j hj]
      exact h.own j
  · rw [hglobal j]
    by_cases hj : j = i
    · subst hj
      rw [hself] at hl ⊢
      obtain ⟨htmp, hload⟩ := tmp_exec.1 hl
      have hload : (v.thread (g j)).loc = .loadOwn := hload
      rw [htmp, if_neg fun hx => by rw [hload] at hx; cases hx.1]
      show v.shared.own (v.thread (g j)).id = v.shared.own j
      rw [hi.id (by simp [hload])]
    · rw [hother j hj] at hl ⊢
      rw [if_neg fun hx => hj hx.2]
      exact h.tmpOwn j hl
  · rw [hshared]
    by_cases hj : j = i
    · subst hj
      rw [hself] at hl ⊢
      obtain ⟨htmp, hload⟩ := tmp_exec.2 hl
      have hload : (v.thread (g j)).loc = .loadShared := hload
      rw [htmp, if_neg (by simp [hload])]
    · rw [hother j hj] at hl ⊢
      rw [if_neg fun hs => halone hs j hj hl]
      exact h.tmpShared j hl

end Score

end Seminars.Green.TestMutex
