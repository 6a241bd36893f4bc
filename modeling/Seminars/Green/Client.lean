import Seminars.Green.Levels
import Seminars.Green.Team

/-!
# Seminars.Green.Client — programs that can be checked

A client is a program of which each thread runs a list of operations: it creates threads, joins, yields, locks,
unlocks, and computes.  `Checked` is a discipline that is read off the lists, one at a time.

* `client code`: the program in which thread `t` runs the function `code t`.
* `Check`: locks in the order of their levels, unlocks what the thread has locked, joins of the threads it has created,
  each once and without a mutex, and with a place for the result if there is one.
* `sites`: where the threads of a client can be in the library.
-/

namespace Seminars.Green.Client

open Seminars.Lib

/-- The operations of a client whose threads compute `α`s.  `create u` is `green_create(&u, fun, &k)`, where `k` is the
number of `u`; `join u res` is `green_join(&u, res)`. -/
inductive Op (α : Type)
  | create (u : Tid)
  | join (u : Tid) (res : Option ℕ)
  | yield
  | lock (m : ℕ)
  | unlock (m : ℕ)
  /-- a statement that does not call the library -/
  | compute (x : α)
  deriving DecidableEq, Repr

variable {α : Type}

/-- The call that an operation is. -/
def Op.act : Op α → Option Act
  | .create u => some (.create u 1 u)
  | .join u res => some (.join u res)
  | .yield => some .yield
  | .lock m => some (.lock m)
  | .unlock m => some (.unlock m)
  | .compute _ => none

/-- The function of a thread: its operations, and what it returns. -/
structure Fun (α : Type) where
  ops : List (Op α)
  value : ℕ := 0

/-- Where a thread is: before its function reads its argument, or, with the number that it has read, with these
operations left. -/
inductive Local (α : Type)
  | enter
  | runs (self : Tid) (left : List (Op α))
  deriving DecidableEq, Repr

/-- What has been computed, and by whom. -/
abbrev Log (α : Type) := List (Tid × α)

def call (code : Tid → Fun α) : Local α → Option Act
  | .runs _ (op :: _) => op.act
  | .runs self [] => if self = mainGreen then none else some (.ret (code self).value)
  | .enter => none

def exec (code : Tid → Fun α) (arg : ℕ) (x : Log α × Local α) : Log α × Local α :=
  match x.2 with
  | .enter => (x.1, .runs arg (code arg).ops)
  | .runs self (.compute y :: left) => (x.1 ++ [(self, y)], .runs self left)
  | .runs self left => (x.1, .runs self left.tail)

def finished : Local α → Bool
  | .runs self [] => self == mainGreen
  | _ => false

/-- **The program.** -/
def client (code : Tid → Fun α) : Program (Log α) (Local α) where
  call := call code
  exec := exec code
  finished := finished

/-- The start. -/
def start (code : Tid → Fun α) : Config Tid (Log α) (Local α) :=
  ⟨[], fun t => if t = mainGreen then .runs mainGreen (code mainGreen).ops else .enter⟩

/-- The threads that are created. -/
def creates (l : List (Op α)) : List Tid :=
  l.filterMap fun
    | .create u => some u
    | _ => none

/-- The threads that are joined. -/
def joins (l : List (Op α)) : List Tid :=
  l.filterMap fun
    | .join u _ => some u
    | _ => none

/-- The threads joined whose results are stored, and where. -/
def places (l : List (Op α)) : List (Tid × ℕ) :=
  l.filterMap fun
    | .join u (some p) => some (u, p)
    | _ => none

/-- What `t` may do while it has the mutexes `held`, has created `kids` and not joined them yet.  There are `N` mutexes
and `K` threads. -/
def Check (N K : ℕ) (level : ℕ → ℕ) (rank : Tid → ℕ) (code : Tid → Fun α) (t : Tid) :
    List ℕ → List Tid → List (Op α) → Prop
  | held, _, [] => held = []
  | held, kids, .create u :: l => (u < K ∧ rank t < rank u) ∧ Check N K level rank code t held (u :: kids) l
  | held, kids, .join u res :: l =>
    (held = [] ∧ u ∈ kids ∧ ((code u).value ≠ 0 → res ≠ none)) ∧ Check N K level rank code t held (kids.erase u) l
  | held, kids, .yield :: l => Check N K level rank code t held kids l
  | held, kids, .lock m :: l => (m < N ∧ ∀ x ∈ held, level x < level m) ∧ Check N K level rank code t (m :: held) kids l
  | held, kids, .unlock m :: l => m ∈ held ∧ Check N K level rank code t (held.erase m) kids l
  | held, kids, .compute _ :: l => Check N K level rank code t held kids l

instance decidableCheck (N K : ℕ) (level : ℕ → ℕ) (rank : Tid → ℕ) (code : Tid → Fun α) (t : Tid) :
    (held : List ℕ) → (kids : List Tid) → (l : List (Op α)) → Decidable (Check N K level rank code t held kids l)
  | held, _, [] => inferInstanceAs (Decidable (held = []))
  | held, kids, .create u :: l =>
    have := decidableCheck N K level rank code t held (u :: kids) l
    inferInstanceAs (Decidable ((_ ∧ _) ∧ _))
  | held, kids, .join u _ :: l =>
    have := decidableCheck N K level rank code t held (kids.erase u) l
    inferInstanceAs (Decidable ((_ ∧ _ ∧ (_ → _)) ∧ _))
  | held, kids, .yield :: l => decidableCheck N K level rank code t held kids l
  | held, kids, .lock m :: l =>
    have := decidableCheck N K level rank code t (m :: held) kids l
    inferInstanceAs (Decidable ((_ ∧ _) ∧ _))
  | held, kids, .unlock m :: l =>
    have := decidableCheck N K level rank code t (held.erase m) kids l
    inferInstanceAs (Decidable (_ ∧ _))
  | held, kids, .compute _ :: l => decidableCheck N K level rank code t held kids l

/-- **The discipline.** -/
structure Checked (N K : ℕ) (level : ℕ → ℕ) (rank : Tid → ℕ) (code : Tid → Fun α) : Prop where
  main : mainGreen < K
  each : ∀ t < K, Check N K level rank code t [] [] (code t).ops
  once : ∀ t < K, (creates (code t).ops).Nodup
  root : ∀ t < K, mainGreen ∉ creates (code t).ops
  parent : ∀ t < K, ∀ u < K, ∀ w ∈ creates (code t).ops, w ∈ creates (code u).ops → t = u
  apart : ∀ t < K, ∀ u < K, ∀ x ∈ places (code t).ops, ∀ y ∈ places (code u).ops, x.2 = y.2 → x.1 = y.1

/-- Where a thread's code can be in the library. -/
def Fits (l : Local α) : Pc → Prop
  | .user | .lock _ | .join _ _ => True
  | .yield back => back = none
  | .start => l = .enter
  | .wait _ _ | .rewait _ | .epi _ _ => False

/-- A call is an operation, or the return of a thread that is done. -/
theorem call_cases {code : Tid → Fun α} {l : Local α} {act : Act} (hact : call code l = some act) :
    (∃ self op rest, l = .runs self (op :: rest) ∧ op.act = some act) ∨
      ∃ self, l = .runs self [] ∧ self ≠ mainGreen ∧ act = .ret (code self).value := by
  cases l with
  | enter => cases hact
  | runs self rest =>
    cases rest with
    | cons op rest => exact .inl ⟨self, op, rest, rfl, hact⟩
    | nil =>
      simp only [call] at hact
      split_ifs at hact with hm
      exact .inr ⟨self, rfl, hm, (Option.some.inj hact).symm⟩

theorem finished_iff {l : Local α} : finished l = true ↔ l = .runs mainGreen [] := by
  cases l with
  | enter => simp [finished]
  | runs self rest => cases rest <;> simp [finished]

theorem fits_call {code : Tid → Fun α} {l : Local α} {act : Act} {c : Ctx} {pc : Pc} (hact : call code l = some act)
    (hen : enabled c act) (hl : Lands c.pc act pc) (l' : Local α) : Fits l' pc := by
  rcases call_cases hact with ⟨self, op, rest, rfl, hop⟩ | ⟨self, rfl, -, rfl⟩
  · cases op with
    | create u =>
      obtain rfl := Option.some.inj hop
      obtain rfl : pc = .user := hl
      trivial
    | join u res =>
      obtain rfl := Option.some.inj hop
      rcases hl with rfl | rfl <;> trivial
    | yield =>
      obtain rfl := Option.some.inj hop
      obtain rfl : pc = .yield none := hl
      rfl
    | lock m =>
      obtain rfl := Option.some.inj hop
      rcases hl with rfl | rfl <;> trivial
    | unlock m =>
      obtain rfl := Option.some.inj hop
      obtain rfl : pc = .user := hl
      trivial
    | compute x => cases hop
  · obtain rfl : pc = .user := (show pc = c.pc from hl).trans hen.1
    trivial

/-- Where the threads stand. -/
def sites (code : Tid → Fun α) : (client code).Sites where
  fits := Fits
  fresh := fun l => l = .enter
  user := fun _ => trivial
  yield := fun _ => rfl
  start := fun _ h => h
  rewait := fun _ _ _ h => h.elim
  call := fun _ _ _ _ _ hact hen hl => fits_call hact hen hl _
  ret := by
    intro x arg w hact
    rcases call_cases hact with ⟨self, op, rest, -, hop⟩ | ⟨self, hl, -, -⟩
    · cases op <;> cases hop
    · show (exec code arg x).2 = x.2
      simp [exec, hl]
  user_call := by
    intro l hact
    rcases call_cases hact with ⟨self, op, rest, -, hop⟩ | ⟨self, -, -, hop⟩
    · cases op <;> cases hop
    · cases hop
  create := by
    intro l new fn arg hact
    rcases call_cases hact with ⟨self, op, rest, -, hop⟩ | ⟨self, -, -, hop⟩
    · cases op <;> cases hop
      decide
    · cases hop

end Seminars.Green.Client
