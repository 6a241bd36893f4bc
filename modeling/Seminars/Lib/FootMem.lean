import Mathlib.Algebra.Order.Group.Nat
import Mathlib.Data.Fintype.Card
import Mathlib.Data.Set.Lattice
import Mathlib.Order.CompletePartialOrder
import Mathlib.Tactic.Common
import Mathlib.Tactic.Ring

/-!
# Seminars.Lib.FootMem — memories read and written through cells with a footprint

A `FootMem μ κ L V` is a memory `μ` of locations `L` holding values `V`, accessed through cells `κ` (a cell may
take several locations, as a 16-bit field takes two bytes).  `foot c` are the locations of the cell `c`.  The
laws: a store changes its own footprint only, a load depends on its own footprint only, and a load after a
store to the same cell gives what the cell can hold of the value stored.

`Frame m m' C`: `m'` differs from `m` inside the cells of `C` at most.  Frames compose (`Frame.trans`) and a
load from a cell apart from `C` is unchanged (`Frame.load_eq`).

The second half is the byte memory of a little-endian machine: `loadLE` / `storeLE`.
-/

namespace Seminars.Lib

/-- A memory accessed through cells. -/
class FootMem (μ : Type) (κ L V : outParam Type) where
  /-- the value at a location -/
  read : μ → L → V
  /-- the locations of a cell -/
  foot : κ → Set L
  load : μ → κ → ℕ
  store : μ → κ → ℤ → μ
  /-- what a cell can hold of a value -/
  wrap : κ → ℤ → ℕ
  load_store : ∀ m c v, load (store m c v) c = wrap c v
  read_store : ∀ m c v x, x ∉ foot c → read (store m c v) x = read m x
  load_congr : ∀ m m' c, (∀ x ∈ foot c, read m' x = read m x) → load m' c = load m c

namespace FootMem

variable {μ κ L V : Type} [FootMem μ κ L V]

/-- Two cells share no location. -/
def Apart (μ : Type) [FootMem μ κ L V] (c d : κ) : Prop := Disjoint (foot μ c) (foot μ d)

theorem Apart.symm {c d : κ} (h : Apart μ c d) : Apart μ d c := Disjoint.symm h

/-- `m'` differs from `m` at most inside the cells of `C`. -/
def Frame (m m' : μ) (C : Set κ) : Prop := ∀ x, (∀ c ∈ C, x ∉ foot μ c) → read m' x = read m x

namespace Frame

theorem refl (m : μ) (C : Set κ) : Frame m m C := fun _ _ => rfl

theorem mono {m m' : μ} {C D : Set κ} (h : Frame m m' C) (hCD : C ⊆ D) : Frame m m' D :=
  fun x hx => h x fun c hc => hx c (hCD hc)

/-- Two changes inside `C`, one after the other. -/
theorem trans {m m' m'' : μ} {C : Set κ} (h : Frame m m' C) (h' : Frame m' m'' C) : Frame m m'' C :=
  fun x hx => (h' x hx).trans (h x hx)

theorem store (m : μ) (c : κ) (v : ℤ) : Frame m (FootMem.store m c v) {c} :=
  fun x hx => read_store m c v x (hx c rfl)

/-- A cell apart from all of `C` is not changed. -/
theorem load_eq {m m' : μ} {C : Set κ} {c : κ} (h : Frame m m' C) (hc : ∀ d ∈ C, Apart μ c d) :
    load m' c = load m c :=
  load_congr m m' c fun x hx => h x fun d hd hx' => Set.disjoint_left.mp (hc d hd) hx hx'

end Frame

end FootMem

/-! ## Little-endian byte memory -/

/-- A byte. -/
abbrev Byte := Fin 256

/-- The number in the `k` bytes from `a`, lowest byte first. -/
def loadLE (m : ℕ → Byte) : ℕ → ℕ → ℕ
  | _, 0 => 0
  | a, k + 1 => (m a).val + 256 * loadLE m (a + 1) k

/-- `v` written to the `k` bytes from `a`, lowest byte first. -/
def storeLE (m : ℕ → Byte) : ℕ → ℕ → ℕ → ℕ → Byte
  | _, 0, _ => m
  | a, k + 1, v => fun x => if x = a then Fin.ofNat 256 v else storeLE m (a + 1) k (v / 256) x

theorem storeLE_out {m : ℕ → Byte} {a k v x : ℕ} (hx : x < a ∨ a + k ≤ x) : storeLE m a k v x = m x := by
  induction k generalizing a v with
  | zero => rfl
  | succ k ih =>
    have hne : x ≠ a := by omega
    exact (if_neg hne).trans (ih (by omega))

theorem loadLE_congr {m m' : ℕ → Byte} {a k : ℕ} (h : ∀ x, a ≤ x → x < a + k → m' x = m x) :
    loadLE m' a k = loadLE m a k := by
  induction k generalizing a with
  | zero => rfl
  | succ k ih =>
    rw [loadLE, loadLE, h a le_rfl (by omega), ih fun x h1 h2 => h x (by omega) (by omega)]

theorem loadLE_lt (m : ℕ → Byte) (a k : ℕ) : loadLE m a k < 256 ^ k := by
  induction k generalizing a with
  | zero => exact Nat.one_pos
  | succ k ih =>
    have h1 := ih (a + 1)
    have h2 := (m a).isLt
    rw [loadLE, Nat.pow_succ']
    omega

/-- Reading back what was written gives its low `k` bytes. -/
theorem loadLE_storeLE (m : ℕ → Byte) (a k v : ℕ) : loadLE (storeLE m a k v) a k = v % 256 ^ k := by
  induction k generalizing a v with
  | zero => simp [loadLE, Nat.mod_one]
  | succ k ih =>
    have hrest : loadLE (storeLE m a (k + 1) v) (a + 1) k = loadLE (storeLE m (a + 1) k (v / 256)) (a + 1) k := by
      refine loadLE_congr fun x h1 _ => ?_
      have hne : x ≠ a := by omega
      exact if_neg hne
    have hlow : storeLE m a (k + 1) v a = Fin.ofNat 256 v := if_pos rfl
    rw [loadLE, hrest, ih, hlow, Fin.val_ofNat, Nat.pow_succ', Nat.mod_mul]

end Seminars.Lib
