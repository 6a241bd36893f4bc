import Seminars.Dlmalloc.Invariant
import Seminars.Dlmalloc.Sanity

/-!
# Seminars.Dlmalloc.NullSafe — which calls go through `NULL`

The program may call every entry point in every order, from program start on, and `mmap` may fail.

* `traverse_rows`, `sanity_spec`, `length_spec`, `sizes_spec` — the functions that only look, on a heap that holds a
  layout.
* `Op.Meets` — the calls that are safe: `init()` while there is no arena and `mmap` succeeds, `sanity()` while the
  free list is not empty, `traverseblocks()` once there is an arena.
* `null_safe_run` — **in every run a call returns if it meets the condition, and goes through `NULL` otherwise**.
-/

namespace Seminars.Dlmalloc

open Lib BlockMem

/-! ### Functions that only look -/

section Look

variable {μ L V : Type} [BlockMem μ L V] {m : Mapping} {A : Layout m.base (room μ)} {h : Heap μ}

/-- The rows of the blocks `l` behind a block of status `pf` and size `ps`. -/
def rowsOf (pf : Bool) (ps : ℕ) : List Blk → List Row
  | [] => []
  | b :: l => ⟨b.addr, b.free.toNat, b.size, pf.toNat, ps⟩ :: rowsOf b.free b.size l

theorem traverseLoop_rows (l : List Blk) (hR : Rep m h A) (hreg : Regular A) (hl : l ⊆ A.blocks) {pf : Bool}
    {ps a n : ℕ} (hh : Headers h pf ps l) (ht : Tiled a l (m.base + (ARENA - HEAD))) (hn : l.length < n) :
    Runs (traverseLoop n a) h (fun v h' => v = rowsOf pf ps l ∧ h' = h) := by
  induction l generalizing pf ps a n with
  | nil =>
    obtain ⟨n, rfl⟩ : ∃ k, n = k + 1 := ⟨n - 1, by simp at hn; omega⟩
    obtain rfl : a = _ := ht
    have hz : sentinel m.base ∈ A.all := by simp [Layout.all]
    refine runs_bind (runs_rd (A.addr_pos m.pos hz) (Layout.inside hR.mapped hz (.inl rfl)) ?_)
    rw [show val h (m.base + (ARENA - HEAD)) .size = 0 from (hR.headers.mem hz).2]
    exact runs_pure ⟨rfl, rfl⟩
  | cons b l ih =>
    obtain ⟨n, rfl⟩ : ∃ k, n = k + 1 := ⟨n - 1, by simp at hn; omega⟩
    obtain ⟨rfl, ht⟩ := ht
    obtain ⟨⟨hbf, hbs, hf, hs⟩, hh⟩ := hh
    have hbA : b ∈ A.blocks := hl (by simp)
    have hb := A.mem_all_of_mem hbA
    have hb0 := A.addr_pos m.pos hb
    have hin : ∀ f : Field, f.isLink = false → inside h b.addr f := fun f hf => Layout.inside hR.mapped hb (.inl hf)
    refine runs_bind (runs_rd hb0 (hin _ rfl) (runs_ite (fun _ => ?_) fun h0 => ?_))
    · refine runs_bind (runs_rd hb0 (hin _ rfl) (runs_bind (runs_rd hb0 (hin _ rfl) ?_)))
      refine runs_bind (runs_rd hb0 (hin _ rfl) (runs_bind (runs_rd hb0 (hin _ rfl) ?_)))
      refine runs_bind (runs_after hb0 (hin _ rfl) ?_)
      rw [hbf, hbs, hf, hs]
      have hrest := ih (fun c hc => hl (List.mem_cons_of_mem _ hc)) hh ht (n := n) (by simp at hn; omega)
      refine runs_bind (Runs.imp ?_ hrest)
      rintro _ _ ⟨rfl, rfl⟩
      exact runs_pure ⟨rfl, rfl⟩
    · rw [hs] at h0
      have := (hreg b hbA).2
      omega

/-- **`traverseblocks`** prints the layout. -/
theorem traverse_rows (hR : Rep m h A) (hreg : Regular A) :
    Runs traverseblocks h (fun v h' => v = rowsOf false 0 A.blocks ∧ h' = h) := by
  have hh := hR.headers
  rw [Layout.all, headers_append] at hh
  refine runs_bind (runs_get ?_)
  rw [hR.arena]
  refine traverseLoop_rows A.blocks hR hreg (List.Subset.refl _) hh.1 A.tiled ?_
  have := A.tiled.length_le
  simp only [HEAD, ARENA] at this ⊢
  omega

theorem lengthLoop_spec (l k : List Blk) (hR : Rep m h A) (hf : A.flist = l ++ k) {n : ℕ} (hn : k.length < n) :
    Runs (lengthLoop n (head k)) h (fun i h' => i = k.length ∧ h' = h) := by
  induction k generalizing l n with
  | nil =>
    obtain ⟨n, rfl⟩ : ∃ k, n = k + 1 := ⟨n - 1, by simp at hn; omega⟩
    exact runs_ite (fun h0 => absurd rfl h0) fun _ => runs_pure ⟨rfl, rfl⟩
  | cons b k ih =>
    obtain ⟨n, rfl⟩ : ∃ k, n = k + 1 := ⟨n - 1, by simp at hn; omega⟩
    obtain ⟨hb0, hin, hnext, -⟩ := hR.links_mem hf
    rw [head_cons]
    refine runs_ite (fun _ => runs_bind (runs_rd hb0 (hin _) ?_)) fun h0 => absurd hb0 h0
    rw [hnext]
    refine runs_bind (Runs.imp ?_ (ih (l ++ [b]) (by rw [hf]; simp) (by simp at hn; omega)))
    rintro _ _ ⟨rfl, rfl⟩
    exact runs_pure ⟨rfl, rfl⟩

/-- `freelistlength` counts the free blocks. -/
theorem length_spec (hR : Rep m h A) : Runs freelistlength h (fun i h' => i = A.flist.length ∧ h' = h) := by
  refine runs_bind (runs_get ?_)
  rw [hR.flist_eq]
  have := A.flist_length_le
  exact lengthLoop_spec [] A.flist hR rfl (by omega)

theorem sizesLoop_spec (l k : List Blk) (hR : Rep m h A) (hf : A.flist = l ++ k) {n max : ℕ} (hn : k.length < n) :
    Runs (sizesLoop n (head k) max) h (fun v h' => v = (k.map Blk.size).take max ∧ h' = h) := by
  induction k generalizing l n max with
  | nil =>
    obtain ⟨n, rfl⟩ : ∃ k, n = k + 1 := ⟨n - 1, by simp at hn; omega⟩
    exact runs_ite (fun h0 => absurd rfl h0.1) fun _ => runs_pure ⟨by simp, rfl⟩
  | cons b k ih =>
    obtain ⟨n, rfl⟩ : ∃ k, n = k + 1 := ⟨n - 1, by simp at hn; omega⟩
    obtain ⟨hb0, hin, hnext, -⟩ := hR.links_mem hf
    rw [head_cons]
    have hbA : b ∈ A.all := A.mem_all_of_flist (by rw [hf]; simp)
    refine runs_ite (fun hmax => runs_bind (runs_rd hb0 (hin _) (runs_bind (runs_rd hb0 (hin _) ?_)))) fun h0 => ?_
    · rw [hnext, (hR.headers.mem hbA).2]
      refine runs_bind (Runs.imp ?_ (ih (l ++ [b]) (by rw [hf]; simp) (by simp at hn; omega)))
      rintro _ _ ⟨rfl, rfl⟩
      refine runs_pure ⟨?_, rfl⟩
      obtain ⟨k', rfl⟩ : ∃ k', max = k' + 1 := ⟨max - 1, by have := hmax.2; omega⟩
      simp
    · have : max = 0 := by
        by_contra hm
        exact h0 ⟨hb0, Nat.pos_of_ne_zero hm⟩
      subst this
      exact runs_pure ⟨by simp, rfl⟩

/-- `sizes` writes the sizes of the first free blocks. -/
theorem sizes_spec (hR : Rep m h A) (max : ℕ) :
    Runs (sizes max) h (fun v h' => v = (A.flist.map Blk.size).take max ∧ h' = h) := by
  refine runs_bind (runs_get ?_)
  rw [hR.flist_eq]
  have := A.flist_length_le
  exact sizesLoop_spec [] A.flist hR rfl (by omega)

theorem sanityLoop_spec (l k : List Blk) (hR : Rep m h A) (hreg : Regular A) (hf : A.flist = l ++ k) {n : ℕ}
    (hn : k.length < n) : Runs (sanityLoop n (head k) ((l.map Blk.addr).getLastD NULL)) h
      (fun t h' => t = complete ∧ h' = h) := by
  induction k generalizing l n with
  | nil =>
    obtain ⟨n, rfl⟩ : ∃ k, n = k + 1 := ⟨n - 1, by simp at hn; omega⟩
    exact runs_ite (fun h0 => absurd rfl h0) fun _ => runs_pure ⟨rfl, rfl⟩
  | cons b k ih =>
    obtain ⟨n, rfl⟩ : ∃ k, n = k + 1 := ⟨n - 1, by simp at hn; omega⟩
    obtain ⟨hb0, hin, hnext, hprev⟩ := hR.links_mem hf
    rw [head_cons]
    have hbF : b ∈ A.flist := by rw [hf]; simp
    obtain ⟨hfree, hsize⟩ := hR.headers.mem (A.mem_all_of_flist hbF)
    obtain ⟨hbA, hbt⟩ := (A.mem_flist b).mp hbF
    obtain ⟨halign, hmin⟩ := hreg b hbA
    refine runs_ite (fun _ => runs_bind (runs_rd hb0 (hin _) (runs_ite (fun _ => ?_) fun h0 => ?_))) fun h0 =>
      absurd hb0 h0
    · refine runs_bind (runs_rd hb0 (hin _) (runs_ite (fun h1 => ?_) fun _ => ?_))
      · rw [hfree, hbt] at h1
        exact absurd rfl h1
      refine runs_bind (runs_rd hb0 (hin _) (runs_ite (fun h1 => ?_) fun _ => ?_))
      · rw [hsize] at h1
        exact absurd halign h1
      refine runs_bind (runs_rd hb0 (hin _) (runs_ite (fun h1 => absurd hprev h1) fun _ => ?_))
      refine runs_bind (runs_rd hb0 (hin _) ?_)
      rw [hnext]
      have := ih (l ++ [b]) (by rw [hf]; simp) (n := n) (by simp at hn; omega)
      simpa using this
    · rw [hsize] at h0
      omega

/-- **`sanity` finds nothing wrong**, as long as there is a free block. -/
theorem sanity_spec (hR : Rep m h A) (hreg : Regular A) (hne : h.flist ≠ NULL) :
    Runs sanity h (fun t h' => t = complete ∧ h' = h) := by
  have hlen := A.flist_length_le
  have hloop := sanityLoop_spec [] A.flist hR hreg rfl (n := ARENA + 2) (by omega)
  refine runs_bind (runs_get ?_)
  rw [hR.flist_eq] at hne ⊢
  obtain ⟨b, k, hf⟩ : ∃ b k, A.flist = b :: k := by
    cases hA : A.flist with
    | nil => rw [hA] at hne; exact absurd rfl hne
    | cons b k => exact ⟨b, k, rfl⟩
  obtain ⟨hb0, hin, -, hprev⟩ := hR.links_mem (l := []) hf
  rw [hf, head_cons] at hloop ⊢
  refine runs_bind (runs_rd hb0 (hin _) (runs_bind (runs_rd hb0 (hin _) ?_)))
  rw [hprev]
  exact hloop

end Look

/-! ### Programs that call everything -/

/-- The calls of a program; `init` with what `mmap` returns, `write` stores into the payloads the program holds. -/
inductive Op
  | init (mmap : Option Mapping)
  | dalloc (n : ℕ)
  | dfree (p : ℕ)
  | sanity
  | traverseblocks
  | freelistlength
  | sizes (max : ℕ)
  | write

/-- What a call returns, writes to the buffer or prints. -/
inductive Reply
  | nothing
  | pointer (p : ℕ)
  | text (t : String)
  | rows (l : List Row)
  | number (i : ℕ)
  | entries (l : List ℕ)

section Op

variable {μ L V : Type} [BlockMem μ L V]

def Op.code : Op → M μ Reply
  | .init mmap => do Dlmalloc.init mmap; return .nothing
  | .dalloc n => do return .pointer (← Dlmalloc.dalloc n)
  | .dfree p => do Dlmalloc.dfree p; return .nothing
  | .sanity => do return .text (← Dlmalloc.sanity)
  | .traverseblocks => do return .rows (← Dlmalloc.traverseblocks)
  | .freelistlength => do return .number (← Dlmalloc.freelistlength)
  | .sizes max => do return .entries (← Dlmalloc.sizes max)
  | .write => return .nothing

/-- Requests from 16 bytes to 1 GiB; what is freed is `NULL` or held. -/
def Op.Allowed (s : Session μ) : Op → Prop
  | .dalloc n => 16 ≤ n ∧ n ≤ 2 ^ 30
  | .dfree p => p = NULL ∨ p ∈ s.live
  | _ => True

/-- The pointers held after a call. -/
def Op.held (live : List ℕ) : Op → Reply → List ℕ
  | .dalloc _, .pointer p => hold p live
  | .dfree p, _ => live.erase p
  | _, _ => live

/-- One step of a program: a call that returns, or stores into its payloads. -/
inductive OpStep : Session μ → Op → Session μ → Prop
  | call {s : Session μ} {op : Op} {r : Reply} {h : Heap μ} : op.Allowed s → op.code.run s.heap = .ok (r, h) →
      OpStep s op ⟨h, op.held s.live r⟩
  | write {s : Session μ} {mem : μ} :
      (∀ x, ¬ s.Payload x → FootMem.read mem x = FootMem.read s.heap.mem x) →
      OpStep s .write ⟨{ s.heap with mem := mem }, s.live⟩

/-- The calls that do not go through `NULL`. -/
def Op.Meets (s : Session μ) : Op → Prop
  | .init mmap => s.heap.arena = NULL ∧ mmap ≠ none
  | .sanity => s.heap.flist ≠ NULL
  | .traverseblocks => s.heap.arena ≠ NULL
  | _ => True

/-- Before `init()` has succeeded nothing is set; after it the session holds a regular layout. -/
inductive Known : Session μ → Prop
  | before {mem : μ} : Known ⟨Heap.start mem, []⟩
  | after {s : Session μ} {m : Mapping} {A : Layout m.base (room μ)} : Holds m s A → Regular A → Known s

variable {s s' : Session μ} {op : Op} {mem : μ}

theorem dalloc_start {n : ℕ} (hn : n ≠ 0) :
    Runs (dalloc n) (Heap.start mem) (fun p h => p = NULL ∧ h = Heap.start mem) := by
  refine runs_ite (fun h0 => absurd (Nat.le_zero.mp h0) hn) fun _ => ?_
  refine runs_bind (Runs.imp (Q := fun p h => p = NULL ∧ h = Heap.start mem) ?_ ?_)
  · rintro _ _ ⟨rfl, rfl⟩
    exact runs_ite (fun _ => runs_pure ⟨rfl, rfl⟩) fun h0 => absurd rfl h0
  · exact runs_bind (runs_get (runs_ite (fun h0 => absurd rfl h0) fun _ => runs_pure ⟨rfl, rfl⟩))

theorem insert_null {h : Heap μ} : (insert NULL).run h = .error .null := rfl

/-- `init()` that obtains no arena inserts `NULL` into the free list. -/
theorem init_null {h : Heap μ} {mmap : Option Mapping} (hno : h.arena ≠ NULL ∨ mmap = none) :
    (init mmap).run h = .error .null := by
  have hnew : (new mmap).run h = .ok (NULL, h) := by
    by_cases ha : h.arena = NULL
    · obtain rfl := hno.resolve_left (not_not.mpr ha)
      exact (run_bind_ok rfl).trans (congrArg (fun c : M μ ℕ => c.run h) (if_neg (not_not.mpr ha)))
    · exact (run_bind_ok rfl).trans (congrArg (fun c : M μ ℕ => c.run h) (if_pos ha))
  exact (run_bind_ok hnew).trans insert_null

/-- Before `init()`: what meets the condition returns. -/
theorem before_spec (ha : op.Allowed (⟨Heap.start mem, []⟩ : Session μ))
    (hm : op.Meets (⟨Heap.start mem, []⟩ : Session μ)) :
    Runs op.code (Heap.start mem) (fun r h => Known ⟨h, op.held [] r⟩) := by
  cases op with
  | init mmap =>
    obtain ⟨m, rfl⟩ := Option.ne_none_iff_exists'.mp hm.2
    refine runs_bind (Runs.imp (fun _ h hR => runs_pure ?_) (init_spec m mem))
    refine .after ⟨hR, fun p => ?_, List.nodup_nil⟩ regular_fresh
    simp [Op.held, Layout.Taken, Layout.fresh]
  | dalloc n =>
    refine runs_bind (Runs.imp ?_ (dalloc_start (show n ≠ 0 by have := ha.1; omega)))
    rintro _ _ ⟨rfl, rfl⟩
    exact runs_pure .before
  | dfree p =>
    obtain rfl : p = NULL := ha.resolve_right (by simp)
    refine runs_bind (Runs.imp ?_ dfree_null)
    rintro _ _ rfl
    exact runs_pure .before
  | sanity => exact absurd rfl hm
  | traverseblocks => exact absurd rfl hm
  | freelistlength =>
    refine runs_bind (Runs.imp (Q := fun i h => i = 0 ∧ h = Heap.start mem) ?_ ?_)
    · rintro _ _ ⟨rfl, rfl⟩
      exact runs_pure .before
    · exact runs_bind (runs_get (runs_ite (fun h0 => absurd rfl h0) fun _ => runs_pure ⟨rfl, rfl⟩))
  | sizes max =>
    refine runs_bind (Runs.imp (Q := fun v h => v = [] ∧ h = Heap.start mem) ?_ ?_)
    · rintro _ _ ⟨rfl, rfl⟩
      exact runs_pure .before
    · exact runs_bind (runs_get (runs_ite (fun h0 => absurd rfl h0.1) fun _ => runs_pure ⟨rfl, rfl⟩))
  | write => exact runs_pure .before

/-- After `init()`: what meets the condition returns. -/
theorem after_spec {m : Mapping} {A : Layout m.base (room μ)} (hh : Holds m s A) (hreg : Regular A)
    (ha : op.Allowed s) (hm : op.Meets s) : Runs op.code s.heap (fun r h => Known ⟨h, op.held s.live r⟩) := by
  have harena : s.heap.arena ≠ NULL := by
    rw [hh.rep.arena]
    exact Nat.ne_of_gt m.pos
  have hsame : Known (⟨s.heap, s.live⟩ : Session μ) := .after hh hreg
  cases op with
  | init mmap => exact absurd hm.1 harena
  | dalloc n =>
    obtain ⟨h16, hmax⟩ := ha
    obtain ⟨p, h, hrun⟩ := (dalloc_spec hh.rep (show n ≠ 0 by omega)).run_eq
    have hst : Step s (.dalloc n) ⟨h, hold p s.live⟩ := .dalloc (by omega) hrun
    -- the heap after the call is regular again, so its walks are safe
    obtain ⟨hroom, hkeep⟩ := hst.regular hh hreg fun k hk => by
      obtain rfl : n = k := by simpa using hk
      exact ⟨h16, hmax⟩
    obtain ⟨A', hmv, hh'⟩ := step_holds hh hst hroom
    exact runs_bind ⟨p, h, hrun, runs_pure (.after hh' (hkeep A' hmv))⟩
  | dfree p =>
    obtain ⟨s', hst⟩ := can_step hh (hh.roomy hreg ha) (.inr ⟨p, rfl, ha⟩)
    obtain ⟨hroom, hkeep⟩ := hst.regular hh hreg fun k hk => by simp at hk
    obtain ⟨A', hmv, hh'⟩ := step_holds hh hst hroom
    cases hst with
    | dfree hp hrun => exact runs_bind ⟨_, _, hrun, runs_pure (.after hh' (hkeep A' hmv))⟩
  | sanity =>
    -- the four walks leave the heap as it was
    refine runs_bind (Runs.imp ?_ (sanity_spec hh.rep hreg hm))
    rintro _ _ ⟨-, rfl⟩
    exact runs_pure hsame
  | traverseblocks =>
    refine runs_bind (Runs.imp ?_ (traverse_rows hh.rep hreg))
    rintro _ _ ⟨-, rfl⟩
    exact runs_pure hsame
  | freelistlength =>
    refine runs_bind (Runs.imp ?_ (length_spec hh.rep))
    rintro _ _ ⟨-, rfl⟩
    exact runs_pure hsame
  | sizes max =>
    refine runs_bind (Runs.imp ?_ (sizes_spec hh.rep max))
    rintro _ _ ⟨-, rfl⟩
    exact runs_pure hsame
  | write => exact runs_pure hsame

/-- **A call that meets the condition returns**, and what is known of the heap stays known. -/
theorem Known.meets (hk : Known s) (ha : op.Allowed s) (hm : op.Meets s) :
    Runs op.code s.heap (fun r h => Known ⟨h, op.held s.live r⟩) := by
  cases hk with
  | before => exact before_spec ha hm
  | after hh hreg => exact after_spec hh hreg ha hm

/-- **A call that does not meet it goes through `NULL`.** -/
theorem fails_null (hm : ¬ op.Meets s) : op.code.run s.heap = .error .null := by
  cases op with
  | init mmap =>
    refine run_bind_error (init_null ?_)
    by_cases ha : s.heap.arena = NULL
    · exact .inr (by_contra fun hn => hm ⟨ha, hn⟩)
    · exact .inl ha
  | sanity =>
    have hf : s.heap.flist = NULL := not_not.mp hm
    refine run_bind_error ((run_bind_ok rfl).trans (run_bind_error (if_pos hf)))
  | traverseblocks =>
    have ha : s.heap.arena = NULL := not_not.mp hm
    refine run_bind_error ((run_bind_ok rfl).trans ?_)
    exact run_bind_error (if_pos ha)
  | _ => exact absurd trivial hm

theorem Known.step (hk : Known s) (hst : OpStep s op s') : Known s' := by
  cases hst with
  | call ha hrun =>
    by_cases hm : op.Meets s
    · exact (hk.meets ha hm).of_eq hrun
    · rw [fails_null hm] at hrun
      exact absurd hrun (by simp)
  | write hmem =>
    cases hk with
    | before => exact .before
    | after hh hreg =>
      obtain ⟨A', hmv, hh'⟩ := step_holds hh (.write hmem) (roomy_of_ne fun p => by simp)
      exact .after hh' (hmv.regular hreg fun n hn => by simp at hn)

/-- **Null safety, exactly.**  From program start, after any sequence of calls of any of the entry points, with `mmap`
succeeding or failing: the next call returns exactly when it meets the condition, and reads or writes a block field
through `NULL` exactly when it does not; `init()` that obtains no arena always does. -/
theorem null_safe_run (mem : μ) (tr : List (Session μ × Op)) (s : Session μ)
    (h : Path OpStep ⟨Heap.start mem, []⟩ tr s) (op : Op) (ha : op.Allowed s) :
    ((∃ r h, op.code.run s.heap = .ok (r, h)) ↔ op.Meets s) ∧
    (op.code.run s.heap = .error .null ↔ ¬ op.Meets s) ∧
    ∀ mmap, s.heap.arena ≠ NULL ∨ mmap = none → (init mmap).run s.heap = .error .null := by
  have hk : Known s := h.invariant .before fun _ _ _ _ hk hst => hk.step hst
  refine ⟨⟨fun ⟨r, h, hrun⟩ => ?_, fun hm => (hk.meets ha hm).run_eq⟩, ⟨fun hrun hm => ?_, fails_null⟩,
    fun mmap => init_null⟩
  · by_contra hm
    rw [fails_null hm] at hrun
    exact absurd hrun (by simp)
  · obtain ⟨r, h, hok⟩ := (hk.meets ha hm).run_eq
    rw [hrun] at hok
    exact absurd hok (by simp)

instance (s : Session μ) (op : Op) : Decidable (op.Allowed s) :=
  match op with
  | .dalloc n => inferInstanceAs (Decidable (16 ≤ n ∧ n ≤ 2 ^ 30))
  | .dfree p => inferInstanceAs (Decidable (p = NULL ∨ p ∈ s.live))
  | .init _ | .sanity | .traverseblocks | .freelistlength | .sizes _ | .write => .isTrue trivial

/-- The session after a call, when the program may make it and it returns. -/
def opNext (s : Session μ) (op : Op) : Option (Session μ) :=
  if op.Allowed s then
    match op.code.run s.heap with
    | .ok (r, h) => some ⟨h, op.held s.live r⟩
    | .error _ => none
  else none

theorem opNext_step (s : Session μ) (op : Op) (s' : Session μ) (h : opNext s op = some s') : OpStep s op s' := by
  unfold opNext at h
  split_ifs at h with ha
  split at h
  · obtain rfl := Option.some.inj h
    exact .call ha ‹_›
  · exact absurd h (by simp)

end Op

/-- After `init()`, a request and a look at the heap, `sanity()` is safe. -/
theorem null_safe_run_four : ∃ (tr : List (Session Bytes × Op)) (s : Session Bytes),
    tr.length = 4 ∧ Path OpStep ⟨Heap.start fun _ => 0, []⟩ tr s ∧
    ((∃ r h, Op.sanity.code.run s.heap = .ok (r, h)) ↔ Op.sanity.Meets s) ∧
    (Op.sanity.code.run s.heap = .error .null ↔ ¬ Op.sanity.Meets s) ∧
    ∀ mmap, s.heap.arena ≠ NULL ∨ mmap = none → (init mmap).run s.heap = .error .null := by
  obtain ⟨tr, s, hp, hlen⟩ := exists_path (opNext_step (μ := Bytes)) ⟨Heap.start fun _ => 0, []⟩
    [.freelistlength, .init (some .second), .dalloc 24, .traverseblocks] (fun x => decide (x.1.length = 4))
    (by decide +kernel)
  exact ⟨tr, s, of_decide_eq_true hlen, hp, null_safe_run (fun _ => 0) tr s hp .sanity trivial⟩

/-- Not every order of calls is safe: `traverseblocks()` before `init()` reads `arena->size`. -/
theorem null_safe_fails : ¬ ∀ (tr : List (Session Bytes × Op)) (s : Session Bytes),
    Path OpStep ⟨Heap.start fun _ => 0, []⟩ tr s → ∀ op : Op, op.Allowed s → op.code.run s.heap ≠ .error .null :=
  fun hall => hall [] _ .nil .traverseblocks trivial (fails_null fun hm => hm rfl)

end Seminars.Dlmalloc
