import Seminars.Lib.Fifo
import Seminars.Mylloc.Code

/-!
# Seminars.Mylloc.Heap — the chunks of `mhysa.c`

`Heap b₀ s cs fl`: the memory from `b₀` to the break is tiled by the chunks `cs`, the free list leads through the
addresses `fl`, and every chunk is on it or held by the program, never both.

* `search_spec` — what the loop of `malloc` finds; `Outcome`, `malloc_spec` — what `malloc` can do.
* `Heap.reuse`, `Heap.fresh`, `Heap.freed`, `Heap.write` — what keeps the heap.
-/

namespace Seminars.Mylloc

open Seminars.Lib

/-! ### Chunks -/

/-- A chunk: where its header is and how many bytes its payload has. -/
structure Chunk where
  addr : ℕ
  room : ℕ
  deriving DecidableEq

/-- The end of a chunk. -/
def Chunk.fin (c : Chunk) : ℕ := c.addr + CHUNK + c.room

theorem Chunk.fin_eq (c : Chunk) : c.fin = c.addr + 16 + c.room := rfl

/-- The chunks fill the memory from `a` to `b`, in this order. -/
def Tiles : ℕ → List Chunk → ℕ → Prop
  | a, [], b => a = b
  | a, c :: cs, b => c.addr = a ∧ Tiles c.fin cs b

namespace Tiles

variable {a b r : ℕ} {cs : List Chunk} {c d : Chunk}

theorem le (h : Tiles a cs b) : a ≤ b := by
  induction cs generalizing a with
  | nil => exact le_of_eq h
  | cons c cs ih =>
    obtain ⟨rfl, h⟩ := h
    have := ih h
    rw [c.fin_eq] at this
    omega

theorem bounds (h : Tiles a cs b) (hc : c ∈ cs) : a ≤ c.addr ∧ c.fin ≤ b := by
  induction cs generalizing a with
  | nil => simp at hc
  | cons d cs ih =>
    obtain ⟨rfl, h⟩ := h
    rcases List.mem_cons.mp hc with rfl | hc
    · exact ⟨le_rfl, h.le⟩
    · have := ih h hc
      rw [d.fin_eq] at this
      omega

theorem apart (h : Tiles a cs b) (hc : c ∈ cs) (hd : d ∈ cs) (hne : c ≠ d) : c.fin ≤ d.addr ∨ d.fin ≤ c.addr := by
  induction cs generalizing a with
  | nil => simp at hc
  | cons e cs ih =>
    obtain ⟨rfl, h⟩ := h
    rcases List.mem_cons.mp hc with rfl | hc' <;> rcases List.mem_cons.mp hd with rfl | hd'
    · exact absurd rfl hne
    · exact .inl (h.bounds hd').1
    · exact .inr (h.bounds hc').1
    · exact ih h hc' hd'

theorem headers (h : Tiles a cs b) (hc : c ∈ cs) (hd : d ∈ cs) :
    c = d ∨ c.addr + 16 ≤ d.addr ∨ d.addr + 16 ≤ c.addr := by
  by_cases hne : c = d
  · exact .inl hne
  · have := h.apart hc hd hne
    rw [c.fin_eq, d.fin_eq] at this
    omega

theorem addr_inj (h : Tiles a cs b) (hc : c ∈ cs) (hd : d ∈ cs) (he : c.addr = d.addr) : c = d := by
  rcases h.headers hc hd with h | h | h
  · exact h
  · omega
  · omega

theorem snoc (h : Tiles a cs b) : Tiles a (cs ++ [⟨b, r⟩]) (b + CHUNK + r) := by
  induction cs generalizing a with
  | nil =>
    obtain rfl : a = b := h
    exact ⟨rfl, rfl⟩
  | cons c cs ih => exact ⟨h.1, ih h.2⟩

end Tiles

/-! ### The fields of a chunk -/

namespace Sys

variable {s : Sys} {c d v : ℕ} {w : ℤ}

theorem size_flist : Sys.size { s with flist := v } c = s.size c := rfl

theorem next_flist : Sys.next { s with flist := v } c = s.next c := by
  unfold next
  rfl

theorem next_lt : s.next c < 2 ^ 64 := loadLE_lt s.mem (c + 8) 8

theorem sbrk_granted {grant : Bool} {k : ℤ} (h : grant = true ∧ 0 ≤ s.brk + k ∧ s.brk + k < TOP) :
    s.sbrk grant k = (s.brk, { s with brk := (s.brk + k).toNat, calls := s.calls + 1 }) := if_pos h

theorem sbrk_refused {grant : Bool} {k : ℤ} (h : ¬ (grant = true ∧ 0 ≤ s.brk + k ∧ s.brk + k < TOP)) :
    s.sbrk grant k = (FAILED, { s with calls := s.calls + 1 }) := if_neg h

theorem brk_ne_failed (h : s.brk < TOP) : s.brk ≠ FAILED := by
  have hF : FAILED = 2 ^ 64 - 1 := by decide
  simp only [TOP] at h
  omega

theorem next_setNext (hv : v < 2 ^ 64) : (s.setNext c v).next c = v := by
  unfold next setNext
  rw [loadLE_storeLE]
  exact Nat.mod_eq_of_lt hv

theorem next_setNext_ne (h : c + 16 ≤ d ∨ d + 16 ≤ c) : (s.setNext c v).next d = s.next d :=
  loadLE_congr fun _ h1 h2 => storeLE_out (by omega)

theorem size_setNext (h : c = d ∨ c + 16 ≤ d ∨ d + 16 ≤ c) : (s.setNext c v).size d = s.size d :=
  congrArg int (congrArg Nat.cast (loadLE_congr fun _ h1 h2 => storeLE_out (by omega)))

theorem next_setSize (h : c = d ∨ c + 16 ≤ d ∨ d + 16 ≤ c) : (s.setSize c w).next d = s.next d :=
  loadLE_congr fun _ h1 h2 => storeLE_out (by omega)

theorem size_setSize_ne (h : c + 16 ≤ d ∨ d + 16 ≤ c) : (s.setSize c w).size d = s.size d :=
  congrArg int (congrArg Nat.cast (loadLE_congr fun _ h1 h2 => storeLE_out (by omega)))

/-- What is read back from `size` is what an `int` can hold. -/
theorem size_setSize : (s.setSize c w).size c = int w := by
  unfold size setSize int
  rw [loadLE_storeLE]
  have h1 : ((((w % 2 ^ 32).toNat % 256 ^ 4 : ℕ)) : ℤ) = w % 2 ^ 32 := by omega
  rw [h1]
  exact Int.emod_bmod w (2 ^ 32)

end Sys

/-! ### The loop of `malloc` -/

/-- A pointer as a link. -/
def ptr (x : ℕ) : Option ℕ := if x = NULL then none else some x

theorem ptr_some {x a : ℕ} (h : ptr x = some a) : x = a ∧ a ≠ NULL := by
  unfold ptr at h
  split_ifs at h with hx
  obtain rfl := Option.some.inj h
  exact ⟨rfl, hx⟩

theorem ptr_none {x : ℕ} (h : ptr x = none) : x = NULL := by
  unfold ptr at h
  split_ifs at h with hx
  exact hx

theorem payload_ne_null (a : ℕ) : a + CHUNK ≠ NULL := Nat.succ_ne_zero _

/-- From the pointer `x` the field `next` leads through `l` to `NULL`. -/
abbrev Chain (s : Sys) (x : ℕ) (l : List ℕ) : Prop := IsQueue (fun c => ptr (s.next c)) (ptr x) l

/-- `prev->next = v`, or `flist = v` for the first chunk. -/
def Sys.skip (s : Sys) (prev v : ℕ) : Sys := if prev ≠ NULL then s.setNext prev v else { s with flist := v }

/-- The chunk at `a` is large enough for `malloc`. -/
def Sys.Serves (s : Sys) (n a : ℕ) : Prop := n ≤ sizeT (s.size a)

instance (s : Sys) (n a : ℕ) : Decidable (s.Serves n a) := inferInstanceAs (Decidable (_ ≤ _))

/-- The first chunk from `x` on that is large enough. -/
def Sys.firstFit (s : Sys) (n : ℕ) : ℕ → ℕ → Option ℕ
  | 0, _ => none
  | fuel + 1, x => if x = NULL then none else if s.Serves n x then some x else s.firstFit n fuel (s.next x)

theorem firstFit_eq {s : Sys} {n fuel x : ℕ} {l : List ℕ} (hl : Chain s x l) (hf : l.length < fuel) :
    s.firstFit n fuel x = l.find? fun a => s.Serves n a := by
  induction l generalizing fuel x with
  | nil =>
    obtain ⟨fuel, rfl⟩ : ∃ k, fuel = k + 1 := ⟨fuel - 1, by simp at hf; omega⟩
    exact if_pos (ptr_none hl)
  | cons y l ih =>
    obtain ⟨fuel, rfl⟩ : ∃ k, fuel = k + 1 := ⟨fuel - 1, by simp at hf; omega⟩
    obtain ⟨rfl, hy⟩ := ptr_some hl.1
    rw [Sys.firstFit, if_neg hy, List.find?_cons]
    by_cases hs : s.Serves n x
    · simp [hs]
    · simpa [hs] using ih hl.2 (by simp at hf; omega)

/-- **The loop finds the first chunk that is large enough**, and takes it out of the list. -/
theorem search_spec {s : Sys} {n fuel x : ℕ} {l : List ℕ} (prev : ℕ) (hl : Chain s x l) (hf : l.length < fuel) :
    (∀ a ∈ l, ¬ s.Serves n a) ∧ mhysa.search n fuel x prev s = some (NULL, s) ∨
    ∃ l₁ a l₂, l = l₁ ++ a :: l₂ ∧ (∀ b ∈ l₁, ¬ s.Serves n b) ∧ s.Serves n a ∧
      mhysa.search n fuel x prev s = some (a + CHUNK, s.skip (l₁.getLastD prev) (s.next a)) := by
  induction l generalizing fuel x prev with
  | nil =>
    obtain ⟨fuel, rfl⟩ : ∃ k, fuel = k + 1 := ⟨fuel - 1, by simp at hf; omega⟩
    obtain rfl := ptr_none hl
    exact .inl ⟨by simp, rfl⟩
  | cons y l ih =>
    obtain ⟨fuel, rfl⟩ : ∃ k, fuel = k + 1 := ⟨fuel - 1, by simp at hf; omega⟩
    obtain ⟨rfl, hy⟩ := ptr_some hl.1
    by_cases hs : s.Serves n x
    · refine .inr ⟨[], x, l, rfl, by simp, hs, ?_⟩
      unfold Sys.Serves at hs
      by_cases hp : prev = NULL <;> simp [mhysa.search, hy, hs, hp, Sys.skip]
    · have hrun : mhysa.search n (fuel + 1) x prev s = mhysa.search n fuel (s.next x) x s := by
        unfold Sys.Serves at hs
        simp [mhysa.search, hy, hs]
      rw [hrun]
      rcases ih x hl.2 (by simp at hf; omega) with ⟨hno, hr⟩ | ⟨l₁, a, l₂, rfl, hno, ha, hr⟩
      · exact .inl ⟨by simpa [hs] using hno, hr⟩
      · refine .inr ⟨x :: l₁, a, l₂, rfl, by simpa [hs] using hno, ha, ?_⟩
        rw [hr, List.getLastD_cons]

/-! ### The heap -/

/-- **The heap of `mhysa.c`**: chunks that tile the memory obtained so far, each on the free list or held by the
program. -/
structure Heap (b₀ : ℕ) (s : Session) (cs : List Chunk) (fl : List ℕ) : Prop where
  pos : 0 < b₀
  top : s.sys.brk < TOP
  tiles : Tiles b₀ cs s.sys.brk
  room : ∀ c ∈ cs, s.room (c.addr + CHUNK) = c.room
  size : ∀ c ∈ cs, s.sys.size c.addr = int c.room
  chain : Chain s.sys s.sys.flist fl
  mine : ∀ a ∈ fl, ∃ c ∈ cs, c.addr = a
  live : ∀ b ∈ s.live, ∃ c ∈ cs, b.1 = c.addr + CHUNK ∧ b.2 ≤ c.room
  either : ∀ c ∈ cs, c.addr ∈ fl ∨ c.addr + CHUNK ∈ s.live.map Prod.fst
  never : ∀ c ∈ cs, c.addr ∈ fl → c.addr + CHUNK ∉ s.live.map Prod.fst
  once : (s.live.map Prod.fst).Nodup

namespace Heap

variable {b₀ : ℕ} {s : Session} {cs : List Chunk} {fl l₁ l₂ : List ℕ} {n p a : ℕ} {grant : Bool} {sys : Sys}

theorem start {mem : ℕ → Byte} (hb : 0 < b₀) (ht : b₀ < TOP) : Heap b₀ (Session.start mem b₀) [] [] :=
  ⟨hb, ht, rfl, by simp, by simp, rfl, by simp, by simp [Session.start], by simp, by simp, by simp [Session.start]⟩

theorem length_lt (h : Heap b₀ s cs fl) : fl.length < WALK := by
  have hsub : fl ⊆ List.range TOP := by
    intro a ha
    obtain ⟨c, hc, rfl⟩ := h.mine a ha
    have h1 := (h.tiles.bounds hc).2
    have h2 := h.top
    rw [c.fin_eq] at h1
    exact List.mem_range.mpr (by omega)
  have := (h.chain.nodup.subperm hsub).length_le
  rw [List.length_range] at this
  unfold WALK
  exact Nat.lt_succ_of_le this

/-- What `malloc` can do. -/
inductive Outcome (grant : Bool) (n : ℕ) (s : Sys) (fl : List ℕ) : ℕ → Sys → Prop
  | zero : n = 0 → Outcome grant n s fl NULL s
  | reuse {l₁ l₂ : List ℕ} {a : ℕ} : 0 < n → fl = l₁ ++ a :: l₂ → (∀ b ∈ l₁, ¬ s.Serves n b) → s.Serves n a →
      Outcome grant n s fl (a + CHUNK) (s.skip (l₁.getLastD NULL) (s.next a))
  | fresh {k : ℤ} : 0 < n → (∀ b ∈ fl, ¬ s.Serves n b) → k = intptr (sizeT (n + CHUNK)) →
      grant = true ∧ 0 ≤ s.brk + k ∧ s.brk + k < TOP →
      Outcome grant n s fl (s.brk + CHUNK)
        (Sys.setSize { s with brk := (s.brk + k).toNat, calls := s.calls + 1 } s.brk (int n))
  | refused : 0 < n → (∀ b ∈ fl, ¬ s.Serves n b) → (s.sbrk grant (intptr (sizeT (n + CHUNK)))).1 = Sys.FAILED →
      Outcome grant n s fl NULL { s with calls := s.calls + 1 }

/-- `malloc` returns, and this is what it does. -/
theorem malloc_spec (h : Heap b₀ s cs fl) (grant : Bool) (n : ℕ) :
    ∃ p sys, mhysa.malloc grant n s.sys = some (p, sys) ∧ Outcome grant n s.sys fl p sys := by
  unfold mhysa.malloc
  by_cases hn : n = 0
  · exact ⟨NULL, s.sys, if_pos hn, .zero hn⟩
  have hpos : 0 < n := Nat.pos_of_ne_zero hn
  rw [if_neg hn]
  rcases search_spec (n := n) NULL h.chain h.length_lt with ⟨hno, hr⟩ | ⟨l₁, a, l₂, rfl, hno, ha, hr⟩
  · by_cases hk : grant = true ∧ 0 ≤ s.sys.brk + intptr (sizeT (n + CHUNK)) ∧
        s.sys.brk + intptr (sizeT (n + CHUNK)) < TOP
    · refine ⟨_, _, ?_, .fresh hpos hno rfl hk⟩
      simp only [hr, Option.bind_eq_bind, Option.bind_some, ne_eq, not_true_eq_false, if_false,
        Sys.sbrk_granted hk, Sys.brk_ne_failed h.top]
      rfl
    · refine ⟨_, _, ?_, .refused hpos hno (congrArg Prod.fst (Sys.sbrk_refused hk))⟩
      simp only [hr, Option.bind_eq_bind, Option.bind_some, ne_eq, not_true_eq_false, if_false,
        Sys.sbrk_refused hk, if_true]
      rfl
  · refine ⟨_, _, ?_, .reuse hpos rfl hno ha⟩
    simp [hr]

/-! ### What keeps the heap -/

/-- Taking a chunk off the list leaves the headers of the others. -/
theorem skip_spec (h : Heap b₀ s cs (l₁ ++ a :: l₂)) (hsys : sys = s.sys.skip (l₁.getLastD NULL) (s.sys.next a)) :
    sys.brk = s.sys.brk ∧ (∀ c ∈ cs, sys.size c.addr = s.sys.size c.addr) ∧ Chain sys sys.flist (l₁ ++ l₂) := by
  have hq := h.chain
  rcases List.eq_nil_or_concat l₁ with rfl | ⟨l, w, rfl⟩
  · have hskip : s.sys.skip (([] : List ℕ).getLastD NULL) (s.sys.next a) = { s.sys with flist := s.sys.next a } := by
      simp [Sys.skip]
    rw [hskip] at hsys
    subst hsys
    exact ⟨rfl, fun _ _ => Sys.size_flist, hq.2.congr fun _ _ => congrArg ptr Sys.next_flist⟩
  · rw [List.concat_eq_append] at *
    obtain ⟨d, hd, rfl⟩ := h.mine w (by simp)
    have hw : d.addr ≠ NULL := Nat.ne_of_gt (lt_of_lt_of_le h.pos (h.tiles.bounds hd).1)
    have hskip : s.sys.skip ((l ++ [d.addr]).getLastD NULL) (s.sys.next a) = s.sys.setNext d.addr (s.sys.next a) := by
      rw [List.getLastD_concat, Sys.skip, if_pos hw]
    rw [hsys, hskip]
    simp only [List.append_assoc, List.singleton_append] at hq ⊢
    refine ⟨rfl, fun c hc => Sys.size_setNext ?_, hq.unlink ?_ fun b hb => ?_⟩
    · rcases h.tiles.headers hd hc with rfl | h | h
      · exact .inl rfl
      · exact .inr (.inl h)
      · exact .inr (.inr h)
    · have hset : (s.sys.setNext d.addr (s.sys.next a)).next d.addr = s.sys.next a := Sys.next_setNext Sys.next_lt
      exact congrArg ptr hset
    · have hne : b ≠ d.addr := by
        have hnd := hq.nodup
        rintro rfl
        simp only [List.nodup_append, List.nodup_cons, List.mem_cons, List.mem_append] at hnd hb
        rcases hb with hb | hb
        · exact hnd.2.2 _ hb _ (.inl rfl) rfl
        · exact hnd.2.1.1 (.inr hb)
      obtain ⟨c, hc, rfl⟩ := h.mine b (by
        simp only [List.mem_append, List.mem_cons] at hb ⊢
        tauto)
      refine congrArg ptr (Sys.next_setNext_ne ?_)
      rcases h.tiles.headers hd hc with rfl | h | h
      · exact absurd rfl hne
      · exact .inl h
      · exact .inr h

/-- A chunk taken off the list serves a request it has room for. -/
theorem reuse (h : Heap b₀ s cs (l₁ ++ a :: l₂)) (hroom : n ≤ s.room (a + CHUNK)) :
    Heap b₀ ⟨s.sys.skip (l₁.getLastD NULL) (s.sys.next a), (a + CHUNK, n) :: s.live, s.room⟩ cs (l₁ ++ l₂) := by
  obtain ⟨hbrk, hsize, hchain⟩ := h.skip_spec rfl
  have hsub : ∀ b ∈ l₁ ++ l₂, b ∈ l₁ ++ a :: l₂ := by
    intro b hb
    simp only [List.mem_append, List.mem_cons] at hb ⊢
    tauto
  have ha : a ∉ l₁ ++ l₂ := (List.nodup_middle.mp h.chain.nodup).notMem
  obtain ⟨d, hd, rfl⟩ := h.mine a (by simp)
  refine ⟨h.pos, ?_, ?_, h.room, fun c hc => (hsize c hc).trans (h.size c hc), hchain, fun b hb => h.mine b (hsub b hb),
    ?_, ?_, ?_, ?_⟩
  · simp only [hbrk]; exact h.top
  · simp only [hbrk]; exact h.tiles
  · intro b hb
    rcases List.mem_cons.mp hb with rfl | hb
    · exact ⟨d, hd, rfl, h.room d hd ▸ hroom⟩
    · exact h.live b hb
  · intro c hc
    by_cases hcd : c = d
    · exact .inr (by simp [hcd])
    rcases h.either c hc with hm | hm
    · refine .inl ?_
      have hne : c.addr ≠ d.addr := fun he => hcd (h.tiles.addr_inj hc hd he)
      simp only [List.mem_append, List.mem_cons] at hm ⊢
      tauto
    · exact .inr (List.mem_cons_of_mem _ hm)
  · intro c hc hm hl
    rcases List.mem_cons.mp hl with he | hl
    · have : c.addr = d.addr := Nat.add_right_cancel he
      exact ha (this ▸ hm)
    · exact h.never c hc (hsub _ hm) hl
  · exact List.nodup_cons.mpr ⟨h.never d hd (by simp), h.once⟩

theorem fresh (h : Heap b₀ s cs fl) (ht : s.sys.brk + CHUNK + n < TOP) {calls : ℕ} :
    Heap b₀ ⟨Sys.setSize { s.sys with brk := s.sys.brk + CHUNK + n, calls := calls } s.sys.brk (int n),
      (s.sys.brk + CHUNK, n) :: s.live, Function.update s.room (s.sys.brk + CHUNK) n⟩ (cs ++ [⟨s.sys.brk, n⟩]) fl := by
  -- the headers are below the break, so the new one reaches none of them
  have hlow : ∀ c ∈ cs, c.addr + 16 ≤ s.sys.brk := by
    intro c hc
    have := (h.tiles.bounds hc).2
    rw [c.fin_eq] at this
    omega
  have hne : ∀ c ∈ cs, c.addr + CHUNK ≠ s.sys.brk + CHUNK := by
    intro c hc he
    have h1 := hlow c hc
    have h2 : c.addr = s.sys.brk := Nat.add_right_cancel he
    omega
  have hfl : s.sys.brk ∉ fl := by
    intro hm
    obtain ⟨c, hc, he⟩ := h.mine _ hm
    exact hne c hc (congrArg (· + CHUNK) he)
  have hlv : s.sys.brk + CHUNK ∉ s.live.map Prod.fst := by
    intro hm
    obtain ⟨b, hb, he⟩ := List.mem_map.mp hm
    obtain ⟨c, hc, hbc, -⟩ := h.live b hb
    exact hne c hc (hbc.symm.trans he)
  refine ⟨h.pos, ht, h.tiles.snoc, ?_, ?_, ?_, ?_, ?_, ?_, ?_, List.nodup_cons.mpr ⟨hlv, h.once⟩⟩
  · intro c hc
    rcases List.mem_append.mp hc with hc | hc
    · exact (Function.update_of_ne (hne c hc) _ _).trans (h.room c hc)
    · obtain rfl := List.mem_singleton.mp hc
      exact Function.update_self _ _ _
  · intro c hc
    rcases List.mem_append.mp hc with hc | hc
    · exact (Sys.size_setSize_ne (.inr (hlow c hc))).trans (h.size c hc)
    · obtain rfl := List.mem_singleton.mp hc
      exact Sys.size_setSize.trans (int_int n)
  · refine h.chain.congr fun a ha => congrArg ptr ?_
    obtain ⟨c, hc, rfl⟩ := h.mine a ha
    exact Sys.next_setSize (.inr (.inr (hlow c hc)))
  · intro a ha
    obtain ⟨c, hc, rfl⟩ := h.mine a ha
    exact ⟨c, List.mem_append_left _ hc, rfl⟩
  · intro b hb
    rcases List.mem_cons.mp hb with rfl | hb
    · exact ⟨⟨s.sys.brk, n⟩, by simp, rfl, le_rfl⟩
    · obtain ⟨c, hc, hbc⟩ := h.live b hb
      exact ⟨c, List.mem_append_left _ hc, hbc⟩
  · intro c hc
    rcases List.mem_append.mp hc with hc | hc
    · exact (h.either c hc).imp_right (List.mem_cons_of_mem _)
    · obtain rfl := List.mem_singleton.mp hc
      exact .inr (by simp)
  · intro c hc hm hl
    rcases List.mem_append.mp hc with hc | hc
    · rcases List.mem_cons.mp hl with he | hl
      · exact hne c hc he
      · exact h.never c hc hm hl
    · obtain rfl := List.mem_singleton.mp hc
      exact hfl hm

/-- A chunk the program gives back goes to the front of the list. -/
theorem release (h : Heap b₀ s cs fl) (hp : p ∈ s.live.map Prod.fst) :
    ∃ a, p = a + CHUNK ∧
      Heap b₀ ⟨mhysa.free p s.sys, s.live.filter fun b => b.1 ≠ p, s.room⟩ cs (a :: fl) := by
  obtain ⟨b, hb, rfl⟩ := List.mem_map.mp hp
  obtain ⟨d, hd, hbd, -⟩ := h.live b hb
  have hfree : mhysa.free b.1 s.sys = { s.sys.setNext d.addr s.sys.flist with flist := d.addr } := by
    rw [hbd]
    exact if_pos (Nat.succ_ne_zero _)
  have hdfl : d.addr ∉ fl := fun hm => h.never d hd hm (hbd ▸ hp)
  -- the head of the list fits the field it is stored into
  have hlt : s.sys.flist < 2 ^ 64 := by
    rcases fl with - | ⟨a, l⟩
    · rw [ptr_none h.chain]
      exact Nat.two_pow_pos 64
    · obtain ⟨he, -⟩ := ptr_some h.chain.1
      obtain ⟨c, hc, hca⟩ := h.mine a (by simp)
      have h1 := (h.tiles.bounds hc).2
      have h2 := h.top
      rw [c.fin_eq] at h1
      simp only [TOP] at h2
      omega
  have hsame : ∀ c ∈ cs, d.addr = c.addr ∨ d.addr + 16 ≤ c.addr ∨ c.addr + 16 ≤ d.addr := fun c hc =>
    (h.tiles.headers hd hc).imp_left (congrArg Chunk.addr)
  -- the pointers that the program keeps
  have hgone : ∀ q, q ∈ (s.live.filter fun e => e.1 ≠ b.1).map Prod.fst ↔ q ∈ s.live.map Prod.fst ∧ q ≠ b.1 := by
    intro q
    simp only [List.mem_map, List.mem_filter, decide_eq_true_eq]
    constructor
    · rintro ⟨e, ⟨he, hne⟩, rfl⟩
      exact ⟨⟨e, he, rfl⟩, hne⟩
    · rintro ⟨⟨e, he, rfl⟩, hne⟩
      exact ⟨e, ⟨he, hne⟩, rfl⟩
  refine ⟨d.addr, hbd, ?_⟩
  rw [hfree]
  refine ⟨h.pos, h.top, h.tiles, h.room, fun c hc => (Sys.size_setNext (hsame c hc)).trans (h.size c hc),
    ?_, ?_, ?_, ?_, ?_, ?_⟩
  · -- the chunk stands in front of the list, which its store does not reach
    refine ⟨if_neg (Nat.ne_of_gt (lt_of_lt_of_le h.pos (h.tiles.bounds hd).1)), ?_⟩
    have hn : (Sys.setNext s.sys d.addr s.sys.flist).next d.addr = s.sys.flist := Sys.next_setNext hlt
    show IsQueue _ (ptr ((Sys.setNext s.sys d.addr s.sys.flist).next d.addr)) fl
    rw [hn]
    refine h.chain.congr fun a ha => congrArg ptr ?_
    obtain ⟨c, hc, rfl⟩ := h.mine a ha
    refine Sys.next_setNext_ne ((hsame c hc).resolve_left ?_)
    intro he
    exact hdfl (he ▸ ha)
  · intro a ha
    rcases List.mem_cons.mp ha with rfl | ha
    · exact ⟨d, hd, rfl⟩
    · exact h.mine a ha
  · exact fun e he => h.live e (List.mem_of_mem_filter he)
  · intro c hc
    by_cases hcd : c = d
    · exact .inl (by simp [hcd])
    refine (h.either c hc).imp (List.mem_cons_of_mem _) fun hm => (hgone _).mpr ⟨hm, ?_⟩
    rw [hbd]
    exact fun he => hcd (h.tiles.addr_inj hc hd (Nat.add_right_cancel he))
  · intro c hc hm hl
    obtain ⟨hl, hne⟩ := (hgone _).mp hl
    rcases List.mem_cons.mp hm with he | hm
    · exact hne (by rw [hbd, he])
    · exact h.never c hc hm hl
  · exact h.once.sublist (List.filter_sublist.map _)

/-- Freeing `NULL` changes nothing, freeing a block puts its chunk on the list. -/
theorem freed (h : Heap b₀ s cs fl) (hp : p = NULL ∨ p ∈ s.live.map Prod.fst) :
    ∃ fl', Heap b₀ ⟨mhysa.free p s.sys, s.live.filter fun b => b.1 ≠ p, s.room⟩ cs fl' := by
  by_cases hp0 : p = NULL
  · subst hp0
    have hkeep : s.live.filter (fun b => b.1 ≠ NULL) = s.live := by
      refine List.filter_eq_self.mpr fun b hb => ?_
      obtain ⟨c, hc, hbc, -⟩ := h.live b hb
      simp [hbc]
    rw [hkeep]
    exact ⟨fl, h⟩
  · obtain ⟨a, -, hh⟩ := h.release (hp.resolve_left hp0)
    exact ⟨a :: fl, hh⟩

/-- The number of calls of `sbrk` is not part of the heap. -/
theorem counted (h : Heap b₀ s cs fl) (calls : ℕ) :
    Heap b₀ { s with sys := { s.sys with calls := calls } } cs fl :=
  ⟨h.pos, h.top, h.tiles, h.room, h.size, h.chain, h.mine, h.live, h.either, h.never, h.once⟩

/-- What the program writes into its blocks reaches no header. -/
theorem write (h : Heap b₀ s cs fl) {x : ℕ} (hx : s.Payload x) (v : Byte) :
    Heap b₀ { s with sys := { s.sys with mem := Function.update s.sys.mem x v } } cs fl := by
  obtain ⟨b, hb, h1, h2⟩ := hx
  obtain ⟨c, hc, hbc, hroom⟩ := h.live b hb
  have hout : ∀ d ∈ cs, x < d.addr ∨ d.addr + 16 ≤ x := by
    intro d hd
    by_cases hcd : c = d
    · subst hcd
      simp only [CHUNK] at hbc
      omega
    · have := h.tiles.apart hc hd hcd
      rw [c.fin_eq, d.fin_eq] at this
      simp only [CHUNK] at hbc
      omega
  have hload : ∀ d ∈ cs, ∀ k w, k + w ≤ 16 →
      loadLE (Function.update s.sys.mem x v) (d.addr + k) w = loadLE s.sys.mem (d.addr + k) w := by
    intro d hd k w hk
    refine loadLE_congr fun y h1 h2 => Function.update_of_ne ?_ _ _
    have := hout d hd
    omega
  refine ⟨h.pos, h.top, h.tiles, h.room, fun d hd => ?_, h.chain.congr fun a ha => ?_, h.mine, h.live, h.either,
    h.never, h.once⟩
  · exact (congrArg int (congrArg Nat.cast (hload d hd 0 4 (by omega)))).trans (h.size d hd)
  · obtain ⟨d, hd, rfl⟩ := h.mine a ha
    exact congrArg ptr (hload d hd 8 8 (by omega))

end Heap

end Seminars.Mylloc
