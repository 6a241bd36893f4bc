import Seminars.Lib.Path
import Seminars.Mylloc.Heap

/-!
# Seminars.Mylloc.Run — programs that use `mhysa.c` or `mylloc.c`

* `Heap.next` — one step of a program keeps the heap of `mhysa.c` when it meets `mhysa.Meets`.
* `mhysa_run` — **the heap invariant of `mhysa.c`** for requests that fit an `int`.
* `enough_run` — **what both allocators hand out is large enough and apart**, with the condition under which;
  `enough_fails` — without it they are not.
-/

namespace Seminars.Mylloc

open Seminars.Lib

/-! ### When a request is served -/

/-- The chunk taken off the free list was obtained for at least `n` bytes; if there is none, the increment for `sbrk`
is positive as an `intptr_t`, or `sbrk` refuses it. -/
def mhysa.Meets (s : Session) : Act → Prop
  | .malloc n grant =>
    match s.sys.firstFit n WALK s.sys.flist with
    | some a => n ≤ s.room (a + CHUNK)
    | none => n + CHUNK < 2 ^ 63 ∨ (s.sys.sbrk grant (intptr (sizeT (n + CHUNK)))).1 = Sys.FAILED
  | _ => True

/-- The increment for `sbrk` is not negative as an `intptr_t`, or `sbrk` refuses it. -/
def mylloc.Meets (s : Session) : Act → Prop
  | .malloc n grant => n < 2 ^ 63 ∨ (s.sys.sbrk grant (intptr n)).1 = Sys.FAILED
  | _ => True

/-- The two allocators. -/
inductive Version
  | mhysa | mylloc

def Version.allocator : Version → Allocator
  | .mhysa => Mylloc.mhysa
  | .mylloc => Mylloc.mylloc

def Version.Meets : Version → Session → Act → Prop
  | .mhysa => mhysa.Meets
  | .mylloc => mylloc.Meets

/-- The blocks the program holds lie between the initial and the current break and do not overlap. -/
structure Safe (b₀ : ℕ) (s : Session) : Prop where
  within : ∀ b ∈ s.live, b₀ ≤ b.1 ∧ b.1 + b.2 ≤ s.sys.brk
  apart : s.live.Pairwise fun b c => b.1 + b.2 ≤ c.1 ∨ c.1 + c.2 ≤ b.1

variable {b₀ : ℕ} {s s' : Session} {cs : List Chunk} {fl : List ℕ} {act : Act}

/-! ### Steps -/

theorem Allocator.exists_path (A : Allocator) (s : Session) (acts : List Act)
    (P : List (Session × Act) × Session → Bool) (h : (play A.next s acts).any P = true) :
    ∃ tr u, Path A.Step s tr u ∧ P (tr, u) = true :=
  Lib.exists_path (fun _ _ _ hn => hn) s acts P h

section Step

variable {A : Allocator} {grant : Bool} {n p x : ℕ} {v : Byte} {sys : Sys}

theorem Allocator.step_malloc (h : A.Step s (.malloc n grant) s') :
    ∃ p sys, A.malloc grant n s.sys = some (p, sys) ∧ s' = s.served n p sys := by
  simp only [Allocator.Step, Allocator.next, Option.ite_none_right_eq_some, Option.map_eq_some_iff] at h
  obtain ⟨-, ⟨p, sys⟩, hrun, rfl⟩ := h
  exact ⟨p, sys, hrun, rfl⟩

theorem Allocator.step_free (h : A.Step s (.free p) s') :
    (p = NULL ∨ p ∈ s.live.map Prod.fst) ∧ s' = ⟨A.free p s.sys, s.live.filter fun b => b.1 ≠ p, s.room⟩ := by
  simp only [Allocator.Step, Allocator.next, Option.ite_none_right_eq_some, Option.some.injEq] at h
  exact ⟨h.1, h.2.symm⟩

theorem Allocator.step_write (h : A.Step s (.write x v) s') :
    s.Payload x ∧ s' = { s with sys := { s.sys with mem := Function.update s.sys.mem x v } } := by
  simp only [Allocator.Step, Allocator.next, Option.ite_none_right_eq_some, Option.some.injEq] at h
  exact ⟨h.1, h.2.symm⟩

theorem Session.served_null : s.served n NULL sys = ⟨sys, s.live, s.room⟩ := by
  simp [Session.served]

theorem Session.served_listed (hp : p ≠ NULL) (hc : sys.calls = s.sys.calls) :
    s.served n p sys = ⟨sys, (p, n) :: s.live, s.room⟩ := by
  simp [Session.served, hp, hc]

theorem Session.served_fresh (hp : p ≠ NULL) (hc : sys.calls ≠ s.sys.calls) :
    s.served n p sys = ⟨sys, (p, n) :: s.live, Function.update s.room p n⟩ := by
  simp [Session.served, hp, hc]

end Step

/-! ### `mhysa.c` -/

namespace Heap

theorem safe (h : Heap b₀ s cs fl) : Safe b₀ s := by
  constructor
  · intro b hb
    obtain ⟨c, hc, hbc, hroom⟩ := h.live b hb
    have := h.tiles.bounds hc
    rw [c.fin_eq] at this
    simp only [CHUNK] at hbc
    omega
  · refine (List.pairwise_map.mp h.once).imp_of_mem fun {b b'} hb hb' hne => ?_
    obtain ⟨c, hc, hbc, hroom⟩ := h.live b hb
    obtain ⟨c', hc', hbc', hroom'⟩ := h.live b' hb'
    have := h.tiles.apart hc hc' (by rintro rfl; exact hne (hbc.trans hbc'.symm))
    rw [c.fin_eq, c'.fin_eq] at this
    simp only [CHUNK] at hbc hbc'
    omega

/-- The increment for `sbrk` when the request is below half the address space. -/
theorem increment {n : ℕ} (hn : n + CHUNK < 2 ^ 63) : intptr (sizeT (n + CHUNK)) = ((n + CHUNK : ℕ) : ℤ) := by
  have h1 : sizeT ((n : ℤ) + (CHUNK : ℕ)) = n + CHUNK := by
    rw [← Nat.cast_add]
    exact sizeT_eq (by omega)
  rw [h1, intptr_eq (by omega)]

/-- **A request that meets the condition keeps the heap.** -/
theorem malloc {grant : Bool} {n p : ℕ} {sys : Sys} (h : Heap b₀ s cs fl) (hout : Outcome grant n s.sys fl p sys)
    (hm : mhysa.Meets s (.malloc n grant)) : ∃ cs' fl', Heap b₀ (s.served n p sys) cs' fl' := by
  have hfit := firstFit_eq (n := n) h.chain h.length_lt
  simp only [mhysa.Meets, hfit] at hm
  rcases hout with hz | ⟨hpos, rfl, hno, ha⟩ | ⟨hpos, hno, hke, hk⟩ | ⟨hpos, hno, hk⟩
  · rw [Session.served_null]
    exact ⟨cs, fl, h⟩
  · rename_i l₁ l₂ a
    have hfind : (l₁ ++ a :: l₂).find? (fun a => s.sys.Serves n a) = some a :=
      List.find?_eq_some_iff_append.mpr ⟨by simpa using ha, l₁, l₂, rfl, by simpa using hno⟩
    rw [hfind] at hm
    have hcalls : (s.sys.skip (l₁.getLastD NULL) (s.sys.next a)).calls = s.sys.calls := by
      unfold Sys.skip
      split_ifs <;> rfl
    rw [Session.served_listed (payload_ne_null _) hcalls]
    exact ⟨cs, _, h.reuse hm⟩
  · have hfind : fl.find? (fun a => s.sys.Serves n a) = none := List.find?_eq_none.mpr (by simpa using hno)
    rw [hfind] at hm
    have hn : n + CHUNK < 2 ^ 63 := by
      refine hm.resolve_right fun hf => ?_
      rw [Sys.sbrk_granted (hke ▸ hk)] at hf
      exact Sys.brk_ne_failed h.top hf
    rw [increment hn] at hke
    subst hke
    have hb : ((s.sys.brk : ℤ) + ((n + CHUNK : ℕ) : ℤ)).toNat = s.sys.brk + CHUNK + n := by omega
    rw [Session.served_fresh (payload_ne_null _) (Nat.succ_ne_self _), hb]
    exact ⟨_, _, h.fresh (by omega)⟩
  · rw [Session.served_null]
    exact ⟨cs, fl, h.counted _⟩

/-- **One step of a program.** -/
theorem next (h : Heap b₀ s cs fl) (hst : mhysa.Step s act s') (hm : mhysa.Meets s act) :
    ∃ cs' fl', Heap b₀ s' cs' fl' := by
  rcases act with ⟨n, grant⟩ | p | ⟨x, v⟩
  · obtain ⟨p, sys, hrun, rfl⟩ := Allocator.step_malloc hst
    obtain ⟨p', sys', hrun', hout⟩ := h.malloc_spec grant n
    obtain ⟨rfl, rfl⟩ := Prod.mk.inj (Option.some.inj (hrun.symm.trans hrun'))
    exact h.malloc hout hm
  · obtain ⟨hp, rfl⟩ := Allocator.step_free hst
    obtain ⟨fl', hh⟩ := h.freed hp
    exact ⟨cs, fl', hh⟩
  · obtain ⟨hx, rfl⟩ := Allocator.step_write hst
    exact ⟨cs, fl, h.write hx v⟩

end Heap

/-- A request that fits an `int` meets the condition: its chunk has recorded what it has room for. -/
theorem Heap.meets (h : Heap b₀ s cs fl) (hint : ∀ c ∈ cs, c.room < 2 ^ 31)
    (hn : ∀ n grant, act = .malloc n grant → n < 2 ^ 31) : mhysa.Meets s act := by
  rcases act with ⟨n, grant⟩ | p | ⟨x, v⟩
  · have hn := hn n grant rfl
    have hfit := firstFit_eq (n := n) h.chain h.length_lt
    simp only [mhysa.Meets, hfit]
    split
    · rename_i a ha
      obtain ⟨c, hc, rfl⟩ := h.mine a (List.mem_of_find?_eq_some ha)
      have hs := List.find?_some ha
      simp only [decide_eq_true_eq, Sys.Serves, h.size c hc] at hs
      have hroom := hint c hc
      rw [int_eq (by omega), sizeT_eq (by omega)] at hs
      rw [h.room c hc]
      exact hs
    · exact .inl (by simp only [CHUNK]; omega)
  · trivial
  · trivial

/-- The memory obtained so far was obtained for the requests of the program. -/
theorem Allocator.room_lt {A : Allocator} {k : ℕ} (hst : A.Step s act s') (hroom : ∀ p, s.room p < k)
    (hn : ∀ n grant, act = .malloc n grant → n < k) (p : ℕ) : s'.room p < k := by
  rcases act with ⟨n, grant⟩ | q | ⟨x, v⟩
  · obtain ⟨q, sys, -, rfl⟩ := Allocator.step_malloc hst
    unfold Session.served
    dsimp only
    split_ifs
    · exact hroom p
    · by_cases hp : p = q
      · rw [hp, Function.update_self]
        exact hn n grant rfl
      · rw [Function.update_of_ne hp]
        exact hroom p
  · obtain ⟨-, rfl⟩ := Allocator.step_free hst
    exact hroom p
  · obtain ⟨-, rfl⟩ := Allocator.step_write hst
    exact hroom p

/-- Nothing is allocated at the start of a run whose break is a real address. -/
theorem run_heap {mem : ℕ → Byte} (hb : 0 < b₀) (ht : b₀ < TOP) {tr : List (Session × Act)}
    (h : Path mhysa.Step (Session.start mem b₀) tr s)
    (hn : ∀ x ∈ tr, ∀ n grant, x.2 = .malloc n grant → n < 2 ^ 31) :
    (∃ cs fl, Heap b₀ s cs fl) ∧ ∀ p, s.room p < 2 ^ 31 := by
  refine h.invariant (I := fun s => (∃ cs fl, Heap b₀ s cs fl) ∧ ∀ p, s.room p < 2 ^ 31)
    ⟨⟨[], [], .start hb ht⟩, fun _ => Nat.two_pow_pos 31⟩ fun t act t' hx hi hst => ?_
  obtain ⟨⟨cs, fl, hh⟩, hroom⟩ := hi
  have hn' := hn _ hx
  refine ⟨hh.next hst (hh.meets (fun c hc => ?_) hn'), Allocator.room_lt hst hroom hn'⟩
  rw [← hh.room c hc]
  exact hroom _

/-- What the heap of `mhysa.c` is to be: chunks of 16 header bytes and `size` payload bytes that tile the memory
obtained so far, a finite list without repetition, each chunk on it or live and never both, live payloads that are
large enough and apart from all headers and all other chunks. -/
structure Intact (b₀ : ℕ) (s : Session) (cs : List Chunk) (fl : List ℕ) : Prop where
  tiles : Tiles b₀ cs s.sys.brk
  size : ∀ c ∈ cs, s.sys.size c.addr = c.room
  chain : Chain s.sys s.sys.flist fl
  nodup : fl.Nodup
  mine : ∀ a ∈ fl, ∃ c ∈ cs, c.addr = a
  either : ∀ c ∈ cs, Xor (c.addr ∈ fl) (c.addr + CHUNK ∈ s.live.map Prod.fst)
  live : ∀ b ∈ s.live, ∃ c ∈ cs, b.1 = c.addr + CHUNK ∧ b.2 ≤ c.room
  once : (s.live.map Prod.fst).Nodup
  apart : ∀ c ∈ cs, c.addr + CHUNK ∈ s.live.map Prod.fst → ∀ x, c.addr + CHUNK ≤ x → x < c.fin →
    ∀ d ∈ cs, ¬ (d.addr ≤ x ∧ x < d.addr + CHUNK) ∧ (d ≠ c → ¬ (d.addr ≤ x ∧ x < d.fin))

theorem Heap.intact (h : Heap b₀ s cs fl) (hroom : ∀ p, s.room p < 2 ^ 31) : Intact b₀ s cs fl := by
  refine ⟨h.tiles, fun c hc => ?_, h.chain, h.chain.nodup, h.mine, fun c hc => ?_, h.live, h.once, ?_⟩
  · have := hroom (c.addr + CHUNK)
    rw [h.room c hc] at this
    rw [h.size c hc, int_eq (by omega)]
  · rcases h.either c hc with hm | hm
    · exact .inl ⟨hm, h.never c hc hm⟩
    · exact .inr ⟨hm, fun hf => h.never c hc hf hm⟩
  · intro c hc _ x h1 h2 d hd
    by_cases hdc : d = c
    · subst hdc
      exact ⟨by omega, fun hne => absurd rfl hne⟩
    · have := h.tiles.apart hd hc hdc
      rw [c.fin_eq] at h2 this
      rw [d.fin_eq] at this ⊢
      simp only [CHUNK] at h1 ⊢
      omega

/-- **The heap invariant of `mhysa.c`.**  In every state of every run whose requests fit an `int`: the heap is intact;
and the next `malloc` returns, it calls `sbrk` only if no chunk on `flist` is large enough, and if it returns `NULL` it
has changed neither memory, break nor `flist`. -/
theorem mhysa_run (mem : ℕ → Byte) (b₀ : ℕ) (hb : 0 < b₀) (ht : b₀ < TOP) (tr : List (Session × Act)) (s : Session)
    (h : Path mhysa.Step (Session.start mem b₀) tr s)
    (hn : ∀ x ∈ tr, ∀ n grant, x.2 = .malloc n grant → n ≤ 2 ^ 31 - 1) :
    ∃ cs fl, Intact b₀ s cs fl ∧ ∀ n grant, n ≤ 2 ^ 31 - 1 →
      ∃ p sys, mhysa.malloc grant n s.sys = some (p, sys) ∧
        (sys.calls ≠ s.sys.calls → ∀ a ∈ fl, s.sys.size a < n) ∧
        (p = NULL → sys.mem = s.sys.mem ∧ sys.brk = s.sys.brk ∧ sys.flist = s.sys.flist) := by
  have hn' : ∀ x ∈ tr, ∀ n grant, x.2 = .malloc n grant → n < 2 ^ 31 := by
    intro x hx n grant he
    have := hn x hx n grant he
    omega
  obtain ⟨⟨cs, fl, hh⟩, hroom⟩ := run_heap hb ht h hn'
  have hi := hh.intact hroom
  refine ⟨cs, fl, hi, fun n grant hn => ?_⟩
  obtain ⟨p, sys, hrun, hout⟩ := hh.malloc_spec grant n
  -- a chunk that `malloc` passed over is smaller than the request, not only by the `int` comparison
  have hsmall : (∀ a ∈ fl, ¬ s.sys.Serves n a) → ∀ a ∈ fl, s.sys.size a < n := by
    intro hno a ha
    obtain ⟨c, hc, rfl⟩ := hi.mine a ha
    have hs := hno _ ha
    have hr := hroom (c.addr + CHUNK)
    rw [hh.room c hc] at hr
    rw [Sys.Serves, hi.size c hc, sizeT_eq (by omega)] at hs
    rw [hi.size c hc]
    omega
  refine ⟨p, sys, hrun, ?_, ?_⟩
  · intro hcalls
    -- zero, a chunk taken, a chunk made, a refusal: only the last two call `sbrk`
    rcases hout with hz | ⟨hpos, rfl, hno, ha⟩ | ⟨hpos, hno, hke, hk⟩ | ⟨hpos, hno, hk⟩
    · exact absurd rfl hcalls
    · refine absurd ?_ hcalls
      unfold Sys.skip
      split_ifs <;> rfl
    · exact hsmall hno
    · exact hsmall hno
  · intro hp
    -- only the first and the last return `NULL`
    rcases hout with hz | ⟨hpos, rfl, hno, ha⟩ | ⟨hpos, hno, hke, hk⟩ | ⟨hpos, hno, hk⟩
    · exact ⟨rfl, rfl, rfl⟩
    · exact absurd hp (payload_ne_null _)
    · exact absurd hp (payload_ne_null _)
    · exact ⟨rfl, rfl, rfl⟩

/-- Two blocks, the first freed and used again for a smaller request, and a request that the kernel refuses. -/
theorem mhysa_run_four : ∃ tr s, Path mhysa.Step (Session.start (fun _ => 0) 4096) tr s ∧
    s.live = [(4112, 10), (4152, 8)] ∧
    ∃ cs fl, Intact 4096 s cs fl ∧ ∀ n grant, n ≤ 2 ^ 31 - 1 →
      ∃ p sys, mhysa.malloc grant n s.sys = some (p, sys) ∧
        (sys.calls ≠ s.sys.calls → ∀ a ∈ fl, s.sys.size a < n) ∧
        (p = NULL → sys.mem = s.sys.mem ∧ sys.brk = s.sys.brk ∧ sys.flist = s.sys.flist) := by
  obtain ⟨tr, s, hp, hd⟩ := Mylloc.mhysa.exists_path (Session.start (fun _ => 0) 4096)
    [.malloc 24 true, .malloc 8 true, .free 4112, .malloc 10 true, .malloc 100 false]
    (fun x => decide (x.2.live = [(4112, 10), (4152, 8)]) &&
      x.1.all fun y => match y.2 with | .malloc n _ => decide (n ≤ 2 ^ 31 - 1) | _ => true) (by decide +kernel)
  simp only [Bool.and_eq_true, decide_eq_true_eq, List.all_eq_true] at hd
  refine ⟨tr, s, hp, hd.1, mhysa_run (fun _ => 0) 4096 (by decide) (by decide) tr s hp fun x hx n grant he => ?_⟩
  have := hd.2 x hx
  rw [he] at this
  simpa using this

/-! ### `mylloc.c` -/

/-- The blocks handed out by `mylloc.c` lie one behind the other below the break. -/
structure Bump (b₀ : ℕ) (s : Session) : Prop where
  pos : 0 < b₀
  low : b₀ ≤ s.sys.brk
  top : s.sys.brk < TOP
  safe : Safe b₀ s

theorem Bump.next (h : Bump b₀ s) (hst : mylloc.Step s act s') (hm : mylloc.Meets s act) : Bump b₀ s' := by
  rcases act with ⟨n, grant⟩ | p | ⟨x, v⟩
  · obtain ⟨p, sys, hrun, rfl⟩ := Allocator.step_malloc hst
    simp only [mylloc, mylloc.malloc] at hrun
    by_cases hn : n = 0
    · rw [if_pos hn] at hrun
      obtain ⟨rfl, rfl⟩ := Prod.mk.inj (Option.some.inj hrun)
      rw [Session.served_null]
      exact ⟨h.pos, h.low, h.top, h.safe.within, h.safe.apart⟩
    rw [if_neg hn] at hrun
    by_cases hk : grant = true ∧ 0 ≤ s.sys.brk + intptr n ∧ s.sys.brk + intptr n < TOP
    · -- the condition of the step: a negative increment would lower the break
      have hn63 : n < 2 ^ 63 := by
        refine hm.resolve_right fun hf => ?_
        rw [Sys.sbrk_granted hk] at hf
        exact Sys.brk_ne_failed h.top hf
      have hi : intptr n = n := intptr_eq (by omega)
      simp only [Sys.sbrk_granted hk, Sys.brk_ne_failed h.top, if_false] at hrun
      obtain ⟨rfl, rfl⟩ := Prod.mk.inj (Option.some.inj hrun)
      have hlow := h.low
      have hpos := h.pos
      rw [Session.served_fresh (by simp only [NULL]; omega) (Nat.succ_ne_self _), hi]
      rw [hi] at hk
      have hb : ((s.sys.brk : ℤ) + n).toNat = s.sys.brk + n := by omega
      rw [hb]
      -- the new block ends at the new break, the others below the old one
      refine ⟨h.pos, by dsimp only; omega, by dsimp only; omega, ⟨?_, ?_⟩⟩
      · intro b hbl
        rcases List.mem_cons.mp hbl with rfl | hbl
        · exact ⟨h.low, le_rfl⟩
        · obtain ⟨h1, h2⟩ := h.safe.within b hbl
          exact ⟨h1, by dsimp only; omega⟩
      · exact List.pairwise_cons.mpr ⟨fun b hbl => .inr (h.safe.within b hbl).2, h.safe.apart⟩
    · simp only [Sys.sbrk_refused hk, if_true] at hrun
      obtain ⟨rfl, rfl⟩ := Prod.mk.inj (Option.some.inj hrun)
      rw [Session.served_null]
      exact ⟨h.pos, h.low, h.top, h.safe.within, h.safe.apart⟩
  · obtain ⟨-, rfl⟩ := Allocator.step_free hst
    exact ⟨h.pos, h.low, h.top, fun b hb => h.safe.within b (List.mem_of_mem_filter hb),
      h.safe.apart.sublist List.filter_sublist⟩
  · obtain ⟨-, rfl⟩ := Allocator.step_write hst
    exact ⟨h.pos, h.low, h.top, h.safe.within, h.safe.apart⟩

/-! ### Both allocators -/

/-- **What `malloc` returns is large enough.**  In every run of either allocator whose steps meet the condition, the
blocks the program holds lie between the initial and the current break and do not overlap, in every state. -/
theorem enough_run (v : Version) (mem : ℕ → Byte) (b₀ : ℕ) (hb : 0 < b₀) (ht : b₀ < TOP) (tr : List (Session × Act))
    (s : Session) (h : Path v.allocator.Step (Session.start mem b₀) tr s) (hm : ∀ x ∈ tr, v.Meets x.1 x.2) :
    Safe b₀ s := by
  cases v with
  | mhysa =>
    have hinv : ∃ cs fl, Heap b₀ s cs fl :=
      h.invariant (I := fun s => ∃ cs fl, Heap b₀ s cs fl) ⟨[], [], .start hb ht⟩ fun _ _ _ hx hi hst => by
        obtain ⟨cs, fl, hh⟩ := hi
        exact hh.next hst (hm _ hx)
    obtain ⟨cs, fl, hh⟩ := hinv
    exact hh.safe
  | mylloc =>
    have hstart : Bump b₀ (Session.start mem b₀) :=
      ⟨hb, le_rfl, ht, by simp [Session.start], by simp [Session.start]⟩
    exact (h.invariant hstart fun _ _ _ hx hi hst => hi.next hst (hm _ hx)).safe

instance (s : Session) (act : Act) : Decidable (mhysa.Meets s act) :=
  match act with
  | .malloc n grant =>
    match hf : s.sys.firstFit n WALK s.sys.flist with
    | some a => decidable_of_iff (n ≤ s.room (a + CHUNK)) (by simp only [mhysa.Meets, hf])
    | none =>
      decidable_of_iff (n + CHUNK < 2 ^ 63 ∨ (s.sys.sbrk grant (intptr (sizeT (n + CHUNK)))).1 = Sys.FAILED)
        (by simp only [mhysa.Meets, hf])
  | .free _ => .isTrue trivial
  | .write _ _ => .isTrue trivial

/-- A chunk obtained for `2 ^ 31` bytes, whose `size` is negative, serves a smaller request after it is freed. -/
theorem enough_run_reuse : ∃ tr s, Path mhysa.Step (Session.start (fun _ => 0) 4096) tr s ∧
    s.live = [(4112, 2 ^ 20)] ∧ Safe 4096 s := by
  obtain ⟨tr, s, hp, hd⟩ := Mylloc.mhysa.exists_path (Session.start (fun _ => 0) 4096)
    [.malloc (2 ^ 31) true, .free 4112, .malloc (2 ^ 20) true]
    (fun x => decide (x.2.live = [(4112, 2 ^ 20)]) && x.1.all fun y => decide (mhysa.Meets y.1 y.2))
    (by decide +kernel)
  simp only [Bool.and_eq_true, decide_eq_true_eq, List.all_eq_true] at hd
  exact ⟨tr, s, hp, hd.1, enough_run .mhysa (fun _ => 0) 4096 (by decide) (by decide) tr s hp hd.2⟩

theorem Safe.any_above (h : Safe b₀ s) : (s.live.any fun b => decide (s.sys.brk < b.1 + b.2)) = false := by
  refine Bool.eq_false_iff.mpr fun ha => ?_
  obtain ⟨b, hb, hlt⟩ := List.any_eq_true.mp ha
  have := (h.within b hb).2
  have hlt := of_decide_eq_true hlt
  omega

/-- Without the condition neither allocator is safe.  `mhysa.c`: the chunk obtained for `2 ^ 31` bytes has a negative
`size`, which is huge as a `size_t`, so after `free` it serves a request of `2 ^ 32` bytes, half of it above the break.
`mylloc.c`: the request `2 ^ 64 - 1` lowers the break by one byte. -/
theorem enough_fails :
    (¬ ∀ tr s, Path mhysa.Step (Session.start (fun _ => 0) 4096) tr s → Safe 4096 s) ∧
    (¬ ∀ tr s, Path mylloc.Step (Session.start (fun _ => 0) 4096) tr s → Safe 4096 s) := by
  constructor
  · intro hall
    obtain ⟨tr, s, hp, hbad⟩ := Mylloc.mhysa.exists_path (Session.start (fun _ => 0) 4096)
      [.malloc (2 ^ 31) true, .free 4112, .malloc (2 ^ 32) true]
      (fun x => x.2.live.any fun b => decide (x.2.sys.brk < b.1 + b.2)) (by decide +kernel)
    exact Bool.false_ne_true ((hall tr s hp).any_above.symm.trans hbad)
  · intro hall
    obtain ⟨tr, s, hp, hbad⟩ := Mylloc.mylloc.exists_path (Session.start (fun _ => 0) 4096)
      [.malloc (2 ^ 64 - 1) true]
      (fun x => x.2.live.any fun b => decide (x.2.sys.brk < b.1 + b.2)) (by decide +kernel)
    exact Bool.false_ne_true ((hall tr s hp).any_above.symm.trans hbad)

end Seminars.Mylloc
