import Seminars.Green.Epilogue
import Seminars.Green.Joiners

/-!
# Seminars.Green.Delivery — the result of `green_join`

`green_join` writes through `res` when the result is not null, and does not test `res`.  `delivers_iff` says when this
is right, for every call that returns, whether it was suspended or not.

* `collecting`: the call of `green_join` that a step ends.
* `JoinedOnce`: of a thread that is joined once at most, the context is still there when the joiner goes on;
  `JoinedOnce.step` is its step lemma.
* `joinEnd_spec`: what the end of `green_join` does with the result; `collecting_delivers`: when that is right, for one
  call in a state in which the context is still there.
-/

namespace Seminars.Green

open Seminars.Lib

/-- The call of `green_join` that ends in this step: the thread joined and where the result goes. -/
def collecting (s : Sched) : Act → Option (Tid × Option ℕ)
  | .join t res => if s.core.zombie t = true then some (t, res) else none
  | .resume =>
    match s.cpu.pc with
    | .join t res => some (t, res)
    | _ => none
  | _ => none

/-- The step returns with `v` in `*res`, if there is a place for it, and writes nothing else. -/
def Delivers (s : Sched) (act : Act) (res : Option ℕ) (v : ℕ) : Prop :=
  Runs (exec act) s fun _ s' => (∀ x, res = some x → s'.core.vars x = v) ∧
    ∀ y, res ≠ some y → s'.core.vars y = s.core.vars y

/-! ### Joined once -/

section Once

variable {a a' : Abs} {act : Act} {t j : Tid} {cs : List Tid}

/-- **The thread `t`, when `cs` are the threads joined so far**: not joined, its context is there and nobody waits for
it; joined once, its context is there as long as somebody does, and one does at most. -/
structure JoinedOnce (t : Tid) (cs : List Tid) (a : Abs) : Prop where
  fresh : t ∉ cs → a.freed t = false ∧ ∀ j res, Live a.core j → (a.ctx j).pc ≠ .join t res
  once : cs.count t ≤ 1 → ∀ j res, Live a.core j → (a.ctx j).pc = .join t res →
    a.freed t = false ∧ ∀ j' res', Live a.core j' → (a.ctx j').pc = .join t res' → j' = j

theorem JoinedOnce.mem (h : JoinedOnce t cs a) {res : Option ℕ} (hl : Live a.core j)
    (hpc : (a.ctx j).pc = .join t res) : t ∈ cs := by
  by_contra hno
  exact (h.fresh hno).2 j res hl hpc

/-- **The step lemma.** -/
theorem JoinedOnce.step (h : JoinedOnce t cs a) (ha : AInv a) (hen : enabled (a.ctx a.run) act)
    (hpr : proper a.core act) (hst : AStep a act a') : JoinedOnce t (cs ++ act.joined.toList) a' := by
  refine ⟨fun hno => ?_, fun hcount j res hl hpc => ?_⟩
  · obtain ⟨hcs, hact⟩ := not_or.mp fun hm => hno (List.mem_append.mpr hm)
    obtain ⟨hf, hw⟩ := h.fresh hcs
    refine ⟨Bool.eq_false_iff.mpr fun hf' => ?_, fun j res hl hpc => ?_⟩
    · rcases hst.freed hf' with hf' | ⟨res, rfl, -⟩ | ⟨-, res, hpc⟩
      · cases hf.symm.trans hf'
      · exact hact (by simp [Act.joined])
      · exact hw a.run res ha.live hpc
    · rcases hst.joining ha hen hpr hl hpc with ⟨-, hl, hpc⟩ | ⟨-, rfl, -⟩
      · exact hw j res hl hpc
      · exact hact (by simp [Act.joined])
  · rw [List.count_append] at hcount
    rcases hst.joining ha hen hpr hl hpc with ⟨hjr, hl, hpc⟩ | ⟨rfl, rfl, hz⟩
    · -- `j` waited before, so this step is no call for `t`
      have hpos := List.count_pos_iff.mpr (h.mem hl hpc)
      have hact : ∀ res', act ≠ .join t res' := by
        rintro res' rfl
        simp only [Act.joined, Option.toList_some, List.count_singleton_self] at hcount
        omega
      obtain ⟨hf, hone⟩ := h.once (by omega) j res hl hpc
      refine ⟨Bool.eq_false_iff.mpr fun hf' => ?_, fun j' res' hl' hpc' => ?_⟩
      · rcases hst.freed hf' with hf' | ⟨res', hact', -⟩ | ⟨-, res', hpc'⟩
        · cases hf.symm.trans hf'
        · exact hact res' hact'
        · exact hjr (hone a.run res' ha.live hpc').symm
      · rcases hst.joining ha hen hpr hl' hpc' with ⟨-, hl', hpc'⟩ | ⟨-, hact', -⟩
        · exact hone j' res' hl' hpc'
        · exact absurd hact' (hact res')
    · -- the running thread has just been suspended, so nobody had joined `t`
      have hcs : t ∉ cs := by
        intro hm
        have := List.count_pos_iff.mpr hm
        simp only [Act.joined, Option.toList_some, List.count_singleton_self] at hcount
        omega
      obtain ⟨hf, hw⟩ := h.fresh hcs
      refine ⟨Bool.eq_false_iff.mpr fun hf' => ?_, fun j' res' hl' hpc' => ?_⟩
      · rcases hst.freed hf' with hf' | ⟨_, -, hz'⟩ | ⟨hact, -⟩
        · cases hf.symm.trans hf'
        · cases hz.symm.trans hz'
        · cases hact
      · rcases hst.joining ha hen hpr hl' hpc' with ⟨-, hl', hpc'⟩ | ⟨hj', -, -⟩
        · exact absurd hpc' (hw j' res' hl')
        · exact hj'

end Once

/-! ### The end of `green_join` -/

section Collect

variable {s : Sched} {t : Tid} {res : Option ℕ} {act : Act}

/-- The last part of `green_join` frees the context. -/
theorem joinFree_spec (hctx : s.context t ≠ none) :
    Runs (do
      if (← get).context t = none then
        throw .freed
      else
        setContext t none
        leave) s (fun _ s' => s'.core = s.core) :=
  runs_bind (runs_get (runs_ite (fun h0 => absurd h0 hctx) fun _ => runs_bind (runs_modify (runs_modify rfl))))

/-- With its context still there, `green_join` stores a result that is not null, and nothing else. -/
theorem joinEnd_spec (hctx : s.context t ≠ none) (hres : s.core.retval t ≠ 0 → res ≠ none) :
    Runs (greenJoinEnd t res) s fun _ s' => s'.core.vars =
      if s.core.retval t ≠ 0 then Function.update s.core.vars (res.getD 0) (s.core.retval t) else s.core.vars := by
  unfold greenJoinEnd
  refine runs_bind (runs_get ?_)
  by_cases hv : s.core.retval t ≠ 0
  · obtain ⟨x, rfl⟩ := Option.ne_none_iff_exists'.mp (hres hv)
    rw [if_pos hv, if_pos hv]
    refine runs_bind (runs_pure (runs_bind (runs_modify (Runs.imp ?_ (joinFree_spec hctx)))))
    rintro - s' hcore
    rw [hcore]
    rfl
  · rw [if_neg hv, if_neg hv]
    refine Runs.imp ?_ (joinFree_spec hctx)
    rintro - s' hcore
    rw [hcore]

/-- A result that is not null and has no place goes through null. -/
theorem joinEnd_null (hv : s.core.retval t ≠ 0) : (greenJoinEnd t none).run s = .error .null := by
  unfold greenJoinEnd
  rw [run_bind_ok rfl, if_pos hv]
  rfl

/-- A step that ends a call of `green_join` runs the end of it, on a state that differs in the context only. -/
theorem collecting_run (hc : collecting s act = some (t, res)) :
    ∃ c, (exec act).run s = (greenJoinEnd t res).run { s with cpu := c } := by
  cases act with
  | join u r =>
    simp only [collecting] at hc
    split_ifs at hc with hz
    obtain ⟨rfl, rfl⟩ := Prod.mk.inj (Option.some.inj hc)
    refine ⟨{ s.cpu with blocked := true }, ?_⟩
    show (greenJoin u r).run s = _
    unfold greenJoin
    rw [run_bind_ok rfl, run_bind_ok rfl]
    show (if s.core.zombie u = false then _ else _ : M Unit).run _ = _
    rw [if_neg (by simp [hz])]
  | resume =>
    simp only [collecting] at hc
    split at hc
    · next hpc =>
      obtain ⟨rfl, rfl⟩ := Prod.mk.inj (Option.some.inj hc)
      refine ⟨s.cpu, ?_⟩
      show resume.run s = _
      unfold resume
      rw [run_bind_ok rfl, hpc]
    · exact absurd hc (by simp)
  | _ => exact absurd hc (by simp [collecting])

/-- When a call delivers the result, if the context of the thread joined is still there. -/
theorem collecting_delivers (hc : collecting s act = some (t, res)) (hctx : s.context t ≠ none) :
    Delivers s act res (s.core.retval t) ↔
      (s.core.retval t ≠ 0 → res ≠ none) ∧ (s.core.retval t = 0 → ∀ x, res = some x → s.core.vars x = 0) := by
  obtain ⟨c, hrun⟩ := collecting_run hc
  have hspec : (s.core.retval t ≠ 0 → res ≠ none) → Runs (exec act) s fun _ s' => s'.core.vars =
      if s.core.retval t ≠ 0 then Function.update s.core.vars (res.getD 0) (s.core.retval t) else s.core.vars := by
    intro hres
    obtain ⟨r, s', hr, hv⟩ := joinEnd_spec (s := { s with cpu := c }) hctx hres
    exact ⟨r, s', hrun.trans hr, hv⟩
  constructor
  · intro hd
    have hres : s.core.retval t ≠ 0 → res ≠ none := by
      rintro hv rfl
      obtain ⟨r, s', hr, -⟩ := hd
      rw [hrun, joinEnd_null (s := { s with cpu := c }) hv] at hr
      cases hr
    refine ⟨hres, fun hv x hx => ?_⟩
    obtain ⟨r, s', hr, hvars⟩ := hspec hres
    rw [if_neg (by simp [hv])] at hvars
    rw [← hvars, (hd.of_eq hr).1 x hx, hv]
  · rintro ⟨hres, hold⟩
    refine Runs.imp ?_ (hspec hres)
    rintro r s' hvars
    by_cases hv : s.core.retval t = 0
    · rw [if_neg (by simp [hv])] at hvars
      rw [hvars]
      exact ⟨fun x hx => (hold hv x hx).trans hv.symm, fun _ _ => rfl⟩
    · rw [if_pos hv] at hvars
      obtain ⟨x, rfl⟩ := Option.ne_none_iff_exists'.mp (hres hv)
      rw [hvars]
      refine ⟨fun y hy => ?_, fun y hy => Function.update_of_ne (fun e => hy (by rw [e]; rfl)) _ _⟩
      obtain rfl := Option.some.inj hy
      exact Function.update_self ..

/-- The thread joined has ended, and its context is there. -/
theorem JoinedOnce.collected {a : Abs} {cs : List Tid} (hj : JoinedOnce t cs a) (ha : Refines s a)
    (hpr : proper s.core act) (hc : collecting s act = some (t, res)) (hone : (cs ++ act.joined.toList).count t ≤ 1) :
    Ended a.core t ∧ a.freed t = false := by
  have hcore := ha.loaded.1.core
  rw [List.count_append] at hone
  cases act with
  | join u r =>
    -- the call is the first one
    simp only [collecting] at hc
    split_ifs at hc with hz
    obtain ⟨rfl, rfl⟩ := Prod.mk.inj (Option.some.inj hc)
    refine ⟨⟨hcore ▸ hpr, hcore ▸ hz⟩, (hj.fresh fun hm => ?_).1⟩
    have := List.count_pos_iff.mpr hm
    simp only [Act.joined, Option.toList_some, List.count_singleton_self] at hone
    omega
  | resume =>
    -- the call was suspended
    simp only [collecting] at hc
    split at hc
    · next hpc =>
      obtain ⟨rfl, rfl⟩ := Prod.mk.inj (Option.some.inj hc)
      rw [ha.loaded.2] at hpc
      refine ⟨?_, (hj.once (Nat.le_trans (Nat.le_add_right _ _) hone) a.run _ ha.inv.live hpc).1⟩
      rcases ha.inv.pc with hu | ⟨-, hs⟩
      · rw [hpc] at hu
        cases hu
      · rw [hpc] at hs
        exact hs
    · exact absurd hc (by simp)
  | _ => exact absurd hc (by simp [collecting])

end Collect

/-! ### Runs -/

section Runs

variable {s₀ s : Sched} {act : Act} {returned : Tid → Option ℕ} {t : Tid} {res : Option ℕ}
  {tr : List ((Sched × (Tid → Option ℕ)) × Act)}

/-- The threads joined in a run. -/
def callsOf (tr : List ((Sched × (Tid → Option ℕ)) × Act)) : List Tid := tr.filterMap fun x => x.2.joined

theorem callsOf_snoc {y : Sched × (Tid → Option ℕ)} :
    callsOf (tr ++ [(y, act)]) = callsOf tr ++ act.joined.toList := by
  cases h : act.joined <;> simp [callsOf, h]

theorem delivery_refines (h0 : s₀.Initial) (t : Tid)
    (hp : Path (withHistory Step results) (s₀, fun _ => none) tr (s, returned)) :
    ∃ a, Refines s a ∧ Kept a returned ∧ JoinedOnce t (callsOf tr) a := by
  generalize hx : (s, returned) = x at hp
  induction hp generalizing s returned with
  | nil =>
    obtain ⟨rfl, rfl⟩ := Prod.mk.inj hx
    refine ⟨_, initial_refines h0, fun u hu => ?_, fun _ => ⟨rfl, fun j r _ hpc => ?_⟩, fun _ j r _ hpc => ?_⟩
    · obtain rfl : u = mainGreen := by simpa [Sched.abs, h0.created] using hu.1
      cases h0.zombie.symm.trans hu.2
    · exact absurd hpc (by simp [Sched.abs, h0.cpu])
    · exact absurd hpc (by simp [Sched.abs, h0.cpu])
  | @snoc tr y z act _ hst ih =>
    obtain ⟨a, ha, hk, hj⟩ := ih rfl
    obtain ⟨hst, hret⟩ := hst
    obtain ⟨a', hst', ha'⟩ := step_refines ha hst
    have hen : enabled (a.ctx a.run) act := ha.loaded.2 ▸ hst.1
    have hpr : proper a.core act := ha.loaded.1.core ▸ hst.2.1
    subst hx
    rw [callsOf_snoc]
    refine ⟨a', ha', ?_, hj.step ha.inv hen hpr hst'⟩
    obtain rfl : returned = results y.1 act s y.2 := hret
    intro u hu
    rcases hst'.ended hu with ⟨hu, hval⟩ | ⟨v, rfl, rfl, hval⟩
    · rw [hval, ← hk u hu]
      cases act with
      | ret v =>
        have hur : u ≠ y.1.cpu.owner := fun e => ha.inv.live.not_ended (ha.owner ▸ e ▸ hu)
        exact Function.update_of_ne hur _ _
      | _ => rfl
    · rw [hval, ← ha.owner]
      exact Function.update_self ..

/-- **When `green_join` delivers the result** `v` of a thread it is the only joiner of: when `v` is not null and there
is a place for it, or `v` is null and so is what is in that place, if there is one. -/
theorem delivers_iff (h0 : s₀.Initial) (hp : Path (withHistory Step results) (s₀, fun _ => none) tr (s, returned))
    (hpr : proper s.core act) (hc : collecting s act = some (t, res))
    (hone : (callsOf (tr ++ [((s, returned), act)])).count t ≤ 1) :
    ∃ v, returned t = some v ∧
      (Delivers s act res v ↔ (v ≠ 0 → res ≠ none) ∧ (v = 0 → ∀ x, res = some x → s.core.vars x = 0)) := by
  obtain ⟨a, ha, hk, hj⟩ := delivery_refines h0 t hp
  rw [callsOf_snoc] at hone
  obtain ⟨hend, hfree⟩ := hj.collected ha hpr hc hone
  have hctx : s.context t ≠ none := by
    intro hno
    have hf := (ha.loaded.1.alloc t hend.1).mp hno
    exact Bool.false_ne_true (hfree.symm.trans hf)
  refine ⟨a.core.retval t, hk t hend, ?_⟩
  rw [← ha.loaded.1.core]
  exact collecting_delivers hc hctx

/-- `main` waits for thread 1, which yields and returns 5. -/
theorem delivers_iff_two : ∃ (tr : List ((Sched × (Tid → Option ℕ)) × Act)) (s : Sched) (returned : Tid → Option ℕ),
    Path (withHistory Step results) (Sched.start, fun _ => none) tr (s, returned) ∧
    collecting s .resume = some (1, some 0) ∧ ∃ v, returned 1 = some v ∧ (Delivers s .resume (some 0) v ↔
      (v ≠ 0 → some 0 ≠ none) ∧ (v = 0 → ∀ x, some 0 = some x → s.core.vars x = 0)) := by
  obtain ⟨tr, ⟨s, returned⟩, hp, htest⟩ := exists_path (recorded_step next_step results)
    (Sched.start, fun _ => none) [.create 1 1 0, .join 1 (some 0), .resume, .yield, .resume, .ret 5]
    (fun x => decide (x.2.1.cpu.pc = .join 1 (some 0) ∧
      (callsOf (x.1 ++ [((x.2.1, x.2.2), Act.resume)])).count 1 ≤ 1)) (by decide +kernel)
  obtain ⟨hpc, hone⟩ := of_decide_eq_true htest
  have hpc : s.cpu.pc = .join 1 (some 0) := hpc
  have hc : collecting s .resume = some (1, some 0) := by simp only [collecting, hpc]
  exact ⟨tr, s, returned, hp, hc, delivers_iff Sched.start_initial hp trivial hc hone⟩

/-- Thread 1 returns null; `main` finds what was in its variable before. -/
theorem delivers_fails : ¬ ∀ (s₀ s : Sched) (returned : Tid → Option ℕ) (tr : List ((Sched × (Tid → Option ℕ)) × Act))
    (act : Act) (t : Tid) (res : Option ℕ) (v : ℕ), s₀.Initial →
    Path (withHistory Step results) (s₀, fun _ => none) tr (s, returned) → enabled s.cpu act → proper s.core act →
    collecting s act = some (t, res) → (callsOf (tr ++ [((s, returned), act)])).count t ≤ 1 → returned t = some v →
    Delivers s act res v := by
  intro hall
  set s₀ : Sched := { Sched.start with core := { Sched.start.core with vars := fun _ => 7 } } with hs₀
  have h0 : s₀.Initial := ⟨rfl, rfl, rfl, by simp [hs₀, Sched.start], rfl, rfl, rfl, fun _ => rfl, fun _ => rfl⟩
  obtain ⟨tr, ⟨s, returned⟩, hp, htest⟩ := exists_path (recorded_step next_step results) (s₀, fun _ => none)
    [.create 1 1 0, .join 1 (some 0), .resume, .ret 0]
    (fun x => decide (x.2.1.cpu.pc = .join 1 (some 0) ∧ x.2.2 1 = some 0 ∧
        (callsOf (x.1 ++ [((x.2.1, x.2.2), Act.resume)])).count 1 ≤ 1) &&
      check (exec .resume) x.2.1 fun _ s' => decide (s'.core.vars 0 = 7)) (by decide +kernel)
  obtain ⟨htest, hold⟩ := Bool.and_eq_true_iff.mp htest
  obtain ⟨hpc, hret, hone⟩ := of_decide_eq_true htest
  have hpc : s.cpu.pc = .join 1 (some 0) := hpc
  have hc : collecting s .resume = some (1, some 0) := by simp only [collecting, hpc]
  have hen : enabled s.cpu .resume := by
    show s.cpu.pc ≠ .user
    rw [hpc]
    simp
  obtain ⟨r, s', hr, hvars⟩ := runs_of_check hold
  have hzero := ((hall s₀ s returned tr .resume 1 (some 0) 0 h0 hp hen trivial hc hone hret).of_eq hr).1 0 rfl
  rw [of_decide_eq_true hvars] at hzero
  cases hzero

end Runs

end Seminars.Green
