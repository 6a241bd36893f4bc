import Seminars.Green.Client

/-!
# Seminars.Green.ClientRun — checked programs go on and end

* `Inv`: the invariant; every thread's list suits what the thread has locked and created.  `Inv.step` is its step
  lemma.
* `Inv.can_go`: the program goes on until `main` has ended.
* `client_total`: so `main` ends, whatever the timer does.
-/

namespace Seminars.Green

open Seminars.Lib

/-- Only `green_create` and `green_join` write the field `join` of a thread. -/
theorem AStep.join_eq {a a' : Abs} {act : Act} {u : Tid} (hst : AStep a act a')
    (hcr : ∀ fn arg, act ≠ .create u fn arg) (hj : ∀ res, act ≠ .join u res) : a'.core.join u = a.core.join u := by
  rw [hst.core]
  cases act with
  | create new fn arg =>
    have hne : u ≠ new := by
      rintro rfl
      exact hcr fn arg rfl
    simp [Abs.coreAfter, Core.init, hne]
  | join t res =>
    have hne : u ≠ t := by
      rintro rfl
      exact hj res rfl
    simp only [Abs.coreAfter]
    split_ifs
    · simp [Core.setJoin, hne]
    · rw [Abs.collect_join]
  | condWait c m => cases m <;> rfl
  | lock m | unlock m =>
    simp only [Abs.coreAfter]
    split_ifs <;> rfl
  | resume =>
    simp only [Abs.coreAfter]
    split
    · rw [Abs.collect_join]
    · split_ifs <;> rfl
    · rfl
  | _ => rfl

/-- The call of `green_join` whose result this step stores. -/
def Abs.collects (a : Abs) : Act → Option (Tid × Option ℕ)
  | .join t res => if a.core.zombie t = true then some (t, res) else none
  | .resume =>
    match (a.ctx a.run).pc with
    | .join t res => some (t, res)
    | _ => none
  | _ => none

theorem AStep.vars {a a' : Abs} {act : Act} (hst : AStep a act a') : a'.core.vars =
    match a.collects act with
    | some (t, res) =>
      if a.core.retval t ≠ 0 then Function.update a.core.vars (res.getD 0) (a.core.retval t) else a.core.vars
    | none => a.core.vars := by
  have hcollect : ∀ t res, (a.collect t res).core.vars =
      if a.core.retval t ≠ 0 then Function.update a.core.vars (res.getD 0) (a.core.retval t) else a.core.vars := by
    intro t res
    simp only [Abs.collect]
    split_ifs <;> rfl
  rw [hst.core]
  cases act with
  | join t res =>
    simp only [Abs.coreAfter, Abs.collects]
    by_cases hz : a.core.zombie t = true
    · rw [if_neg (by simp [hz]), if_pos hz]
      exact hcollect t res
    · rw [if_pos (by simpa using hz), if_neg hz]
      rfl
  | condWait c m => cases m <;> rfl
  | lock m | unlock m =>
    simp only [Abs.coreAfter, Abs.collects]
    split_ifs <;> rfl
  | resume =>
    simp only [Abs.coreAfter, Abs.collects]
    cases hp : (a.ctx a.run).pc with
    | join t res => exact hcollect t res
    | wait c m =>
      cases m with
      | none => rfl
      | some m =>
        simp only
        split_ifs <;> rfl
    | _ => rfl
  | _ => rfl

namespace Client

/-- The operations that `t` has left. -/
def Local.rest (code : Tid → Fun α) (t : Tid) : Local α → List (Op α)
  | .enter => (code t).ops
  | .runs _ left => left

/-- `t` has called `green_mutex_lock` for `m`, and not yet `green_mutex_unlock`. -/
def Has (a : Abs) (bs : ℕ → Book) (t : Tid) (m : ℕ) : Prop := t ∈ (bs m).holds ∨ (a.ctx t).pc = .lock m

/-- `t` has created `u`, and not joined it yet. -/
structure Kid (code : Tid → Fun α) (a : Abs) (t u : Tid) : Prop where
  mem : u ∈ creates (code t).ops
  created : u ∈ a.core.created
  alone : a.core.join u = none
  kept : a.freed u = false
  apart : ∀ res, (a.ctx t).pc ≠ .join u res

/-- When `t` calls `green_join(&u, res)`, there is a place for the result, and it is one of those of `t`. -/
def Stores (code : Tid → Fun α) (t u : Tid) (res : Option ℕ) : Prop :=
  ((code u).value ≠ 0 → res ≠ none) ∧ ∀ p ∈ res, (u, p) ∈ places (code t).ops

/-- **What `t` has left suits what it has done.** -/
structure Sound (N K : ℕ) (level : ℕ → ℕ) (rank : Tid → ℕ) (code : Tid → Fun α) (a : Abs) (bs : ℕ → Book) (t : Tid)
    (l : Local α) (held : List ℕ) (kids : List Tid) : Prop where
  check : Check N K level rank code t held kids (l.rest code t)
  nodup : held.Nodup
  once : kids.Nodup
  has : ∀ m, m ∈ held ↔ m < N ∧ Has a bs t m
  kid : ∀ u ∈ kids, Kid code a t u

/-- **The invariant.** -/
structure Inv (N K : ℕ) (level : ℕ → ℕ) (rank : Tid → ℕ) (code : Tid → Fun α) (a : Abs) (bs : ℕ → Book)
    (v : Config Tid (Log α) (Local α)) : Prop where
  stand : (client code).Stand (sites code) a v
  orderly : Orderly N a bs
  climb : Climb N level rank a bs
  small : ∀ t ∈ a.core.created, t < K
  main : v.thread mainGreen ≠ .enter
  self : ∀ t x l, v.thread t = .runs x l → x = t
  arg : ∀ t ∈ a.core.created, t ≠ mainGreen → a.core.arg t = t
  suffix : ∀ t, (v.thread t).rest code t <:+ (code t).ops
  fresh : ∀ t < K, ∀ u ∈ creates ((v.thread t).rest code t), u ∉ a.core.created
  sound : ∀ t, Live a.core t → ∃ held kids, Sound N K level rank code a bs t (v.thread t) held kids
  waits : ∀ t, Live a.core t → ∀ u res, (a.ctx t).pc = .join u res →
    u ∈ creates (code t).ops ∧ a.freed u = false ∧ Stores code t u res
  locks : ∀ t, Live a.core t → ∀ m, (a.ctx t).pc = .lock m → .lock m :: (v.thread t).rest code t <:+ (code t).ops
  joined : ∀ t ∈ a.core.created, ∀ u ∈ joins (code t).ops, u ∈ joins ((v.thread t).rest code t) ∨
    (∃ res, (a.ctx t).pc = .join u res) ∨ Ended a.core u
  stored : ∀ t ∈ a.core.created, ∀ x ∈ places (code t).ops, (code x.1).value ≠ 0 →
    x ∈ places ((v.thread t).rest code t) ∨ (a.ctx t).pc = .join x.1 (some x.2) ∨ a.core.vars x.2 = (code x.1).value

variable {N K : ℕ} {level : ℕ → ℕ} {rank : Tid → ℕ} {code : Tid → Fun α} {a a' : Abs} {bs : ℕ → Book}
  {v v' : Config Tid (Log α) (Local α)} {act : Act} {m : ℕ} {t u : Tid} {held : List ℕ} {kids : List Tid}

/-! ### The lists -/

theorem Check.of_creates {l : List (Op α)} (h : Check N K level rank code t held kids l) (hu : u ∈ creates l) :
    u < K ∧ rank t < rank u := by
  induction l generalizing held kids with
  | nil => exact absurd hu (by simp [creates])
  | cons op l ih =>
    cases op with
    | create w =>
      rcases List.mem_cons.mp hu with rfl | hu
      · exact h.1
      · exact ih h.2 hu
    | join w res => exact ih h.2 hu
    | lock x => exact ih h.2 hu
    | unlock x => exact ih h.2 hu
    | yield | compute => exact ih h hu

theorem Inv.mem (h : Inv N K level rank code a bs v) (hu : u ∈ creates ((v.thread t).rest code t)) :
    u ∈ creates (code t).ops :=
  ((h.suffix t).filterMap _).subset hu

/-! ### One step -/

theorem Kid.step (hk : Kid code a t u) (hst : AStep a act a') (hpr : proper a.core act) (hj : ∀ res, act ≠ .join u res)
    (hr : act = .resume → ∀ res, (a.ctx a.run).pc ≠ .join u res) (hpc : ∀ res, (a'.ctx t).pc ≠ .join u res) :
    Kid code a' t u := by
  refine ⟨hk.mem, hst.created_mono hk.created, ?_, ?_, hpc⟩
  · rw [hst.join_eq (fun fn arg e => ?_) hj]
    · exact hk.alone
    · subst e
      exact hpr hk.created
  · by_contra hf
    rcases hst.freed (Bool.eq_true_of_not_eq_false hf) with hf | ⟨res, e, -⟩ | ⟨e, res, hp⟩
    · cases hk.kept.symm.trans hf
    · exact hj res e
    · exact hr e res hp

theorem has_other (hst : AStep a act a') (hpr : proper a.core act) (hc : t ∈ a.core.created) (ht : t ≠ a.run) :
    Has a' (a.noteAll act a' bs) t m ↔ Has a bs t m := by
  rw [Has, Has, hst.ctx hpr hc ht]
  exact or_congr_left (Book.note_other ht)

/-- The code of the library goes on, or is entered by the timer. -/
theorem has_goOn (hst : AStep a act a') (hi : AInv a) (hen : enabled (a.ctx a.run) act)
    (hact : act = .timer ∨ act = .resume) {l : Local α} (hfit : Fits l (a.ctx a.run).pc) :
    Has a' (a.noteAll act a' bs) a.run m ↔ Has a bs a.run m := by
  have hpr : proper a.core act := by rcases hact with rfl | rfl <;> trivial
  have hlands := hst.lands hi hen hpr
  have hsame : (∀ x, (a.ctx a.run).pc ≠ .lock x) → (∀ x, (a'.ctx a.run).pc ≠ .lock x) →
      a.note m act a' (bs m) = bs m → (Has a' (a.noteAll act a' bs) a.run m ↔ Has a bs a.run m) := by
    intro h h' hb
    simp only [Has, Abs.noteAll, hb, h, h', or_false]
  rcases hact with rfl | rfl
  · have hpc : (a.ctx a.run).pc = .user := hen.1
    exact hsame (by simp [hpc]) (by simp [show (a'.ctx a.run).pc = .yield none from hlands]) rfl
  · have hpc' : (a'.ctx a.run).pc = .user := by
      refine hlands.resolve_right ?_
      rintro ⟨c, x, hw, -⟩
      rw [hw] at hfit
      exact hfit
    cases hst with
    | resumeStart hp _ | resumeYield hp | resumeJoin hp _ =>
      exact hsame (by simp [hp]) (by simp [hpc']) (by simp [Abs.note, Book.note, hp])
    | resumeWait hp | resumeTake hp _ | resumeRewait hp _ _ =>
      rw [hp] at hfit
      exact hfit.elim
    | @resumeLocked x hp =>
      have hback : (a.leave.ctx a.leave.run).pc = .user := by simp [Abs.leave, Abs.onCtx]
      rcases hp with hp | hp <;> rw [hp] at hfit
      · exact hfit.elim
      · by_cases hx : x = m
        · subst hx
          refine iff_of_true (.inl ?_) (.inr hp)
          simp [Abs.noteAll, Abs.note, Book.note, hp, hback, Book.take, Book.get]
        · have hb : a.note m .resume a.leave (bs m) = bs m := by simp [Abs.note, Book.note, hp, hx]
          simp [Has, Abs.noteAll, hb, hp, hpc', hx]

/-- A call of the library. -/
theorem has_call (hpc : (a.ctx a.run).pc = .user) (hlock : ∀ x, act ≠ .lock x)
    (hunlock : ∀ x, act ≠ .unlock x) (hres : act ≠ .resume) (hwait : ∀ c x, act ≠ .condWait c x)
    (hlands : Lands (a.ctx a.run).pc act (a'.ctx a.run).pc) :
    Has a' (a.noteAll act a' bs) a.run m ↔ Has a bs a.run m := by
  have hpc' : (a'.ctx a.run).pc ≠ .lock m := by
    intro hp
    rw [hp] at hlands
    cases act with
    | lock x => exact hlock x rfl
    | join w res => rcases hlands with e | e <;> cases e
    | ret w => cases hpc.symm.trans (show Pc.lock m = (a.ctx a.run).pc from hlands).symm
    | resume => exact hres rfl
    | _ => cases hlands
  have hb : a.note m act a' (bs m) = bs m := by
    cases act with
    | lock x => exact absurd rfl (hlock x)
    | unlock x => exact absurd rfl (hunlock x)
    | resume => exact absurd rfl hres
    | condWait c x => exact absurd rfl (hwait c x)
    | _ => rfl
  simp [Has, Abs.noteAll, hb, hpc, hpc']

theorem has_lock {x : ℕ} (hst : AStep a (.lock x) a') (hi : AInv a) (hpc : (a.ctx a.run).pc = .user) :
    Has a' (a.noteAll (.lock x) a' bs) a.run m ↔ m = x ∨ Has a bs a.run m := by
  have hold : Has a bs a.run m ↔ a.run ∈ (bs m).holds := by simp [Has, hpc]
  rw [hold]
  cases hst with
  | lockFree htk =>
    have hpc' : (((a.setTaken x true).mask false).ctx a.run).pc = .user := by
      simpa [Abs.mask, Abs.onCtx, Abs.setTaken] using hpc
    have hpc'' : (((a.setTaken x true).mask false).ctx ((a.setTaken x true).mask false).run).pc = .user := hpc'
    by_cases hx : x = m
    · subst hx
      simp [Has, Abs.noteAll, Abs.note, Book.note, hpc', hpc'', Book.get, Book.take]
    · simp [Has, Abs.noteAll, Abs.note, Book.note, hpc', hx, Ne.symm hx]
  | lockWait htk hn =>
    have hback := (hi.stopPush (q := .mutex x) (.inl rfl)).next_pc hn
    have hpc' : (a'.ctx a.run).pc = .lock x := by
      rw [hn.ctx]
      simp [Abs.push, Abs.stop, Abs.onCtx]
    by_cases hx : x = m
    · subst hx
      simp [Has, hpc']
    · simp [Has, Abs.noteAll, Abs.note, Book.note, hpc', hx, Ne.symm hx]

theorem has_unlock {x : ℕ} (hst : AStep a (.unlock x) a') (hi : AInv a) (hen : (a.ctx a.run).pc = .user)
    (ht : Tokens x a (bs x)) (hmem : a.run ∈ (bs x).holds) :
    Has a' (a.noteAll (.unlock x) a' bs) a.run m ↔ Has a bs a.run m ∧ m ≠ x := by
  have hpc' : (a'.ctx a.run).pc = .user := hst.lands hi hen trivial
  have hone := (ht.holder ⟨a.run, hmem, rfl⟩).1
  by_cases hx : x = m
  · subst hx
    simp [Has, hpc', Abs.noteAll, Abs.note, Book.note, Book.pass, Book.release, hone]
  · simp [Has, hpc', hen, Abs.noteAll, Abs.note, Book.note, hx, Ne.symm hx]

/-- What a step of the running thread must say about its own list. -/
structure Own (N K : ℕ) (level : ℕ → ℕ) (rank : Tid → ℕ) (code : Tid → Fun α) (a : Abs) (act : Act) (a' : Abs)
    (bs : ℕ → Book) (l l' : Local α) : Prop where
  enter : l = .enter ↔ l' = .enter
  self : ∀ x left, l' = .runs x left → x = a.run
  suffix : l'.rest code a.run <:+ l.rest code a.run
  new : creates (l.rest code a.run) = act.creates ++ creates (l'.rest code a.run)
  args : ∀ w fn arg, act = .create w fn arg → arg = w
  joins : ∀ w res, act = .join w res → w ∈ creates (code a.run).ops ∧ Stores code a.run w res
  sound : Live a'.core a.run → ∃ held kids, Sound N K level rank code a' (a.noteAll act a' bs) a.run l' held kids
  waits : ∀ w res, (a'.ctx a.run).pc = .join w res →
    w ∈ creates (code a.run).ops ∧ a'.freed w = false ∧ Stores code a.run w res
  locks : ∀ m, (a'.ctx a.run).pc = .lock m → .lock m :: l'.rest code a.run <:+ (code a.run).ops
  joined : ∀ w ∈ Client.joins (l.rest code a.run), w ∈ Client.joins (l'.rest code a.run) ∨
    (∃ res, (a'.ctx a.run).pc = .join w res) ∨ Ended a'.core w
  stored : ∀ x ∈ places (l.rest code a.run), x ∈ places (l'.rest code a.run) ∨
    (a'.ctx a.run).pc = .join x.1 (some x.2) ∨ a.collects act = some (x.1, some x.2)

/-- **A step of the running thread**, seen from the others. -/
structure Moves (N K : ℕ) (level : ℕ → ℕ) (rank : Tid → ℕ) (code : Tid → Fun α) (a : Abs) (act : Act) (a' : Abs)
    (bs : ℕ → Book) (v v' : Config Tid (Log α) (Local α)) : Prop where
  step : AStep a act a'
  enabled : enabled (a.ctx a.run) act
  proper : proper a.core act
  stand : (client code).Stand (sites code) a' v'
  other : ∀ t, t ≠ a.run → v'.thread t = v.thread t
  tidy : Tidy N a.core (some a.run) bs act
  climbs : Climbs N level rank a.core (some a.run) bs act
  own : Own N K level rank code a act a' bs (v.thread a.run) (v'.thread a.run)

/-- A thread that has ended has come to the end of its list. -/
theorem Inv.ended (h : Inv N K level rank code a bs v) (hz : Ended a.core u) :
    v.thread u = .runs u [] ∧ a.core.retval u = (code u).value := by
  have hcall : call code (v.thread u) = some (.ret (a.core.retval u)) := h.stand.ended u hz
  rcases call_cases hcall with ⟨self, op, rest, -, hop⟩ | ⟨self, hl, -, hop⟩
  · cases op <;> cases hop
  · obtain rfl := h.self u self [] hl
    exact ⟨hl, Act.ret.inj hop⟩

section Moves

variable (hm : Moves N K level rank code a act a' bs v v')

include hm

/-- The running thread stores the result of a thread that has ended, where it may. -/
theorem Inv.collects (h : Inv N K level rank code a bs v) (hi : AInv a) {res : Option ℕ}
    (hcol : a.collects act = some (u, res)) : Ended a.core u ∧ Stores code a.run u res := by
  have hpr := hm.proper
  have hjoins := hm.own.joins
  cases act with
  | join w r =>
    simp only [Abs.collects] at hcol
    split_ifs at hcol with hz
    obtain ⟨hw, hr⟩ := Prod.mk.inj (Option.some.inj hcol)
    subst hw hr
    exact ⟨⟨hpr, hz⟩, (hjoins _ _ rfl).2⟩
  | resume =>
    simp only [Abs.collects] at hcol
    split at hcol
    · next w r hp =>
      obtain ⟨hw, hr⟩ := Prod.mk.inj (Option.some.inj hcol)
      subst hw hr
      have hs := (hi.pc.resolve_left (by rw [hp]; simp)).2
      rw [hp] at hs
      exact ⟨hs, (h.waits a.run hi.live _ _ hp).2.2⟩
    · cases hcol
  | _ => cases hcol

/-- **The results.**  A result that is stored stays, for no other is stored there. -/
theorem Inv.vars (h : Inv N K level rank code a bs v) (hc : Checked N K level rank code) (hi : AInv a)
    (ht : t < K) {x : Tid × ℕ} (hx : x ∈ places (code t).ops) (hne : (code x.1).value ≠ 0)
    (hold : a.core.vars x.2 = (code x.1).value ∨ a.collects act = some (x.1, some x.2)) :
    a'.core.vars x.2 = (code x.1).value := by
  rw [hm.step.vars]
  rcases hcol : a.collects act with _ | ⟨u, res⟩
  · exact hold.resolve_right (by simp [hcol])
  obtain ⟨hend, hres, hplace⟩ := h.collects hm hi hcol
  simp only [(h.ended hend).2]
  by_cases hu : (code u).value ≠ 0
  · obtain ⟨p, rfl⟩ := Option.ne_none_iff_exists'.mp (hres hu)
    rw [if_pos hu]
    by_cases hp : x.2 = p
    · have hux : x.1 = u := hc.apart t ht a.run (h.small _ hi.live.1) x hx (u, p) (hplace p rfl) hp
      rw [hux, hp]
      exact Function.update_self ..
    · refine (Function.update_of_ne hp _ _).trans (hold.resolve_right ?_)
      rw [hcol]
      intro e
      cases e
      exact hp rfl
  · rw [if_neg hu]
    refine hold.resolve_right ?_
    rw [hcol]
    intro e
    cases e
    exact hu hne

theorem Inv.new_mem (h : Inv N K level rank code a bs v) (hu : u ∈ act.creates) : u ∈ creates (code a.run).ops := by
  refine h.mem ?_
  rw [hm.own.new]
  exact List.mem_append_left _ hu

/-- A new thread is before its function, and one of the numbers. -/
theorem Inv.spawned (h : Inv N K level rank code a bs v) (hc : Checked N K level rank code) (hi : AInv a)
    (ht : t ∈ a'.core.created) (hold : t ∉ a.core.created) : t ≠ a.run ∧ t < K ∧ (a'.ctx t).pc = .start ∧
      v.thread t = .enter := by
  have htr : t ≠ a.run := fun e => hold (e ▸ hi.live.1)
  refine ⟨htr, ?_, by rw [hm.step.spawned ht hold htr], h.stand.fresh t hold⟩
  rw [hm.step.created] at ht
  have hnew := h.new_mem hm ((List.mem_append.mp ht).resolve_right hold)
  exact ((hc.each a.run (h.small a.run hi.live.1)).of_creates hnew).1

/-- What the running thread does to the threads it joins is not done to another's. -/
theorem Inv.not_joined (h : Inv N K level rank code a bs v) (hc : Checked N K level rank code) (hi : AInv a)
    (htK : t < K) (ht : t ≠ a.run) (hu : u ∈ creates (code t).ops) : (∀ res, act ≠ .join u res) ∧
      (act = .resume → ∀ res, (a.ctx a.run).pc ≠ .join u res) := by
  have hrunK := h.small a.run hi.live.1
  refine ⟨fun res e => ht (hc.parent t htK a.run hrunK u hu (hm.own.joins u res e).1), fun _ res hp => ?_⟩
  exact ht (hc.parent t htK a.run hrunK u hu (h.waits a.run hi.live u res hp).1)

theorem Inv.arg_step (h : Inv N K level rank code a bs v) (ht : t ∈ a'.core.created) (htm : t ≠ mainGreen) :
    a'.core.arg t = t := by
  have hpr := hm.proper
  have hargs := hm.own.args
  by_cases hold : t ∈ a.core.created
  · rw [hm.step.arg fun fn arg hcr => absurd hold (hcr ▸ hpr : Green.proper a.core (.create t fn arg))]
    exact h.arg t hold htm
  · rw [hm.step.created] at ht
    have hnew := (List.mem_append.mp ht).resolve_right hold
    rw [hm.step.core]
    cases act with
    | create w fn arg =>
      obtain rfl := List.mem_singleton.mp hnew
      rw [hargs t fn arg rfl]
      simp [Abs.coreAfter, Core.init]
    | _ => exact absurd hnew (by simp [Act.creates])

theorem Inv.fresh_step (h : Inv N K level rank code a bs v) (hc : Checked N K level rank code) (hi : AInv a)
    (htK : t < K) (hu : u ∈ creates ((v'.thread t).rest code t)) : u ∉ a'.core.created := by
  rw [hm.step.created, List.mem_append, not_or]
  by_cases htr : t = a.run
  · subst htr
    have hnodup : (creates ((v.thread a.run).rest code a.run)).Nodup :=
      (hc.once a.run htK).sublist ((h.suffix a.run).filterMap _).sublist
    rw [hm.own.new] at hnodup
    refine ⟨fun hx => (List.nodup_append.mp hnodup).2.2 u hx u hu rfl, h.fresh a.run htK u ?_⟩
    rw [hm.own.new]
    exact List.mem_append_right _ hu
  · rw [hm.other t htr] at hu
    have hrunK := h.small a.run hi.live.1
    exact ⟨fun hx => htr (hc.parent t htK a.run hrunK u (h.mem hu) (h.new_mem hm hx)), h.fresh t htK u hu⟩

theorem Inv.sound_step (h : Inv N K level rank code a bs v) (hc : Checked N K level rank code) (hi : AInv a)
    (ht : Live a'.core t) :
    ∃ held kids, Sound N K level rank code a' (a.noteAll act a' bs) t (v'.thread t) held kids := by
  by_cases htr : t = a.run
  · subst htr
    exact hm.own.sound ht
  rw [hm.other t htr]
  by_cases hold : t ∈ a.core.created
  · obtain ⟨held, kids, hs⟩ := h.sound t (hm.step.live hm.proper hold ht)
    refine ⟨held, kids, hs.check, hs.nodup, hs.once, fun m => ?_, fun w hw => ?_⟩
    · rw [hs.has m, has_other hm.step hm.proper hold htr]
    · have hk := hs.kid w hw
      obtain ⟨hj, hr⟩ := h.not_joined hm hc hi (h.small t hold) htr hk.mem
      refine hk.step hm.step hm.proper hj hr ?_
      rw [hm.step.ctx hm.proper hold htr]
      exact hk.apart
  · obtain ⟨-, htK, hpc, hfresh⟩ := h.spawned hm hc hi ht.1 hold
    refine ⟨[], [], ?_, List.nodup_nil, List.nodup_nil, fun m => ?_, fun w hw => absurd hw (by simp)⟩
    · rw [hfresh]
      exact hc.each t htK
    · refine iff_of_false (by simp) ?_
      rintro ⟨hm', hh | hp⟩
      · exact hold (h.orderly.holds m hm' t ((Book.note_other htr).mp hh)).1
      · cases hpc.symm.trans hp

theorem Inv.waits_step (h : Inv N K level rank code a bs v) (hc : Checked N K level rank code) (hi : AInv a)
    (ht : Live a'.core t) {res : Option ℕ} (hp : (a'.ctx t).pc = .join u res) :
    u ∈ creates (code t).ops ∧ a'.freed u = false ∧ Stores code t u res := by
  by_cases htr : t = a.run
  · subst htr
    exact hm.own.waits u res hp
  by_cases hold : t ∈ a.core.created
  · rw [hm.step.ctx hm.proper hold htr] at hp
    obtain ⟨hu, hf, hres⟩ := h.waits t (hm.step.live hm.proper hold ht) u res hp
    refine ⟨hu, ?_, hres⟩
    obtain ⟨hj, hr⟩ := h.not_joined hm hc hi (h.small t hold) htr hu
    by_contra hf'
    rcases hm.step.freed (Bool.eq_true_of_not_eq_false hf') with hx | ⟨r, e, -⟩ | ⟨e, r, hx⟩
    · cases hf.symm.trans hx
    · exact hj r e
    · exact hr e r hx
  · cases (h.spawned hm hc hi ht.1 hold).2.2.1.symm.trans hp

theorem Inv.locks_step (h : Inv N K level rank code a bs v) (hc : Checked N K level rank code) (hi : AInv a)
    (ht : Live a'.core t) (hp : (a'.ctx t).pc = .lock m) :
    .lock m :: (v'.thread t).rest code t <:+ (code t).ops := by
  by_cases htr : t = a.run
  · subst htr
    exact hm.own.locks m hp
  rw [hm.other t htr]
  by_cases hold : t ∈ a.core.created
  · rw [hm.step.ctx hm.proper hold htr] at hp
    exact h.locks t (hm.step.live hm.proper hold ht) m hp
  · cases (h.spawned hm hc hi ht.1 hold).2.2.1.symm.trans hp

theorem Inv.joined_step (h : Inv N K level rank code a bs v) (hc : Checked N K level rank code) (hi : AInv a)
    (ht : t ∈ a'.core.created) (hu : u ∈ joins (code t).ops) : u ∈ joins ((v'.thread t).rest code t) ∨
      (∃ res, (a'.ctx t).pc = .join u res) ∨ Ended a'.core u := by
  by_cases htr : t = a.run
  · subst htr
    rcases h.joined _ hi.live.1 u hu with hw | ⟨res, hp⟩ | he
    · exact hm.own.joined u hw
    · -- a thread that goes on after `green_join` runs because the other has ended
      have hs := (hi.pc.resolve_left (by rw [hp]; simp)).2
      rw [hp] at hs
      exact .inr (.inr (hm.step.ended_mono hm.proper hs))
    · exact .inr (.inr (hm.step.ended_mono hm.proper he))
  rw [hm.other _ htr]
  by_cases hold : t ∈ a.core.created
  · rw [hm.step.ctx hm.proper hold htr]
    exact (h.joined t hold u hu).imp_right (.imp_right (hm.step.ended_mono hm.proper))
  · rw [(h.spawned hm hc hi ht hold).2.2.2]
    exact .inl hu

theorem Inv.stored_step (h : Inv N K level rank code a bs v) (hc : Checked N K level rank code) (hi : AInv a)
    (ht : t ∈ a'.core.created) {x : Tid × ℕ} (hx : x ∈ places (code t).ops) (hne : (code x.1).value ≠ 0) :
    x ∈ places ((v'.thread t).rest code t) ∨ (a'.ctx t).pc = .join x.1 (some x.2) ∨
      a'.core.vars x.2 = (code x.1).value := by
  by_cases hold : t ∈ a.core.created
  · have hvars := h.vars hm hc hi (h.small t hold) hx hne
    by_cases htr : t = a.run
    · subst htr
      rcases h.stored _ hold x hx hne with hr | hp | hv
      · exact (hm.own.stored x hr).imp_right (.imp_right fun hcol => hvars (.inr hcol))
      · -- `green_join` goes on
        have hen := hm.enabled
        refine .inr (.inr (hvars (.inr ?_)))
        cases act with
        | resume => simp only [Abs.collects, hp]
        | timer | ret _ => cases hp.symm.trans hen.1
        | _ => cases hp.symm.trans hen
      · exact .inr (.inr (hvars (.inl hv)))
    · rw [hm.other t htr, hm.step.ctx hm.proper hold htr]
      exact (h.stored t hold x hx hne).imp_right (.imp_right fun hv => hvars (.inl hv))
  · obtain ⟨htr, -, -, hfresh⟩ := h.spawned hm hc hi ht hold
    rw [hm.other t htr, hfresh]
    exact .inl hx

/-- **The invariant goes on** when the running thread's list still suits what it has done. -/
theorem Inv.acts (h : Inv N K level rank code a bs v) (hc : Checked N K level rank code) (hi : AInv a) :
    Inv N K level rank code a' (a.noteAll act a' bs) v' := by
  refine ⟨hm.stand, h.orderly.step hi hm.enabled hm.proper hm.step hm.tidy,
    h.climb.step h.orderly hi hm.proper hm.step hm.climbs, fun t ht => ?_, ?_, fun t x l hl => ?_,
    fun t ht htm => h.arg_step hm ht htm, fun t => ?_, fun t htK u hu => h.fresh_step hm hc hi htK hu,
    fun t ht => h.sound_step hm hc hi ht, fun t ht u res hp => h.waits_step hm hc hi ht hp,
    fun t ht m hp => h.locks_step hm hc hi ht hp, fun t ht u hu => h.joined_step hm hc hi ht hu,
    fun t ht x hx hne => h.stored_step hm hc hi ht hx hne⟩
  · by_cases hold : t ∈ a.core.created
    · exact h.small t hold
    · exact (h.spawned hm hc hi ht hold).2.1
  · by_cases hmr : mainGreen = a.run
    · rw [hmr]
      exact hm.own.enter.not.mp (hmr ▸ h.main)
    · rw [hm.other _ hmr]
      exact h.main
  · by_cases htr : t = a.run
    · subst htr
      exact hm.own.self x l hl
    · rw [hm.other t htr] at hl
      exact h.self t x l hl
  · by_cases htr : t = a.run
    · subst htr
      exact hm.own.suffix.trans (h.suffix _)
    · rw [hm.other t htr]
      exact h.suffix t

end Moves

theorem Inv.fits (h : Inv N K level rank code a bs v) (hi : AInv a) : Fits (v.thread a.run) (a.ctx a.run).pc :=
  h.stand.fits a.run hi.live

theorem Inv.goOn (h : Inv N K level rank code a bs v) (hc : Checked N K level rank code) (hi : AInv a)
    (hst : AStep a act a') (hen : enabled (a.ctx a.run) act) (hact : act = .timer ∨ act = .resume)
    (hstand : (client code).Stand (sites code) a' v) : Inv N K level rank code a' (a.noteAll act a' bs) v := by
  have hpr : proper a.core act := by rcases hact with rfl | rfl <;> trivial
  have hfit := h.fits hi
  have hpc' : (a'.ctx a.run).pc = .user ∨ (a'.ctx a.run).pc = .yield none := by
    rcases hact with rfl | rfl
    · exact .inr (hst.lands hi hen trivial)
    · rcases hst.lands hi hen trivial with e | ⟨c, x, hp, -⟩
      · exact .inl e
      · exact ((hp ▸ hfit : Fits _ (.wait c (some x)))).elim
  have hjoin : ∀ w res, (a'.ctx a.run).pc ≠ .join w res := by
    intro w res hp
    rcases hpc' with e | e <;> cases hp.symm.trans e
  have hno : ∀ w res, act ≠ .join w res := by rcases hact with rfl | rfl <;> simp
  refine h.acts ⟨hst, hen, hpr, hstand, fun _ _ => rfl, ?_, ?_, ⟨Iff.rfl, h.self a.run, List.suffix_rfl, ?_, ?_, ?_,
    fun _ => ?_, ?_, fun m hp => ?_, fun w hw => .inl hw, fun x hx => .inl hx⟩⟩ hc hi
  · rcases hact with rfl | rfl <;> trivial
  · rcases hact with rfl | rfl <;> trivial
  · rcases hact with rfl | rfl <;> rfl
  · rcases hact with rfl | rfl <;> simp
  · exact fun w res e => absurd e (hno w res)
  · obtain ⟨held, kids, hs⟩ := h.sound a.run hi.live
    refine ⟨held, kids, hs.check, hs.nodup, hs.once, fun m => ?_, fun w hw => ?_⟩
    · rw [hs.has m, has_goOn hst hi hen hact hfit]
    · exact (hs.kid w hw).step hst hpr (hno w) (fun _ => (hs.kid w hw).apart) (hjoin w)
  · exact fun w res hp => absurd hp (hjoin w res)
  · rcases hpc' with e | e <;> cases hp.symm.trans e

theorem Inv.sound_user (h : Inv N K level rank code a bs v) (hi : AInv a) (hpc : (a.ctx a.run).pc = .user) :
    ∃ held kids, Sound N K level rank code a bs a.run (v.thread a.run) held kids ∧
      ∀ m, m ∈ held ↔ m < N ∧ a.run ∈ (bs m).holds := by
  obtain ⟨held, kids, hs⟩ := h.sound a.run hi.live
  refine ⟨held, kids, hs, fun m => ?_⟩
  rw [hs.has m]
  simp [Has, hpc]

/-- **A checked call keeps the contracts.** -/
theorem Inv.keeps (h : Inv N K level rank code a bs v) (hc : Checked N K level rank code) (hi : AInv a)
    (hpc : (a.ctx a.run).pc = .user) (hact : call code (v.thread a.run) = some act) :
    enabled (a.ctx a.run) act ∧ proper a.core act ∧ Tidy N a.core (some a.run) bs act ∧
      Climbs N level rank a.core (some a.run) bs act := by
  obtain ⟨held, kids, hs, hheld⟩ := h.sound_user hi hpc
  have hrunK := h.small a.run hi.live.1
  have hcheck := hs.check
  rcases call_cases hact with ⟨self, op, rest, hl, hop⟩ | ⟨self, hl, hm, rfl⟩
  · rw [hl] at hcheck
    cases op with
    | create w =>
      obtain rfl := Option.some.inj hop
      refine ⟨hpc, h.fresh a.run hrunK w ?_, trivial, trivial⟩
      rw [hl]
      exact List.mem_cons_self
    | join w res =>
      obtain rfl := Option.some.inj hop
      -- `w` is a child nobody has joined, created with nothing held
      obtain ⟨⟨rfl, hw, -⟩, -⟩ := hcheck
      have hk := hs.kid w hw
      refine ⟨hpc, hk.created, fun _ => hk.alone, fun _ => ⟨fun m hm w hh e => ?_, fun j hj => ?_⟩⟩
      · obtain rfl := Option.some.inj e
        exact absurd ((hheld m).mpr ⟨hm, hh⟩) (by simp)
      · obtain rfl := Option.some.inj hj
        exact ((hc.each _ hrunK).of_creates hk.mem).2
    | yield =>
      obtain rfl := Option.some.inj hop
      exact ⟨hpc, trivial, trivial, trivial⟩
    | lock x =>
      obtain rfl := Option.some.inj hop
      refine ⟨hpc, trivial, hcheck.1.1, fun m hm w hh e => hcheck.1.2 m ((hheld m).mpr ⟨hm, ?_⟩)⟩
      obtain rfl := Option.some.inj e
      exact hh
    | unlock x =>
      obtain rfl := Option.some.inj hop
      -- what the check counts as held is held by this thread
      obtain ⟨hx, hh⟩ := (hheld x).mp hcheck.1
      exact ⟨hpc, trivial, ⟨hx, a.run, hh, rfl⟩, trivial⟩
    | compute y => cases hop
  · rw [hl] at hcheck
    -- the code of a thread ends with nothing held
    obtain rfl : held = [] := hcheck
    have hr : a.run ≠ mainGreen := h.self _ _ _ hl ▸ hm
    refine ⟨⟨hpc, ?_⟩, trivial, fun m hm w hh e => ?_, trivial⟩
    · exact (h.stand.this _ hi.live hr).resolve_left (by simp [hpc])
    · obtain rfl := Option.some.inj e
      exact absurd ((hheld m).mpr ⟨hm, hh⟩) (by simp)

/-! Each operation leaves the rest of the list as it must be. -/

section Ops

variable {rest : List (Op α)} {w : Tid} {res : Option ℕ} {x : ℕ}

/-- A thread that has been created and not joined still is one. -/
theorem Sound.kid_step {l : Local α} (hs : Sound N K level rank code a bs a.run l held kids) (hst : AStep a act a')
    (hpr : proper a.core act) (hu : u ∈ kids) (hj : ∀ res, act ≠ .join u res)
    (hpc' : ∀ res, (a'.ctx a.run).pc ≠ .join u res) : Kid code a' a.run u :=
  (hs.kid u hu).step hst hpr hj (fun _ => (hs.kid u hu).apart) hpc'

theorem runs_self (y : Tid) (l : List (Op α)) (e : Local.runs a.run rest = .runs y l) : y = a.run := by
  cases e
  rfl

theorem Sound.create (hs : Sound N K level rank code a bs a.run (.runs a.run (.create w :: rest)) held kids)
    (hi : AInv a) (hst : AStep a (.create w 1 w) a') (hpc : (a.ctx a.run).pc = .user) (hpr : w ∉ a.core.created)
    (hsuf : .create w :: rest <:+ (code a.run).ops) :
    Own N K level rank code a (.create w 1 w) a' bs (.runs a.run (.create w :: rest)) (.runs a.run rest) := by
  have hpc' : (a'.ctx a.run).pc = .user := hst.lands hi hpc hpr
  have hw : w ∈ creates (code a.run).ops := (hsuf.filterMap _).subset List.mem_cons_self
  refine ⟨by simp, runs_self, List.suffix_cons _ _, rfl, fun _ _ _ e => ?_, fun _ _ e => (by cases e), fun _ => ?_,
    fun _ _ hp => (by cases hpc'.symm.trans hp), fun _ hp => (by cases hpc'.symm.trans hp), fun _ hw => .inl hw,
    fun _ hx => .inl hx⟩
  · cases e
    rfl
  · refine ⟨held, w :: kids, hs.check.2, hs.nodup, List.nodup_cons.mpr ⟨fun hm => hpr (hs.kid w hm).created, hs.once⟩,
      fun m => ?_, fun u hu => ?_⟩
    · rw [hs.has m, has_call hpc (by simp) (by simp) (by simp) (by simp) (hst.lands hi hpc hpr)]
    · rcases List.mem_cons.mp hu with rfl | hu
      · refine ⟨hw, by simp [hst.created, Act.creates], ?_, ?_, by simp [hpc']⟩
        · rw [hst.core]
          simp [Abs.coreAfter, Core.init]
        · cases hst with
          | create => simp [Abs.mask, Abs.onCtx, Abs.push, Abs.spawn]
      · exact hs.kid_step hst hpr hu (by simp) (by simp [hpc'])

theorem Sound.join (hs : Sound N K level rank code a bs a.run (.runs a.run (.join w res :: rest)) held kids)
    (hi : AInv a) (hst : AStep a (.join w res) a') (hpc : (a.ctx a.run).pc = .user)
    (hsuf : .join w res :: rest <:+ (code a.run).ops) :
    Own N K level rank code a (.join w res) a' bs (.runs a.run (.join w res :: rest)) (.runs a.run rest) := by
  obtain ⟨⟨-, hw, hres⟩, hcheck⟩ := hs.check
  have hk := hs.kid w hw
  have hlands := hst.lands hi hpc hk.created
  have hstores : Stores code a.run w res := by
    refine ⟨hres, fun p hp => (hsuf.filterMap _).subset ?_⟩
    obtain rfl := hp
    exact List.mem_cons_self
  refine ⟨by simp, runs_self, List.suffix_cons _ _, rfl, fun _ _ _ e => (by cases e), fun _ _ e => ?_, fun _ => ?_,
    fun u r hp => ?_, fun m hp => ?_, fun u hu => ?_, fun x hx => ?_⟩
  · cases e
    exact ⟨hk.mem, hstores⟩
  · -- `w` is joined, so it is no longer one of those that are left
    refine ⟨held, kids.erase w, hcheck, hs.nodup, hs.once.erase w, fun m => ?_, fun u hu => ?_⟩
    · rw [hs.has m, has_call hpc (by simp) (by simp) (by simp) (by simp) hlands]
    · obtain ⟨hne, hu⟩ := hs.once.mem_erase_iff.mp hu
      refine hs.kid_step hst hk.created hu (fun r e => ?_) fun r hp => ?_
      · cases e
        exact hne rfl
      · rw [hp] at hlands
        rcases hlands with e | e <;> cases e
        exact hne rfl
  · -- a call that waits has not freed the context
    cases hst with
    | joinWait hz hn =>
      rw [hp] at hlands
      rcases hlands with e | e <;> cases e
      refine ⟨hk.mem, ?_, hstores⟩
      obtain ⟨n, l, -, rfl⟩ := hn
      exact hk.kept
    | joinNow _ _ =>
      rw [show ((a.collect w res).leave.ctx a.run).pc = .user by simp [Abs.leave, Abs.onCtx, Abs.collect]] at hp
      cases hp
  · rw [hp] at hlands
    rcases hlands with e | e <;> cases e
  · rcases List.mem_cons.mp hu with rfl | hu
    · cases hst with
      | joinWait hz hn =>
        refine .inr (.inl ⟨res, ?_⟩)
        rw [hn.ctx]
        simp [Abs.await, Abs.stop, Abs.onCtx]
      | joinNow hz _ =>
        exact .inr (.inr ⟨(a.collect_created _ _).symm ▸ hk.created, (congrFun (a.collect_zombie _ _) _).trans hz⟩)
    · exact .inl hu
  · cases res with
    | none => exact .inl hx
    | some p =>
      rcases List.mem_cons.mp hx with rfl | hx
      · right
        cases hst with
        | joinWait _ hn =>
          left
          rw [hn.ctx]
          simp [Abs.await, Abs.stop, Abs.onCtx]
        | joinNow hz _ => exact .inr (if_pos hz)
      · exact .inl hx

theorem Sound.yield (hs : Sound N K level rank code a bs a.run (.runs a.run (.yield :: rest)) held kids)
    (hi : AInv a) (hst : AStep a .yield a') (hpc : (a.ctx a.run).pc = .user) :
    Own N K level rank code a .yield a' bs (.runs a.run (.yield :: rest)) (.runs a.run rest) := by
  have hpc' : (a'.ctx a.run).pc = .yield none := hst.lands hi hpc trivial
  refine ⟨by simp, runs_self, List.suffix_cons _ _, rfl, fun _ _ _ e => (by cases e), fun _ _ e => (by cases e),
    fun _ => ?_, fun _ _ hp => (by cases hpc'.symm.trans hp), fun _ hp => (by cases hpc'.symm.trans hp),
    fun _ hw => .inl hw, fun _ hx => .inl hx⟩
  refine ⟨held, kids, hs.check, hs.nodup, hs.once, fun m => ?_, fun u hu => ?_⟩
  · rw [hs.has m, has_call hpc (by simp) (by simp) (by simp) (by simp) (hst.lands hi hpc trivial)]
  · exact hs.kid_step hst trivial hu (by simp) (by simp [hpc'])

theorem Sound.lock (hs : Sound N K level rank code a bs a.run (.runs a.run (.lock x :: rest)) held kids)
    (hi : AInv a) (hst : AStep a (.lock x) a') (hpc : (a.ctx a.run).pc = .user)
    (hsuf : .lock x :: rest <:+ (code a.run).ops) :
    Own N K level rank code a (.lock x) a' bs (.runs a.run (.lock x :: rest)) (.runs a.run rest) := by
  obtain ⟨⟨hx, hlevel⟩, hcheck⟩ := hs.check
  have hlands := hst.lands hi hpc trivial
  have hpc' : ∀ u res, (a'.ctx a.run).pc ≠ .join u res := by
    intro u res hp
    rw [hp] at hlands
    rcases hlands with e | e <;> cases e
  refine ⟨by simp, runs_self, List.suffix_cons _ _, rfl, fun _ _ _ e => (by cases e), fun _ _ e => (by cases e),
    fun _ => ?_, fun u res hp => absurd hp (hpc' u res), fun m hp => ?_, fun _ hw => .inl hw, fun _ hx => .inl hx⟩
  · refine ⟨x :: held, kids, hcheck, List.nodup_cons.mpr ⟨fun hm => lt_irrefl _ (hlevel x hm), hs.nodup⟩, hs.once,
      fun m => ?_, fun u hu => hs.kid_step hst trivial hu (by simp) (hpc' u)⟩
    rw [List.mem_cons, hs.has m, has_lock hst hi hpc]
    constructor
    · rintro (rfl | ⟨hm, hh⟩)
      · exact ⟨hx, .inl rfl⟩
      · exact ⟨hm, .inr hh⟩
    · rintro ⟨hm, rfl | hh⟩
      · exact .inl rfl
      · exact .inr ⟨hm, hh⟩
  · rw [hp] at hlands
    rcases hlands with e | e <;> cases e
    exact hsuf

theorem Sound.unlock (hs : Sound N K level rank code a bs a.run (.runs a.run (.unlock x :: rest)) held kids)
    (hi : AInv a) (hst : AStep a (.unlock x) a') (hpc : (a.ctx a.run).pc = .user) (ht : ∀ m < N, Tokens m a (bs m)) :
    Own N K level rank code a (.unlock x) a' bs (.runs a.run (.unlock x :: rest)) (.runs a.run rest) := by
  obtain ⟨hmem, hcheck⟩ := hs.check
  have hpc' : (a'.ctx a.run).pc = .user := hst.lands hi hpc trivial
  obtain ⟨hx, hh⟩ := (hs.has x).mp hmem
  have hh : a.run ∈ (bs x).holds := hh.resolve_right (by simp [hpc])
  refine ⟨by simp, runs_self, List.suffix_cons _ _, rfl, fun _ _ _ e => (by cases e), fun _ _ e => (by cases e),
    fun _ => ?_, fun _ _ hp => (by cases hpc'.symm.trans hp), fun _ hp => (by cases hpc'.symm.trans hp),
    fun _ hw => .inl hw, fun _ hx => .inl hx⟩
  refine ⟨held.erase x, kids, hcheck, hs.nodup.erase x, hs.once, fun m => ?_, fun u hu => ?_⟩
  · rw [hs.nodup.mem_erase_iff, hs.has m, has_unlock hst hi hpc (ht x hx) hh]
    tauto
  · exact hs.kid_step hst trivial hu (by simp) (by simp [hpc'])

end Ops

theorem Inv.calls (h : Inv N K level rank code a bs v) (hc : Checked N K level rank code) (hi : AInv a)
    (hst : AStep a act a') (hen : enabled (a.ctx a.run) act) (hact : call code (v.thread a.run) = some act)
    (hstand : (client code).Stand (sites code) a' ((client code).after (a.core.arg a.run) a.run v)) :
    Inv N K level rank code a' (a.noteAll act a' bs) ((client code).after (a.core.arg a.run) a.run v) := by
  have hpc : (a.ctx a.run).pc = .user := (sites code).pc_user hact hen
  obtain ⟨-, hpr, htidy, hclimbs⟩ := h.keeps hc hi hpc hact
  obtain ⟨held, kids, hs⟩ := h.sound a.run hi.live
  have hself : ((client code).after (a.core.arg a.run) a.run v).thread a.run =
      (exec code (a.core.arg a.run) (v.shared, v.thread a.run)).2 := Program.after_self
  have hsuf := h.suffix a.run
  refine h.acts ⟨hst, hen, hpr, hstand, fun t ht => Program.after_other ht, htidy, hclimbs, ?_⟩ hc hi
  rw [hself]
  rcases call_cases hact with ⟨self, op, rest, hl, hop⟩ | ⟨self, hl, -, rfl⟩
  · obtain rfl := h.self _ _ _ hl
    rw [hl] at hs hsuf ⊢
    cases op with
    | create w =>
      obtain rfl := Option.some.inj hop
      exact hs.create hi hst hpc hpr hsuf
    | join w res =>
      obtain rfl := Option.some.inj hop
      exact hs.join hi hst hpc hsuf
    | yield =>
      obtain rfl := Option.some.inj hop
      exact hs.yield hi hst hpc
    | lock x =>
      obtain rfl := Option.some.inj hop
      exact hs.lock hi hst hpc hsuf
    | unlock x =>
      obtain rfl := Option.some.inj hop
      exact hs.unlock hi hst hpc h.orderly.tokens
    | compute y => cases hop
  · obtain rfl := h.self _ _ _ hl
    rw [hl]
    have hpc' : (a'.ctx a.run).pc = .user := (show _ = _ from hst.lands hi hen hpr).trans hpc
    exact ⟨Iff.rfl, runs_self, List.suffix_rfl, rfl, fun _ _ _ e => (by cases e), fun _ _ e => (by cases e),
      fun hlive => absurd (hst.ended_ret hi) hlive.not_ended, fun _ _ hp => (by cases hpc'.symm.trans hp),
      fun _ hp => (by cases hpc'.symm.trans hp), fun _ hw => .inl hw, fun _ hx => .inl hx⟩

/-- A statement that is no call: the thread reads its argument, or computes. -/
theorem exec_local (code : Tid → Fun α) (log : Log α) {l : Local α} {arg : ℕ} (hcall : call code l = none)
    (hover : l ≠ .runs mainGreen []) (harg : l = .enter → arg = t) (hself : ∀ x left, l = .runs x left → x = t) :
    (l = .enter ∧ exec code arg (log, l) = (log, .runs t (code t).ops)) ∨
      ∃ y left, l = .runs t (.compute y :: left) ∧ exec code arg (log, l) = (log ++ [(t, y)], .runs t left) := by
  cases l with
  | enter =>
    obtain rfl := harg rfl
    exact .inl ⟨rfl, rfl⟩
  | runs x rest =>
    obtain rfl := hself x rest rfl
    right
    cases rest with
    | nil =>
      have hm : x ≠ mainGreen := by
        rintro rfl
        exact hover rfl
      simp [call, hm] at hcall
    | cons op rest =>
      cases op with
      | compute y => exact ⟨y, rest, rfl, rfl⟩
      | _ => cases hcall

theorem Inv.enters (h : Inv N K level rank code a bs v) (hi : AInv a) (hl : v.thread a.run = .enter) :
    a.core.arg a.run = a.run :=
  h.arg a.run hi.live.1 fun hr => h.main (hr ▸ hl)

theorem Inv.computes (h : Inv N K level rank code a bs v) (hi : AInv a) (hpc : (a.ctx a.run).pc = .user)
    (hcall : call code (v.thread a.run) = none)
    (hover : v.thread a.run ≠ .runs mainGreen [])
    (hstand : (client code).Stand (sites code) a ((client code).after (a.core.arg a.run) a.run v)) :
    Inv N K level rank code a bs ((client code).after (a.core.arg a.run) a.run v) := by
  have hother : ∀ t, t ≠ a.run → ((client code).after (a.core.arg a.run) a.run v).thread t = v.thread t :=
    fun t ht => Program.after_other ht
  -- the running thread reads its argument, or its list is shorter by a `compute`
  obtain ⟨left, hself, hlist⟩ : ∃ left, ((client code).after (a.core.arg a.run) a.run v).thread a.run =
      .runs a.run left ∧
      ((v.thread a.run).rest code a.run = left ∨ ∃ y, (v.thread a.run).rest code a.run = .compute y :: left) := by
    rw [Program.after_self]
    rcases exec_local code v.shared hcall hover (h.enters hi) (h.self a.run) with
      ⟨hl, hx⟩ | ⟨y, left, hl, hx⟩
    · exact ⟨_, congrArg Prod.snd hx, .inl (by rw [hl]; rfl)⟩
    · exact ⟨_, congrArg Prod.snd hx, .inr ⟨y, by rw [hl]; rfl⟩⟩
  generalize (client code).after (a.core.arg a.run) a.run v = v' at *
  have hrest : ∀ t, (v.thread t).rest code t = (v'.thread t).rest code t ∨
      ∃ y, (v.thread t).rest code t = .compute y :: (v'.thread t).rest code t := by
    intro t
    by_cases htr : t = a.run
    · rw [htr, hself]
      exact hlist
    · rw [hother t htr]
      exact .inl rfl
  have hcreates : ∀ t, creates ((v.thread t).rest code t) = creates ((v'.thread t).rest code t) := by
    intro t
    rcases hrest t with e | ⟨y, e⟩ <;> rw [e]
    rfl
  have hplaces : ∀ t, places ((v.thread t).rest code t) = places ((v'.thread t).rest code t) := by
    intro t
    rcases hrest t with e | ⟨y, e⟩ <;> rw [e]
    rfl
  have hjoins : ∀ t, joins ((v.thread t).rest code t) = joins ((v'.thread t).rest code t) := by
    intro t
    rcases hrest t with e | ⟨y, e⟩ <;> rw [e]
    rfl
  refine ⟨hstand, h.orderly, h.climb, h.small, ?_, fun t x l hl => ?_, h.arg, fun t => ?_, fun t ht => ?_,
    fun t ht => ?_, h.waits, fun t ht m hp => ?_, fun t ht => ?_, fun t ht => ?_⟩
  · by_cases hm : mainGreen = a.run
    · rw [hm, hself]
      simp
    · rw [hother _ hm]
      exact h.main
  · by_cases htr : t = a.run
    · rw [htr, hself] at hl
      cases hl
      exact htr.symm
    · rw [hother t htr] at hl
      exact h.self t x l hl
  · have hs := h.suffix t
    rcases hrest t with e | ⟨y, e⟩ <;> rw [e] at hs
    · exact hs
    · exact (List.suffix_cons _ _).trans hs
  · rw [← hcreates t]
    exact h.fresh t ht
  · obtain ⟨held, kids, hs⟩ := h.sound t ht
    refine ⟨held, kids, ?_, hs.nodup, hs.once, hs.has, hs.kid⟩
    have hcheck := hs.check
    rcases hrest t with e | ⟨y, e⟩ <;> rw [e] at hcheck
    · exact hcheck
    · exact hcheck
  · have htr : t ≠ a.run := by
      rintro rfl
      cases hpc.symm.trans hp
    rw [hother t htr]
    exact h.locks t ht m hp
  · rw [← hjoins]
    exact h.joined t ht
  · rw [← hplaces t]
    exact h.stored t ht

/-- **The step lemma.** -/
theorem Inv.step (h : Inv N K level rank code a bs v) (hc : Checked N K level rank code) (hi : AInv a) {m : Move}
    (hst : (client code).Lift (a, v) m (a', v')) : ∃ bs', Inv N K level rank code a' bs' v' := by
  have hstand := h.stand.step hi hst
  cases hst with
  | timer hen hst => exact ⟨_, h.goOn hc hi hst hen (.inl rfl) hstand⟩
  | resume hen hst => exact ⟨_, h.goOn hc hi hst hen (.inr rfl) hstand⟩
  | call hact hen hpr hst => exact ⟨_, h.calls hc hi hst hen hact hstand⟩
  | compute hpc hcall hover =>
    exact ⟨bs, h.computes hi hpc hcall (finished_iff.not.mp (Bool.eq_false_iff.mp hover)) hstand⟩

/-! ### The program goes on -/

theorem Inv.collectable (h : Inv N K level rank code a bs v) (hz : Ended a.core u) (hf : a.freed u = false)
    {res : Option ℕ} (hres : (code u).value ≠ 0 → res ≠ none) : a.Collectable u res :=
  ⟨fun hne => hres ((h.ended hz).2 ▸ hne), hf⟩

theorem Inv.can_resume (h : Inv N K level rank code a bs v) (hi : AInv a) (hpc : (a.ctx a.run).pc ≠ .user) :
    ∃ a', AStep a .resume a' := by
  have hfit := h.fits hi
  obtain ⟨-, hs⟩ := hi.pc.resolve_left hpc
  cases hp : (a.ctx a.run).pc with
  | user => exact absurd hp hpc
  | start =>
    rw [hp] at hfit
    have hl : v.thread a.run = .enter := hfit
    exact ⟨_, .resumeStart hp (h.stand.fn _ hi.live.1 fun hr => h.main (hr ▸ hl))⟩
  | yield back =>
    rw [hp] at hfit
    obtain rfl : back = none := hfit
    exact ⟨_, .resumeYield hp⟩
  | lock x => exact ⟨_, .resumeLocked (.inr hp)⟩
  | join w res =>
    rw [hp] at hs
    obtain ⟨-, hf, hstores⟩ := h.waits a.run hi.live w res hp
    exact ⟨_, .resumeJoin hp (h.collectable hs hf hstores.1)⟩
  | wait c x => exact (hp ▸ hfit : Fits _ (.wait c x)).elim
  | rewait x => exact (hp ▸ hfit : Fits _ (.rewait x)).elim
  | epi w e => exact (hp ▸ hfit : Fits _ (.epi w e)).elim

theorem Inv.can_call {s : Sched} (h : Inv N K level rank code a bs v) (hc : Checked N K level rank code)
    (hR : Refines s a) (hpc : (a.ctx a.run).pc = .user) (hact : call code (v.thread a.run) = some act) :
    ∃ a', AStep a act a' := by
  obtain ⟨hen, hpr, htidy, hclimbs⟩ := h.keeps hc hR.inv hpc hact
  have hcore := hR.loaded.1.core
  by_cases hd : dispatches s act = true
  · -- it needs another thread to run, and locks and joins that climb leave one
    have hclimbs' : Climbs N level rank s.core s.running bs act := by
      rw [hcore, hR.loaded.1.running]
      exact hclimbs
    exact h.orderly.dispatch hR htidy (h.climb.no_circle hR hclimbs') (hR.loaded.2 ▸ hen) (hcore ▸ hpr) hd
  obtain ⟨held, kids, hs⟩ := h.sound a.run hR.inv.live
  have hcheck := hs.check
  rcases call_cases hact with ⟨self, op, rest, hl, hop⟩ | ⟨self, -, -, rfl⟩
  · rw [hl] at hcheck
    cases op with
    | create w =>
      obtain rfl := Option.some.inj hop
      exact ⟨_, .create⟩
    | join w res =>
      obtain rfl := Option.some.inj hop
      obtain ⟨⟨-, hw, hres⟩, -⟩ := hcheck
      have hk := hs.kid w hw
      have hz : a.core.zombie w = true := by simpa [dispatches, hcore] using hd
      exact ⟨_, .joinNow hz (h.collectable ⟨hk.created, hz⟩ hk.kept hres)⟩
    | yield =>
      obtain rfl := Option.some.inj hop
      exact absurd rfl hd
    | lock x =>
      obtain rfl := Option.some.inj hop
      exact ⟨_, .lockFree (by simpa [dispatches, hcore] using hd)⟩
    | unlock x =>
      obtain rfl := Option.some.inj hop
      by_cases hq : a.queue (.mutex x) = []
      · exact ⟨_, .unlockFree hq⟩
      · exact ⟨_, .unlockPass hq⟩
    | compute y => cases hop
  · exact absurd rfl hd

/-- **The program goes on** until `main` has come to its end. -/
theorem Inv.can_go {s : Sched} (h : Inv N K level rank code a bs v) (hc : Checked N K level rank code)
    (hR : Refines s a) (hno : ¬ ((a.ctx a.run).pc = .user ∧ v.thread a.run = .runs mainGreen [])) :
    ∃ x, (client code).Lift (a, v) .go x := by
  by_cases hpc : (a.ctx a.run).pc = .user
  · cases hact : call code (v.thread a.run) with
    | some act =>
      obtain ⟨hen, hpr, -⟩ := h.keeps hc hR.inv hpc hact
      obtain ⟨a', hst⟩ := h.can_call hc hR hpc hact
      exact ⟨_, .call hact hen hpr hst⟩
    | none => exact ⟨_, .compute hpc hact (Bool.eq_false_of_not_eq_true fun hl => hno ⟨hpc, finished_iff.mp hl⟩)⟩
  · obtain ⟨a', hst⟩ := h.can_resume hR.inv hpc
    exact ⟨_, .resume hpc hst⟩

/-! ### The program ends -/

/-- How many statements a thread has left, if no list is longer than `M`. -/
def Local.left (M : ℕ) : Local α → ℕ
  | .enter => M + 2
  | .runs self l => if self = mainGreen then l.length else l.length + 1

/-- **Every step of the program lowers the rank**, an interrupt raises it by one. -/
theorem Inv.rank_lift {M : ℕ} (h : Inv N K level rank code a bs v) (hM : ∀ t < K, (code t).ops.length ≤ M) (hi : AInv a)
    {m : Move} (hst : (client code).Lift (a, v) m (a', v')) :
    if m = .go then Program.rank (Local.left M) K a' v' < Program.rank (Local.left M) K a v
    else Program.rank (Local.left M) K a' v' ≤ Program.rank (Local.left M) K a v + 1 := by
  have hrunK := h.small a.run hi.live.1
  refine Program.rank_lift (Local.left M) hi hst hrunK (fun c x hpc => ?_) (fun w hw => ?_) fun hgo hret => ?_
  · have hfit := h.fits hi
    rw [hpc] at hfit
    exact hfit
  · rcases call_cases hw with ⟨self, op, rest, -, hop⟩ | ⟨self, hl, hm, -⟩
    · cases op <;> cases hop
    · rw [hl]
      simp [Local.left, hm]
  · show (exec code (a.core.arg a.run) (v.shared, v.thread a.run)).2.left M < (v.thread a.run).left M
    have henter := h.enters hi
    generalize v.thread a.run = l at *
    cases l with
    | enter =>
      have hle := hM a.run hrunK
      rw [henter rfl]
      show Local.left M (.runs a.run (code a.run).ops) < M + 2
      simp only [Local.left]
      split_ifs <;> omega
    | runs self rest =>
      cases rest with
      | cons op rest =>
        cases op <;> simp only [exec, Local.left, List.length_cons, List.tail_cons] <;> split_ifs <;> omega
      | nil =>
        exfalso
        by_cases hm : self = mainGreen
        · rcases hgo with hcall | hover
          · simp [client, call, hm] at hcall
          · simp [client, finished, hm] at hover
        · exact hret (code self).value (if_neg hm)

/-! ### Runs -/

section Runs

variable {M : ℕ} {s₀ s : Sched} {tr : List ((Sched × Config Tid (Log α) (Local α)) × Move)}

theorem inv_initial (hc : Checked N K level rank code) (h0 : s₀.Initial) :
    Inv N K level rank code s₀.abs (fun _ => .empty) (start code) := by
  have hmain : ∀ t, t ∈ s₀.abs.core.created → t = mainGreen := by
    intro t ht
    simpa [Sched.abs, h0.created] using ht
  have hpc : ∀ t, (s₀.abs.ctx t).pc = .user := by simp [Sched.abs, h0.cpu]
  have hstart : (start code).thread mainGreen = .runs mainGreen (code mainGreen).ops := rfl
  have hfresh : ∀ t, t ≠ mainGreen → (start code).thread t = .enter := fun t ht => if_neg ht
  have hrest : ∀ t, ((start code).thread t).rest code t = (code t).ops := by
    intro t
    by_cases ht : t = mainGreen
    · rw [ht, hstart]
      rfl
    · rw [hfresh t ht]
      rfl
  refine ⟨⟨fun t _ => ?_, fun t ht => hfresh t ?_, fun t ht => ?_, fun t ht hm => absurd (hmain t ht.1) hm,
    fun t ht hm => absurd (hmain t ht) hm⟩, orderly_initial h0, climb_initial h0, fun t ht => ?_, by simp [hstart],
    fun t x l hl => ?_, fun t ht hm => absurd (hmain t ht) hm, fun t => ?_, fun t htK w hw hcr => ?_, fun t ht => ?_,
    fun t _ u res hp => ?_, fun t _ m hp => ?_, fun t _ w hw => .inl ?_, fun t _ x hx _ => .inl ?_⟩
  · rw [hpc t]
    trivial
  · rintro rfl
    exact ht (by simp [Sched.abs, h0.created])
  · obtain rfl := hmain t ht.1
    cases h0.zombie.symm.trans ht.2
  · rw [hmain t ht]
    exact hc.main
  · by_cases hm : t = mainGreen
    · rw [hm, hstart] at hl
      cases hl
      exact hm.symm
    · rw [hfresh t hm] at hl
      cases hl
  · rw [hrest t]
  · rw [hrest t] at hw
    obtain rfl := hmain w hcr
    exact hc.root t htK hw
  · obtain rfl := hmain t ht.1
    refine ⟨[], [], ?_, List.nodup_nil, List.nodup_nil, fun m => ?_, fun w hw => absurd hw (by simp)⟩
    · rw [hrest]
      exact hc.each _ hc.main
    · simp [Has, Book.empty, hpc]
  · cases (hpc t).symm.trans hp
  · cases (hpc t).symm.trans hp
  · rw [hrest]
    exact hw
  · rw [hrest]
    exact hx

theorem rank_initial (s₀ : Sched) (hM : ∀ t < K, (code t).ops.length ≤ M) (hK : mainGreen < K) :
    Program.rank (Local.left M) K s₀.abs (start code) ≤ K * (2 * M + 5) := by
  have hle : ∀ t ∈ Finset.range K, Program.part (Local.left M) s₀.abs (start code) t ≤ 2 * M + 5 := by
    intro t ht
    have hleft : ((start code).thread t).left M ≤ M + 2 := by
      by_cases hm : t = mainGreen
      · rw [show (start code).thread t = .runs mainGreen (code mainGreen).ops from if_pos hm]
        simp only [Local.left, if_true]
        exact (hM _ hK).trans (by omega)
      · rw [show (start code).thread t = .enter from if_neg hm]
        exact le_rfl
    unfold Program.part
    split_ifs <;> omega
  calc Program.rank (Local.left M) K s₀.abs (start code) ≤ ∑ _t ∈ Finset.range K, (2 * M + 5) := Finset.sum_le_sum hle
    _ = K * (2 * M + 5) := by simp

/-- **Checked programs end.**  If every thread locks mutexes in the order of their levels, unlocks what it has locked,
and joins threads it has created, once and without a mutex, then the program goes on, wherever the timer interrupts but
at the end of `green_thread`, until `main` comes to its end; it does so after `K * (2 * M + 5)` steps and one for each
interrupt at most.  The threads that `main` has joined have ended then, with the values of their functions, and the
results that are not `NULL` are in their places. -/
theorem client_total (hc : Checked N K level rank code) (hM : ∀ t < K, (code t).ops.length ≤ M) (h0 : s₀.Initial)
    (hp : Path (client code).Step (s₀, start code) tr (s, v)) :
    (¬ (client code).Over s v → ∃ y, (client code).Step (s, v) .go y) ∧
      tr.countP (·.2 = .go) ≤ K * (2 * M + 5) + tr.countP (·.2 = .timer) ∧
      ((client code).Over s v →
        (∀ u ∈ joins (code mainGreen).ops, Ended s.core u ∧ s.core.retval u = (code u).value) ∧
          ∀ x ∈ places (code mainGreen).ops, (code x.1).value ≠ 0 → s.core.vars x.2 = (code x.1).value) := by
  obtain ⟨a, ha, ⟨bs, h⟩, hle⟩ := Program.bounded_run (Program.rank (Local.left M) K)
    (I := fun a v => ∃ bs, Inv N K level rank code a bs v) h0 ⟨_, inv_initial hc h0⟩ hp
    fun a v m a' v' hi ⟨bs, h⟩ hst => ⟨h.step hc hi hst, h.rank_lift hM hi hst⟩
  have hrank := rank_initial s₀ hM hc.main
  have hover : (client code).Over s v ↔ (a.ctx a.run).pc = .user ∧ v.thread a.run = .runs mainGreen [] := by
    rw [Program.Over, ha.owner, ha.loaded.2]
    exact and_congr_right fun _ => finished_iff
  refine ⟨fun hno => ?_, by omega, fun ho => ?_⟩
  · obtain ⟨x, hx⟩ := h.can_go hc ha (hover.not.mp hno)
    exact Program.can_step ha hx
  · obtain ⟨hpc, hl⟩ := hover.mp ho
    have hm : a.run = mainGreen := (h.self a.run _ [] hl).symm
    have hmain : mainGreen ∈ a.core.created := hm ▸ ha.inv.live.1
    rw [hm] at hpc hl
    rw [ha.loaded.1.core]
    refine ⟨fun u hu => ?_, fun x hx hne => ?_⟩
    · have he : Ended a.core u := by
        rcases h.joined mainGreen hmain u hu with hj | ⟨res, hp⟩ | he
        · rw [hl] at hj
          exact absurd hj (by simp [Local.rest, joins])
        · cases hpc.symm.trans hp
        · exact he
      exact ⟨he, (h.ended he).2⟩
    · rcases h.stored mainGreen hmain x hx hne with hleft | hp | hvars
      · rw [hl] at hleft
        exact absurd hleft (by simp [Local.rest, places])
      · cases hpc.symm.trans hp
      · exact hvars

end Runs

/-- Thread 1 locks mutex 1 while it holds mutex 0; thread 2 locks mutex 1, and returns 7. -/
def nested : Tid → Fun Unit
  | 0 => ⟨[.create 1, .create 2, .join 1 none, .join 2 (some 0)], 0⟩
  | 1 => ⟨[.lock 0, .yield, .lock 1, .compute (), .unlock 1, .unlock 0], 0⟩
  | _ => ⟨[.lock 1, .yield, .compute (), .unlock 1], 7⟩

theorem client_total_three : ∃ tr s v, Path (client nested).Step (Sched.start, start nested) tr (s, v) ∧
    tr.countP (·.2 = .timer) = 1 ∧ tr.countP (·.2 = .go) ≤ 3 * (2 * 6 + 5) + 1 ∧ Ended s.core 1 ∧ Ended s.core 2 ∧
      s.core.vars 0 = 7 := by
  have hc : Checked 2 3 id id nested := ⟨by decide, by decide, by decide, by decide, by decide, by decide⟩
  obtain ⟨tr, ⟨s, v⟩, hp, htest⟩ := exists_path (client nested).next_step (Sched.start, start nested)
    (List.replicate 6 .go ++ [.timer] ++ List.replicate 18 .go)
    (fun x => decide (x.1.countP (·.2 = .timer) = 1 ∧ x.2.1.cpu.pc = .user ∧
      (client nested).finished (x.2.2.thread x.2.1.cpu.owner) = true)) (by decide +kernel)
  obtain ⟨hcount, hover⟩ := of_decide_eq_true htest
  have hcount : tr.countP (·.2 = .timer) = 1 := hcount
  obtain ⟨-, hle, hend⟩ := client_total (M := 6) hc (by decide) Sched.start_initial hp
  obtain ⟨hjoined, hstored⟩ := hend hover
  rw [hcount] at hle
  exact ⟨tr, s, v, hp, hcount, hle, (hjoined 1 (by decide)).1, (hjoined 2 (by decide)).1,
    hstored (2, 0) (by decide) (by decide)⟩

end Client

end Seminars.Green
