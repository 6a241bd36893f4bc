import Seminars.Green.TestMutex

/-!
# Seminars.Green.TestMutexRun — the runs of `test_mutex.c`

* `Inv`: the invariant; `Inv.step` is its step lemma.
* `Inv.can_go`: the program can go on until `main` has ended.
* `rank_lift`: every step of the program lowers `rank`, an interrupt raises it by one.
* `mutex_total`: the program ends, whatever the timer does, and then the variables have the right values.
-/

namespace Seminars.Green.TestMutex

open Seminars.Lib

/-- **The invariant.** -/
structure Inv (L : ℕ) (a : Abs) (b : Book) (v : Config Tid Globals Locals) : Prop where
  team : (team L).Inv a b v
  score : Score L v
  joined : ∀ i, (v.thread mainGreen).loc.before i = false → (a.ctx mainGreen).pc = .join (g i) none ∨ Ended a.core (g i)
  kept : ∀ i, a.freed (g i) = true →
    (v.thread mainGreen).loc.before i = false ∧ (a.ctx mainGreen).pc ≠ .join (g i) none

section Inv

variable {L : ℕ} {a a' : Abs} {b b' : Book} {v v' : Config Tid Globals Locals} {act : Act} {m : Move} {t u : Tid}
  {i : Fin 3}

theorem mem_crew {l : Loc} (ht : t ∈ crew l) : t = mainGreen ∨ ∃ i, t = g i := by
  cases l with
  | create i =>
    obtain ⟨k, rfl⟩ : ∃ k : ℕ, k = t := ⟨t, rfl⟩
    have hlt : k < i.val + 1 := by simpa [crew] using ht
    have hi := i.isLt
    rcases Nat.eq_zero_or_pos k with h0 | hpos
    · exact .inl h0
    · exact .inr ⟨⟨k - 1, by omega⟩, (Nat.sub_add_cancel hpos).symm⟩
  | join i | exit =>
    simp only [crew, List.mem_cons, List.not_mem_nil, or_false] at ht
    rcases ht with rfl | rfl | rfl | rfl
    · exact .inr ⟨2, rfl⟩
    · exact .inr ⟨1, rfl⟩
    · exact .inr ⟨0, rfl⟩
    · exact .inl rfl
  | _ => exact .inl (List.mem_singleton.mp ht)

theorem g_ne_main : g i ≠ mainGreen := by simp [g, mainGreen]

theorem Inv.mem (h : Inv L a b v) (ht : t ∈ a.core.created) : t = mainGreen ∨ ∃ i, t = g i := by
  have hcrew : a.core.created = crew (v.thread mainGreen).loc := h.team.created
  exact mem_crew (hcrew ▸ ht)

theorem Inv.main (h : Inv L a b v) : (v.thread mainGreen).loc.isMain = true := h.team.main

theorem Inv.is_main (h : Inv L a b v) (hl : (v.thread t).loc.isMain = true) : t = mainGreen := h.team.is_main hl

theorem Inv.not_main (h : Inv L a b v) (hl : (v.thread t).loc.isMain = false) : t ≠ mainGreen := h.team.not_main hl

theorem Inv.fits (h : Inv L a b v) (ht : Live a.core t) : Fits (v.thread t).loc (a.ctx t).pc := h.team.stand.fits t ht

theorem Inv.ended (h : Inv L a b v) (ht : Ended a.core t) : (v.thread t).loc = .ret ∧ a.core.retval t = 0 := by
  have hcall : call (v.thread t).loc = some (.ret (a.core.retval t)) := h.team.stand.ended t ht
  cases hl : (v.thread t).loc <;> rw [hl] at hcall <;> simp [call] at hcall
  exact ⟨rfl, hcall.symm⟩

theorem Inv.joins {res : Option ℕ} (h : Inv L a b v) (ht : Live a.core t) (hpc : (a.ctx t).pc = .join (g i) res) :
    t = mainGreen ∧ (v.thread t).loc = afterJoin i := by
  have hfit := h.fits ht
  rw [hpc] at hfit
  obtain ⟨j, hij, -, hl⟩ := hfit
  obtain rfl := g_inj hij
  exact ⟨h.team.joining ht hpc, hl⟩

theorem Inv.place (h : Inv L a b v) (hi : AInv a) (ht : Live a.core t) (htr : t ≠ a.run) :
    t ∈ a.queue .ready ∨ t ∈ a.queue (.mutex mutex) ∧ (a.ctx t).pc = .lock mutex ∨
      t = mainGreen ∧ ∃ i, (a.ctx t).pc = .join (g i) none ∧ Live a.core (g i) ∧ a.core.join (g i) = some t := by
  have hfit := h.fits ht
  rcases hi.good.total t ht with hr | ⟨p, hp⟩
  · exact absurd (List.mem_singleton.mp hr) htr
  obtain ⟨-, hs⟩ := hi.good.waits t p hp
  cases p with
  | queue q =>
    cases q with
    | ready => exact .inl hp
    | cond c =>
      obtain ⟨x, hpc⟩ := hs
      rw [hpc] at hfit
      exact hfit.elim
    | mutex x =>
      rcases hs with hpc | hpc <;> rw [hpc] at hfit
      · obtain ⟨rfl, -⟩ := hfit
        exact .inr (.inl ⟨hp, hpc⟩)
      · exact hfit.elim
  | join w =>
    obtain ⟨res, hpc⟩ := hs
    rw [hpc] at hfit
    obtain ⟨i, rfl, rfl, -⟩ := hfit
    exact .inr (.inr ⟨(h.joins ht hpc).1, i, hpc, hp⟩)
  | lost => exact absurd hp (by simp [Placed, h.team.lost])

/-- **A thread that lives beside the running one and `main` keeps the ready queue from running dry.** -/
theorem Inv.ready (h : Inv L a b v) (hi : AInv a) (ht : Live a.core t) (htr : t ≠ a.run) (htm : t ≠ mainGreen)
    (hno : a.run ∉ b.holds) (hst : stands mutex (a.ctx a.run).pc = false) : a.queue .ready ≠ [] := by
  rcases h.place hi ht htr with hr | ⟨hq, -⟩ | ⟨hm, -⟩
  · exact List.ne_nil_of_mem hr
  · refine h.team.owner hi ?_ hno hst
    by_contra hk
    rw [h.team.empty (by simpa using hk)] at hq
    exact absurd hq (by simp)
  · exact absurd hm htm

/-! ### The program goes on -/

theorem Inv.collectable (h : Inv L a b v) (hz : Ended a.core (g i)) (hf : a.freed (g i) = false) :
    a.Collectable (g i) none :=
  ⟨fun hne => absurd (h.ended hz).2 hne, hf⟩

theorem Inv.can_resume (h : Inv L a b v) (hi : AInv a) (hpc : (a.ctx a.run).pc ≠ .user) : ∃ a', AStep a .resume a' := by
  have hfit := h.fits hi.live
  obtain ⟨-, hs⟩ := hi.pc.resolve_left hpc
  cases hp : (a.ctx a.run).pc with
  | user => exact absurd hp hpc
  | start =>
    rw [hp] at hfit
    have hl : (v.thread a.run).loc = .enter := hfit
    exact ⟨_, .resumeStart hp (h.team.stand.fn _ hi.live.1 (h.not_main (by rw [hl]; rfl)))⟩
  | yield back =>
    rw [hp] at hfit
    obtain rfl : back = none := hfit
    exact ⟨_, .resumeYield hp⟩
  | lock x => exact ⟨_, .resumeLocked (.inr hp)⟩
  | join w res =>
    rw [hp] at hfit hs
    obtain ⟨i, rfl, rfl, -⟩ := hfit
    have hmain := (h.joins hi.live hp).1
    have hz : Ended a.core (g i) := hs
    refine ⟨_, .resumeJoin hp (h.collectable hz ?_)⟩
    by_contra hf
    exact (h.kept i (by simpa using hf)).2 (hmain ▸ hp)
  | wait c x => exact (hp ▸ hfit : Fits _ (.wait c x)).elim
  | rewait x => exact (hp ▸ hfit : Fits _ (.rewait x)).elim
  | epi w e => exact (hp ▸ hfit : Fits _ (.epi w e)).elim

/-- A thread that ends wakes `main`, or others are ready. -/
theorem Inv.can_ret (h : Inv L a b v) (hi : AInv a) (hpc : (a.ctx a.run).pc = .user)
    (hl : (v.thread a.run).loc = .ret) : ∃ a', AStep a (.ret 0) a' := by
  have hne : (a.finish 0).queue .ready ≠ [] := by
    have hno : a.run ∉ b.holds := h.team.not_holds (show (v.thread a.run).loc.inside = false by rw [hl]; rfl)
    rw [a.finish_ready]
    cases hj : a.core.join a.run with
    | some j => simp
    | none =>
      have hm : mainGreen ≠ a.run := (h.not_main (by rw [hl]; rfl)).symm
      have hst : stands mutex (a.ctx a.run).pc = false := by rw [hpc]; rfl
      have hready : a.queue .ready ≠ [] := by
        rcases h.place hi h.team.main_live hm with hr | ⟨-, hlock⟩ | ⟨-, i, -, hlive, hjoin⟩
        · exact List.ne_nil_of_mem hr
        · have hfit := h.fits h.team.main_live
          have hmain := h.main
          rw [hlock] at hfit
          rw [hfit.2] at hmain
          cases hmain
        · refine h.ready hi hlive (fun e => ?_) g_ne_main hno hst
          rw [e, hj] at hjoin
          cases hjoin
      simpa using hready
  obtain ⟨n, l, hq⟩ := List.exists_cons_of_ne_nil hne
  exact ⟨_, .ret ⟨n, l, hq, rfl⟩⟩

theorem Inv.can_call (h : Inv L a b v) (hi : AInv a) (hpc : (a.ctx a.run).pc = .user)
    (hact : call (v.thread a.run).loc = some act) :
    enabled (a.ctx a.run) act ∧ proper a.core act ∧ ∃ a', AStep a act a' := by
  have hst : stands mutex (a.ctx a.run).pc = false := by rw [hpc]; rfl
  have hrun : (v.thread a.run).loc.isMain = true → a.run = mainGreen := h.is_main
  have hno : (v.thread a.run).loc.inside = false → a.run ∉ b.holds := h.team.not_holds
  have hcrew : a.core.created = crew (v.thread mainGreen).loc := h.team.created
  cases hl : (v.thread a.run).loc <;> rw [hl] at hact hrun hno <;> cases hact
  case mutexInit => exact ⟨hpc, trivial, _, .mutexInit⟩
  case create i =>
    refine ⟨hpc, ?_, _, .create⟩
    rw [hrun rfl] at hl
    simp [proper, hcrew, hl, crew, g]
  case join i =>
    rw [hrun rfl] at hl
    have hc : g i ∈ a.core.created := by
      rw [hcrew, hl]
      fin_cases i <;> simp [crew, g]
    refine ⟨hpc, hc, ?_⟩
    rcases live_or_ended hc with hlive | hz
    · have hready : a.queue .ready ≠ [] :=
        h.ready hi hlive (by rw [hrun rfl]; exact g_ne_main) g_ne_main (hno rfl) hst
      obtain ⟨n, l, hq⟩ := List.exists_cons_of_ne_nil hready
      exact ⟨_, .joinWait hlive.2 ⟨n, l, hq, rfl⟩⟩
    · refine ⟨_, .joinNow hz.2 (h.collectable hz ?_)⟩
      by_contra hf
      have hbefore := (h.kept i (by simpa using hf)).1
      rw [hl] at hbefore
      simp [Loc.before] at hbefore
  case lock =>
    refine ⟨hpc, trivial, ?_⟩
    cases htk : a.core.taken mutex with
    | false => exact ⟨_, .lockFree htk⟩
    | true =>
      obtain ⟨n, l, hq⟩ := List.exists_cons_of_ne_nil (h.team.owner hi htk (hno rfl) hst)
      exact ⟨_, .lockWait htk ⟨n, l, by simpa [Abs.push, Abs.stop, Abs.onCtx] using hq, rfl⟩⟩
  case unlock =>
    refine ⟨hpc, trivial, ?_⟩
    by_cases hq : a.queue (.mutex mutex) = []
    · exact ⟨_, .unlockFree hq⟩
    · exact ⟨_, .unlockPass hq⟩
  case ret =>
    have hm := h.not_main (t := a.run) (by rw [hl]; rfl)
    have hthis := (h.team.stand.this _ hi.live hm).resolve_left (by rw [hpc]; simp)
    exact ⟨⟨hpc, hthis⟩, trivial, h.can_ret hi hpc hl⟩

/-- **The program goes on** until `main` has come to its end. -/
theorem Inv.can_go (h : Inv L a b v) (hi : AInv a)
    (hno : ¬ ((a.ctx a.run).pc = .user ∧ (v.thread a.run).loc = .exit)) : ∃ x, (testMutex L).Lift (a, v) .go x := by
  by_cases hpc : (a.ctx a.run).pc = .user
  · cases hact : call (v.thread a.run).loc with
    | some act =>
      obtain ⟨hen, hpr, a', hst⟩ := h.can_call hi hpc hact
      exact ⟨_, .call hact hen hpr hst⟩
    | none => exact ⟨_, .compute hpc hact (decide_eq_false fun hl => hno ⟨hpc, hl⟩)⟩
  · obtain ⟨a', hst⟩ := h.can_resume hi hpc
    exact ⟨_, .resume hpc hst⟩

/-! ### The step lemma -/

theorem Inv.goOn (h : Inv L a b v) (hi : AInv a) (hst : AStep a act a') (hen : enabled (a.ctx a.run) act)
    (hact : act = .timer ∨ act = .resume) (hteam : (TestMutex.team L).Inv a' b' v) : Inv L a' b' v := by
  obtain ⟨hcr, hz, -⟩ := hst.goOn hact
  have hpr : proper a.core act := by rcases hact with rfl | rfl <;> trivial
  have hlands := hst.lands hi hen hpr
  have hctx : mainGreen ≠ a.run → a'.ctx mainGreen = a.ctx mainGreen := fun hm => hst.ctx hpr h.team.main_live.1 hm
  have hpc' : ∀ w res, (a'.ctx a.run).pc ≠ .join w res := by
    intro w res
    rcases hact with rfl | rfl
    · rw [show (a'.ctx a.run).pc = .yield none from hlands]
      simp
    · rcases hlands with hpc | ⟨c, x, -, hpc⟩ <;> rw [hpc] <;> simp
  refine ⟨hteam, h.score, fun i hb => ?_, fun i hf => ?_⟩
  · rw [Ended, hcr, hz]
    by_cases hm : mainGreen = a.run
    · right
      rcases h.joined i hb with hp | he
      · -- the join goes on, so the thread has ended
        rw [hm] at hp
        have hw := (hi.pc.resolve_left (by rw [hp]; simp)).2
        rw [hp] at hw
        exact hw
      · exact he
    · rw [hctx hm]
      exact h.joined i hb
  · have hold : a.freed (g i) = true ∨ ∃ res, (a.ctx a.run).pc = .join (g i) res := by
      rcases hst.freed hf with hf | ⟨res, rfl, -⟩ | ⟨-, hp⟩
      · exact .inl hf
      · rcases hact with hact | hact <;> cases hact
      · exact .inr hp
    rcases hold with hf | ⟨res, hp⟩
    · obtain ⟨hb, hp⟩ := h.kept i hf
      refine ⟨hb, ?_⟩
      by_cases hm : mainGreen = a.run
      · rw [hm]
        exact hpc' _ _
      · rw [hctx hm]
        exact hp
    · obtain ⟨hr, hl⟩ := h.joins hi.live hp
      rw [hr] at hl hpc'
      exact ⟨by rw [hl]; exact before_afterJoin i, hpc' _ _⟩

/-- **Two threads are not about to store `shared`.** -/
theorem Inv.score_after (hL : 3 * L < 2 ^ 31) (h : Inv L a b v) (hi : AInv a) (hpc : (a.ctx a.run).pc = .user) :
    Score L ((testMutex L).after (a.core.arg a.run) a.run v) := by
  rcases h.mem hi.live.1 with hm | ⟨i, hr⟩
  · rw [hm]
    exact h.score.main h.main
  have halone := h.team.alone hi hpc
  have harg := h.team.arg a.run hi.live.1
  rw [hr] at halone harg ⊢
  refine h.score.exec hL (fun _ => harg g_ne_main) fun hl j hj hlj => hj ?_
  have hcj : g j ∈ a.core.created := by
    by_contra hc
    have hfresh : v.thread (g j) = {} := h.team.stand.fresh _ hc
    rw [hfresh] at hlj
    cases hlj
  have hlive : Live a.core (g j) := by
    refine (live_or_ended hcj).resolve_right fun he => ?_
    cases hlj.symm.trans (h.ended he).1
  have haway : ¬ Away mutex (a.ctx (g j)).pc := by
    intro hp
    have hfit := h.fits hlive
    rcases hp with hp | ⟨c, hp⟩ | hp <;> rw [hp] at hfit
    · cases hlj.symm.trans hfit.2
    · exact hfit
    · exact hfit
  have hjh : g j ∈ b.holds := (h.team.holds _).mpr ⟨hlive, congrArg Loc.inside hlj, haway⟩
  rw [halone (congrArg Loc.inside hl), List.mem_singleton] at hjh
  exact g_inj hjh

theorem Inv.computes (hL : 3 * L < 2 ^ 31) (h : Inv L a b v) (hi : AInv a) (hpc : (a.ctx a.run).pc = .user)
    (hcall : call (v.thread a.run).loc = none) (hexit : (v.thread a.run).loc ≠ .exit)
    (hteam : (TestMutex.team L).Inv a b' ((testMutex L).after (a.core.arg a.run) a.run v)) :
    Inv L a b' ((testMutex L).after (a.core.arg a.run) a.run v) := by
  have hm : mainGreen ≠ a.run := by
    refine (h.not_main ?_).symm
    cases hl : (v.thread a.run).loc <;> rw [hl] at hcall hexit <;> first | rfl | contradiction
  have hmain : ((testMutex L).after (a.core.arg a.run) a.run v).thread mainGreen = v.thread mainGreen :=
    Program.after_other hm
  exact ⟨hteam, h.score_after hL hi hpc, by rw [hmain]; exact h.joined, by rw [hmain]; exact h.kept⟩

theorem lands_join {c : Ctx} {pc : Pc} (hl : Lands c.pc act pc) (hpc : c.pc = .user) {w : Tid} {res : Option ℕ}
    (hp : pc = .join w res) : act = .join w res := by
  subst hp
  cases act with
  | join t r =>
    rcases hl with hl | hl <;> cases hl
    rfl
  | ret x => cases hpc.symm.trans (show Pc.join w res = c.pc from hl).symm
  | resume => rcases hl with hl | ⟨_, _, -, hl⟩ <;> cases hl
  | lock x => rcases hl with hl | hl <;> cases hl
  | _ => cases hl

theorem Inv.calls (hL : 3 * L < 2 ^ 31) (h : Inv L a b v) (hi : AInv a) (hst : AStep a act a')
    (hen : enabled (a.ctx a.run) act) (hpr : proper a.core act) (hact : call (v.thread a.run).loc = some act)
    (hteam : (TestMutex.team L).Inv a' b' ((testMutex L).after (a.core.arg a.run) a.run v)) :
    Inv L a' b' ((testMutex L).after (a.core.arg a.run) a.run v) := by
  have hpc : (a.ctx a.run).pc = .user := (TestMutex.team L).pc_user hact hen
  have hlands := hst.lands hi hen hpr
  have hself : ((testMutex L).after (a.core.arg a.run) a.run v).thread a.run =
      (exec L (a.core.arg a.run) (v.shared, v.thread a.run)).2 := Program.after_self
  have hother : mainGreen ≠ a.run →
      ((testMutex L).after (a.core.arg a.run) a.run v).thread mainGreen = v.thread mainGreen :=
    fun ht => Program.after_other ht
  have hctx : mainGreen ≠ a.run → a'.ctx mainGreen = a.ctx mainGreen := fun hm => hst.ctx hpr h.team.main_live.1 hm
  refine ⟨hteam, h.score_after hL hi hpc, fun i hb => ?_, fun i hf => ?_⟩
  · by_cases hm : mainGreen = a.run
    · rw [hm, hself] at hb
      rcases (before_exec (x := (_, _)) (hm ▸ h.main)).mp hb with hb | hl
      · refine .inr (hst.ended_mono hpr ((h.joined i (hm ▸ hb)).resolve_left ?_))
        rw [hm, hpc]
        simp
      · -- `main` calls `green_join` for this thread
        have hl : (v.thread a.run).loc = .join i := hl
        rw [hl] at hact
        cases hact
        rw [hm]
        cases hst with
        | joinWait _ hn =>
          left
          rw [hn.ctx]
          simp [Abs.await, Abs.stop, Abs.onCtx]
        | joinNow hz _ => exact .inr ⟨(a.collect_created _ _).symm ▸ hpr, (congrFun (a.collect_zombie _ _) _).trans hz⟩
    · rw [hother hm] at hb
      rw [hctx hm]
      exact (h.joined i hb).imp_right (hst.ended_mono hpr)
  · rcases hst.freed hf with hf | ⟨res, rfl, hz⟩ | ⟨rfl, -⟩
    · obtain ⟨hb, hp⟩ := h.kept i hf
      by_cases hm : mainGreen = a.run
      · rw [hm, hself]
        rw [hm] at hb
        refine ⟨(before_exec (x := (_, _)) (hm ▸ h.main)).mpr (.inl hb), fun hp' => ?_⟩
        obtain rfl := lands_join hlands hpc hp'
        cases hl : (v.thread a.run).loc <;> rw [hl] at hact hb <;> simp [call] at hact
        obtain rfl := g_inj hact
        simp [Loc.before] at hb
      · rw [hother hm, hctx hm]
        exact ⟨hb, hp⟩
    · have hl : (v.thread a.run).loc = .join i := by
        cases hl : (v.thread a.run).loc <;> rw [hl] at hact <;> simp [call] at hact
        rw [g_inj hact.1]
      have hm : mainGreen = a.run := (h.is_main (by rw [hl]; rfl)).symm
      rw [hm, hself]
      refine ⟨(before_exec (x := (_, _)) (hm ▸ h.main)).mpr (.inr hl), ?_⟩
      cases hst with
      | joinWait hz' _ => cases hz'.symm.trans hz
      | joinNow _ _ => simp [Abs.leave, Abs.onCtx, Abs.collect]
    · cases hl : (v.thread a.run).loc <;> rw [hl] at hact <;> cases hact

/-- **The step lemma.** -/
theorem Inv.step (hL : 3 * L < 2 ^ 31) (h : Inv L a b v) (hi : AInv a) (hst : (testMutex L).Lift (a, v) m (a', v')) :
    ∃ b', Inv L a' b' v' := by
  obtain ⟨b', hteam⟩ := h.team.step hi hst fun _ _ c x hw => by
    have hw : call (v.thread a.run).loc = some (.condWait c x) := hw
    cases hl : (v.thread a.run).loc <;> rw [hl] at hw <;> cases hw
  refine ⟨b', ?_⟩
  cases hst with
  | timer hen hst => exact h.goOn hi hst hen (.inl rfl) hteam
  | resume hen hst => exact h.goOn hi hst hen (.inr rfl) hteam
  | call hact hen hpr hst => exact h.calls hL hi hst hen hpr hact hteam
  | compute hpc hcall hover => exact h.computes hL hi hpc hcall (of_decide_eq_false hover) hteam

/-! ### The program ends -/

/-- What the threads have left. -/
def rank (L : ℕ) : Abs → Config Tid Globals Locals → ℕ := Program.rank (Locals.left L) 4

theorem Inv.run_lt (h : Inv L a b v) (hi : AInv a) : a.run < 4 := by
  rcases h.mem hi.live.1 with hm | ⟨i, hr⟩
  · rw [hm]
    decide
  · rw [hr]
    have hlt := i.isLt
    show i.val + 1 < 4
    omega

/-- A statement of the running thread lowers what it has left. -/
theorem Inv.left_lt (h : Inv L a b v) (hi : AInv a) (hexit : (v.thread a.run).loc ≠ .exit)
    (hret : (v.thread a.run).loc ≠ .ret) :
    (((testMutex L).after (a.core.arg a.run) a.run v).thread a.run).left L < (v.thread a.run).left L := by
  rw [Program.after_self]
  refine left_exec (x := (_, _)) (fun hbusy => ?_) hexit hret
  rcases h.mem hi.live.1 with hm | ⟨i, hr⟩
  · have hmain := h.main
    rw [← hm] at hmain
    cases hl : (v.thread a.run).loc <;> simp [hl, Loc.busy, Loc.inside, Loc.isMain] at hbusy hmain
  · rw [hr] at hbusy ⊢
    exact (h.score.each i).busy hbusy

/-- **Every step of the program lowers the rank**, an interrupt raises it by one. -/
theorem Inv.rank_lift (h : Inv L a b v) (hi : AInv a) (hst : (testMutex L).Lift (a, v) m (a', v')) :
    if m = .go then rank L a' v' < rank L a v else rank L a' v' ≤ rank L a v + 1 := by
  have hfit := h.fits hi.live
  refine Program.rank_lift (Locals.left L) hi hst (h.run_lt hi) (fun c x hpc => ?_) (fun w hw => ?_) fun hgo hret => ?_
  · rw [hpc] at hfit
    exact hfit
  · have hw : call (v.thread a.run).loc = some (.ret w) := hw
    cases hl : (v.thread a.run).loc <;> rw [hl] at hw <;> cases hw
    simp [Locals.left, hl]
  · rw [← Program.after_self (P := testMutex L)]
    refine h.left_lt hi (fun hl => ?_) fun hl => ?_
    · rcases hgo with hcall | hover
      · exact hcall (show call (v.thread a.run).loc = none by rw [hl]; rfl)
      · exact of_decide_eq_false hover hl
    · exact hret 0 (show call (v.thread a.run).loc = _ by rw [hl]; rfl)

end Inv

/-! ### Runs -/

section Runs

variable {L : ℕ} {s₀ s : Sched} {v : Config Tid Globals Locals}
variable {tr : List ((Sched × Config Tid Globals Locals) × Move)}

theorem inv_initial (h0 : s₀.Initial) : Inv L s₀.abs .empty start := by
  have hfresh : ∀ t, t ≠ mainGreen → start.thread t = {} := fun t ht => if_neg ht
  have hg : ∀ i, start.thread (g i) = {} := fun i => hfresh _ g_ne_main
  have hteam : (team L).Inv s₀.abs .empty start := .initial h0 rfl rfl hfresh
  refine ⟨hteam, ⟨fun i => ?_, ?_, fun i => ?_, fun i hl => ?_, fun i hl => ?_⟩, fun i hb => ?_, fun i hf => ?_⟩
  · rw [hg i]
    refine ⟨rfl, fun hl => absurd rfl hl, fun _ => rfl, Nat.zero_le L, ?_, ?_⟩ <;> intro hl <;> cases hl
  · have hmade : ∀ i, (start.thread (g i)).made = 0 := by
      intro i
      rw [hg i]
      rfl
    simp only [hmade]
    rfl
  · fin_cases i <;> rfl
  · rw [hg i] at hl
    cases hl
  · rw [hg i] at hl
    cases hl
  · cases hb
  · cases hf

theorem rank_initial (h0 : s₀.Initial) : rank L s₀.abs start = 48 * L + 35 := by
  have hcore : s₀.abs.core.created = [mainGreen] := h0.created
  have hz : s₀.abs.core.zombie mainGreen = false := h0.zombie
  have hpc : ∀ t, (s₀.abs.ctx t).pc = .user := by simp [Sched.abs, h0.cpu]
  have hm : Program.part (Locals.left L) s₀.abs start mainGreen = 14 := by
    simp [Program.part, Ended, hcore, hz, hpc, start, Locals.left]
  have hg : ∀ i : Fin 3, Program.part (Locals.left L) s₀.abs start (g i) = 16 * L + 7 := by
    intro i
    have hne : g i ≠ mainGreen := g_ne_main
    simp [Program.part, Ended, hcore, start, Locals.left, hne]
    omega
  have h0 : Program.part (Locals.left L) s₀.abs start 1 = 16 * L + 7 := hg 0
  have h1 : Program.part (Locals.left L) s₀.abs start 2 = 16 * L + 7 := hg 1
  have h2 : Program.part (Locals.left L) s₀.abs start 3 = 16 * L + 7 := hg 2
  have h3 : Program.part (Locals.left L) s₀.abs start 0 = 14 := hm
  rw [rank, Program.rank, Finset.sum_range_succ, Finset.sum_range_succ, Finset.sum_range_succ, Finset.sum_range_one]
  omega

theorem Inv.result {a : Abs} {b : Book} (h : Inv L a b v) (hpc : (a.ctx mainGreen).pc = .user)
    (hl : (v.thread mainGreen).loc = .exit) : v.shared = ⟨3 * L, L, L, L⟩ := by
  have hend : ∀ i, (v.thread (g i)).loc = .ret ∧ (v.thread (g i)).i = L := by
    intro i
    have he : Ended a.core (g i) := by
      refine (h.joined i (by rw [hl]; rfl)).resolve_left ?_
      rw [hpc]
      simp
    have hloc := (h.ended he).1
    exact ⟨hloc, (h.score.each i).ret hloc⟩
  have hmade : ∀ i, (v.thread (g i)).made = L := fun i => by simp [Locals.made, (hend i).1, (hend i).2]
  have hmadeOwn : ∀ i, (v.thread (g i)).madeOwn = L := fun i => by simp [Locals.madeOwn, (hend i).1, (hend i).2]
  have hshared : v.shared.shared = 3 * L := by
    rw [h.score.shared]
    simp [hmade]
  have hown : ∀ i : Fin 3, v.shared.own i = L := fun i => by rw [h.score.own i, hmadeOwn i]
  exact Globals.ext hshared (hown 0) (hown 1) (hown 2)

/-- **The test of the mutex.**  Wherever the timer interrupts but at the end of `green_thread`, the program goes on
until `main` comes to its end, which it does after `48 * L + 35` steps and one for each interrupt at most; each thread
has then incremented its own variable `L` times, and `shared` is `3 * L`. -/
theorem mutex_total (hL : 3 * L < 2 ^ 31) (h0 : s₀.Initial) (hp : Path (testMutex L).Step (s₀, start) tr (s, v)) :
    (¬ (testMutex L).Over s v → ∃ y, (testMutex L).Step (s, v) .go y) ∧
      tr.countP (·.2 = .go) ≤ 48 * L + 35 + tr.countP (·.2 = .timer) ∧
      ((testMutex L).Over s v → v.shared = ⟨3 * L, L, L, L⟩) := by
  obtain ⟨a, ha, ⟨b, h⟩, hle⟩ := Program.bounded_run (rank L) (I := fun a v => ∃ b, Inv L a b v) h0
    ⟨_, inv_initial h0⟩ hp fun a v m a' v' hi ⟨b, h⟩ hst => ⟨h.step hL hi hst, h.rank_lift hi hst⟩
  have hi := ha.inv
  rw [rank_initial h0] at hle
  have hover : (testMutex L).Over s v ↔ (a.ctx a.run).pc = .user ∧ (v.thread a.run).loc = .exit := by
    rw [Program.Over, ha.owner, ha.loaded.2]
    exact and_congr_right fun _ => decide_eq_true_iff
  refine ⟨fun hno => ?_, by omega, fun ho => ?_⟩
  · obtain ⟨x, hx⟩ := h.can_go hi (hover.not.mp hno)
    exact Program.can_step ha hx
  · obtain ⟨hpc, hl⟩ := hover.mp ho
    have hm : a.run = mainGreen := h.is_main (by rw [hl]; rfl)
    rw [hm] at hpc hl
    exact h.result hpc hl

/-- One round each, interrupted between the load and the store of `shared`. -/
theorem mutex_total_one : ∃ tr s v, Path (testMutex 1).Step (Sched.start, start) tr (s, v) ∧
    tr.countP (·.2 = .timer) = 2 ∧ v.shared = ⟨3 * (1 : ℕ), (1 : ℕ), (1 : ℕ), (1 : ℕ)⟩ := by
  obtain ⟨tr, ⟨s, v⟩, hp, htest⟩ := exists_path (testMutex 1).next_step (Sched.start, start)
    (List.replicate 12 .go ++ [.timer] ++ List.replicate 9 .go ++ [.timer] ++ List.replicate 28 .go)
    (fun x => decide (x.1.countP (·.2 = .timer) = 2 ∧ x.2.1.cpu.pc = .user ∧
      (testMutex 1).finished (x.2.2.thread x.2.1.cpu.owner) = true)) (by decide +kernel)
  obtain ⟨hcount, hover⟩ := of_decide_eq_true htest
  exact ⟨tr, s, v, hp, hcount, (mutex_total (by decide) Sched.start_initial hp).2.2 hover⟩

end Runs

end Seminars.Green.TestMutex
