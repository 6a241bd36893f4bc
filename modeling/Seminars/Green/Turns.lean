import Seminars.Green.Team
import Seminars.Green.TestFinal

/-!
# Seminars.Green.Turns — the threads of `test_final.c` take turns

* `Own`: what is true of a thread's locals.  `Score`: how often each thread has set the flag, from its loop counter.
* `team`: where the threads can stand in the library, and which section the mutex protects.
* `Turns`: the invariant; whoever waits for the condition has found the flag against it, or is about to be signalled.
* `turns_run`: in a run in which nobody waits for the mutex when `green_cond_wait` is called, the program goes on.
-/

namespace Seminars.Green.TestFinal

open Seminars.Lib

namespace Loc

/-- The statements of `main`. -/
def isMain : Loc → Bool
  | .condInit | .mutexInit | .create0 | .create1 | .join0 | .join1 | .exit => true
  | _ => false

/-- From the return of `green_mutex_lock` to the call of `green_mutex_unlock`. -/
def inside : Loc → Bool
  | .test | .wait | .set | .signal | .unlock => true
  | _ => false

/-- In a round of the loop. -/
def busy : Loc → Bool
  | .lock | .test | .wait | .set | .signal | .unlock | .dec => true
  | _ => false

/-- In a round of the loop, the flag having been set. -/
def passed : Loc → Bool
  | .signal | .unlock | .dec => true
  | _ => false

end Loc

/-! ### The score -/

/-- How often the thread has set the flag. -/
def Locals.rounds (L : ℕ) (l : Locals) : ℕ :=
  if l.loc = .enter then 0 else L - l.loop + if l.loc.passed then 1 else 0

/-- **The locals of the thread with the number `id`.** -/
structure Own (L id : ℕ) (l : Locals) : Prop where
  test : l.loc.isMain = false
  id : l.loc ≠ .enter → l.id = id
  loop : l.loc ≠ .enter → l.loop ≤ L
  busy : l.loc.busy = true → 1 ≤ l.loop
  ret : l.loc = .ret → l.loop = 0

/-- **Thread `g0` has set the flag as often as `g1`, or once more.** -/
structure Score (L : ℕ) (v : Vars) : Prop where
  each : ∀ t, t ≠ mainGreen → Own L (t - 1) (v.thread t)
  flag : v.shared = 0 ∧ (v.thread g0).rounds L = (v.thread g1).rounds L ∨
    v.shared = 1 ∧ (v.thread g0).rounds L = (v.thread g1).rounds L + 1

section Score

variable {L arg id : ℕ} {x : ℕ × Locals} {v : Vars} {r t : Tid}

/-- A statement leaves its thread in `main` or in `test`. -/
theorem exec_isMain : (exec L arg x).2.loc.isMain = x.2.loc.isMain := by
  cases hl : x.2.loc <;> simp [exec, hl, Loc.isMain]
  all_goals split_ifs <;> rfl

theorem exec_flag : (exec L arg x).1 = if x.2.loc = .set then (x.2.id + 1) % 2 else x.1 := by
  cases hl : x.2.loc <;> simp [exec, hl]

/-- A statement of `test` keeps what is true of the locals. -/
theorem Own.exec (h : Own L id x.2) (harg : x.2.loc = .enter → arg = id) : Own L id (exec L arg x).2 := by
  have hmain : (TestFinal.exec L arg x).2.loc.isMain = false := exec_isMain.trans h.test
  obtain ⟨htest, hid, hloop, hbusy, hret⟩ := h
  cases hl : x.2.loc <;> simp [hl, Loc.busy, Loc.isMain] at harg htest hid hloop hbusy hret
  case head =>
    by_cases hpos : 0 < x.2.loop
    · refine ⟨hmain, ?_, ?_, ?_, ?_⟩ <;> simp [TestFinal.exec, hl, hpos, hid, hloop]
      omega
    · refine ⟨hmain, ?_, ?_, ?_, ?_⟩ <;> simp [TestFinal.exec, hl, hpos, hid, hloop, Loc.busy]
      omega
  case test =>
    refine ⟨hmain, ?_, ?_, ?_, ?_⟩ <;> simp [TestFinal.exec, hl, hid, hloop, hbusy, Loc.busy]
    split_ifs <;> simp
  case dec => refine ⟨hmain, ?_, ?_, ?_, ?_⟩ <;> simp [TestFinal.exec, hl, hid, Loc.busy]; omega
  all_goals refine ⟨hmain, ?_, ?_, ?_, ?_⟩ <;> simp [TestFinal.exec, hl, harg, hid, hloop, hbusy, hret, Loc.busy]

/-- Setting the flag is what is counted. -/
theorem rounds_exec (h : Own L id x.2) (arg : ℕ) :
    (exec L arg x).2.rounds L = x.2.rounds L + if x.2.loc = .set then 1 else 0 := by
  have hloop := h.loop
  have hbusy := h.busy
  cases hl : x.2.loc <;> simp [Locals.rounds, exec, hl, Loc.passed, Loc.busy] at hloop hbusy ⊢
  case head => by_cases hpos : 0 < x.2.loop <;> simp [hpos]
  case test => by_cases hflag : x.1 = x.2.id <;> simp [hflag]
  case dec => omega

/-- **A statement keeps the score**, if the flag is set by the thread whose turn it is. -/
theorem Score.exec (hs : Score L v) (hm : r = mainGreen → (v.thread r).loc.isMain = true)
    (hr : r ≠ mainGreen → r = g0 ∨ r = g1) (harg : r ≠ mainGreen → (v.thread r).loc = .enter → arg = r - 1)
    (hset : (v.thread r).loc = .set → v.shared = (v.thread r).id) : Score L ((testFinal L).after arg r v) := by
  have hself : ((testFinal L).after arg r v).thread r = (TestFinal.exec L arg (v.shared, v.thread r)).2 :=
    Program.after_self
  have hother : ∀ t, t ≠ r → ((testFinal L).after arg r v).thread t = v.thread t := fun t ht => Program.after_other ht
  have hflag : ((testFinal L).after arg r v).shared =
      if (v.thread r).loc = .set then ((v.thread r).id + 1) % 2 else v.shared := exec_flag
  have hround : ∀ t, t ≠ mainGreen → (((testFinal L).after arg r v).thread t).rounds L =
      (v.thread t).rounds L + if t = r ∧ (v.thread r).loc = .set then 1 else 0 := by
    intro t ht
    by_cases htr : t = r
    · subst htr
      rw [hself, rounds_exec (x := (v.shared, v.thread t)) (hs.each t ht) arg]
      simp
    · rw [hother t htr, if_neg fun hx => htr hx.1, Nat.add_zero]
  refine ⟨fun t ht => ?_, ?_⟩
  · by_cases htr : t = r
    · subst htr
      rw [hself]
      exact (hs.each t ht).exec (x := (v.shared, v.thread t)) (harg ht)
    · rw [hother t htr]
      exact hs.each t ht
  · have hold := hs.flag
    rw [hround g0 (by decide), hround g1 (by decide), hflag]
    by_cases hl : (v.thread r).loc = .set
    · have hrm : r ≠ mainGreen := by
        intro he
        have hmain := hm he
        rw [hl] at hmain
        cases hmain
      have hid := (hs.each r hrm).id (by simp [hl])
      have hshared := hset hl
      rcases hr hrm with rfl | rfl
      · rw [if_pos hl, if_pos ⟨rfl, hl⟩, if_neg fun hx => absurd hx.1 (by decide)]
        simp only [g0, g1] at *
        omega
      · rw [if_pos hl, if_neg fun hx => absurd hx.1 (by decide), if_pos ⟨rfl, hl⟩]
        simp only [g0, g1] at *
        omega
    · simpa [hl] using hold

/-- `t` and `u` are the two threads. -/
def Rivals (t u : Tid) : Prop := t = g0 ∧ u = g1 ∨ t = g1 ∧ u = g0

/-- **Whoever finds the flag against it in a round has a rival that has not ended.** -/
theorem Score.rival {u : Tid} (hs : Score L v) (htu : Rivals t u) (hflag : v.shared ≠ (v.thread t).id)
    (hbusy : (v.thread t).loc.busy = true) (hpassed : (v.thread t).loc.passed = false) : (v.thread u).loc ≠ .ret := by
  intro hret
  have ht : t ≠ mainGreen := by rcases htu with ⟨rfl, -⟩ | ⟨rfl, -⟩ <;> decide
  have hu : u ≠ mainGreen := by rcases htu with ⟨-, rfl⟩ | ⟨-, rfl⟩ <;> decide
  have hne : (v.thread t).loc ≠ .enter := by
    intro h
    rw [h] at hbusy
    cases hbusy
  have hid := (hs.each t ht).id hne
  have hone := (hs.each t ht).busy hbusy
  have hle := (hs.each t ht).loop hne
  have hrt : (v.thread t).rounds L = L - (v.thread t).loop := by simp [Locals.rounds, hne, hpassed]
  have hru : (v.thread u).rounds L = L := by simp [Locals.rounds, hret, Loc.passed, (hs.each u hu).ret hret]
  have hold := hs.flag
  rcases htu with ⟨rfl, rfl⟩ | ⟨rfl, rfl⟩
  · simp only [g0] at *
    omega
  · simp only [g1] at *
    omega

/-- Of the two threads, one does not find the flag against it. -/
theorem Score.flag_rivals (hs : Score L v) {u : Tid} (htu : Rivals t u) (ht : (v.thread t).loc ≠ .enter)
    (hu : (v.thread u).loc ≠ .enter) (hflag : v.shared ≠ (v.thread t).id) : v.shared = (v.thread u).id := by
  have hold := hs.flag
  rcases htu with ⟨rfl, rfl⟩ | ⟨rfl, rfl⟩
  · rw [(hs.each g0 (by decide)).id ht] at hflag
    rw [(hs.each g1 (by decide)).id hu]
    simp only [g0, g1] at *
    omega
  · rw [(hs.each g1 (by decide)).id ht] at hflag
    rw [(hs.each g0 (by decide)).id hu]
    simp only [g0, g1] at *
    omega

end Score

/-! ### The team -/

/-- The threads that have been created when `main` is at a statement. -/
def crew : Loc → List Tid
  | .create1 => [g0, mainGreen]
  | .join0 | .join1 | .exit => [g1, g0, mainGreen]
  | _ => [mainGreen]

/-- The place `pc` of a thread in the library fits the statement after it. -/
def Fits (l : Loc) : Pc → Prop
  | .user => True
  | .yield back => back = none
  | .start => l = .enter
  | .lock m => m = mutex ∧ l = .test
  | .rewait m => m = mutex ∧ l = .test
  | .wait c m => c = cond ∧ m = some mutex ∧ l = .test
  | .join u _ => u = g0 ∧ l = .join1 ∨ u = g1 ∧ l = .exit
  | .epi _ _ => False

section Team

variable {L arg : ℕ} {x : ℕ × Locals} {l : Loc} {act : Act} {c : Ctx} {pc : Pc}

/-- Where the code of a caller can be fits the statement that follows. -/
theorem fits_call (hact : call x.2.loc = some act) (hen : enabled c act) (hlands : Lands c.pc act pc) :
    Fits (exec L arg x).2.loc pc := by
  cases hl : x.2.loc <;> rw [hl] at hact <;> cases hact <;> simp only [exec, hl]
  case join0 =>
    rcases hlands with rfl | rfl
    · trivial
    · exact .inl ⟨rfl, rfl⟩
  case join1 =>
    rcases hlands with rfl | rfl
    · trivial
    · exact .inr ⟨rfl, rfl⟩
  case lock =>
    rcases hlands with rfl | rfl
    · trivial
    · exact ⟨rfl, rfl⟩
  case wait =>
    obtain rfl : pc = .wait cond (some mutex) := hlands
    exact ⟨rfl, rfl, rfl⟩
  case ret =>
    obtain rfl : pc = .user := (show pc = c.pc from hlands).trans hen.1
    trivial
  all_goals
    obtain rfl : pc = .user := hlands
    trivial

/-- Away threads are behind the call that took them there. -/
theorem Fits.away (h : Fits l pc) (hpc : Away mutex pc) : l = .test := by
  rcases hpc with rfl | ⟨c, rfl⟩ | rfl
  · exact h.2
  · exact h.2.2
  · exact h.2

theorem Fits.pending (h : Fits l pc) : Pending mutex l.inside l.isMain pc := by
  cases pc with
  | lock m | rewait m =>
    obtain ⟨rfl, rfl⟩ := h
    exact ⟨rfl, rfl⟩
  | wait c m =>
    obtain ⟨-, rfl, rfl⟩ := h
    exact ⟨rfl, rfl⟩
  | join u res => rcases h with ⟨-, rfl⟩ | ⟨-, rfl⟩ <;> rfl
  | _ => trivial

/-- What a call does to the section that the mutex protects. -/
theorem crosses_exec (hact : call x.2.loc = some act) :
    Crosses mutex x.2.loc.inside (exec L arg x).2.loc.inside act := by
  cases hl : x.2.loc <;> rw [hl] at hact <;> cases hact <;> simp [exec, hl, Crosses, Loc.inside]

theorem crew_exec (hact : call x.2.loc = some act) (hm : x.2.loc.isMain = true) :
    crew (exec L arg x).2.loc = act.creates ++ crew x.2.loc := by
  cases hl : x.2.loc <;> rw [hl] at hact hm <;> cases hact <;> simp [exec, hl, crew, Act.creates, Loc.isMain] at hm ⊢

/-- **The threads share the mutex.** -/
def team (L : ℕ) : Team (testFinal L) mutex where
  fits := fun l => Fits l.loc
  fresh := fun l => l.loc = .enter
  user := fun _ => trivial
  yield := fun _ => rfl
  start := fun _ h => h
  rewait := fun _ _ _ h => ⟨Option.some.inj h.2.1, h.2.2⟩
  call := fun _ _ _ _ _ hact hen hl => fits_call hact hen hl
  ret := by
    intro x arg w hact
    have hact : call x.2.loc = some (.ret w) := hact
    show (exec L arg x).2 = x.2
    cases hl : x.2.loc <;> rw [hl] at hact <;> cases hact
    simp only [exec, hl]
  user_call := fun l hact => by cases hl : l.loc <;> simp [testFinal, call, hl] at hact
  create := by
    intro l new fn arg hact
    have hact : call l.loc = some (.create new fn arg) := hact
    cases hl : l.loc <;> rw [hl] at hact <;> cases hact <;> decide
  isMain := fun l => l.loc.isMain
  inside := fun l => l.loc.inside
  crew := fun l => crew l.loc
  num := fun t => t - 1
  test := fun l h => by rw [show l.loc = .enter from h]; exact ⟨rfl, rfl⟩
  out := fun l h => by cases hl : l.loc <;> rw [hl] at h <;> first | rfl | cases h
  root := fun l => by cases l.loc <;> simp [crew]
  stay := fun _ _ => exec_isMain
  pending := fun _ _ h => h.pending
  computes := by
    intro x arg hcall hexit
    have hcall : call x.2.loc = none := hcall
    have hexit : x.2.loc ≠ .exit := of_decide_eq_false hexit
    show x.2.loc.isMain = false ∧ (exec L arg x).2.loc.inside = x.2.loc.inside
    cases hl : x.2.loc <;> simp [call, hl] at hcall hexit <;> simp [exec, hl, Loc.inside, Loc.isMain]
    all_goals split_ifs <;> rfl
  crosses := fun _ _ _ hact => crosses_exec hact
  creates := fun _ _ _ hact hm => crew_exec hact hm
  role := by
    intro l act hact
    have hact : call l.loc = some act := hact
    show Role _ l.loc.isMain (crew l.loc) act
    cases hl : l.loc <;> rw [hl] at hact <;> cases hact <;> simp [Role, Loc.isMain, crew, g0, g1]

end Team

/-! ### The invariant -/

/-- Whoever has tested the flag has found it as it is. -/
def Tested (v : Vars) (t : Tid) : Prop :=
  ((v.thread t).loc = .wait → v.shared ≠ (v.thread t).id) ∧ ((v.thread t).loc = .set → v.shared = (v.thread t).id)

/-- **The invariant.**  A thread that waits for the condition has found the flag against it, or another has set the flag
and is about to signal. -/
structure Turns (L : ℕ) (a : Abs) (b : Book) (v : Vars) : Prop where
  team : (team L).Inv a b v
  score : Score L v
  tested : ∀ t, Live a.core t → Tested v t
  waits : ∀ t ∈ a.queue (.cond cond), v.shared ≠ (v.thread t).id ∨
    ∃ u, Live a.core u ∧ u ≠ t ∧ (v.thread u).loc = .signal

section Turns

variable {L : ℕ} {a a' : Abs} {b b' : Book} {v v' : Vars} {act : Act} {m : Move} {t u : Tid}

theorem Turns.mem (h : Turns L a b v) (ht : t ∈ a.core.created) : t = mainGreen ∨ t = g0 ∨ t = g1 := by
  have hc : a.core.created = crew (v.thread mainGreen).loc := h.team.created
  rw [hc] at ht
  unfold crew at ht
  split at ht <;> simp at ht
  all_goals tauto

theorem Turns.fits (h : Turns L a b v) (ht : Live a.core t) : Fits (v.thread t).loc (a.ctx t).pc :=
  h.team.stand.fits t ht

theorem Turns.ended (h : Turns L a b v) (he : Ended a.core t) : (v.thread t).loc = .ret := by
  have hcall : call (v.thread t).loc = some (.ret (a.core.retval t)) := h.team.stand.ended t he
  cases hl : (v.thread t).loc <;> rw [hl] at hcall <;> cases hcall

/-- Whoever is in the section and has tested the flag holds the mutex. -/
theorem Turns.holder (h : Turns L a b v) (ht : Live a.core t) (hin : (v.thread t).loc.inside = true)
    (hl : (v.thread t).loc ≠ .test) : t ∈ b.holds :=
  (h.team.holds t).mpr ⟨ht, hin, fun haway => hl ((h.fits ht).away haway)⟩

/-- Nobody else has tested it while the running thread is in the section. -/
theorem Turns.alone (h : Turns L a b v) (hi : AInv a) (hpc : (a.ctx a.run).pc = .user)
    (hrun : (v.thread a.run).loc.inside = true) (ht : Live a.core t) (hin : (v.thread t).loc.inside = true)
    (hl : (v.thread t).loc ≠ .test) : t = a.run := by
  have hm := h.holder ht hin hl
  rw [h.team.alone hi hpc hrun] at hm
  exact List.mem_singleton.mp hm

theorem Turns.on_cond (h : Turns L a b v) (hi : AInv a) {c : ℕ} (ht : t ∈ a.queue (.cond c)) :
    c = cond ∧ (v.thread t).loc = .test := by
  have hfit := h.fits (hi.good.placed t (.queue (.cond c)) ht)
  rw [(h.team.on_cond hi ht).1] at hfit
  exact ⟨hfit.1, hfit.2.2⟩

/-- Who is at a statement of `test` is one of the two threads. -/
theorem Turns.not_main (h : Turns L a b v) (hl : (v.thread t).loc.isMain = false) : t ≠ mainGreen :=
  h.team.not_main hl

theorem Turns.rival (h : Turns L a b v) (ht : t ∈ a.core.created) (hl : (v.thread t).loc.isMain = false) :
    t = g0 ∨ t = g1 :=
  (h.mem ht).resolve_left (h.not_main hl)

/-- While one of the two threads runs, the other one at most waits for the condition. -/
theorem Turns.cond_tail (h : Turns L a b v) (hi : AInv a) (hr : a.run = g0 ∨ a.run = g1) :
    t ∉ (a.queue (.cond cond)).tail := by
  intro ht
  have hother : ∀ x ∈ a.queue (.cond cond), x ≠ a.run ∧ (x = g0 ∨ x = g1) := by
    intro x hx
    have hc := (hi.good.placed x (.queue (.cond cond)) hx).1
    refine ⟨fun e => hi.not_queued _ (e ▸ hx), h.rival hc ?_⟩
    rw [(h.on_cond hi hx).2]
    rfl
  have hnd := hi.good.each (.cond cond)
  cases hl : a.queue (.cond cond) with
  | nil => simp [hl] at ht
  | cons x l =>
    rw [hl] at ht hnd hother
    have h1 := hother x (by simp)
    have h2 := hother t (List.mem_cons_of_mem _ ht)
    have hx : x = t := by
      rcases hr with e | e <;> rw [e] at h1 h2
      · rw [h1.2.resolve_left h1.1, h2.2.resolve_left h2.1]
      · rw [h1.2.resolve_right h1.1, h2.2.resolve_right h2.1]
    exact (List.nodup_cons.mp hnd).1 (hx ▸ ht)

/-! ### The step lemma -/

theorem Turns.goOn (h : Turns L a b v) (hst : AStep a act a') (hact : act = .timer ∨ act = .resume)
    (hteam : (TestFinal.team L).Inv a' b' v) : Turns L a' b' v := by
  obtain ⟨hcr, hz, -⟩ := hst.goOn hact
  have hlive : ∀ t, Live a'.core t ↔ Live a.core t := by
    intro t
    rw [Live, Live, hcr, hz]
  refine ⟨hteam, h.score, fun t ht => h.tested t ((hlive t).mp ht), fun t ht => ?_⟩
  have ht : t ∈ a.queue (.cond cond) := by
    refine (hst.cond ht).resolve_right ?_
    rintro ⟨-, m, rfl⟩
    rcases hact with e | e <;> cases e
  refine (h.waits t ht).imp_right ?_
  rintro ⟨u, hu, hne, hl⟩
  exact ⟨u, (hlive u).mpr hu, hne, hl⟩

theorem Turns.score_after (h : Turns L a b v) (hi : AInv a) :
    Score L ((testFinal L).after (a.core.arg a.run) a.run v) := by
  refine h.score.exec (fun hr => ?_) (fun hm => (h.mem hi.live.1).resolve_left hm) (fun hm _ => ?_) fun hl => ?_
  · rw [hr]
    exact h.team.main
  · exact h.team.arg _ hi.live.1 hm
  · exact (h.tested _ hi.live).2 hl

theorem Turns.tested_after (h : Turns L a b v) (hi : AInv a) (hpc : (a.ctx a.run).pc = .user) (arg : ℕ)
    (hc : t ∈ a.core.created → Live a.core t) : Tested ((testFinal L).after arg a.run v) t := by
  by_cases htr : t = a.run
  · subst htr
    have hflag : ((testFinal L).after arg a.run v).shared = (exec L arg (v.shared, v.thread a.run)).1 := rfl
    rw [Tested, Program.after_self, hflag]
    show ((exec L arg (v.shared, v.thread a.run)).2.loc = .wait → _ ≠ (exec L arg (v.shared, v.thread a.run)).2.id) ∧
      ((exec L arg (v.shared, v.thread a.run)).2.loc = .set → _ = (exec L arg (v.shared, v.thread a.run)).2.id)
    cases hl : (v.thread a.run).loc <;> simp [exec, hl]
    case head => split_ifs <;> simp
  · rw [Tested, Program.after_other htr]
    by_cases hm : t ∈ a.core.created
    · have hset : (v.thread t).loc = .wait ∨ (v.thread t).loc = .set → (v.thread a.run).loc ≠ .set := by
        intro hl hset
        refine htr (h.alone hi hpc (by rw [hset]; rfl) (hc hm) ?_ ?_) <;> rcases hl with hl | hl <;>
          simp [hl, Loc.inside]
      have hflag : (v.thread a.run).loc ≠ .set → ((testFinal L).after arg a.run v).shared = v.shared :=
        fun hne => exec_flag.trans (if_neg hne)
      obtain ⟨hwait, hequal⟩ := h.tested t (hc hm)
      refine ⟨fun hl => ?_, fun hl => ?_⟩
      · rw [hflag (hset (.inl hl))]
        exact hwait hl
      · rw [hflag (hset (.inr hl))]
        exact hequal hl
    · have hfresh : (v.thread t).loc = .enter := h.team.stand.fresh t hm
      simp [hfresh]

/-- Whoever is still on the condition has found the flag against it, or is about to be signalled. -/
theorem Turns.waits_after (h : Turns L a b v) (hi : AInv a) (arg : ℕ) (ht : t ∈ a.queue (.cond cond))
    (hlive : ∀ u, u ≠ a.run → Live a.core u → Live a'.core u)
    (hrun : (v.thread a.run).loc = .set → Live a'.core a.run) (hsignal : (v.thread a.run).loc ≠ .signal) :
    ((testFinal L).after arg a.run v).shared ≠ (((testFinal L).after arg a.run v).thread t).id ∨
      ∃ u, Live a'.core u ∧ u ≠ t ∧ (((testFinal L).after arg a.run v).thread u).loc = .signal := by
  have htr : t ≠ a.run := fun e => hi.not_queued _ (e ▸ ht)
  rw [Program.after_other htr]
  by_cases hset : (v.thread a.run).loc = .set
  · refine .inr ⟨a.run, hrun hset, Ne.symm htr, ?_⟩
    rw [Program.after_self]
    show (exec L arg (v.shared, v.thread a.run)).2.loc = .signal
    simp [exec, hset]
  · have hflag : ((testFinal L).after arg a.run v).shared = v.shared := exec_flag.trans (if_neg hset)
    rw [hflag]
    refine (h.waits t ht).imp_right ?_
    rintro ⟨u, hu, hne, hl⟩
    have hur : u ≠ a.run := fun e => hsignal (e ▸ hl)
    exact ⟨u, hlive u hur hu, hne, by rw [Program.after_other hur, hl]⟩

theorem Turns.computes (h : Turns L a b v) (hi : AInv a) (hpc : (a.ctx a.run).pc = .user)
    (hcall : call (v.thread a.run).loc = none)
    (hteam : (TestFinal.team L).Inv a b' ((testFinal L).after (a.core.arg a.run) a.run v)) :
    Turns L a b' ((testFinal L).after (a.core.arg a.run) a.run v) := by
  refine ⟨hteam, h.score_after hi, fun t ht => h.tested_after hi hpc _ fun _ => ht, fun t ht => ?_⟩
  refine h.waits_after hi _ ht (fun _ _ hu => hu) (fun _ => hi.live) fun hl => ?_
  rw [hl] at hcall
  cases hcall

theorem Turns.calls (h : Turns L a b v) (hi : AInv a) (hst : AStep a act a') (hpr : proper a.core act)
    (hpc : (a.ctx a.run).pc = .user) (hact : call (v.thread a.run).loc = some act)
    (hteam : (TestFinal.team L).Inv a' b' ((testFinal L).after (a.core.arg a.run) a.run v)) :
    Turns L a' b' ((testFinal L).after (a.core.arg a.run) a.run v) := by
  refine ⟨hteam, h.score_after hi, fun t ht => h.tested_after hi hpc _ fun hc => hst.live hpr hc ht, fun t ht => ?_⟩
  rcases hst.cond ht with hold | ⟨rfl, x, rfl⟩
  · refine h.waits_after hi _ hold (fun u hu hl => hst.live_on hl fun _ _ => hu) (fun hl => ?_) fun hl => ?_
    · rw [hl] at hact
      cases hact
    · -- the signal takes the only thread that waits
      rw [hl] at hact
      cases hact
      rw [hst.queue (by simp)] at ht
      exact h.cond_tail hi (h.rival hi.live.1 (by rw [hl]; rfl)) (by simpa [Abs.queueAfter] using ht)
  · have hl : (v.thread a.run).loc = .wait := by
      cases hl : (v.thread a.run).loc <;> rw [hl] at hact <;> cases hact
    have hflag : ((testFinal L).after (a.core.arg a.run) a.run v).shared = v.shared :=
      exec_flag.trans (if_neg (by simp [hl]))
    left
    rw [hflag, Program.after_self]
    show v.shared ≠ (exec L (a.core.arg a.run) (v.shared, v.thread a.run)).2.id
    simpa [exec, hl] using (h.tested _ hi.live).1 hl

/-- **The step lemma.** -/
theorem Turns.step (h : Turns L a b v) (hi : AInv a) (hst : (testFinal L).Lift (a, v) m (a', v'))
    (hcalm : m = .go → (a.ctx a.run).pc = .user → (v.thread a.run).loc = .wait → a.queue (.mutex mutex) = []) :
    ∃ b', Turns L a' b' v' := by
  obtain ⟨b', hteam⟩ := h.team.step hi hst fun hm hpc c x hw => by
    have hw : call (v.thread a.run).loc = some (.condWait c x) := hw
    refine hcalm hm hpc ?_
    cases hl : (v.thread a.run).loc <;> rw [hl] at hw <;> cases hw
  refine ⟨b', ?_⟩
  cases hst with
  | timer _ hst => exact h.goOn hst (.inl rfl) hteam
  | resume _ hst => exact h.goOn hst (.inr rfl) hteam
  | call hact hen hpr hst => exact h.calls hi hst hpr ((TestFinal.team L).pc_user hact hen) hact hteam
  | compute hpc hcall _ => exact h.computes hi hpc hcall hteam

/-! ### Nobody hangs -/

/-- **The threads do not hang.** -/
theorem Turns.not_hung {s : Sched} (h : Turns L a b v) (hR : Refines s a) : ¬ Hung s := by
  rintro ⟨hhead, onCond, onMutex, hc, hm, hnot, hall⟩
  have hi := hR.inv
  have hqs := hR.loaded.1.threads.queues
  have hnil : a.queue .ready = [] := hqs.head_none hhead
  obtain rfl := hc.unique (hqs.each _)
  obtain rfl := hm.unique (hqs.each _)
  rw [hR.loaded.1.core] at hnot hall
  have hr : a.run = mainGreen := by
    refine (h.mem hi.live.1).resolve_right fun hg => ?_
    rcases hall a.run hg with he | hq | hq
    · exact hi.live.not_ended he
    · exact hi.not_queued _ hq
    · exact hi.not_queued _ hq
  obtain ⟨hholds, hmutex⟩ := h.team.idle hi hnil hr
  have hcond : ∀ x, x = g0 ∨ x = g1 → Ended a.core x ∨ x ∈ a.queue (.cond cond) := by
    intro x hx
    refine (hall x hx).imp_right fun hq => hq.resolve_right ?_
    rw [hmutex]
    simp
  have hflag : ∀ x, x ∈ a.queue (.cond cond) → v.shared ≠ (v.thread x).id := by
    intro x hx
    refine (h.waits x hx).resolve_right ?_
    rintro ⟨u, hu, -, hl⟩
    have hm := h.holder hu (by rw [hl]; rfl) (by simp [hl])
    rw [hholds] at hm
    exact absurd hm (by simp)
  -- whoever waits for the condition has a rival that would have to wait too
  have hboth : ∀ x y, Rivals x y → x ∈ a.queue (.cond cond) → y = g0 ∨ y = g1 → False := by
    intro x y hxy hx hy
    have hlx := (h.on_cond hi hx).2
    have hret := h.score.rival hxy (hflag x hx) (by rw [hlx]; rfl) (by rw [hlx]; rfl)
    rcases hcond y hy with he | hyc
    · exact hret (h.ended he)
    · have hly := (h.on_cond hi hyc).2
      exact hflag y hyc (h.score.flag_rivals hxy (by simp [hlx]) (by simp [hly]) (hflag x hx))
  rcases hcond g0 (.inl rfl) with he | hq
  · rcases hcond g1 (.inr rfl) with he' | hq
    · exact hnot ⟨he, he'⟩
    · exact hboth g1 g0 (.inr ⟨rfl, rfl⟩) hq (.inl rfl)
  · exact hboth g0 g1 (.inl ⟨rfl, rfl⟩) hq (.inr rfl)

/-- **A thread that is about to wait for the condition finds one to run.** -/
theorem Turns.can_wait (h : Turns L a b v) (hi : AInv a) (hpc : (a.ctx a.run).pc = .user)
    (hl : (v.thread a.run).loc = .wait) : a.queue .ready ≠ [] ∨ a.queue (.mutex mutex) ≠ [] := by
  by_contra hno
  obtain ⟨hready, hmutex⟩ := not_or.mp hno
  have hready := not_not.mp hready
  have hmutex := not_not.mp hmutex
  have hrm := h.not_main (t := a.run) (by rw [hl]; rfl)
  have hflag : v.shared ≠ (v.thread a.run).id := (h.tested a.run hi.live).1 hl
  obtain ⟨u, hru⟩ : ∃ u, Rivals a.run u := by
    rcases (h.mem hi.live.1).resolve_left hrm with hr | hr
    · exact ⟨g1, .inl ⟨hr, rfl⟩⟩
    · exact ⟨g0, .inr ⟨hr, rfl⟩⟩
  have hret := h.score.rival hru hflag (by rw [hl]; rfl) (by rw [hl]; rfl)
  -- a live thread that does not run waits for the condition, or for a thread to end
  have hplace : ∀ t, Live a.core t → t ≠ a.run → t ∈ a.queue (.cond cond) ∨ ∃ w, Placed a t (.join w) := by
    intro t ht htr
    rcases hi.good.total t ht with hr | ⟨p, hp⟩
    · exact absurd (List.mem_singleton.mp hr) htr
    cases p with
    | queue q =>
      cases q with
      | ready => exact absurd hp (by simp [Placed, hready])
      | cond c => exact .inl ((h.on_cond hi hp).1 ▸ hp)
      | mutex m =>
        have hm := (h.team.on_mutex hi hp).1
        subst hm
        exact absurd hp (by simp [Placed, hmutex])
    | join w => exact .inr ⟨w, hp⟩
    | lost => exact absurd hp (by simp [Placed, h.team.lost])
  have hur : u ≠ a.run := by
    rcases hru with ⟨hr, rfl⟩ | ⟨hr, rfl⟩ <;> rw [hr] <;> decide
  have hum : u ≠ mainGreen := by rcases hru with ⟨-, rfl⟩ | ⟨-, rfl⟩ <;> decide
  by_cases hc : u ∈ a.core.created
  · have hu : Live a.core u := (live_or_ended hc).resolve_right fun he => hret (h.ended he)
    rcases hplace u hu hur with hq | ⟨w, hw⟩
    · have hlu := (h.on_cond hi hq).2
      have hfu := h.score.flag_rivals hru (by simp [hl]) (by simp [hlu]) hflag
      rcases h.waits u hq with hne | ⟨x, hx, -, hlx⟩
      · exact hne hfu
      · have hxr := h.alone hi hpc (by rw [hl]; rfl) hx (by rw [hlx]; rfl) (by simp [hlx])
        rw [hxr, hl] at hlx
        cases hlx
    · exact hum (h.team.in_join hi hw)
  · -- the rival has not been created, so `main` has not come to its joins
    rcases hplace mainGreen h.team.main_live (Ne.symm hrm) with hq | ⟨w, hw⟩
    · exact h.team.inside_main (h.team.on_cond hi hq).2 rfl
    · obtain ⟨-, res, hpcm⟩ := hi.good.waits mainGreen _ hw
      have hfit := h.fits h.team.main_live
      have hcrew : a.core.created = crew (v.thread mainGreen).loc := h.team.created
      rw [hpcm] at hfit
      have hall : a.core.created = [g1, g0, mainGreen] := by
        rw [hcrew]
        rcases hfit with ⟨-, e⟩ | ⟨-, e⟩ <;> rw [e] <;> rfl
      rw [hall] at hc
      rcases hru with ⟨-, rfl⟩ | ⟨-, rfl⟩ <;> simp at hc

/-- **The invariant keeps the program awake.** -/
theorem Turns.awake {s : Sched} (h : Turns L a b v) (hR : Refines s a) : Awake s v := by
  have hi := hR.inv
  have hcpu := hR.loaded.2
  refine ⟨h.not_hung hR, fun hpc hl => ?_, fun hpc hl => ?_⟩
  · rw [hR.owner] at hl
    have hno : a.run ∉ b.holds := h.team.not_holds (show (v.thread a.run).loc.inside = false by rw [hl]; rfl)
    have hstep : ∃ a', AStep a (.lock mutex) a' := by
      cases htk : a.core.taken mutex with
      | false => exact ⟨_, .lockFree htk⟩
      | true =>
        have hready := h.team.owner hi htk hno (by rw [← hcpu, hpc]; rfl)
        obtain ⟨n, l, hq⟩ := List.exists_cons_of_ne_nil hready
        exact ⟨_, .lockWait htk ⟨n, l, by simpa [Abs.push, Abs.stop, Abs.onCtx] using hq, rfl⟩⟩
    obtain ⟨a', hst⟩ := hstep
    obtain ⟨s', -, -, hrun⟩ := can_step hR (show enabled s.cpu (.lock mutex) from hpc) trivial hst
    exact fun he => absurd (hrun.symm.trans he) (by simp)
  · rw [hR.owner] at hl
    have hstep : ∃ a', AStep a (.condWait cond (some mutex)) a' := by
      have hne : (((a.stop (.wait cond (some mutex))).push (.cond cond) a.run).release (some mutex)).queue
          .ready ≠ [] := by
        rw [Abs.release_ready]
        rcases h.can_wait hi (by rw [← hcpu, hpc]) hl with hq | hq
        · simp [Abs.push, Abs.stop, Abs.onCtx, hq]
        · obtain ⟨w, l, hw⟩ := List.exists_cons_of_ne_nil hq
          simp [Abs.push, Abs.stop, Abs.onCtx, hw]
      obtain ⟨n, l, hq⟩ := List.exists_cons_of_ne_nil hne
      exact ⟨_, .condWait ⟨n, l, hq, rfl⟩⟩
    obtain ⟨a', hst⟩ := hstep
    obtain ⟨s', -, -, hrun⟩ := can_step hR (show enabled s.cpu (.condWait cond (some mutex)) from hpc) trivial hst
    exact fun he => absurd (hrun.symm.trans he) (by simp)

end Turns

/-! ### Runs -/

section Runs

variable {L : ℕ} {s₀ s : Sched} {v₀ v : Vars} {x y : Sched × Vars} {m : Move} {tr : List ((Sched × Vars) × Move)}

theorem turns_initial (h0 : s₀.Initial) (hv : v₀.Initial) : Turns L s₀.abs .empty v₀ := by
  have hmain : (v₀.thread mainGreen).loc = .condInit := hv.main
  have hteam : (team L).Inv s₀.abs .empty v₀ := by
    refine .initial h0 ?_ ?_ hv.test
    · exact congrArg Loc.isMain hmain
    · exact congrArg crew hmain
  refine ⟨hteam, ⟨fun t ht => ?_, .inl ⟨hv.flag, ?_⟩⟩, fun t ht => ?_, fun t ht => absurd ht (by simp [Sched.abs])⟩
  · have henter := hv.test t ht
    refine ⟨?_, ?_, ?_, ?_, ?_⟩ <;> simp [henter, Loc.isMain, Loc.busy]
  · simp [Locals.rounds, hv.test g0 (by decide), hv.test g1 (by decide)]
  · obtain rfl : t = mainGreen := by simpa [Sched.abs, h0.created] using ht.1
    simp [Tested, hmain]

/-- **The threads take turns**: in a run in which nobody waits for the mutex whenever `green_cond_wait` is called, the
program goes on in the state reached. -/
theorem turns_run (h0 : s₀.Initial) (hv : v₀.Initial) (hp : Path (testFinal L).Step (s₀, v₀) tr (s, v))
    (hcalm : ∀ z ∈ tr, Calm z.1 z.2) : Awake s v := by
  obtain ⟨a, b, hR, h⟩ := hp.invariant (I := fun z => ∃ a b, Refines z.1 a ∧ Turns L a b z.2)
    ⟨_, _, initial_refines h0, turns_initial h0 hv⟩ fun z m z' hz ⟨a, b, hR, h⟩ hst => by
      obtain ⟨a', hst', ha'⟩ := Program.refines hR hst
      obtain ⟨b', h'⟩ := h.step hR.inv hst' fun hm hpc hl => by
        refine hR.loaded.1.threads.queues.head_none (hcalm _ hz hm ?_ ?_)
        · rw [hR.loaded.2]
          exact hpc
        · rw [hR.owner]
          exact hl
      exact ⟨a', b', ha', h'⟩
  exact h.awake hR

/-- A schedule for three rounds.  Thread 1 has set the flag and signalled, thread 2 waits for the mutex; thread 1 calls
`green_cond_wait`, which sets the mutex free and wakes thread 2, and so both are inside.  In the end one waits for the
condition while the other, which was interrupted behind its test, does so after the signal. -/
def badSchedule : List Move :=
  List.replicate 16 .go ++ [.timer] ++ List.replicate 11 .go ++ [.timer, .go, .timer] ++ List.replicate 6 .go ++
    [.timer] ++ List.replicate 11 .go

/-- Three rounds are enough for both threads to be lost. -/
theorem monitor_hangs : ¬ ∀ (L : ℕ) (s₀ s : Sched) (v₀ v : Vars) (tr : List ((Sched × Vars) × Move)), 1 ≤ L →
    s₀.Initial → v₀.Initial → Path (testFinal L).Step (s₀, v₀) tr (s, v) → Awake s v := by
  intro hall
  obtain ⟨tr, ⟨s, v⟩, hp, htest⟩ := exists_path (testFinal 3).next_step (Sched.start, Vars.start) badSchedule
    (fun x => decide (x.2.1.cpu.pc = .user ∧ (x.2.2.thread x.2.1.cpu.owner).loc = .wait) &&
      match (greenCondWait cond (some mutex)).run x.2.1 with
      | .error .assert => true
      | _ => false) (by decide +kernel)
  obtain ⟨hat, hfault⟩ := Bool.and_eq_true_iff.mp htest
  obtain ⟨hpc, hloc⟩ := of_decide_eq_true hat
  have hawake := hall 3 _ s _ v tr (by decide) Sched.start_initial Vars.start_initial hp
  refine hawake.wait hpc hloc ?_
  simp only at hfault
  split at hfault
  · assumption
  · cases hfault

/-- Two rounds, in which each thread waits for the other one. -/
theorem turns_run_two : ∃ tr s v, Path (testFinal 2).Step (Sched.start, Vars.start) tr (s, v) ∧
    (v.thread mainGreen).loc = .exit ∧ Ended s.core g0 ∧ Ended s.core g1 ∧ Awake s v := by
  obtain ⟨tr, ⟨s, v⟩, hp, htest⟩ := exists_path (testFinal 2).next_step (Sched.start, Vars.start)
    (List.replicate 49 .go) (fun x => decide ((∀ z ∈ x.1, Calm z.1 z.2) ∧ (x.2.2.thread mainGreen).loc = .exit ∧
      Ended x.2.1.core g0 ∧ Ended x.2.1.core g1)) (by decide +kernel)
  obtain ⟨hcalm, hexit, h0, h1⟩ := of_decide_eq_true htest
  exact ⟨tr, s, v, hp, hexit, h0, h1, turns_run Sched.start_initial Vars.start_initial hp hcalm⟩

end Runs

end Seminars.Green.TestFinal
