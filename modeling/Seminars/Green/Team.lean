import Seminars.Green.Lock
import Seminars.Green.Program

/-!
# Seminars.Green.Team — threads that `main` starts, and a mutex that they share

* `Crosses`: what a call has to do with the section that a mutex protects.
* `Team`: a program whose `main` creates and joins the threads, and whose other threads share one mutex.
* `Team.Inv`: who has been created, and who holds the mutex.  `Inv.step` is its step lemma, if nobody waits for the
  mutex when `green_cond_wait` is called.
* `Inv.alone`: who is inside the section is there alone.  `Inv.owner`: the holder of the mutex runs or is ready.
-/

namespace Seminars.Green

open Seminars.Lib

theorem Book.note_other {b : Book} {act : Act} {t u : Tid} {m : ℕ} {pc : Pc} {back : Bool} {first : Option Tid}
    (ht : t ≠ u) : t ∈ (b.note m u pc back first act).holds ↔ t ∈ b.holds := by
  have htake : t ∈ (b.take u).holds ↔ t ∈ b.holds := by simp [take, ht]
  have hrelease : t ∈ (b.release u).holds ↔ t ∈ b.holds := List.mem_erase_of_ne ht
  cases act with
  | lock x =>
    simp only [note]
    split_ifs
    · exact htake
    · rfl
    · rfl
  | unlock x =>
    simp only [note]
    split_ifs
    · exact hrelease
    · rfl
  | condWait c x =>
    simp only [note]
    split_ifs
    · exact hrelease
    · rfl
  | resume =>
    simp only [note]
    split
    · split_ifs
      · exact htake
      · rfl
    · split_ifs
      · exact htake
      · rfl
    · split_ifs
      · exact htake
      · rfl
    · rfl
  | _ => rfl

/-- The code is suspended between a call of `green_mutex_lock` or `green_cond_wait` and its return with the mutex. -/
def Away (m : ℕ) (pc : Pc) : Prop := pc = .lock m ∨ (∃ c, pc = .wait c (some m)) ∨ pc = .rewait m

/-- A call, and whether its thread is in the section of the mutex `m` before and after it. -/
def Crosses (m : ℕ) (i i' : Bool) : Act → Prop
  | .lock x => x = m ∧ i = false ∧ i' = true
  | .unlock x => x = m ∧ i = true ∧ i' = false
  | .condWait _ x => x = some m ∧ i = true ∧ i' = true
  | .mutexInit x => x = m ∧ i = false ∧ i' = false
  | .ret _ => i = false
  | _ => i' = i

/-- Which calls are those of `main`, whose code stands where the threads of `crew` have been created. -/
def Role (num : Tid → ℕ) (isMain : Bool) (crew : List Tid) : Act → Prop
  | .create new _ arg => isMain = true ∧ arg = num new
  | .join _ _ => isMain = true
  | .condInit _ | .mutexInit _ => isMain = true ∧ crew = [mainGreen]
  | .ret _ => isMain = false
  | _ => True

/-- A thread that is suspended in the library: it is in the section when it goes on, or it is `main`, or neither. -/
def Pending (m : ℕ) (inside isMain : Bool) : Pc → Prop
  | .lock x | .rewait x => x = m ∧ inside = true
  | .wait _ x => x = some m ∧ inside = true
  | .join _ _ => isMain = true
  | _ => True

/-- A program whose `main` creates and joins the threads, and whose threads share the mutex `m`. -/
structure Team {G T : Type} (P : Program G T) (m : ℕ) extends Program.Sites P where
  /-- in `main` -/
  isMain : T → Bool
  /-- in the section that the mutex protects -/
  inside : T → Bool
  /-- the threads that have been created when `main` is there -/
  crew : T → List Tid
  /-- the number that the argument of a thread points to -/
  num : Tid → ℕ
  test : ∀ l, fresh l → isMain l = false ∧ inside l = false
  out : ∀ l, isMain l = true → inside l = false
  root : ∀ l, mainGreen ∈ crew l
  stay : ∀ x arg, isMain (P.exec arg x).2 = isMain x.2
  pending : ∀ l pc, fits l pc → Pending m (inside l) (isMain l) pc
  computes : ∀ x arg, P.call x.2 = none → P.finished x.2 = false →
    isMain x.2 = false ∧ inside (P.exec arg x).2 = inside x.2
  crosses : ∀ x arg act, P.call x.2 = some act → Crosses m (inside x.2) (inside (P.exec arg x).2) act
  creates : ∀ x arg act, P.call x.2 = some act → isMain x.2 = true → crew (P.exec arg x).2 = act.creates ++ crew x.2
  role : ∀ l act, P.call l = some act → Role num (isMain l) (crew l) act

namespace Team

variable {G T : Type} {P : Program G T} {m : ℕ} {S : Team P m}

/-- **The invariant.**  Those hold the mutex that are in the section, and not suspended on their way there. -/
structure Inv (S : Team P m) (a : Abs) (b : Book) (v : Config Tid G T) : Prop where
  stand : Program.Stand S.toSites a v
  created : a.core.created = S.crew (v.thread mainGreen)
  main : S.isMain (v.thread mainGreen) = true
  test : ∀ t, t ≠ mainGreen → S.isMain (v.thread t) = false
  arg : ∀ t ∈ a.core.created, t ≠ mainGreen → a.core.arg t = S.num t
  tokens : Tokens m a b
  empty : a.core.taken m = false → a.queue (.mutex m) = []
  lost : a.lost = []
  holds : ∀ t, t ∈ b.holds ↔ Live a.core t ∧ S.inside (v.thread t) = true ∧ ¬ Away m (a.ctx t).pc

variable {a a' : Abs} {b : Book} {v v' : Config Tid G T} {act : Act} {mv : Move} {t : Tid}

theorem Inv.main_live (h : S.Inv a b v) : Live a.core mainGreen := by
  refine (live_or_ended (h.created ▸ S.root _)).resolve_right fun he => ?_
  cases (S.role _ _ (h.stand.ended _ he)).symm.trans h.main

theorem Inv.is_main (h : S.Inv a b v) (hl : S.isMain (v.thread t) = true) : t = mainGreen := by
  by_contra ht
  cases (h.test t ht).symm.trans hl

theorem Inv.not_main (h : S.Inv a b v) (hl : S.isMain (v.thread t) = false) : t ≠ mainGreen := by
  rintro rfl
  cases hl.symm.trans h.main

theorem Inv.inside_main (h : S.Inv a b v) (hin : S.inside (v.thread t) = true) : t ≠ mainGreen := by
  rintro rfl
  cases (S.out _ h.main).symm.trans hin

theorem Inv.joining (h : S.Inv a b v) (ht : Live a.core t) {u : Tid} {res : Option ℕ}
    (hpc : (a.ctx t).pc = .join u res) : t = mainGreen := by
  have hs := S.pending _ _ (h.stand.fits t ht)
  rw [hpc] at hs
  exact h.is_main hs

theorem Inv.in_join (h : S.Inv a b v) (hi : AInv a) {u : Tid} (ht : Placed a t (.join u)) : t = mainGreen := by
  obtain ⟨-, res, hpc⟩ := hi.good.waits t (.join u) ht
  exact h.joining (hi.good.placed t _ ht) hpc

/-- Who is suspended on a condition or on a mutex is on its way into the section. -/
theorem Inv.on_cond (h : S.Inv a b v) (hi : AInv a) {c : ℕ} (ht : t ∈ a.queue (.cond c)) :
    (a.ctx t).pc = .wait c (some m) ∧ S.inside (v.thread t) = true := by
  have hlive := hi.good.placed t (.queue (.cond c)) ht
  obtain ⟨-, x, hpc⟩ := hi.good.waits t (.queue (.cond c)) ht
  have hs := S.pending _ _ (h.stand.fits t hlive)
  rw [hpc] at hs
  obtain ⟨rfl, hin⟩ := hs
  exact ⟨hpc, hin⟩

theorem Inv.on_mutex (h : S.Inv a b v) (hi : AInv a) {x : ℕ} (ht : t ∈ a.queue (.mutex x)) :
    x = m ∧ ((a.ctx t).pc = .lock m ∨ (a.ctx t).pc = .rewait m) ∧ S.inside (v.thread t) = true := by
  have hlive := hi.good.placed t (.queue (.mutex x)) ht
  obtain ⟨-, hpc⟩ := hi.good.waits t (.queue (.mutex x)) ht
  have hs := S.pending _ _ (h.stand.fits t hlive)
  rcases hpc with hpc | hpc
  · rw [hpc] at hs
    obtain ⟨rfl, hin⟩ := hs
    exact ⟨rfl, .inl hpc, hin⟩
  · rw [hpc] at hs
    obtain ⟨rfl, hin⟩ := hs
    exact ⟨rfl, .inr hpc, hin⟩

theorem Inv.near (h : S.Inv a b v) (hi : AInv a) (ht : t ∈ b.holds) : t = a.run ∨ t ∈ a.queue .ready := by
  obtain ⟨hlive, hin, haway⟩ := (h.holds t).mp ht
  rcases hi.good.total t hlive with hr | ⟨p, hp⟩
  · exact .inl (List.mem_singleton.mp hr)
  · cases p with
    | queue q =>
      cases q with
      | ready => exact .inr hp
      | cond c => exact absurd (.inr (.inl ⟨c, (h.on_cond hi hp).1⟩)) haway
      | mutex x => exact absurd ((h.on_mutex hi hp).2.1.imp_right .inr) haway
    | join w => exact absurd (h.in_join hi hp) (h.inside_main hin)
    | lost => exact absurd hp (by simp [Placed, h.lost])

/-- If the mutex is taken and the running thread is not its owner, the owner is ready. -/
theorem Inv.owner (h : S.Inv a b v) (hi : AInv a) (htk : a.core.taken m = true) (hno : a.run ∉ b.holds)
    (hst : stands m (a.ctx a.run).pc = false) : a.queue .ready ≠ [] := by
  have hcount := h.tokens.count
  rw [htk] at hcount
  intro hnil
  have howes : owes m a = [] := by
    rw [owes_of hst, hnil]
    rfl
  rw [howes] at hcount
  obtain ⟨t, ht⟩ := List.exists_mem_of_length_pos (show 0 < b.holds.length by simp at hcount; omega)
  rcases h.near hi ht with rfl | hr
  · exact hno ht
  · rw [hnil] at hr
    exact absurd hr (by simp)

/-- The running thread has the mutex when it is in the section. -/
theorem Inv.has (h : S.Inv a b v) (hi : AInv a) (hpc : (a.ctx a.run).pc = .user)
    (hin : S.inside (v.thread a.run) = true) : a.run ∈ b.holds :=
  (h.holds a.run).mpr ⟨hi.live, hin, by simp [Away, hpc]⟩

/-- **Nobody else has it then.** -/
theorem Inv.alone (h : S.Inv a b v) (hi : AInv a) (hpc : (a.ctx a.run).pc = .user)
    (hin : S.inside (v.thread a.run) = true) : b.holds = [a.run] :=
  (h.tokens.holder ⟨a.run, h.has hi hpc hin, rfl⟩).1

theorem Inv.not_holds (h : S.Inv a b v) (hl : S.inside (v.thread t) = false) : t ∉ b.holds := by
  intro ht
  cases hl.symm.trans ((h.holds t).mp ht).2.1

/-- While `main` is alone nobody waits for anything. -/
theorem Inv.nobody (h : S.Inv a b v) (hi : AInv a) (hm : S.isMain (v.thread a.run) = true)
    (hc : S.crew (v.thread a.run) = [mainGreen]) (q : QRef) : a.queue q = [] := by
  have hr := h.is_main hm
  rw [List.eq_nil_iff_forall_not_mem]
  intro t ht
  have htm : t ∈ a.core.created := (hi.good.placed t (.queue q) ht).1
  rw [h.created, ← hr, hc, List.mem_singleton, ← hr] at htm
  exact hi.not_queued q (htm ▸ ht)

/-- Nobody holds the mutex or waits for it, when nobody is ready and `main` runs. -/
theorem Inv.idle (h : S.Inv a b v) (hi : AInv a) (hnil : a.queue .ready = []) (hr : a.run = mainGreen) :
    b.holds = [] ∧ a.queue (.mutex m) = [] := by
  have hout : S.inside (v.thread a.run) = false := S.out _ (hr ▸ h.main)
  have hholds : b.holds = [] := by
    rw [List.eq_nil_iff_forall_not_mem]
    intro t ht
    rcases h.near hi ht with rfl | hm
    · exact h.not_holds hout ht
    · rw [hnil] at hm
      exact absurd hm (by simp)
  have hst : stands m (a.ctx a.run).pc = false := by
    -- it would be on its way into the section
    have hs := S.pending _ _ (h.stand.fits a.run hi.live)
    rw [hout] at hs
    cases hpc : (a.ctx a.run).pc <;> rw [hpc] at hs <;> first | rfl | cases hs.2
  refine ⟨hholds, h.empty ?_⟩
  by_contra htk
  exact h.owner hi (Bool.eq_true_of_not_eq_false htk) (by simp [hholds]) hst hnil

/-- No call loses a thread. -/
theorem Inv.spares (h : S.Inv a b v) (hi : AInv a) (hpr : proper a.core act) (hact : P.call (v.thread a.run) = some act)
    (hcalm : ∀ c x, act = .condWait c x → a.queue (.mutex m) = []) : Spares a act := by
  cases act with
  | condInit c =>
    obtain ⟨hm, hc⟩ := S.role _ _ hact
    exact h.nobody hi hm hc _
  | mutexInit x =>
    obtain ⟨hm, hc⟩ := S.role _ _ hact
    exact h.nobody hi hm hc _
  | join u res =>
    intro hz
    cases hj : a.core.join u with
    | none => rfl
    | some j =>
      -- both threads that join are `main`, which runs
      have hat : Placed a j (.join u) := ⟨⟨hpr, hz⟩, hj⟩
      have hjm := (h.in_join hi hat).trans (h.is_main (S.role _ _ hact)).symm
      exact absurd (hjm ▸ hat) (hi.not_placed _)
  | condWait c x =>
    obtain ⟨rfl, -, -⟩ := S.crosses (v.shared, v.thread a.run) 0 _ hact
    exact hcalm c _ rfl
  | _ => trivial

/-! ### The code of the library goes on -/

/-- Whether the running thread holds the mutex after it has gone on. -/
theorem Inv.holds_goOn (h : S.Inv a b v) (hi : AInv a) (hst : AStep a act a') (hact : act = .timer ∨ act = .resume)
    (hen : enabled (a.ctx a.run) act) (hpr : proper a.core act) : a.run ∈ (a.note m act a' b).holds ↔
      S.inside (v.thread a.run) = true ∧ ¬ Away m (a'.ctx a.run).pc := by
  have hold := h.holds a.run
  have hs := S.pending _ _ (h.stand.fits a.run hi.live)
  have hlands := hst.lands hi hen hpr
  rw [and_iff_right hi.live] at hold
  have hsame : ¬ Away m (a.ctx a.run).pc → ¬ Away m (a'.ctx a.run).pc → a.note m act a' b = b →
      (a.run ∈ (a.note m act a' b).holds ↔ S.inside (v.thread a.run) = true ∧ ¬ Away m (a'.ctx a.run).pc) := by
    intro h1 h2 hb
    rw [hb, hold, and_iff_left h1, and_iff_left h2]
  have htake : S.inside (v.thread a.run) = true → (a'.ctx a.run).pc = .user → a.run ∈ (a.note m act a' b).holds →
      (a.run ∈ (a.note m act a' b).holds ↔ S.inside (v.thread a.run) = true ∧ ¬ Away m (a'.ctx a.run).pc) := by
    intro hin hpc hm
    exact iff_of_true hm ⟨hin, by simp [Away, hpc]⟩
  rcases hact with rfl | rfl
  · have hpc : (a.ctx a.run).pc = .user := hen.1
    have hpc' : (a'.ctx a.run).pc = .yield none := hlands
    exact hsame (by simp [Away, hpc]) (by simp [Away, hpc']) rfl
  · have hgo : ¬ Away m (a.ctx a.run).pc → (∀ a', a.note m .resume a' b = b) →
        (a.run ∈ (a.note m .resume a' b).holds ↔ S.inside (v.thread a.run) = true ∧ ¬ Away m (a'.ctx a.run).pc) := by
      intro hno hb
      refine hsame hno ?_ (hb a')
      rcases hlands with hpc | ⟨c, x, hpc, -⟩
      · simp [Away, hpc]
      · rw [hpc] at hs hno
        exact absurd (.inr (.inl ⟨c, by rw [hs.1]⟩)) hno
    cases hst with
    | resumeStart hpc _ | resumeYield hpc | resumeJoin hpc _ =>
      exact hgo (by simp [Away, hpc]) fun a' => by simp [Abs.note, Book.note, hpc]
    | resumeWait hpc =>
      rw [hpc] at hs
      exact absurd hs.1 (by simp)
    | resumeTake hpc _ =>
      rw [hpc] at hs
      obtain ⟨hm, hin⟩ := hs
      obtain rfl := Option.some.inj hm
      exact htake hin (by simp [Abs.leave, Abs.onCtx, Abs.setTaken])
        (by simp [Abs.note, Book.note, hpc, Abs.leave, Abs.onCtx, Abs.setTaken, Book.take])
    | @resumeRewait c x _ hpc _ hn =>
      -- the call has not returned yet
      rw [hpc] at hs
      obtain rfl := Option.some.inj hs.1
      have hpc' := (hi.stopPush (q := .mutex _) (.inr rfl)).next_pc hn
      have hrewait : (a'.ctx a.run).pc = .rewait x := by
        rw [hn.ctx]
        simp [Abs.push, Abs.stop, Abs.onCtx]
      have hb : a.note x .resume a' b = b := by simp [Abs.note, Book.note, hpc, hpc']
      rw [hb, hold, hpc]
      exact iff_of_false (fun hx => hx.2 (.inr (.inl ⟨c, rfl⟩))) fun hx => hx.2 (.inr (.inr hrewait))
    | resumeLocked hpc =>
      have hpc' : (a.leave.ctx a.leave.run).pc = .user := by simp [Abs.leave, Abs.onCtx]
      rcases hpc with hpc | hpc <;> rw [hpc] at hs <;> obtain ⟨rfl, hin⟩ := hs <;>
        exact htake hin hpc' (by simp [Abs.note, Book.note, hpc, hpc', Book.take, Book.get])

theorem Inv.goOn (h : S.Inv a b v) (hi : AInv a) (hst : AStep a act a') (hen : enabled (a.ctx a.run) act)
    (hact : act = .timer ∨ act = .resume) (hstand : Program.Stand S.toSites a' v) :
    S.Inv a' (a.note m act a' b) v := by
  obtain ⟨hcr, hz, harg⟩ := hst.goOn hact
  have hpr : proper a.core act := by rcases hact with rfl | rfl <;> trivial
  have hlive : ∀ t, Live a'.core t ↔ Live a.core t := by
    intro t
    rw [Live, Live, hcr, hz]
  refine ⟨hstand, by rw [hcr]; exact h.created, h.main, h.test, fun t ht => ?_, ?_, hst.idle h.empty, ?_, fun t => ?_⟩
  · rw [harg]
    exact h.arg t (hcr ▸ ht)
  · refine tokens_step hi hen hpr hst ?_ ?_ h.tokens <;> rcases hact with rfl | rfl <;> trivial
  · refine (hst.lost ?_).trans h.lost
    rcases hact with rfl | rfl <;> trivial
  · rw [hlive]
    by_cases htr : t = a.run
    · rw [htr, and_iff_right hi.live]
      exact h.holds_goOn hi hst hact hen hpr
    · rw [Abs.note, Book.note_other htr, h.holds t]
      refine and_congr_right fun ht => ?_
      rw [hst.ctx hpr ht.1 htr]

/-! ### The statements of the program -/

/-- The locals of `main` stay those of `main`, and the others' do not become such. -/
theorem Inv.mains (h : S.Inv a b v) (arg : ℕ) : S.isMain ((P.after arg a.run v).thread mainGreen) = true ∧
    ∀ t, t ≠ mainGreen → S.isMain ((P.after arg a.run v).thread t) = false := by
  have hsame : ∀ t, S.isMain ((P.after arg a.run v).thread t) = S.isMain (v.thread t) := by
    intro t
    by_cases htr : t = a.run
    · subst htr
      rw [Program.after_self]
      exact S.stay _ _
    · rw [Program.after_other htr]
  exact ⟨(hsame _).trans h.main, fun t ht => (hsame t).trans (h.test t ht)⟩

theorem Inv.computes (h : S.Inv a b v) (hcall : P.call (v.thread a.run) = none)
    (hover : P.finished (v.thread a.run) = false)
    (hstand : Program.Stand S.toSites a (P.after (a.core.arg a.run) a.run v)) :
    S.Inv a b (P.after (a.core.arg a.run) a.run v) := by
  obtain ⟨htest, hin⟩ := S.computes (v.shared, v.thread a.run) (a.core.arg a.run) hcall hover
  obtain ⟨hmain, hothers⟩ := h.mains (a.core.arg a.run)
  have hm : mainGreen ≠ a.run := (h.not_main htest).symm
  refine ⟨hstand, ?_, hmain, hothers, h.arg, h.tokens, h.empty, h.lost, fun t => ?_⟩
  · rw [Program.after_other hm]
    exact h.created
  · rw [h.holds t]
    by_cases htr : t = a.run
    · subst htr
      rw [Program.after_self, hin]
    · rw [Program.after_other htr]

/-- Whether the running thread holds the mutex after its call. -/
theorem Inv.holds_calls (h : S.Inv a b v) (hi : AInv a) (hst : AStep a act a') (hen : enabled (a.ctx a.run) act)
    (hpr : proper a.core act) (hact : P.call (v.thread a.run) = some act) (arg : ℕ) :
    a.run ∈ (a.note m act a' b).holds ↔ Live a'.core a.run ∧
      S.inside (P.exec arg (v.shared, v.thread a.run)).2 = true ∧ ¬ Away m (a'.ctx a.run).pc := by
  have hpc := S.pc_user hact hen
  have hlands := hst.lands hi hen hpr
  have hcross := S.crosses (v.shared, v.thread a.run) arg act hact
  have hout := h.not_holds (t := a.run)
  have halone := h.alone hi hpc
  have hold : a.run ∈ b.holds ↔ S.inside (v.thread a.run) = true := by
    rw [h.holds, and_iff_right hi.live, and_iff_left (by simp [Away, hpc])]
  have hlive : (∀ w, act ≠ .ret w) → Live a'.core a.run := by
    intro hret
    exact hst.live_on hi.live fun w hw => absurd hw (hret w)
  -- a call that has nothing to do with the mutex
  have hsame : (∀ w, act ≠ .ret w) → a.note m act a' b = b → ¬ Away m (a'.ctx a.run).pc →
      S.inside (P.exec arg (v.shared, v.thread a.run)).2 = S.inside (v.thread a.run) →
      (a.run ∈ (a.note m act a' b).holds ↔ Live a'.core a.run ∧
        S.inside (P.exec arg (v.shared, v.thread a.run)).2 = true ∧ ¬ Away m (a'.ctx a.run).pc) := by
    intro hret hb haway hin
    rw [hb, hold, hin, and_iff_right (hlive hret), and_iff_left haway]
  cases act with
  | lock x =>
    obtain ⟨rfl, hno, hin⟩ := hcross
    cases hst with
    | lockFree _ =>
      refine iff_of_true ?_ ⟨hlive (by simp), hin, ?_⟩ <;>
        simp [Abs.note, Book.note, Abs.mask, Abs.onCtx, Abs.setTaken, hpc, Book.get, Book.take, Away]
    | lockWait _ hn =>
      have hpc' := (hi.stopPush (q := .mutex x) (.inl rfl)).next_pc hn
      have hb : a.note x (.lock x) a' b = b.ask a.run := by simp [Abs.note, Book.note, hpc']
      have haway : (a'.ctx a.run).pc = .lock x := by
        rw [hn.ctx]
        simp [Abs.push, Abs.stop, Abs.onCtx]
      rw [hb]
      exact iff_of_false (hout hno) fun hx => hx.2.2 (.inl haway)
  | condWait c x =>
    obtain ⟨rfl, hin, -⟩ := hcross
    have hb : a.note m (.condWait c (some m)) a' b = b.release a.run := by simp [Abs.note, Book.note]
    rw [hb]
    exact iff_of_false (by simp [Book.release, halone hin]) fun hx => hx.2.2 (.inr (.inl ⟨c, hlands⟩))
  | unlock x =>
    obtain ⟨rfl, hin, hno⟩ := hcross
    have hb : a.note x (.unlock x) a' b = b.pass a.run (a.queue (.mutex x)).head? := by simp [Abs.note, Book.note]
    rw [hb]
    exact iff_of_false (by simp [Book.pass, Book.release, halone hin]) (by simp [hno])
  | mutexInit x =>
    obtain ⟨-, hno, hno'⟩ := hcross
    exact iff_of_false (hout hno) (by simp [hno'])
  | ret w =>
    have hno : S.inside (v.thread a.run) = false := hcross
    refine iff_of_false (hout hno) fun hx => ?_
    rw [S.ret (v.shared, v.thread a.run) arg w hact] at hx
    cases hno.symm.trans hx.2.1
  | resume => exact absurd hact (S.user_call _)
  | join u res => exact hsame (by simp) rfl (by rcases hlands with e | e <;> simp [Away, e]) hcross
  | yield | timer => exact hsame (by simp) rfl (by simp [Away, show (a'.ctx a.run).pc = .yield none from hlands]) hcross
  | _ => exact hsame (by simp) rfl (by simp [Away, show (a'.ctx a.run).pc = .user from hlands]) hcross

theorem Inv.tokens_init (h : S.Inv a b v) (hi : AInv a) (hst : AStep a (.mutexInit m) a')
    (hpc : (a.ctx a.run).pc = .user) (hact : P.call (v.thread a.run) = some (.mutexInit m)) : Tokens m a' b := by
  obtain ⟨hm, hc⟩ := S.role _ _ hact
  have hr := h.is_main hm
  have hnil : a.queue .ready = [] := h.nobody hi hm hc _
  have howes : owes m a = [] := by
    rw [owes_user hpc, hnil]
    rfl
  have hholds : b.holds = [] := by
    rw [List.eq_nil_iff_forall_not_mem]
    intro t ht
    obtain ⟨hlive, hin, -⟩ := (h.holds t).mp ht
    have htc := hlive.1
    rw [h.created, ← hr, hc] at htc
    exact h.inside_main hin (List.mem_singleton.mp htc)
  cases hst with
  | mutexInit =>
    have howes' : owes m (((a.setTaken m false).drop (.mutex m)).mask false) = [] := by
      simp [owes, standing, Abs.mask, Abs.onCtx, Abs.drop, Abs.setTaken, hnil, hpc, stands]
    refine ⟨?_, ?_⟩
    · rw [hholds, howes']
      simp [Abs.mask, Abs.onCtx, Abs.drop, Abs.setTaken, Core.setTaken]
    · rw [howes', h.tokens.owed, howes]

theorem Inv.tokens_calls (h : S.Inv a b v) (hi : AInv a) (hst : AStep a act a') (hen : enabled (a.ctx a.run) act)
    (hpr : proper a.core act) (hact : P.call (v.thread a.run) = some act)
    (hcalm : ∀ c x, act = .condWait c x → a.queue (.mutex m) = []) : Tokens m a' (a.note m act a' b) := by
  have hpc := S.pc_user hact hen
  have hcross := S.crosses (v.shared, v.thread a.run) 0 act hact
  by_cases hinit : ∃ x, act = .mutexInit x
  · obtain ⟨x, rfl⟩ := hinit
    obtain ⟨rfl, -, -⟩ := hcross
    exact h.tokens_init hi hst hpc hact
  · have hcontract : Contract m (some a.run) b act := by
      cases act with
      | unlock x => exact fun _ => ⟨a.run, h.has hi hpc hcross.2.1, rfl⟩
      | condWait c x => exact fun _ => ⟨a.run, h.has hi hpc hcross.2.1, rfl⟩
      | mutexInit x => exact absurd ⟨x, rfl⟩ hinit
      | _ => trivial
    have hquiet : Quiet m (a.queue (.mutex m)).head? act := by
      cases act with
      | condWait c x =>
        intro _
        rw [hcalm c x rfl]
        rfl
      | _ => trivial
    exact tokens_step hi hen hpr hst hcontract hquiet h.tokens

/-- Only `main` creates threads. -/
theorem Inv.childless (h : S.Inv a b v) (hact : P.call (v.thread t) = some act) (ht : t ≠ mainGreen) :
    act.creates = [] := by
  cases act with
  | create new fn arg => cases (h.test t ht).symm.trans (S.role _ _ hact).1
  | _ => rfl

theorem Inv.calls (h : S.Inv a b v) (hi : AInv a) (hst : AStep a act a') (hen : enabled (a.ctx a.run) act)
    (hpr : proper a.core act) (hact : P.call (v.thread a.run) = some act)
    (hcalm : ∀ c x, act = .condWait c x → a.queue (.mutex m) = [])
    (hstand : Program.Stand S.toSites a' (P.after (a.core.arg a.run) a.run v)) :
    S.Inv a' (a.note m act a' b) (P.after (a.core.arg a.run) a.run v) := by
  obtain ⟨hmain, hothers⟩ := h.mains (a.core.arg a.run)
  refine ⟨hstand, ?_, hmain, hothers, fun t hc ht => ?_, h.tokens_calls hi hst hen hpr hact hcalm, hst.idle h.empty,
    (hst.lost (h.spares hi hpr hact hcalm)).trans h.lost, fun t => ?_⟩
  · rw [hst.created, h.created]
    by_cases hr : mainGreen = a.run
    · rw [hr, Program.after_self]
      exact (S.creates (v.shared, v.thread a.run) _ act hact (hr ▸ h.main)).symm
    · rw [h.childless hact (Ne.symm hr), Program.after_other hr]
      rfl
  · by_cases hold : t ∈ a.core.created
    · rw [hst.arg fun fn arg hcr => absurd hold (hcr ▸ hpr : proper a.core (.create t fn arg))]
      exact h.arg t hold ht
    · rw [hst.created] at hc
      have hnew := (List.mem_append.mp hc).resolve_right hold
      rw [hst.core]
      cases act with
      | create new fn arg =>
        obtain rfl := List.mem_singleton.mp hnew
        simpa [Abs.coreAfter, Core.init] using (S.role _ _ hact).2
      | _ => exact absurd hnew (by simp [Act.creates])
  · by_cases htr : t = a.run
    · subst htr
      rw [Program.after_self]
      exact h.holds_calls hi hst hen hpr hact _
    · rw [Abs.note, Book.note_other htr, h.holds t, Program.after_other htr]
      by_cases hc : t ∈ a.core.created
      · have hlive : Live a'.core t ↔ Live a.core t := ⟨hst.live hpr hc, fun ht => hst.live_on ht fun _ _ => htr⟩
        rw [hlive, hst.ctx hpr hc htr]
      · refine iff_of_false (fun hx => hc hx.1.1) fun hx => ?_
        cases (S.test _ (h.stand.fresh t hc)).2.symm.trans hx.2.1

/-- **The step lemma.** -/
theorem Inv.step (h : S.Inv a b v) (hi : AInv a) (hst : P.Lift (a, v) mv (a', v'))
    (hcalm : mv = .go → (a.ctx a.run).pc = .user → ∀ c x, P.call (v.thread a.run) = some (.condWait c x) →
      a.queue (.mutex m) = []) : ∃ b', S.Inv a' b' v' := by
  have hstand := h.stand.step hi hst
  cases hst with
  | timer hen hst => exact ⟨_, h.goOn hi hst hen (.inl rfl) hstand⟩
  | resume hen hst => exact ⟨_, h.goOn hi hst hen (.inr rfl) hstand⟩
  | call hact hen hpr hst =>
    refine ⟨_, h.calls hi hst hen hpr hact (fun c x hw => ?_) hstand⟩
    exact hcalm rfl (S.pc_user hact hen) c x (hw ▸ hact)
  | compute _ hcall hover => exact ⟨b, h.computes hcall hover hstand⟩

theorem Inv.initial {s₀ : Sched} (h0 : s₀.Initial) (hm : S.isMain (v.thread mainGreen) = true)
    (hc : S.crew (v.thread mainGreen) = [mainGreen]) (hfresh : ∀ t, t ≠ mainGreen → S.fresh (v.thread t)) :
    S.Inv s₀.abs .empty v := by
  have hmain : ∀ t, t ∈ s₀.abs.core.created → t = mainGreen := by
    intro t ht
    simpa [Sched.abs, h0.created] using ht
  have hpc : ∀ t, (s₀.abs.ctx t).pc = .user := by simp [Sched.abs, h0.cpu]
  have hstand : Program.Stand S.toSites s₀.abs v := by
    refine ⟨fun t _ => ?_, fun t ht => hfresh t ?_, fun t ht => ?_, fun t ht hne => absurd (hmain t ht.1) hne,
      fun t ht hne => absurd (hmain t ht) hne⟩
    · rw [hpc t]
      exact S.user _
    · rintro rfl
      exact ht (by simp [Sched.abs, h0.created])
    · obtain rfl := hmain t ht.1
      cases h0.zombie.symm.trans ht.2
  refine ⟨hstand, h0.created.trans hc.symm, hm, fun t ht => (S.test _ (hfresh t ht)).1,
    fun t ht hne => absurd (hmain t ht) hne, tokens_initial h0, fun _ => rfl, rfl, fun t => ?_⟩
  refine iff_of_false (by simp [Book.empty]) fun hx => ?_
  rw [hmain t hx.1.1] at hx
  cases (S.out _ hm).symm.trans hx.2.1

end Team

end Seminars.Green
