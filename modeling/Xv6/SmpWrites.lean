import Xv6.SmpSlots

/-! What is written to a slot under its lock keeps the invariant, statement by
statement. -/

namespace Xv6

namespace Smp

open Threads
open Function (update update_apply update_eq_self update_eq_self_iff update_of_ne update_self)

variable {D : Type} {s : State D} {g : Resources D} {cur : Nat → Thread} {p i : Nat} {lk : Lock}
  {h : Held D} {k : Kept} {d e : Proc}

theorem Phase.write {own : Nat → Prop} {st : Nat → ProcState} {r : Run} {z : ProcState}
    (hr : Phase own st r) (hc : r.cur ≠ some i) (hi : st i ≠ .running) (hz : z ≠ .running) :
    Phase own (update st i z) r := by
  have hst : ∀ j, st j = .running → update st i z j = .running := by
    intro j hj
    have hne : j ≠ i := by
      rintro rfl
      exact hi hj
    rwa [update_of_ne hne]
  cases hr with
  | idle => exact .idle
  | picked j ho hs => exact .picked j ho (hst j hs)
  | sent j ho hs => exact .sent j ho (hst j hs)
  | back j ho hs =>
    refine .back j ho ?_
    by_cases hj : j = i
    · subst hj
      rwa [update_self]
    · rwa [update_of_ne hj]
  | inside j nap h1 h2 h3 h4 =>
    have hj : j ≠ i := fun he => hc (by rw [he])
    refine .inside j nap h1 ?_ ?_ ?_ <;> rwa [update_of_ne hj]

namespace Inv

theorem slot (hi : Inv s g cur) (hd : (g.held p).proc i = some d) {y : History}
    (hview : h.view = update (g.held p).view (.proc i) (some e))
    (hnoff : h.noff = (g.held p).noff) (hme : h.me = (g.held p).me)
    (hy : y = { s.hist with on := y.on, inc := y.inc, exits := y.exits })
    (hrun : RunInv s.lock (update (states s) i e.state) y.on
      (update (runs g) p h.toRun) g.parked cur)
    (hkids : Kids (update (states s) i e.state) s.parent (update g.kept (cur p) k) g.parked)
    (hsleep : SleepInv s.lock (update s.proc i e) s.parent s.sl s.hist.hit s.hist.poster
      s.hist.passed (update (runs g) p h.toRun) (update (duties g) p h.toDuty))
    (hhold : HoldInv s.sl s.hist.inside (update g.kept (cur p) k))
    (hrecs : Records (update s.proc i e) s.parent y.inc s.hist.creator y.exits s.hist.waits
      (update (runs g) p h.toRun) (update (duties g) p h.toDuty)) :
    Inv { s.set (.proc i) e with hist := y } (g.set p (cur p) h k) cur := by
  have hv : (g.held p).view (.proc i) ≠ none := fun hn => by
    rw [Held.proc, hn] at hd
    simp at hd
  have hproc : ({ s.set (.proc i) e with hist := y } : State D).proc = update s.proc i e :=
    State.proc_set_proc s i e
  have hparent : ({ s.set (.proc i) e with hist := y } : State D).parent = s.parent :=
    State.parent_set s (.proc i) e (by simp)
  have hsl : ({ s.set (.proc i) e with hist := y } : State D).sl = s.sl :=
    State.sl_set s (.proc i) e (by simp)
  have hst := states_update s i e hproc
  constructor
  case cpu => exact hi.cpu_busy h ((hi.cpu p).pos hv) hnoff hme _ _
  case lock =>
    rw [views_set, hview]
    exact hi.lock.write hv
  case run =>
    rw [runs_set, hst]
    exact hrun
  case kids =>
    rw [hst, hparent]
    exact hkids
  case sleep =>
    rw [runs_set, duties_set, hproc, hparent, hsl, hy]
    exact hsleep
  case hold =>
    rw [hsl, hy]
    exact hhold
  case recs =>
    rw [runs_set, duties_set, hproc, hparent]
    have h1 : y.creator = s.hist.creator := by rw [hy]
    have h2 : y.waits = s.hist.waits := by rw [hy]
    dsimp only
    rw [h1, h2]
    exact hrecs

theorem runs_put (v : Guarded D lk) : update (runs g) p ((g.held p).put lk v).toRun = runs g :=
  update_eq_self p (runs g)

theorem duties_put (v : Guarded D lk) :
    update (duties g) p ((g.held p).put lk v).toDuty = duties g :=
  update_eq_self p (duties g)

theorem runs_zombie (status : Int) :
    update (runs g) p ((g.held p).wrote i (.zombie status) d).toRun = runs g :=
  update_eq_self p (runs g)

theorem states_self (hi : Inv s g cur) (hd : (g.held p).proc i = some d) (e : Proc)
    (he : e.state = d.state) : update (states s) i e.state = states s := by
  rw [he, ← (hi.holds_proc hd).2]
  exact update_eq_self i (states s)

theorem stay (hi : Inv s g cur) (hd : (g.held p).proc i = some d) {y : History}
    (hview : h.view = update (g.held p).view (.proc i) (some e))
    (hnoff : h.noff = (g.held p).noff) (hme : h.me = (g.held p).me)
    (hcur : h.cur = (g.held p).cur) (hnap : h.nap = (g.held p).nap)
    (hduty : h.toDuty = (g.held p).toDuty) (hy : y = { s.hist with on := y.on })
    (hrun : RunInv s.lock (update (states s) i e.state) y.on
      (update (runs g) p h.toRun) g.parked cur)
    (hst : e.state = d.state ∨ (Alive e.state ∧ Alive d.state))
    (hA : ∀ c, AsleepOn e c → Asleep s.proc (runs g) i c)
    (hpid : e.pid = d.pid) (hx : e.xstate = d.xstate) :
    Inv { s.set (.proc i) e with hist := y } (g.set p (cur p) h (g.kept (cur p))) cur := by
  obtain ⟨hl, hpd⟩ := hi.holds_proc hd
  have hkept : update g.kept (cur p) (g.kept (cur p)) = g.kept :=
    update_eq_self _ _
  have hcurs : ∀ q, (update (runs g) p h.toRun q).cur = (runs g q).cur ∧
      (update (runs g) p h.toRun q).nap = (runs g q).nap := by
    intro q
    rw [update_apply]
    split_ifs with hq
    · subst hq
      exact ⟨hcur, hnap⟩
    · exact ⟨rfl, rfl⟩
  have hz : e.state = .zombie → d.state = .zombie := by
    intro hez
    rcases hst with h1 | ⟨h1, -⟩
    · rw [← h1, hez]
    · exact absurd hez h1.ne.2.2
  refine hi.slot hd hview hnoff hme (by rw [hy]) hrun ?_ ?_ ?_ ?_
  · rw [hkept]
    rcases hst with h1 | ⟨h1, h2⟩
    · rw [hi.states_self hd e h1]
      exact hi.kids
    · exact hi.kids.live (by rw [states, hpd]; exact h2) h1
  · have h1 := hi.sleep.slot (j := i) (e := e) (p := p) (δ := duties g p) hA
      (fun hez => .inl (by rw [hpd]; exact hz hez)) rfl rfl rfl (fun _ => id)
    rw [hduty]
    refine h1.rerun (fun j c ha => ha.imp id ?_) (fun q _ _ => (hcurs q).1)
    rintro ⟨q, hq, hqn⟩
    exact ⟨q, (hcurs q).1.symm.trans hq, (hcurs q).2.symm.trans hqn⟩
  · rw [hkept]
    exact hi.hold
  · have hduties : update (duties g) p h.toDuty = duties g := by
      rw [hduty]
      exact update_eq_self p (duties g)
    rw [hduties]
    have h1 : y.inc = s.hist.inc := by rw [hy]
    have h2 : y.exits = s.hist.exits := by rw [hy]
    rw [h1, h2]
    refine (hi.recs.slot (fun hzu => ?_) (fun hez => by rw [hpd]; exact hz hez)).rerun
      (fun c hg => hg.mono (fun q hq => ⟨(hcurs q).1, hq⟩))
    rw [hpd] at hzu ⊢
    rcases hst with h3 | ⟨-, h3⟩
    · exact ⟨h3, hpid, hx⟩
    · rcases hzu with h4 | h4
      · exact absurd h4 h3.ne.2.2
      · exact absurd h4 h3.ne.1

theorem inside (hi : Inv s g cur) (hc : (g.held p).cur = some i) :
    runs g p = ⟨some i, some i, none, (g.held p).nap⟩ ∧ i < nproc ∧
      (s.cpu p).proc = some i ∧ cur p = .proc i := by
  obtain ⟨h1, h2, -, -⟩ := (hi.run.phase p).of_cur hc
  refine ⟨h1, h2, ?_, ?_⟩
  · rw [(hi.cpu p).proc]
    exact congrArg Run.me h1
  · rw [hi.run.here p]
    show thread p (g.held p).cur = _
    rw [hc]
    rfl

theorem on_same (hi : Inv s g cur) (hpd : s.proc i = d) (hs : d.state ≠ .running) :
    update s.hist.on i none = s.hist.on := by
  rw [update_eq_self_iff]
  exact (hi.run.on_none (by rw [states, hpd]; exact hs)).symm

theorem tally (hi : Inv s g cur) (hd : (g.held p).proc i = some d) (f : Proc → Proc) :
    Inv { s.set (.proc i) ((Move.tally f).apply d) with hist := s.hist }
      (g.set p (cur p) ((g.held p).put (.proc i) ((Move.tally f).apply d)) (g.kept (cur p)))
      cur := by
  obtain ⟨hl, hpd⟩ := hi.holds_proc hd
  refine hi.stay hd (h := (g.held p).put (.proc i) ((Move.tally f).apply d)) rfl rfl rfl rfl rfl
    rfl rfl ?_ (.inl rfl) (fun c ha => .inl ?_) rfl rfl
  · rw [hi.states_self hd ((Move.tally f).apply d) rfl, runs_put]
    exact hi.run
  · rw [hpd]
    exact ha

theorem wake (hi : Inv s g cur) (hd : (g.held p).proc i = some d) (hs : d.state = .sleeping)
    (hc : (g.held p).cur ≠ some i) (own : Bool) :
    Inv { s.set (.proc i) (Move.runnable.apply d) with
      hist := s.hist.move p own i (s.proc i) .runnable }
      (g.set p (cur p) ((g.held p).put (.proc i) (Move.runnable.apply d)) (g.kept (cur p)))
      cur := by
  obtain ⟨hl, hpd⟩ := hi.holds_proc hd
  have hon : s.hist.move p own i (s.proc i) .runnable = s.hist := by
    have := hi.on_same hpd (by simp [hs])
    cases own <;> simp [History.move, History.leave, this]
  have hst : states s i ≠ .running := by simp [states, hpd, hs]
  rw [hon]
  refine hi.stay hd (h := (g.held p).put (.proc i) (Move.runnable.apply d)) rfl rfl rfl rfl rfl
    rfl rfl ?_ (.inr ⟨.inr (.inl rfl), .inl hs⟩)
    (fun c ha => by simp [AsleepOn, Move.apply] at ha) rfl rfl
  rw [runs_put]
  refine hi.run.slot hl ((hi.run.phase p).write hc hst (by simp [Move.apply]))
    (fun h => absurd h hst) (fun h => by simp [Move.apply] at h)
    (fun _ => hi.run.lt (by simp [states, hpd, hs])) (fun h => by simp [Move.apply] at h)
    (fun _ => (hi.on_same hpd (by simp [hs])).symm) (fun _ hna => absurd (.inl ?_) hna)
  rw [states, hpd, hs]

theorem pause (hi : Inv s g cur) (hd : (g.held p).proc i = some d) (hs : d.state = .running)
    (hc : (g.held p).cur = some i) {m : Move} {z : ProcState} (hz : (m.apply d).state = z)
    (hzs : (z = .runnable ∧ (g.held p).nap = none) ∨ z = .sleeping)
    (hpid : (m.apply d).pid = d.pid) (hx : (m.apply d).xstate = d.xstate)
    (hA : ∀ c, AsleepOn (m.apply d) c → (g.held p).nap = some (guard c)) {y : History}
    (hy : y = { s.hist with on := update s.hist.on i none }) :
    Inv { s.set (.proc i) (m.apply d) with hist := y }
      (g.set p (cur p) ((g.held p).put (.proc i) (m.apply d)) (g.kept (cur p))) cur := by
  obtain ⟨hl, hpd⟩ := hi.holds_proc hd
  obtain ⟨hrun, hlt, -, -⟩ := hi.inside hc
  have hst : states s i = .running := by rw [states, hpd, hs]
  have halive : Alive (m.apply d).state := by
    rw [hz]
    rcases hzs with ⟨rfl, -⟩ | rfl
    · exact .inr (.inl rfl)
    · exact .inl rfl
  have hne : (m.apply d).state ≠ .running := by
    rw [hz]
    rcases hzs with ⟨rfl, -⟩ | rfl <;> simp
  refine hi.stay hd (h := (g.held p).put (.proc i) (m.apply d)) rfl rfl rfl rfl rfl rfl
    (by rw [hy]) ?_ (.inr ⟨halive, .inr (.inr hs)⟩)
    (fun c ha => .inr ⟨p, hc, hA c ha⟩) hpid hx
  rw [runs_put]
  have hon : y.on = update s.hist.on i none := by rw [hy]
  refine hi.run.slot hl ?_ (fun _ => .inr hc) (fun h => absurd h hne)
    (fun _ => hlt) (fun h => absurd h hne) (fun _ => hon)
    (fun _ hna => absurd (.inr (.inr hst)) hna)
  rw [hrun]
  refine .inside i _ hlt ?_ (fun hno => absurd hl hno) (fun hn => ?_)
  · rw [update_self]
    exact ⟨halive.ne.1, halive.ne.2.1⟩
  · rw [update_self, hz]
    rcases hzs with ⟨-, h0⟩ | rfl
    · exact absurd h0 hn
    · exact .inr rfl

theorem nochan (hi : Inv s g cur) (hd : (g.held p).proc i = some d) (hs : d.state = .running) :
    Inv { s.set (.proc i) (Move.nochan.apply d) with hist := s.hist }
      (g.set p (cur p) ((g.held p).put (.proc i) (Move.nochan.apply d)) (g.kept (cur p)))
      cur := by
  refine hi.stay hd (h := (g.held p).put (.proc i) (Move.nochan.apply d)) rfl rfl rfl rfl rfl
    rfl rfl ?_ (.inl rfl) (fun c ha => ?_) rfl rfl
  · rw [hi.states_self hd (Move.nochan.apply d) rfl, runs_put]
    exact hi.run
  · have h1 : d.state = .sleeping := ha.1
    rw [hs] at h1
    simp at h1

theorem dispatched (hi : Inv s g cur) (hd : (g.held p).proc i = some d) (hs : d.state = .runnable)
    (hc : (g.held p).cur = none) (hm : (g.held p).me = none) (hr : (g.held p).right = none)
    (hlt : i < nproc) {y : History}
    (hy : y = { s.hist with on := update s.hist.on i (some p) }) :
    Inv { s.set (.proc i) (Move.running.apply d) with hist := y }
      (g.set p (cur p) { (g.held p).put (.proc i) (Move.running.apply d) with right := some i }
        (g.kept (cur p))) cur := by
  obtain ⟨hl, hpd⟩ := hi.holds_proc hd
  have hrun : runs g p = ⟨none, none, none, none⟩ := by
    have hphase := hi.run.phase p
    generalize hrp : runs g p = r at hphase
    have h1 : r.cur = none := by rw [← hrp]; exact hc
    have h2 : r.me = none := by rw [← hrp]; exact hm
    have h3 : r.right = none := by rw [← hrp]; exact hr
    cases hphase with
    | idle => rfl
    | picked => simp at h3
    | sent => simp at h3
    | back => simp at h2
    | inside => simp at h1
  have hnap : (g.held p).nap = none := congrArg Run.nap hrun
  refine hi.stay hd (h := { (g.held p).put (.proc i) (Move.running.apply d) with
    right := some i }) rfl rfl rfl rfl rfl rfl (by rw [hy]) ?_
    (.inr ⟨.inr (.inr rfl), .inr (.inl hs)⟩)
    (fun c ha => by simp [AsleepOn, Move.apply] at ha) rfl rfl
  have h1 : ({ (g.held p).put (.proc i) (Move.running.apply d) with
      right := some i } : Held D).toRun = ⟨none, none, some i, none⟩ := by
    show (⟨(g.held p).cur, (g.held p).me, some i, (g.held p).nap⟩ : Run) = _
    rw [hc, hm, hnap]
  have h2 : y.on = update s.hist.on i (some p) := by rw [hy]
  rw [h1, h2]
  exact hi.run.pick hl hlt (by rw [states, hpd, hs]) hrun

theorem zombie (hi : Inv s g cur) (hd : (g.held p).proc i = some d) (hs : d.state = .running)
    (hc : (g.held p).cur = some i) (hne : i ≠ initproc) (hnap : (g.held p).nap = none)
    (hk : g.kept (cur p) = idle) {f : Nat → Option Nat} (hf : (g.held p).parents = some f)
    (hkids : ∀ j, f j ≠ some i) (hwoke : ∀ q, f i = some q → (g.held p).woke (procChan q) q)
    {status : Int} {y : History}
    (hy : y = { s.hist with
      on := update s.hist.on i none
      exits := ⟨i, s.hist.inc i, d.pid, status⟩ :: s.hist.exits }) :
    Inv { s.set (.proc i) ((Move.zombie status).apply d) with hist := y }
      (g.set p (cur p) ((g.held p).wrote i (.zombie status) d) (g.kept (cur p))) cur := by
  obtain ⟨hl, hpd⟩ := hi.holds_proc hd
  obtain ⟨hrun, hlt, -, hcp⟩ := hi.inside hc
  obtain ⟨hlw, hpar⟩ := hi.holds .wait hf
  have hpar : s.parent = f := by
    funext j
    exact congrFun hpar j
  have hst : states s i = .running := by rw [states, hpd, hs]
  have halive : Alive (states s i) := .inr (.inr hst)
  have hkept : update g.kept (cur p) (g.kept (cur p)) = g.kept :=
    update_eq_self _ _
  refine hi.slot hd (h := (g.held p).wrote i (.zombie status) d) rfl rfl rfl (by rw [hy]) ?_ ?_
    ?_ ?_ ?_
  · rw [runs_zombie]
    have h1 : y.on = update s.hist.on i none := by rw [hy]
    refine hi.run.slot hl ?_ (fun _ => .inr hc) (fun h => by simp [Move.apply, Xv6.kexit] at h)
      (fun _ => hlt) (fun h => by simp [Move.apply, Xv6.kexit] at h) (fun _ => h1)
      (fun _ hna => absurd halive hna)
    rw [hrun, hnap]
    refine .inside i _ hlt ?_ (fun hno => absurd hl hno) (fun hn => absurd rfl hn)
    rw [update_self]
    simp [Move.apply, Xv6.kexit]
  · rw [hkept]
    refine hi.kids.exit halive hne (fun j => ?_) ?_
    · rw [hpar]
      exact hkids j
    · rw [← hcp]
      exact hk
  · rw [runs_zombie]
    refine hi.sleep.slot (fun c ha => by simp [AsleepOn, Move.apply, Xv6.kexit] at ha)
      (fun _ => .inr ⟨hlw, fun hcalm => hcalm.2 rfl, fun q hq => ?_⟩) rfl rfl rfl
      (fun j hj => hj.1)
    rw [hpar] at hq
    exact (hi.sleep.woke p _ q (hwoke q hq)).2
  · rw [hkept]
    exact hi.hold
  · rw [runs_zombie]
    have h1 : y.inc = s.hist.inc := by rw [hy]
    have h2 : y.exits = ⟨i, s.hist.inc i, (s.proc i).pid, status⟩ :: s.hist.exits := by
      rw [hy, hpd]
    rw [h1, h2]
    exact (hi.recs.exit (e := (Move.zombie status).apply d) halive rfl (by rw [hpd]; rfl)).owing id

theorem take (hi : Inv s g cur) {q : Nat} (hd : (g.held p).proc i = some d)
    (hs : d.state = .unused) (hlt : i < nproc)
    (hc : (g.held p).cur = some q) (hq : (g.held p).proc q = none) {pid : Int} {t : Nat}
    {y : History}
    (hy : y = { s.hist with inc := update s.hist.inc i (s.hist.inc i + 1) }) :
    Inv { s.set (.proc i) ((Move.used pid t).apply d) with hist := y }
      (g.set p (cur p) ((g.held p).put (.proc i) ((Move.used pid t).apply d))
        { g.kept (cur p) with child := some ⟨i, false, false⟩ }) cur := by
  obtain ⟨hl, hpd⟩ := hi.holds_proc hd
  obtain ⟨hrun, -, -, hcp⟩ := hi.inside hc
  have hst : states s i = .unused := by rw [states, hpd, hs]
  have hlq : ¬ s.lock (.proc q) = some p := fun h => hi.holds_iff.mp h hq
  have hqrun : states s q = .running := ((hi.run.phase p).running (.inl hc) hlq).2.1
  have hqi : q ≠ i := by
    rintro rfl
    rw [hst] at hqrun
    simp at hqrun
  have hqalive : Alive (states s q) := .inr (.inr hqrun)
  have hcur : ∀ r, (runs g r).cur ≠ some i := by
    intro r hr
    exact ((hi.run.phase r).of_cur hr).2.2.1.1 hst
  have hpar : ∀ j, s.parent j ≠ some i := by
    intro j hj
    exact (hi.kids.alive j i hj).1.ne.1 hst
  have hne : ((Move.used pid t).apply d).state ≠ .running := by
    simp [Move.apply, Xv6.allocproc]
  refine hi.slot hd (h := (g.held p).put (.proc i) ((Move.used pid t).apply d)) rfl rfl rfl
    (by rw [hy]) ?_ ?_ ?_ ?_ ?_
  · rw [runs_put]
    have h1 : y.on = s.hist.on := by rw [hy]
    rw [h1]
    refine hi.run.slot hl ?_ (fun h => by rw [hst] at h; simp at h) (fun h => absurd h hne)
      (fun _ => hlt) (fun _ => rfl) (fun _ => (hi.on_same hpd (by simp [hs])).symm)
      (fun ha => absurd rfl ha.ne.2.1)
    refine (hi.run.phase p).write (fun h => hqi ?_) (by rw [hst]; simp) hne
    exact Option.some.inj (hc.symm.trans h)
  · rw [hcp]
    exact hi.kids.take hst hqalive rfl
  · rw [runs_put]
    exact hi.sleep.slot (fun c ha => by simp [AsleepOn, Move.apply, Xv6.allocproc] at ha)
      (fun hz => by simp [Move.apply, Xv6.allocproc] at hz) rfl rfl rfl (fun _ => id)
  · rw [hcp]
    exact hi.hold.child rfl
  · rw [runs_put, duties_put]
    have h1 : y.inc = update s.hist.inc i (s.hist.inc i + 1) := by rw [hy]
    have h2 : y.exits = s.hist.exits := by rw [hy]
    rw [h1, h2]
    exact hi.recs.take (by rw [hpd, hs]) rfl hpar hcur

theorem start (hi : Inv s g cur) (hd : (g.held p).proc i = some d) (hs : d.state = .used)
    (hk : (g.kept (cur p)).child = some ⟨i, true, true⟩) (own : Bool) :
    Inv { s.set (.proc i) (Move.runnable.apply d) with
      hist := s.hist.move p own i (s.proc i) .runnable }
      (g.set p (cur p) ((g.held p).put (.proc i) (Move.runnable.apply d))
        { g.kept (cur p) with child := none }) cur := by
  obtain ⟨hl, hpd⟩ := hi.holds_proc hd
  obtain ⟨q, hcp, hqalive⟩ := hi.kids.child_alive hk
  have hst : states s i = .used := by rw [states, hpd, hs]
  have hnr : states s i ≠ .running := by rw [hst]; simp
  have hcq : (g.held p).cur ≠ some i := by
    intro h
    exact ((hi.run.phase p).of_cur h).2.2.1.2 hst
  have hon : s.hist.move p own i (s.proc i) .runnable = s.hist := by
    have := hi.on_same hpd (by simp [hs])
    cases own <;> simp [History.move, History.leave, this]
  rw [hon]
  refine hi.slot hd (h := (g.held p).put (.proc i) (Move.runnable.apply d)) (y := s.hist) rfl rfl
    rfl rfl ?_ ?_ ?_ ?_ ?_
  · rw [runs_put]
    refine hi.run.slot hl ((hi.run.phase p).write hcq hnr (by simp [Move.apply]))
      (fun h => absurd h hnr) (fun h => by simp [Move.apply] at h)
      (fun _ => hi.run.lt (by rw [hst]; simp)) (fun h => by simp [Move.apply] at h)
      (fun _ => (hi.on_same hpd (by simp [hs])).symm)
      (fun _ _ => hi.kids.ready _ _ hk rfl)
  · rw [hcp]
    rw [hcp] at hk
    exact hi.kids.finish hk rfl (.inr ⟨.inr (.inl rfl), rfl⟩)
  · rw [runs_put, duties_put]
    have := hi.sleep.slot (j := i) (p := p) (δ := duties g p) (e := Move.runnable.apply d)
      (fun c ha => by simp [AsleepOn, Move.apply] at ha)
      (fun hz => by simp [Move.apply] at hz) rfl rfl rfl (fun _ => id)
    rwa [update_eq_self] at this
  · rw [hcp]
    exact hi.hold.child rfl
  · rw [runs_put, duties_put]
    refine hi.recs.slot (fun hzu => ?_) (fun hz => by simp [Move.apply] at hz)
    rw [hpd, hs] at hzu
    simp at hzu

end Inv

end Smp

end Xv6
