import Xv6.SmpWrites

/-! What is written under the other locks keeps the invariant: the parents, the
sleep locks, the objects and the records of `kwait`. -/

namespace Xv6

namespace Smp

open Threads Option
open Function (update update_apply update_eq_self update_eq_self_iff update_idem update_of_ne update_self)

variable {D : Type} {S : Setup D} {s : State D} {g : Resources D} {cur : Nat → Thread}
  {p i j l o : Nat} {lk : Lock} {h : Held D} {k : Kept} {d : Proc}

theorem State.freeproc_of_none (hp : s.parent i = none) :
    s.freeproc i = s.set (.proc i) (Xv6.freeproc (s.proc i)) := by
  have hmem : update s.parent i none = s.parent :=
    update_eq_self_iff.mpr hp.symm
  have hw : (s.set (.proc i) (Xv6.freeproc (s.proc i))).mem .wait = s.parent := by
    simp [State.set]
    rfl
  unfold State.freeproc
  rw [hmem]
  show ({ s.set (.proc i) (Xv6.freeproc (s.proc i)) with mem := _ } : State D) = _
  rw [update_eq_self_iff.mpr hw.symm]

namespace Inv

theorem who_eq (hi : Inv s g cur) (hc : (g.held p).cur = some i) : s.who p = (i, s.hist.inc i) := by
  simp [State.who, (hi.inside hc).2.2.1]

theorem free (hi : Inv s g cur) {r : Bool} (hv : (g.held p).proc i = some d)
    (hk : (g.kept (cur p)).child = some ⟨i, r, false⟩) :
    Inv (s.freeproc i) (g.set p (cur p) ((g.held p).put (.proc i) (Xv6.freeproc d))
      { g.kept (cur p) with child := none }) cur := by
  obtain ⟨hl, hpd⟩ := hi.holds_proc hv
  obtain ⟨q, hcp, -⟩ := hi.kids.child_alive hk
  have hst : states s i = .used := hi.kids.child _ _ hk
  have hnr : states s i ≠ .running := by rw [hst]; simp
  have hcq : (g.held p).cur ≠ some i := by
    intro h
    exact ((hi.run.phase p).of_cur h).2.2.1.2 hst
  have hpar : s.parent i = none := by
    rw [hcp] at hk
    exact hi.kids.adopted q _ hk
  have hds : d.state = .used := by rw [← hpd]; exact hst
  rw [State.freeproc_of_none hpar, hpd]
  refine hi.slot hv (h := (g.held p).put (.proc i) (Xv6.freeproc d)) (y := s.hist) rfl rfl rfl rfl
    ?_ ?_ ?_ ?_ ?_
  · rw [runs_put]
    exact hi.run.slot hl ((hi.run.phase p).write hcq hnr (by simp [Xv6.freeproc]))
      (fun h => absurd h hnr) (fun h => by simp [Xv6.freeproc] at h)
      (fun h => absurd rfl h) (fun h => by simp [Xv6.freeproc] at h)
      (fun _ => (hi.on_same hpd (by simp [hds])).symm)
      (fun ha => absurd rfl ha.ne.1)
  · rw [hcp]
    rw [hcp] at hk
    exact hi.kids.finish hk rfl (.inl ⟨rfl, rfl⟩)
  · rw [runs_put, duties_put]
    have := hi.sleep.slot (j := i) (p := p) (δ := duties g p) (e := Xv6.freeproc d)
      (fun c ha => by simp [AsleepOn, Xv6.freeproc] at ha)
      (fun hz => by simp [Xv6.freeproc] at hz) rfl rfl rfl (fun _ => id)
    rwa [update_eq_self] at this
  · rw [hcp]
    exact hi.hold.child rfl
  · rw [runs_put, duties_put]
    refine hi.recs.slot (fun hzu => ?_) (fun hz => by simp [Xv6.freeproc] at hz)
    rw [hpd, hds] at hzu
    simp at hzu

theorem other (hi : Inv s g cur) (hv : (g.held p).view lk ≠ none) (hlk : ∀ i, lk ≠ .proc i)
    {v : Guarded D lk} {y : History}
    (hview : h.view = update (g.held p).view lk (some v))
    (hnoff : h.noff = (g.held p).noff) (hrun : h.toRun = (g.held p).toRun)
    (hon : y.on = s.hist.on)
    (hkids : Kids (states s) (s.set lk v).parent (update g.kept (cur p) k) g.parked)
    (hsleep : SleepInv s.lock s.proc (s.set lk v).parent (s.set lk v).sl y.hit y.poster y.passed
      (runs g) (update (duties g) p h.toDuty))
    (hhold : HoldInv (s.set lk v).sl y.inside (update g.kept (cur p) k))
    (hrecs : Records s.proc (s.set lk v).parent y.inc y.creator y.exits y.waits (runs g)
      (update (duties g) p h.toDuty)) :
    Inv { s.set lk v with hist := y } (g.set p (cur p) h k) cur := by
  have hproc : ({ s.set lk v with hist := y } : State D).proc = s.proc := State.proc_set s _ v hlk
  have hst : states { s.set lk v with hist := y } = states s := by
    funext i
    rw [states, hproc]
    rfl
  constructor
  case cpu =>
    exact hi.cpu_busy h ((hi.cpu p).pos hv) hnoff (congrArg Run.me hrun) _ _
  case lock =>
    rw [views_set, hview]
    exact hi.lock.write hv
  case run =>
    rw [runs_same _ _ hrun, hst]
    dsimp only
    rw [hon]
    exact hi.run
  case kids =>
    rw [hst]
    exact hkids
  case sleep =>
    rw [runs_same _ _ hrun, duties_set, hproc]
    exact hsleep
  case hold => exact hhold
  case recs =>
    rw [runs_same _ _ hrun, duties_set, hproc]
    exact hrecs

theorem parents_eq (hi : Inv s g cur) {f : Nat → Option Nat} (hf : (g.held p).parents = some f) :
    s.lock .wait = some p ∧ s.parent = f := by
  obtain ⟨h1, h2⟩ := hi.holds .wait hf
  refine ⟨h1, ?_⟩
  funext j
  exact congrFun h2 j

theorem parents_ne {f : Nat → Option Nat} (hf : h.parents = some f) : h.view .wait ≠ none := by
  intro hn
  rw [Held.parents, hn] at hf
  simp at hf

theorem kept_self : update g.kept (cur p) (g.kept (cur p)) = g.kept :=
  update_eq_self _ _

theorem adopt (hi : Inv s g cur) {np : Nat} {r : Bool} {f : Nat → Option Nat}
    (hc : (g.held p).cur = some i) (hf : (g.held p).parents = some f)
    (hk : (g.kept (cur p)).child = some ⟨np, r, false⟩) :
    Inv { s.set .wait (update s.parent np (some i)) with
      hist := { s.hist with
        creator := update s.hist.creator np (i, s.hist.inc i) } }
      (g.set p (cur p) ((g.held p).put .wait (update f np (some i)))
        { g.kept (cur p) with child := some ⟨np, r, true⟩ }) cur := by
  obtain ⟨hlw, hpar⟩ := hi.parents_eq hf
  have hcp := (hi.inside hc).2.2.2
  have hused : states s np = .used := hi.kids.child _ _ hk
  rw [← hpar]
  refine hi.other (parents_ne hf) (by simp) rfl rfl rfl rfl ?_ ?_ ?_ ?_
  · rw [State.parent_set_wait, hcp]
    rw [hcp] at hk
    exact hi.kids.adopt hk rfl
  · rw [State.parent_set_wait, State.sl_set s .wait _ (by simp)]
    refine hi.sleep.mono _ _ (fun a b hb => ?_) (fun _ => id) rfl (fun _ => id)
    by_cases hbn : b = np
    · subst hbn
      refine .inr (fun hz => ?_)
      rw [states, hz] at hused
      simp at hused
    · rw [update_of_ne hbn] at hb
      exact .inl hb
  · rw [State.sl_set s .wait _ (by simp), hcp]
    exact hi.hold.child rfl
  · rw [State.parent_set_wait, duties_put]
    exact hi.recs.adopt np i

theorem orphan (hi : Inv s g cur) {f : Nat → Option Nat} (hc : (g.held p).cur = some i)
    (hne : i ≠ initproc) (hf : (g.held p).parents = some f) (hj : f j = some i)
    (hk : g.kept (cur p) = idle) :
    Inv { s.set .wait (update s.parent j (some initproc)) with
      hist := s.hist.post p .wait }
      (g.set p (cur p) (((g.held p).put .wait (update f j (some initproc))).owe
        (procChan initproc)) (g.kept (cur p))) cur := by
  obtain ⟨hlw, hpar⟩ := hi.parents_eq hf
  have hcp := (hi.inside hc).2.2.2
  rw [← hpar] at hj ⊢
  obtain ⟨halive, hij, hjs⟩ := hi.kids.alive j i hj
  have hinit : j ≠ initproc := by
    rintro rfl
    rw [hi.kids.init.2] at hj
    simp at hj
  have hused : ∀ r c, (g.kept (.proc r)).child = some c → c.slot ≠ j := by
    -- the slot that process `i` fills in `kfork` has no other parent
    rintro r c hrc rfl
    have h1 := hi.kids.adopted r c hrc
    rw [hj] at h1
    have hr : r = i := by
      by_contra hri
      split_ifs at h1 with ha
      exact hri (some.inj h1).symm
    subst hr
    rw [hcp] at hk
    rw [hk] at hrc
    simp [idle] at hrc
  refine hi.other (parents_ne hf) (by simp) rfl rfl rfl rfl ?_ ?_ ?_ ?_
  · rw [State.parent_set_wait, kept_self]
    exact hi.kids.inherit hjs hi.kids.init.1 (Ne.symm hinit) hinit hused
  · rw [State.parent_set_wait, State.sl_set s .wait _ (by simp)]
    have hg : guard (procChan initproc) = .wait := guard_procChan _
    have := hi.sleep.post (update s.parent j (some initproc)) s.sl s.hist.hit
      (c := procChan initproc) (p := p)
      (δ := (((g.held p).put .wait (update s.parent j (some initproc))).owe
        (procChan initproc)).toDuty) (by rw [hg]; exact hlw) (fun a b hb => ?_)
      (fun _ hf => .inl hf) (fun _ _ => .inl rfl) rfl (fun o ho => ⟨ho, ?_⟩)
    · rw [hg] at this
      exact this
    · rw [update_apply] at hb
      split_ifs at hb with hbj
      · subst hbj
        rw [← some.inj hb]
        exact .inr rfl
      · exact .inl hb
    · exact (objChan_ne o initproc).symm
  · rw [State.sl_set s .wait _ (by simp), kept_self]
    exact hi.hold
  · rw [State.parent_set_wait]
    refine (hi.recs.owing Or.inl).orphan hj hne hc ?_
    rw [update_self]
    exact .inr rfl

theorem reap (hi : Inv s g cur) {me : Nat} {f : Nat → Option Nat} {status : Option Int}
    (hchild : k.child = (g.kept (cur p)).child) (hown : k.own = (g.kept (cur p)).own)
    (hc : (g.held p).cur = some me) (hd : (g.held p).proc i = some d) (hz : d.state = .zombie)
    (hf : (g.held p).parents = some f) (hfi : f i = some me)
    (hst : ∀ st, status = some st → st = d.xstate) :
    Inv { s.freeproc i with
      hist := { s.hist with
        waits := .reaped (s.who p) d.pid status (i, s.hist.inc i) (s.hist.creator i) ::
          s.hist.waits } }
      (g.set p (cur p) (((g.held p).put (.proc i) (Xv6.freeproc d)).put .wait
        (update f i none)) k) cur := by
  obtain ⟨hl, hpd⟩ := hi.holds_proc hd
  have hcp := (hi.inside hc).2.2.2
  obtain ⟨hlw, hpar⟩ := hi.parents_eq hf
  have hzs : states s i = .zombie := by rw [states, hpd, hz]
  have hnr : states s i ≠ .running := by rw [hzs]; simp
  have hv : (g.held p).view (.proc i) ≠ none := hi.holds_iff.mp hl
  rw [← hpar] at hfi ⊢
  have hme : me ≠ i := (hi.kids.alive i me hfi).2.1
  have hcq : (g.held p).cur ≠ some i := by
    rw [hc]
    exact fun he => hme (some.inj he)
  have hproc : (s.freeproc i).proc = update s.proc i (Xv6.freeproc d) := by
    rw [State.freeproc, State.proc_set _ .wait _ (by simp), State.proc_set_proc, hpd]
  have hparent : (s.freeproc i).parent = update s.parent i none :=
    State.parent_set_wait _ _
  have hsl : (s.freeproc i).sl = s.sl := by
    rw [State.freeproc, State.sl_set _ .wait _ (by simp), State.sl_set _ (.proc i) _ (by simp)]
  have hstates := states_update s i (Xv6.freeproc d) hproc
  generalize hh : (((g.held p).put (.proc i) (Xv6.freeproc d)).put .wait
    (update s.parent i none)) = h'
  have hrun : h'.toRun = (g.held p).toRun := by rw [← hh]; rfl
  have hduty : h'.toDuty = (g.held p).toDuty := by rw [← hh]; rfl
  have hsleep := (hi.sleep.slot (j := i) (p := p) (δ := duties g p) (e := Xv6.freeproc d)
    (fun c ha => by simp [AsleepOn, Xv6.freeproc] at ha)
    (fun hz => by simp [Xv6.freeproc] at hz) rfl rfl rfl (fun _ => id))
  constructor
  case cpu =>
    exact hi.cpu_busy h' ((hi.cpu p).pos hv) (by rw [← hh]; rfl) (congrArg Run.me hrun) _ _
  case lock =>
    rw [views_set, ← hh]
    have h1 := hi.lock.write (v := Xv6.freeproc (s.proc i)) hv
    have hw : update (views g) p (update (views g p) (.proc i)
        (some (Xv6.freeproc (s.proc i)))) p .wait ≠ none := by
      rw [update_self, update_of_ne (by simp)]
      exact parents_ne hf
    have h2 := h1.write (v := update s.parent i none) hw
    rw [update_self, update_idem] at h2
    rw [← hpd]
    exact h2
  case run =>
    rw [runs_same _ _ hrun]
    show RunInv s.lock (states (s.freeproc i)) s.hist.on (runs g) g.parked cur
    rw [hstates]
    exact hi.run.slot hl ((hi.run.phase p).write hcq hnr (by simp [Xv6.freeproc]))
      (fun h => absurd h hnr) (fun h => by simp [Xv6.freeproc] at h)
      (fun h => absurd rfl h) (fun h => by simp [Xv6.freeproc] at h)
      (fun _ => (hi.on_same hpd (by simp [hz])).symm)
      (fun ha => absurd rfl ha.ne.1)
  case kids =>
    show Kids (states (s.freeproc i)) (s.freeproc i).parent (update g.kept (cur p) k) g.parked
    rw [hstates, hparent, hcp]
    rw [hcp] at hchild
    refine (hi.kids.reap hzs).own ?_ hchild
    rw [update_of_ne hme]
    exact (hi.kids.alive i me hfi).1
  case sleep =>
    rw [runs_same _ _ hrun, duties_same _ _ hduty]
    show SleepInv s.lock (s.freeproc i).proc (s.freeproc i).parent (s.freeproc i).sl s.hist.hit
      s.hist.poster s.hist.passed (runs g) (duties g)
    rw [hproc, hparent, hsl]
    rw [update_eq_self] at hsleep
    have := hsleep.mono (update s.parent i none) s.sl (p := p)
      (δ := duties g p) (fun a b hb => .inl ?_) (fun _ => id) rfl
      (fun _ => id)
    · rwa [update_eq_self] at this
    · by_cases hbi : b = i
      · subst hbi
        rw [update_self] at hb
        simp at hb
      · rwa [update_of_ne hbi] at hb
  case hold =>
    show HoldInv (s.freeproc i).sl s.hist.inside (update g.kept (cur p) k)
    rw [hcp] at hown ⊢
    rw [hsl]
    exact hi.hold.child hown
  case recs =>
    rw [runs_same _ _ hrun, duties_same _ _ hduty, hi.who_eq hc]
    show Records (s.freeproc i).proc (s.freeproc i).parent s.hist.inc s.hist.creator s.hist.exits _
      (runs g) (duties g)
    rw [hproc, hparent]
    refine hi.recs.reap (by rw [hpd, hz]) rfl hfi (by rw [hpd]) (by rw [hpd]; exact hst)
      (fun q hq => ?_)
    -- only the holder of `wait_lock` gives children away
    have h1 := (hi.sleep.owes q _ hq).1
    rw [guard_procChan, hlw] at h1
    rw [← some.inj h1]
    exact hc

/-- No hart is in the process of a zombie whose lock the parent holds. -/
theorem not_reaped (hi : Inv s g cur) {me : Nat} {f : Nat → Option Nat}
    (hc : (g.held p).cur = some me) (hd : (g.held p).proc i = some d) (hz : d.state = .zombie)
    (hf : (g.held p).parents = some f) (hfi : f i = some me) (q : Nat) :
    (g.held q).cur ≠ some i := by
  obtain ⟨hl, hpd⟩ := hi.holds_proc hd
  rw [← (hi.parents_eq hf).2] at hfi
  have hme : me ≠ i := (hi.kids.alive i me hfi).2.1
  have hp : ¬ (runs g p).On i := by
    rw [((hi.run.phase p).of_cur hc).1]
    simp [Run.On, hme]
  exact fun hq => hi.run.alone hl (by simp [states, hpd, hz]) hp (.inl hq)

theorem alive (hi : Inv s g cur) (hc : (g.held p).cur = some i) (hn : (g.held p).proc i = none) :
    Alive (states s i) := by
  have hl : ¬ s.lock (.proc i) = some p := fun h => hi.holds_iff.mp h hn
  exact .inr (.inr ((hi.run.phase p).running (.inl hc) hl).2.1)

theorem takeSleep (hi : Inv s g cur) {v : Sleeplock} (pid : Int) (hc : (g.held p).cur = some i)
    (hn : (g.held p).proc i = none)
    (hv : (g.held p).sl l = some v) (hf : v.locked = false) :
    Inv { s.set (.sleep l) (⟨true, pid⟩ : Sleeplock) with
      hist := { s.hist with
        inside := update s.hist.inside l ((s.who p).1 :: s.hist.inside l) } }
      (g.set p (cur p) ((g.held p).put (.sleep l) (⟨true, pid⟩ : Sleeplock))
        { g.kept (cur p) with own := l :: (g.kept (cur p)).own }) cur := by
  have hcp := (hi.inside hc).2.2.2
  have hsl : s.sl l = v := (hi.holds (.sleep l) hv).2
  have hview : (g.held p).view (.sleep l) ≠ none := by
    intro hn
    rw [Held.sl, hn] at hv
    simp at hv
  rw [hi.who_eq hc]
  refine hi.other hview (by simp) rfl rfl rfl rfl ?_ ?_ ?_ ?_
  · rw [State.parent_set s (.sleep l) _ (by simp), hcp]
    exact hi.kids.own (hi.alive hc hn) rfl
  · rw [State.parent_set s (.sleep l) _ (by simp), State.sl_set_sleep]
    refine hi.sleep.mono _ _ (fun a b hb => .inl hb) (fun m hm => ?_) rfl (fun _ => id)
    by_cases hml : m = l
    · subst hml
      rw [update_self] at hm
      simp at hm
    · rwa [update_of_ne hml] at hm
  · rw [State.sl_set_sleep, hcp]
    exact hi.hold.take (by rw [hsl]; exact hf) rfl rfl
  · rw [State.parent_set s (.sleep l) _ (by simp), duties_put]
    exact hi.recs

theorem dropSleep (hi : Inv s g cur) (hc : (g.held p).cur = some i)
    (hn : (g.held p).proc i = none) (hv : (g.held p).sl l ≠ none)
    (ho : l ∈ (g.kept (cur p)).own) :
    Inv { s.set (.sleep l) (⟨false, 0⟩ : Sleeplock) with
      hist := { s.hist.post p (.sleep l) with
        inside := update s.hist.inside l ((s.hist.inside l).erase (s.who p).1) } }
      (g.set p (cur p) (((g.held p).put (.sleep l) (⟨false, 0⟩ : Sleeplock)).owe (sleepChan l))
        { g.kept (cur p) with own := (g.kept (cur p)).own.erase l }) cur := by
  have hcp := (hi.inside hc).2.2.2
  have hl : s.lock (.sleep l) = some p := hi.holds_iff.mpr hv
  rw [hi.who_eq hc]
  refine hi.other hv (by simp) rfl rfl rfl rfl ?_ ?_ ?_ ?_
  · rw [State.parent_set s (.sleep l) _ (by simp), hcp]
    exact hi.kids.own (hi.alive hc hn) rfl
  · rw [State.parent_set s (.sleep l) _ (by simp), State.sl_set_sleep]
    have hg : guard (sleepChan l) = .sleep l := guard_sleepChan l
    have := hi.sleep.post s.parent (update s.sl l (⟨false, 0⟩ : Sleeplock))
      s.hist.hit (c := sleepChan l) (p := p)
      (δ := (((g.held p).put (.sleep l) (⟨false, 0⟩ : Sleeplock)).owe (sleepChan l)).toDuty)
      (by rw [hg]; exact hl) (fun a b hb => .inl hb) (fun m hm => ?_) (fun _ _ => .inl rfl) rfl
      (fun o ho => ⟨ho, ?_⟩)
    · rw [hg] at this
      exact this
    · by_cases hml : m = l
      · subst hml
        exact .inr rfl
      · rw [update_of_ne hml] at hm
        exact .inl hm
    · simp only [sleepChan, objChan, ne_eq, Chan.addr.injEq]
      omega
  · rw [State.sl_set_sleep, hcp]
    rw [hcp] at ho
    exact hi.hold.drop ho rfl rfl
  · rw [State.parent_set s (.sleep l) _ (by simp)]
    exact hi.recs.owing .inl

theorem test (hi : Inv s g cur) (hc : (g.held p).cur = some i) (hv : (g.held p).obj o ≠ none) :
    Inv { s with hist := { s.hist with
      hit := update s.hist.hit (s.who p).1 (update (s.hist.hit (s.who p).1) o false) } }
      (g.set p (cur p) { g.held p with tested := some o } (g.kept (cur p))) cur := by
  have hl : s.lock (.obj o) = some p := hi.holds_iff.mpr hv
  have hrun := runs_same (h := { g.held p with tested := some o }) (cur p) (g.kept (cur p)) rfl
  rw [hi.who_eq hc]
  constructor
  case cpu =>
    exact hi.cpu_busy { g.held p with tested := some o } ((hi.cpu p).pos hv) rfl rfl _ _
  case lock =>
    rw [views_same (h := { g.held p with tested := some o }) _ _ rfl]
    exact hi.lock
  case run =>
    rw [hrun]
    exact hi.run
  case kids =>
    rw [kept_same rfl]
    exact hi.kids
  case sleep =>
    rw [hrun, duties_set]
    exact hi.sleep.test hl hc
  case hold =>
    rw [kept_same rfl]
    exact hi.hold
  case recs =>
    rw [hrun, duties_set]
    exact hi.recs.owing id

theorem announce (hi : Inv s g cur) (hv : (g.held p).obj o ≠ none) (v : D) :
    Inv { s.set (.obj o) v with
      hist := { s.hist.post p (.obj o) with
        hit := fun i => update (s.hist.hit i) o true } }
      (g.set p (cur p) ({ (g.held p).put (.obj o) v with tested := none }.owe (objChan o))
        (g.kept (cur p))) cur := by
  have hl : s.lock (.obj o) = some p := hi.holds_iff.mpr hv
  refine hi.other hv (by simp) rfl rfl rfl rfl ?_ ?_ ?_ ?_
  · rw [State.parent_set s (.obj o) _ (by simp), kept_self]
    exact hi.kids
  · rw [State.parent_set s (.obj o) _ (by simp), State.sl_set s (.obj o) _ (by simp)]
    have hg : guard (objChan o) = .obj o := guard_objChan o
    have := hi.sleep.post s.parent s.sl (fun i => update (s.hist.hit i) o true)
      (c := objChan o) (p := p)
      (δ := ({ (g.held p).put (.obj o) v with tested := none }.owe (objChan o)).toDuty)
      (by rw [hg]; exact hl) (fun a b hb => .inl hb) (fun m hm => .inl hm) (fun a b => ?_) rfl
      (fun o ho => ?_)
    · rw [hg] at this
      exact this
    · by_cases hbo : b = o
      · subst hbo
        exact .inr rfl
      · exact .inl (update_of_ne hbo _ _)
    · simp [Held.owe] at ho
  · rw [State.sl_set s (.obj o) _ (by simp), kept_self]
    exact hi.hold
  · rw [State.parent_set s (.obj o) _ (by simp)]
    exact hi.recs.owing .inl

theorem putObj (hi : Inv s g cur) (hv : (g.held p).obj o ≠ none) (v : D) : Inv (s.set (.obj o) v)
      (g.set p (cur p) { (g.held p).put (.obj o) v with tested := none } (g.kept (cur p))) cur := by
  refine hi.other (h := { (g.held p).put (.obj o) v with tested := none }) (y := s.hist) hv
    (by simp) rfl rfl rfl rfl ?_ ?_ ?_ ?_
  · rw [State.parent_set s (.obj o) _ (by simp), kept_self]
    exact hi.kids
  · rw [State.parent_set s (.obj o) _ (by simp), State.sl_set s (.obj o) _ (by simp)]
    exact hi.sleep.mono _ _ (fun a b hb => .inl hb) (fun _ => id) rfl (fun o ho => by simp at ho)
  · rw [State.sl_set s (.obj o) _ (by simp), kept_self]
    exact hi.hold
  · rw [State.parent_set s (.obj o) _ (by simp)]
    exact hi.recs.owing id

theorem note (hi : Inv s g cur) {b : Prop} {y : History}
    (hcpu : CpuOk (s.cpu p) { g.held p with spoilt := b }) (hc : (g.held p).cur = some i)
    (hn : (g.held p).proc i = none) (hchild : k.child = (g.kept (cur p)).child)
    (hown : k.own = (g.kept (cur p)).own)
    (hy : y = { s.hist with waits := y.waits, spoilt := y.spoilt, answers := y.answers })
    (hrecs : Records s.proc s.parent s.hist.inc s.hist.creator s.hist.exits y.waits (runs g)
      (duties g)) :
    Inv { s with hist := y } (g.set p (cur p) { g.held p with spoilt := b } k) cur := by
  have hcp := (hi.inside hc).2.2.2
  have hrun := runs_same (h := { g.held p with spoilt := b }) (cur p) k rfl
  rw [hy]
  constructor
  case cpu => exact hi.cpu_keep hcpu _ _
  case lock =>
    rw [views_same (h := { g.held p with spoilt := b }) _ _ rfl]
    exact hi.lock
  case run =>
    rw [hrun]
    exact hi.run
  case kids =>
    show Kids (states s) s.parent (update g.kept (cur p) k) g.parked
    rw [hcp] at hchild ⊢
    exact hi.kids.own (hi.alive hc hn) hchild
  case sleep =>
    rw [hrun, duties_set]
    exact hi.sleep.mono _ _ (fun a b hb => .inl hb) (fun _ => id) rfl (fun _ => id)
  case hold =>
    show HoldInv s.sl s.hist.inside (update g.kept (cur p) k)
    rw [hcp] at hown ⊢
    exact hi.hold.child hown
  case recs =>
    rw [hrun, duties_set]
    exact hrecs.owing id

end Inv

end Smp

end Xv6
