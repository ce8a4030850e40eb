import Xv6.SmpRun
import Xv6.SmpSleep
import Xv6.SmpRecords

/-! The steps of a hart keep the invariant: interrupts, locks, and what is written
to the slots. -/

namespace Xv6

namespace Smp

open Threads Function Option

variable {D : Type} {s : State D} {g : Resources D} {cur : Nat → Thread} {p i : Nat} {lk : Lock}
  {h : Held D} {k : Kept} {d e : Proc} {c : Hart}

namespace Inv

theorem cpu_keep (hi : Inv s g cur) (hp : CpuOk (s.cpu p) h) (x : Thread) (k : Kept) (q : Nat) :
    CpuOk (s.cpu q) ((g.set p x h k).held q) := by
  by_cases hq : q = p
  · subst hq
    rw [Ghost.set_held_self]
    exact hp
  · rw [Ghost.set_held_of_ne _ _ _ _ hq]
    exact hi.cpu q

theorem cpu_set (hi : Inv s g cur) (hp : CpuOk c h) (x : Thread) (k : Kept) (q : Nat) :
    CpuOk ((s.setCpu p c).cpu q) ((g.set p x h k).held q) := by
  by_cases hq : q = p
  · subst hq
    rw [Ghost.set_held_self]
    show CpuOk (update s.cpu q c q) h
    rw [update_self]
    exact hp
  · rw [Ghost.set_held_of_ne _ _ _ _ hq]
    show CpuOk (update s.cpu p c q) _
    rw [update_of_ne hq]
    exact hi.cpu q

theorem cpu_busy (hi : Inv s g cur) (h : Held D) (hp : 0 < (g.held p).noff) (hn : h.noff = (g.held p).noff)
    (hm : h.me = (g.held p).me) (x : Thread) (k : Kept) (q : Nat) :
    CpuOk (s.cpu q) ((g.set p x h k).held q) :=
  hi.cpu_keep ((hi.cpu p).keep hp hn hm) x k q

theorem hart (hi : Inv s g cur) (hp : CpuOk c h) (hr : h.toRun = (g.held p).toRun)
    (hd : h.toDuty = (g.held p).toDuty) (hv : h.view = (g.held p).view) :
    Inv (s.setCpu p c) (g.set p (cur p) h (g.kept (cur p))) cur := by
  constructor
  case cpu => exact hi.cpu_set hp _ _
  case lock =>
    rw [views_same _ _ hv]
    exact hi.lock
  case run =>
    rw [runs_same _ _ hr]
    exact hi.run
  case kids =>
    rw [kept_same rfl]
    exact hi.kids
  case sleep =>
    rw [runs_same _ _ hr, duties_same _ _ hd]
    exact hi.sleep
  case hold =>
    rw [kept_same rfl]
    exact hi.hold
  case recs =>
    rw [runs_same _ _ hr, duties_same _ _ hd]
    exact hi.recs

variable (lk) in
theorem holds (hi : Inv s g cur) {v : Guarded D lk} (hv : (g.held p).view lk = some v) :
    s.lock lk = some p ∧ s.mem lk = v :=
  ⟨(hi.lock.owner p lk).mpr (fun hn => by rw [views, hv] at hn; simp at hn),
    hi.lock.value p lk v hv⟩

theorem holds_iff (hi : Inv s g cur) : s.lock lk = some p ↔ (g.held p).view lk ≠ none :=
  hi.lock.owner p lk

theorem holds_proc (hi : Inv s g cur) (hd : (g.held p).proc i = some d) :
    s.lock (.proc i) = some p ∧ s.proc i = d := hi.holds (.proc i) hd

theorem data (hi : Inv s g cur) (hv : (g.held p).view lk ≠ none) (v : Guarded D lk)
    (h1 : ∀ i, lk ≠ .proc i) (h2 : lk ≠ .wait) (h3 : ∀ l, lk ≠ .sleep l) :
    Inv (s.set lk v) (g.set p (cur p) ((g.held p).put lk v) (g.kept (cur p))) cur := by
  have hst : states (s.set lk v) = states s := by
    funext i
    rw [states, State.proc_set _ _ _ h1]
    rfl
  constructor
  case cpu => exact hi.cpu_busy ((g.held p).put lk v) ((hi.cpu p).pos hv) rfl rfl _ _
  case lock =>
    rw [views_set]
    exact hi.lock.write hv
  case run =>
    rw [runs_same (h := (g.held p).put lk v) _ _ rfl, hst]
    exact hi.run
  case kids =>
    rw [kept_same rfl, hst, State.parent_set _ _ _ h2]
    exact hi.kids
  case sleep =>
    rw [runs_same (h := (g.held p).put lk v) _ _ rfl,
      duties_same (h := (g.held p).put lk v) _ _ rfl, State.proc_set _ _ _ h1,
      State.parent_set _ _ _ h2, State.sl_set _ _ _ h3]
    exact hi.sleep
  case hold =>
    rw [kept_same rfl, State.sl_set _ _ _ h3]
    exact hi.hold
  case recs =>
    rw [runs_same (h := (g.held p).put lk v) _ _ rfl,
      duties_same (h := (g.held p).put lk v) _ _ rfl, State.proc_set _ _ _ h1,
      State.parent_set _ _ _ h2]
    exact hi.recs

theorem setproc (hi : Inv s g cur) {v : Option Nat} (hc : (g.held p).cur = none)
    (hv : (g.held p).right = v) :
    Inv (s.setCpu p { s.cpu p with proc := v })
      (g.set p (cur p) { g.held p with me := v } (g.kept (cur p))) cur := by
  have hcpu := hi.cpu p
  have hphase := hi.run.phase p
  have hnap : Phase (fun i => s.lock (.proc i) = some p) (states s)
      ⟨none, v, v, (g.held p).nap⟩ := by
    generalize hr : runs g p = r at hphase
    have h1 : r.cur = none := by rw [← hr]; exact hc
    have h2 : r.right = v := by rw [← hr]; exact hv
    have h3 : (g.held p).nap = r.nap := by rw [← hr]; rfl
    rw [h3]
    cases hphase with
    | idle =>
      obtain rfl : none = v := h2
      exact .idle
    | picked i ho hs =>
      obtain rfl : some i = v := h2
      exact .sent i ho hs
    | sent i ho hs =>
      obtain rfl : some i = v := h2
      exact .sent i ho hs
    | back i ho hs =>
      obtain rfl : none = v := h2
      exact .idle
    | inside => simp at h1
  have hrun : ({ g.held p with me := v } : Held D).toRun = ⟨none, v, v, (g.held p).nap⟩ := by
    rw [← hc, ← hv]
  constructor
  case cpu =>
    refine hi.cpu_set (c := { s.cpu p with proc := v }) (h := { g.held p with me := v })
      ⟨rfl, hcpu.noff, hcpu.intr, fun h0 => ?_⟩ _ _
    have hq := hcpu.quiet h0
    have hvn : v = none := by
      rw [← hv, hq]
      rfl
    show ({ g.held p with me := v } : Held D) = quiet (g.held p).cur
    rw [hq, hvn, hc]
    rfl
  case lock =>
    rw [views_same (h := { g.held p with me := v }) _ _ rfl]
    exact hi.lock
  case run =>
    rw [runs_set, hrun]
    refine hi.run.turn _ (fun q _ i => Iff.rfl) hnap hc.symm hv.symm (fun i ho => ?_)
    have : v = some i := by simpa [Run.On] using ho
    exact .inr (.inr (hv.trans this))
  case kids =>
    rw [kept_same rfl]
    exact hi.kids
  case sleep =>
    rw [duties_same (h := { g.held p with me := v }) _ _ rfl, runs_set]
    have hsame : ∀ q, (update (runs g) p ({ g.held p with me := v } : Held D).toRun q).cur =
        (runs g q).cur ∧
        (update (runs g) p ({ g.held p with me := v } : Held D).toRun q).nap = (runs g q).nap := by
      intro q
      rw [update_apply]
      split_ifs with hq
      · subst hq
        exact ⟨rfl, rfl⟩
      · exact ⟨rfl, rfl⟩
    refine hi.sleep.rerun (fun i c ha => ha.imp id ?_) (fun q _ _ => (hsame q).1)
    rintro ⟨q, h1, h2⟩
    exact ⟨q, (hsame q).1.symm.trans h1, (hsame q).2.symm.trans h2⟩
  case hold =>
    rw [kept_same rfl]
    exact hi.hold
  case recs =>
    rw [duties_same (h := { g.held p with me := v }) _ _ rfl, runs_set]
    refine hi.recs.rerun (fun c hg => hg.mono (fun q hq => ⟨?_, hq⟩))
    by_cases hqp : q = p
    · subst hqp
      rw [update_self]
      rfl
    · rw [update_of_ne hqp]

theorem fresh (hi : Inv s g cur) (hf : s.lock lk = none) :
    Fresh (g.held p).cur (g.kept (cur p)).child lk (s.mem lk) := by
  cases lk with
  | proc i =>
    refine ⟨fun hc => ?_, fun x hx hxi => ?_⟩
    · have hne : ¬ s.lock (.proc i) = some p := by
        rw [hf]
        simp
      exact ((hi.run.phase p).running (.inl hc) hne).2.1
    · rw [← hxi]
      exact hi.kids.child _ x hx
  | wait =>
    refine ⟨fun i _ he => (hi.kids.alive i i he).2.1 rfl, fun j q hj => ?_⟩
    obtain ⟨h1, -, h3⟩ := hi.kids.alive j q hj
    exact ⟨hi.run.lt h3, hi.run.lt h1.ne.1⟩
  | pid => trivial
  | ticks => trivial
  | sleep l => trivial
  | obj o => trivial

theorem acquire (hi : Inv s g cur) (hf : s.lock lk = none) (hn : 0 < (g.held p).noff) :
    Inv { s with lock := update s.lock lk (some p) }
      (g.set p (cur p) ((g.held p).put lk (s.mem lk)) (g.kept (cur p))) cur := by
  have hown : ∀ q lk', s.lock lk' = some q → update s.lock lk (some p) lk' = some q := by
    intro q lk' hl
    have hne : lk' ≠ lk := by
      rintro rfl
      rw [hf] at hl
      simp at hl
    rwa [update_of_ne hne]
  have hsame := runs_same (h := (g.held p).put lk (s.mem lk)) (cur p) (g.kept (cur p)) rfl
  have hdsame := duties_same (h := (g.held p).put lk (s.mem lk)) (cur p) (g.kept (cur p)) rfl
  constructor
  case cpu => exact hi.cpu_busy ((g.held p).put lk (s.mem lk)) hn rfl rfl _ _
  case lock =>
    rw [views_set]
    exact hi.lock.acquire hf
  case run =>
    have := hi.run.turn (update s.lock lk (some p)) (r := runs g p) (p := p)
      (fun q hq i => ?_) ((hi.run.phase p).mono (fun i => hown p (.proc i))) rfl rfl
      (fun i => id)
    · rw [update_eq_self] at this
      rw [hsame]
      exact this
    · by_cases hne : Lock.proc i = lk
      · rw [hne, update_self, hf]
        simp [Ne.symm hq]
      · rw [update_of_ne hne]
  case kids =>
    rw [kept_same rfl]
    exact hi.kids
  case sleep =>
    rw [hsame, hdsame]
    exact hi.sleep.acquire hf
  case hold =>
    rw [kept_same rfl]
    exact hi.hold
  case recs =>
    rw [hsame, hdsame]
    exact hi.recs

theorem exit (hi : Inv s g cur) (hm : MayUnlock (g.held p) (.proc i)) : Inv { s with
      lock := update s.lock (.proc i) none
      hist := s.hist.unlock p (.proc i) }
      (g.set p (cur p) ((g.held p).unlock (.proc i)) (g.kept (cur p))) cur := by
  obtain ⟨hn, hv, hright, hme, hown, howe⟩ := hm
  obtain ⟨d, hd⟩ := ne_none_iff_exists'.mp hv
  obtain ⟨hl, hpd⟩ := hi.holds_proc (i := i) hd
  have hall : ∀ {P : Proc → Prop}, (∀ e, (g.held p).proc i = some e → P e) ↔ P (s.proc i) := by
    intro P
    rw [hpd]
    constructor
    · exact fun h => h d hd
    · intro h e he
      rw [← some.inj (hd.symm.trans he)]
      exact h
  have hsame := runs_same (h := (g.held p).unlock (.proc i)) (cur p) (g.kept (cur p)) rfl
  constructor
  case cpu => exact hi.cpu_busy ((g.held p).unlock (.proc i)) hn rfl rfl _ _
  case lock =>
    rw [views_set]
    exact hi.lock.release hv
  case run =>
    have hphase : Phase (fun j => update s.lock (.proc i) none (.proc j) = some p)
        (states s) (runs g p) := by
      have hkeep : ∀ j, j ≠ i → s.lock (.proc j) = some p →
          update s.lock (.proc i) none (.proc j) = some p := by
        intro j hj hlj
        rwa [update_of_ne (by simp [hj])]
      have h0 := hi.run.phase p
      generalize hr : runs g p = r at h0
      have h1 : r.right ≠ some i := by rw [← hr]; exact hright
      have h2 : r.cur = none → r.me ≠ some i := by rw [← hr]; exact hme
      have h3 : r.cur = some i → r.nap = none ∧ (s.proc i).state = .running := by
        rw [← hr]
        exact fun hc => ⟨(hown hc).1, hall.mp (hown hc).2⟩
      cases h0 with
      | idle => exact .idle
      | picked j ho hs => exact .picked j (hkeep j (fun he => h1 (by rw [he])) ho) hs
      | sent j ho hs => exact .sent j (hkeep j (fun he => h1 (by rw [he])) ho) hs
      | back j ho hs => exact .back j (hkeep j (fun he => h2 rfl (by rw [he])) ho) hs
      | inside j nap ha hb hc hd =>
        refine .inside j nap ha hb (fun hno => ?_) hd
        by_cases hj : j = i
        · subst hj
          exact ⟨(h3 rfl).2, (h3 rfl).1⟩
        · exact hc (fun hlj => hno (hkeep j hj hlj))
    have := hi.run.turn (update s.lock (.proc i) none) (r := runs g p) (p := p)
      (fun q hq j => ?_) hphase rfl rfl (fun i => id)
    · rw [update_eq_self] at this
      rw [hsame]
      exact this
    · by_cases hne : Lock.proc j = .proc i
      · rw [hne, update_self, hl]
        simp [Ne.symm hq]
      · rw [update_of_ne hne]
  case kids =>
    rw [kept_same rfl]
    exact hi.kids
  case sleep =>
    rw [hsame, duties_set]
    refine hi.sleep.exit (fun q hq => ?_) rfl rfl (fun c j => ?_) (fun j => ?_) (fun c ho => ?_)
    · by_cases hqp : q = p
      · subst hqp
        exact (hown hq).1
      · by_contra hnap
        have := ((hi.run.phase q).of_cur hq).2.2.2 hnap
        exact hqp (some.inj (this.1.symm.trans hl))
    · show _ ∨ (j = i ∧ (g.held p).view (guard c) ≠ none ∧ _) ↔ _
      rw [hall (P := fun d => ¬ AsleepOn d c), hi.holds_iff]
      rfl
    · show _ ∨ (j = i ∧ (g.held p).view .wait ≠ none ∧ _) ↔ _
      rw [hall (P := fun d => d.state ≠ .zombie), hi.holds_iff]
      rfl
    · exact (howe c ho).imp id hall.mp
  case hold =>
    rw [kept_same rfl]
    exact hi.hold
  case recs =>
    rw [hsame, duties_set]
    exact hi.recs.owing id

theorem settled (hi : Inv s g cur) {c : Chan} (ho : (g.held p).owes c)
    (hs : (g.held p).owes c → Settled (g.held p) c) (i : Nat) : ¬ Asleep s.proc (runs g) i c := by
  have hset := hs ho
  rintro (ha | ⟨q, hq, hqn⟩)
  · by_cases hc : (g.held p).cur = some i
    · by_cases hl : s.lock (.proc i) = some p
      · obtain ⟨d, hd⟩ := ne_none_iff_exists'.mp (hi.holds_iff.mp hl)
        refine hset.awake i d hc hd ?_
        rw [← (hi.holds_proc (i := i) hd).2]
        exact ha.1
      · have : states s i = .running := ((hi.run.phase p).running (.inl hc) hl).2.1
        rw [states, ha.1] at this
        simp at this
    · have hlt : i < nproc := hi.run.lt (by rw [states, ha.1]; simp)
      exact (hi.sleep.woke p c i (hset.woke i hlt hc)).2 (.inl ha)
  · have hlt := ((hi.run.phase q).of_cur hq).2.1
    by_cases hc : (g.held p).cur = some i
    · obtain rfl := hi.run.unique q p i (.inl hq) (.inl hc)
      have := hset.nap
      rw [show (runs g q).nap = (g.held q).nap from rfl, this] at hqn
      simp at hqn
    · exact (hi.sleep.woke p c i (hset.woke i hlt hc)).2 (.inr ⟨q, hq, hqn⟩)

theorem untrue (hi : Inv s g cur) {c : Chan} (hc : (g.held p).cur = some i)
    (hm : MayNap (g.held p) (guard c)) : Untrue s.proc s.parent s.sl s.hist.hit i c := by
  constructor
  case wait =>
    rintro rfl j hj
    rw [guard_procChan] at hm
    obtain ⟨-, i', f, hi', hf, hcalm⟩ := hm
    obtain rfl : i = i' := some.inj (hc.symm.trans hi')
    have hpar : s.mem .wait = f := (hi.holds .wait hf).2
    exact (hi.sleep.calm p j (hcalm j (by rw [← hpar]; exact hj))).2
  case sleep =>
    rintro l rfl
    rw [guard_sleepChan] at hm
    obtain ⟨-, v, hv, hlocked⟩ := hm
    have hsl : s.sl l = v := (hi.holds (.sleep l) hv).2
    rw [hsl]
    exact hlocked
  case obj =>
    rintro o rfl
    rw [guard_objChan] at hm
    obtain ⟨-, i', hi', hhit⟩ := hi.sleep.tested p o hm.2
    obtain rfl : i = i' := some.inj (hc.symm.trans hi')
    exact hhit

theorem may_unlock (hlk : ∀ i, lk ≠ .proc i) (hm : MayUnlock h lk) :
    0 < h.noff ∧ h.view lk ≠ none ∧ (∀ c, h.owes c → Settled h c) ∧ (h.Napping → MayNap h lk) := by
  cases lk with
  | proc i => exact absurd rfl (hlk i)
  | _ => exact hm

theorem release (hi : Inv s g cur) (hlk : ∀ i, lk ≠ .proc i) (hm : MayUnlock (g.held p) lk) :
    Inv { s with lock := update s.lock lk none, hist := s.hist.unlock p lk }
      (g.set p (cur p) ((g.held p).unlock lk) (g.kept (cur p))) cur := by
  classical
  obtain ⟨hn, hv, hset, hnap⟩ := may_unlock hlk hm
  have hl : s.lock lk = some p := hi.holds_iff.mpr hv
  have hpass : (s.hist.unlock p lk).passed = s.hist.passed := by
    funext lk' j
    simp [History.unlock, hlk j]
  have hproc : ∀ i, update s.lock lk none (.proc i) = s.lock (.proc i) :=
    fun i => update_of_ne (hlk i).symm _ _
  rw [unlock_of_ne _ hlk]
  generalize hh : ({ g.held p with
    toDuty := noDuty
    view := update (g.held p).view lk none
    nap := if (g.held p).Napping then some lk else (g.held p).nap } : Held D) = h'
  have hview : h'.view = update (g.held p).view lk none := by rw [← hh]
  have hduty : h'.toDuty = noDuty := by rw [← hh]
  have hcur : h'.cur = (g.held p).cur := by rw [← hh]
  have hme : h'.me = (g.held p).me := by rw [← hh]
  have hright : h'.right = (g.held p).right := by rw [← hh]
  have hnoff : h'.noff = (g.held p).noff := by rw [← hh]
  have hnap' : h'.nap = if (g.held p).Napping then some lk else (g.held p).nap := by rw [← hh]
  have hcurs : ∀ q, (update (runs g) p h'.toRun q).cur = (runs g q).cur := by
    intro q
    by_cases hq : q = p
    · subst hq
      rw [update_self]
      exact hcur
    · rw [update_of_ne hq]
  constructor
  case cpu => exact hi.cpu_busy h' hn hnoff hme _ _
  case lock =>
    rw [views_set, hview]
    exact hi.lock.release hv
  case run =>
    rw [runs_set]
    refine hi.run.turn (update s.lock lk none) (fun q _ i => by rw [hproc]) ?_
      hcur hright (fun i ho => ?_)
    · simp only [hproc]
      have hphase := hi.run.phase p
      by_cases hN : (g.held p).Napping
      · obtain ⟨i, d, hci, hdi, hrun⟩ := hN
        obtain ⟨hown, hpd⟩ := hi.holds_proc hdi
        obtain ⟨heq, h1, h2, -⟩ := hphase.of_cur hci
        have hst : states s i = .running := by rw [states, hpd, hrun]
        have hr : h'.toRun = ⟨some i, some i, none, h'.nap⟩ := by
          have e1 : h'.cur = some i := hcur.trans hci
          have e2 : h'.me = some i := hme.trans (congrArg Run.me heq)
          have e3 : h'.right = none := hright.trans (congrArg Run.right heq)
          have e : h'.toRun = ⟨h'.cur, h'.me, h'.right, h'.nap⟩ := rfl
          rw [e, e1, e2, e3]
        rw [hr]
        exact .inside i _ h1 h2 (fun hno => absurd hown hno) (fun _ => .inl hst)
      · have hr : h'.toRun = runs g p := by
          rw [if_neg hN] at hnap'
          have e : h'.toRun = ⟨h'.cur, h'.me, h'.right, h'.nap⟩ := rfl
          rw [e, hcur, hme, hright, hnap']
          rfl
        rw [hr]
        exact hphase
    · unfold Run.On at ho ⊢
      rw [hcur, hme, hright] at ho
      exact ho
  case kids =>
    rw [kept_same rfl]
    exact hi.kids
  case sleep =>
    rw [runs_set, duties_set, hduty, hpass]
    refine hi.sleep.release hl (fun c i ho => hi.settled ho (hset c) i) hcurs ?_
    rintro i c (ha | ⟨q, hq, hqn⟩)
    · exact .inl (.inl ha)
    · simp only [update_apply] at hq hqn
      split_ifs at hq hqn with hqp
      · subst hqp
        rw [hcur] at hq
        rw [hnap'] at hqn
        by_cases hN : (g.held q).Napping
        · rw [if_pos hN] at hqn
          obtain rfl := some.inj hqn
          exact .inr ⟨rfl, hi.untrue hq (hnap hN)⟩
        · rw [if_neg hN] at hqn
          exact .inl (.inr ⟨q, hq, hqn⟩)
      · exact .inl (.inr ⟨q, hq, hqn⟩)
  case hold =>
    rw [kept_same rfl]
    exact hi.hold
  case recs =>
    rw [runs_set, duties_set, hduty]
    refine hi.recs.rerun ?_
    rintro c (hg | ⟨q, h1, h2, h3⟩)
    · exact .inl hg
    · by_cases hqp : q = p
      · -- the process that gave its children away is a zombie by now
        subst hqp
        obtain ⟨i, d, hci, hdi, hz⟩ := (hset _ h3).gone rfl
        obtain ⟨-, hpd⟩ := hi.holds_proc hdi
        have hic : c.1 = i := some.inj (h1.symm.trans hci)
        refine .inl ⟨_, (hi.recs.zombie i (by rw [hpd, hz])).1, ?_⟩
        exact Prod.ext hic.symm (by rw [← h2, hic])
      · refine .inr ⟨q, (hcurs q).trans h1, h2, ?_⟩
        rwa [update_of_ne hqp]

end Inv

end Smp

end Xv6
