import Xv6.SmpAnswers

/-! Every step of a hart keeps the invariant, and the only one that can fail is the
exit of init. -/

namespace Xv6

namespace Smp

open Threads List Option
open Function (update update_apply update_eq_self update_eq_self_iff update_of_ne update_self)

variable {D : Type} {S : Setup D} {s : State D} {g : Resources D} {cur : Nat → Thread}
  {p i : Nat} {lk : Lock} {h : Held D} {k : Kept} {d : Proc}

theorem ok_inj {α β ε : Type} {a a' : α} {b b' : β}
    (h : some (Except.ok (a, b) : Except ε (α × β)) = some (.ok (a', b'))) : a = a' ∧ b = b' :=
  Prod.mk.inj (Except.ok.inj (some.inj h))

theorem exec_fails (hi : Inv s g cur) {a : Act D} {x : Input D} {e : String}
    (hpre : Pre (g.held p) (g.kept (cur p)) a) (he : exec S p a x s = some (.error e)) :
    e = "init exiting" := by
  cases a with
  | popOff =>
    obtain ⟨h1, -⟩ := hpre
    have hc := hi.cpu p
    have hintr : (s.cpu p).intr ≠ true := fun ht => by
      have := hc.intr ht
      omega
    have hnoff : ¬ (s.cpu p).noff < 1 := by
      rw [hc.noff]
      omega
    simp [exec, hintr, hnoff] at he
  | lock lk =>
    obtain ⟨-, h2, -⟩ := hpre
    have hne : s.lock lk ≠ some p := fun h => hi.holds_iff.mp h h2
    simp only [exec] at he
    cases hl : s.lock lk with
    | none => simp [hl] at he
    | some q =>
      have hq : q ≠ p := fun h => hne (by rw [hl, h])
      simp [hl, hq] at he
  | unlock lk =>
    have hl : s.lock lk = some p := hi.holds_iff.mpr hpre.2.1
    simp [exec, hl] at he
  | put o f =>
    simp only [exec] at he
    split_ifs at he
    all_goals simp at he
  | panic msg =>
    have : msg = e := by simpa [exec] using he
    rw [← this]
    exact hpre
  | _ => simp [exec] at he

structure Safe (s : State D) (g : Resources D) (cur : Nat → Thread) : Prop where
  inv : Inv s g cur
  told : Told s g

theorem exec_step (hsafe : Safe s g cur) {a : Act D} {x : Input D} {r : Res D a}
    {t : State D} (hpre : Pre (g.held p) (g.kept (cur p)) a)
    (he : exec S p a x s = some (.ok (r, t))) :
    ∃ h k, Post S (g.held p) (g.kept (cur p)) a r h k ∧ Safe t (g.set p (cur p) h k) cur := by
  have hsame : Safe s (g.set p (cur p) (g.held p) (g.kept (cur p))) cur := by
    rw [Ghost.set_same]
    exact hsafe
  obtain ⟨hi, ht⟩ := hsafe
  have hc := hi.cpu p
  have hkeep : ∀ {c h}, h.toDuty = (g.held p).toDuty ∧ h.cur = (g.held p).cur →
      Told (s.setCpu p c) (g.set p (cur p) h (g.kept (cur p))) := fun hh =>
    ht.keep rfl hh.2 (congrArg Duty.dying hh.1) (congrArg Duty.spoilt hh.1) (fun _ _ _ => id) rfl
  cases a with
  | pushOff =>
    obtain ⟨-, rfl⟩ := ok_inj he
    refine ⟨_, _, ⟨rfl, rfl⟩, hi.hart ⟨hc.proc, ?_, fun h => ?_, fun h => ?_⟩ rfl rfl rfl,
      hkeep ⟨rfl, rfl⟩⟩
    · exact congrArg Nat.succ hc.noff
    · simp [Hart.pushOff] at h
    · simp at h
  | popOff =>
    obtain ⟨h1, h2⟩ := hpre
    have hintr : (s.cpu p).intr ≠ true := fun ht => by
      have := hc.intr ht
      omega
    have hnoff : ¬ (s.cpu p).noff < 1 := by
      rw [hc.noff]
      omega
    rw [exec, if_neg hintr, if_neg hnoff] at he
    obtain ⟨-, rfl⟩ := ok_inj he
    refine ⟨_, _, ⟨rfl, rfl⟩, hi.hart ⟨hc.proc, ?_, fun h => ?_, fun h => ?_⟩ rfl rfl rfl,
      hkeep ⟨rfl, rfl⟩⟩
    · exact congrArg Nat.pred hc.noff
    · have h0 : (s.cpu p).noff - 1 = 0 := by
        have := (Bool.and_eq_true _ _).mp h
        exact of_decide_eq_true this.1
      rw [hc.noff] at h0
      exact h0
    · have h0 : (g.held p).noff = 1 := by
        have : (g.held p).noff - 1 = 0 := h
        omega
      have h3 := h2 h0
      have h4 : (g.held p).noff - 1 = 0 := h
      rw [h4]
      exact h3
  | lock lk =>
    obtain ⟨h1, h2, -⟩ := hpre
    cases hl : s.lock lk with
    | none =>
      simp only [exec, hl] at he
      obtain ⟨-, rfl⟩ := ok_inj he
      exact ⟨_, _, ⟨_, hi.fresh hl, rfl, rfl⟩, hi.acquire hl h1, ht.keep rfl rfl rfl rfl (fun _ _ _ => id) rfl⟩
    | some q =>
      have hq : q ≠ p := by
        rintro rfl
        exact hi.holds_iff.mp hl h2
      simp [exec, hl, hq] at he
  | unlock lk =>
    have hl : s.lock lk = some p := hi.holds_iff.mpr hpre.2.1
    rw [exec, if_pos hl] at he
    obtain ⟨-, rfl⟩ := ok_inj he
    refine ⟨_, _, ⟨rfl, rfl⟩, ?_, ht.unlock hi hpre.2.1⟩
    by_cases hlk : ∃ i, lk = .proc i
    · obtain ⟨i, rfl⟩ := hlk
      exact hi.exit hpre
    · exact hi.release (fun i h => hlk ⟨i, h⟩) hpre
  | holding lk =>
    obtain ⟨rfl, rfl⟩ := ok_inj he
    refine ⟨_, _, ⟨?_, rfl, rfl⟩, hsame⟩
    rw [decide_eq_true_iff, hi.holds_iff]
  | mycpu =>
    obtain ⟨rfl, rfl⟩ := ok_inj he
    refine ⟨_, _, ⟨⟨hc.proc, hc.noff, fun h => ?_⟩, rfl, rfl⟩, hsame⟩
    by_contra ht
    have := hc.intr (by simpa using ht)
    omega
  | cpuid =>
    obtain ⟨-, rfl⟩ := ok_inj he
    exact ⟨_, _, ⟨rfl, rfl⟩, hsame⟩
  | setproc v =>
    obtain ⟨-, rfl⟩ := ok_inj he
    exact ⟨_, _, ⟨rfl, rfl⟩, hi.setproc hpre.1 hpre.2, ht.keep rfl rfl rfl rfl (fun _ _ _ => id) rfl⟩
  | setIntena b =>
    obtain ⟨-, rfl⟩ := ok_inj he
    exact ⟨_, _, ⟨rfl, rfl⟩, hi.hart ⟨hc.proc, hc.noff, hc.intr, hc.quiet⟩ rfl rfl rfl, hkeep ⟨rfl, rfl⟩⟩
  | intrOn =>
    obtain ⟨-, rfl⟩ := ok_inj he
    exact ⟨_, _, ⟨rfl, rfl⟩, hi.hart ⟨hc.proc, hc.noff, fun _ => hpre, hc.quiet⟩ rfl rfl rfl,
      hkeep ⟨rfl, rfl⟩⟩
  | intrOff =>
    obtain ⟨-, rfl⟩ := ok_inj he
    refine ⟨_, _, ⟨rfl, rfl⟩, hi.hart ⟨hc.proc, hc.noff, fun h => ?_, hc.quiet⟩ rfl rfl rfl,
      hkeep ⟨rfl, rfl⟩⟩
    simp at h
  | read lk =>
    obtain ⟨rfl, rfl⟩ := ok_inj he
    obtain ⟨v, hv⟩ := ne_none_iff_exists'.mp hpre
    refine ⟨_, _, ⟨?_, rfl, rfl⟩, hsame⟩
    rw [hv, (hi.holds _ hv).2]
  | peek lk =>
    obtain ⟨-, rfl⟩ := ok_inj he
    exact ⟨_, _, ⟨rfl, rfl⟩, hsame⟩
  | write i m =>
    obtain ⟨d, hd, hm⟩ := hpre
    obtain ⟨hl, hpd⟩ := hi.holds_proc hd
    obtain ⟨-, rfl⟩ := ok_inj he
    refine ⟨_, _, ⟨d, hd, rfl, rfl⟩, ?_, hpd.symm ▸ ht.wrote hi hd hm⟩
    rw [hpd]
    cases m with
    | tally f => exact hi.tally hd f
    | runnable =>
      rcases hm with ⟨hs, hcq⟩ | ⟨hcq, hs, hn⟩ | ⟨hk, hs⟩
      · have hk : (g.kept (cur p)).wrote i .runnable d = g.kept (cur p) := by
          simp [Kept.wrote, hs]
        rw [hk, ← hpd]
        exact hpd ▸ hi.wake hd hs hcq _
      · have hk : (g.kept (cur p)).wrote i .runnable d = g.kept (cur p) := by
          simp [Kept.wrote, hs]
        rw [hk]
        refine hi.pause hd hs hcq (m := .runnable) rfl (.inl ⟨rfl, hn⟩) rfl rfl (fun c ha => ?_) ?_
        · simp [AsleepOn, Move.apply] at ha
        · simp [History.move, History.leave, (hi.inside hcq).2.2.1]
      · have hk' : (g.kept (cur p)).wrote i .runnable d =
            { g.kept (cur p) with child := none } := by
          simp [Kept.wrote, hs]
        rw [hk', ← hpd]
        exact hpd ▸ hi.start hd hs hk _
    | running =>
      obtain ⟨h1, h2, h3, h4, h5⟩ := hm
      exact hi.dispatched hd h4 h1 h2 h3 h5 rfl
    | sleeping c =>
      obtain ⟨h1, h2, h3⟩ := hm
      refine hi.pause hd h2 h1 (m := .sleeping c) rfl (.inr rfl) rfl rfl (fun c' ha => ?_) ?_
      · obtain rfl : c = c' := ha.2
        exact h3
      · simp [History.move, History.leave, (hi.inside h1).2.2.1]
    | nochan => exact hi.nochan hd hm.2.1
    | zombie status =>
      obtain ⟨h1, h2, h3, h4, h5, f, h6, h7, h8⟩ := hm
      refine hi.zombie hd h2 h1 h3 h4 h5 h6 h7 h8 ?_
      simp [History.move, History.leave, (hi.inside h1).2.2.1]
    | used pid t =>
      obtain ⟨h1, h2, h3, q, h4, h5⟩ := hm
      exact hi.take hd h1 h3 h4 h5 rfl
  | adopt np i =>
    obtain ⟨h1, h2, h3, r', h4⟩ := hpre
    obtain ⟨f, hf⟩ := ne_none_iff_exists'.mp h3
    obtain ⟨-, rfl⟩ := ok_inj he
    exact ⟨_, _, ⟨f, _, hf, h4, rfl, rfl⟩, hi.adopt h1 hf h4, ht.keep rfl rfl rfl rfl (fun _ _ _ => id) rfl⟩
  | orphan j =>
    obtain ⟨i, f, h1, h2, h3, h4, h5⟩ := hpre
    obtain ⟨-, rfl⟩ := ok_inj he
    exact ⟨_, _, ⟨f, h3, rfl, rfl⟩, hi.orphan h1 h2 h3 h4 h5, ht.keep rfl rfl rfl rfl (fun _ _ _ => id) rfl⟩
  | setNextpid n =>
    obtain ⟨-, rfl⟩ := ok_inj he
    exact ⟨_, _, ⟨rfl, rfl⟩, hi.data hpre n (by simp) (by simp) (by simp), ht.keep rfl rfl rfl rfl (fun _ _ _ => id) rfl⟩
  | tick =>
    obtain ⟨-, rfl⟩ := ok_inj he
    exact ⟨_, _, ⟨_, rfl, rfl⟩, hi.data hpre _ (by simp) (by simp) (by simp), ht.keep rfl rfl rfl rfl (fun _ _ _ => id) rfl⟩
  | takeSleep l pid =>
    obtain ⟨⟨i, h1, h2⟩, v, h3, h4⟩ := hpre
    obtain ⟨-, rfl⟩ := ok_inj he
    exact ⟨_, _, ⟨rfl, rfl⟩, hi.takeSleep pid h1 h2 h3 h4, ht.keep rfl rfl rfl rfl (fun _ _ _ => id) rfl⟩
  | dropSleep l =>
    obtain ⟨⟨i, h1, h2⟩, h3, h4⟩ := hpre
    obtain ⟨-, rfl⟩ := ok_inj he
    exact ⟨_, _, ⟨rfl, rfl⟩, hi.dropSleep h1 h2 h3 h4, ht.keep rfl rfl rfl rfl (fun _ _ _ => id) rfl⟩
  | test o =>
    obtain ⟨⟨i, h1⟩, h2⟩ := hpre
    obtain ⟨v, hv⟩ := ne_none_iff_exists'.mp h2
    obtain ⟨rfl, rfl⟩ := ok_inj he
    refine ⟨_, _, ⟨?_, rfl, rfl⟩, hi.test h1 h2, ht.keep rfl rfl rfl rfl (fun _ _ _ => id) rfl⟩
    rw [hv, State.obj, (hi.holds (.obj o) hv).2]
  | put o f =>
    obtain ⟨v, hv⟩ := ne_none_iff_exists'.mp hpre
    have hobj : s.obj o = v := (hi.holds (.obj o) hv).2
    simp only [exec, hobj] at he
    by_cases hflip : S.cond o v = false ∧ S.cond o (f v) = true
    · rw [if_pos hflip] at he
      obtain ⟨-, rfl⟩ := ok_inj he
      refine ⟨_, _, ⟨v, hv, rfl, rfl⟩, ?_⟩
      rw [if_pos hflip]
      exact ⟨hi.announce hpre (f v), ht.keep rfl rfl rfl rfl (fun _ _ _ => id) rfl⟩
    · rw [if_neg hflip] at he
      obtain ⟨-, rfl⟩ := ok_inj he
      refine ⟨_, _, ⟨v, hv, rfl, rfl⟩, ?_⟩
      rw [if_neg hflip]
      exact ⟨hi.putObj hpre (f v), ht.keep rfl rfl rfl rfl (fun _ _ _ => id) rfl⟩
  | free i =>
    obtain ⟨h1, r', h2⟩ := hpre
    obtain ⟨d, hd⟩ := ne_none_iff_exists'.mp h1
    obtain ⟨-, rfl⟩ := ok_inj he
    refine ⟨_, _, ⟨d, hd, rfl, rfl⟩, hi.free hd h2, ht.freed (fun q hq => ?_) rfl rfl rfl rfl
      (ht.all.same rfl rfl)⟩
    exact ((hi.run.phase q).of_cur hq).2.2.1.2 (hi.kids.child _ _ h2)
  | reap i pid status =>
    obtain ⟨me, d, f, h1, h2, h3, h4, h5, rfl, h6, h7⟩ := hpre
    obtain ⟨-, rfl⟩ := ok_inj he
    refine ⟨_, _, ⟨d, f, h2, h4, rfl, rfl⟩, hi.reap rfl rfl h1 h2 h3 h4 h5 h7,
      ht.freed (fun q hq => ?_) rfl rfl rfl rfl ?_⟩
    · exact hi.not_reaped h1 h2 h3 h4 h5 q hq
    · have hcp := (hi.inside h1).2.2.2
      rw [hcp] at h6 ⊢
      exact ht.all.record h6 rfl (hi.who_eq h1) rfl
  | waitFailed =>
    obtain ⟨i, f, h1, h2, h3, h4, h5⟩ := hpre
    obtain ⟨-, rfl⟩ := ok_inj he
    have hcp := (hi.inside h1).2.2.2
    refine ⟨_, _, ⟨rfl, rfl⟩, hi.note (hc.keep (hc.pos (Inv.parents_ne h3)) rfl rfl) h1 h2 rfl rfl rfl
      (hi.recs.failed ?_), ?_, ht.why.step (fun j => .inl) rfl (fun q hq => update_of_ne hq _ _)
        False.elim (fun _ _ _ => id)⟩
    · rw [hi.who_eq h1]
      refine h5.imp (ht.why.spoilt p) (Or.imp (fun hd => ?_) (fun hno => decide_eq_false ?_))
      · exact decide_eq_true (ht.why.dying p i hd h1)
      · rintro ⟨j, -, hj⟩
        rw [(hi.inside h1).2.2.1, (hi.parents_eq h3).2] at hj
        exact hno j hj
    · rw [hcp] at h4
      show Returned _ (update g.kept (cur p) _)
      rw [hcp]
      exact ht.all.record h4 rfl (hi.who_eq h1) rfl
  | copyout =>
    obtain ⟨⟨i, h1, h2⟩, h3⟩ := hpre
    obtain ⟨rfl, rfl⟩ := ok_inj he
    refine ⟨_, _, ⟨rfl, rfl⟩, hi.note (hc.keep (hc.pos h3) rfl rfl) h1 h2 rfl rfl rfl hi.recs,
      ht.all.same rfl rfl, ht.why.step (fun j => .inl) rfl (fun q hq => update_of_ne hq _ _)
        (fun h0 => ?_) (fun _ _ _ => id)⟩
    show update s.hist.spoilt p (!x.ok) p = true
    rw [update_self, show x.ok = false from h0]
    rfl
  | answer v =>
    obtain ⟨⟨i, h1, h2⟩, h3⟩ := hpre
    obtain ⟨-, rfl⟩ := ok_inj he
    refine ⟨_, _, ⟨rfl, rfl⟩, hi.note (b := (g.held p).spoilt) hc h1 h2 rfl rfl rfl hi.recs,
      ?_, ht.why.step (fun j => .inl) rfl (fun _ _ => rfl) (ht.why.spoilt p) (fun _ _ _ => id)⟩
    have hcp := (hi.inside h1).2.2.2
    rw [hcp] at h3
    show Returned { s.hist with answers := (s.who p, v) :: _ } (update g.kept (cur p) _)
    rw [hcp, hi.who_eq h1]
    exact ht.all.hand h3 rfl rfl
  | oracle =>
    obtain ⟨-, rfl⟩ := ok_inj he
    exact ⟨_, _, ⟨rfl, rfl⟩, hsame⟩
  | trap =>
    obtain ⟨-, rfl⟩ := ok_inj he
    exact ⟨_, _, ⟨rfl, rfl⟩, hsame⟩
  | panic msg => simp [exec] at he

theorem runs_update (held : Nat → Held D) (kept : Thread → Kept) (parked : Thread → Held D) :
    runs ⟨update held p h, kept, parked⟩ = update (fun q => (held q).toRun) p h.toRun := by
  funext q
  by_cases hq : q = p
  · subst hq
    simp [runs]
  · simp [runs, hq]

theorem duties_update (held : Nat → Held D) (kept : Thread → Kept) (parked : Thread → Held D) :
    duties ⟨update held p h, kept, parked⟩ = update (fun q => (held q).toDuty) p h.toDuty := by
  funext q
  by_cases hq : q = p
  · subst hq
    simp [duties]
  · simp [duties, hq]

theorem views_update (held : Nat → Held D) (kept : Thread → Kept) (parked : Thread → Held D) :
    views ⟨update held p h, kept, parked⟩ = update (fun q => (held q).view) p h.view := by
  funext q
  by_cases hq : q = p
  · subst hq
    simp [views]
  · simp [views, hq]

theorem Inv.switch (hi : Inv s g cur) {cur' : Nat → Thread} {parked : Thread → Held D}
    (hview : h.view = (g.held p).view) (hnoff : h.noff = (g.held p).noff)
    (hpos : 0 < (g.held p).noff) (hme : h.me = (g.held p).me) (hnap : h.nap = none)
    (hold : (g.held p).toDuty = noDuty) (hnew : h.toDuty = noDuty)
    (hrun : RunInv s.lock (states s) s.hist.on (update (runs g) p h.toRun) parked cur')
    (hkids : Kids (states s) s.parent g.kept parked) :
    Inv s ⟨update g.held p h, g.kept, parked⟩ cur' := by
  have hduties : duties (⟨update g.held p h, g.kept, parked⟩ : Resources D) = duties g := by
    rw [duties_update, hnew, ← hold]
    exact update_eq_self p (duties g)
  constructor
  case cpu =>
    intro q
    dsimp only
    rw [update_apply]
    split_ifs with hq
    · subst hq
      exact (hi.cpu q).keep hpos hnoff hme
    · exact hi.cpu q
  case lock =>
    rw [views_update, hview, show (fun q => (g.held q).view) = views g from rfl]
    rw [show (g.held p).view = views g p from rfl, update_eq_self]
    exact hi.lock
  case run =>
    rw [runs_update]
    exact hrun
  case kids => exact hkids
  case sleep =>
    rw [hduties, runs_update]
    refine hi.sleep.rerun (fun i c ha => ha.imp id ?_) (fun q o ho => ?_)
    · rintro ⟨q, h1, h2⟩
      by_cases hq : q = p
      · subst hq
        rw [update_self, hnap] at h2
        simp at h2
      · rw [update_of_ne hq] at h1 h2
        exact ⟨q, h1, h2⟩
    · have hq : q ≠ p := by
        rintro rfl
        rw [duties, hold] at ho
        simp [noDuty] at ho
      rw [update_of_ne hq]
      rfl
  case hold => exact hi.hold
  case recs =>
    rw [hduties, runs_update]
    refine hi.recs.rerun (fun c hg => hg.mono (fun q hq => ⟨?_, hq⟩))
    have hqp : q ≠ p := by
      rintro rfl
      rw [duties, hold] at hq
      exact hq
    rw [update_of_ne hqp]
    rfl

theorem swtch_ok (hsafe : Safe s g cur) {save load : Nat → Thread}
    (hleave : Leave save load (g.held p)) :
    save p = cur p ∧ (∀ q, cur q ≠ load p) ∧
    ∃ h, Back (g.parked (load p)) h ∧
      Safe s ⟨update g.held p h, g.kept, update g.parked (save p) (g.held p)⟩
        (update cur p (load p)) := by
  obtain ⟨hi, hall, hwhy⟩ := hsafe
  generalize hh : g.held p = h at hleave
  cases hleave with
  | run i d hd =>
    have hrun : runs g p = ⟨none, some i, some i, none⟩ := by rw [runs, hh]; rfl
    have hproc : (g.held p).proc i = some d := by
      rw [hh]
      exact update_self _ _ _
    obtain ⟨hl, hpd⟩ := hi.holds_proc hproc
    have hst : states s i = .running := by rw [states, hpd, hd]
    have hcur : cur p = .sched p := by
      rw [hi.run.here p, hrun]
      rfl
    have hfree : ∀ q, (runs g q).cur ≠ some i := by
      intro q hq
      obtain rfl := hi.run.unique q p i (.inl hq) (.inr (.inr (by rw [hrun])))
      rw [hrun] at hq
      simp at hq
    refine ⟨hcur.symm, fun q hq => ?_, one (some i) (.proc i) d, ?_, ?_⟩
    · rw [hi.run.here q] at hq
      cases hc : (runs g q).cur with
      | none => simp [hc, thread] at hq
      | some j =>
        rw [hc] at hq
        exact hfree q (by rw [hc, Thread.proc.inj hq])
    · obtain ⟨h1, h2⟩ := hi.run.left i (.inr (.inr hst)) hfree
      exact Back.proc i d h1 hd h2
    · rw [← hh]
      refine ⟨hi.switch (by rw [hh]; rfl) (by rw [hh]; rfl) (by rw [hh]; exact Nat.one_pos)
        (by rw [hh]; rfl) rfl (by rw [hh]; rfl) rfl ?_ ?_, hall, hwhy.rest rfl⟩
      · exact hi.run.enter hrun (by rw [hh]; rfl) (by rw [hh]) (hi.run.lt (by rw [hst]; simp))
      · exact hi.kids.park (by simp) _
  | stop i d nap hd hn =>
    have hrun : runs g p = ⟨some i, some i, none, nap⟩ := by rw [runs, hh]; rfl
    have hproc : (g.held p).proc i = some d := by
      rw [hh]
      exact update_self _ _ _
    obtain ⟨hl, hpd⟩ := hi.holds_proc hproc
    have hst : states s i ≠ .running := by rw [states, hpd]; exact hd
    have hcur : cur p = .proc i := by
      rw [hi.run.here p, hrun]
      rfl
    obtain ⟨h1, h2⟩ := hi.run.sched p i (by rw [hrun])
    refine ⟨hcur.symm, fun q hq => ?_, { one none (.proc i) d with me := some i },
      Back.sched i d h1 h2 hd, ?_⟩
    · rw [hi.run.here q] at hq
      cases hc : (runs g q).cur with
      | none =>
        rw [hc] at hq
        obtain rfl := Thread.sched.inj hq
        rw [hrun] at hc
        simp at hc
      | some j => simp [hc, thread] at hq
    · rw [← hh]
      refine ⟨hi.switch (by rw [hh]; rfl) (by rw [hh]; rfl) (by rw [hh]; exact Nat.one_pos)
        (by rw [hh]; rfl) rfl (by rw [hh]; rfl) rfl ?_ ?_, hall, hwhy.rest rfl⟩
      · refine hi.run.leave hrun hl hst (fun ha => ⟨by rw [hh]; rfl, fun e he => ?_⟩)
        obtain rfl : d = e := some.inj (hproc.symm.trans he)
        rw [← hpd]
        exact ha.ne.2.2
      · refine hi.kids.park (fun j hj => ?_) _
        rw [← Thread.proc.inj hj]
        exact ((hi.run.phase p).of_cur (by rw [hrun])).2.2.1.2

theorem entry_ok (hsafe : Safe s g cur) {x : Thread} {a : Routine D}
    (hs : (logic S).setup x a (g.held p) (g.kept (cur p))) :
    (∀ q, cur q ≠ x) ∧
    ∃ h k h₀ k₀, (logic S).ready x a (g.held p) (g.kept (cur p)) h k ∧
      (∀ h', Back h₀ h' → Need a h' k₀) ∧
      Safe s ⟨update g.held p h, update (update g.kept (cur p) k) x k₀,
        update g.parked x h₀⟩ cur := by
  obtain ⟨hi, hall, hwhy⟩ := hsafe
  obtain ⟨i, d, rfl, rfl, hlt, hd, hds, hk⟩ := hs
  have hst : states s i = .used := hi.kids.child _ _ hk
  obtain ⟨q, hcp, -⟩ := hi.kids.child_alive hk
  have hfree : ∀ r, (runs g r).cur ≠ some i := by
    intro r hr
    exact ((hi.run.phase r).of_cur hr).2.2.1.2 hst
  refine ⟨fun r hr => ?_, g.held p, { g.kept (cur p) with child := some ⟨i, true, false⟩ },
    quiet (some i), idle, ⟨rfl, fun j hj => by rw [Thread.proc.inj hj]⟩, fun h' hb => ?_, ?_⟩
  · rw [hi.run.here r] at hr
    cases hc : (runs g r).cur with
    | none => simp [hc, thread] at hr
    | some j =>
      rw [hc] at hr
      exact hfree r (by rw [hc, Thread.proc.inj hr])
  · cases hb with
    | sched j e hc _ _ => simp [quiet] at hc
    | proc j e hc he _ =>
      obtain rfl : i = j := some.inj hc
      exact ⟨i, e, hlt, he, rfl, rfl⟩
  · rw [update_eq_self]
    have hres : Resumes (quiet (some i) : Held D) i := ⟨rfl, fun e he => by simp [Held.proc, quiet,
      noView] at he⟩
    rw [hcp] at hk ⊢
    have hkids := hi.kids.entry hk (k := { g.kept (.proc q) with child := some ⟨i, true, false⟩ })
      rfl hres
    have hidle : g.kept (.proc i) = idle := hi.kids.dead i (fun ha => ha.ne.2.1 hst)
    have hqi : q ≠ i := by
      rintro rfl
      rw [hidle] at hk
      simp [idle] at hk
    have hhold := hi.hold.child (q := q) (k := { g.kept (.proc q) with
      child := some ⟨i, true, false⟩ }) rfl
    have hsame : update (update g.kept (.proc q) { g.kept (.proc q) with
        child := some ⟨i, true, false⟩ }) (.proc i) idle =
        update g.kept (.proc q) { g.kept (.proc q) with
          child := some ⟨i, true, false⟩ } := by
      refine update_eq_self_iff.mpr ?_
      rw [update_of_ne (by simp [hqi.symm]), hidle]
    refine ⟨⟨hi.cpu, hi.lock, hi.run.entry hst _, hkids, hi.sleep, ?_, hi.recs⟩, ?_, hwhy⟩
    · dsimp only
      rw [hsame]
      exact hhold
    · dsimp only
      rw [hsame]
      exact hall.same rfl rfl

theorem trap_ok (hsafe : Safe s g cur) {v : Interrupt D} {t : State D}
    (ht : interrupt p v s = some t) : Safe t g cur ∧ Right (logic S) (kerneltrap S.cfg v) (g.held p) (g.kept (cur p))
      (fun _ h k => h = g.held p ∧ k = g.kept (cur p)) := by
  have hc := hsafe.inv.cpu p
  unfold interrupt at ht
  split_ifs at ht with hintr
  obtain rfl := some.inj ht
  constructor
  · have := hsafe.inv.hart (p := p) (c := { s.cpu p with intr := false }) (h := g.held p)
      ⟨hc.proc, hc.noff, fun h => by simp at h, hc.quiet⟩ rfl rfl rfl
    rw [Ghost.set_same] at this
    exact ⟨this, hsafe.told.all, hsafe.told.why⟩
  · have hq := hc.quiet (hc.intr hintr)
    have := right_kerneltrap (S := S) S.cfg v (c := (g.held p).cur) (k := g.kept (cur p))
      (Q := fun _ h k => h = g.held p ∧ k = g.kept (cur p)) ⟨hq.symm, rfl⟩
    rwa [← hq] at this

/-- The process code is sound: no step fails, but for the exit of init. -/
theorem sound (S : Setup D) : Sound (system S) (logic S) Safe (fun e => e = "init exiting") where
  fails hi hpre he := exec_fails hi.inv hpre he
  step hi hpre he := exec_step hi hpre he
  swtch hi hl := swtch_ok hi hl
  entry hi hs := entry_ok hi hs
  trap hi ht := trap_ok hi ht

def bootGhost : Resources D where
  held := fun _ => quiet none
  kept := fun _ => idle
  parked := fun x => match x with
    | .sched _ => quiet none
    | .proc i => quiet (some i)

theorem boot_proc (obj : Nat → D) (i : Nat) : ((boot obj).st.proc i).state =
    if i = initproc then .runnable else .unused := by
  simp only [boot, State.proc]
  split_ifs <;> rfl

theorem boot_inv (obj : Nat → D) : Inv (boot obj).st bootGhost (boot obj).cur := by
  have hst : ∀ i, states (boot obj).st i = if i = initproc then .runnable else .unused :=
    boot_proc obj
  have hpar : ∀ i, (boot obj).st.parent i = none := fun _ => rfl
  have hnr : ∀ i, states (boot obj).st i ≠ .running := by
    intro i
    rw [hst]
    split_ifs <;> simp
  have hres : ∀ i, Resumes (quiet (some i) : Held D) i :=
    fun i => ⟨rfl, fun e he => by simp [Held.proc, quiet, noView] at he⟩
  have hproc : ∀ i c, ¬ Asleep (boot obj).st.proc (runs (bootGhost : Resources D)) i c := by
    rintro i c (ha | ⟨p, hp, -⟩)
    · have := ha.1
      rw [boot_proc] at this
      split_ifs at this
    · simp [runs, bootGhost, quiet] at hp
  have hnz : ∀ i, ((boot obj).st.proc i).state ≠ .zombie := by
    intro i
    rw [boot_proc]
    split_ifs <;> simp
  constructor
  case cpu => exact fun p => ⟨rfl, rfl, fun h => by simp [boot] at h, fun _ => rfl⟩
  case lock =>
    refine ⟨fun p lk => ?_, fun p lk v hv => ?_⟩
    · simp [boot, views, bootGhost, quiet, noView]
    · simp [views, bootGhost, quiet, noView] at hv
  case run =>
    constructor
    case phase => exact fun p => .idle
    case unique => exact fun p q i hp => by simp [runs, bootGhost, quiet, Run.On] at hp
    case here => exact fun p => rfl
    case ran =>
      intro i p
      simp [boot, runs, bootGhost, quiet]
    case running => exact fun i hi => absurd hi (hnr i)
    case table =>
      intro i hi
      have hne : i ≠ initproc := by
        rintro rfl
        simp [initproc, nproc] at hi
      rw [hst, if_neg hne]
    case sched => exact fun p i hp => by simp [runs, bootGhost, quiet] at hp
    case left => exact fun i _ _ => hres i
  case kids =>
    constructor
    case child => exact fun x c hc => by simp [bootGhost, idle] at hc
    case adopted => exact fun q c hc => by simp [bootGhost, idle] at hc
    case ready => exact fun x c hc => by simp [bootGhost, idle] at hc
    case unique => exact fun x y c c' hc => by simp [bootGhost, idle] at hc
    case alive => exact fun j q hj => by simp [hpar] at hj
    case orphan =>
      intro j h1 _ h3
      rw [hst, if_neg h3] at h1
      exact absurd rfl h1
    case init =>
      refine ⟨.inr (.inl ?_), rfl⟩
      rw [hst, if_pos rfl]
    case dead => exact fun j _ => rfl
    case sched => exact fun p => rfl
  case sleep =>
    constructor
    case woke => exact fun p c i hw => hw.elim
    case owes => exact fun p c hw => hw.elim
    case calm => exact fun p j hw => hw.elim
    case tested => exact fun p o ho => by simp [duties, bootGhost, quiet, noDuty] at ho
    case wait => exact fun i j ha => absurd ha (hproc i _)
    case sleep => exact fun i l ha => absurd ha (hproc i _)
    case obj => exact fun i o ha => absurd ha (hproc i _)
  case hold =>
    constructor
    case own => exact fun i l hl => by simp [bootGhost, idle] at hl
    case nodup => exact fun i => nodup_nil
    case locked => exact fun l hl => by simp [boot, State.sl] at hl
    case free => exact fun l _ => rfl
  case recs =>
    constructor
    case past => exact fun e he => absurd he not_mem_nil
    case ended => exact fun e he => absurd he not_mem_nil
    case once => exact nodup_nil
    case zombie => exact fun j hj => absurd hj (hnz j)
    case waiting => exact fun e he => absurd he not_mem_nil
    case single => exact nodup_nil
    case good => exact fun e he => absurd he not_mem_nil
    case born => exact fun j q hj => by simp [hpar] at hj

theorem boot_config (S : Setup D) (obj : Nat → D) :
    Threads.Config (logic S) Safe (boot obj) bootGhost where
  inv := by
    refine ⟨boot_inv obj, fun c => ?_, fun p j hj => hj.elim, fun p hp => hp.elim⟩
    simp [boot, returns, answered, owed, bootGhost, idle]
  inj := fun p q hpq => Thread.sched.inj hpq
  prog := fun p => Right.run ⟨rfl, rfl⟩ (fun _ _ _ hg => hg.elim)
  ctx := by
    intro x hx h hb
    show Right (logic S) (if x = .proc initproc then _ else _) h idle _
    split_ifs with hxi
    · subst hxi
      cases hb with
      | sched i d hc _ _ => simp [bootGhost, quiet] at hc
      | proc i d hc hd _ =>
        obtain rfl : initproc = i := some.inj hc
        exact ⟨⟨initproc, d, by decide, hd, rfl, rfl⟩, fun _ _ _ _ => trivial⟩
    · trivial

theorem reachable_config (S : Setup D) {obj : Nat → D} {w : Harts D}
    (hr : (machine (system S)).Reachable (boot obj) w) :
    ∃ g, Threads.Config (logic S) Safe w g :=
  Config.reachable (sound S) (verified S) ⟨_, boot_config S obj⟩ hr

end Smp

end Xv6
