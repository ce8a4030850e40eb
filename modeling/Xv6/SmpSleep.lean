import Xv6.SmpInv

/-! No wakeup is lost: a process that sleeps while the condition behind its channel
is true is one that some hart has still to wake. -/

namespace Xv6

open Function Option

namespace Smp

variable {lock : Lock → Option Nat} {proc : Nat → Proc} {parent parent' : Nat → Option Nat}
  {sl sl' : Nat → Sleeplock} {hit hit' : Nat → Nat → Bool} {poster : Lock → Option Nat}
  {passed : Lock → Nat → Bool} {run run' : Nat → Run} {duty : Nat → Duty} {δ : Duty}
  {i j p q : Nat} {c : Chan} {lk : Lock}

theorem Waking.update (hw : Waking duty i c) (howes : (duty p).owes c → δ.owes c)
    (hwoke : δ.woke c i → (duty p).woke c i) : Waking (update duty p δ) i c := by
  obtain ⟨q, ho, hn⟩ := hw
  refine ⟨q, ?_⟩
  rw [update_apply]
  split_ifs with hq
  · subst hq
    exact ⟨howes ho, fun h => hn (hwoke h)⟩
  · exact ⟨ho, hn⟩

theorem SleepInv.rerun (hs : SleepInv lock proc parent sl hit poster passed run duty)
    (hA : ∀ i c, Asleep proc run' i c → Asleep proc run i c)
    (ht : ∀ p o, (duty p).tested = some o → (run' p).cur = (run p).cur) :
    SleepInv lock proc parent sl hit poster passed run' duty := by
  constructor
  case woke =>
    intro p c i hw
    exact ⟨(hs.woke p c i hw).1, fun ha => (hs.woke p c i hw).2 (hA i c ha)⟩
  case owes => exact hs.owes
  case calm => exact hs.calm
  case tested =>
    intro p o hp
    rw [ht p o hp]
    exact hs.tested p o hp
  case wait => exact fun i j ha => hs.wait i j (hA i _ ha)
  case sleep => exact fun i l ha => hs.sleep i l (hA i _ ha)
  case obj => exact fun i o ha => hs.obj i o (hA i _ ha)

variable (parent' sl') in
theorem SleepInv.mono (hs : SleepInv lock proc parent sl hit poster passed run duty)
    (hparent : ∀ i j, parent' j = some i → parent j = some i ∨ (proc j).state ≠ .zombie)
    (hsl : ∀ l, (sl' l).locked = false → (sl l).locked = false)
    (hδ : δ = { duty p with tested := δ.tested, spoilt := δ.spoilt })
    (htested : ∀ o, δ.tested = some o → (duty p).tested = some o) :
    SleepInv lock proc parent' sl' hit poster passed run (update duty p δ) := by
  have howes : δ.owes = (duty p).owes := by rw [hδ]
  have hwoke : δ.woke = (duty p).woke := by rw [hδ]
  have hcalm : δ.calm = (duty p).calm := by rw [hδ]
  have hw : ∀ {i c}, Waking duty i c → Waking (update duty p δ) i c :=
    fun h => h.update (by rw [howes]; exact id) (by rw [hwoke]; exact id)
  constructor
  case woke => exact fun q c i h => hs.woke q c i (of_update (Duty.woke · c i) h (hwoke ▸ id))
  case owes =>
    intro q c h
    simp only [update_apply] at h ⊢
    split_ifs at h ⊢ with hq
    · subst hq
      rw [howes] at h
      rw [hwoke]
      exact hs.owes q c h
    · exact hs.owes q c h
  case calm => exact fun q j h => hs.calm q j (of_update (Duty.calm · j) h (hcalm ▸ id))
  case tested =>
    exact fun q o h => hs.tested q o (of_update (Duty.tested · = some o) h (htested o))
  case wait =>
    intro i j ha hp hz
    exact hw (hs.wait i j ha ((hparent i j hp).resolve_right (fun hne => hne hz)) hz)
  case sleep => exact fun i l ha hl => hw (hs.sleep i l ha (hsl l hl))
  case obj => exact fun i o ha hh => hw (hs.obj i o ha hh)

theorem SleepInv.slot (hs : SleepInv lock proc parent sl hit poster passed run duty) {e : Proc}
    (hA : ∀ c, AsleepOn e c → Asleep proc run j c)
    (hz : e.state = .zombie → (proc j).state = .zombie ∨ (lock .wait = some p ∧ ¬ δ.calm j ∧
      ∀ q, parent j = some q → ¬ Asleep proc run q (procChan q)))
    (htested : δ.tested = (duty p).tested) (howes : δ.owes = (duty p).owes)
    (hwoke : δ.woke = (duty p).woke) (hcalm : ∀ i, δ.calm i → (duty p).calm i) :
    SleepInv lock (update proc j e) parent sl hit poster passed run (update duty p δ) := by
  have hA' : ∀ i c, Asleep (update proc j e) run i c → Asleep proc run i c := by
    intro i c ha
    rcases ha with ha | ha
    · rw [update_apply] at ha
      split_ifs at ha with hij
      · subst hij
        exact hA c ha
      · exact .inl ha
    · exact .inr ha
  have hw : ∀ {i c}, Waking duty i c → Waking (update duty p δ) i c :=
    fun h => h.update (by rw [howes]; exact id) (by rw [hwoke]; exact id)
  constructor
  case woke =>
    intro q c i h
    have h' : (duty q).woke c i := of_update (Duty.woke · c i) h (hwoke ▸ id)
    exact ⟨(hs.woke q c i h').1, fun ha => (hs.woke q c i h').2 (hA' i c ha)⟩
  case owes =>
    intro q c h
    simp only [update_apply] at h ⊢
    split_ifs at h ⊢ with hq
    · subst hq
      rw [howes] at h
      rw [hwoke]
      exact hs.owes q c h
    · exact hs.owes q c h
  case calm =>
    intro q i h
    have h' : (duty q).calm i := of_update (Duty.calm · i) h (hcalm i)
    obtain ⟨hl, hne⟩ := hs.calm q i h'
    refine ⟨hl, fun hzi => ?_⟩
    rw [update_apply] at hzi
    split_ifs at hzi with hij
    · subst hij
      rcases hz hzi with hold | ⟨hlp, hnc, -⟩
      · exact hne hold
      · obtain rfl : q = p := some.inj (hl.symm.trans hlp)
        rw [update_self] at h
        exact hnc h
    · exact hne hzi
  case tested =>
    exact fun q o h => hs.tested q o (of_update (Duty.tested · = some o) h (htested ▸ id))
  case wait =>
    intro i k ha hp hk
    have ha' := hA' i _ ha
    rw [update_apply] at hk
    split_ifs at hk with hkj
    · subst hkj
      rcases hz hk with hold | ⟨-, -, hno⟩
      · exact hw (hs.wait i k ha' hp hold)
      · exact absurd ha' (hno i hp)
    · exact hw (hs.wait i k ha' hp hk)
  case sleep => exact fun i l ha hl => hw (hs.sleep i l (hA' i _ ha) hl)
  case obj => exact fun i o ha hh => hw (hs.obj i o (hA' i _ ha) hh)

theorem SleepInv.acquire (hs : SleepInv lock proc parent sl hit poster passed run duty)
    (hf : lock lk = none) :
    SleepInv (update lock lk (some p)) proc parent sl hit poster passed run duty := by
  have hl : ∀ {lk' q}, lock lk' = some q → update lock lk (some p) lk' = some q := by
    intro lk' q h
    have hne : lk' ≠ lk := by
      rintro rfl
      rw [hf] at h
      simp at h
    rwa [update_of_ne hne]
  constructor
  case woke => exact fun q c i h => ⟨hl (hs.woke q c i h).1, (hs.woke q c i h).2⟩
  case owes => exact fun q c h => ⟨hl (hs.owes q c h).1, (hs.owes q c h).2⟩
  case calm => exact fun q j h => ⟨hl (hs.calm q j h).1, (hs.calm q j h).2⟩
  case tested => exact fun q o h => ⟨hl (hs.tested q o h).1, (hs.tested q o h).2⟩
  case wait => exact hs.wait
  case sleep => exact hs.sleep
  case obj => exact hs.obj

theorem SleepInv.exit (hs : SleepInv lock proc parent sl hit poster passed run duty)
    (hnap : ∀ q, (run q).cur = some i → (run q).nap = none)
    (htested : δ.tested = (duty p).tested) (howes : δ.owes = (duty p).owes)
    (hwoke : ∀ c j, δ.woke c j ↔ (duty p).woke c j ∨
      (j = i ∧ lock (guard c) = some p ∧ ¬ AsleepOn (proc i) c))
    (hcalm : ∀ j, δ.calm j ↔ (duty p).calm j ∨
      (j = i ∧ lock .wait = some p ∧ (proc i).state ≠ .zombie))
    (hpass : ∀ c, (duty p).owes c → (duty p).woke c i ∨ ¬ AsleepOn (proc i) c) :
    SleepInv (update lock (.proc i) none) proc parent sl hit (update poster (.proc i) none)
      (fun lk j => passed lk j || decide (Lock.proc i = .proc j ∧ poster lk = some p)) run
      (update duty p δ) := by
  have hguard : ∀ c, update lock (.proc i) none (guard c) = lock (guard c) :=
    fun c => update_of_ne (guard_ne_proc c i) _ _
  have hwait : update lock (.proc i) none .wait = lock .wait :=
    update_of_ne (by simp) _ _
  have hawake : ∀ c, ¬ AsleepOn (proc i) c → ¬ Asleep proc run i c := by
    rintro c hn (ha | ⟨q, hq, hqn⟩)
    · exact hn ha
    · rw [hnap q hq] at hqn
      simp at hqn
  have hw : ∀ {j c}, Asleep proc run j c → Waking duty j c → Waking (update duty p δ) j c := by
    intro j c ha h
    refine h.update (by rw [howes]; exact id) (fun hd => ?_)
    rcases (hwoke c j).mp hd with hd | ⟨rfl, -, hn⟩
    · exact hd
    · exact absurd ha (hawake c hn)
  constructor
  case woke =>
    intro q c j h
    rw [hguard]
    rw [update_apply] at h
    split_ifs at h with hq
    · subst hq
      rcases (hwoke c j).mp h with h | ⟨rfl, hl, hn⟩
      · exact hs.woke q c j h
      · exact ⟨hl, hawake c hn⟩
    · exact hs.woke q c j h
  case owes =>
    intro q c h
    rw [hguard, update_of_ne (guard_ne_proc c i)]
    simp only [update_apply] at h ⊢
    split_ifs at h ⊢ with hq
    · subst hq
      rw [howes] at h
      obtain ⟨hl, hp, hpw⟩ := hs.owes q c h
      refine ⟨hl, hp, fun j hj => (hwoke c j).mpr ?_⟩
      rcases (Bool.or_eq_true _ _).mp hj with hj | hj
      · exact .inl (hpw j hj)
      · obtain ⟨hij, -⟩ := of_decide_eq_true hj
        obtain rfl := Lock.proc.inj hij
        exact (hpass c h).imp id (fun hn => ⟨rfl, hl, hn⟩)
    · obtain ⟨hl, hp, hpw⟩ := hs.owes q c h
      refine ⟨hl, hp, fun j hj => hpw j ?_⟩
      rcases (Bool.or_eq_true _ _).mp hj with hj | hj
      · exact hj
      · have := (of_decide_eq_true hj).2
        rw [hp] at this
        exact absurd (some.inj this) hq
  case calm =>
    intro q j h
    rw [hwait]
    rw [update_apply] at h
    split_ifs at h with hq
    · subst hq
      rcases (hcalm j).mp h with h | ⟨rfl, hl, hn⟩
      · exact hs.calm q j h
      · exact ⟨hl, hn⟩
    · exact hs.calm q j h
  case tested =>
    intro q o h
    rw [update_of_ne (by simp)]
    exact hs.tested q o (of_update (Duty.tested · = some o) h (htested ▸ id))
  case wait => exact fun i j ha hp hz => hw ha (hs.wait i j ha hp hz)
  case sleep => exact fun i l ha hl => hw ha (hs.sleep i l ha hl)
  case obj => exact fun i o ha hh => hw ha (hs.obj i o ha hh)

/-- No condition behind the channel is true for process `i`. -/
structure Untrue (proc : Nat → Proc) (parent : Nat → Option Nat) (sl : Nat → Sleeplock)
    (hit : Nat → Nat → Bool) (i : Nat) (c : Chan) : Prop where
  wait : c = procChan i → ∀ j, parent j = some i → (proc j).state ≠ .zombie
  sleep : ∀ l, c = sleepChan l → (sl l).locked = true
  obj : ∀ o, c = objChan o → hit i o = false

theorem SleepInv.release (hs : SleepInv lock proc parent sl hit poster passed run duty)
    (hl : lock lk = some p) (hset : ∀ c i, (duty p).owes c → ¬ Asleep proc run i c)
    (hcur : ∀ q, (run' q).cur = (run q).cur)
    (hnew : ∀ i c, Asleep proc run' i c → Asleep proc run i c ∨
      (guard c = lk ∧ Untrue proc parent sl hit i c)) :
    SleepInv (update lock lk none) proc parent sl hit (update poster lk none)
      passed run' (update duty p noDuty) := by
  have hd : ∀ {q}, q ≠ p → ∀ {lk'}, lock lk' = some q → lk' ≠ lk := by
    rintro q hq lk' h rfl
    exact hq (some.inj (h.symm.trans hl))
  have hw : ∀ {i c}, Asleep proc run i c → Waking duty i c → Waking (update duty p noDuty) i c := by
    rintro i c ha ⟨q, ho, hn⟩
    have hq : q ≠ p := by
      rintro rfl
      exact hset c i ho ha
    refine ⟨q, ?_⟩
    rw [update_of_ne hq]
    exact ⟨ho, hn⟩
  constructor
  case woke =>
    intro q c i h
    rw [update_apply] at h
    split_ifs at h with hq
    · subst hq
      exact h.elim
    · obtain ⟨h1, h2⟩ := hs.woke q c i h
      rw [update_of_ne (hd hq h1)]
      refine ⟨h1, fun ha => ?_⟩
      rcases hnew i c ha with ha | ⟨hg, -⟩
      · exact h2 ha
      · exact hd hq h1 hg
  case owes =>
    intro q c h
    by_cases hq : q = p
    · subst hq
      rw [update_self] at h
      exact h.elim
    · rw [update_of_ne hq] at h ⊢
      have h1 := hs.owes q c h
      rw [update_of_ne (hd hq h1.1), update_of_ne (hd hq h1.1)]
      exact h1
  case calm =>
    intro q j h
    rw [update_apply] at h
    split_ifs at h with hq
    · subst hq
      exact h.elim
    · have h1 := hs.calm q j h
      rw [update_of_ne (hd hq h1.1)]
      exact h1
  case tested =>
    intro q o h
    rw [update_apply] at h
    split_ifs at h with hq
    · subst hq
      simp [noDuty] at h
    · have h1 := hs.tested q o h
      rw [update_of_ne (hd hq h1.1), hcur]
      exact h1
  case wait =>
    intro i j ha hp hz
    rcases hnew i _ ha with ha | ⟨-, hu⟩
    · exact hw ha (hs.wait i j ha hp hz)
    · exact absurd hz (hu.wait rfl j hp)
  case sleep =>
    intro i l ha hf
    rcases hnew i _ ha with ha | ⟨-, hu⟩
    · exact hw ha (hs.sleep i l ha hf)
    · rw [hu.sleep l rfl] at hf
      simp at hf
  case obj =>
    intro i o ha hh
    rcases hnew i _ ha with ha | ⟨-, hu⟩
    · exact hw ha (hs.obj i o ha hh)
    · rw [hu.obj o rfl] at hh
      simp at hh

theorem SleepInv.test (hs : SleepInv lock proc parent sl hit poster passed run duty) {o : Nat}
    (hl : lock (.obj o) = some p) (hc : (run p).cur = some i) :
    SleepInv lock proc parent sl (update hit i (update (hit i) o false)) poster
      passed run (update duty p { duty p with tested := some o }) := by
  have hhit : ∀ k m, update hit i (update (hit i) o false) k m = true → hit k m = true := by
    intro k m h
    exact of_update (fun g : Nat → Bool => g m = true) h (of_update (· = true) · (by simp))
  have hfalse : ∀ k m, hit k m = false → update hit i (update (hit i) o false) k m = false := by
    intro k m h
    by_contra hn
    rw [hhit k m (by simpa using hn)] at h
    simp at h
  have hw : ∀ {i c}, Waking duty i c →
      Waking (update duty p { duty p with tested := some o }) i c :=
    fun h => h.update id id
  constructor
  case woke => exact fun q c k h => hs.woke q c k (of_update (Duty.woke · c k) h id)
  case owes =>
    intro q c h
    simp only [update_apply] at h ⊢
    split_ifs at h ⊢ with hq
    · subst hq
      exact hs.owes q c h
    · exact hs.owes q c h
  case calm => exact fun q k h => hs.calm q k (of_update (Duty.calm · k) h id)
  case tested =>
    intro q m h
    rw [update_apply] at h
    split_ifs at h with hq
    · subst hq
      obtain rfl := some.inj h
      exact ⟨hl, i, hc, by simp⟩
    · obtain ⟨h1, k, h2, h3⟩ := hs.tested q m h
      exact ⟨h1, k, h2, hfalse k m h3⟩
  case wait => exact fun k j ha hp hz => hw (hs.wait k j ha hp hz)
  case sleep => exact fun k l ha hf => hw (hs.sleep k l ha hf)
  case obj => exact fun k m ha hh => hw (hs.obj k m ha (hhit k m hh))

variable (parent' sl' hit') in
theorem SleepInv.post (hs : SleepInv lock proc parent sl hit poster passed run duty)
    (hl : lock (guard c) = some p)
    (hparent : ∀ i j, parent' j = some i → parent j = some i ∨ c = procChan i)
    (hsl : ∀ l, (sl' l).locked = false → (sl l).locked = false ∨ c = sleepChan l)
    (hhit : ∀ i o, hit' i o = hit i o ∨ c = objChan o)
    (hδ : δ = { duty p with
      tested := δ.tested
      owes := fun c' => (duty p).owes c' ∨ c' = c
      woke := fun c' j => c' ≠ c ∧ (duty p).woke c' j })
    (htested : ∀ o, δ.tested = some o → (duty p).tested = some o ∧ c ≠ objChan o) :
    SleepInv lock proc parent' sl' hit' (update poster (guard c) (some p))
      (update passed (guard c) (fun _ => false)) run (update duty p δ) := by
  have howes : ∀ c', δ.owes c' ↔ (duty p).owes c' ∨ c' = c := by rw [hδ]; exact fun _ => Iff.rfl
  have hwoke : ∀ c' j, δ.woke c' j ↔ c' ≠ c ∧ (duty p).woke c' j := by
    rw [hδ]
    exact fun _ _ => Iff.rfl
  have hcalm : δ.calm = (duty p).calm := by rw [hδ]
  have hw : ∀ {i c'}, Waking duty i c' → Waking (update duty p δ) i c' :=
    fun h => h.update (fun h => (howes _).mpr (.inl h)) (fun h => ((hwoke _ _).mp h).2)
  have hself : ∀ i, Waking (update duty p δ) i c := by
    intro i
    refine ⟨p, ?_⟩
    rw [update_self]
    exact ⟨(howes c).mpr (.inr rfl), fun h => ((hwoke c i).mp h).1 rfl⟩
  constructor
  case woke =>
    exact fun q c' k h => hs.woke q c' k (of_update (Duty.woke · c' k) h (fun h => ((hwoke c' k).mp h).2))
  case owes =>
    intro q c' h
    by_cases hq : q = p
    · subst hq
      rw [update_self] at h ⊢
      by_cases hg : guard c' = guard c
      · rw [hg, update_self, update_self]
        exact ⟨hl, rfl, fun i hi => by simp at hi⟩
      · have hne : c' ≠ c := fun he => hg (by rw [he])
        rw [update_of_ne hg, update_of_ne hg]
        obtain ⟨h1, h2, h3⟩ := hs.owes q c' (((howes c').mp h).resolve_right hne)
        exact ⟨h1, h2, fun i hi => (hwoke c' i).mpr ⟨hne, h3 i hi⟩⟩
    · rw [update_of_ne hq] at h ⊢
      have h1 := hs.owes q c' h
      have hg : guard c' ≠ guard c := by
        intro hg
        rw [hg, hl] at h1
        exact hq (some.inj h1.1).symm
      rw [update_of_ne hg, update_of_ne hg]
      exact h1
  case calm => exact fun q k h => hs.calm q k (of_update (Duty.calm · k) h (hcalm ▸ id))
  case tested =>
    intro q o h
    rw [update_apply] at h
    split_ifs at h with hq
    · subst hq
      obtain ⟨h1, hne⟩ := htested o h
      obtain ⟨h2, i, h3, h4⟩ := hs.tested q o h1
      exact ⟨h2, i, h3, by rw [(hhit i o).resolve_right hne]; exact h4⟩
    · obtain ⟨h2, i, h3, h4⟩ := hs.tested q o h
      have hne : c ≠ objChan o := by
        rintro rfl
        rw [guard_objChan, h2] at hl
        exact hq (some.inj hl)
      exact ⟨h2, i, h3, by rw [(hhit i o).resolve_right hne]; exact h4⟩
  case wait =>
    intro i j ha hp hz
    rcases hparent i j hp with hp | rfl
    · exact hw (hs.wait i j ha hp hz)
    · exact hself i
  case sleep =>
    intro i l ha hf
    rcases hsl l hf with hf | rfl
    · exact hw (hs.sleep i l ha hf)
    · exact hself i
  case obj =>
    intro i o ha hh
    rcases hhit i o with he | rfl
    · exact hw (hs.obj i o ha (he.symm.trans hh))
    · exact hself i

end Smp

end Xv6
