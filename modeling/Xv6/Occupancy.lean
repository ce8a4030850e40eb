import Xv6.ScanLock

/-! Who runs what: a process is `RUNNING` exactly while one hart runs it, and a
candidate stays runnable until its hart switches to it. -/

namespace Xv6

open Function

variable {cfg : Config} {s t : Kernel} {e : Event}

structure Occupied (s : Kernel) : Prop where
  ready : ∀ c k i dp, s.cpu c = .scan k (some i) dp → (s.proc i).state = .runnable
  running : ∀ i, (s.proc i).state = .running ↔ ∃ c, s.cpu c = .run i
  unique : ∀ c c' i, s.cpu c = .run i → s.cpu c' = .run i → c = c'

theorem dispatch_state (sched : Scheduler) (p : Proc) : (dispatch sched p).state = .running := by
  cases sched <;> rfl

theorem SlotAct.Passive.running_iff {a : SlotAct} (ha : a.Passive) {p : Proc} (he : a.Enabled p) :
    (a.apply cfg p).state = .running ↔ p.state = .running := by
  cases a with
  | clockVisit => rw [SlotAct.apply, clockVisit_state]
  | wakeup chan =>
    simp only [SlotAct.apply, wakeupSlot]
    split
    · rename_i hs
      simp [hs.1]
    · rfl
  | dispatch => exact absurd rfl ha.2
  | yield | sleep _ | kexit _ => exact absurd trivial ha.1
  | setkilled | setpriority _ _ => rfl
  | allocproc ok pid ticks =>
    have hp : p.state = .unused := he
    cases ok <;> simp [SlotAct.apply, Xv6.allocproc, freeproc, hp]
  | start =>
    have hp : p.state = .used := he
    simp [SlotAct.apply, hp]
  | kwait =>
    have hp : p.state = .zombie := he
    simp [SlotAct.apply, freeproc, hp]
  | kkill pid =>
    simp only [SlotAct.apply, kkillSlot]
    split
    · rename_i hs
      simp [hs]
    · rfl

theorem SlotAct.Leaves.not_running {a : SlotAct} (ha : a.Leaves) (p : Proc) :
    (a.apply cfg p).state ≠ .running := by
  cases a with
  | yield | sleep _ | kexit _ => simp [SlotAct.apply, Xv6.yield, Xv6.sleep, Xv6.kexit]
  | _ => exact absurd ha not_false

theorem leave_ne_run (sched : Scheduler) (i j : Nat) : leave sched i ≠ .run j := by
  cases sched <;> simp [leave]

theorem Occupied.moved (h : Occupied s) {c : Nat} {x : Cpu}
    (hcpu : t.cpu = update s.cpu c x) (hproc : t.proc = s.proc)
    (hs : ∀ i, s.cpu c ≠ .run i) (hx : ∀ i, x ≠ .run i)
    (hready : ∀ k i dp, x = .scan k (some i) dp → (s.proc i).state = .runnable) :
    Occupied t := by
  have hrun : ∀ c' i, t.cpu c' = .run i ↔ s.cpu c' = .run i := by
    intro c' i
    rw [hcpu]
    by_cases hc : c' = c
    · subst hc
      simp [hs i, hx i]
    · rw [update_of_ne hc]
  have hcand : ∀ c k i dp, t.cpu c = .scan k (some i) dp → (t.proc i).state = .runnable := by
    intro c' k i dp hc'
    rw [hproc]
    rw [hcpu] at hc'
    rw [update_apply] at hc'
    split_ifs at hc' with hc
    · subst hc
      exact hready k i dp hc'
    · exact h.ready c' k i dp hc'
  have hrunning : ∀ i, (t.proc i).state = .running ↔ ∃ c, t.cpu c = .run i := by
    intro i
    simp only [hproc, hrun, h.running i]
  have hunique : ∀ c₁ c₂ i, t.cpu c₁ = .run i → t.cpu c₂ = .run i → c₁ = c₂ := by
    intro c₁ c₂ i h₁ h₂
    exact h.unique c₁ c₂ i ((hrun c₁ i).mp h₁) ((hrun c₂ i).mp h₂)
  exact ⟨hcand, hrunning, hunique⟩

theorem Occupied.dispatched (h : Occupied s) {c i : Nat} {p : Proc}
    (hcpu : t.cpu = update s.cpu c (.run i))
    (hproc : t.proc = update s.proc i p) (hp : p.state = .running)
    (hs : ∀ j, s.cpu c ≠ .run j) (hi : (s.proc i).state = .runnable)
    (hother : ∀ c' k dp, c' ≠ c → s.cpu c' ≠ .scan k (some i) dp) : Occupied t := by
  have hfree : ∀ c', s.cpu c' ≠ .run i := by
    intro c' hc'
    have hh := (h.running i).mpr ⟨c', hc'⟩
    simp [hi] at hh
  have hcand : ∀ c k i dp, t.cpu c = .scan k (some i) dp → (t.proc i).state = .runnable := by
    intro c' k j dp hc'
    rw [hcpu] at hc'
    have hc : c' ≠ c := by
      rintro rfl
      simp at hc'
    rw [update_of_ne hc] at hc'
    have hj : j ≠ i := by
      rintro rfl
      exact hother c' k dp hc hc'
    rw [hproc, update_of_ne hj]
    exact h.ready c' k j dp hc'
  have hrunning : ∀ i, (t.proc i).state = .running ↔ ∃ c, t.cpu c = .run i := by
    intro j
    rw [hproc, hcpu]
    by_cases hj : j = i
    · subst hj
      simp only [update_self, hp, true_iff]
      exact ⟨c, by simp⟩
    · rw [update_of_ne hj, h.running j]
      constructor
      · rintro ⟨c', hc'⟩
        have hc : c' ≠ c := by
          rintro rfl
          exact hs j hc'
        exact ⟨c', by rwa [update_of_ne hc]⟩
      · rintro ⟨c', hc'⟩
        have hc : c' ≠ c := by
          rintro rfl
          simp [Ne.symm hj] at hc'
        exact ⟨c', by rwa [update_of_ne hc] at hc'⟩
  have hunique : ∀ c₁ c₂ i, t.cpu c₁ = .run i → t.cpu c₂ = .run i → c₁ = c₂ := by
    intro c₁ c₂ j h₁ h₂
    rw [hcpu] at h₁ h₂
    by_cases hc₁ : c₁ = c <;> by_cases hc₂ : c₂ = c
    · rw [hc₁, hc₂]
    · subst hc₁
      obtain rfl : i = j := by simpa using h₁
      exact absurd (by rwa [update_of_ne hc₂] at h₂) (hfree c₂)
    · subst hc₂
      obtain rfl : i = j := by simpa using h₂
      exact absurd (by rwa [update_of_ne hc₁] at h₁) (hfree c₁)
    · rw [update_of_ne hc₁] at h₁
      rw [update_of_ne hc₂] at h₂
      exact h.unique c₁ c₂ j h₁ h₂
  exact ⟨hcand, hrunning, hunique⟩

theorem Occupied.passive (h : Occupied s) (hl : CandidateLocked s) (hst : step cfg s e = some t)
    (hcpu : t.cpu = s.cpu)
    (hp : ∀ i a, target cfg s e = some (i, a) → s.lock i = none ∧ a.Passive) : Occupied t := by
  have hcand : ∀ c k i dp, t.cpu c = .scan k (some i) dp → (t.proc i).state = .runnable := by
    intro c k i dp hc
    rw [hcpu] at hc
    rcases step_slot hst i with ⟨-, hi⟩ | ⟨a, ha, -, -⟩
    · rw [hi]
      exact h.ready c k i dp hc
    · have hfree := (hp i a ha).1
      simp [hl c k i dp hc] at hfree
  have hrunning : ∀ i, (t.proc i).state = .running ↔ ∃ c, t.cpu c = .run i := by
    intro i
    rw [hcpu, ← h.running i]
    rcases step_slot hst i with ⟨-, hi⟩ | ⟨a, ha, hen, hi⟩
    · rw [hi]
    · rw [hi, (hp i a ha).2.running_iff hen]
  have hunique : ∀ c₁ c₂ i, t.cpu c₁ = .run i → t.cpu c₂ = .run i → c₁ = c₂ := by
    rw [hcpu]
    exact h.unique
  exact ⟨hcand, hrunning, hunique⟩

theorem Occupied.left (h : Occupied s) (hl : CandidateLocked s) (hst : step cfg s e = some t)
    {c i : Nat} {a : SlotAct} (hc : s.cpu c = .run i) (hfree : s.lock i = none)
    (ht : target cfg s e = some (i, a)) (ha : a.Leaves)
    (hcpu : t.cpu = update s.cpu c (leave cfg.scheduler i)) : Occupied t := by
  have hsame : ∀ j, j ≠ i → t.proc j = s.proc j := by
    intro j hj
    rcases step_slot hst j with ⟨-, hp⟩ | ⟨b, hb, -, -⟩
    · exact hp
    · obtain ⟨rfl, -⟩ : i = j ∧ a = b := by simpa [ht] using hb
      exact absurd rfl hj
  have hrun : ∀ c' j, t.cpu c' = .run j ↔ c' ≠ c ∧ s.cpu c' = .run j := by
    intro c' j
    rw [hcpu]
    by_cases hc' : c' = c
    · subst hc'
      simp [leave_ne_run]
    · simp [hc']
  have hcand : ∀ c k i dp, t.cpu c = .scan k (some i) dp → (t.proc i).state = .runnable := by
    intro c' k j dp hj
    rw [hcpu] at hj
    have hc' : c' ≠ c := by
      rintro rfl
      rw [update_self] at hj
      exact leave_ne_candidate _ _ _ _ _ hj
    rw [update_of_ne hc'] at hj
    have hji : j ≠ i := by
      rintro rfl
      simp [hl c' k j dp hj] at hfree
    rw [hsame j hji]
    exact h.ready c' k j dp hj
  have hrunning : ∀ i, (t.proc i).state = .running ↔ ∃ c, t.cpu c = .run i := by
    intro j
    simp only [hrun]
    by_cases hj : j = i
    · subst hj
      rcases step_slot hst j with ⟨hn, -⟩ | ⟨b, hb, -, hp⟩
      · exact absurd ht (hn a)
      · obtain ⟨-, rfl⟩ : j = j ∧ a = b := by simpa [ht] using hb
        rw [hp]
        refine iff_of_false (ha.not_running _) ?_
        rintro ⟨c', hne, hc'⟩
        exact hne (h.unique c' c j hc' hc)
    · rw [hsame j hj, h.running j]
      constructor
      · rintro ⟨c', hc'⟩
        refine ⟨c', ?_, hc'⟩
        rintro rfl
        rw [hc] at hc'
        exact hj (Cpu.run.inj hc').symm
      · rintro ⟨c', -, hc'⟩
        exact ⟨c', hc'⟩
  have hunique : ∀ c₁ c₂ i, t.cpu c₁ = .run i → t.cpu c₂ = .run i → c₁ = c₂ := by
    intro c₁ c₂ j h₁ h₂
    exact h.unique c₁ c₂ j ((hrun c₁ j).mp h₁).2 ((hrun c₂ j).mp h₂).2
  exact ⟨hcand, hrunning, hunique⟩

theorem Occupied.scheduled (h : Occupied s) (hl : CandidateLocked s)
    (hst : step cfg s e = some t) {c : Nat}
    (hs : scheduleStep cfg s c = some (t.toControl, target cfg s e)) : Occupied t := by
  have hproc := (step_eq_some hst).2
  rcases scheduleStep_cases hs with ⟨hc, hr⟩ | ⟨k, dp, hc, -, hr⟩ | ⟨k, j, dp, hc, -, hr⟩ |
    ⟨k, b, dp, hc, -, hlk, -, hj, hr⟩ | ⟨k, b, dp, hc, -, -, -, -, hr⟩ |
    ⟨k, b, dp, hc, -, -, -, hr⟩ <;>
    (obtain ⟨ht, hx⟩ := Prod.mk.inj hr
     rw [hx] at hproc)
  · exact h.moved (by rw [ht]; rfl) hproc (by simp [hc]) (by simp) (by simp)
  · exact h.moved (by rw [ht]; rfl) hproc (by simp [hc]) (by simp) (by simp)
  · refine h.dispatched (by rw [ht]; rfl) hproc (dispatch_state _ _) (by simp [hc])
      (h.ready c k j dp hc) ?_
    intro c' k' dp' hne hc'
    have hh := hl c' k' j dp' hc'
    rw [hl c k j dp hc] at hh
    exact hne (Option.some.inj hh).symm
  · refine h.dispatched (by rw [ht]; rfl) hproc (dispatch_state _ _) (by simp [hc]) hj ?_
    intro c' k' dp' _ hc'
    simp [hl c' k' k dp' hc'] at hlk
  · exact h.moved (by rw [ht]; rfl) hproc (by simp [hc]) (by simp) (by simp)
  · refine h.moved (by rw [ht]; rfl) hproc (by simp [hc]) (by simp) ?_
    intro k' i dp' hx
    obtain ⟨-, hbest, -⟩ := Cpu.scan.inj hx
    rcases visit_cases cfg.scheduler s.proc (b, dp) k with hv | ⟨hv, hready⟩
    · obtain rfl : b = some i := hv.symm.trans hbest
      exact h.ready c k i dp hc
    · obtain rfl : k = i := Option.some.inj (hv.symm.trans hbest)
      exact hready

theorem step_occupied (hst : step cfg s e = some t) (hl : CandidateLocked s) (h : Occupied s) :
    Occupied t := by
  rcases control_cases hst with ⟨hcpu, -, hp⟩ | ⟨c, i, a, hc, hfree, ht, ha, hcpu, -⟩ | ⟨c, -, hs⟩
  · exact h.passive hl hst hcpu hp
  · exact h.left hl hst hc hfree ht ha hcpu
  · exact h.scheduled hl hst hs

theorem occupied_boot : Occupied boot := by
  refine ⟨by simp [boot], fun i => ?_, by simp [boot]⟩
  refine boot_proc (I := fun p => p.state = .running ↔ ∃ c, boot.cpu c = .run i) ?_ ?_ i
  · simp [boot]
  · simp [boot, procinit]

theorem occupied_of_reachable {es : List Event} (h : (kernel cfg).exec boot es = some s) :
    CandidateLocked s ∧ Occupied s :=
  Machine.inv_exec (m := kernel cfg) (I := fun u => CandidateLocked u ∧ Occupied u)
    (fun _ _ _ hs hi => ⟨step_candidateLocked hs hi.1, step_occupied hs hi.1 hi.2⟩) h
    ⟨candidateLocked_boot, occupied_boot⟩

/-- The state a process is in when it takes its turn, acts in it, or ends it. -/
def SlotAct.InTurn (p : Proc) : SlotAct → Prop
  | .dispatch => p.state = .runnable
  | .yield | .sleep _ | .kexit _ | .setkilled => p.state = .running
  | _ => True

theorem Occupied.inTurn (h : Occupied s) (hst : step cfg s e = some t) {i : Nat}
    {a : SlotAct} (ht : target cfg s e = some (i, a)) : a.InTurn (s.proc i) := by
  cases acts_of_target ht with
  | yield hc | sleep _ hc | kexit _ hc | setkilled hc => exact (h.running i).mpr ⟨_, hc⟩
  | dispatch c =>
    have he := (step_eq_some hst).1
    rw [ht] at he
    simp only [effect] at he
    split at he
    · rcases scheduleStep_cases he with ⟨-, hr⟩ | ⟨k, dp, -, -, hr⟩ | ⟨k, j, dp, hj, -, hr⟩ |
        ⟨k, b, dp, -, -, -, -, hready, hr⟩ | ⟨k, b, dp, -, -, -, -, -, hr⟩ |
        ⟨k, b, dp, -, -, -, -, hr⟩ <;>
        simp only [Prod.mk.injEq, Option.some.injEq, reduceCtorEq, and_false, and_true] at hr
      · rw [hr.2]
        exact h.ready c k j dp hj
      · rw [hr.2]
        exact hready
    · simp at he
  | _ => trivial

theorem apply_unused {a : SlotAct} {p : Proc} (he : a.Enabled p) (hturn : a.InTurn p)
    (hn : ∀ ok pid ticks, a ≠ .allocproc ok pid ticks) (hp : p.state = .unused) :
    (a.apply cfg p).state = .unused := by
  cases a with
  | clockVisit => rw [SlotAct.apply, clockVisit_state, hp]
  | wakeup chan => simp [SlotAct.apply, wakeupSlot, hp]
  | dispatch | yield | sleep _ | kexit _ => simp [SlotAct.InTurn, hp] at hturn
  | setkilled | setpriority _ _ => exact hp
  | allocproc ok pid ticks => exact absurd rfl (hn ok pid ticks)
  | start => simp [SlotAct.Enabled, hp] at he
  | kwait => rfl
  | kkill pid => simp [SlotAct.apply, kkillSlot, hp]

/-- The rule for invariants of one slot and its history over runs from boot,
where a process acts only in its turn. -/
theorem turnWatch_inv {γ : Type*} {i : Nat} {upd : γ → Proc → SlotAct → γ}
    {R : Proc → SlotAct → Prop} {I : Proc → γ → Prop}
    (hact : ∀ p a g, a.Enabled p → a.InTurn p → R p a → I p g → I (a.apply cfg p) (upd g p a))
    {g : γ} {es : List Event} (hrun : (kernel cfg).exec boot es = some s)
    (hR : (kernel cfg).Along (OnSlot cfg i R) boot es) (hI : I (boot.proc i) g) :
    I (s.proc i) (slotWatch cfg i upd g boot es) := by
  refine (Machine.watch_inv (m := kernel cfg) _
    (I := fun u g => (CandidateLocked u ∧ Occupied u) ∧ I (u.proc i) g) ?_ hrun hR
    ⟨⟨candidateLocked_boot, occupied_boot⟩, hI⟩).2
  rintro u e v g hst hr ⟨⟨hl, ho⟩, hi⟩
  refine ⟨⟨step_candidateLocked hst hl, step_occupied hst hl ho⟩, ?_⟩
  rcases step_slot hst i with ⟨hn, hp⟩ | ⟨a, ha, hen, hp⟩
  · rw [slotUpd_of_not_target hn, hp]
    exact hi
  · rw [slotUpd_of_target ha, hp]
    exact hact (u.proc i) a g hen (ho.inTurn hst ha) (hr a ha) hi

end Xv6
