import Xv6.Aging

/-! Whether a boost is earned since the last dispatch. None of the three
scheduler bodies clears `wtime`, so the ticks waited before a dispatch count
towards the boost after it. -/

namespace Xv6

open Option

/-- The ticks that found the process runnable since it was last given a hart,
or since it was created. -/
def sinceDispatch (g : Nat) (p : Proc) : SlotAct → Nat
  | .clockVisit => if p.state = .runnable then g + 1 else g
  | .dispatch => 0
  | .allocproc _ _ _ => 0
  | _ => g

def FreshDispatch (p : Proc) (a : SlotAct) : Prop := a = .dispatch → p.wtime = 0

theorem sinceDispatch_of_ne (g : Nat) (p : Proc) {a : SlotAct} (hc : a ≠ .clockVisit)
    (hd : a ≠ .dispatch) (ha : ∀ ok pid ticks, a ≠ .allocproc ok pid ticks) :
    sinceDispatch g p a = g := by
  cases a with
  | clockVisit => exact absurd rfl hc
  | dispatch => exact absurd rfl hd
  | allocproc ok pid ticks => exact absurd rfl (ha ok pid ticks)
  | _ => rfl

theorem setpriority_wtime {cfg : Config} (pid pr : Int) (p : Proc) :
    ((SlotAct.setpriority pid pr).apply cfg p).wtime = p.wtime := rfl

theorem wtime_le_sinceDispatch {sched : Scheduler} {es : List Event} {s : Kernel} {i : Nat}
    (hrun : (kernel ⟨sched, true⟩).exec boot es = some s)
    (hf : (kernel ⟨sched, true⟩).Along (OnSlot ⟨sched, true⟩ i FreshDispatch) boot es) :
    Accounted (s.proc i) ∧
      (s.proc i).wtime ≤ (slotWatch ⟨sched, true⟩ i sinceDispatch 0 boot es : Nat) := by
  refine slotWatch_inv (I := fun p (g : Nat) => Accounted p ∧ p.wtime ≤ g) ?_ hrun hf ?_
  · rintro p a g he hfresh ⟨hacc, hw⟩
    refine ⟨apply_accounted he hacc, ?_⟩
    by_cases hc : a = .clockVisit
    · subst hc
      by_cases hr : p.state = .runnable
      · have hw' := (clockVisit_runnable hr hacc).1
        obtain ⟨-, -, hw0, hw1⟩ := hacc
        simp only [SlotAct.apply, sinceDispatch, if_pos hr, hw']
        push_cast
        omega
      · simpa only [SlotAct.apply, sinceDispatch, if_neg hr,
          (clockVisit_of_not_runnable true hr).1] using hw
    · by_cases ha : ∃ ok pid ticks, a = .allocproc ok pid ticks
      · obtain ⟨ok, pid, ticks, rfl⟩ := ha
        exact (allocproc_wtime_priority ok pid ticks p).1.le
      · push Not at ha
        have hsame : (a.apply ⟨sched, true⟩ p).wtime = p.wtime := by
          by_cases hs : ∃ pid pr, a = .setpriority pid pr
          · obtain ⟨pid, pr, rfl⟩ := hs
            exact setpriority_wtime pid pr p
          · push Not at hs
            exact (apply_wtime_priority _ p hc ha hs).1
        rw [hsame]
        by_cases hd : a = .dispatch
        · rw [hfresh hd]
          positivity
        · rwa [sinceDispatch_of_ne g p hc hd ha]
  · refine ⟨accounted_boot i, ?_⟩
    exact boot_proc (I := fun p => p.wtime ≤ (0 : Nat)) (by decide) (by decide) i

/-- When every dispatch of the process finds its counter at zero, each boost
comes after a full interval of waiting since the last dispatch. -/
theorem boost_after_full_wait (sched : Scheduler) {es : List Event} {s t : Kernel} {e : Event}
    {i : Nat} (hrun : (kernel ⟨sched, true⟩).exec boot es = some s)
    (hfresh : (kernel ⟨sched, true⟩).Along (OnSlot ⟨sched, true⟩ i FreshDispatch) boot es)
    (hstep : step ⟨sched, true⟩ s e = some t)
    (hvisit : target ⟨sched, true⟩ s e = some (i, .clockVisit))
    (hboost : (t.proc i).priority < (s.proc i).priority) :
    agingThreshold + 1 ≤ (slotUpd ⟨sched, true⟩ i sinceDispatch
      (slotWatch ⟨sched, true⟩ i sinceDispatch 0 boot es) s e : Nat) := by
  obtain ⟨hacc, hw⟩ := wtime_le_sinceDispatch hrun hfresh
  have hp : t.proc i = clockVisit true (s.proc i) := by
    rcases step_slot hstep i with ⟨hn, -⟩ | ⟨a, ha, -, hp⟩
    · exact absurd hvisit (hn _)
    · obtain rfl : a = .clockVisit := by simpa [hvisit] using ha.symm
      exact hp
  rw [hp] at hboost
  by_cases hr : (s.proc i).state = .runnable
  · have hpr := (clockVisit_runnable hr hacc).2
    obtain ⟨hp0, hp1, hw0, hw1⟩ := hacc
    rw [slotUpd_of_target hvisit]
    simp only [sinceDispatch, if_pos hr, agingThreshold]
    push_cast
    omega
  · exact absurd hboost (by simp [(clockVisit_of_not_runnable true hr).2])

instance (p : Proc) (a : SlotAct) : Decidable (FreshDispatch p a) :=
  inferInstanceAs (Decidable (_ → _))

/-- A dispatch before the first tick, and eleven ticks after it. -/
def firstBoost : List Event :=
  [.schedule 1, .schedule 1, .yield 1] ++ tickRun 10 ++ .timer :: List.replicate 65 .clock

theorem boost_after_full_wait_first : ∃ s t,
    (kernel ⟨.rr, true⟩).exec boot firstBoost = some s ∧ step ⟨.rr, true⟩ s .clock = some t ∧
    (s.proc 0).nrun = 1 ∧ (t.proc 0).priority < (s.proc 0).priority ∧
    agingThreshold + 1 ≤ (slotUpd ⟨.rr, true⟩ 0 sinceDispatch
      (slotWatch ⟨.rr, true⟩ 0 sinceDispatch 0 boot firstBoost) s .clock : Nat) := by
  have h : ((kernel ⟨.rr, true⟩).exec boot firstBoost).bind (fun s =>
      (step ⟨.rr, true⟩ s .clock).map (fun t => (target ⟨.rr, true⟩ s .clock, (s.proc 0).nrun,
        (s.proc 0).priority, (t.proc 0).priority))) =
      some (some (0, .clockVisit), 1, 60, 59) := by decide +kernel
  have hfresh : (kernel ⟨.rr, true⟩).Along (OnSlot ⟨.rr, true⟩ 0 FreshDispatch) boot
      firstBoost := by decide +kernel
  obtain ⟨s, hs, h⟩ := bind_eq_some_iff.mp h
  obtain ⟨t, ht, h⟩ := map_eq_some_iff.mp h
  simp only [Prod.mk.injEq] at h
  have hb : (t.proc 0).priority < (s.proc 0).priority := by omega
  exact ⟨s, t, hs, ht, h.2.1, hb, boost_after_full_wait .rr hs hfresh ht h.1 hb⟩

def earlyBoost : List Event :=
  tickRun 10 ++ ([.schedule 1, .schedule 1, .yield 1, .timer] ++ List.replicate 65 .clock)

theorem boost_without_full_wait :
    ¬ ∀ (sched : Scheduler) (es : List Event) (s t : Kernel) (e : Event) (i : Nat),
      (kernel ⟨sched, true⟩).exec boot es = some s → step ⟨sched, true⟩ s e = some t →
      target ⟨sched, true⟩ s e = some (i, .clockVisit) →
      (t.proc i).priority < (s.proc i).priority →
      agingThreshold + 1 ≤ (slotUpd ⟨sched, true⟩ i sinceDispatch
        (slotWatch ⟨sched, true⟩ i sinceDispatch 0 boot es) s e : Nat) := by
  intro hall
  have h : ((kernel ⟨.rr, true⟩).exec boot earlyBoost).bind (fun s =>
      (step ⟨.rr, true⟩ s .clock).map (fun t =>
        (target ⟨.rr, true⟩ s .clock, (s.proc 0).priority, (t.proc 0).priority,
          slotUpd ⟨.rr, true⟩ 0 sinceDispatch
            (slotWatch ⟨.rr, true⟩ 0 sinceDispatch 0 boot earlyBoost) s .clock))) =
      some (some (0, .clockVisit), 60, 59, 1) := by decide +kernel
  obtain ⟨s, hs, h⟩ := bind_eq_some_iff.mp h
  obtain ⟨t, ht, h⟩ := map_eq_some_iff.mp h
  simp only [Prod.mk.injEq] at h
  have hh := hall .rr earlyBoost s t .clock 0 hs ht h.1 (by omega)
  rw [h.2.2.2] at hh
  exact absurd hh (by decide)

end Xv6
