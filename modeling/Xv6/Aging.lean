import Xv6.ClockInterrupt

/-! Aging over whole runs: the waiting counter and the priority of a process
are functions of the number of ticks that found it runnable. -/

namespace Xv6

theorem clockVisit_of_not_runnable (aging : Bool) {p : Proc} (h : p.state ≠ .runnable) :
    (clockVisit aging p).wtime = p.wtime ∧ (clockVisit aging p).priority = p.priority := by
  unfold clockVisit
  split <;> simp_all

structure Accounted (p : Proc) : Prop where
  priority_nonneg : 0 ≤ p.priority
  priority_le : p.priority ≤ 100
  wtime_nonneg : 0 ≤ p.wtime
  wtime_le : p.wtime ≤ 10

theorem clockVisit_runnable {p : Proc} (h : p.state = .runnable) (ha : Accounted p) :
    (clockVisit true p).wtime = (p.wtime + 1) % 11 ∧
    (clockVisit true p).priority = max 0 (p.priority - (p.wtime + 1) / 11) := by
  obtain ⟨hp, hp', hw, hw'⟩ := ha
  have hi : i32 (p.wtime + 1) = p.wtime + 1 := i32_eq (by omega) (by omega)
  have hj : i32 (p.priority - 1) = p.priority - 1 := i32_eq (by omega) (by omega)
  simp only [clockVisit, h, if_true, detectStarving_wtime, detectStarving_priority]
  simp only [agingUpdate, hi, ne_eq, not_true_eq_false, if_false, agingThreshold, agingStep,
    minPriority, hj]
  by_cases hlt : p.wtime + 1 > 10
  · rw [if_pos hlt]
    by_cases hpos : p.priority > 0
    · rw [if_pos hpos, if_neg (by omega)]
      dsimp only
      omega
    · rw [if_neg hpos]
      dsimp only
      omega
  · rw [if_neg hlt]
    dsimp only
    omega

theorem clockVisit_accounted {p : Proc} (ha : Accounted p) : Accounted (clockVisit true p) := by
  by_cases h : p.state = .runnable
  · obtain ⟨hw, hp⟩ := clockVisit_runnable h ha
    obtain ⟨hp0, hp1, hw0, hw1⟩ := ha
    constructor <;> omega
  · obtain ⟨hw, hp⟩ := clockVisit_of_not_runnable true h
    obtain ⟨hp0, hp1, hw0, hw1⟩ := ha
    constructor <;> omega

theorem apply_wtime_priority (cfg : Config) {a : SlotAct} (p : Proc) (hc : a ≠ .clockVisit)
    (ha : ∀ ok pid ticks, a ≠ .allocproc ok pid ticks)
    (hs : ∀ pid pr, a ≠ .setpriority pid pr) :
    (a.apply cfg p).wtime = p.wtime ∧ (a.apply cfg p).priority = p.priority := by
  cases a with
  | clockVisit => exact absurd rfl hc
  | allocproc ok pid ticks => exact absurd rfl (ha ok pid ticks)
  | setpriority pid pr => exact absurd rfl (hs pid pr)
  | wakeup chan =>
    simp only [SlotAct.apply, wakeupSlot]
    split <;> exact ⟨rfl, rfl⟩
  | dispatch =>
    simp only [SlotAct.apply]
    cases cfg.scheduler <;> exact ⟨rfl, rfl⟩
  | _ => exact ⟨rfl, rfl⟩

theorem allocproc_wtime_priority (ok : Bool) (pid : Int) (ticks : Nat) (p : Proc) :
    (allocproc ok pid ticks p).wtime = 0 ∧ (allocproc ok pid ticks p).priority = 60 := by
  cases ok <;> exact ⟨rfl, rfl⟩

theorem apply_accounted {sched : Scheduler} {a : SlotAct} {p : Proc} (he : a.Enabled p)
    (h : Accounted p) : Accounted (a.apply ⟨sched, true⟩ p) := by
  by_cases hc : a = .clockVisit
  · subst hc
    exact clockVisit_accounted h
  · by_cases ha : ∃ ok pid ticks, a = .allocproc ok pid ticks
    · obtain ⟨ok, pid, ticks, rfl⟩ := ha
      obtain ⟨hw, hp⟩ := allocproc_wtime_priority ok pid ticks p
      constructor <;> simp [SlotAct.apply, hw, hp]
    · by_cases hs : ∃ pid pr, a = .setpriority pid pr
      · obtain ⟨pid, pr, rfl⟩ := hs
        obtain ⟨-, hl, hu⟩ := he
        exact ⟨hl, hu, h.wtime_nonneg, h.wtime_le⟩
      · push Not at ha hs
        obtain ⟨hw, hp⟩ := apply_wtime_priority ⟨sched, true⟩ p hc ha hs
        obtain ⟨hp0, hp1, hw0, hw1⟩ := h
        constructor <;> omega

theorem accounted_boot (i : Nat) : Accounted (boot.proc i) :=
  boot_proc (by constructor <;> decide) (by constructor <;> decide) i

theorem accounted_of_reachable {sched : Scheduler} {es : List Event} {s : Kernel}
    (h : (kernel ⟨sched, true⟩).exec boot es = some s) (i : Nat) : Accounted (s.proc i) :=
  slot_inv (fun _ _ he ha => apply_accounted he ha) h (accounted_boot i)

/-- The ticks at which the clock interrupt found the process runnable. -/
def foundRunnable (g : Nat) (p : Proc) : SlotAct → Nat
  | .clockVisit => if p.state = .runnable then g + 1 else g
  | _ => g

/-- The slot keeps its process and nobody sets the priority of that process. -/
def Undisturbed (_ : Proc) (a : SlotAct) : Prop :=
  (∀ pid pr, a ≠ .setpriority pid pr) ∧ ∀ ok pid ticks, a ≠ .allocproc ok pid ticks

theorem foundRunnable_of_ne (g : Nat) (p : Proc) {a : SlotAct} (h : a ≠ .clockVisit) :
    foundRunnable g p a = g := by
  cases a <;> first | rfl | exact absurd rfl h

theorem closed_form_inv {sched : Scheduler} {s t : Kernel} {es : List Event} {i : Nat}
    (ha : Accounted (s.proc i)) (hrun : (kernel ⟨sched, true⟩).exec s es = some t)
    (hq : (kernel ⟨sched, true⟩).Along (OnSlot ⟨sched, true⟩ i Undisturbed) s es) :
    (t.proc i).wtime = ((s.proc i).wtime + slotWatch ⟨sched, true⟩ i foundRunnable 0 s es) % 11 ∧
    (t.proc i).priority = max 0 ((s.proc i).priority -
      ((s.proc i).wtime + slotWatch ⟨sched, true⟩ i foundRunnable 0 s es) / 11) := by
  obtain ⟨hp0, hp1, hw0, hw1⟩ := ha
  refine slotWatch_inv (I := fun p (g : Nat) =>
    p.wtime = ((s.proc i).wtime + g) % 11 ∧
    p.priority = max 0 ((s.proc i).priority - ((s.proc i).wtime + g) / 11)) ?_ hrun hq ?_
  · rintro p a g - ⟨hs, hal⟩ ⟨hw, hp⟩
    by_cases hc : a = .clockVisit
    · subst hc
      by_cases hr : p.state = .runnable
      · have hacc : Accounted p := by constructor <;> omega
        obtain ⟨hw', hp'⟩ := clockVisit_runnable hr hacc
        simp only [SlotAct.apply, foundRunnable, if_pos hr, hw', hp']
        push_cast
        omega
      · obtain ⟨hw', hp'⟩ := clockVisit_of_not_runnable true hr
        simp only [SlotAct.apply, foundRunnable, if_neg hr, hw', hp']
        exact ⟨hw, hp⟩
    · obtain ⟨hw', hp'⟩ := apply_wtime_priority ⟨sched, true⟩ p hc hal hs
      rw [foundRunnable_of_ne g p hc, hw', hp']
      exact ⟨hw, hp⟩
  · push_cast
    omega

theorem apply_priority_le {sched : Scheduler} {a : SlotAct} {p : Proc} (ha : Accounted p)
    (hq : Undisturbed p a) : (a.apply ⟨sched, true⟩ p).priority ≤ p.priority := by
  by_cases hc : a = .clockVisit
  · subst hc
    by_cases hr : p.state = .runnable
    · have hp := (clockVisit_runnable hr ha).2
      obtain ⟨hp0, hp1, hw0, hw1⟩ := ha
      simp only [SlotAct.apply]
      omega
    · exact (clockVisit_of_not_runnable true hr).2.le
  · exact (apply_wtime_priority _ p hc hq.2 hq.1).2.le

/-- After `r` ticks that found the process runnable, consecutive or not and
whatever else happened to it, its counter and its priority are determined. -/
theorem aging_closed_form (sched : Scheduler) {pre es : List Event} {s t : Kernel} {i r : Nat}
    {w₀ P₀ : Int} (hpre : (kernel ⟨sched, true⟩).exec boot pre = some s)
    (hw : (s.proc i).wtime = w₀) (hP : (s.proc i).priority = P₀)
    (hrun : (kernel ⟨sched, true⟩).exec s es = some t)
    (hq : (kernel ⟨sched, true⟩).Along (OnSlot ⟨sched, true⟩ i Undisturbed) s es)
    (hr : slotWatch ⟨sched, true⟩ i foundRunnable 0 s es = r) :
    (t.proc i).wtime = (w₀ + r) % (agingThreshold + 1) ∧
    (t.proc i).priority = max minPriority (P₀ - agingStep * ((w₀ + r) / (agingThreshold + 1))) ∧
    (t.proc i).wtime ≤ agingThreshold ∧
    ∀ e u, step ⟨sched, true⟩ t e = some u → OnSlot ⟨sched, true⟩ i Undisturbed t e →
      (u.proc i).priority ≤ (t.proc i).priority := by
  have ha := accounted_of_reachable hpre i
  have hb := accounted_of_reachable (Machine.exec_append.mpr ⟨s, hpre, hrun⟩) i
  have hh := closed_form_inv ha hrun hq
  subst hw hP hr
  refine ⟨hh.1, by simpa [minPriority, agingStep, agingThreshold] using hh.2, hb.wtime_le, ?_⟩
  intro e u he ho
  rcases step_slot he i with ⟨-, hp⟩ | ⟨a, hat, -, hp⟩
  · rw [hp]
  · rw [hp]
    exact apply_priority_le hb (ho a hat)

theorem aging_closed_form_twelve_ticks :
    (((clockintr ⟨.pbs, true⟩)^[7] ((clockintr ⟨.pbs, true⟩)^[5] boot)).proc 0).wtime = 1 ∧
    (((clockintr ⟨.pbs, true⟩)^[7] ((clockintr ⟨.pbs, true⟩)^[5] boot)).proc 0).priority = 59 := by
  have hn : (0 : Nat) < nproc := by decide
  have hp := clockintr_iterate_proc ⟨.pbs, true⟩ boot hn 5
  have hs := quiet_boot.iterate ⟨.pbs, true⟩ 5
  have hr : slotWatch ⟨.pbs, true⟩ 0 foundRunnable 0 ((clockintr ⟨.pbs, true⟩)^[5] boot)
      (tickRun 7) = 7 := by
    rw [slotWatch_tickRun hs hn, hp]
    decide +kernel
  have hw : (((clockintr ⟨.pbs, true⟩)^[5] boot).proc 0).wtime = 5 := by
    rw [hp]
    decide +kernel
  have hP : (((clockintr ⟨.pbs, true⟩)^[5] boot).proc 0).priority = 60 := by
    rw [hp]
    decide +kernel
  have hh := aging_closed_form .pbs (exec_tickRun quiet_boot 5) hw hP (exec_tickRun hs 7)
    (along_tickRun (by simp [Undisturbed]) (by simp [Undisturbed]) 0 _ 7) hr
  exact ⟨hh.1.trans (by decide), hh.2.1.trans (by decide)⟩

end Xv6
