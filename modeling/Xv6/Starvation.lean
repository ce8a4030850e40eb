import Xv6.FullWait

/-! The starvation flag. With aging the counter it reads is cleared long before
it can reach the threshold; without aging it accumulates over the whole life of
the process, whatever state the process is in. -/

namespace Xv6

/-- The consecutive ticks that found the process runnable, without a dispatch
in between. -/
def streak (g : Nat) (p : Proc) : SlotAct → Nat
  | .clockVisit => if p.state = .runnable then g + 1 else 0
  | .dispatch => 0
  | .allocproc _ _ _ => 0
  | _ => g

theorem clockVisit_starving_zero {p : Proc} (ha : Accounted p) (h : p.starving = 0) :
    (clockVisit true p).starving = 0 := by
  have hw := (clockVisit_accounted ha).wtime_le
  have hd : ∀ q : Proc, q.starving = 0 → (detectStarving q).wtime ≤ 10 →
      (detectStarving q).starving = 0 := by
    intro q hq hw
    rw [detectStarving_wtime] at hw
    rw [detectStarving, if_neg (by simp only [starvingThreshold]; omega)]
    exact hq
  unfold clockVisit at hw ⊢
  refine hd _ ?_ hw
  split
  · exact h
  · simpa [agingUpdate_starving] using h
  · exact h
  · exact h

theorem apply_starving_zero {sched : Scheduler} {a : SlotAct} {p : Proc} (ha : Accounted p)
    (h : p.starving = 0) : (a.apply ⟨sched, true⟩ p).starving = 0 := by
  cases a with
  | clockVisit => exact clockVisit_starving_zero ha h
  | wakeup chan =>
    simp only [SlotAct.apply, wakeupSlot]
    split <;> exact h
  | dispatch => cases sched <;> first | rfl | exact h
  | allocproc ok pid ticks => cases ok <;> rfl
  | _ => exact h

theorem starving_zero_of_reachable {sched : Scheduler} {es : List Event} {s : Kernel}
    (h : (kernel ⟨sched, true⟩).exec boot es = some s) (i : Nat) : (s.proc i).starving = 0 := by
  have hh : Accounted (s.proc i) ∧ (s.proc i).starving = 0 := by
    refine slot_inv (I := fun p => Accounted p ∧ p.starving = 0) ?_ h ?_
    · rintro p a he ⟨ha, hs⟩
      exact ⟨apply_accounted he ha, apply_starving_zero ha hs⟩
    · exact ⟨accounted_boot i, boot_proc (I := fun p => p.starving = 0) rfl rfl i⟩
  exact hh.2

/-- In the shipped configuration a process that has waited past the threshold
is never reported. -/
theorem starvation_undetected (sched : Scheduler) {es : List Event} {s : Kernel} {i : Nat}
    (hrun : (kernel ⟨sched, true⟩).exec boot es = some s)
    (_hwait : starvingThreshold < (slotWatch ⟨sched, true⟩ i streak 0 boot es : Nat)) :
    (s.proc i).starving ≠ 1 := by
  rw [starving_zero_of_reachable hrun i]
  decide

theorem streak_thirtyOne : slotWatch ⟨.pbs, true⟩ 0 streak 0 boot (tickRun 31) = 31 := by
  rw [slotWatch_tickRun quiet_boot (by decide)]
  decide +kernel

theorem starvation_undetected_thirtyOne :
    ((((clockintr ⟨.pbs, true⟩)^[31]) boot).proc 0).starving ≠ 1 :=
  starvation_undetected .pbs (exec_tickRun quiet_boot 31) (by rw [streak_thirtyOne]; decide)

theorem starvation_detector_incomplete :
    ¬ ∀ (sched : Scheduler) (es : List Event) (s : Kernel) (i : Nat),
      (kernel ⟨sched, true⟩).exec boot es = some s →
      starvingThreshold < (slotWatch ⟨sched, true⟩ i streak 0 boot es : Nat) →
      (s.proc i).starving = 1 := by
  intro hall
  have hrun : (kernel ⟨.pbs, true⟩).exec boot (tickRun 31) = some _ := exec_tickRun quiet_boot 31
  have hh := hall .pbs (tickRun 31) _ 0 hrun (by rw [streak_thirtyOne]; decide)
  rw [starving_zero_of_reachable hrun 0] at hh
  exact absurd hh (by decide)

/-- The ticks that found the process runnable since it was created, and whether
a tick has passed since it was last given a hart. -/
def waited (g : Nat × Bool) (p : Proc) : SlotAct → Nat × Bool
  | .clockVisit => (if p.state = .runnable then g.1 + 1 else g.1, true)
  | .dispatch => (g.1, false)
  | .allocproc _ _ _ => (0, false)
  | _ => g

structure Accumulates (p : Proc) (g : Nat × Bool) : Prop where
  wtime : p.wtime = i32 g.1
  flag : p.starving = 1 → starvingThreshold < g.1 ∧ g.2 = true

theorem detectStarving_accumulates {p : Proc} {n : Nat} (hw : p.wtime = i32 n)
    (hf : p.starving = 1 → starvingThreshold < n) :
    Accumulates (detectStarving p) (n, true) := by
  refine ⟨by simpa using hw, fun h => ⟨?_, rfl⟩⟩
  by_cases hp : p.wtime > starvingThreshold
  · have hle := i32_nat_le (n := n)
    rw [← hw] at hle
    exact lt_of_lt_of_le hp hle
  · rw [detectStarving, if_neg hp] at h
    exact hf h

theorem clockVisit_accumulates {p : Proc} {g : Nat × Bool} (h : Accumulates p g) :
    Accumulates (clockVisit false p) (waited g p .clockVisit) := by
  have hflag : p.starving = 1 → starvingThreshold < g.1 := fun hs => (h.flag hs).1
  by_cases hr : p.state = .runnable
  · simp only [clockVisit, hr, waited, if_true, Bool.false_eq_true, if_false]
    refine detectStarving_accumulates ?_ ?_
    · push_cast
      rw [h.wtime, i32_add]
    · intro hs
      have hh := hflag hs
      push_cast
      omega
  · simp only [waited, if_neg hr]
    unfold clockVisit
    refine detectStarving_accumulates ?_ ?_
    · split <;> first | contradiction | exact h.wtime
    · split <;> first | contradiction | exact hflag

theorem apply_accumulates {a : SlotAct} {p : Proc} {g : Nat × Bool} (h : Accumulates p g) :
    Accumulates (a.apply ⟨.pbs, false⟩ p) (waited g p a) := by
  cases a with
  | clockVisit => exact clockVisit_accumulates h
  | wakeup chan =>
    simp only [SlotAct.apply, wakeupSlot, waited]
    split <;> exact ⟨h.wtime, h.flag⟩
  | dispatch => exact ⟨h.wtime, fun hs => absurd hs (by simp [SlotAct.apply, dispatch])⟩
  | allocproc ok pid ticks =>
    refine ⟨(allocproc_wtime_priority ok pid ticks p).1.trans (by simp [waited, i32]),
      fun hs => absurd hs ?_⟩
    cases ok <;> simp [SlotAct.apply, allocproc, freeproc]
  | _ => exact ⟨h.wtime, h.flag⟩

/-- Without aging a flagged process has been found runnable on more ticks than
the threshold since it was created, and a tick has passed since it last got a
hart. The flag says nothing about its present state. -/
theorem starving_implies_waited {es : List Event} {s : Kernel} {i : Nat}
    (hrun : (kernel ⟨.pbs, false⟩).exec boot es = some s)
    (_hlive : (s.proc i).state ≠ .unused) (hflag : (s.proc i).starving = 1) :
    starvingThreshold < ((slotWatch ⟨.pbs, false⟩ i waited (0, false) boot es).1 : Nat) ∧
      (slotWatch ⟨.pbs, false⟩ i waited (0, false) boot es).2 = true := by
  have hh : Accumulates (s.proc i) (slotWatch ⟨.pbs, false⟩ i waited (0, false) boot es) := by
    refine slotWatch_inv (R := fun _ _ => True) ?_ hrun
      (Machine.along_of_forall (fun _ _ _ _ _ => trivial)) ?_
    · intro p a g _ _ h
      exact apply_accumulates h
    · refine boot_proc (I := fun p => Accumulates p (0, false)) ?_ ?_ i
      all_goals exact ⟨by decide, fun h => absurd h (by decide)⟩
  exact hh.flag hflag

def dispatchAndTick : List Event :=
  List.replicate 66 (.schedule 1) ++ .timer :: List.replicate 66 .clock

def flaggedRunning : List Event := tickRun 31 ++ dispatchAndTick

theorem flaggedRunning_end : ∃ s, (kernel ⟨.pbs, false⟩).exec boot flaggedRunning = some s ∧
    (s.proc 0).state = .running ∧ (s.proc 0).starving = 1 := by
  have h : ((kernel ⟨.pbs, false⟩).exec ((clockintr ⟨.pbs, false⟩)^[31] boot)
      dispatchAndTick).map (fun s => ((s.proc 0).state, (s.proc 0).starving)) =
      some (.running, 1) := by
    decide +kernel
  obtain ⟨s, hs, h⟩ := Option.map_eq_some_iff.mp h
  exact ⟨s, Machine.exec_append.mpr ⟨_, exec_tickRun quiet_boot 31, hs⟩,
    (Prod.mk.inj h).1, (Prod.mk.inj h).2⟩

theorem starving_implies_waited_running : ∃ s,
    (kernel ⟨.pbs, false⟩).exec boot flaggedRunning = some s ∧ (s.proc 0).state = .running ∧
    starvingThreshold <
      ((slotWatch ⟨.pbs, false⟩ 0 waited (0, false) boot flaggedRunning).1 : Nat) := by
  obtain ⟨s, hs, hst, hf⟩ := flaggedRunning_end
  exact ⟨s, hs, hst, (starving_implies_waited hs (by simp [hst]) hf).1⟩

/-- A process that has just been given the hart it waited for is flagged by the
next tick. -/
theorem starving_while_running : ¬ ∀ (es : List Event) (s : Kernel) (i : Nat),
      (kernel ⟨.pbs, false⟩).exec boot es = some s → (s.proc i).state ≠ .unused →
      (s.proc i).starving = 1 →
      (s.proc i).state = .runnable ∧
      starvingThreshold < (slotWatch ⟨.pbs, false⟩ i sinceDispatch 0 boot es : Nat) := by
  intro hall
  obtain ⟨s, hs, hst, hf⟩ := flaggedRunning_end
  have hh := (hall flaggedRunning s 0 hs (by simp [hst]) hf).1
  rw [hst] at hh
  exact absurd hh (by decide)

end Xv6
