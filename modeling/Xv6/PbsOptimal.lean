import Xv6.Aging

/-! The PBS pass against its specification: the dynamic priority as integer
arithmetic without machine words, and the selection as a strict minimum. -/

namespace Xv6

/-- Tenths of the lifetime spent asleep, 5 for a process without a history. -/
def idealNiceness (run sleep : Nat) : Int :=
  if run + sleep = 0 then 5 else ((10 * sleep / (run + sleep) : Nat) : Int)

def clampPriority (x : Int) : Int := max 0 (min 100 x)

def idealDp (p : Proc) : Int :=
  clampPriority (p.priority - idealNiceness p.pbsRtime p.pbsStime + 5)

theorem idealNiceness_range (run sleep : Nat) :
    0 ≤ idealNiceness run sleep ∧ idealNiceness run sleep ≤ 10 := by
  unfold idealNiceness
  split
  · omega
  · have h : 10 * sleep / (run + sleep) ≤ 10 :=
      Nat.div_le_of_le_mul (by omega)
    exact ⟨Int.natCast_nonneg _, by exact_mod_cast h⟩

theorem niceness_eq {p : Proc} (h : p.pbsRtime + p.pbsStime < 2 ^ 60) :
    niceness p = idealNiceness p.pbsRtime p.pbsStime := by
  have hsum : u64 (p.pbsRtime + p.pbsStime) = p.pbsRtime + p.pbsStime := u64_eq (by omega)
  have hten : u64 (p.pbsStime * 10) = p.pbsStime * 10 := u64_eq (by omega)
  have hr := idealNiceness_range p.pbsRtime p.pbsStime
  unfold niceness
  rw [hsum, hten]
  by_cases hz : p.pbsRtime + p.pbsStime = 0
  · simp [idealNiceness, hz]
  · rw [if_pos hz]
    rw [idealNiceness, if_neg hz, Nat.mul_comm 10] at hr
    rw [i32_eq (by omega) (by omega), idealNiceness, if_neg hz, Nat.mul_comm 10]

theorem processDp_of_niceness {p : Proc} (hp : 0 ≤ p.priority ∧ p.priority ≤ 100)
    (hn : 0 ≤ niceness p ∧ niceness p ≤ 10) :
    processDp p = clampPriority (p.priority - niceness p + 5) := by
  have h1 : i32 (p.priority - niceness p) = p.priority - niceness p :=
    i32_eq (by omega) (by omega)
  have h2 : i32 (p.priority - niceness p + 5) = p.priority - niceness p + 5 :=
    i32_eq (by omega) (by omega)
  simp only [processDp, h1, h2, clampPriority]
  split <;> split <;> omega

theorem processDp_eq {p : Proc} (hp : 0 ≤ p.priority ∧ p.priority ≤ 100)
    (h : p.pbsRtime + p.pbsStime < 2 ^ 60) : processDp p = idealDp p := by
  have hn := niceness_eq h
  rw [processDp_of_niceness hp (by rw [hn]; exact idealNiceness_range _ _), hn, idealDp]

def PriorityInRange (p : Proc) : Prop := minPriority ≤ p.priority ∧ p.priority ≤ maxPriority

theorem agingUpdate_inRange {p : Proc} (h : PriorityInRange p) :
    PriorityInRange (agingUpdate p) := by
  obtain ⟨hl, hu⟩ := h
  simp only [minPriority, maxPriority] at hl hu
  have hj : i32 (p.priority - 1) = p.priority - 1 := i32_eq (by omega) (by omega)
  unfold agingUpdate PriorityInRange
  simp only [agingStep, minPriority, maxPriority, hj]
  split
  · exact ⟨hl, hu⟩
  · split
    · dsimp only
      split
      · split <;> omega
      · omega
    · exact ⟨hl, hu⟩

theorem clockVisit_inRange (aging : Bool) {p : Proc} (h : PriorityInRange p) :
    PriorityInRange (clockVisit aging p) := by
  unfold clockVisit PriorityInRange
  rw [detectStarving_priority]
  split
  · exact h
  · split
    · exact agingUpdate_inRange h
    · exact h
  · exact h
  · exact h

theorem apply_inRange {cfg : Config} {a : SlotAct} {p : Proc} (he : a.Enabled p)
    (h : PriorityInRange p) : PriorityInRange (a.apply cfg p) := by
  cases a with
  | clockVisit => exact clockVisit_inRange cfg.aging h
  | wakeup chan =>
    simp only [SlotAct.apply, wakeupSlot]
    split <;> exact h
  | dispatch =>
    simp only [SlotAct.apply]
    cases cfg.scheduler <;> exact h
  | allocproc ok pid ticks =>
    have hp := (allocproc_wtime_priority ok pid ticks p).2
    constructor <;> simp [SlotAct.apply, hp, minPriority, maxPriority]
  | setpriority pid pr => exact he.2
  | _ => exact h

theorem priority_inRange {cfg : Config} {es : List Event} {s : Kernel}
    (h : (kernel cfg).exec boot es = some s) (i : Nat) : PriorityInRange (s.proc i) :=
  slot_inv (fun _ _ he hp => apply_inRange he hp) h
    (boot_proc ⟨by decide, by decide⟩ ⟨by decide, by decide⟩ i)

/-- The order of selection: dynamic priority, creation time, number of runs, slot. -/
def pbsRank (proc : Nat → Proc) (i : Nat) : ℤ ×ₗ ℕ ×ₗ ℤ ×ₗ ℕ :=
  toLex (idealDp (proc i), toLex ((proc i).ctime, toLex ((proc i).nrun, i)))

theorem pbsRank_lt {proc : Nat → Proc} {i j : Nat} (hi : processDp (proc i) = idealDp (proc i))
    (hj : processDp (proc j) = idealDp (proc j)) :
    toLex (schedKey .pbs (proc i), i) < toLex (schedKey .pbs (proc j), j) ↔
      pbsRank proc i < pbsRank proc j := by
  simp only [schedKey, pbsRank, Prod.Lex.toLex_lt_toLex, hi, hj, EmbeddingLike.apply_eq_iff_eq,
    Prod.mk.injEq]
  tauto

theorem pbs_pass_optimal : (∀ (proc : Nat → Proc) (n : Nat),
      (∀ i < n, 0 ≤ (proc i).priority ∧ (proc i).priority ≤ 100 ∧
        (proc i).pbsRtime + (proc i).pbsStime < 2 ^ 60) →
      ((pass .pbs proc n).1 = none ↔ ∀ i < n, (proc i).state ≠ .runnable) ∧
      ∀ i, (pass .pbs proc n).1 = some i ↔ i < n ∧ (proc i).state = .runnable ∧
        ∀ j < n, (proc j).state = .runnable → j ≠ i → pbsRank proc i < pbsRank proc j) ∧
    ∀ (cfg : Config) (es : List Event) (s : Kernel), (kernel cfg).exec boot es = some s →
      ∀ i, 0 ≤ (s.proc i).priority ∧ (s.proc i).priority ≤ 100 := by
  refine ⟨?_, fun cfg es s hrun i => priority_inRange hrun i⟩
  intro proc n hr
  have hdp : ∀ i < n, processDp (proc i) = idealDp (proc i) := fun i hi =>
    processDp_eq ⟨(hr i hi).1, (hr i hi).2.1⟩ (hr i hi).2.2
  refine ⟨pass_eq_none_iff (by decide) proc n, fun i => ?_⟩
  rw [pass_eq_some_iff (by decide)]
  constructor
  · rintro ⟨hi, hrun, hmin⟩
    refine ⟨hi, hrun, fun j hj hrj hne => ?_⟩
    exact (pbsRank_lt (hdp i hi) (hdp j hj)).mp (hmin j hj hrj hne)
  · rintro ⟨hi, hrun, hmin⟩
    refine ⟨hi, hrun, fun j hj hrj hne => ?_⟩
    exact (pbsRank_lt (hdp i hi) (hdp j hj)).mpr (hmin j hj hrj hne)

def twoReady : Nat → Proc :=
  Function.update (Function.update (fun _ => procinit) 0
      { procinit with state := .runnable, priority := 60, pbsRtime := 3, pbsStime := 1 }) 2
    { procinit with state := .runnable, priority := 60, pbsRtime := 1, pbsStime := 3 }

theorem pbs_pass_optimal_two_ready :
    (pass .pbs twoReady 4).1 = some 2 ∧ pbsRank twoReady 2 < pbsRank twoReady 0 := by
  have hq : (pass .pbs twoReady 4).1 = some 2 := by decide +kernel
  have hh := (pbs_pass_optimal.1 twoReady 4 (by decide)).2 2
  exact ⟨hq, (hh.mp hq).2.2 0 (by decide) rfl (by decide)⟩

end Xv6
