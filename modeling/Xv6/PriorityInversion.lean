import Xv6.PbsOptimal
import Xv6.SchedulerPass

/-! How far PBS can invert static priorities. The history of a process moves
its dynamic priority by at most five either way, as long as `run + sleep` does
not overflow; aging then brings every waiting process to the top. -/

namespace Xv6

open List

variable {cfg : Config}

def Unwrapped (p : Proc) : Prop := p.pbsRtime + p.pbsStime < 2 ^ 64

theorem niceness_range {p : Proc} (h : Unwrapped p) : 0 ≤ niceness p ∧ niceness p ≤ 10 := by
  unfold niceness
  rw [u64_eq h]
  split
  · have hle : u64 (p.pbsStime * 10) / (p.pbsRtime + p.pbsStime) ≤ 10 := by
      refine Nat.div_le_of_le_mul ?_
      have hm : u64 (p.pbsStime * 10) ≤ p.pbsStime * 10 := Nat.mod_le _ _
      omega
    have hz := Int.natCast_nonneg (u64 (p.pbsStime * 10) / (p.pbsRtime + p.pbsStime))
    rw [i32_eq (by omega) (by omega)]
    omega
  · omega

theorem priority_le_of_processDp_le {p q : Proc} (hp : PriorityInRange p)
    (hq : PriorityInRange q) (hwp : Unwrapped p) (hwq : Unwrapped q)
    (h : processDp q ≤ processDp p) : q.priority ≤ p.priority + 10 := by
  have hnp := niceness_range hwp
  have hnq := niceness_range hwq
  rw [processDp_of_niceness hp hnp, processDp_of_niceness hq hnq, clampPriority, clampPriority] at h
  simp only [PriorityInRange, minPriority, maxPriority] at hp hq
  omega

theorem processDp_le_of_lex {p q : Proc} {i j : Nat}
    (h : toLex (schedKey .pbs q, i) < toLex (schedKey .pbs p, j)) :
    processDp q ≤ processDp p := by
  rcases Prod.Lex.toLex_lt_toLex.mp h with hlt | ⟨he, -⟩
  · rcases schedKey_pbs_lt.mp hlt with hd | ⟨hd, -⟩ | ⟨hd, -⟩
    · exact hd.le
    · exact hd.ge
    · exact hd.ge
  · simp only [schedKey, EmbeddingLike.apply_eq_iff_eq, Prod.mk.injEq] at he
    exact he.1.le

theorem pass_priority_le {aging : Bool} {pre es : List Event} {s v : Kernel} {c p q : Nat}
    {P : Int} (hpre : (kernel ⟨.pbs, aging⟩).exec boot pre = some s) (hp : p < nproc)
    (h : Pass ⟨.pbs, aging⟩ c p
      (fun x => x.state = .runnable ∧ Unwrapped x ∧ x.priority ≤ P) s v es q)
    (hq : Unwrapped (v.proc q)) : (v.proc q).priority ≤ P + 10 := by
  have hrange := priority_inRange (Machine.exec_append.mpr ⟨s, hpre, h.run⟩) q
  have hall : (kernel ⟨.pbs, aging⟩).Always (fun u => PriorityInRange (u.proc p)) s
      (.schedule c :: es) :=
    always_slot (R := fun _ _ => True) (fun _ _ he _ hr => apply_inRange he hr)
      (Machine.along_of_forall (fun _ _ _ _ _ => trivial)) (priority_inRange hpre p)
  have hpass := h.strengthen hall.2 (fun _ hx hr => And.intro hx hr)
  rcases hpass.choice_first (by simp) (candidateLocked_of_reachable hpre)
    (fun _ hx => hx.1.1) hp with ⟨rfl, ⟨-, -, hP⟩, -⟩ | ⟨x, ⟨⟨-, hw, hP⟩, hx⟩, hlt⟩
  · omega
  · have hle := priority_le_of_processDp_le hx hrange hw hq (processDp_le_of_lex hlt)
    omega

theorem priority_zero_after {sched : Scheduler} {s t : Kernel} {es : List Event} {i r : Nat}
    (ha : Accounted (s.proc i)) (hrun : (kernel ⟨sched, true⟩).exec s es = some t)
    (hq : (kernel ⟨sched, true⟩).Along (OnSlot ⟨sched, true⟩ i Undisturbed) s es)
    (hr : slotWatch ⟨sched, true⟩ i foundRunnable 0 s es = r)
    (hlong : (agingThreshold + 1) * (s.proc i).priority ≤ r) : (t.proc i).priority ≤ 0 := by
  have hp := (closed_form_inv ha hrun hq).2
  have hw := ha.wtime_nonneg
  rw [hr] at hp
  simp only [agingThreshold] at hlong
  omega

/-- Aging bounds priority inversion: a pass never prefers a process more than
ten points worse than one that stays runnable, and one that has waited for
eleven ticks per point of its priority is passed over only for the top ten. -/
theorem pbs_inversion_bounded :
    (∀ (aging : Bool) (pre es : List Event) (s v : Kernel) (c p q : Nat) (P : Int),
      (kernel ⟨.pbs, aging⟩).exec boot pre = some s → p < nproc →
      Pass ⟨.pbs, aging⟩ c p
        (fun x => x.state = .runnable ∧ Unwrapped x ∧ x.priority ≤ P) s v es q →
      Unwrapped (v.proc q) → (v.proc q).priority ≤ P + 10) ∧
    ∀ (pre es fs : List Event) (s t v : Kernel) (c p q r : Nat) (P : Int),
      (kernel ⟨.pbs, true⟩).exec boot pre = some s → p < nproc → (s.proc p).priority = P →
      (kernel ⟨.pbs, true⟩).exec s es = some t →
      slotWatch ⟨.pbs, true⟩ p foundRunnable 0 s es = r → (agingThreshold + 1) * P ≤ r →
      (kernel ⟨.pbs, true⟩).Along (OnSlot ⟨.pbs, true⟩ p Undisturbed) s (es ++ .schedule c :: fs) →
      Pass ⟨.pbs, true⟩ c p (fun x => x.state = .runnable ∧ Unwrapped x) t v fs q →
      Unwrapped (v.proc q) → (v.proc q).priority ≤ 10 := by
  refine ⟨fun aging pre es s v c p q P hpre hp h hq => pass_priority_le hpre hp h hq, ?_⟩
  intro pre es fs s t v c p q r P hpre hp hP hes hr hlong hund hpass hq
  subst hP
  have hreach := Machine.exec_append.mpr ⟨s, hpre, hes⟩
  obtain ⟨hbefore, hafter⟩ := Machine.along_append_iff.mp hund
  have hzero := priority_zero_after (accounted_of_reachable hpre p) hes hbefore hr hlong
  have hstay := always_slot (I := fun x => Accounted x ∧ x.priority ≤ 0)
    (fun x a he hu hx => ⟨apply_accounted he hx.1, (apply_priority_le hx.1 hu).trans hx.2⟩)
    (hafter t hes) ⟨accounted_of_reachable hreach p, hzero⟩
  have hh := pass_priority_le hreach hp
    (hpass.strengthen (ψ := fun x => Accounted x ∧ x.priority ≤ 0) hstay.2
      (fun x hx hy => ⟨hx.1, hx.2, hy.2⟩)) hq
  omega

/-- A second process is made; the two are given the priorities 0 and 1. -/
def favouring : List Event :=
  [.allocpid 1, .allocproc 1 true, .start 1, .setpriority 0 1 0, .setpriority 1 2 1]

def favoured : Kernel := ((kernel ⟨.pbs, true⟩).exec boot favouring).getD boot

theorem exec_favoured : (kernel ⟨.pbs, true⟩).exec boot favouring = some favoured := rfl

theorem quiet_favoured : Quiet favoured := ⟨rfl, fun _ => rfl, rfl⟩

theorem pbs_inversion_bounded_eleven_ticks :
    ((clockintr ⟨.pbs, true⟩)^[11] favoured).cpu 1 = .idle ∧
    (((clockintr ⟨.pbs, true⟩)^[11] favoured).proc 1).state = .runnable ∧
    (pass .pbs ((clockintr ⟨.pbs, true⟩)^[11] favoured).proc nproc).1 = some 0 ∧
    (((clockintr ⟨.pbs, true⟩)^[11] favoured).proc 0).priority ≤ 10 := by
  have hn : (1 : Nat) < nproc := by decide
  have hp := clockintr_iterate_proc ⟨.pbs, true⟩ favoured hn 11
  have hp0 := clockintr_iterate_proc ⟨.pbs, true⟩ favoured (i := 0) (by decide) 11
  have hcpu : ((clockintr ⟨.pbs, true⟩)^[11] favoured).cpu 1 = .idle := by
    rw [clockintr_iterate_cpu]; rfl
  have hr : slotWatch ⟨.pbs, true⟩ 1 foundRunnable 0 favoured (tickRun 11) = 11 := by
    rw [slotWatch_tickRun quiet_favoured hn]
    decide +kernel
  have hs : (((clockintr ⟨.pbs, true⟩)^[11] favoured).proc 1).state = .runnable := by
    rw [hp]
    decide +kernel
  have hq : (pass .pbs ((clockintr ⟨.pbs, true⟩)^[11] favoured).proc nproc).1 = some 0 := by
    decide +kernel
  have hw : Unwrapped (((clockintr ⟨.pbs, true⟩)^[11] favoured).proc 1) := by
    unfold Unwrapped
    rw [hp]
    decide +kernel
  have hw0 : Unwrapped (((clockintr ⟨.pbs, true⟩)^[11] favoured).proc 0) := by
    unfold Unwrapped
    rw [hp0]
    decide +kernel
  have hquiet := quiet_favoured.iterate ⟨.pbs, true⟩ 11
  have hpass : Pass ⟨.pbs, true⟩ 1 1 (fun x => x.state = .runnable ∧ Unwrapped x) _ _ _ 0 :=
    pass_scanned (by simp) (by simp [Control.free, ncpu]) hcpu hquiet.lock ⟨hs, hw⟩ hq
  have hund : (kernel ⟨.pbs, true⟩).Along (OnSlot ⟨.pbs, true⟩ 1 Undisturbed) favoured
      (tickRun 11 ++ .schedule 1 :: replicate nproc (.schedule 1)) := by
    refine Machine.along_append_iff.mpr ⟨along_tickRun (by simp [Undisturbed])
      (by simp [Undisturbed]) 1 _ 11, fun t _ => Machine.along_of_forall (fun e he u a ha => ?_)⟩
    obtain rfl : e = .schedule 1 := by
      rcases mem_cons.mp he with he | he
      · exact he
      · exact eq_of_mem_replicate he
    cases acts_of_target ha
    simp [Undisturbed]
  have hh := pbs_inversion_bounded.2 _ _ _ _ _ _ 1 1 0 11 1 exec_favoured hn rfl
    (exec_tickRun quiet_favoured 11) hr (by decide) hund hpass
  rw [scanned_proc] at hh
  exact ⟨hcpu, hs, hq, hh hw0⟩

def worn (n : Nat) : Kernel :=
  { boot with
    cpu := Function.update boot.cpu 1 (.run 0)
    ticks := u32 n
    proc := Function.update boot.proc 0
      { dispatch .pbs (boot.proc 0) with rtime := i32 n, pbsRtime := u64 n } }

theorem quiet_worn (n : Nat) : Quiet (worn n) := ⟨rfl, fun _ => rfl, rfl⟩

theorem tickSlot_worn (n : Nat) : tickSlot true ((worn n).proc 0) = (worn (n + 1)).proc 0 := by
  simp [worn, tickSlot, wakeupSlot, clockVisit, detectStarving, dispatch, boot, allocproc,
    starvingThreshold, i32_add, u64_add]

theorem worn_proc_ne (n : Nat) {i : Nat} (h : i ≠ 0) : (worn n).proc i = procinit := by
  simp [worn, boot_proc_ne h, h]

theorem clockintr_worn (n : Nat) : clockintr ⟨.pbs, true⟩ (worn n) = worn (n + 1) := by
  have hp : (fun i => if i < nproc then tickSlot true ((worn n).proc i) else (worn n).proc i) =
      (worn (n + 1)).proc := by
    funext i
    by_cases hi : i = 0
    · subst hi
      rw [if_pos (by decide), tickSlot_worn]
    · rw [worn_proc_ne n hi, worn_proc_ne (n + 1) hi]
      split
      · decide
      · rfl
  have ht : u32 ((worn n).ticks + 1) = (worn (n + 1)).ticks := u32_add n 1
  simp only [clockintr, hp, ht]
  rfl

theorem iterate_worn (n : Nat) : (clockintr ⟨.pbs, true⟩)^[n] (worn 0) = worn n := by
  induction n with
  | zero => rfl
  | succ n ih => rw [Function.iterate_succ_apply', ih, clockintr_worn]

theorem passed_boot : passed ⟨.pbs, true⟩ boot 1 = worn 0 := by
  have hq : (pass .pbs boot.proc nproc).1 = some 0 := by decide +kernel
  have hd : ({ dispatch .pbs (boot.proc 0) with rtime := i32 (0 : Nat), pbsRtime := u64 0 } : Proc) =
      dispatch .pbs (boot.proc 0) := by decide
  simp only [passed, hq, worn, hd]
  rfl

/-- The first process forks, demands priority 49 for its child, sleeps for two
ticks and is woken. -/
def nap : List Event :=
  [.allocpid 1, .allocproc 1 true, .start 1, .setpriority 1 2 49, .sleep 1 (.addr 0)] ++
    (tickRun 2 ++ [.wakeup 0 (.addr 0)])

theorem exec_worn : (kernel ⟨.pbs, true⟩).exec boot (passEvents 1 ++ tickRun (2 ^ 64 - 1)) =
    some (worn (2 ^ 64 - 1)) := by
  refine Machine.exec_append.mpr ⟨_, exec_pass (by decide) rfl rfl (fun _ => rfl), ?_⟩
  rw [passed_boot, exec_tickRun (quiet_worn 0), iterate_worn]

theorem nap_no_schedule : ∀ e ∈ nap, ∀ c, e ≠ .schedule c := by
  intro e he c hc
  subst hc
  rcases mem_append.mp he with he | he
  · simp at he
  · rcases mem_append.mp he with he | he
    · simpa using mem_tickRun he
    · simp at he

/-- After `2^64 - 1` ticks of running and two of sleep the sum is one, the
niceness twenty, and the process at 60 is preferred to the one at 49. -/
theorem pbs_inversion_unbounded :
    ¬ ∀ (aging : Bool) (pre es : List Event) (s v : Kernel) (c p q : Nat) (P : Int),
      (kernel ⟨.pbs, aging⟩).exec boot pre = some s → p < nproc →
      Pass ⟨.pbs, aging⟩ c p (fun x => x.state = .runnable ∧ x.priority ≤ P) s v es q →
      (v.proc q).priority ≤ P + 10 := by
  intro hall
  have h : ((kernel ⟨.pbs, true⟩).exec (worn (2 ^ 64 - 1)) nap).map (fun s =>
      (s.cpu 1, (s.proc 1).state, (s.proc 1).priority, (s.proc 0).priority,
        (pass .pbs s.proc nproc).1)) =
      some (.idle, .runnable, 49, 60, some 0) := by decide +kernel
  obtain ⟨s, hs, h⟩ := Option.map_eq_some_iff.mp h
  simp only [Prod.mk.injEq] at h
  obtain ⟨hcpu, hrun, hp1, hp0, hq⟩ := h
  have hlock : ∀ i, s.lock i = none := by
    rw [lock_of_no_schedule hs nap_no_schedule]
    exact (quiet_worn _).lock
  have hpass : Pass ⟨.pbs, true⟩ 1 1 (fun x => x.state = .runnable ∧ x.priority ≤ 49) _ _ _ 0 :=
    pass_scanned (by simp) (by simp [Control.free, ncpu]) hcpu hlock ⟨hrun, hp1.le⟩ hq
  have hh := hall true _ _ s _ 1 1 0 49 (Machine.exec_append.mpr ⟨_, exec_worn, hs⟩)
    (by decide) hpass
  rw [scanned_proc, hp0] at hh
  exact absurd hh (by decide)

end Xv6
