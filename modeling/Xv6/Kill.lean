import Xv6.Occupancy
import Xv6.PbsOptimal

/-! The calls that look a process up by number. The loop compares `pid` in every
slot, and a free slot has number 0; `kkill(0)` therefore marks a free slot, and
`allocproc` does not clear the mark. -/

namespace Xv6

variable {cfg : Config}

/-- The loop of `kkill`, `sys_setpriority` and `sys_getpriority` over the `n`
slots from `i` on: act on the first slot of this number and return. -/
def scanPid (pid : Int) (act : Proc → Int × Proc) (proc : Nat → Proc) :
    Nat → Nat → Int × (Nat → Proc)
  | 0, _ => (-1, proc)
  | n + 1, i =>
    if (proc i).pid = pid then ((act (proc i)).1, Function.update proc i (act (proc i)).2)
    else scanPid pid act proc n (i + 1)

def kkill (pid : Int) (proc : Nat → Proc) : Int × (Nat → Proc) :=
  scanPid pid (fun p => (0, kkillSlot p)) proc nproc 0

def sysSetpriority (pid pr : Int) (proc : Nat → Proc) : Int × (Nat → Proc) :=
  if pr < minPriority ∨ pr > maxPriority then (-1, proc)
  else scanPid pid (fun p => (0, { p with priority := pr })) proc nproc 0

def sysGetpriority (pid : Int) (proc : Nat → Proc) : Int × (Nat → Proc) :=
  scanPid pid (fun p => (p.priority, p)) proc nproc 0

def IsFirst (proc : Nat → Proc) (pid : Int) (i : Nat) : Prop :=
  i < nproc ∧ (proc i).pid = pid ∧ ∀ j < i, (proc j).pid ≠ pid

theorem scanPid_of_absent {pid : Int} {act : Proc → Int × Proc} {proc : Nat → Proc} {n i : Nat}
    (h : ∀ j, i ≤ j → j < i + n → (proc j).pid ≠ pid) : scanPid pid act proc n i = (-1, proc) := by
  induction n generalizing i with
  | zero => rfl
  | succ n ih =>
    rw [scanPid, if_neg (h i le_rfl (by omega))]
    exact ih (fun j hj hjn => h j (by omega) (by omega))

theorem scanPid_of_first {pid : Int} {act : Proc → Int × Proc} {proc : Nat → Proc} {n i k : Nat}
    (hik : i ≤ k) (hk : k < i + n) (hp : (proc k).pid = pid)
    (h : ∀ j, i ≤ j → j < k → (proc j).pid ≠ pid) :
    scanPid pid act proc n i = ((act (proc k)).1, Function.update proc k (act (proc k)).2) := by
  induction n generalizing i with
  | zero => omega
  | succ n ih =>
    rw [scanPid]
    by_cases he : i = k
    · subst he
      exact if_pos hp
    · rw [if_neg (h i le_rfl (by omega))]
      exact ih (by omega) (by omega) (fun j hj hjk => h j (by omega) hjk)

theorem exists_first (proc : Nat → Proc) (pid : Int) :
    (∀ i < nproc, (proc i).pid ≠ pid) ∨ ∃ i, IsFirst proc pid i := by
  by_cases h : ∃ i, i < nproc ∧ (proc i).pid = pid
  · right
    obtain ⟨hn, hp⟩ := Nat.find_spec h
    refine ⟨Nat.find h, hn, hp, fun j hj hpj => ?_⟩
    exact Nat.find_min h hj ⟨by omega, hpj⟩
  · push Not at h
    exact .inl h

theorem IsFirst.scanPid {proc : Nat → Proc} {pid : Int} {i : Nat} (h : IsFirst proc pid i)
    (act : Proc → Int × Proc) :
    scanPid pid act proc nproc 0 = ((act (proc i)).1, Function.update proc i (act (proc i)).2) := by
  exact scanPid_of_first (Nat.zero_le i) (by rw [Nat.zero_add]; exact h.1) h.2.1
    (fun j _ hj => h.2.2 j hj)

theorem IsFirst.scanPid_of_ne {proc : Nat → Proc} {pid : Int} {i j : Nat}
    (h : IsFirst proc pid i) (act : Proc → Int × Proc) (hj : j ≠ i) :
    (Xv6.scanPid pid act proc nproc 0).2 j = proc j := by
  simp [h.scanPid act, hj]

theorem absent_scanPid {proc : Nat → Proc} {pid : Int} (h : ∀ i < nproc, (proc i).pid ≠ pid)
    (act : Proc → Int × Proc) : scanPid pid act proc nproc 0 = (-1, proc) :=
  scanPid_of_absent (fun j _ hj => h j (by omega))

def Named (proc : Nat → Proc) (pid : Int) : Prop :=
  ∃ i < nproc, (proc i).state ≠ .unused ∧ (proc i).pid = pid

/-- The three calls succeed exactly when there is a process of this number, and
touch no other slot. -/
structure ActsOnLive (proc : Nat → Proc) (pid : Int) : Prop where
  kkill : (kkill pid proc).1 ≠ -1 ↔ Named proc pid
  setpriority : ∀ pr, minPriority ≤ pr → pr ≤ maxPriority →
    ((sysSetpriority pid pr proc).1 ≠ -1 ↔ Named proc pid)
  getpriority : (sysGetpriority pid proc).1 ≠ -1 ↔ Named proc pid
  frame : ∀ i, ¬ ((proc i).state ≠ .unused ∧ (proc i).pid = pid) →
    (Xv6.kkill pid proc).2 i = proc i ∧
    (∀ pr, minPriority ≤ pr → pr ≤ maxPriority → (sysSetpriority pid pr proc).2 i = proc i) ∧
    (sysGetpriority pid proc).2 i = proc i

/-- The number is not that of free slots, or a process of number 0 comes before
every free slot. -/
def Unambiguous (proc : Nat → Proc) (pid : Int) : Prop :=
  pid ≠ 0 ∨ ∀ i < nproc, (proc i).state = .unused →
    ∃ j < i, (proc j).state ≠ .unused ∧ (proc j).pid = 0

theorem sysSetpriority_eq {pid pr : Int} {proc : Nat → Proc} (hl : minPriority ≤ pr)
    (hu : pr ≤ maxPriority) :
    sysSetpriority pid pr proc = scanPid pid (fun p => (0, { p with priority := pr })) proc nproc 0 :=
  if_neg (by omega)

theorem Unambiguous.first_live {proc : Nat → Proc} {pid : Int} {i : Nat}
    (h : Unambiguous proc pid) (hfree : ∀ i, (proc i).state = .unused → (proc i).pid = 0)
    (hi : IsFirst proc pid i) : (proc i).state ≠ .unused := by
  intro hu
  have hz : pid = 0 := hi.2.1.symm.trans (hfree i hu)
  rcases h with h | h
  · exact h hz
  · obtain ⟨j, hj, -, hpj⟩ := h i hi.1 hu
    exact hi.2.2 j hj (hpj.trans hz.symm)

theorem Unambiguous.actsOnLive {proc : Nat → Proc} {pid : Int} (h : Unambiguous proc pid)
    (hfree : ∀ i, (proc i).state = .unused → (proc i).pid = 0)
    (hrange : ∀ i, PriorityInRange (proc i)) : ActsOnLive proc pid := by
  rcases exists_first proc pid with habs | ⟨k, hk⟩
  · have hno : ¬ Named proc pid := by
      rintro ⟨i, hi, -, hpi⟩
      exact habs i hi hpi
    refine ⟨?_, fun pr hl hu => ?_, ?_, fun i _ => ⟨?_, fun pr hl hu => ?_, ?_⟩⟩
    · simp [Xv6.kkill, absent_scanPid habs, hno]
    · simp [sysSetpriority_eq hl hu, absent_scanPid habs, hno]
    · simp [sysGetpriority, absent_scanPid habs, hno]
    · rw [Xv6.kkill, absent_scanPid habs]
    · rw [sysSetpriority_eq hl hu, absent_scanPid habs]
    · rw [sysGetpriority, absent_scanPid habs]
  · have hlive := h.first_live hfree hk
    have hnamed : Named proc pid := ⟨k, hk.1, hlive, hk.2.1⟩
    have hother : ∀ i, ¬ ((proc i).state ≠ .unused ∧ (proc i).pid = pid) → i ≠ k := by
      rintro i hi rfl
      exact hi ⟨hlive, hk.2.1⟩
    refine ⟨?_, fun pr hl hu => ?_, ?_, fun i hi => ⟨?_, fun pr hl hu => ?_, ?_⟩⟩
    · simp [Xv6.kkill, hk.scanPid, hnamed]
    · simp [sysSetpriority_eq hl hu, hk.scanPid, hnamed]
    · have hr := (hrange k).1
      simp only [minPriority] at hr
      simp only [sysGetpriority, hk.scanPid, hnamed, iff_true]
      omega
    · exact hk.scanPid_of_ne _ (hother i hi)
    · rw [sysSetpriority_eq hl hu]
      exact hk.scanPid_of_ne _ (hother i hi)
    · exact hk.scanPid_of_ne _ (hother i hi)

theorem ActsOnLive.unambiguous {proc : Nat → Proc} {pid : Int} (h : ActsOnLive proc pid)
    (hfree : ∀ i, (proc i).state = .unused → (proc i).pid = 0) : Unambiguous proc pid := by
  by_contra hc
  simp only [Unambiguous, not_or, not_not, not_forall, not_exists, not_and] at hc
  obtain ⟨rfl, i, hi, hu, hbefore⟩ := hc
  rcases exists_first proc 0 with habs | ⟨k, hk⟩
  · exact habs i hi (hfree i hu)
  · have hki : k ≤ i := by
      by_contra hlt
      exact hk.2.2 i (by omega) (hfree i hu)
    have hfirst : (proc k).state = .unused := by
      by_contra hlive
      rcases hki.lt_or_eq with hlt | rfl
      · exact hbefore k hlt hlive hk.2.1
      · exact hlive hu
    -- a priority other than the one the free slot happens to hold
    have hset := (h.frame k (by simp [hfirst])).2.1
    have hboth : ∀ pr, minPriority ≤ pr → pr ≤ maxPriority → pr = (proc k).priority := by
      intro pr hl hu
      have hh := hset pr hl hu
      rw [sysSetpriority_eq hl hu, hk.scanPid] at hh
      simpa using congrArg Proc.priority hh
    have h0 := hboth 0 (by decide) (by decide)
    have h1 := hboth 1 (by decide) (by decide)
    omega

theorem free_pid_zero {es : List Event} {s : Kernel} (h : (kernel cfg).exec boot es = some s)
    (i : Nat) : (s.proc i).state = .unused → (s.proc i).pid = 0 := by
  refine slot_inv (I := fun p => p.state = .unused → p.pid = 0) ?_ h
    (boot_proc (I := fun p => p.state = .unused → p.pid = 0) (by decide) (by decide) i)
  intro p a he hp
  cases a with
  | clockVisit =>
    obtain ⟨_, _, _, _, _, _, _, hc⟩ := clockVisit_eq cfg.aging p
    simpa [SlotAct.apply, hc] using hp
  | wakeup chan =>
    simp only [SlotAct.apply, wakeupSlot]
    split
    · simp
    · exact hp
  | dispatch => simp [SlotAct.apply, dispatch_state]
  | yield | sleep _ | kexit _ => simp [SlotAct.apply, yield, sleep, kexit]
  | setkilled | setpriority _ _ => exact hp
  | allocproc ok pid ticks => cases ok <;> simp [SlotAct.apply, allocproc, freeproc]
  | start => simp [SlotAct.apply]
  | kwait => simp [SlotAct.apply, freeproc]
  | kkill pid =>
    simp only [SlotAct.apply, kkillSlot]
    split
    · simp
    · exact hp

def killedInLife (g : Bool) (_ : Proc) : SlotAct → Bool
  | .allocproc _ _ _ => false
  | .kkill _ | .setkilled => true
  | _ => g

def KillsLive (p : Proc) (a : SlotAct) : Prop :=
  ∀ pid, a = .kkill pid → pid ≠ 0 ∨ p.state ≠ .unused

structure Accountable (p : Proc) (g : Bool) : Prop where
  free : p.state = .unused → p.pid = 0 ∧ p.killed = 0
  cause : p.killed ≠ 0 → g = true

theorem apply_accountable {a : SlotAct} {p : Proc} {g : Bool} (he : a.Enabled p)
    (hturn : a.InTurn p) (hk : KillsLive p a) (h : Accountable p g) :
    Accountable (a.apply cfg p) (killedInLife g p a) := by
  obtain ⟨hfree, hcause⟩ := h
  cases a with
  | clockVisit =>
    obtain ⟨_, _, _, _, _, _, _, hc⟩ := clockVisit_eq cfg.aging p
    constructor <;> simpa [SlotAct.apply, hc, killedInLife]
  | wakeup chan =>
    simp only [SlotAct.apply, wakeupSlot]
    split
    · exact ⟨by simp, hcause⟩
    · exact ⟨hfree, hcause⟩
  | dispatch =>
    refine ⟨by simp [SlotAct.apply, dispatch_state], ?_⟩
    simp only [SlotAct.apply]
    cases cfg.scheduler <;> exact hcause
  | yield | sleep _ | kexit _ => exact ⟨by simp [SlotAct.apply, yield, sleep, kexit], hcause⟩
  | setkilled =>
    have hr : p.state = .running := hturn
    exact ⟨by simp [SlotAct.apply, setkilled, hr], by simp [killedInLife]⟩
  | allocproc ok pid ticks =>
    have hz := (hfree he).2
    cases ok <;> constructor <;> simp [SlotAct.apply, allocproc, freeproc, hz]
  | start => exact ⟨by simp [SlotAct.apply], hcause⟩
  | kwait => exact ⟨by simp [SlotAct.apply, freeproc], by simp [SlotAct.apply, freeproc]⟩
  | kkill pid =>
    have hlive : p.state ≠ .unused := by
      intro hu
      have hp : p.pid = pid := he
      rcases hk pid rfl with hz | hl
      · exact hz (hp.symm.trans (hfree hu).1)
      · exact hl hu
    refine ⟨?_, by simp [killedInLife]⟩
    simp only [SlotAct.apply, kkillSlot]
    split
    · simp
    · exact fun hu => absurd hu hlive
  | setpriority pid pr => exact ⟨hfree, hcause⟩

theorem accountable_of_run {es : List Event} {s : Kernel} {i : Nat}
    (h : (kernel cfg).exec boot es = some s)
    (hk : (kernel cfg).Along (OnSlot cfg i KillsLive) boot es) :
    Accountable (s.proc i) (slotWatch cfg i killedInLife false boot es) :=
  turnWatch_inv (fun _ _ _ he ht hr hi => apply_accountable he ht hr hi) h hk
    (boot_proc (I := fun p => Accountable p false) ⟨by decide, by decide⟩ ⟨by decide, by decide⟩ i)

theorem allocproc_killed (ok : Bool) (pid : Int) (ticks : Nat) {p : Proc} (h : p.killed = 0) :
    (allocproc ok pid ticks p).killed = 0 := by
  cases ok <;> simp [allocproc, freeproc, h]

/-- In a reachable table the calls act on processes only exactly when the number
is unambiguous, and in a run whose kills mark no free slot every mark has its
cause in the life of the process that bears it. -/
theorem pid_calls_act_on_live (cfg : Config) :
    (∀ (es : List Event) (s : Kernel) (pid : Int), (kernel cfg).exec boot es = some s →
      (ActsOnLive s.proc pid ↔ Unambiguous s.proc pid)) ∧
    ∀ (es : List Event) (s : Kernel) (i : Nat), (kernel cfg).exec boot es = some s →
      (kernel cfg).Along (OnSlot cfg i KillsLive) boot es →
      ((s.proc i).killed ≠ 0 → slotWatch cfg i killedInLife false boot es = true) ∧
      ∀ (ok : Bool) (t : Kernel), step cfg s (.allocproc i ok) = some t →
        (t.proc i).killed = 0 := by
  constructor
  · intro es s pid hrun
    exact ⟨fun h => h.unambiguous (free_pid_zero hrun),
      fun h => h.actsOnLive (free_pid_zero hrun) (priority_inRange hrun)⟩
  · intro es s i hrun hk
    have hacc := accountable_of_run hrun hk
    refine ⟨hacc.cause, fun ok t hst => ?_⟩
    rcases step_slot hst i with ⟨hn, -⟩ | ⟨a, ha, hen, hp⟩
    · obtain ⟨he, -⟩ := step_eq_some hst
      obtain ⟨pid, -, -, -, hr⟩ := allocproc_eq_some he
      exact absurd (Prod.mk.inj hr).2 (hn _)
    · cases acts_of_target ha with
      | allocproc _ _ hu =>
        rw [hp]
        exact allocproc_killed ok _ _ (hacc.free hu).2

def killChild : List Event := [.allocpid 1, .allocproc 1 true, .start 1, .kkill 1 2]

theorem pid_calls_act_on_live_killChild : ∃ s,
    (kernel ⟨.pbs, true⟩).exec boot killChild = some s ∧ ActsOnLive s.proc 2 ∧
    (s.proc 1).killed = 1 ∧ slotWatch ⟨.pbs, true⟩ 1 killedInLife false boot killChild = true := by
  have h : ((kernel ⟨.pbs, true⟩).exec boot killChild).map (fun s => (s.proc 1).killed) =
      some 1 := by decide +kernel
  obtain ⟨s, hs, hk⟩ := Option.map_eq_some_iff.mp h
  have hlive : (kernel ⟨.pbs, true⟩).Along (OnSlot ⟨.pbs, true⟩ 1 KillsLive) boot killChild := by
    refine Machine.along_of_forall (fun e he t a ha => ?_)
    simp only [killChild, List.mem_cons, List.not_mem_nil, or_false] at he
    rcases he with rfl | rfl | rfl | rfl <;> cases acts_of_target ha <;> simp [KillsLive]
  exact ⟨s, hs, ((pid_calls_act_on_live _).1 _ s 2 hs).mpr (.inl (by decide)), hk,
    ((pid_calls_act_on_live _).2 _ s 1 hs hlive).1 (by omega)⟩

/-- `kkill(0)` succeeds at boot although no process has number 0, and the child
forked into the slot it marked starts its life killed. -/
theorem kill_zero_marks_free_slot : (¬ ∀ (cfg : Config) (es : List Event) (s : Kernel) (pid : Int),
      (kernel cfg).exec boot es = some s → ActsOnLive s.proc pid) ∧
    ¬ ∀ (cfg : Config) (es : List Event) (s : Kernel) (i : Nat),
      (kernel cfg).exec boot es = some s → (s.proc i).state ≠ .unused → (s.proc i).killed ≠ 0 →
      slotWatch cfg i killedInLife false boot es = true := by
  constructor
  · intro hall
    have hrun : (kernel ⟨.pbs, true⟩).exec boot [] = some boot := rfl
    have hh := (hall _ [] boot 0 hrun).unambiguous (free_pid_zero hrun)
    rcases hh with hz | hz
    · exact hz rfl
    · obtain ⟨j, hj, -, hp⟩ := hz 1 (by decide) rfl
      obtain rfl : j = 0 := by omega
      simp [boot, allocproc] at hp
  · intro hall
    have hh := hall ⟨.pbs, true⟩ [.kkill 1 0, .allocpid 1, .allocproc 1 true] _ 1 rfl
    exact absurd (hh (by decide) (by decide)) (by decide)

end Xv6
