import Xv6.ScanLock

/-! A hart that scans the table while nothing else runs selects what `pass`
selects and ends with every lock released. -/

namespace Xv6

variable {cfg : Config}

def scanned (cfg : Config) (s : Kernel) (c k : Nat) : Kernel :=
  { s with
    cpu := Function.update s.cpu c
      (.scan k (pass cfg.scheduler s.proc k).1 (pass cfg.scheduler s.proc k).2)
    lock := fun j => if (pass cfg.scheduler s.proc k).1 = some j then some c else none }

def passed (cfg : Config) (s : Kernel) (c : Nat) : Kernel :=
  match (pass cfg.scheduler s.proc nproc).1 with
  | none => { s with cpu := Function.update s.cpu c .idle }
  | some i =>
    { s with
      cpu := Function.update s.cpu c (.run i)
      proc := Function.update s.proc i (dispatch cfg.scheduler (s.proc i)) }

theorem pass_succ (sched : Scheduler) (proc : Nat → Proc) (k : Nat) :
    pass sched proc (k + 1) = visit sched proc (pass sched proc k) k := by
  simp [pass, List.range_succ, List.foldl_append]

theorem step_schedule {s : Kernel} {c : Nat} (hf : s.free c = true) :
    step cfg s (.schedule c) = (scheduleStep cfg s c).map
      (fun r => { toControl := r.1, proc := actOn cfg s.proc r.2 }) := by
  simp [step, effect, hf]

theorem scheduleStep_visit (hs : cfg.scheduler ≠ .rr) {s : Kernel} {c k : Nat} {best : Option Nat}
    {dp : Int} (hc : s.cpu c = .scan k best dp) (hk : k < nproc) (hl : s.lock k = none) :
    scheduleStep cfg s c = some
      ({ s.setCpu c (.scan (k + 1) (visit cfg.scheduler s.proc (best, dp) k).1
          (visit cfg.scheduler s.proc (best, dp) k).2) with
          lock := relock c best (visit cfg.scheduler s.proc (best, dp) k).1 s.lock }, none) := by
  cases hsc : cfg.scheduler with
  | rr => exact absurd hsc hs
  | fcfs | pbs => simp [scheduleStep, hc, Nat.not_le.mpr hk, hl, hsc]

theorem scheduleStep_none {s : Kernel} {c k : Nat} {dp : Int}
    (hc : s.cpu c = .scan k none dp) (hk : nproc ≤ k) :
    scheduleStep cfg s c = some (s.setCpu c .idle, none) := by
  simp [scheduleStep, hc, hk]

theorem scheduleStep_some {s : Kernel} {c k i : Nat} {dp : Int}
    (hc : s.cpu c = .scan k (some i) dp) (hk : nproc ≤ k) :
    scheduleStep cfg s c = some ({ s.setCpu c (.run i) with lock := Function.update s.lock i none },
        some (i, .dispatch)) := by
  simp [scheduleStep, hc, hk]

theorem scanned_proc (cfg : Config) (s : Kernel) (c k : Nat) :
    (scanned cfg s c k).proc = s.proc := rfl

theorem scanned_cpu (cfg : Config) (s : Kernel) (c k : Nat) : (scanned cfg s c k).cpu c =
      .scan k (pass cfg.scheduler s.proc k).1 (pass cfg.scheduler s.proc k).2 := by
  simp [scanned]

theorem scanned_lock (hs : cfg.scheduler ≠ .rr) (s : Kernel) (c k : Nat) :
    (scanned cfg s c k).lock k = none := by
  refine if_neg (fun hp => ?_)
  exact absurd ((pass_eq_some_iff hs s.proc k k).mp hp).1 (lt_irrefl k)

theorem scanned_relock (cfg : Config) (s : Kernel) (c k : Nat) :
    relock c (pass cfg.scheduler s.proc k).1 (pass cfg.scheduler s.proc (k + 1)).1
      (scanned cfg s c k).lock = (scanned cfg s c (k + 1)).lock := by
  funext j
  simp only [relock, scanned]
  split
  · rfl
  · split <;> rfl

theorem step_scanned (hs : cfg.scheduler ≠ .rr) {s : Kernel} {c k : Nat}
    (hf : s.free c = true) (hk : k < nproc) :
    step cfg (scanned cfg s c k) (.schedule c) = some (scanned cfg s c (k + 1)) := by
  have hfree : (scanned cfg s c k).free c = true := hf
  have hp : visit cfg.scheduler (scanned cfg s c k).proc
      ((pass cfg.scheduler s.proc k).1, (pass cfg.scheduler s.proc k).2) k =
      pass cfg.scheduler s.proc (k + 1) := (pass_succ cfg.scheduler s.proc k).symm
  rw [step_schedule hfree, scheduleStep_visit hs (scanned_cpu cfg s c k) hk
    (scanned_lock hs s c k), hp, scanned_relock]
  simp [actOn, Control.setCpu, scanned]

theorem exec_visits (hs : cfg.scheduler ≠ .rr) {s : Kernel} {c : Nat} (hf : s.free c = true)
    {n k : Nat} (hn : k + n = nproc) :
    (kernel cfg).exec (scanned cfg s c k) (List.replicate n (.schedule c)) =
      some (scanned cfg s c nproc) := by
  induction n generalizing k with
  | zero =>
    obtain rfl : k = nproc := hn
    rfl
  | succ n ih =>
    rw [List.replicate_succ, Machine.exec_cons]
    exact ⟨_, step_scanned hs hf (by omega), ih (by omega)⟩

theorem step_begin {s : Kernel} {c : Nat} (hf : s.free c = true) (hi : s.cpu c = .idle)
    (hl : ∀ i, s.lock i = none) :
    step cfg s (.schedule c) = some (scanned cfg s c 0) := by
  have hlock : s.lock = fun _ => none := funext hl
  simp [step, effect, hf, scheduleStep, hi, Control.setCpu, actOn, scanned, pass, hlock]

theorem always_scanned (hs : cfg.scheduler ≠ .rr) {s : Kernel} {c p : Nat} {φ : Proc → Prop}
    (hf : s.free c = true) (hφ : φ (s.proc p)) {n k : Nat} (hn : k + n = nproc) :
    (kernel cfg).Always (fun u => Scanning u c ∧ φ (u.proc p)) (scanned cfg s c k)
      (List.replicate n (.schedule c)) := by
  have hk : Scanning (scanned cfg s c k) c ∧ φ ((scanned cfg s c k).proc p) :=
    ⟨⟨_, _, _, scanned_cpu cfg s c k⟩, hφ⟩
  induction n generalizing k with
  | zero => exact hk
  | succ n ih =>
    refine ⟨hk, fun t ht => ?_⟩
    obtain rfl : scanned cfg s c (k + 1) = t :=
      Option.some.inj ((step_scanned hs hf (by omega)).symm.trans ht)
    exact ih (by omega) ⟨⟨_, _, _, scanned_cpu cfg s c (k + 1)⟩, hφ⟩

theorem pass_scanned (hs : cfg.scheduler ≠ .rr) {s : Kernel} {c p q : Nat} {φ : Proc → Prop}
    (hf : s.free c = true) (hi : s.cpu c = .idle) (hl : ∀ i, s.lock i = none)
    (hφ : φ (s.proc p)) (hq : (pass cfg.scheduler s.proc nproc).1 = some q) :
    Pass cfg c p φ s (scanned cfg s c nproc) (List.replicate nproc (.schedule c)) q where
  top := hi
  run := Machine.exec_cons.mpr ⟨_, step_begin hf hi hl, exec_visits hs hf (by omega)⟩
  during := by
    intro u hu
    obtain rfl : scanned cfg s c 0 = u :=
      Option.some.inj ((step_begin hf hi hl).symm.trans hu)
    exact always_scanned hs hf hφ (by omega)
  choice := ⟨_, by rw [scanned_cpu, hq]⟩

def passEvents (c : Nat) : List Event :=
  .schedule c :: (List.replicate nproc (.schedule c) ++ [.schedule c])

theorem passed_lock (cfg : Config) (s : Kernel) (c : Nat) : (passed cfg s c).lock = s.lock := by
  unfold passed
  split <;> rfl

theorem exec_pass (hs : cfg.scheduler ≠ .rr) {s : Kernel} {c : Nat} (hf : s.free c = true)
    (hi : s.cpu c = .idle) (hl : ∀ i, s.lock i = none) :
    (kernel cfg).exec s (passEvents c) = some (passed cfg s c) := by
  have hlock : s.lock = fun _ => none := funext hl
  refine Machine.exec_cons.mpr ⟨_, step_begin hf hi hl, Machine.exec_append.mpr
    ⟨_, exec_visits hs hf (by omega), Machine.exec_singleton.mpr ?_⟩⟩
  have hfree : (scanned cfg s c nproc).free c = true := hf
  have hcpu := scanned_cpu cfg s c nproc
  change step cfg _ _ = _
  rw [step_schedule hfree]
  cases hp : (pass cfg.scheduler s.proc nproc).1 with
  | none =>
    rw [hp] at hcpu
    rw [scheduleStep_none hcpu le_rfl]
    simp [passed, scanned, hp, Control.setCpu, actOn, hlock]
  | some i =>
    have hu : Function.update (fun j => if i = j then some c else none) i none = s.lock := by
      funext j
      by_cases hj : j = i
      · simp [hj, hl]
      · simp [Function.update_of_ne hj, hl, Ne.symm hj]
    rw [hp] at hcpu
    rw [scheduleStep_some hcpu le_rfl]
    simp [passed, scanned, hp, Control.setCpu, actOn, hu, SlotAct.apply]

end Xv6
