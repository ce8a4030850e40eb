import Xv6.SlotHistory

/-! The timer interrupt when nothing else runs: its steps, one slot at a time,
add up to the function `clockintr`. -/

namespace Xv6

open Function List

variable {cfg : Config} {γ : Type*}

def tickSlot (aging : Bool) (p : Proc) : Proc := clockVisit aging (wakeupSlot .ticks p)

def clockintr (cfg : Config) (s : Kernel) : Kernel :=
  { s with
    ticks := u32 (s.ticks + 1)
    proc := fun i => if i < nproc then tickSlot cfg.aging (s.proc i) else s.proc i }

def tickEvents : List Event :=
  .timer :: (List.replicate (nproc + 1) .clock ++ List.replicate (nproc + 1) .clock)

/-- The state in which a loop of the handler has treated the slots from `k` to `k + n`. -/
def swept (f : Proc → Proc) (k n : Nat) (s : Kernel) (clk : Clock) : Kernel :=
  { s with
    clock := clk
    proc := fun i => if k ≤ i ∧ i < k + n then f (s.proc i) else s.proc i }

theorem swept_zero (f : Proc → Proc) (k : Nat) (s : Kernel) (clk : Clock) :
    swept f k 0 s clk = { s with clock := clk } := by
  have hp : (fun i => if k ≤ i ∧ i < k + 0 then f (s.proc i) else s.proc i) = s.proc := by
    funext i
    exact if_neg (by omega)
  simp only [swept, hp]

theorem swept_succ (f : Proc → Proc) (k n : Nat) (s : Kernel) (clk clk' : Clock) : swept f (k + 1) n
      { s with clock := clk', proc := update s.proc k (f (s.proc k)) } clk =
    swept f k (n + 1) s clk := by
  have hp : (fun i => if k + 1 ≤ i ∧ i < k + 1 + n then
        f (update s.proc k (f (s.proc k)) i)
      else update s.proc k (f (s.proc k)) i) =
      fun i => if k ≤ i ∧ i < k + (n + 1) then f (s.proc i) else s.proc i := by
    funext i
    by_cases hi : i = k
    · subst hi
      rw [if_neg (by omega), if_pos (by omega), update_self]
    · rw [update_of_ne hi]
      by_cases hr : k + 1 ≤ i ∧ i < k + 1 + n
      · rw [if_pos hr, if_pos (by omega)]
      · rw [if_neg hr, if_neg (by omega)]
  simp only [swept, hp]

/-- A loop of the handler that takes action `a` on one slot after the other. -/
structure Sweeps (cfg : Config) (pc : Nat → Clock) (a : SlotAct) (clk : Clock) : Prop where
  visit : ∀ (s : Kernel) k, k < nproc → s.clock = pc k → s.lock k = none →
    effect cfg s .clock = some ({ s.toControl with clock := pc (k + 1) }, some (k, a))
  done : ∀ s : Kernel, s.clock = pc nproc →
    effect cfg s .clock = some ({ s.toControl with clock := clk }, none)

theorem sweeps_waking (cfg : Config) : Sweeps cfg .waking (.wakeup .ticks) (.walking 0) := by
  constructor
  · intro s k hk hc hl
    simp [effect, clockStep, hc, hl, Nat.not_le.mpr hk]
  · intro s hc
    simp [effect, clockStep, hc]

theorem sweeps_walking (cfg : Config) : Sweeps cfg .walking .clockVisit .off := by
  constructor
  · intro s k hk hc hl
    simp [effect, clockStep, hc, hl, Nat.not_le.mpr hk]
  · intro s hc
    simp [effect, clockStep, hc]

variable {pc : Nat → Clock} {a : SlotAct} {clk : Clock}

theorem Sweeps.step_visit (h : Sweeps cfg pc a clk) {s : Kernel} {k : Nat} (hk : k < nproc)
    (hc : s.clock = pc k) (hl : s.lock k = none) :
    step cfg s .clock = some
      { s with clock := pc (k + 1), proc := update s.proc k (a.apply cfg (s.proc k)) } := by
  simp [step, h.visit s k hk hc hl, actOn]

theorem Sweeps.step_done (h : Sweeps cfg pc a clk) {s : Kernel} (hc : s.clock = pc nproc) :
    step cfg s .clock = some { s with clock := clk } := by
  simp [step, h.done s hc, actOn]

theorem Sweeps.exec (h : Sweeps cfg pc a clk) {n k : Nat} (hn : k + n = nproc) {s : Kernel}
    (hc : s.clock = pc k) (hl : ∀ i, s.lock i = none) :
    (kernel cfg).exec s (List.replicate (n + 1) .clock) = some (swept (a.apply cfg) k n s clk) := by
  induction n generalizing k s with
  | zero =>
    obtain rfl : k = nproc := hn
    rw [swept_zero]
    exact Machine.exec_singleton.mpr (h.step_done hc)
  | succ n ih =>
    rw [replicate_succ, Machine.exec_cons]
    refine ⟨_, h.step_visit (by omega) hc (hl k), ?_⟩
    have hh := ih (k := k + 1) (s := { s with
      clock := pc (k + 1), proc := update s.proc k (a.apply cfg (s.proc k)) })
      (by omega) rfl hl
    rw [hh, swept_succ]

theorem Sweeps.slotWatch (h : Sweeps cfg pc a clk) (upd : γ → Proc → SlotAct → γ) {i n k : Nat}
    (hn : k + n = nproc) {s : Kernel} (hc : s.clock = pc k) (hl : ∀ i, s.lock i = none) (g : γ) :
    slotWatch cfg i upd g s (List.replicate (n + 1) .clock) =
      if k ≤ i ∧ i < nproc then upd g (s.proc i) a else g := by
  induction n generalizing k s g with
  | zero =>
    obtain rfl : k = nproc := hn
    have ht : target cfg s .clock = none := by simp [target, h.done s hc]
    rw [Xv6.slotWatch, replicate_one, Machine.watch_cons (h.step_done hc), if_neg (by omega)]
    exact slotUpd_of_not_target (by simp [ht])
  | succ n ih =>
    have ht : target cfg s .clock = some (k, a) := by
      simp [target, h.visit s k (by omega) hc (hl k)]
    rw [replicate_succ, Xv6.slotWatch, Machine.watch_cons (h.step_visit (by omega) hc (hl k))]
    refine (ih (k := k + 1) (s := { s with
      clock := pc (k + 1), proc := update s.proc k (a.apply cfg (s.proc k)) })
      (by omega) rfl hl _).trans ?_
    by_cases hi : i = k
    · subst hi
      rw [if_neg (by omega), if_pos (by omega), slotUpd_of_target ht]
    · rw [slotUpd_of_not_target (by simp [ht, Ne.symm hi])]
      dsimp only
      rw [update_of_ne hi]
      by_cases hr : k + 1 ≤ i ∧ i < nproc
      · rw [if_pos hr, if_pos (by omega)]
      · rw [if_neg hr, if_neg (by omega)]

/-- A kernel in which no hart keeps a lock and hart 0 can be interrupted. -/
structure Quiet (s : Kernel) : Prop where
  clock : s.clock = .off
  lock : ∀ i, s.lock i = none
  cpu : (s.cpu 0).interruptible = true

theorem Quiet.clockintr (cfg : Config) {s : Kernel} (h : Quiet s) : Quiet (clockintr cfg s) :=
  ⟨h.clock, h.lock, h.cpu⟩

def ringing (s : Kernel) : Kernel := { s with ticks := u32 (s.ticks + 1), clock := .waking 0 }

theorem Quiet.step_timer {s : Kernel} (h : Quiet s) : step cfg s .timer = some (ringing s) := by
  simp [step, effect, h.clock, h.cpu, actOn, ringing]

theorem Quiet.exec_waking {s : Kernel} (h : Quiet s) :
    (kernel cfg).exec (ringing s) (List.replicate (nproc + 1) .clock) =
      some (swept (wakeupSlot .ticks) 0 nproc (ringing s) (.walking 0)) :=
  (sweeps_waking cfg).exec (k := 0) (n := nproc) (by omega) rfl h.lock

theorem exec_tick {s : Kernel} (h : Quiet s) :
    (kernel cfg).exec s tickEvents = some (clockintr cfg s) := by
  refine Machine.exec_cons.mpr ⟨_, h.step_timer, Machine.exec_append.mpr ⟨_, h.exec_waking, ?_⟩⟩
  refine ((sweeps_walking cfg).exec (k := 0) (n := nproc) (by omega) rfl ?_).trans ?_
  · exact h.lock
  · have hp : (fun i => if 0 ≤ i ∧ i < 0 + nproc then
          clockVisit cfg.aging
            (if 0 ≤ i ∧ i < 0 + nproc then wakeupSlot .ticks (s.proc i) else s.proc i)
        else if 0 ≤ i ∧ i < 0 + nproc then wakeupSlot .ticks (s.proc i) else s.proc i) =
        fun i => if i < nproc then tickSlot cfg.aging (s.proc i) else s.proc i := by
      funext i
      by_cases hi : i < nproc
      · simp [hi, tickSlot]
      · simp [hi]
    simp only [swept, ringing, SlotAct.apply, clockintr, hp, h.clock]

theorem slotWatch_tick {s : Kernel} (h : Quiet s) {upd : γ → Proc → SlotAct → γ} {i : Nat}
    (hi : i < nproc) (g : γ) :
    slotWatch cfg i upd g s tickEvents =
      upd (upd g (s.proc i) (.wakeup .ticks)) (wakeupSlot .ticks (s.proc i)) .clockVisit := by
  have hg : slotUpd cfg i upd g s .timer = g :=
    slotUpd_of_not_target (by simp [target, effect, h.clock, h.cpu])
  rw [slotWatch, tickEvents, Machine.watch_cons h.step_timer, hg,
    Machine.watch_append h.exec_waking]
  have h1 := (sweeps_waking cfg).slotWatch upd (i := i) (k := 0) (n := nproc)
    (s := ringing s) (by omega) rfl h.lock g
  rw [if_pos (by omega), slotWatch] at h1
  rw [h1]
  refine ((sweeps_walking cfg).slotWatch upd (k := 0) (n := nproc) (by omega) rfl ?_ _).trans ?_
  · exact h.lock
  · rw [if_pos (by omega)]
    simp [swept, ringing, hi]

def tickRun (n : Nat) : List Event := (List.replicate n tickEvents).flatten

theorem tickRun_succ (n : Nat) : tickRun (n + 1) = tickEvents ++ tickRun n := by
  simp [tickRun, replicate_succ]

theorem mem_tickRun {n : Nat} {e : Event} (h : e ∈ tickRun n) : e = .timer ∨ e = .clock := by
  obtain ⟨l, hl, he⟩ := mem_flatten.mp h
  obtain rfl := eq_of_mem_replicate hl
  rcases mem_cons.mp he with he | he
  · exact .inl he
  · rcases mem_append.mp he with he | he <;> exact .inr (eq_of_mem_replicate he)

theorem target_tick {s : Kernel} {e : Event} (he : e = .timer ∨ e = .clock) {i : Nat}
    {a : SlotAct} (h : target cfg s e = some (i, a)) : a = .wakeup .ticks ∨ a = .clockVisit := by
  rcases he with rfl | rfl
  · cases acts_of_target h
  · cases acts_of_target h with
    | tick => exact .inl rfl
    | clockVisit => exact .inr rfl

theorem along_tickRun {R : Proc → SlotAct → Prop} (hw : ∀ p, R p (.wakeup .ticks))
    (hc : ∀ p, R p .clockVisit) (i : Nat) (s : Kernel) (n : Nat) :
    (kernel cfg).Along (OnSlot cfg i R) s (tickRun n) := by
  refine Machine.along_of_forall (fun e he t a ha => ?_)
  rcases target_tick (mem_tickRun he) ha with rfl | rfl
  · exact hw _
  · exact hc _

theorem quiet_boot : Quiet boot := ⟨rfl, fun _ => rfl, rfl⟩

theorem exec_tickRun {s : Kernel} (h : Quiet s) (n : Nat) :
    (kernel cfg).exec s (tickRun n) = some ((clockintr cfg)^[n] s) := by
  induction n generalizing s with
  | zero => rfl
  | succ n ih =>
    rw [tickRun_succ, Machine.exec_append]
    exact ⟨_, exec_tick h, ih (h.clockintr cfg)⟩

theorem Quiet.iterate (cfg : Config) {s : Kernel} (h : Quiet s) (n : Nat) :
    Quiet ((Xv6.clockintr cfg)^[n] s) := by
  induction n generalizing s with
  | zero => exact h
  | succ n ih => exact ih (h.clockintr cfg)

theorem clockintr_iterate_proc (cfg : Config) (s : Kernel) {i : Nat} (hi : i < nproc) (n : Nat) :
    ((clockintr cfg)^[n] s).proc i = (tickSlot cfg.aging)^[n] (s.proc i) := by
  induction n generalizing s with
  | zero => rfl
  | succ n ih =>
    rw [iterate_succ_apply, iterate_succ_apply, ih]
    simp [clockintr, hi]

theorem clockintr_iterate_cpu (s : Kernel) (n : Nat) : ((clockintr cfg)^[n] s).cpu = s.cpu := by
  induction n generalizing s with
  | zero => rfl
  | succ n ih => exact ih (clockintr cfg s)

def tickHist (aging : Bool) (upd : γ → Proc → SlotAct → γ) (x : γ × Proc) : γ × Proc :=
  (upd (upd x.1 x.2 (.wakeup .ticks)) (wakeupSlot .ticks x.2) .clockVisit, tickSlot aging x.2)

theorem slotWatch_tickRun {s : Kernel} (h : Quiet s) {upd : γ → Proc → SlotAct → γ} {i : Nat}
    (hi : i < nproc) (g : γ) (n : Nat) :
    slotWatch cfg i upd g s (tickRun n) = ((tickHist cfg.aging upd)^[n] (g, s.proc i)).1 := by
  induction n generalizing s g with
  | zero => rfl
  | succ n ih =>
    have hh := ih (h.clockintr cfg) (slotWatch cfg i upd g s tickEvents)
    rw [tickRun_succ, slotWatch, Machine.watch_append (exec_tick h), iterate_succ_apply]
    refine hh.trans ?_
    rw [slotWatch_tick h hi]
    simp [tickHist, clockintr, hi]

end Xv6
