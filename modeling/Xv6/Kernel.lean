import Xv6.Machine
import Xv6.Scheduler

/-! The process table under all its users: the schedulers of the harts, the
timer interrupt and the system calls, interleaved at the granularity of one
held `p->lock`. Loops over the table release each lock before they take the
next, so each of their iterations is a step of its own. -/

namespace Xv6

/-- What a hart is doing. Inside `scheduler` the loop variables are its state;
a hart that runs a process takes the steps of that process's kernel thread. -/
inductive Cpu where
  | idle
  | scan (next : Nat) (best : Option Nat) (dp : Int)
  | run (i : Nat)
  deriving DecidableEq, Repr

/-- The progress of `clockintr` on hart 0 through `wakeup(&ticks)` and through
its own table loop. -/
inductive Clock where
  | off
  | waking (k : Nat)
  | walking (k : Nat)
  deriving DecidableEq, Repr

/-- Everything but the process table: `lock` is the hart that keeps a slot
locked between two of its steps, and `fresh` the number that `allocproc` has drawn for
a slot it has not filled yet. -/
structure Control where
  lock : Nat → Option Nat
  cpu : Nat → Cpu
  ticks : Nat
  nextpid : Int
  fresh : Nat → Option Int
  clock : Clock

structure Kernel extends Control where
  proc : Nat → Proc

inductive Event where
  | timer
  | clock
  | schedule (c : Nat)
  | yield (c : Nat)
  | sleep (c : Nat) (chan : Chan)
  | kexit (c : Nat) (status : Int)
  | setkilled (c : Nat)
  | allocpid (i : Nat)
  | allocproc (i : Nat) (ok : Bool)
  | start (i : Nat)
  | kwait (i : Nat)
  | wakeup (i : Nat) (chan : Chan)
  | kkill (i : Nat) (pid : Int)
  | setpriority (i : Nat) (pid pr : Int)
  deriving DecidableEq, Repr

def boot : Kernel where
  proc := Function.update (fun _ => procinit) 0
    { allocproc true 1 0 procinit with state := .runnable }
  lock := fun _ => none
  cpu := fun _ => .idle
  ticks := 0
  nextpid := 2
  fresh := fun _ => none
  clock := .off

/-- While hart 0 is in the interrupt handler it takes no other step. -/
def Control.free (s : Control) (c : Nat) : Bool :=
  decide (c < ncpu) && (c != 0 || s.clock == .off)

def Cpu.interruptible : Cpu → Bool
  | .scan _ (some _) _ => false
  | _ => true

/-- The locks after a visit that moves the candidate of hart `c` from `old` to `new`. -/
def relock (c : Nat) (old new : Option Nat) (lock : Nat → Option Nat) : Nat → Option Nat :=
  fun j => if new = some j then some c else if old = some j then none else lock j

/-- Where the hart is when its process has switched back: round robin goes on
with its walk, the others start the next pass. -/
def leave : Scheduler → Nat → Cpu
  | .rr, i => .scan (i + 1) none 101
  | _, _ => .idle

abbrev Effect := Control × Option (Nat × SlotAct)

def Control.setCpu (s : Control) (c : Nat) (x : Cpu) : Control :=
  { s with cpu := Function.update s.cpu c x }

def clockStep (s : Kernel) : Option Effect :=
  match s.clock with
  | .off => none
  | .waking k =>
    if nproc ≤ k then some ({ s.toControl with clock := .walking 0 }, none)
    else if s.lock k = none then
      some ({ s.toControl with clock := .waking (k + 1) }, some (k, .wakeup .ticks))
    else none
  | .walking k =>
    if nproc ≤ k then some ({ s.toControl with clock := .off }, none)
    else if s.lock k = none then
      some ({ s.toControl with clock := .walking (k + 1) }, some (k, .clockVisit))
    else none

def scheduleStep (cfg : Config) (s : Kernel) (c : Nat) : Option Effect :=
  match s.cpu c with
  | .run _ => none
  | .idle => some (s.setCpu c (.scan 0 none 101), none)
  | .scan k best dp =>
    if nproc ≤ k then
      match best with
      | none => some (s.setCpu c .idle, none)
      | some i =>
        some ({ s.setCpu c (.run i) with lock := Function.update s.lock i none },
          some (i, .dispatch))
    else if s.lock k = none then
      match cfg.scheduler with
      | .rr =>
        if (s.proc k).state = .runnable then some (s.setCpu c (.run k), some (k, .dispatch))
        else some (s.setCpu c (.scan (k + 1) none dp), none)
      | sched =>
        let b := visit sched s.proc (best, dp) k
        some ({ s.setCpu c (.scan (k + 1) b.1 b.2) with lock := relock c best b.1 s.lock }, none)
    else none

def runningStep (s : Kernel) (c : Nat) (next : Nat → Cpu) (act : SlotAct) : Option Effect :=
  match s.cpu c with
  | .run i =>
    if s.free c = true ∧ s.lock i = none then some (s.setCpu c (next i), some (i, act)) else none
  | _ => none

def slotStep (s : Kernel) (i : Nat) (test : Prop) [Decidable test] (ctl : Control)
    (act : SlotAct) : Option Effect :=
  if i < nproc ∧ s.lock i = none ∧ test then some (ctl, some (i, act)) else none

def effect (cfg : Config) (s : Kernel) : Event → Option Effect
  | .timer =>
    if s.clock = .off ∧ (s.cpu 0).interruptible = true then
      some ({ s.toControl with ticks := u32 (s.ticks + 1), clock := .waking 0 }, none)
    else none
  | .clock => clockStep s
  | .schedule c => if s.free c = true then scheduleStep cfg s c else none
  | .yield c =>
    -- the timer preempts under round robin only, and nothing else calls `yield`
    if cfg.scheduler = .rr then runningStep s c (leave cfg.scheduler) .yield else none
  | .sleep c chan => runningStep s c (leave cfg.scheduler) (.sleep chan)
  | .kexit c status =>
    -- the first process never exits: `panic("init exiting")`
    if s.cpu c = .run 0 then none
    else runningStep s c (leave cfg.scheduler) (.kexit status)
  | .setkilled c => runningStep s c .run .setkilled
  | .allocpid i =>
    -- `allocproc` keeps the lock of the slot from here to where it has filled it: who comes
    -- in between waits in the code, and here finds the slot as it was before
    if i < nproc ∧ s.lock i = none ∧ (s.proc i).state = .unused ∧ s.fresh i = none then
      some ({ s.toControl with
        nextpid := i32 (s.nextpid + 1)
        fresh := Function.update s.fresh i (some s.nextpid) }, none)
    else none
  | .allocproc i ok =>
    match s.fresh i with
    | none => none
    | some pid =>
      slotStep s i ((s.proc i).state = .unused)
        { s.toControl with fresh := Function.update s.fresh i none } (.allocproc ok pid s.ticks)
  | .start i => slotStep s i ((s.proc i).state = .used) s.toControl .start
  | .kwait i => slotStep s i ((s.proc i).state = .zombie) s.toControl .kwait
  | .wakeup i chan => slotStep s i True s.toControl (.wakeup chan)
  | .kkill i pid => slotStep s i ((s.proc i).pid = pid) s.toControl (.kkill pid)
  | .setpriority i pid pr =>
    slotStep s i ((s.proc i).pid = pid ∧ minPriority ≤ pr ∧ pr ≤ maxPriority) s.toControl
      (.setpriority pid pr)

def actOn (cfg : Config) (proc : Nat → Proc) : Option (Nat × SlotAct) → Nat → Proc
  | none => proc
  | some (i, a) => Function.update proc i (a.apply cfg (proc i))

def step (cfg : Config) (s : Kernel) (e : Event) : Option Kernel :=
  (effect cfg s e).map (fun r => { toControl := r.1, proc := actOn cfg s.proc r.2 })

abbrev kernel (cfg : Config) : Machine Kernel Event := ⟨step cfg⟩

def SlotAct.Leaves : SlotAct → Prop
  | .yield | .sleep _ | .kexit _ => True
  | _ => False

def SlotAct.Passive (a : SlotAct) : Prop := ¬ a.Leaves ∧ a ≠ .dispatch

def target (cfg : Config) (s : Kernel) (e : Event) : Option (Nat × SlotAct) :=
  (effect cfg s e).bind Prod.snd

theorem step_eq_some {cfg : Config} {s t : Kernel} {e : Event} (h : step cfg s e = some t) :
    effect cfg s e = some (t.toControl, target cfg s e) ∧
      t.proc = actOn cfg s.proc (target cfg s e) := by
  unfold step at h
  obtain ⟨⟨ctl, a⟩, he, rfl⟩ := Option.map_eq_some_iff.mp h
  simp [target, he]

theorem slotStep_eq_some {s : Kernel} {i : Nat} {test : Prop} [Decidable test] {ctl : Control}
    {act : SlotAct} {r : Effect} (h : slotStep s i test ctl act = some r) :
    i < nproc ∧ s.lock i = none ∧ test ∧ r = (ctl, some (i, act)) := by
  unfold slotStep at h
  split at h
  · rename_i hg
    exact ⟨hg.1, hg.2.1, hg.2.2, by simpa using h.symm⟩
  · simp at h

theorem allocpid_eq_some {cfg : Config} {s : Kernel} {i : Nat} {r : Effect}
    (h : effect cfg s (.allocpid i) = some r) : (s.proc i).state = .unused ∧
      r = ({ s.toControl with
        nextpid := i32 (s.nextpid + 1)
        fresh := Function.update s.fresh i (some s.nextpid) }, none) := by
  simp only [effect] at h
  split at h
  · rename_i hg
    exact ⟨hg.2.2.1, by simpa using h.symm⟩
  · simp at h

theorem allocproc_eq_some {cfg : Config} {s : Kernel} {i : Nat} {ok : Bool} {r : Effect}
    (h : effect cfg s (.allocproc i ok) = some r) : ∃ pid, s.fresh i = some pid ∧
      s.lock i = none ∧ (s.proc i).state = .unused ∧
      r = ({ s.toControl with fresh := Function.update s.fresh i none },
        some (i, .allocproc ok pid s.ticks)) := by
  simp only [effect] at h
  split at h
  · simp at h
  · rename_i pid hpid
    exact ⟨pid, hpid, (slotStep_eq_some h).2⟩

theorem runningStep_eq_some {s : Kernel} {c : Nat} {next : Nat → Cpu} {act : SlotAct}
    {r : Effect} (h : runningStep s c next act = some r) :
    ∃ i, s.cpu c = .run i ∧ s.lock i = none ∧ s.free c = true ∧
      r = (s.setCpu c (next i), some (i, act)) := by
  unfold runningStep at h
  split at h
  · rename_i i hc
    split at h
    · rename_i hg
      exact ⟨i, hc, hg.2, hg.1, by simpa using h.symm⟩
    · simp at h
  · simp at h

end Xv6
