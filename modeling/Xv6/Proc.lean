import Xv6.Types

/-! One slot of the process table and the critical sections that change it.
Every kernel function touches a slot only while it holds `p->lock`, so each
action below is atomic for its slot. -/

namespace Xv6

def nproc : Nat := 64

def ncpu : Nat := 8

def agingThreshold : Int := 10

def starvingThreshold : Int := 30

def agingStep : Int := 1

def minPriority : Int := 0

def maxPriority : Int := 100

def defaultPriority : Int := 60

inductive ProcState where
  | unused | used | sleeping | runnable | running | zombie
  deriving DecidableEq, Repr

/-- Wait channels are addresses of kernel objects. The tick counter is the one
the timer interrupt wakes; every other object is identified by its address. -/
inductive Chan where
  | null | ticks | addr (a : Nat)
  deriving DecidableEq, Repr

structure Proc where
  rtime : Int
  wtime : Int
  nrun : Int
  priority : Int
  starving : Int
  stime : Int
  ctime : Nat
  pbsRtime : Nat
  pbsStime : Nat
  state : ProcState
  chan : Chan
  killed : Int
  xstate : Int
  pid : Int
  deriving DecidableEq, Repr

def procinit : Proc where
  rtime := 0
  wtime := 0
  nrun := 0
  priority := 0
  starving := 0
  stime := 0
  ctime := 0
  pbsRtime := 0
  pbsStime := 0
  state := .unused
  chan := .null
  killed := 0
  xstate := 0
  pid := 0

inductive Scheduler where
  | rr | fcfs | pbs
  deriving DecidableEq, Repr

structure Config where
  scheduler : Scheduler
  aging : Bool
  deriving DecidableEq, Repr

def agingUpdate (p : Proc) : Proc :=
  if p.state ≠ .runnable then p
  else if p.wtime > agingThreshold then
    { p with
      priority :=
        if p.priority > minPriority then
          if i32 (p.priority - agingStep) < minPriority then minPriority
          else i32 (p.priority - agingStep)
        else p.priority
      wtime := 0 }
  else p

def detectStarving (p : Proc) : Proc :=
  if p.wtime > starvingThreshold then { p with starving := 1 } else p

def clockVisit (aging : Bool) (p : Proc) : Proc :=
  detectStarving (match p.state with
    | .running => { p with rtime := i32 (p.rtime + 1), pbsRtime := u64 (p.pbsRtime + 1) }
    | .runnable =>
      if aging then agingUpdate { p with wtime := i32 (p.wtime + 1) }
      else { p with wtime := i32 (p.wtime + 1) }
    | .sleeping => { p with stime := i32 (p.stime + 1), pbsStime := u64 (p.pbsStime + 1) }
    | _ => p)

def freeproc (p : Proc) : Proc :=
  { p with pid := 0, chan := .null, killed := 0, xstate := 0, state := .unused }

/-- `allocproc` from the label `found` on. When a page cannot be allocated the
slot is given back before its lock is released; `ok` says whether all of the
allocations made under the lock succeed, `kfork`'s copy of the parent's memory
included. -/
def allocproc (ok : Bool) (pid : Int) (ticks : Nat) (p : Proc) : Proc :=
  let q := { p with
    pid := pid, state := .used, rtime := 0, wtime := 0, nrun := 0, stime := 0,
    pbsRtime := 0, pbsStime := 0, priority := defaultPriority, starving := 0, ctime := ticks }
  if ok then q else freeproc q

/-- What the three scheduler bodies write to the process they switch to. A
process that resumes inside `sleep` clears `chan` before it drops its lock; for
every other one `chan` is already null. -/
def dispatch : Scheduler → Proc → Proc
  | .pbs, p =>
    { p with nrun := i32 (p.nrun + 1), starving := 0, state := .running, chan := .null }
  | _, p => { p with state := .running, nrun := i32 (p.nrun + 1), chan := .null }

def yield (p : Proc) : Proc := { p with state := .runnable }

def sleep (chan : Chan) (p : Proc) : Proc := { p with chan := chan, state := .sleeping }

def kexit (status : Int) (p : Proc) : Proc := { p with xstate := status, state := .zombie }

def setkilled (p : Proc) : Proc := { p with killed := 1 }

def wakeupSlot (chan : Chan) (p : Proc) : Proc :=
  if p.state = .sleeping ∧ p.chan = chan then { p with state := .runnable } else p

def kkillSlot (p : Proc) : Proc :=
  { p with killed := 1, state := if p.state = .sleeping then .runnable else p.state }

/-- The critical sections of the kernel, seen from the slot they lock. -/
inductive SlotAct where
  | clockVisit
  | wakeup (chan : Chan)
  | dispatch
  | yield
  | sleep (chan : Chan)
  | kexit (status : Int)
  | setkilled
  | allocproc (ok : Bool) (pid : Int) (ticks : Nat)
  | start
  | kwait
  | kkill (pid : Int)
  | setpriority (pid pr : Int)
  deriving DecidableEq, Repr

def SlotAct.apply (cfg : Config) : SlotAct → Proc → Proc
  | .clockVisit, p => Xv6.clockVisit cfg.aging p
  | .wakeup chan, p => wakeupSlot chan p
  | .dispatch, p => Xv6.dispatch cfg.scheduler p
  | .yield, p => Xv6.yield p
  | .sleep chan, p => Xv6.sleep chan p
  | .kexit status, p => Xv6.kexit status p
  | .setkilled, p => Xv6.setkilled p
  | .allocproc ok pid ticks, p => Xv6.allocproc ok pid ticks p
  | .start, p => { p with state := .runnable }
  | .kwait, p => freeproc p
  | .kkill _, p => kkillSlot p
  | .setpriority _ pr, p => { p with priority := pr }

def SlotAct.Enabled : SlotAct → Proc → Prop
  | .allocproc _ _ _, p => p.state = .unused
  | .start, p => p.state = .used
  | .kwait, p => p.state = .zombie
  | .kkill pid, p => p.pid = pid
  | .setpriority pid pr, p => p.pid = pid ∧ minPriority ≤ pr ∧ pr ≤ maxPriority
  | _, _ => True

@[simp] theorem detectStarving_wtime (p : Proc) : (detectStarving p).wtime = p.wtime := by
  unfold detectStarving; split <;> rfl

@[simp] theorem detectStarving_priority (p : Proc) : (detectStarving p).priority = p.priority := by
  unfold detectStarving; split <;> rfl

theorem agingUpdate_starving (p : Proc) : (agingUpdate p).starving = p.starving := by
  unfold agingUpdate
  split
  · rfl
  · split <;> rfl

theorem clockVisit_eq (aging : Bool) (p : Proc) : ∃ rt wt pr sv st prt pst,
    clockVisit aging p = { p with
      rtime := rt, wtime := wt, priority := pr, starving := sv, stime := st, pbsRtime := prt,
      pbsStime := pst } := by
  have hd : ∀ q : Proc, ∃ sv, detectStarving q = { q with starving := sv } := by
    intro q
    unfold detectStarving
    split
    · exact ⟨1, rfl⟩
    · exact ⟨q.starving, rfl⟩
  have ha : ∀ q : Proc, ∃ wt pr, agingUpdate q = { q with wtime := wt, priority := pr } := by
    intro q
    unfold agingUpdate
    split
    · exact ⟨q.wtime, q.priority, rfl⟩
    · split
      · exact ⟨_, _, rfl⟩
      · exact ⟨q.wtime, q.priority, rfl⟩
  unfold clockVisit
  split
  · obtain ⟨sv, hs⟩ := hd { p with rtime := i32 (p.rtime + 1), pbsRtime := u64 (p.pbsRtime + 1) }
    exact ⟨_, p.wtime, p.priority, sv, p.stime, _, p.pbsStime, hs⟩
  · split
    · obtain ⟨wt, pr, hw⟩ := ha { p with wtime := i32 (p.wtime + 1) }
      obtain ⟨sv, hs⟩ := hd { p with wtime := wt, priority := pr }
      exact ⟨p.rtime, wt, pr, sv, p.stime, p.pbsRtime, p.pbsStime, by rw [hw]; exact hs⟩
    · obtain ⟨sv, hs⟩ := hd { p with wtime := i32 (p.wtime + 1) }
      exact ⟨p.rtime, _, p.priority, sv, p.stime, p.pbsRtime, p.pbsStime, hs⟩
  · obtain ⟨sv, hs⟩ := hd { p with stime := i32 (p.stime + 1), pbsStime := u64 (p.pbsStime + 1) }
    exact ⟨p.rtime, p.wtime, p.priority, sv, _, p.pbsRtime, _, hs⟩
  · obtain ⟨sv, hs⟩ := hd p
    exact ⟨p.rtime, p.wtime, p.priority, sv, p.stime, p.pbsRtime, p.pbsStime, hs⟩

@[simp] theorem clockVisit_state (aging : Bool) (p : Proc) :
    (clockVisit aging p).state = p.state := by
  obtain ⟨_, _, _, _, _, _, _, h⟩ := clockVisit_eq aging p
  rw [h]

end Xv6
