import Xv6.Threads
import Xv6.Pids

/-! The process code of the kernel at the granularity of its spin locks: the
schedulers of the harts, the kernel threads of the processes and the interrupt
handlers are programs whose steps interleave. Every datum belongs to the lock
that guards it. -/

namespace Xv6

namespace Smp

open Threads

inductive Lock where
  | proc (i : Nat)
  | wait
  | pid
  | ticks
  | sleep (l : Nat)
  | obj (o : Nat)
  deriving DecidableEq, Repr

/-- What a lock guards: a slot, the parents, the counters, a sleep lock, or the
data of some other kernel object. -/
abbrev Guarded (D : Type) : Lock → Type
  | .proc _ => Proc
  | .wait => Nat → Option Nat
  | .pid => Int
  | .ticks => Nat
  | .sleep _ => Sleeplock
  | .obj _ => D

/-- The fields of `struct cpu`, and whether the hart takes interrupts. -/
structure Hart where
  proc : Option Nat
  noff : Nat
  intena : Bool
  intr : Bool

/-- A process that became a zombie; `inc` counts the processes of its slot. -/
structure Exit where
  slot : Nat
  inc : Nat
  pid : Int
  status : Int

/-- What a call of `kwait` came to: the child and the values it returned, or why
it returned -1. Processes are given by slot and count. -/
inductive Waited where
  | reaped (caller : Nat × Nat) (ret : Int) (status : Option Int) (child creator : Nat × Nat)
  | failed (caller : Nat × Nat) (copy killed kids : Bool)

def Waited.caller : Waited → Nat × Nat
  | .reaped caller .. | .failed caller .. => caller

def Waited.ret : Waited → Int
  | .reaped _ ret .. => ret
  | .failed .. => -1

/-- History variables. `on` is the hart on which a process was dispatched, until
the process itself leaves the state RUNNING. `hit i o` says that the condition
of object `o` was made true since process `i` tested it. `poster` is the hart that
made the condition behind a lock true and still holds the lock, and `passed` are
the slots whose lock it has given back since. `inside` are the holders of a sleep
lock, `spoilt` the harts whose last copy to user memory failed, and `answers` what the
calls of `wait` have returned, and to whom. -/
structure History where
  on : Nat → Option Nat
  inc : Nat → Nat
  creator : Nat → Nat × Nat
  exits : List Exit
  waits : List Waited
  hit : Nat → Nat → Bool
  poster : Lock → Option Nat
  passed : Lock → Nat → Bool
  inside : Nat → List Nat
  spoilt : Nat → Bool
  answers : List ((Nat × Nat) × Int)

structure State (D : Type) where
  mem : (lk : Lock) → Guarded D lk
  lock : Lock → Option Nat
  cpu : Nat → Hart
  hist : History

inductive Thread where
  | sched (h : Nat)
  | proc (i : Nat)
  deriving DecidableEq, Repr

/-- The build, and the condition that each object's waiters wait for. -/
structure Setup (D : Type) where
  cfg : Config
  cond : Nat → D → Bool

def initproc : Nat := 0

def procChan (i : Nat) : Chan := .addr (3 * i)

def sleepChan (l : Nat) : Chan := .addr (3 * l + 1)

def objChan (o : Nat) : Chan := .addr (3 * o + 2)

/-- The lock that callers of `sleep` and `wakeup` hold for a channel. -/
def guard : Chan → Lock
  | .null => .wait
  | .ticks => .ticks
  | .addr a => if a % 3 = 0 then .wait else if a % 3 = 1 then .sleep (a / 3) else .obj (a / 3)

/-- What is written to a slot. `tally` stands for the fields that no other
statement of the process code depends on, and for `killed`, which is not cleared. -/
inductive Move where
  | tally (f : Proc → Proc)
  | runnable
  | running
  | sleeping (chan : Chan)
  | nochan
  | zombie (status : Int)
  | used (pid : Int) (ticks : Nat)

def Move.apply : Move → Proc → Proc
  | .tally f, p => { f p with
      state := p.state, chan := p.chan, xstate := p.xstate, pid := p.pid
      killed := if (f p).killed = 0 then p.killed else (f p).killed }
  | .runnable, p => { p with state := .runnable }
  | .running, p => { p with state := .running }
  | .sleeping chan, p => Xv6.sleep chan p
  | .nochan, p => { p with chan := .null }
  | .zombie status, p => Xv6.kexit status p
  | .used pid ticks, p => Xv6.allocproc true pid ticks p

/-- What the process table shows as one section under the lock of a slot is a sequence of
these writes; only giving a slot back is one step in both. -/
theorem Move.sections (cfg : Config) {a : SlotAct} (p : Proc) (hw : a ≠ .kwait)
    (hf : ∀ pid ticks, a ≠ .allocproc false pid ticks) :
    ∃ ms : List Move, ms.foldl (fun q m => m.apply q) p = a.apply cfg p := by
  cases a with
  | clockVisit =>
    obtain ⟨rt, wt, pr, sv, st, prt, pst, h⟩ := clockVisit_eq cfg.aging p
    exact ⟨[.tally (clockVisit cfg.aging)], by simp [Move.apply, SlotAct.apply, h]⟩
  | wakeup chan =>
    simp only [SlotAct.apply, wakeupSlot]
    split_ifs
    · exact ⟨[.runnable], rfl⟩
    · exact ⟨[], rfl⟩
  | dispatch =>
    refine ⟨[.tally (Xv6.dispatch cfg.scheduler), .running, .nochan], ?_⟩
    have hk : (Xv6.dispatch cfg.scheduler p).killed = p.killed := by cases cfg.scheduler <;> rfl
    simp only [List.foldl, Move.apply, SlotAct.apply, hk, ite_self]
    cases cfg.scheduler <;> rfl
  | yield | start => exact ⟨[.runnable], rfl⟩
  | sleep chan => exact ⟨[.sleeping chan], rfl⟩
  | kexit status => exact ⟨[.zombie status], rfl⟩
  | setkilled => exact ⟨[.tally Xv6.setkilled], by simp [Move.apply, SlotAct.apply, Xv6.setkilled]⟩
  | allocproc ok pid ticks =>
    cases ok with
    | false => exact absurd rfl (hf pid ticks)
    | true => exact ⟨[.used pid ticks], rfl⟩
  | kwait => exact absurd rfl hw
  | kkill pid =>
    simp only [SlotAct.apply, kkillSlot]
    split_ifs
    · exact ⟨[.tally Xv6.setkilled, .runnable], by simp [Move.apply, Xv6.setkilled]⟩
    · exact ⟨[.tally Xv6.setkilled], by simp [Move.apply, Xv6.setkilled]⟩
  | setpriority pid pr =>
    exact ⟨[.tally (fun q => { q with priority := pr })], by simp [Move.apply, SlotAct.apply]⟩

/-- What a process does in the kernel between other calls, and inside the
critical section of a sleep lock. -/
inductive Op (D : Type) where
  | skip
  | seq (a b : Op D)
  | locked (l : Nat) (a : Op D)
  | await (o : Nat) (f : D → D)
  | announce (o : Nat) (f : D → D)
  | kill (pid : Int)
  | setpriority (pid pr : Int)
  | visit (i : Nat) (f : Proc → Proc)
  | pause (n : Nat)
  | yield

inductive Call (D : Type) where
  | op (a : Op D)
  | fork
  | exit (status : Int)
  | wait (addr : Nat)

inductive Trap (D : Type) where
  | syscall (c : Call D)
  | timer
  | device (o : Nat) (f : D → D)
  | fault

inductive Interrupt (D : Type) where
  | timer
  | device (o : Nat) (f : D → D)

/-- The outcome of an allocation or of a copy, and the next trap of a process. -/
structure Input (D : Type) where
  ok : Bool
  trap : Trap D

inductive Act (D : Type) where
  | pushOff
  | popOff
  | lock (lk : Lock)
  | unlock (lk : Lock)
  | holding (lk : Lock)
  | mycpu
  | cpuid
  | setproc (v : Option Nat)
  | setIntena (b : Bool)
  | intrOn
  | intrOff
  | read (lk : Lock)
  | peek (lk : Lock)
  | write (i : Nat) (m : Move)
  | adopt (np p : Nat)
  | orphan (j : Nat)
  | setNextpid (n : Int)
  | tick
  | takeSleep (l : Nat) (pid : Int)
  | dropSleep (l : Nat)
  | test (o : Nat)
  | put (o : Nat) (f : D → D)
  | free (i : Nat)
  | reap (i : Nat) (pid : Int) (status : Option Int)
  | waitFailed
  | copyout
  | answer (v : Int)
  | oracle
  | trap
  | panic (msg : String)

abbrev Res (D : Type) : Act D → Type
  | .holding _ => Bool
  | .mycpu => Hart
  | .cpuid => Nat
  | .read lk => Guarded D lk
  | .peek lk => Guarded D lk
  | .test _ => D
  | .copyout => Bool
  | .oracle => Bool
  | .trap => Trap D
  | .panic _ => Empty
  | _ => Unit

section Steps

variable {D : Type}

def State.proc (s : State D) (i : Nat) : Proc := s.mem (.proc i)

def State.parent (s : State D) (i : Nat) : Option Nat := (s.mem .wait : Nat → Option Nat) i

def State.sl (s : State D) (l : Nat) : Sleeplock := s.mem (.sleep l)

def State.obj (s : State D) (o : Nat) : D := s.mem (.obj o)

def State.ticks (s : State D) : Nat := s.mem .ticks

def State.setCpu (s : State D) (p : Nat) (c : Hart) : State D :=
  { s with cpu := Function.update s.cpu p c }

def State.set (s : State D) (lk : Lock) (v : Guarded D lk) : State D :=
  { s with mem := Function.update s.mem lk v }

def State.who (s : State D) (p : Nat) : Nat × Nat :=
  match (s.cpu p).proc with
  | none => (0, 0)
  | some i => (i, s.hist.inc i)

def Hart.pushOff (c : Hart) : Hart :=
  { c with intr := false, intena := if c.noff = 0 then c.intr else c.intena, noff := c.noff + 1 }

def Hart.popOff (c : Hart) : Hart :=
  { c with noff := c.noff - 1, intr := decide (c.noff - 1 = 0) && c.intena }

/-- Process `i` leaves the state RUNNING, if it is the one that makes the step. -/
def History.leave (y : History) (own : Bool) (i : Nat) : History :=
  if own then { y with on := Function.update y.on i none } else y

/-- Hart `p` writes slot `i`, which is that of its own process or not. -/
def History.move (y : History) (p : Nat) (own : Bool) (i : Nat) (d : Proc) : Move → History
  | .running => { y with on := Function.update y.on i (some p) }
  | .runnable => y.leave own i
  | .sleeping _ => y.leave own i
  | .zombie status =>
    { y.leave own i with exits := ⟨i, y.inc i, d.pid, status⟩ :: y.exits }
  | .used _ _ => { y with inc := Function.update y.inc i (y.inc i + 1) }
  | _ => y

def History.post (y : History) (p : Nat) (lk : Lock) : History :=
  { y with
    poster := Function.update y.poster lk (some p)
    passed := Function.update y.passed lk (fun _ => false) }

def History.unlock (y : History) (p : Nat) (lk : Lock) : History :=
  { y with
    poster := Function.update y.poster lk none
    passed := fun lk' j => y.passed lk' j || decide (lk = .proc j ∧ y.poster lk' = some p) }

def State.freeproc (s : State D) (i : Nat) : State D :=
  (s.set (.proc i) (Xv6.freeproc (s.proc i))).set .wait (Function.update s.parent i none)

/-- A step of hart `p`. Spinning on a lock is waiting for it to be free. -/
def exec (S : Setup D) (p : Nat) : (a : Act D) → Input D → State D →
    Option (Except String (Res D a × State D))
  | .pushOff, _, s => some (.ok ((), s.setCpu p (s.cpu p).pushOff))
  | .popOff, _, s =>
    if (s.cpu p).intr = true then some (.error "pop_off - interruptible")
    else if (s.cpu p).noff < 1 then some (.error "pop_off")
    else some (.ok ((), s.setCpu p (s.cpu p).popOff))
  | .lock lk, _, s =>
    match s.lock lk with
    | none => some (.ok ((), { s with lock := Function.update s.lock lk (some p) }))
    | some q => if q = p then some (.error "acquire") else none
  | .unlock lk, _, s =>
    if s.lock lk = some p then
      some (.ok ((), { s with
        lock := Function.update s.lock lk none
        hist := s.hist.unlock p lk }))
    else some (.error "release")
  | .holding lk, _, s => some (.ok (decide (s.lock lk = some p), s))
  | .mycpu, _, s => some (.ok (s.cpu p, s))
  | .cpuid, _, s => some (.ok (p, s))
  | .setproc v, _, s => some (.ok ((), s.setCpu p { s.cpu p with proc := v }))
  | .setIntena b, _, s => some (.ok ((), s.setCpu p { s.cpu p with intena := b }))
  | .intrOn, _, s => some (.ok ((), s.setCpu p { s.cpu p with intr := true }))
  | .intrOff, _, s => some (.ok ((), s.setCpu p { s.cpu p with intr := false }))
  | .read lk, _, s => some (.ok (s.mem lk, s))
  | .peek lk, _, s => some (.ok (s.mem lk, s))
  | .write i m, _, s =>
    some (.ok ((), { s.set (.proc i) (m.apply (s.proc i)) with
      hist := s.hist.move p (decide ((s.cpu p).proc = some i)) i (s.proc i) m }))
  | .adopt np i, _, s =>
    some (.ok ((), { s.set .wait (Function.update s.parent np (some i)) with
      hist := { s.hist with creator := Function.update s.hist.creator np (i, s.hist.inc i) } }))
  | .orphan j, _, s =>
    some (.ok ((), { s.set .wait (Function.update s.parent j (some initproc)) with
      hist := s.hist.post p .wait }))
  | .setNextpid n, _, s => some (.ok ((), s.set .pid n))
  | .tick, _, s => some (.ok ((), s.set .ticks (u32 (s.ticks + 1))))
  | .takeSleep l pid, _, s =>
    some (.ok ((), { s.set (.sleep l) (⟨true, pid⟩ : Sleeplock) with
      hist := { s.hist with
        inside := Function.update s.hist.inside l ((s.who p).1 :: s.hist.inside l) } }))
  | .dropSleep l, _, s =>
    some (.ok ((), { s.set (.sleep l) (⟨false, 0⟩ : Sleeplock) with
      hist := { s.hist.post p (.sleep l) with
        inside := Function.update s.hist.inside l ((s.hist.inside l).erase (s.who p).1) } }))
  | .test o, _, s =>
    some (.ok (s.obj o, { s with hist := { s.hist with
      hit := Function.update s.hist.hit (s.who p).1
        (Function.update (s.hist.hit (s.who p).1) o false) } }))
  | .put o f, _, s =>
    if S.cond o (s.obj o) = false ∧ S.cond o (f (s.obj o)) = true then
      some (.ok ((), { s.set (.obj o) (f (s.obj o)) with
        hist := { s.hist.post p (.obj o) with
          hit := fun i => Function.update (s.hist.hit i) o true } }))
    else some (.ok ((), s.set (.obj o) (f (s.obj o))))
  | .free i, _, s => some (.ok ((), s.freeproc i))
  | .reap i pid status, _, s =>
    some (.ok ((), { s.freeproc i with
      hist := { s.hist with
        waits := Waited.reaped (s.who p) pid status (i, s.hist.inc i) (s.hist.creator i) ::
          s.hist.waits } }))
  | .waitFailed, _, s =>
    some (.ok ((), { s with
      hist := { s.hist with
        spoilt := Function.update s.hist.spoilt p false
        waits := Waited.failed (s.who p) (s.hist.spoilt p)
          (decide ((s.proc (s.who p).1).killed ≠ 0))
          (decide (∃ j < nproc, s.parent j = (s.cpu p).proc)) :: s.hist.waits } }))
  | .copyout, x, s =>
    some (.ok (x.ok, { s with
      hist := { s.hist with spoilt := Function.update s.hist.spoilt p (!x.ok) } }))
  | .answer v, _, s =>
    some (.ok ((), { s with
      hist := { s.hist with answers := (s.who p, v) :: s.hist.answers } }))
  | .oracle, x, s => some (.ok (x.ok, s))
  | .trap, x, s => some (.ok (x.trap, s))
  | .panic msg, _, _ => some (.error msg)

def interrupt (p : Nat) (_ : Interrupt D) (s : State D) : Option (State D) :=
  if (s.cpu p).intr = true then some (s.setCpu p { s.cpu p with intr := false }) else none

end Steps

/-- The loops and the entry points of threads, which are called by name. -/
inductive Routine (D : Type) where
  | scheduler
  | forkret
  | user
  | kwait (p addr : Nat)
  | acquiresleep (l : Nat)
  | await (o : Nat)
  | pause (ticks0 n : Nat)

abbrev Ret (D : Type) : Routine D → Type
  | .kwait _ _ => Int
  | .pause _ _ => Int
  | _ => Unit

section Programs

variable {D : Type}

abbrev P (D : Type) := Prog (Res D) (Ret D) Nat Thread

def act (a : Act D) : P D (Res D a) := Prog.act a

def run (c : Routine D) : P D (Ret D c) := Prog.run c

def panic {α : Type} (msg : String) : P D α := .step (.panic msg) (fun r => nomatch r)

def fault {α : Type} : P D α := panic "kerneltrap"

def acquire (lk : Lock) : P D Unit := do
  act .pushOff
  act (.lock lk)

def release (lk : Lock) : P D Unit := do
  act (.unlock lk)
  act .popOff

def mycpu : P D Hart := act .mycpu

def cpuid : P D Nat := act .cpuid

def holding (lk : Lock) : P D Bool := act (.holding lk)

def oracle : P D Bool := act .oracle

def slot (i : Nat) : P D Proc := act (.read (.proc i))

def sleeplock (l : Nat) : P D Sleeplock := act (.read (.sleep l))

def ticks : P D Nat := act (.read .ticks)

def myproc : P D (Option Nat) := do
  let c ← mycpu
  pure c.proc

def write (i : Nat) (m : Move) : P D Unit := act (.write i m)

def parents : P D (Nat → Option Nat) := act (.read .wait)

def onlyIf (b : Bool) (m : P D Unit) : P D Unit := if b then m else pure ()

def check (b : Bool) (msg : String) : P D Unit := onlyIf b (panic msg)

def sched : P D Unit := do
  let me ← myproc
  match me with
  | none => fault
  | some i =>
    let held ← holding (.proc i)
    check (!held) "sched p->lock"
    let c ← mycpu
    check (decide (c.noff ≠ 1)) "sched locks"
    let p ← slot i
    check (decide (p.state = .running)) "sched RUNNING"
    check c.intr "sched interruptible"
    Prog.switch (fun _ => .proc i) (fun h => .sched h)
    act (.setIntena c.intena)

def yield : P D Unit := do
  let me ← myproc
  match me with
  | none => fault
  | some i =>
    acquire (.proc i)
    write i .runnable
    sched
    release (.proc i)

def sleep (chan : Chan) (lk : Lock) : P D Unit := do
  let me ← myproc
  match me with
  | none => fault
  | some i =>
    acquire (.proc i)
    release lk
    write i (.sleeping chan)
    sched
    write i .nochan
    release (.proc i)
    acquire lk

def wakeupFrom (chan : Chan) : List Nat → P D Unit
  | [] => pure ()
  | i :: is => do
    let me ← myproc
    if me = some i then wakeupFrom chan is
    else
      acquire (.proc i)
      let p ← slot i
      onlyIf (decide (p.state = .sleeping ∧ p.chan = chan)) (write i .runnable)
      release (.proc i)
      wakeupFrom chan is

def wakeup (chan : Chan) : P D Unit := wakeupFrom chan (List.range nproc)

def killed (i : Nat) : P D Int := do
  acquire (.proc i)
  let p ← slot i
  release (.proc i)
  pure p.killed

def setkilled (i : Nat) : P D Unit := do
  acquire (.proc i)
  write i (.tally Xv6.setkilled)
  release (.proc i)

/-- The searches for a pid: `found` is done under the lock of the slot. -/
def findPid (pid : Int) (found : Nat → P D Unit) : List Nat → P D Int
  | [] => pure (-1)
  | i :: is => do
    acquire (.proc i)
    let p ← slot i
    if p.pid = pid then
      found i
      release (.proc i)
      pure 0
    else
      release (.proc i)
      findPid pid found is

def kkill (pid : Int) : P D Int :=
  findPid pid (fun i => do
    write i (.tally Xv6.setkilled)
    let p ← slot i
    onlyIf (decide (p.state = .sleeping)) (write i .runnable)) (List.range nproc)

def setpriority (pid pr : Int) : P D Int :=
  if pr < minPriority ∨ pr > maxPriority then pure (-1)
  else findPid pid (fun i => write i (.tally (fun p => { p with priority := pr })))
    (List.range nproc)

def reparent (p : Nat) : List Nat → P D Unit
  | [] => pure ()
  | j :: js => do
    let f ← parents
    if f j = some p then
      act (.orphan j)
      wakeup (procChan initproc)
      reparent p js
    else reparent p js

def chanOf : Option Nat → Chan
  | none => .null
  | some q => procChan q

def kexit (status : Int) : P D Unit := do
  let me ← myproc
  match me with
  | none => fault
  | some p =>
    check (decide (p = initproc)) "init exiting"
    acquire .wait
    reparent p (List.range nproc)
    let f ← parents
    wakeup (chanOf (f p))
    acquire (.proc p)
    write p (.zombie status)
    release .wait
    sched
    panic "zombie exit"

def waitFailed : P D Int := do
  act .waitFailed
  release .wait
  pure (-1)

def copyStatus (addr : Nat) : P D Bool := if addr = 0 then pure true else act .copyout

/-- The scan of `kwait`: the value to return, or whether there are children. -/
def waitScan (p addr : Nat) : List Nat → Bool → P D (Int ⊕ Bool)
  | [], havekids => pure (.inr havekids)
  | j :: js, havekids => do
    let f ← parents
    if f j = some p then
      acquire (.proc j)
      let pp ← slot j
      if pp.state = .zombie then
        let ok ← copyStatus addr
        if ok = false then
          act .waitFailed
          release (.proc j)
          release .wait
          pure (.inl (-1))
        else
          act (.reap j pp.pid (if addr ≠ 0 then some pp.xstate else none))
          release (.proc j)
          release .wait
          pure (.inl pp.pid)
      else
        release (.proc j)
        waitScan p addr js true
    else waitScan p addr js havekids

def kwaitBody (p addr : Nat) : P D Int := do
  let r ← waitScan p addr (List.range nproc) false
  match r with
  | .inl v => pure v
  | .inr havekids =>
    if havekids = false then waitFailed
    else
      let k ← killed p
      if k ≠ 0 then waitFailed
      else
        sleep (procChan p) .wait
        run (.kwait p addr)

def kwait (addr : Nat) : P D Int := do
  let me ← myproc
  match me with
  | none => fault
  | some p =>
    acquire .wait
    run (.kwait p addr)

def nextpid : P D Int := act (.read .pid)

def allocpid : P D Int := do
  acquire .pid
  let n ← nextpid
  act (.setNextpid (i32 (n + 1)))
  release .pid
  pure n

def ticksNow : P D Nat := act (.peek .ticks)

def allocproc : List Nat → P D (Option Nat)
  | [] => pure none
  | i :: is => do
    acquire (.proc i)
    let p ← slot i
    if p.state = .unused then
      let pid ← allocpid
      let t ← ticksNow
      write i (.used pid t)
      let ok ← oracle
      if ok = true then
        Prog.start (.proc i) .forkret
        pure (some i)
      else
        act (.free i)
        release (.proc i)
        pure none
    else
      release (.proc i)
      allocproc is

def kfork : P D Int := do
  let me ← myproc
  match me with
  | none => fault
  | some p =>
    let new ← allocproc (List.range nproc)
    match new with
    | none => pure (-1)
    | some np =>
      let ok ← oracle
      if ok = true then
        let q ← slot np
        release (.proc np)
        acquire .wait
        act (.adopt np p)
        release .wait
        acquire (.proc np)
        write np .runnable
        release (.proc np)
        pure q.pid
      else
        act (.free np)
        release (.proc np)
        pure (-1)

def visits (f : Proc → Proc) : List Nat → P D Unit
  | [] => pure ()
  | i :: is => do
    acquire (.proc i)
    write i (.tally f)
    release (.proc i)
    visits f is

def clockintr (cfg : Config) : P D Unit := do
  let h ← cpuid
  if h = 0 then
    acquire .ticks
    act .tick
    wakeup .ticks
    release .ticks
    visits (clockVisit cfg.aging) (List.range nproc)
  else pure ()

def acquiresleepBody (l : Nat) : P D Unit := do
  let lk ← sleeplock l
  if lk.locked = true then
    sleep (sleepChan l) (.sleep l)
    run (.acquiresleep l)
  else pure ()

def pidOf (i : Nat) : P D Proc := act (.peek (.proc i))

def acquiresleep (l : Nat) : P D Unit := do
  acquire (.sleep l)
  run (.acquiresleep l)
  let me ← myproc
  match me with
  | none => fault
  | some i =>
    let p ← pidOf i
    act (.takeSleep l p.pid)
    release (.sleep l)

def releasesleep (l : Nat) : P D Unit := do
  acquire (.sleep l)
  act (.dropSleep l)
  wakeup (sleepChan l)
  release (.sleep l)

def test (o : Nat) : P D D := act (.test o)

/-- A process tests the condition of an object and sleeps until it is true. -/
def awaitBody (S : Setup D) (o : Nat) : P D Unit := do
  let d ← test o
  if S.cond o d = true then pure ()
  else
    sleep (objChan o) (.obj o)
    run (.await o)

def await (o : Nat) (f : D → D) : P D Unit := do
  acquire (.obj o)
  run (.await o)
  act (.put o f)
  release (.obj o)

def announce (o : Nat) (f : D → D) : P D Unit := do
  acquire (.obj o)
  act (.put o f)
  wakeup (objChan o)
  release (.obj o)

def pauseBody (ticks0 n : Nat) : P D Int := do
  let t ← ticks
  if u32 (t + 2 ^ 32 - ticks0) < n then
    let me ← myproc
    match me with
    | none => fault
    | some i =>
      let k ← killed i
      if k ≠ 0 then
        release .ticks
        pure (-1)
      else
        sleep .ticks .ticks
        run (.pause ticks0 n)
  else
    release .ticks
    pure 0

def pause (n : Nat) : P D Int := do
  acquire .ticks
  let t ← ticks
  run (.pause t n)

def op : Op D → P D Unit
  | .skip => pure ()
  | .seq a b => do
    op a
    op b
  | .locked l a => do
    acquiresleep l
    op a
    releasesleep l
  | .await o f => await o f
  | .announce o f => announce o f
  | .kill pid => do
    let _ ← kkill pid
    pure ()
  | .setpriority pid pr => do
    let _ ← setpriority pid pr
    pure ()
  | .visit i f => visits f [i]
  | .pause n => do
    let _ ← pause n
    pure ()
  | .yield => yield

def syscall : Call D → P D Unit
  | .op a => op a
  | .fork => do
    let _ ← kfork
    pure ()
  | .exit status => kexit status
  | .wait addr => do
    let v ← kwait addr
    act (.answer v)

def exitIfKilled (i : Nat) : P D Unit := do
  let k ← killed i
  onlyIf (decide (k ≠ 0)) (kexit (-1))

def preempt (cfg : Config) : P D Unit := onlyIf (decide (cfg.scheduler = .rr)) yield

def trapBody (cfg : Config) (i : Nat) : Trap D → P D Unit
  | .syscall c => do
    exitIfKilled i
    act .intrOn
    syscall c
    exitIfKilled i
  | .timer => do
    clockintr cfg
    exitIfKilled i
    preempt cfg
  | .device o f => do
    announce o f
    exitIfKilled i
  | .fault => do
    setkilled i
    exitIfKilled i

def usertrap (cfg : Config) (t : Trap D) : P D Unit := do
  let me ← myproc
  match me with
  | none => fault
  | some i =>
    trapBody cfg i t
    act .intrOff

def kerneltrap (cfg : Config) : Interrupt D → P D Unit
  | .timer => do
    clockintr cfg
    let me ← myproc
    onlyIf me.isSome (preempt cfg)
    act .intrOn
  | .device o f => do
    announce o f
    act .intrOn

/-- A fork child starts here, still holding the lock of its slot. -/
def forkret : P D Unit := do
  let me ← myproc
  match me with
  | none => fault
  | some i =>
    release (.proc i)
    act .intrOff
    run .user

def nextTrap : P D (Trap D) := act .trap

def user (cfg : Config) : P D Unit := do
  let t ← nextTrap
  usertrap cfg t
  run .user

def dispatch (i : Nat) : Scheduler → P D Unit
  | .pbs => do
    write i (.tally (fun p => { p with nrun := i32 (p.nrun + 1), starving := 0 }))
    write i .running
    act (.setproc (some i))
  | _ => do
    write i .running
    act (.setproc (some i))
    write i (.tally (fun p => { p with nrun := i32 (p.nrun + 1) }))

def switchTo (sched : Scheduler) (i : Nat) : P D Unit := do
  dispatch i sched
  Prog.switch (fun h => .sched h) (fun _ => .proc i)
  act (.setproc none)

def roundRobin : List Nat → P D Unit
  | [] => pure ()
  | i :: is => do
    acquire (.proc i)
    let p ← slot i
    onlyIf (decide (p.state = .runnable)) (switchTo .rr i)
    release (.proc i)
    roundRobin is

/-- Whether `p` takes the place of the candidate `q`, whose dynamic priority is `dp`. -/
def better : Scheduler → Int → Proc → Proc → Bool
  | .pbs, dp, p, q =>
    decide (dp > processDp p ∨ (dp = processDp p ∧ p.ctime < q.ctime) ∨
      (dp = processDp p ∧ p.ctime = q.ctime ∧ p.nrun < q.nrun))
  | _, _, p, q => decide (p.ctime < q.ctime)

/-- The loops of FCFS and PBS: the lock of the candidate is kept. -/
def scan (sched : Scheduler) : List Nat → Option Nat → Int → P D (Option Nat)
  | [], best, _ => pure best
  | i :: is, best, dp => do
    acquire (.proc i)
    let p ← slot i
    if p.state = .runnable then
      match best with
      | none => scan sched is (some i) (processDp p)
      | some k =>
        let q ← slot k
        if better sched dp p q = true then
          release (.proc k)
          scan sched is (some i) (processDp p)
        else
          release (.proc i)
          scan sched is best dp
    else
      release (.proc i)
      scan sched is best dp

def runBest (sched : Scheduler) : P D Unit := do
  let best ← scan sched (List.range nproc) none 101
  match best with
  | none => pure ()
  | some i =>
    switchTo sched i
    release (.proc i)

def schedule : Scheduler → P D Unit
  | .rr => roundRobin (List.range nproc)
  | sched => runBest sched

def scheduler (cfg : Config) : P D Unit := do
  act .intrOn
  schedule cfg.scheduler
  run .scheduler

def body (S : Setup D) : (c : Routine D) → P D (Ret D c)
  | .scheduler => scheduler S.cfg
  | .forkret => forkret
  | .user => user S.cfg
  | .kwait p addr => kwaitBody p addr
  | .acquiresleep l => acquiresleepBody l
  | .await o => awaitBody S o
  | .pause t n => pauseBody t n

def system (S : Setup D) :
    System (Res D) (Ret D) Nat Thread (State D) (Input D) (Interrupt D) String where
  exec := exec S
  body := body S
  trap := interrupt
  handler := kerneltrap S.cfg

abbrev Harts (D : Type) := Threads.World (Res D) (Ret D) Nat Thread (State D)

/-- After `main`: the harts enter their schedulers, and the first process is ready. -/
def boot (obj : Nat → D) : Harts D where
  st := {
    mem := fun lk => match lk with
      | .proc i => if i = initproc then
          ({ Xv6.allocproc true 1 0 procinit with state := .runnable } : Proc) else procinit
      | .wait => fun _ => none
      | .pid => (2 : Int)
      | .ticks => (0 : Nat)
      | .sleep _ => (⟨false, 0⟩ : Sleeplock)
      | .obj o => obj o
    lock := fun _ => none
    cpu := fun _ => ⟨none, 0, false, false⟩
    hist := ⟨fun _ => none, fun i => if i = initproc then 1 else 0, fun _ => (0, 0), [], [],
      fun _ _ => false, fun _ => none, fun _ _ => false, fun _ => [], fun _ => false, []⟩ }
  prog := fun _ => run .scheduler
  ctx := fun x => if x = .proc initproc then .call .forkret (fun _ => .done ()) else .done ()
  cur := .sched

end Programs

end Smp

end Xv6
