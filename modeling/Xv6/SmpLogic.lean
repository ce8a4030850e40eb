import Xv6.Smp

/-! The logic of the process code. A hart owns what its locks guard, knows which
thread it runs, and keeps account of the wakeups that it owes. -/

namespace Xv6

namespace Smp

open Threads

variable {D : Type}

def rank : Lock → Nat
  | .proc i => i + 1
  | .pid => nproc + 1
  | _ => 0

abbrev View (D : Type) := (lk : Lock) → Option (Guarded D lk)

/-- Whose thread the hart runs, `c->proc`, the process that it may switch to, and
the lock that the process has given up in `sleep`. -/
structure Run where
  cur : Option Nat
  me : Option Nat
  right : Option Nat
  nap : Option Lock

/-- The object whose condition was just tested, the channels whose sleepers have
to be woken, the slots seen awake, those seen not to be zombies and those seen killed,
and whether the last copy failed. -/
structure Duty where
  tested : Option Nat
  owes : Chan → Prop
  woke : Chan → Nat → Prop
  calm : Nat → Prop
  dying : Nat → Prop
  spoilt : Prop

/-- The resources of a hart; `view` is what its locks guard. -/
structure Held (D : Type) extends Run, Duty where
  view : View D
  noff : Nat

/-- A slot that `kfork` is filling: whether its context and its parent are set. -/
structure Child where
  slot : Nat
  ready : Bool
  adopted : Bool

/-- The resources of a thread, which it keeps while it is switched out; `due` is what
its call of `kwait` has come to, until it is returned. -/
structure Kept where
  child : Option Child
  own : List Nat
  due : Option Int

def idle : Kept := ⟨none, [], none⟩

def noView : View D := fun _ => none

def only (lk : Lock) (v : Guarded D lk) : View D := Function.update noView lk (some v)

def noDuty : Duty :=
  ⟨none, fun _ => False, fun _ _ => False, fun _ => False, fun _ => False, False⟩

def quiet (c : Option Nat) : Held D :=
  { noDuty with cur := c, me := c, right := none, nap := none, view := noView, noff := 0 }

def one (c : Option Nat) (lk : Lock) (v : Guarded D lk) : Held D :=
  { (quiet c : Held D) with view := only lk v, noff := 1 }

def AsleepOn (d : Proc) (c : Chan) : Prop := d.state = .sleeping ∧ d.chan = c

namespace Held

def proc (h : Held D) (i : Nat) : Option Proc := h.view (.proc i)

def parents (h : Held D) : Option (Nat → Option Nat) := h.view .wait

def sl (h : Held D) (l : Nat) : Option Sleeplock := h.view (.sleep l)

def obj (h : Held D) (o : Nat) : Option D := h.view (.obj o)

def put (h : Held D) (lk : Lock) (v : Guarded D lk) : Held D :=
  { h with view := Function.update h.view lk (some v) }

/-- A process holds its own lock and has not left yet: it is about to sleep. -/
def Napping (h : Held D) : Prop := ∃ i d, h.cur = some i ∧ h.proc i = some d ∧ d.state = .running

open Classical in
noncomputable def unlock (h : Held D) : Lock → Held D
  | .proc i => { h with
      view := Function.update h.view (.proc i) none
      woke := fun c j => h.woke c j ∨
        (j = i ∧ h.view (guard c) ≠ none ∧ ∀ d, h.proc i = some d → ¬ AsleepOn d c)
      calm := fun j => h.calm j ∨
        (j = i ∧ h.view .wait ≠ none ∧ ∀ d, h.proc i = some d → d.state ≠ .zombie)
      dying := fun j => h.dying j ∨
        (j = i ∧ h.view .wait ≠ none ∧ ∀ d, h.proc i = some d → d.killed ≠ 0) }
  | lk => { h with
      toDuty := noDuty
      view := Function.update h.view lk none
      nap := if h.Napping then some lk else h.nap }

def wrote (h : Held D) (i : Nat) (m : Move) (d : Proc) : Held D :=
  match m with
  | .running => { h.put (.proc i) (m.apply d) with right := some i }
  | .zombie _ => { h.put (.proc i) (m.apply d) with calm := fun j => h.calm j ∧ j ≠ i }
  | _ => h.put (.proc i) (m.apply d)

def owe (h : Held D) (c : Chan) : Held D :=
  { h with owes := fun c' => h.owes c' ∨ c' = c, woke := fun c' j => c' ≠ c ∧ h.woke c' j }

end Held

def Kept.wrote (k : Kept) (i : Nat) (m : Move) (d : Proc) : Kept :=
  match m with
  | .used _ _ => { k with child := some ⟨i, false, false⟩ }
  | .runnable => if d.state = .used then { k with child := none } else k
  | _ => k

def Fresh (c : Option Nat) (child : Option Child) : (lk : Lock) → Guarded D lk → Prop
  | .proc i, d => (c = some i → Proc.state d = .running) ∧
      ∀ x, child = some x → x.slot = i → Proc.state d = .used
  | .wait, f => (∀ i, c = some i → (f : Nat → Option Nat) i ≠ some i) ∧
      ∀ j q, (f : Nat → Option Nat) j = some q → j < nproc ∧ q < nproc
  | _, _ => True

/-- A process may give up a lock in `sleep` when no wakeup for it has been missed. -/
def MayNap (h : Held D) (lk : Lock) : Prop :=
  (∀ c, ¬ h.owes c) ∧
  match lk with
  | .wait => ∃ i f, h.cur = some i ∧ h.parents = some f ∧ ∀ j, f j = some i → h.calm j
  | .sleep l => ∃ v, h.sl l = some v ∧ v.locked = true
  | .obj o => h.tested = some o
  | .ticks => True
  | _ => False

/-- Every sleeper of the channel has been woken; the children that were given to
init are those of a process that has exited. -/
structure Settled (h : Held D) (c : Chan) : Prop where
  nap : h.nap = none
  awake : ∀ i d, h.cur = some i → h.proc i = some d → d.state ≠ .sleeping
  woke : ∀ j < nproc, h.cur ≠ some j → h.woke c j
  gone : c = procChan initproc → ∃ i d, h.cur = some i ∧ h.proc i = some d ∧ d.state = .zombie

def MayUnlock (h : Held D) (lk : Lock) : Prop :=
  0 < h.noff ∧ h.view lk ≠ none ∧
  match lk with
  | .proc i => h.right ≠ some i ∧ (h.cur = none → h.me ≠ some i) ∧
      (h.cur = some i → h.nap = none ∧ ∀ d, h.proc i = some d → d.state = .running) ∧
      ∀ c, h.owes c → h.woke c i ∨ ∀ d, h.proc i = some d → ¬ AsleepOn d c
  | lk => (∀ c, h.owes c → Settled h c) ∧ (h.Napping → MayNap h lk)

def MayWrite (h : Held D) (k : Kept) (i : Nat) (d : Proc) : Move → Prop
  | .tally _ => True
  | .runnable => (d.state = .sleeping ∧ h.cur ≠ some i) ∨
      (h.cur = some i ∧ d.state = .running ∧ h.nap = none) ∨
      (k.child = some ⟨i, true, true⟩ ∧ d.state = .used)
  | .running => h.cur = none ∧ h.me = none ∧ h.right = none ∧ d.state = .runnable ∧ i < nproc
  | .sleeping c => h.cur = some i ∧ d.state = .running ∧ h.nap = some (guard c)
  | .nochan => h.cur = some i ∧ d.state = .running ∧ h.nap = none
  | .zombie _ => h.cur = some i ∧ d.state = .running ∧ i ≠ initproc ∧ h.nap = none ∧ k = idle ∧
      ∃ f, h.parents = some f ∧ (∀ j, f j ≠ some i) ∧ ∀ q, f i = some q → h.woke (procChan q) q
  | .used _ _ => d.state = .unused ∧ k.child = none ∧ i < nproc ∧
      ∃ p, h.cur = some p ∧ h.proc p = none

def Pre (h : Held D) (k : Kept) : Act D → Prop
  | .popOff => 0 < h.noff ∧ (h.noff = 1 → { h with noff := 0 } = quiet h.cur)
  | .lock lk => 0 < h.noff ∧ h.view lk = none ∧ ∀ lk', h.view lk' ≠ none → rank lk' < rank lk
  | .unlock lk => MayUnlock h lk
  | .setproc v => h.cur = none ∧ h.right = v
  | .intrOn => h.noff = 0
  | .read lk => h.view lk ≠ none
  | .peek lk => lk = .ticks ∨ ∃ i, lk = .proc i ∧ h.cur = some i
  | .write i m => ∃ d, h.proc i = some d ∧ MayWrite h k i d m
  | .adopt np i => h.cur = some i ∧ h.proc i = none ∧ h.parents ≠ none ∧
      ∃ r, k.child = some ⟨np, r, false⟩
  | .orphan j => ∃ i f, h.cur = some i ∧ i ≠ initproc ∧ h.parents = some f ∧ f j = some i ∧ k = idle
  | .setNextpid _ => h.view .pid ≠ none
  | .tick => h.view .ticks ≠ none
  | .takeSleep l _ => (∃ i, h.cur = some i ∧ h.proc i = none) ∧ ∃ v, h.sl l = some v ∧ v.locked = false
  | .dropSleep l => (∃ i, h.cur = some i ∧ h.proc i = none) ∧ h.sl l ≠ none ∧ l ∈ k.own
  | .test o => (∃ i, h.cur = some i) ∧ h.obj o ≠ none
  | .put o _ => h.obj o ≠ none
  | .free i => h.proc i ≠ none ∧ ∃ r, k.child = some ⟨i, r, false⟩
  | .reap i pid status => ∃ me d f, h.cur = some me ∧ h.proc i = some d ∧ d.state = .zombie ∧
      h.parents = some f ∧ f i = some me ∧ pid = d.pid ∧ k.due = none ∧
      ∀ st, status = some st → st = d.xstate
  | .waitFailed => ∃ i f, h.cur = some i ∧ h.proc i = none ∧ h.parents = some f ∧ k.due = none ∧
      (h.spoilt ∨ h.dying i ∨ ∀ j, f j ≠ some i)
  | .copyout => (∃ i, h.cur = some i ∧ h.proc i = none) ∧ h.parents ≠ none
  | .answer v => (∃ i, h.cur = some i ∧ h.proc i = none) ∧ k.due = some v
  | .panic msg => msg = "init exiting"
  | _ => True

/-- The resources after a step, when it leaves those of the thread alone. -/
def Post (S : Setup D) (h : Held D) (k : Kept) : (a : Act D) → Res D a → Held D → Kept → Prop
  | .pushOff, _, h', k' => h' = { h with noff := h.noff + 1 } ∧ k' = k
  | .popOff, _, h', k' => h' = { h with noff := h.noff - 1 } ∧ k' = k
  | .lock lk, _, h', k' => ∃ v, Fresh h.cur k.child lk v ∧ h' = h.put lk v ∧ k' = k
  | .unlock lk, _, h', k' => h' = h.unlock lk ∧ k' = k
  | .holding lk, r, h', k' => (r = true ↔ h.view lk ≠ none) ∧ h' = h ∧ k' = k
  | .mycpu, r, h', k' => (Hart.proc r = h.me ∧ Hart.noff r = h.noff ∧
      (0 < h.noff → Hart.intr r = false)) ∧ h' = h ∧ k' = k
  | .setproc v, _, h', k' => h' = { h with me := v } ∧ k' = k
  | .read lk, r, h', k' => h.view lk = some r ∧ h' = h ∧ k' = k
  | .write i m, _, h', k' => ∃ d, h.proc i = some d ∧ h' = h.wrote i m d ∧ k' = k.wrote i m d
  | .adopt np i, _, h', k' => ∃ f c, h.parents = some f ∧ k.child = some c ∧
      h' = h.put .wait (Function.update f np (some i)) ∧
      k' = { k with child := some { c with adopted := true } }
  | .orphan j, _, h', k' => ∃ f, h.parents = some f ∧
      h' = (h.put .wait (Function.update f j (some initproc))).owe (procChan initproc) ∧ k' = k
  | .setNextpid n, _, h', k' => h' = h.put .pid n ∧ k' = k
  | .tick, _, h', k' => ∃ n : Nat, h' = h.put .ticks n ∧ k' = k
  | .takeSleep l pid, _, h', k' =>
      h' = h.put (.sleep l) (⟨true, pid⟩ : Sleeplock) ∧ k' = { k with own := l :: k.own }
  | .dropSleep l, _, h', k' =>
      h' = (h.put (.sleep l) (⟨false, 0⟩ : Sleeplock)).owe (sleepChan l) ∧
      k' = { k with own := k.own.erase l }
  | .test o, r, h', k' => h.obj o = some r ∧ h' = { h with tested := some o } ∧ k' = k
  | .put o f, _, h', k' => ∃ d, h.obj o = some d ∧ k' = k ∧
      h' = if S.cond o d = false ∧ S.cond o (f d) = true then
          { h.put (.obj o) (f d) with tested := none }.owe (objChan o)
        else { h.put (.obj o) (f d) with tested := none }
  | .free i, _, h', k' => ∃ d, h.proc i = some d ∧ h' = h.put (.proc i) (Xv6.freeproc d) ∧
      k' = { k with child := none }
  | .reap i pid _, _, h', k' => ∃ d f, h.proc i = some d ∧ h.parents = some f ∧
      h' = (h.put (.proc i) (Xv6.freeproc d)).put .wait (Function.update f i none) ∧
      k' = { k with due := some pid }
  | .waitFailed, _, h', k' => h' = { h with spoilt := False } ∧ k' = { k with due := some (-1) }
  | .copyout, r, h', k' => h' = { h with spoilt := r = false } ∧ k' = k
  | .answer _, _, h', k' => h' = h ∧ k' = { k with due := none }
  | .panic _, _, _, _ => False
  | _, _, h', k' => h' = h ∧ k' = k

def Need : Routine D → Held D → Kept → Prop
  | .scheduler, h, k => h = quiet none ∧ k = idle
  | .forkret, h, k => ∃ i d, i < nproc ∧ Proc.state d = .running ∧
      h = one (some i) (.proc i) d ∧ k = idle
  | .user, h, k => ∃ i < nproc, h = quiet (some i) ∧ k = idle
  | .kwait p _, h, k => k.due = none ∧
      ∃ f, p < nproc ∧ h = one (some p) .wait f ∧ Fresh (some p) none .wait f
  | .acquiresleep l, h, _ => ∃ i v, h = one (some i) (.sleep l) v
  | .await o, h, _ => ∃ i v, h = one (some i) (.obj o) v
  | .pause _ _, h, _ => ∃ i v, h = one (some i) .ticks v

def Give (S : Setup D) : (c : Routine D) → Held D → Kept → Ret D c → Held D → Kept → Prop
  | .kwait _ _, h, k, r, h', k' => h' = quiet h.cur ∧ k' = { k with due := some r }
  | .acquiresleep l, h, k, _, h', k' => ∃ v : Sleeplock, v.locked = false ∧
      h' = one h.cur (.sleep l) v ∧ k' = k
  | .await o, h, k, _, h', k' => ∃ d, S.cond o d = true ∧
      h' = { one h.cur (.obj o) d with tested := some o } ∧ k' = k
  | .pause _ _, h, k, _, h', k' => h' = quiet h.cur ∧ k' = k
  | _, _, _, _, _, _ => False

/-- A hart switches with the lock of the process, and with no other. -/
inductive Leave : (Nat → Thread) → (Nat → Thread) → Held D → Prop
  | run (i : Nat) (d : Proc) (hd : d.state = .running) : Leave .sched (fun _ => .proc i)
        { one none (.proc i) d with me := some i, right := some i }
  | stop (i : Nat) (d : Proc) (nap : Option Lock) (hd : d.state ≠ .running)
      (hn : d.state = .sleeping ∨ nap = none) :
      Leave (fun _ => .proc i) .sched { one (some i) (.proc i) d with nap := nap }

inductive Back : Held D → Held D → Prop
  | sched {h : Held D} (i : Nat) (d : Proc) (hc : h.cur = none) (hm : h.me = some i)
      (hd : d.state ≠ .running) : Back h { one none (.proc i) d with me := some i }
  | proc {h : Held D} (i : Nat) (d : Proc) (hc : h.cur = some i) (hd : d.state = .running)
      (hz : ∀ e, h.proc i = some e → e.state ≠ .zombie) : Back h (one (some i) (.proc i) d)

def logic (S : Setup D) : Logic (Res D) (Ret D) Nat Thread (Held D) Kept where
  pre a h k := Pre h k a
  post a h k r h' k' := Post S h k a r h' k'
  need := Need
  give := Give S
  leave save load h _ := Leave save load h
  back := Back
  setup x c h k := ∃ i d, x = .proc i ∧ c = .forkret ∧ i < nproc ∧ h.proc i = some d ∧
    d.state = .used ∧ k.child = some ⟨i, false, false⟩
  ready x _ h k h' k' := h' = h ∧ ∀ i, x = .proc i → k' = { k with child := some ⟨i, true, false⟩ }

end Smp

end Xv6
