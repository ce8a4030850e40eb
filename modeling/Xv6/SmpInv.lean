import Xv6.SmpRoutines

/-! The invariant of the process code: what the locks, the harts, the slots, the
sleepers and the history have to do with the resources of the harts and threads. -/

namespace Xv6

namespace Smp

open Threads Option
open Function (comp_update update update_apply update_eq_self update_of_ne update_self)

variable {D : Type}

abbrev Resources (D : Type) := Ghost Nat Thread (Held D) Kept

def runs (g : Resources D) (p : Nat) : Run := (g.held p).toRun

def duties (g : Resources D) (p : Nat) : Duty := (g.held p).toDuty

def views (g : Resources D) (p : Nat) : View D := (g.held p).view

def states (s : State D) (i : Nat) : ProcState := (s.proc i).state

theorem of_update {α β : Type} [DecidableEq α] {f : α → β} {a b : α} {v : β} (P : β → Prop)
    (h : P (update f a v b)) (ha : P v → P (f a)) : P (f b) := by
  rw [update_apply] at h
  split_ifs at h with hb
  · exact hb ▸ ha h
  · exact h

structure CpuOk (c : Hart) (h : Held D) : Prop where
  proc : c.proc = h.me
  noff : c.noff = h.noff
  intr : c.intr = true → h.noff = 0
  quiet : h.noff = 0 → h = quiet h.cur

structure LockInv (lock : Lock → Option Nat) (mem : (lk : Lock) → Guarded D lk)
    (view : Nat → View D) : Prop where
  owner : ∀ p lk, lock lk = some p ↔ view p lk ≠ none
  value : ∀ p lk v, view p lk = some v → mem lk = v

def Run.On (r : Run) (i : Nat) : Prop := r.cur = some i ∨ r.me = some i ∨ r.right = some i

/-- Where a hart is in the cycle of dispatching, running and leaving a process;
`own` are the slots whose lock it holds. -/
inductive Phase (own : Nat → Prop) (st : Nat → ProcState) : Run → Prop
  | idle : Phase own st ⟨none, none, none, none⟩
  | picked (i : Nat) (ho : own i) (hs : st i = .running) : Phase own st ⟨none, none, some i, none⟩
  | sent (i : Nat) (ho : own i) (hs : st i = .running) : Phase own st ⟨none, some i, some i, none⟩
  | back (i : Nat) (ho : own i) (hs : st i ≠ .running) : Phase own st ⟨none, some i, none, none⟩
  | inside (i : Nat) (nap : Option Lock) (hi : i < nproc) (hs : st i ≠ .unused ∧ st i ≠ .used)
      (ho : ¬ own i → st i = .running ∧ nap = none)
      (hn : nap ≠ none → st i = .running ∨ st i = .sleeping) :
      Phase own st ⟨some i, some i, none, nap⟩

def Alive (s : ProcState) : Prop := s = .sleeping ∨ s = .runnable ∨ s = .running

/-- A context that was left by process `i`, which can be resumed. -/
def Resumes (h : Held D) (i : Nat) : Prop :=
  h.cur = some i ∧ ∀ e, h.proc i = some e → e.state ≠ .zombie

def thread (p : Nat) : Option Nat → Thread
  | none => .sched p
  | some i => .proc i

structure RunInv (lock : Lock → Option Nat) (st : Nat → ProcState) (on : Nat → Option Nat)
    (run : Nat → Run) (parked : Thread → Held D) (cur : Nat → Thread) : Prop where
  phase : ∀ p, Phase (fun i => lock (.proc i) = some p) st (run p)
  unique : ∀ p q i, (run p).On i → (run q).On i → p = q
  here : ∀ p, cur p = thread p (run p).cur
  ran : ∀ i p, on i = some p ↔ st i = .running ∧ ((run p).cur = some i ∨ (run p).right = some i)
  running : ∀ i, st i = .running → on i ≠ none
  table : ∀ i, nproc ≤ i → st i = .unused
  sched : ∀ p i, (run p).cur = some i →
    (parked (.sched p)).cur = none ∧ (parked (.sched p)).me = some i
  left : ∀ i, Alive (st i) → (∀ q, (run q).cur ≠ some i) → Resumes (parked (.proc i)) i

/-- The process tree, and the slots that `kfork` is filling. -/
structure Kids (st : Nat → ProcState) (parent : Nat → Option Nat) (kept : Thread → Kept)
    (parked : Thread → Held D) : Prop where
  child : ∀ x c, (kept x).child = some c → st c.slot = .used
  adopted : ∀ q c, (kept (.proc q)).child = some c →
    parent c.slot = if c.adopted then some q else none
  ready : ∀ x c, (kept x).child = some c → c.ready = true → Resumes (parked (.proc c.slot)) c.slot
  unique : ∀ x y c c', (kept x).child = some c → (kept y).child = some c' → c.slot = c'.slot → x = y
  alive : ∀ j q, parent j = some q → Alive (st q) ∧ q ≠ j ∧ st j ≠ .unused
  orphan : ∀ j, st j ≠ .unused → st j ≠ .used → j ≠ initproc → parent j ≠ none
  init : Alive (st initproc) ∧ parent initproc = none
  dead : ∀ j, ¬ Alive (st j) → kept (.proc j) = idle
  sched : ∀ p, kept (.sched p) = idle

/-- Process `i` sleeps on the channel, or is on its way and has given up the lock. -/
def Asleep (proc : Nat → Proc) (run : Nat → Run) (i : Nat) (c : Chan) : Prop :=
  AsleepOn (proc i) c ∨ ∃ p, (run p).cur = some i ∧ (run p).nap = some (guard c)

/-- A hart has still to wake process `i` for a change behind the channel. -/
def Waking (duty : Nat → Duty) (i : Nat) (c : Chan) : Prop :=
  ∃ p, (duty p).owes c ∧ ¬ (duty p).woke c i

structure SleepInv (lock : Lock → Option Nat) (proc : Nat → Proc) (parent : Nat → Option Nat)
    (sl : Nat → Sleeplock) (hit : Nat → Nat → Bool) (poster : Lock → Option Nat)
    (passed : Lock → Nat → Bool) (run : Nat → Run) (duty : Nat → Duty) : Prop where
  woke : ∀ p c i, (duty p).woke c i → lock (guard c) = some p ∧ ¬ Asleep proc run i c
  owes : ∀ p c, (duty p).owes c → lock (guard c) = some p ∧ poster (guard c) = some p ∧
    ∀ i, passed (guard c) i = true → (duty p).woke c i
  calm : ∀ p j, (duty p).calm j → lock .wait = some p ∧ (proc j).state ≠ .zombie
  tested : ∀ p o, (duty p).tested = some o → lock (.obj o) = some p ∧
    ∃ i, (run p).cur = some i ∧ hit i o = false
  wait : ∀ i j, Asleep proc run i (procChan i) → parent j = some i → (proc j).state = .zombie →
    Waking duty i (procChan i)
  sleep : ∀ i l, Asleep proc run i (sleepChan l) → (sl l).locked = false →
    Waking duty i (sleepChan l)
  obj : ∀ i o, Asleep proc run i (objChan o) → hit i o = true → Waking duty i (objChan o)

structure HoldInv (sl : Nat → Sleeplock) (inside : Nat → List Nat) (kept : Thread → Kept) :
    Prop where
  own : ∀ i l, l ∈ (kept (.proc i)).own → inside l = [i]
  nodup : ∀ i, (kept (.proc i)).own.Nodup
  locked : ∀ l, (sl l).locked = true → ∃ i, inside l = [i]
  free : ∀ l, (sl l).locked = false → inside l = []

def Waited.child? : Waited → Option (Nat × Nat)
  | .reaped _ _ _ child _ => some child
  | .failed .. => none

def reaped (waits : List Waited) : List (Nat × Nat) := waits.filterMap Waited.child?

/-- The children of a process that exits are given away before it is a zombie. -/
def Gone (inc : Nat → Nat) (exits : List Exit) (run : Nat → Run) (duty : Nat → Duty)
    (c : Nat × Nat) : Prop :=
  (∃ e ∈ exits, (e.slot, e.inc) = c) ∨
  ∃ p, (run p).cur = some c.1 ∧ inc c.1 = c.2 ∧ (duty p).owes (procChan initproc)

def Waited.Good (exits : List Exit) : Waited → Prop
  | .reaped caller ret status child creator =>
    (∃ e ∈ exits, (e.slot, e.inc) = child ∧ e.pid = ret ∧ ∀ st, status = some st → st = e.status) ∧
    (caller = creator ∨ (caller.1 = initproc ∧ ∃ e ∈ exits, (e.slot, e.inc) = creator))
  | .failed _ copy killed kids => copy = true ∨ killed = true ∨ kids = false

structure Records (proc : Nat → Proc) (parent : Nat → Option Nat) (inc : Nat → Nat)
    (creator : Nat → Nat × Nat) (exits : List Exit) (waits : List Waited) (run : Nat → Run)
    (duty : Nat → Duty) : Prop where
  past : ∀ e ∈ exits, e.inc ≤ inc e.slot
  ended : ∀ e ∈ exits, e.inc = inc e.slot →
    (proc e.slot).state = .zombie ∨ (proc e.slot).state = .unused
  once : (exits.map (fun e => (e.slot, e.inc))).Nodup
  zombie : ∀ j, (proc j).state = .zombie →
    ⟨j, inc j, (proc j).pid, (proc j).xstate⟩ ∈ exits ∧ (j, inc j) ∉ reaped waits
  waiting : ∀ e ∈ exits, (e.slot, e.inc) ∉ reaped waits →
    (proc e.slot).state = .zombie ∧ e.inc = inc e.slot
  single : (reaped waits).Nodup
  good : ∀ x ∈ waits, x.Good exits
  born : ∀ j q, parent j = some q → creator j = (q, inc q) ∨
    (q = initproc ∧ Gone inc exits run duty (creator j))

structure Inv (s : State D) (g : Resources D) (cur : Nat → Thread) : Prop where
  cpu : ∀ p, CpuOk (s.cpu p) (g.held p)
  lock : LockInv s.lock s.mem (views g)
  run : RunInv s.lock (states s) s.hist.on (runs g) g.parked cur
  kids : Kids (states s) s.parent g.kept g.parked
  sleep : SleepInv s.lock s.proc s.parent s.sl s.hist.hit s.hist.poster s.hist.passed (runs g)
    (duties g)
  hold : HoldInv s.sl s.hist.inside g.kept
  recs : Records s.proc s.parent s.hist.inc s.hist.creator s.hist.exits s.hist.waits (runs g)
    (duties g)

section Projections

variable (g : Resources D) (p : Nat) (x : Thread) (h : Held D) (k : Kept) (s : State D)

theorem runs_set : runs (g.set p x h k) = update (runs g) p h.toRun :=
  comp_update Held.toRun g.held p h

theorem duties_set : duties (g.set p x h k) = update (duties g) p h.toDuty :=
  comp_update Held.toDuty g.held p h

theorem views_set : views (g.set p x h k) = update (views g) p h.view :=
  comp_update Held.view g.held p h

variable {g p h}

theorem runs_same (hr : h.toRun = (g.held p).toRun) : runs (g.set p x h k) = runs g := by
  rw [runs_set, hr]
  exact update_eq_self p (runs g)

theorem duties_same (hd : h.toDuty = (g.held p).toDuty) : duties (g.set p x h k) = duties g := by
  rw [duties_set, hd]
  exact update_eq_self p (duties g)

theorem views_same (hv : h.view = (g.held p).view) : views (g.set p x h k) = views g := by
  rw [views_set, hv]
  exact update_eq_self p (views g)

variable {x k}

theorem kept_same (hk : k = g.kept x) : (g.set p x h k).kept = g.kept := by
  rw [hk]
  exact update_eq_self x g.kept

theorem State.proc_set_proc (i : Nat) (d : Proc) :
    (s.set (.proc i) d).proc = update s.proc i d := by
  funext j
  by_cases hj : j = i
  · subst hj
    simp [State.proc, State.set]
  · have hne : Lock.proc j ≠ .proc i := fun he => hj (Lock.proc.inj he)
    simp [State.proc, State.set, hj, hne]

theorem State.proc_set (lk : Lock) (v : Guarded D lk) (hlk : ∀ i, lk ≠ .proc i) :
    (s.set lk v).proc = s.proc := by
  funext j
  simp [State.proc, State.set, (hlk j).symm]

theorem State.parent_set_wait (f : Nat → Option Nat) : (s.set .wait f).parent = f := by
  funext j
  simp [State.parent, State.set]

theorem State.parent_set (lk : Lock) (v : Guarded D lk) (hlk : lk ≠ .wait) :
    (s.set lk v).parent = s.parent := by
  funext j
  simp [State.parent, State.set, hlk.symm]

theorem State.sl_set_sleep (l : Nat) (v : Sleeplock) :
    (s.set (.sleep l) v).sl = update s.sl l v := by
  funext j
  by_cases hj : j = l
  · subst hj
    simp [State.sl, State.set]
  · have hne : Lock.sleep j ≠ .sleep l := fun he => hj (Lock.sleep.inj he)
    simp [State.sl, State.set, hj, hne]

theorem State.sl_set (lk : Lock) (v : Guarded D lk) (hlk : ∀ l, lk ≠ .sleep l) :
    (s.set lk v).sl = s.sl := by
  funext j
  simp [State.sl, State.set, (hlk j).symm]

theorem states_update (i : Nat) (d : Proc) {t : State D} (ht : t.proc = update s.proc i d) :
    states t = update (states s) i d.state := by
  have hcomp := comp_update Proc.state s.proc i d
  rw [← ht] at hcomp
  exact hcomp

end Projections

section Basic

variable {c : Hart} {h : Held D} {lock : Lock → Option Nat} {mem : (lk : Lock) → Guarded D lk}
  {view : Nat → View D} {p : Nat} {lk : Lock}

theorem CpuOk.pos (hc : CpuOk c h) (hv : h.view lk ≠ none) : 0 < h.noff := by
  refine Nat.pos_of_ne_zero (fun h0 => hv ?_)
  rw [hc.quiet h0]
  rfl

theorem CpuOk.keep (hc : CpuOk c h) {h' : Held D} (hp : 0 < h.noff) (hn : h'.noff = h.noff)
    (hm : h'.me = h.me) : CpuOk c h' := by
  refine ⟨hc.proc.trans hm.symm, hc.noff.trans hn.symm, fun hi => ?_, fun h0 => ?_⟩
  · have := hc.intr hi
    omega
  · omega

theorem LockInv.set (hl : LockInv lock mem view) {mem' : (lk : Lock) → Guarded D lk}
    {o : Option Nat} {v : Option (Guarded D lk)} (hother : ∀ q, q ≠ p → view q lk = none)
    (ho : ∀ q, o = some q ↔ q = p ∧ v ≠ none) (hv : ∀ w, v = some w → mem' lk = w)
    (hmem : ∀ lk', lk' ≠ lk → mem' lk' = mem lk') :
    LockInv (update lock lk o) mem' (update view p (update (view p) lk v)) := by
  constructor
  case owner =>
    intro q lk'
    by_cases hlk : lk' = lk
    · subst hlk
      rw [update_self, ho q]
      by_cases hq : q = p
      · subst hq
        simp
      · simp [hq, hother q hq]
    · rw [update_of_ne hlk, hl.owner q lk']
      by_cases hq : q = p
      · subst hq
        rw [update_self, update_of_ne hlk]
      · rw [update_of_ne hq]
  case value =>
    intro q lk' w hw
    rw [update_apply] at hw
    by_cases hlk : lk' = lk
    · subst hlk
      split_ifs at hw with hq
      · exact hv w (by simpa using hw)
      · simp [hother q hq] at hw
    · rw [hmem lk' hlk]
      split_ifs at hw with hq
      · subst hq
        exact hl.value q lk' w (by rwa [update_of_ne hlk] at hw)
      · exact hl.value q lk' w hw

theorem LockInv.other (hl : LockInv lock mem view) (hv : view p lk ≠ none) (q : Nat) (hq : q ≠ p) :
    view q lk = none := by
  by_contra hv'
  have h1 := (hl.owner q lk).mpr hv'
  have h2 := (hl.owner p lk).mpr hv
  exact hq (some.inj (h1.symm.trans h2))

theorem LockInv.write (hl : LockInv lock mem view) {v : Guarded D lk} (hv : view p lk ≠ none) :
    LockInv lock (update mem lk v) (update view p (update (view p) lk (some v))) := by
  have hp := (hl.owner p lk).mpr hv
  have hset : LockInv (update lock lk (some p)) (update mem lk v)
      (update view p (update (view p) lk (some v))) := by
    refine hl.set (hl.other hv) (fun q => by simp [eq_comm]) (fun w hw => ?_)
      (fun lk' hlk => update_of_ne hlk _ _)
    rw [update_self]
    exact some.inj hw
  rwa [← hp, update_eq_self] at hset

theorem LockInv.acquire (hl : LockInv lock mem view) (hf : lock lk = none) :
    LockInv (update lock lk (some p)) mem (update view p (update (view p) lk (some (mem lk)))) := by
  refine hl.set (fun q _ => ?_) (fun q => by simp [eq_comm]) (fun w hw => some.inj hw)
    (fun _ _ => rfl)
  by_contra hv
  have hown := (hl.owner q lk).mpr hv
  rw [hf] at hown
  simp at hown

theorem LockInv.release (hl : LockInv lock mem view) (hv : view p lk ≠ none) :
    LockInv (update lock lk none) mem (update view p (update (view p) lk none)) :=
  hl.set (hl.other hv) (fun q => by simp) (fun w hw => by simp at hw) (fun _ _ => rfl)

end Basic

end Smp

end Xv6
