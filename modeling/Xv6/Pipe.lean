import Xv6.Fs
import Xv6.Machine
import Xv6.WrapRing

/-! Pipes: processes that read, write and close the two ends of one pipe, each in
sections under its lock. -/

namespace Xv6

open List

namespace Pipes

open WrapRing

def pipesize : Nat := 512

structure Pipe where
  data : Nat → Byte
  nread : BitVec 32
  nwrite : BitVec 32
  readopen : Bool
  writeopen : Bool

def Pipe.opened : Pipe := ⟨fun _ => 0, 0, 0, true, true⟩

inductive Outcome where
  | asleep (i : Nat)
  | done (ret : Int)

/-- What a call does with the lock: `bytes` are stored or delivered, and `woke` says
that the sleepers of the other side were woken. -/
structure Section where
  outcome : Outcome
  pipe : Pipe
  bytes : List Byte
  woke : Bool

def Pipe.store (pi : Pipe) (ch : Byte) : Pipe :=
  { pi with
    data := Function.update pi.data (cell pipesize pi.nwrite) ch
    nwrite := pi.nwrite + 1 }

/-- `pipewrite` from byte `i` on. `killed i` is what the test before that byte finds,
and `src i` the byte, if it can be copied in. -/
def writeLoop (killed : Nat → Bool) (src : Nat → Option Byte) :
    Nat → Nat → Pipe → List Byte → Section
  | 0, i, pi, out => ⟨.done i, pi, out, true⟩
  | rest + 1, i, pi, out =>
    if pi.readopen = false ∨ killed i = true then ⟨.done (-1), pi, out, false⟩
    else if pi.nwrite = pi.nread + BitVec.ofNat 32 pipesize then ⟨.asleep i, pi, out, true⟩
    else
      match src i with
      | none => ⟨.done i, pi, out, true⟩
      | some ch => writeLoop killed src rest (i + 1) (pi.store ch) (out ++ [ch])

def copyLoop (dst : Nat → Bool) : Nat → Nat → Pipe → List Byte → Section
  | 0, i, pi, out => ⟨.done i, pi, out, true⟩
  | rest + 1, i, pi, out =>
    if pi.nread = pi.nwrite then ⟨.done i, pi, out, true⟩
    else if dst i = false then ⟨.done (if i = 0 then -1 else i), pi, out, true⟩
    else copyLoop dst rest (i + 1) { pi with nread := pi.nread + 1 }
      (out ++ [pi.data (cell pipesize pi.nread)])

def piperead (killed : Bool) (dst : Nat → Bool) (n : Nat) (pi : Pipe) : Section :=
  if pi.nread = pi.nwrite ∧ pi.writeopen = true then
    if killed then ⟨.done (-1), pi, [], false⟩ else ⟨.asleep 0, pi, [], false⟩
  else copyLoop dst n 0 pi []

def pipeclose (pi : Pipe) (writable : Bool) : Pipe :=
  if writable then { pi with writeopen := false } else { pi with readopen := false }

/-- Where a process is: in a call, perhaps asleep on `&pi->nwrite` or `&pi->nread`,
or on its way to `pipeclose` after the last reference to a file. -/
inductive Status where
  | out
  | writing (n i : Nat) (asleep : Bool)
  | reading (n : Nat) (asleep : Bool)
  | closing (writable : Bool)
  deriving DecidableEq, Repr

def Status.wakeup : Bool → Status → Status
  | true, .writing n i _ => .writing n i false
  | false, .reading n _ => .reading n false
  | _, st => st

/-- Where a section of `pipewrite` or `piperead` for `n` bytes leaves the process. -/
def Outcome.status (n : Nat) : Bool → Outcome → Status
  | true, .asleep i => .writing n i true
  | false, .asleep _ => .reading n true
  | _, .done _ => .out

variable {P : Type}

structure Return (P : Type) where
  pid : P
  writable : Bool
  n : Nat
  ret : Int

def Outcome.returns (p : P) (writable : Bool) (n : Nat) : Outcome → List (Return P)
  | .asleep _ => []
  | .done ret => [⟨p, writable, n, ret⟩]

/-- The pipe, the reference counts of its two files, the number of descriptors that
each process has for them, and the history: the calls of `kfree`, the bytes that
were stored and delivered, and the returns. -/
structure World (P : Type) where
  pipe : Pipe
  ref : Bool → Nat
  fds : P → Bool → Nat
  status : P → Status
  kfreed : Nat
  accepted : List Byte
  delivered : List Byte
  returns : List (Return P)

inductive Event (P : Type) where
  | write (p : P) (n : Int) (killed : Nat → Bool) (src : Nat → Option Byte)
  | read (p : P) (n : Int) (killed : Bool) (dst : Nat → Bool)
  | rewrite (p : P) (killed : Nat → Bool) (src : Nat → Option Byte)
  | reread (p : P) (killed : Bool) (dst : Nat → Bool)
  | kill (p : P)
  | dup (p q : P) (writable : Bool)
  | close (p : P) (writable : Bool)
  | pipeclose (p : P)

variable [DecidableEq P]

def World.wakeup (w : World P) (writable : Bool) : World P :=
  { w with status := fun q => (w.status q).wakeup writable }

def World.setStatus (w : World P) (p : P) (st : Status) : World P :=
  { w with status := Function.update w.status p st }

def World.setFds (w : World P) (p : P) (writable : Bool) (k : Nat) : World P :=
  { w with fds := Function.update w.fds p (Function.update (w.fds p) writable k) }

def World.setRef (w : World P) (writable : Bool) (k : Nat) : World P :=
  { w with ref := Function.update w.ref writable k }

def World.leave (w : World P) (p : P) (writable : Bool) (n : Nat) (x : Section) : World P :=
  { w with
    pipe := x.pipe
    status := fun q =>
      if q = p then x.outcome.status n writable
      else if x.woke then (w.status q).wakeup (!writable) else w.status q
    accepted := if writable then w.accepted ++ x.bytes else w.accepted
    delivered := if writable then w.delivered else w.delivered ++ x.bytes
    returns := w.returns ++ x.outcome.returns p writable n }

/-- `filedup` and the descriptor of `q`, which is `p` or its child. -/
def World.dup (w : World P) (q : P) (writable : Bool) : World P :=
  (w.setRef writable (w.ref writable + 1)).setFds q writable (w.fds q writable + 1)

def World.close (w : World P) (p : P) (writable : Bool) : World P :=
  let w := (w.setRef writable (w.ref writable - 1)).setFds p writable (w.fds p writable - 1)
  if 0 < w.ref writable then w else w.setStatus p (.closing writable)

def World.pipeclose (w : World P) (p : P) (writable : Bool) : World P :=
  let pi := Pipes.pipeclose w.pipe writable
  { (w.wakeup (!writable)).setStatus p .out with
    pipe := pi
    kfreed := if pi.readopen = false ∧ pi.writeopen = false then w.kfreed + 1 else w.kfreed }

def World.step (w : World P) : Event P → Option (World P)
  | .write p n killed src =>
    if w.status p = .out ∧ 0 < w.fds p true then
      some (w.leave p true n.toNat (writeLoop killed src n.toNat 0 w.pipe []))
    else none
  | .read p n killed dst =>
    if w.status p = .out ∧ 0 < w.fds p false then
      some (w.leave p false n.toNat (piperead killed dst n.toNat w.pipe))
    else none
  | .rewrite p killed src =>
    match w.status p with
    | .writing n i false => some (w.leave p true n (writeLoop killed src (n - i) i w.pipe []))
    | _ => none
  | .reread p killed dst =>
    match w.status p with
    | .reading n false => some (w.leave p false n (piperead killed dst n w.pipe))
    | _ => none
  | .kill p => some (w.setStatus p (((w.status p).wakeup true).wakeup false))
  | .dup p q writable =>
    if w.status p = .out ∧ w.status q = .out ∧ 0 < w.fds p writable then some (w.dup q writable)
    else none
  | .close p writable =>
    if w.status p = .out ∧ 0 < w.fds p writable then some (w.close p writable) else none
  | .pipeclose p =>
    match w.status p with
    | .closing writable => some (w.pipeclose p writable)
    | _ => none

def machine (P : Type) [DecidableEq P] : Machine (World P) (Event P) := ⟨World.step⟩

def boot (p : P) : World P where
  pipe := .opened
  ref := fun _ => 1
  fds := fun q _ => if q = p then 1 else 0
  status := fun _ => .out
  kfreed := 0
  accepted := []
  delivered := []
  returns := []

def Event.Steady : Event P → Prop
  | .write _ _ killed _ => ∀ i j, killed i = killed j
  | .rewrite _ killed _ => ∀ i j, killed i = killed j
  | _ => True

section Sections

variable {pi : Pipe} {buf out : List Byte} {killed : Nat → Bool} {src : Nat → Option Byte}
  {dst : Nat → Bool} {rest i n : Nat}

def Pipe.Holds (pi : Pipe) (buf : List Byte) : Prop :=
  WrapRing.Carries pipesize pi.data pi.nread pi.nwrite buf

theorem dvd_size : pipesize ∣ 2 ^ 32 := by decide

theorem size_lt : pipesize < 2 ^ 32 := by decide

theorem Pipe.Holds.store (h : pi.Holds buf)
    (hroom : pi.nwrite ≠ pi.nread + BitVec.ofNat 32 pipesize) (ch : Byte) :
    (pi.store ch).Holds (buf ++ [ch]) := by
  have hfull := h.full_iff size_lt
  have hfits := h.fits
  have hne : buf.length ≠ pipesize := fun he => hroom (hfull.mpr he)
  exact h.push dvd_size (by omega) ch

/-- A section of `pipewrite`: what it stores, what it leaves as it is, and where it
sleeps. -/
structure Wrote (pi : Pipe) (buf out : List Byte) (x : Section) (more : List Byte) : Prop where
  bytes : x.bytes = out ++ more
  held : x.pipe.Holds (buf ++ more)
  nread : x.pipe.nread = pi.nread
  readopen : x.pipe.readopen = pi.readopen
  writeopen : x.pipe.writeopen = pi.writeopen
  asleep : ∀ k, x.outcome = .asleep k →
    x.pipe.nwrite = x.pipe.nread + BitVec.ofNat 32 pipesize ∧ x.pipe.readopen = true ∧ x.woke = true

theorem Wrote.stop {x : Section} (h : pi.Holds buf) (hb : x.bytes = out) (hp : x.pipe = pi)
    (ha : ∀ k, x.outcome = .asleep k →
      pi.nwrite = pi.nread + BitVec.ofNat 32 pipesize ∧ pi.readopen = true ∧ x.woke = true) :
    Wrote pi buf out x [] := by
  subst hp
  exact ⟨by rw [hb, append_nil], by rwa [append_nil], rfl, rfl, rfl, ha⟩

variable (killed src rest i out) in
theorem writeLoop_wrote (h : pi.Holds buf) :
    ∃ more, Wrote pi buf out (writeLoop killed src rest i pi out) more := by
  induction rest generalizing i pi buf out with
  | zero => exact ⟨[], Wrote.stop h rfl rfl (fun k hk => by cases hk)⟩
  | succ rest ih =>
    rw [writeLoop]
    by_cases hend : pi.readopen = false ∨ killed i = true
    · rw [if_pos hend]
      exact ⟨[], Wrote.stop h rfl rfl (fun k hk => by cases hk)⟩
    rw [if_neg hend]
    rw [not_or, Bool.not_eq_false] at hend
    split_ifs with hfull
    · exact ⟨[], Wrote.stop h rfl rfl (fun _ _ => ⟨hfull, hend.1, rfl⟩)⟩
    cases src i with
    | none => exact ⟨[], Wrote.stop h rfl rfl (fun k hk => by cases hk)⟩
    | some ch =>
      obtain ⟨more, hm⟩ := ih (out ++ [ch]) (i + 1) (h.store hfull ch)
      refine ⟨ch :: more, ?_, ?_, hm.nread, hm.readopen, hm.writeopen, hm.asleep⟩
      · rw [hm.bytes, append_assoc, singleton_append]
      · have := hm.held
        rwa [append_assoc, singleton_append] at this

theorem writeLoop_wakes (hk : ∀ j, killed j = false) (ho : pi.readopen = true) :
    (writeLoop killed src rest i pi out).woke = true := by
  induction rest generalizing i pi out with
  | zero => rfl
  | succ rest ih =>
    have hend : ¬ (pi.readopen = false ∨ killed i = true) := by simp [ho, hk i]
    rw [writeLoop, if_neg hend]
    by_cases hfull : pi.nwrite = pi.nread + BitVec.ofNat 32 pipesize
    · rw [if_pos hfull]
    rw [if_neg hfull]
    cases src i with
    | none => rfl
    | some ch => exact ih ho

theorem writeLoop_quiet (hs : ∀ j k, killed j = killed k)
    (hw : (writeLoop killed src rest i pi out).woke = false) :
    (writeLoop killed src rest i pi out).pipe = pi ∨ pi.readopen = false := by
  by_cases ho : pi.readopen = false
  · exact .inr ho
  rw [Bool.not_eq_false] at ho
  cases hk : killed 0 with
  | false =>
    have hkill : ∀ j, killed j = false := fun j => (hs j 0).trans hk
    rw [writeLoop_wakes hkill ho] at hw
    cases hw
  | true =>
    cases rest with
    | zero => cases hw
    | succ rest =>
      have hend : pi.readopen = false ∨ killed i = true := .inr ((hs i 0).trans hk)
      rw [writeLoop, if_pos hend]
      exact .inl rfl

/-- A section of `piperead`: it delivers the front of what the pipe holds. -/
structure Read (pi : Pipe) (n : Nat) (x : Section) (front back : List Byte) : Prop where
  held : x.pipe.Holds back
  nwrite : x.pipe.nwrite = pi.nwrite
  readopen : x.pipe.readopen = pi.readopen
  writeopen : x.pipe.writeopen = pi.writeopen
  quiet : x.woke = false → x.pipe = pi
  asleep : ∀ k, x.outcome = .asleep k → x.pipe.nread = x.pipe.nwrite ∧ x.pipe.writeopen = true
  zero : x.outcome = .done 0 → 0 < n → x.pipe.nread = x.pipe.nwrite ∧ x.pipe.writeopen = false

variable (dst) in
theorem copyLoop_reads (h : pi.Holds buf) (i rest : Nat) (out : List Byte) :
    ∃ front back, buf = front ++ back ∧ (copyLoop dst rest i pi out).bytes = out ++ front ∧
      (copyLoop dst rest i pi out).pipe =
        { pi with nread := (copyLoop dst rest i pi out).pipe.nread } ∧
      (copyLoop dst rest i pi out).pipe.Holds back ∧
      (copyLoop dst rest i pi out).woke = true ∧
      (∀ k, (copyLoop dst rest i pi out).outcome ≠ .asleep k) ∧
      ((copyLoop dst rest i pi out).outcome = .done 0 →
        i = 0 ∧ (rest = 0 ∨ pi.nread = pi.nwrite)) := by
  induction rest generalizing i pi buf out with
  | zero =>
    refine ⟨[], buf, rfl, (append_nil out).symm, rfl, h, rfl, fun k hk => (by cases hk),
      fun h0 => ⟨?_, .inl rfl⟩⟩
    exact Int.ofNat.inj (Outcome.done.inj h0)
  | succ rest ih =>
    rw [copyLoop]
    by_cases he : pi.nread = pi.nwrite
    · rw [if_pos he]
      refine ⟨[], buf, rfl, (append_nil out).symm, rfl, h, rfl, fun k hk => (by cases hk),
        fun h0 => ⟨?_, .inr he⟩⟩
      exact Int.ofNat.inj (Outcome.done.inj h0)
    rw [if_neg he]
    by_cases hd : dst i = false
    · rw [if_pos hd]
      refine ⟨[], buf, rfl, (append_nil out).symm, rfl, h, rfl, fun k hk => (by cases hk),
        fun h0 => ?_⟩
      by_cases hi : i = 0
      · simp [hi] at h0
      · rw [if_neg hi, Outcome.done.injEq] at h0
        omega
    rw [if_neg hd]
    cases buf with
    | nil => exact absurd ((h.eq_iff size_lt).mpr rfl) he
    | cons ch buf =>
      obtain ⟨front, back, hsplit, hbytes, hpipe, hheld, hwoke, hno, hzero⟩ :=
        ih (show Pipe.Holds { pi with nread := pi.nread + 1 } buf from h.pop) (i + 1)
          (out ++ [pi.data (cell pipesize pi.nread)])
      refine ⟨ch :: front, back, by rw [hsplit]; rfl, ?_, hpipe, hheld, hwoke, hno, ?_⟩
      · rw [hbytes, h.head, append_assoc, singleton_append]
      · intro h0
        have := (hzero h0).1
        omega

variable (dst) in
theorem piperead_reads (h : pi.Holds buf) (killed : Bool) (n : Nat) :
    ∃ front back, buf = front ++ back ∧ (piperead killed dst n pi).bytes = front ∧
      Read pi n (piperead killed dst n pi) front back := by
  rw [piperead]
  by_cases hwait : pi.nread = pi.nwrite ∧ pi.writeopen = true
  · rw [if_pos hwait]
    cases killed with
    | true => exact ⟨[], buf, rfl, rfl, h, rfl, rfl, rfl, fun _ => rfl, fun k hk => (by cases hk),
        fun h0 => (by cases h0)⟩
    | false => exact ⟨[], buf, rfl, rfl, h, rfl, rfl, rfl, fun _ => rfl, fun _ _ => hwait,
        fun h0 => (by cases h0)⟩
  · rw [if_neg hwait]
    obtain ⟨front, back, hsplit, hbytes, hpipe, hheld, hwoke, hno, hzero⟩ :=
      copyLoop_reads dst h 0 n []
    refine ⟨front, back, hsplit, hbytes, hheld, ?_, ?_, ?_, ?_, fun k hk => absurd hk (hno k), ?_⟩
    · rw [hpipe]
    · rw [hpipe]
    · rw [hpipe]
    · intro hq
      rw [hwoke] at hq
      cases hq
    · intro h0 hn
      obtain ⟨-, hr | he⟩ := hzero h0
      · omega
      · have hbuf : buf = [] := (h.eq_iff size_lt).mp he
        rw [hbuf] at hsplit
        obtain ⟨-, hback⟩ := append_eq_nil_iff.mp hsplit.symm
        refine ⟨(hheld.eq_iff size_lt).mpr hback, ?_⟩
        rw [hpipe]
        cases hw : pi.writeopen with
        | false => rfl
        | true => exact absurd ⟨he, hw⟩ hwait

end Sections

end Pipes

end Xv6
