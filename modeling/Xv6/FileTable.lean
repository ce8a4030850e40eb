import Xv6.Pipe
import Xv6.Proc
import Xv6.Sections

/-! The file table, the descriptors, the current directories and the pipes, and what
the system calls do to them in one step. What goes through a pipe is not their
concern. -/

namespace Xv6

open Fallible CString FsM

def nfile : Nat := 100

def nofile : Nat := 16

def ndev : Int := 10

def oRdonly : BitVec 32 := 0x000

def oWronly : BitVec 32 := 0x001

def oRdwr : BitVec 32 := 0x002

def oCreate : BitVec 32 := 0x200

def oTrunc : BitVec 32 := 0x400

abbrev ProcId := Fin nproc

abbrev FileId := Fin nfile

inductive FdType where
  | none
  | pipe
  | inode
  | device
deriving DecidableEq

structure File where
  type : FdType := .none
  ref : Nat := 0
  readable : Bool := false
  writable : Bool := false
  pipe : Nat := 0
  ip : Nat := 0
  off : Nat := 0
  major : Int := 0

def File.opened (ff : File) (ip : Nat) (d : Dinode) (omode : BitVec 32) : File :=
  let ff := if d.type = tDevice then { ff with type := .device, major := d.major }
    else { ff with type := .inode, off := 0 }
  { ff with
    ip := ip
    readable := omode &&& oWronly = 0
    writable := omode &&& oWronly ≠ 0 ∨ omode &&& oRdwr ≠ 0 }

/-- A pipe is known by the page that `kalloc` gave for it. -/
structure Sys where
  fs : Fs
  pipe : Nat → Option Pipes.Pipe
  ftable : FileId → File
  cwd : ProcId → Option Nat
  ofile : ProcId → Nat → Option FileId

abbrev SysM := StateT Sys (Except String)

/-- The result of `sys_open` once it has an inode: refused, no entry free and
with it what `fileclose` has found to put, or a descriptor. -/
inductive Opened where
  | refused
  | full (r : Option Nat)
  | opened (fd : Nat)

inductive PipeFiles where
  | bad (r0 r1 : Option Nat)
  | made (f0 f1 : FileId)

namespace SysM

def onFs {α : Type} (m : FsM α) : SysM α := fun s =>
  match m s.fs with
  | .ok (a, t) => .ok (a, { s with fs := t })
  | .error e => .error e

def setFile (f : FileId) (ff : File) : SysM Unit :=
  modify (fun s => { s with ftable := Function.update s.ftable f ff })

def setFd (p : ProcId) (fd : Nat) (f : Option FileId) : SysM Unit :=
  modify (fun s => { s with
    ofile := Function.update s.ofile p (Function.update (s.ofile p) fd f) })

def setCwd (p : ProcId) (ip : Option Nat) : SysM Unit :=
  modify (fun s => { s with cwd := Function.update s.cwd p ip })

def beginOp : SysM Unit :=
  onFs (modify (fun s => { s with outstanding := s.outstanding + 1 }))

def endOp : SysM Unit :=
  onFs (modify (fun s => { s with outstanding := s.outstanding - 1 }))

def filealloc : SysM (Option FileId) := do
  let s ← get
  match (List.finRange nfile).find? (fun f => (s.ftable f).ref = 0) with
  | some f =>
    setFile f { s.ftable f with ref := 1 }
    pure (some f)
  | none => pure none

def filedup (f : FileId) : SysM Unit := do
  let s ← get
  if (s.ftable f).ref < 1 then throw "filedup"
  else setFile f { s.ftable f with ref := (s.ftable f).ref + 1 }

/-- With its second end a pipe is freed. -/
def pipeclose (page : Nat) (writable : Bool) : SysM Unit :=
  modify (fun s => { s with
    pipe := Function.update s.pipe page ((s.pipe page).bind (fun pi =>
      let pi := Pipes.pipeclose pi writable
      if pi.readopen = false ∧ pi.writeopen = false then none else some pi)) })

/-- `fileclose` under the lock of the table, and `pipeclose`: nobody else can reach the
end of the pipe any more. The inode is to be put. -/
def closeFile (f : FileId) : SysM (Option Nat) := do
  let s ← get
  if (s.ftable f).ref < 1 then throw "fileclose"
  else if (s.ftable f).ref - 1 > 0 then
    setFile f { s.ftable f with ref := (s.ftable f).ref - 1 }
    pure none
  else
    setFile f { s.ftable f with ref := 0, type := .none }
    if (s.ftable f).type = .inode ∨ (s.ftable f).type = .device then pure (some (s.ftable f).ip)
    else if (s.ftable f).type = .pipe then
      pipeclose (s.ftable f).pipe (s.ftable f).writable
      pure none
    else pure none

def fdalloc (p : ProcId) (f : FileId) : SysM (Option Nat) := do
  let s ← get
  match (List.range nofile).find? (fun fd => s.ofile p fd = none) with
  | some fd =>
    setFd p fd (some f)
    pure (some fd)
  | none => pure none

def argfd (p : ProcId) (fd : Nat) : SysM (Option FileId) := do
  let s ← get
  if fd < nofile then pure (s.ofile p fd) else pure none

def dup (p : ProcId) (fd : Nat) : SysM (Option Nat) := do
  match ← argfd p fd with
  | none => pure none
  | some f =>
    match ← fdalloc p f with
    | none => pure none
    | some fd' =>
      filedup f
      pure (some fd')

def takeFd (p : ProcId) (fd : Nat) : SysM (Option FileId) := do
  let r ← argfd p fd
  setFd p fd none
  pure r

def idupCwd (p : ProcId) : SysM Nat := do
  let s ← get
  match s.cwd p with
  | none => throw "no cwd"
  | some ip =>
    onFs (idup ip)
    pure ip

def swapCwd (p : ProcId) (next : Option Nat) : SysM Nat := do
  let s ← get
  match s.cwd p with
  | none => throw "no cwd"
  | some ip =>
    setCwd p next
    pure ip

def openFile (f : FileId) (ip : Nat) (d : Dinode) (omode : BitVec 32) : SysM Unit := do
  let s ← get
  setFile f ((s.ftable f).opened ip d omode)

def truncAt (ip : Nat) (d : Dinode) (omode : BitVec 32) : FsM Unit :=
  if omode &&& oTrunc ≠ 0 ∧ d.type = tFile then itrunc ip else pure ()

/-- `sys_open` from the lock of the inode to its release. With `O_CREATE` the
lock has been held since `create`. -/
def openAt (p : ProcId) (ip : Nat) (omode : BitVec 32) : SysM Opened := do
  onFs (ilock ip)
  let d ← onFs (inode ip)
  if omode &&& oCreate = 0 ∧ d.type = tDir ∧ omode ≠ oRdonly then
    onFs (iunlock ip)
    pure .refused
  else if d.type = tDevice ∧ (d.major < 0 ∨ ndev ≤ d.major) then
    onFs (iunlock ip)
    pure .refused
  else
    match ← filealloc with
    | none =>
      onFs (iunlock ip)
      pure .refused
    | some f =>
      match ← fdalloc p f with
      | none =>
        let r ← closeFile f
        onFs (iunlock ip)
        pure (.full r)
      | some fd =>
        openFile f ip d omode
        onFs (truncAt ip d omode)
        onFs (iunlock ip)
        pure (.opened fd)

/-- `page` is what `kalloc` returns; it is no page that is in use. -/
def pipealloc (page : Option Nat) : SysM PipeFiles := do
  match ← filealloc with
  | none => pure (.bad none none)
  | some f0 =>
    match ← filealloc with
    | none =>
      let r0 ← closeFile f0
      pure (.bad r0 none)
    | some f1 =>
      let s ← get
      match page.filter (fun pi => (s.pipe pi).isNone) with
      | none =>
        let r0 ← closeFile f0
        let r1 ← closeFile f1
        pure (.bad r0 r1)
      | some pi =>
        modify (fun s => { s with pipe := Function.update s.pipe pi (some .opened) })
        let s ← get
        setFile f0 { s.ftable f0 with
          type := .pipe, readable := true, writable := false, pipe := pi }
        let s ← get
        setFile f1 { s.ftable f1 with
          type := .pipe, readable := false, writable := true, pipe := pi }
        pure (.made f0 f1)

def dupFd (p child : ProcId) (fd : Nat) : SysM Unit := do
  let s ← get
  match s.ofile p fd with
  | none => pure ()
  | some f =>
    filedup f
    setFd child fd (some f)

def forkFiles (p child : ProcId) : SysM Bool := do
  let s ← get
  if s.cwd child ≠ none ∨ child = p then pure false
  else
    loop (dupFd p child) nofile
    let ip ← idupCwd p
    setCwd child (some ip)
    pure true

def fileOf (p : ProcId) (fd : Nat) : SysM (Option File) := do
  let s ← get
  pure ((← argfd p fd).map s.ftable)

def moveOff (f : FileId) (r : Int) : SysM Unit := do
  let s ← get
  let ff := s.ftable f
  setFile f { ff with off := if 0 < r then u32 (ff.off + r.toNat) else ff.off }

/-- A round of `filewrite`. The type and the mode of a file do not change while
it is open. -/
def writeAt (p : ProcId) (fd : Nat) (src : Nat → Option Byte) (n : Nat) : SysM Int := do
  match ← argfd p fd with
  | none => throw "filewrite"
  | some f =>
    let s ← get
    let ff := s.ftable f
    if ff.type ≠ .inode ∨ ff.writable = false then throw "filewrite"
    else
      onFs (ilock ff.ip)
      let r ← onFs (writei ff.ip src ff.off n)
      moveOff f r
      onFs (iunlock ff.ip)
      pure r

def readAt (p : ProcId) (fd : Nat) (dst : Nat → Bool) (n : Nat) : SysM (Int × List Byte) := do
  match ← argfd p fd with
  | none => throw "fileread"
  | some f =>
    let s ← get
    let ff := s.ftable f
    if ff.type ≠ .inode then throw "fileread"
    else
      onFs (ilock ff.ip)
      let r ← onFs (readi ff.ip dst ff.off n)
      moveOff f r.1
      onFs (iunlock ff.ip)
      pure r

end SysM

end Xv6
