import Xv6.Directory

/-! The parts of the system calls that run under the lock of an inode. Between
two of them other processes may run. -/

namespace Xv6

open Fallible Records CString

def dot : Buffer := [46#8, 0#8]

def dotdot : Buffer := [46#8, 46#8, 0#8]

inductive Created where
  | found (ip : Nat)
  | made (ip : Nat)
  | failed

namespace FsM

/-- A round of `namex`: the next inode, none if this is not a directory or does
not have the name. -/
def search (ip : Nat) (name : Buffer) : FsM (Option Nat) := do
  ilock ip
  let d ← inode ip
  if d.type ≠ tDir then
    iunlock ip
    pure none
  else
    let r ← dirlookup ip name
    iunlock ip
    pure (r.map Prod.fst)

def typeOf (ip : Nat) : FsM Int := do
  ilock ip
  let d ← inode ip
  iunlock ip
  pure d.type

def linkDots (dp ip : Nat) (type : Int) : FsM Bool :=
  if type = tDir then do
    if (← dirlink ip dot ip) < 0 then pure false
    else
      let r ← dirlink ip dotdot dp
      pure (0 ≤ r)
  else pure true

def linkNew (dp ip : Nat) (name : Buffer) (type : Int) : FsM Bool := do
  if ← linkDots dp ip type then
    let r ← dirlink dp name ip
    pure (0 ≤ r)
  else pure false

def countDir (dp : Nat) (type : Int) (f : Int → Int) : FsM Unit :=
  if type = tDir then amend dp (fun d => { d with nlink := f d.nlink }) else pure ()

def createNew (dp ip : Nat) (name : Buffer) (type major minor : Int) : FsM Created := do
  ilock ip
  amend ip (fun d => { d with major := major, minor := minor, nlink := 1 })
  if ← linkNew dp ip name type then
    countDir dp type (fun x => i16 (x + 1))
    iunlock dp
    pure (.made ip)
  else
    amend ip (fun d => { d with nlink := 0 })
    iunlockput ip
    iunlock dp
    pure .failed

def createAt (dp : Nat) (name : Buffer) (type major minor : Int) : FsM Created := do
  ilock dp
  match ← dirlookup dp name with
  | some (ip, _) =>
    iunlock dp
    pure (.found ip)
  | none =>
    match ← ialloc type with
    | none =>
      iunlock dp
      pure .failed
    | some ip => createNew dp ip name type major minor

def mayUnlink (ip : Nat) (type : Int) : FsM Bool :=
  if type = tDir then isdirempty ip else pure true

def clearEntry (dp ip off : Nat) (type : Int) : FsM (Option Nat) := do
  let r ← writeDirent dp off Dirent.free
  if r ≠ direntSize then halt "unlink: writei"
  else
    countDir dp type (fun x => i16 (x - 1))
    iunlockput dp
    amend ip (fun d => { d with nlink := i16 (d.nlink - 1) })
    iunlock ip
    pure (some ip)

/-- `sys_unlink` from the lock of the directory to the release of the last lock:
the inode, or none with the directory to put. -/
def unlinkAt (dp : Nat) (name : Buffer) : FsM (Option Nat) := do
  ilock dp
  if namecmp name dot = 0 ∨ namecmp name dotdot = 0 then
    iunlock dp
    pure none
  else
    match ← dirlookup dp name with
    | none =>
      iunlock dp
      pure none
    | some (ip, off) =>
      -- the process sleeps on the lock that it holds itself
      if ip = dp then halt "acquiresleep"
      else
        ilock ip
        let d ← inode ip
        if d.nlink < 1 then halt "unlink: nlink < 1"
        else
          let ok ← mayUnlink ip d.type
          if ok then clearEntry dp ip off d.type
          else
            iunlockput ip
            iunlock dp
            pure none

/-- `sys_link` counts the new name before there is an entry for it. -/
def linkCount (ip : Nat) : FsM Bool := do
  ilock ip
  let d ← inode ip
  if d.type = tDir then
    iunlock ip
    pure false
  else
    amend ip (fun d => { d with nlink := i16 (d.nlink + 1) })
    iunlock ip
    pure true

def linkEnter (dp : Nat) (name : Buffer) (ip : Nat) : FsM Bool := do
  ilock dp
  let r ← dirlink dp name ip
  iunlock dp
  pure (0 ≤ r)

def linkUncount (ip : Nat) : FsM Unit := do
  ilock ip
  amend ip (fun d => { d with nlink := i16 (d.nlink - 1) })
  iunlock ip

def leNat (bs : List Byte) (off len : Nat) : Nat :=
  ((bs.drop off).take len).foldr (fun b acc => b.toNat + 2 ^ 8 * acc) 0

def pgsize : Nat := 4096

def loadseg (ip off sz : Nat) : Nat → Nat → FsM Bool
  | 0, _ => pure true
  | fuel + 1, i =>
    if i < sz then do
      let r ← readi ip (fun _ => true) (u32 (off + i)) (min (sz - i) pgsize)
      if r.1 ≠ (min (sz - i) pgsize : Nat) then pure false
      else loadseg ip off sz fuel (i + pgsize)
    else pure true

/-- The program headers; `mem k` is the result of the `k`-th request for memory. -/
def loadSegs (ip : Nat) (mem : Nat → Bool) : Nat → Nat → Nat → FsM Bool
  | 0, _, _ => pure true
  | n + 1, off, k => do
    let r ← readi ip (fun _ => true) off 56
    if r.1 ≠ 56 then pure false
    else if leNat r.2 0 4 ≠ 1 then loadSegs ip mem n (u32 (off + 56)) k
    else if leNat r.2 40 8 < leNat r.2 32 8 ∨
        u64 (leNat r.2 16 8 + leNat r.2 40 8) < leNat r.2 16 8 ∨
        leNat r.2 16 8 % pgsize ≠ 0 ∨ mem k = false then pure false
    else
      let ok ← loadseg ip (u32 (leNat r.2 8 8)) (u32 (leNat r.2 32 8)) (u32 (leNat r.2 32 8)) 0
      if ok then loadSegs ip mem n (u32 (off + 56)) (k + 1) else pure false

def loadElf (ip : Nat) (mem : Nat → Bool) : FsM Bool := do
  let r ← readi ip (fun _ => true) 0 64
  if r.1 ≠ 64 then pure false
  else if leNat r.2 0 4 ≠ 0x464C457F then pure false
  else if mem 0 = false then pure false
  else loadSegs ip mem (leNat r.2 56 2) (u32 (leNat r.2 32 8)) 1

def load (ip : Nat) (mem : Nat → Bool) : FsM Bool := do
  ilock ip
  let ok ← loadElf ip mem
  iunlock ip
  pure ok

def orphan (inum : Nat) : FsM Bool := do
  let s ← get
  if 1 ≤ inum ∧ (s.dinode inum).type ≠ 0 ∧ (s.dinode inum).nlink = 0 then
    iget inum
    pure true
  else pure false

end FsM

end Xv6
