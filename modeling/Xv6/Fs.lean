import Xv6.Fallible
import Xv6.LittleEndian
import Xv6.Bio

/-! Blocks and inodes: the allocator, the inode table and inode content. The
bitmap is kept as its bits and the inode blocks as the inodes in them; the other
blocks are bytes. Locks are held by the one process that runs. -/

namespace Xv6

open LittleEndian Fallible

abbrev Byte := BitVec 8

def ndirect : Nat := 12

def nindirect : Nat := bsize / 4

def maxfile : Nat := ndirect + nindirect

def ninode : Nat := 50

def rootino : Nat := 1

def tDir : Int := 1

def tFile : Int := 2

def tDevice : Int := 3

structure Superblock where
  size : Nat
  ninodes : Nat

structure Dinode where
  type : Int := 0
  major : Int := 0
  minor : Int := 0
  nlink : Int := 0
  size : Nat := 0
  addrs : Nat → BlockNo := fun _ => 0

/-- An entry of the inode table; `copy` is the copy of the disk inode. -/
structure Inode where
  ref : Nat
  valid : Bool
  copy : Dinode

/-- `itable` is addressed by inode number, an entry with `ref = 0` is not in the
table, and `inuse` is the number of the others. -/
structure Fs where
  sb : Superblock
  bitmap : BlockNo → Bool
  block : Disk
  dinode : Nat → Dinode
  itable : Nat → Inode
  inuse : Nat
  outstanding : Nat

def Fs.setInode (s : Fs) (ip : Nat) (e : Inode) : Fs :=
  { s with itable := Function.update s.itable ip e }

abbrev FsM := StateT Fs (Except String)

def halt {α : Type} (msg : String) : FsM α := throw msg

namespace FsM

def logWrite : FsM Unit := do
  let s ← get
  if s.outstanding < 1 then halt "log_write outside of trans" else pure ()

def setBlock (b : BlockNo) (v : Block) : FsM Unit :=
  modify (fun s => { s with block := Function.update s.block b v })

def setBit (b : BlockNo) (v : Bool) : FsM Unit :=
  modify (fun s => { s with bitmap := Function.update s.bitmap b v })

def bzero (b : BlockNo) : FsM Unit := do
  setBlock b (fun _ => 0)
  logWrite

def claim (b : BlockNo) : FsM BlockNo := do
  setBit b true
  logWrite
  bzero b
  pure b

def balloc : FsM BlockNo := do
  let s ← get
  match (List.range s.sb.size).find? (fun b => !s.bitmap (BitVec.ofNat 32 b)) with
  | some b => claim (BitVec.ofNat 32 b)
  | none => pure 0

def bfree (b : BlockNo) : FsM Unit := do
  let s ← get
  if s.bitmap b = false then halt "freeing free block"
  else
    setBit b false
    logWrite

def inode (ip : Nat) : FsM Dinode := do
  let s ← get
  pure (s.itable ip).copy

def edit (ip : Nat) (f : Dinode → Dinode) : FsM Unit :=
  modify (fun s => s.setInode ip { s.itable ip with copy := f (s.itable ip).copy })

def setAddr (ip k : Nat) (addr : BlockNo) : FsM Unit :=
  edit ip (fun d => { d with addrs := Function.update d.addrs k addr })

def iupdate (ip : Nat) : FsM Unit := do
  modify (fun s => { s with dinode := Function.update s.dinode ip (s.itable ip).copy })
  logWrite

def addrAt (ip k : Nat) : FsM BlockNo := do
  let d ← inode ip
  if d.addrs k = 0 then
    let addr ← balloc
    if addr = 0 then pure 0
    else
      setAddr ip k addr
      pure addr
  else pure (d.addrs k)

/-- Entry `j` of the indirect block `ind`, allocated if it is not there. -/
def indirectAt (ind : BlockNo) (j : Nat) : FsM BlockNo := do
  let s ← get
  if word (s.block ind) (4 * j) = 0 then
    let addr ← balloc
    if addr = 0 then pure 0
    else
      modify (fun s => { s with
        block := Function.update s.block ind (setWord (s.block ind) (4 * j) addr) })
      logWrite
      pure addr
  else pure (word (s.block ind) (4 * j))

def bmap (ip bn : Nat) : FsM BlockNo :=
  if bn < ndirect then addrAt ip bn
  else if bn - ndirect < nindirect then do
    let ind ← addrAt ip ndirect
    if ind = 0 then pure 0 else indirectAt ind (bn - ndirect)
  else halt "bmap: out of range"

def freeDirect (ip k : Nat) : FsM Unit := do
  let d ← inode ip
  if d.addrs k = 0 then pure ()
  else
    bfree (d.addrs k)
    setAddr ip k 0

def freeEntry (a : Block) (j : Nat) : FsM Unit :=
  if word a (4 * j) = 0 then pure () else bfree (word a (4 * j))

def freeIndirect (ip : Nat) : FsM Unit := do
  let d ← inode ip
  if d.addrs ndirect = 0 then pure ()
  else
    let s ← get
    loop (freeEntry (s.block (d.addrs ndirect))) nindirect
    bfree (d.addrs ndirect)
    setAddr ip ndirect 0

def itrunc (ip : Nat) : FsM Unit := do
  loop (freeDirect ip) ndirect
  freeIndirect ip
  edit ip (fun d => { d with size := 0 })
  iupdate ip

def iget (inum : Nat) : FsM Unit := do
  let s ← get
  if (s.itable inum).ref > 0 then
    set (s.setInode inum { s.itable inum with ref := (s.itable inum).ref + 1 })
  else if s.inuse ≥ ninode then halt "iget: no inodes"
  else
    set { s.setInode inum { s.itable inum with ref := 1, valid := false } with
      inuse := s.inuse + 1 }

def idup (ip : Nat) : FsM Unit :=
  modify (fun s => s.setInode ip { s.itable ip with ref := (s.itable ip).ref + 1 })

def ilock (ip : Nat) : FsM Unit := do
  let s ← get
  if (s.itable ip).ref < 1 then halt "ilock"
  else if (s.itable ip).valid then pure ()
  else
    set (s.setInode ip { s.itable ip with copy := s.dinode ip, valid := true })
    if (s.dinode ip).type = 0 then halt "ilock: no type" else pure ()

def iunlock (ip : Nat) : FsM Unit := do
  let s ← get
  if (s.itable ip).ref < 1 then halt "iunlock" else pure ()

def deref (ip : Nat) : FsM Unit :=
  modify (fun s => { s.setInode ip { s.itable ip with ref := (s.itable ip).ref - 1 } with
    inuse := if (s.itable ip).ref = 1 then s.inuse - 1 else s.inuse })

def ifree (ip : Nat) : FsM Unit := do
  itrunc ip
  edit ip (fun d => { d with type := 0 })
  iupdate ip
  modify (fun s => s.setInode ip { s.itable ip with valid := false })

def iput (ip : Nat) : FsM Unit := do
  let s ← get
  if (s.itable ip).ref = 1 ∧ (s.itable ip).valid = true ∧ (s.itable ip).copy.nlink = 0 then
    ifree ip
    deref ip
  else deref ip

def iunlockput (ip : Nat) : FsM Unit := do
  iunlock ip
  iput ip

def ialloc (type : Int) : FsM (Option Nat) := do
  let s ← get
  match (List.range s.sb.ninodes).find? (fun i => 1 ≤ i ∧ (s.dinode i).type = 0) with
  | some inum =>
    set { s with dinode := Function.update s.dinode inum { type := type } }
    logWrite
    iget inum
    pure (some inum)
  | none => pure none

def slice (v : Block) (off m : Nat) : List Byte := (List.range m).map (fun i => byteAt v (off + i))

def blit (v : Block) (off : Nat) (bs : List Byte) : Block := fun i =>
  if (i : Nat) < off then v i else (bs[(i : Nat) - off]?).getD (v i)

/-- What `either_copyin` copies: all `m` bytes, or those before the first address
that is not mapped. -/
def copyin (src : Nat → Option Byte) : Nat → Nat → List Byte
  | _, 0 => []
  | a, m + 1 =>
    match src a with
    | none => []
    | some x => x :: copyin src (a + 1) m

/-- The rounds of `readi`, with the bytes delivered. A destination says which of
its addresses are mapped. -/
def readLoop (ip : Nat) (dst : Nat → Bool) (n : Nat) :
    Nat → Nat → Nat → List Byte → FsM (Int × List Byte)
  | 0, _, tot, got => pure (tot, got)
  | fuel + 1, off, tot, got =>
    if tot < n then do
      let addr ← bmap ip (off / bsize)
      if addr = 0 then pure (tot, got)
      else
        let s ← get
        let m := min (n - tot) (bsize - off % bsize)
        if ∀ i < m, dst (tot + i) = true then
          readLoop ip dst n fuel (off + m) (tot + m) (got ++ slice (s.block addr) (off % bsize) m)
        else pure (-1, got)
    else pure (tot, got)

def readi (ip : Nat) (dst : Nat → Bool) (off n : Nat) : FsM (Int × List Byte) := do
  let d ← inode ip
  if off > d.size ∨ u32 (off + n) < off then pure (0, [])
  else
    let n := if u32 (off + n) > d.size then d.size - off else n
    readLoop ip dst n n off 0 []

/-- The rounds of `writei`: the final `tot` and `off`. A round that cannot copy
all of its bytes has changed the buffer and does not log it. -/
def writeLoop (ip : Nat) (src : Nat → Option Byte) (n : Nat) : Nat → Nat → Nat → FsM (Nat × Nat)
  | 0, off, tot => pure (tot, off)
  | fuel + 1, off, tot =>
    if tot < n then do
      let addr ← bmap ip (off / bsize)
      if addr = 0 then pure (tot, off)
      else
        let s ← get
        let m := min (n - tot) (bsize - off % bsize)
        let bs := copyin src tot m
        setBlock addr (blit (s.block addr) (off % bsize) bs)
        if bs.length < m then pure (tot, off)
        else
          logWrite
          writeLoop ip src n fuel (off + m) (tot + m)
    else pure (tot, off)

def growTo (ip off : Nat) : FsM Unit := do
  let d ← inode ip
  if off > d.size then edit ip (fun d => { d with size := off }) else pure ()

def writei (ip : Nat) (src : Nat → Option Byte) (off n : Nat) : FsM Int := do
  let d ← inode ip
  if off > d.size ∨ u32 (off + n) < off then pure (-1)
  else if u32 (off + n) > maxfile * bsize then pure (-1)
  else
    let r ← writeLoop ip src n n off 0
    growTo ip r.2
    iupdate ip
    pure r.1

end FsM

end Xv6
