import Xv6.Directory

/-! `mkfs`: the program that writes the first image, as it works on the sectors
of the image file. An inode is sixteen words of its block. -/

namespace Xv6

open LittleEndian Fallible FsM CString

/-- The words of a disk inode: two pairs of shorts, the size and the addresses. -/
def Dinode.words (d : Dinode) : Nat → BitVec 32
  | 0 => BitVec.ofInt 32 (d.type % 2 ^ 16 + 2 ^ 16 * d.major)
  | 1 => BitVec.ofInt 32 (d.minor % 2 ^ 16 + 2 ^ 16 * d.nlink)
  | 2 => BitVec.ofNat 32 d.size
  | k + 3 => d.addrs k

def Dinode.ofWords (w : Nat → BitVec 32) : Dinode where
  type := i16 (w 0).toNat
  major := i16 ((w 0).toNat / 2 ^ 16 : Nat)
  minor := i16 (w 1).toNat
  nlink := i16 ((w 1).toNat / 2 ^ 16 : Nat)
  size := (w 2).toNat
  addrs k := if k ≤ ndirect then w (k + 3) else 0

def dinodeWords : Nat := ndirect + 4

def dinodeAt (v : Block) (j : Nat) : Dinode :=
  Dinode.ofWords (fun k => word v (4 * dinodeWords * j + 4 * k))

def putDinode (v : Block) (j : Nat) (d : Dinode) : Block :=
  setWords v (4 * dinodeWords * j) d.words dinodeWords

def bitAt (v : Block) (i : Nat) : Bool := (byteAt v (i / 8)).getLsbD (i % 8)

namespace Mkfs

def fssize : Nat := 2000

def ninodes : Nat := 200

def ipb : Nat := bsize / (4 * dinodeWords)

def bpb : Nat := bsize * 8

def nbitmap : Nat := fssize / bpb + 1

def ninodeblocks : Nat := ninodes / ipb + 1

def nlog : Nat := logBlocks + 1

def nmeta : Nat := 2 + nlog + ninodeblocks + nbitmap

def inodestart : Nat := 2 + nlog

def bmapstart : Nat := 2 + nlog + ninodeblocks

def iblock (inum : Nat) : BlockNo := BitVec.ofNat 32 (inum / ipb + inodestart)

/-- The image file, of which `sectors` sectors exist, and the two counters. -/
structure Mk where
  image : Disk
  sectors : Nat
  freeinode : Nat
  freeblock : BlockNo

abbrev MkM := StateT Mk (Except String)

def die {α : Type} (msg : String) : MkM α := throw msg

def assert (b : Bool) (msg : String) : MkM Unit := if b then pure () else die msg

def sector (sec : BlockNo) : BlockNo := sec * BitVec.ofNat 32 bsize / BitVec.ofNat 32 bsize

def wsect (sec : BlockNo) (buf : Block) : MkM Unit :=
  modify (fun m => { m with
    image := Function.update m.image (sector sec) buf
    sectors := max m.sectors ((sector sec).toNat + 1) })

def rsect (sec : BlockNo) : MkM Block := do
  let m ← get
  if (sector sec).toNat < m.sectors then pure (m.image (sector sec)) else die "read"

def winode (inum : Nat) (ip : Dinode) : MkM Unit := do
  let buf ← rsect (iblock inum)
  wsect (iblock inum) (putDinode buf (inum % ipb) ip)

def rinode (inum : Nat) : MkM Dinode := do
  let buf ← rsect (iblock inum)
  pure (dinodeAt buf (inum % ipb))

def ialloc (type : Int) : MkM Nat := do
  let m ← get
  set { m with freeinode := u32 (m.freeinode + 1) }
  winode m.freeinode { type := type, nlink := 1, size := 0 }
  pure m.freeinode

def marked : Nat → Block
  | 0 => fun _ => 0
  | i + 1 => Function.update (marked i) (Fin.ofNat bsize (i / 8))
      (byteAt (marked i) (i / 8) ||| 1#8 <<< (i % 8))

def balloc (used : BlockNo) : MkM Unit := do
  assert (used.toNat < bpb) "used < BPB"
  wsect (BitVec.ofNat 32 bmapstart) (marked used.toNat)

def newBlock : MkM BlockNo := do
  let m ← get
  set { m with freeblock := m.freeblock + 1 }
  pure m.freeblock

def addrAt (din : Dinode) (k : Nat) : MkM Dinode :=
  if din.addrs k = 0 then do
    let b ← newBlock
    pure { din with addrs := Function.update din.addrs k b }
  else pure din

/-- The block for block `fbn` of the file, and the inode with it. -/
def blockFor (din : Dinode) (fbn : Nat) : MkM (Dinode × BlockNo) :=
  if fbn < ndirect then do
    let din ← addrAt din fbn
    pure (din, din.addrs fbn)
  else do
    let din ← addrAt din ndirect
    let indirect ← rsect (din.addrs ndirect)
    if word indirect (4 * (fbn - ndirect)) = 0 then
      let b ← newBlock
      wsect (din.addrs ndirect) (setWord indirect (4 * (fbn - ndirect)) b)
      pure (din, b)
    else pure (din, word indirect (4 * (fbn - ndirect)))

/-- The rounds of `iappend`: the inode and the offset behind them. -/
def appendLoop : Nat → Dinode → Nat → List Byte → MkM (Dinode × Nat)
  | 0, din, off, _ => pure (din, off)
  | fuel + 1, din, off, p =>
    if 0 < p.length then do
      assert (off / bsize < maxfile) "fbn < MAXFILE"
      let r ← blockFor din (off / bsize)
      let n1 := min p.length ((off / bsize + 1) * bsize - off)
      let buf ← rsect r.2
      wsect r.2 (blit buf (off - off / bsize * bsize) (p.take n1))
      appendLoop fuel r.1 (off + n1) (p.drop n1)
    else pure (din, off)

def iappend (inum : Nat) (p : List Byte) : MkM Unit := do
  let din ← rinode inum
  let r ← appendLoop p.length din din.size p
  winode inum { r.1 with size := r.2 }

structure Source where
  path : Buffer
  content : List Byte

def userDir : Buffer := [117#8, 115#8, 101#8, 114#8, 47#8]

def baseName (path : Buffer) : Buffer := if path.take 5 = userDir then path.drop 5 else path

def shortName (path : Buffer) : Buffer :=
  if (baseName path).head? = some 95#8 then (baseName path).drop 1 else baseName path

/-- The reads of a file, one buffer at a time, until nothing is left. -/
def copyFile (inum : Nat) : Nat → List Byte → MkM Unit
  | 0, _ => pure ()
  | fuel + 1, content =>
    if content = [] then pure ()
    else do
      iappend inum (content.take bsize)
      copyFile inum fuel (content.drop bsize)

def addFile (rootino : Nat) (f : Source) : MkM Unit := do
  assert (47#8 ∉ baseName f.path) "index(shortname, '/') == 0"
  assert ((shortName f.path).length ≤ dirsiz) "strlen(shortname) <= DIRSIZ"
  let inum ← ialloc tFile
  iappend rootino (Dirent.new (shortName f.path) inum).encode
  copyFile inum f.content.length f.content

def addFiles (rootino : Nat) : List Source → MkM Unit
  | [] => pure ()
  | f :: fs => do
    addFile rootino f
    addFiles rootino fs

def fsmagic : Nat := 0x10203040

def superWords : Nat → BitVec 32
  | 0 => BitVec.ofNat 32 fsmagic
  | 1 => BitVec.ofNat 32 fssize
  | 2 => BitVec.ofNat 32 (fssize - nmeta)
  | 3 => BitVec.ofNat 32 ninodes
  | 4 => BitVec.ofNat 32 nlog
  | 5 => 2
  | 6 => BitVec.ofNat 32 inodestart
  | _ => BitVec.ofNat 32 bmapstart

def superblock : Block := setWords (fun _ => 0) 0 superWords 8

def zeroSectors : MkM Unit := loop (fun i => wsect (BitVec.ofNat 32 i) (fun _ => 0)) fssize

/-- The size of the root directory is rounded up to whole blocks. -/
def fixRoot (rootino : Nat) : MkM Unit := do
  let din ← rinode rootino
  winode rootino { din with size := (din.size / bsize + 1) * bsize }

def main (files : List Source) : MkM Unit := do
  zeroSectors
  wsect 1 superblock
  let root ← ialloc tDir
  assert (root = rootino) "rootino == ROOTINO"
  iappend root (Dirent.new [46#8, 0#8] root).encode
  iappend root (Dirent.new [46#8, 46#8, 0#8] root).encode
  addFiles root files
  fixRoot root
  let m ← get
  balloc m.freeblock

/-- The image file after `O_TRUNC`, and the counters before `main`. -/
def start : Mk := ⟨fun _ _ => 0, 0, 1, BitVec.ofNat 32 nmeta⟩

def mount (image : Disk) : Fs where
  sb := ⟨(word (image 1) 4).toNat, (word (image 1) 12).toNat⟩
  bitmap b := bitAt (image (BitVec.ofNat 32
    (b.toNat / bpb + (word (image 1) 28).toNat))) (b.toNat % bpb)
  block := image
  dinode i := if i < (word (image 1) 12).toNat then
    dinodeAt (image (BitVec.ofNat 32 (i / ipb + (word (image 1) 24).toNat))) (i % ipb) else {}
  itable _ := ⟨0, false, {}⟩
  inuse := 0
  outstanding := 0

end Mkfs

end Xv6
