import Xv6.Projection
import Xv6.FileContent

/-! `writei` with the buffers that it passes to `log_write`. -/

namespace Xv6

open LittleEndian Fallible

structure Layout where
  bmapstart : Nat
  inodestart : Nat

def Layout.bblock (L : Layout) (b : BlockNo) : Nat := b.toNat / (bsize * 8) + L.bmapstart

def Layout.iblock (L : Layout) (inum : Nat) : Nat := inum / (bsize / 64) + L.inodestart

/-- The file system as the buffers show it, the blocks that have been passed to
`log_write`, and the file system as it is without them. -/
structure Logged where
  fs : Fs
  passed : List Nat
  home : Fs

abbrev LogM := StateT Logged (Except String)

def Logged.pass (g : Logged) (b : Nat) : Logged := { g with passed := b :: g.passed }

namespace LogM

variable (L : Layout)

def onFs {α : Type} (m : FsM α) : LogM α := fun g =>
  (m g.fs).map (fun r => (r.1, { g with fs := r.2 }))

def logWrite (b : Nat) : LogM Unit := do
  onFs FsM.logWrite
  modify (fun g => g.pass b)

def bzero (b : BlockNo) : LogM Unit := do
  onFs (FsM.setBlock b (fun _ => 0))
  logWrite b.toNat

def claim (b : BlockNo) : LogM BlockNo := do
  onFs (FsM.setBit b true)
  logWrite (L.bblock b)
  bzero b
  pure b

def balloc : LogM BlockNo := do
  let s ← onFs get
  match (List.range s.sb.size).find? (fun b => !s.bitmap (BitVec.ofNat 32 b)) with
  | some b => claim L (BitVec.ofNat 32 b)
  | none => pure 0

def iupdate (ip : Nat) : LogM Unit := do
  onFs (modify (fun s => { s with dinode := Function.update s.dinode ip (s.itable ip).copy }))
  logWrite (L.iblock ip)

def addrAt (ip k : Nat) : LogM BlockNo := do
  let d ← onFs (FsM.inode ip)
  if d.addrs k = 0 then
    let addr ← balloc L
    if addr = 0 then pure 0
    else
      onFs (FsM.setAddr ip k addr)
      pure addr
  else pure (d.addrs k)

def indirectAt (ind : BlockNo) (j : Nat) : LogM BlockNo := do
  let s ← onFs get
  if word (s.block ind) (4 * j) = 0 then
    let addr ← balloc L
    if addr = 0 then pure 0
    else
      onFs (modify (fun s => { s with
        block := Function.update s.block ind (setWord (s.block ind) (4 * j) addr) }))
      logWrite ind.toNat
      pure addr
  else pure (word (s.block ind) (4 * j))

def bmap (ip bn : Nat) : LogM BlockNo :=
  if bn < ndirect then addrAt L ip bn
  else if bn - ndirect < nindirect then do
    let ind ← addrAt L ip ndirect
    if ind = 0 then pure 0 else indirectAt L ind (bn - ndirect)
  else throw "bmap: out of range"

def writeLoop (ip : Nat) (src : Nat → Option Byte) (n : Nat) : Nat → Nat → Nat → LogM (Nat × Nat)
  | 0, off, tot => pure (tot, off)
  | fuel + 1, off, tot =>
    if tot < n then do
      let addr ← bmap L ip (off / bsize)
      if addr = 0 then pure (tot, off)
      else
        let s ← onFs get
        let m := min (n - tot) (bsize - off % bsize)
        let bs := FsM.copyin src tot m
        onFs (FsM.setBlock addr (FsM.blit (s.block addr) (off % bsize) bs))
        if bs.length < m then pure (tot, off)
        else
          logWrite addr.toNat
          writeLoop ip src n fuel (off + m) (tot + m)
    else pure (tot, off)

def writei (ip : Nat) (src : Nat → Option Byte) (off n : Nat) : LogM Int := do
  let d ← onFs (FsM.inode ip)
  if off > d.size ∨ u32 (off + n) < off then pure (-1)
  else if u32 (off + n) > maxfile * bsize then pure (-1)
  else
    let r ← writeLoop L ip src n n off 0
    onFs (FsM.growTo ip r.2)
    iupdate L ip
    pure r.1

end LogM

section Erasure

variable {L : Layout} {ip k off n : Nat} {src : Nat → Option Byte}

end Erasure

section Steps

variable {L : Layout} {g : Logged}

theorem logWrite_passes (htx : 1 ≤ g.fs.outstanding) (c : Nat) :
    LogM.logWrite c g = .ok ((), g.pass c) := by
  have hrun : LogM.onFs FsM.logWrite g = .ok ((), g) := by
    rw [LogM.onFs, logWrite_run htx]
    rfl
  rw [LogM.logWrite, bind_ok hrun]
  rfl

def Logged.take (L : Layout) (g : Logged) (b : BlockNo) : Logged :=
  { g with fs := g.fs.take b, passed := b.toNat :: L.bblock b :: g.passed }

theorem balloc_takes (htx : 1 ≤ g.fs.outstanding) :
    LogM.balloc L g = .ok (0, g) ∨ ∃ b, LogM.balloc L g = .ok (b, g.take L b) := by
  have hget : LogM.onFs get g = .ok (g.fs, g) := rfl
  rw [LogM.balloc, bind_ok hget]
  cases (List.range g.fs.sb.size).find? (fun b => !g.fs.bitmap (BitVec.ofNat 32 b)) with
  | none => exact .inl rfl
  | some b =>
    refine .inr ⟨BitVec.ofNat 32 b, ?_⟩
    dsimp only
    generalize BitVec.ofNat 32 b = c
    have hbit : LogM.onFs (FsM.setBit c true) g = .ok ((), { g with
        fs := { g.fs with bitmap := Function.update g.fs.bitmap c true } }) := rfl
    rw [LogM.claim, bind_ok hbit, bind_ok (logWrite_passes (by exact htx) _)]
    have hzero : LogM.bzero c (Logged.pass { g with
        fs := { g.fs with bitmap := Function.update g.fs.bitmap c true } } (L.bblock c)) =
        .ok ((), g.take L c) := by
      rw [LogM.bzero, bind_ok (m := LogM.onFs _) (a := ()) (t := { g with
        fs := g.fs.take c, passed := L.bblock c :: g.passed }) rfl]
      exact logWrite_passes (by exact htx) _
    rw [bind_ok hzero]
    rfl

def Logged.putAddr (g : Logged) (ip k : Nat) (b : BlockNo) : Logged :=
  { g with fs := g.fs.putAddr ip k b }

def Logged.putEntry (g : Logged) (ind : BlockNo) (j : Nat) (b : BlockNo) : Logged :=
  Logged.pass { g with fs := g.fs.putBlock ind (setWord (g.fs.block ind) (4 * j) b) } ind.toNat

theorem addrAt_cases (htx : 1 ≤ g.fs.outstanding) (ip k : Nat) :
    LogM.addrAt L ip k g = .ok ((g.fs.itable ip).copy.addrs k, g) ∨
    (g.fs.itable ip).copy.addrs k = 0 ∧ (LogM.addrAt L ip k g = .ok (0, g.take L 0) ∨
      ∃ b ≠ 0, LogM.addrAt L ip k g = .ok (b, (g.take L b).putAddr ip k b)) := by
  rw [LogM.addrAt, bind_ok (m := LogM.onFs (FsM.inode ip)) (a := (g.fs.itable ip).copy) (t := g) rfl]
  split_ifs with hz
  · rcases balloc_takes (L := L) htx with hrun | ⟨b, hrun⟩
    · rw [bind_ok hrun, if_pos rfl, hz]
      exact .inl rfl
    · rw [bind_ok hrun]
      split_ifs with hb
      · rw [hb]
        exact .inr ⟨hz, .inl rfl⟩
      · exact .inr ⟨hz, .inr ⟨b, hb, rfl⟩⟩
  · exact .inl rfl

theorem indirectAt_cases (htx : 1 ≤ g.fs.outstanding) (ind : BlockNo) (j : Nat) :
    LogM.indirectAt L ind j g = .ok (word (g.fs.block ind) (4 * j), g) ∨
    LogM.indirectAt L ind j g = .ok (0, g.take L 0) ∨
      ∃ b ≠ 0, LogM.indirectAt L ind j g = .ok (b, (g.take L b).putEntry ind j b) := by
  rw [LogM.indirectAt, bind_ok (m := LogM.onFs get) (a := g.fs) (t := g) rfl]
  split_ifs with hz
  · rcases balloc_takes (L := L) htx with hrun | ⟨b, hrun⟩
    · rw [bind_ok hrun, if_pos rfl, hz]
      exact .inl rfl
    · rw [bind_ok hrun]
      split_ifs with hb
      · rw [hb]
        exact .inr (.inl rfl)
      · refine .inr (.inr ⟨b, hb, ?_⟩)
        rw [bind_ok (m := LogM.onFs _) (a := ()) (t := { g.take L b with
          fs := (g.fs.take b).putBlock ind (setWord ((g.fs.take b).block ind) (4 * j) b) }) rfl,
          bind_ok (logWrite_passes (by exact htx) _)]
        rfl
  · exact .inl rfl

end Steps

end Xv6
