import Xv6.Interleave
import Xv6.FileTable

/-! The system calls of the file system as programs of atomic steps. A step is
what runs under the lock of an inode, of the file table or of the log. -/

namespace Xv6

open Interleave CString FsM

def slash : Byte := 47#8

/-- The next element of a path: what follows it, and the name in its buffer. -/
def skipelem (path name : Buffer) : Option (Buffer × Buffer) :=
  let path := path.dropWhile (· = slash)
  if path.headD 0#8 = 0#8 then none
  else
    let s := path.takeWhile (fun c => c ≠ slash ∧ c ≠ 0#8)
    let path := (path.drop s.length).dropWhile (· = slash)
    if dirsiz ≤ s.length then some (path, s.take dirsiz)
    else some (path, s ++ 0#8 :: name.drop (s.length + 1))

inductive Act where
  | beginOp
  | endOp
  | iget (i : Nat)
  | idupCwd
  | iput (i : Nat)
  | search (ip : Nat) (name : Buffer)
  | typeOf (ip : Nat)
  | createAt (dp : Nat) (name : Buffer) (type major minor : Int)
  | openAt (ip : Nat) (omode : BitVec 32)
  | unlinkAt (dp : Nat) (name : Buffer)
  | linkCount (ip : Nat)
  | linkEnter (dp : Nat) (name : Buffer) (ip : Nat)
  | linkUncount (ip : Nat)
  | swapCwd (next : Option Nat)
  | dup (fd : Nat)
  | takeFd (fd : Nat)
  | fdalloc (f : FileId)
  | closeFile (f : FileId)
  | pipealloc (page : Option Nat)
  | forkFiles (child : ProcId)
  | fileOf (fd : Nat)
  | writeAt (fd : Nat) (src : Nat → Option Byte) (n : Nat)
  | readAt (fd : Nat) (dst : Nat → Bool) (n : Nat)
  | load (ip : Nat) (mem : Nat → Bool)
  | ninodes
  | orphan (inum : Nat)
  | panic (msg : String)

@[reducible] def Act.Res : Act → Type
  | .beginOp => Unit
  | .endOp => Unit
  | .iget _ => Unit
  | .idupCwd => Nat
  | .iput _ => Unit
  | .search _ _ => Option Nat
  | .typeOf _ => Int
  | .createAt _ _ _ _ _ => Created
  | .openAt _ _ => Opened
  | .unlinkAt _ _ => Option Nat
  | .linkCount _ => Bool
  | .linkEnter _ _ _ => Bool
  | .linkUncount _ => Unit
  | .swapCwd _ => Nat
  | .dup _ => Option Nat
  | .takeFd _ => Option FileId
  | .fdalloc _ => Option Nat
  | .closeFile _ => Option Nat
  | .pipealloc _ => PipeFiles
  | .forkFiles _ => Bool
  | .fileOf _ => Option File
  | .writeAt _ _ _ => Int
  | .readAt _ _ _ => Int × List Byte
  | .load _ _ => Bool
  | .ninodes => Nat
  | .orphan _ => Bool
  | .panic _ => Unit

abbrev Op := Prog Act.Res

def act (a : Act) : Op a.Res := Prog.act a

def namexLoop (parent : Bool) : Nat → Nat → Buffer → Buffer → Op (Option (Nat × Buffer))
  | 0, ip, _, _ => do
    act (.iput ip)
    pure none
  | fuel + 1, ip, path, name =>
    match skipelem path name with
    | none =>
      if parent then do
        act (.iput ip)
        pure none
      else pure (some (ip, name))
    | some (path, name) =>
      if parent ∧ path.headD 0#8 = 0#8 then do
        let t ← act (.typeOf ip)
        if t ≠ tDir then
          act (.iput ip)
          pure none
        else pure (some (ip, name))
      else do
        match ← act (.search ip name) with
        | none =>
          act (.iput ip)
          pure none
        | some next =>
          act (.iput ip)
          namexLoop parent fuel next path name

def namex (path : Buffer) (parent : Bool) (name : Buffer) : Op (Option (Nat × Buffer)) :=
  if path.headD 0#8 = slash then do
    act (.iget rootino)
    namexLoop parent (path.length + 1) rootino path name
  else do
    let ip ← act .idupCwd
    namexLoop parent (path.length + 1) ip path name

def namei (path : Buffer) : Op (Option Nat) := do
  let r ← namex path false []
  pure (r.map Prod.fst)

def nameiparent (path : Buffer) : Op (Option (Nat × Buffer)) := namex path true []

/-- What `fileclose` does with the inode of a file that is closed. -/
def putFile : Option Nat → Op Unit
  | none => pure ()
  | some ip => do
    act .beginOp
    act (.iput ip)
    act .endOp

def fileclose (f : FileId) : Op Unit := do
  let r ← act (.closeFile f)
  putFile r

def create (path : Buffer) (type major minor : Int) : Op (Option Nat) := do
  match ← nameiparent path with
  | none => pure none
  | some (dp, name) =>
    match ← act (.createAt dp name type major minor) with
    | .found ip =>
      act (.iput dp)
      let t ← act (.typeOf ip)
      if type = tFile ∧ (t = tFile ∨ t = tDevice) then pure (some ip)
      else
        act (.iput ip)
        pure none
    | .made ip =>
      act (.iput dp)
      pure (some ip)
    | .failed =>
      act (.iput dp)
      pure none

def sysClose (fd : Nat) : Op Int := do
  match ← act (.takeFd fd) with
  | none => pure (-1)
  | some f =>
    fileclose f
    pure 0

def sysDup (fd : Nat) : Op Int := do
  match ← act (.dup fd) with
  | none => pure (-1)
  | some fd' => pure fd'

def endWith (r : Int) : Op Int := do
  act .endOp
  pure r

def linkBad (ip : Nat) : Op Int := do
  act (.linkUncount ip)
  act (.iput ip)
  endWith (-1)

def sysLink (old new : Option Buffer) : Op Int :=
  match old, new with
  | some old, some new => do
    act .beginOp
    match ← namei old with
    | none => endWith (-1)
    | some ip =>
      if ← act (.linkCount ip) then
        match ← nameiparent new with
        | none => linkBad ip
        | some (dp, name) =>
          if ← act (.linkEnter dp name ip) then
            act (.iput dp)
            act (.iput ip)
            endWith 0
          else
            act (.iput dp)
            linkBad ip
      else
        act (.iput ip)
        endWith (-1)
  | _, _ => pure (-1)

def sysUnlink (path : Option Buffer) : Op Int :=
  match path with
  | none => pure (-1)
  | some path => do
    act .beginOp
    match ← nameiparent path with
    | none => endWith (-1)
    | some (dp, name) =>
      match ← act (.unlinkAt dp name) with
      | none =>
        act (.iput dp)
        endWith (-1)
      | some ip =>
        act (.iput ip)
        endWith 0

def openInode (ip : Nat) (omode : BitVec 32) : Op Int := do
  match ← act (.openAt ip omode) with
  | .refused =>
    act (.iput ip)
    endWith (-1)
  | .full r =>
    putFile r
    act (.iput ip)
    endWith (-1)
  | .opened fd => endWith fd

def sysOpen (path : Option Buffer) (omode : BitVec 32) : Op Int :=
  match path with
  | none => pure (-1)
  | some path => do
    act .beginOp
    match ← (if omode &&& oCreate ≠ 0 then create path tFile 0 0 else namei path) with
    | none => endWith (-1)
    | some ip => openInode ip omode

def sysMake (path : Option Buffer) (type major minor : Int) : Op Int := do
  act .beginOp
  match path with
  | none => endWith (-1)
  | some path =>
    match ← create path type major minor with
    | none => endWith (-1)
    | some ip =>
      act (.iput ip)
      endWith 0

def sysMkdir (path : Option Buffer) : Op Int := sysMake path tDir 0 0

def sysMknod (path : Option Buffer) (major minor : Int) : Op Int :=
  sysMake path tDevice (i16 major) (i16 minor)

def sysChdir (path : Option Buffer) : Op Int := do
  act .beginOp
  match path with
  | none => endWith (-1)
  | some path =>
    match ← namei path with
    | none => endWith (-1)
    | some ip =>
      let t ← act (.typeOf ip)
      if t ≠ tDir then
        act (.iput ip)
        endWith (-1)
      else
        -- only the process itself reads its directory, so the new one may come first
        let cwd ← act (.swapCwd (some ip))
        act (.iput cwd)
        endWith 0

def sysPipe (page : Option Nat) (copied : Bool) : Op Int := do
  match ← act (.pipealloc page) with
  | .bad r0 r1 =>
    putFile r0
    putFile r1
    pure (-1)
  | .made f0 f1 =>
    match ← act (.fdalloc f0) with
    | none =>
      fileclose f0
      fileclose f1
      pure (-1)
    | some fd0 =>
      match ← act (.fdalloc f1) with
      | none =>
        let _ ← act (.takeFd fd0)
        fileclose f0
        fileclose f1
        pure (-1)
      | some fd1 =>
        if copied then pure 0
        else
          let _ ← act (.takeFd fd0)
          let _ ← act (.takeFd fd1)
          fileclose f0
          fileclose f1
          pure (-1)

/-- `kfork` into a slot of the process table, when there is memory or not. -/
def sysFork (child : ProcId) (mem : Bool) : Op Int := do
  if mem then
    if ← act (.forkFiles child) then pure 1 else pure (-1)
  else pure (-1)

def closeFds : Nat → Op Unit
  | 0 => pure ()
  | fd + 1 => do
    closeFds fd
    match ← act (.takeFd fd) with
    | none => pure ()
    | some f => fileclose f

def sysExit : Op Int := do
  closeFds nofile
  act .beginOp
  let cwd ← act (.swapCwd none)
  act (.iput cwd)
  endWith 0

def maxChunk : Nat := ((10 - 1 - 1 - 2) / 2) * bsize

def writeChunks (fd : Nat) (src : Nat → Option Byte) (n : Nat) : Nat → Nat → Op Nat
  | 0, i => pure i
  | fuel + 1, i =>
    if i < n then do
      act .beginOp
      let r ← act (.writeAt fd (fun a => src (i + a)) (min (n - i) maxChunk))
      act .endOp
      if r ≠ (min (n - i) maxChunk : Nat) then pure i
      else writeChunks fd src n fuel (i + min (n - i) maxChunk)
    else pure i

def sysWrite (fd : Nat) (src : Nat → Option Byte) (n io : Int) : Op Int := do
  match ← act (.fileOf fd) with
  | none => pure (-1)
  | some ff =>
    if ff.writable = false then pure (-1)
    else
      match ff.type with
      | .none =>
        act (.panic "filewrite")
        pure (-1)
      | .inode =>
        let i ← writeChunks fd src n.toNat n.toNat 0
        pure (if (i : Int) = n then n else -1)
      | _ => pure io

def sysRead (fd : Nat) (dst : Nat → Bool) (n io : Int) : Op Int := do
  match ← act (.fileOf fd) with
  | none => pure (-1)
  | some ff =>
    if ff.readable = false then pure (-1)
    else
      match ff.type with
      | .none =>
        act (.panic "fileread")
        pure (-1)
      | .inode =>
        let r ← act (.readAt fd dst (n % 2 ^ 32).toNat)
        pure r.1
      | _ => pure io

/-- `kexec`, with the results of the memory functions: those of the loading loop,
and whether all later ones succeed. -/
def kexec (path : Buffer) (mem : Nat → Bool) (ok : Bool) (argc : Int) : Op Int := do
  act .beginOp
  match ← namei path with
  | none => endWith (-1)
  | some ip =>
    let loaded ← act (.load ip mem)
    act (.iput ip)
    act .endOp
    if loaded ∧ ok then pure argc else pure (-1)

def sysExec (path : Option Buffer) (args : Bool) (mem : Nat → Bool) (ok : Bool) (argc : Int) :
    Op Int :=
  match path with
  | some path => if args then kexec path mem ok argc else pure (-1)
  | none => pure (-1)

def reclaimLoop : Nat → Op Unit
  | 0 => pure ()
  | inum + 1 => do
    reclaimLoop inum
    if ← act (.orphan inum) then
      act .beginOp
      let _ ← act (.typeOf inum)
      act (.iput inum)
      act .endOp
    else pure ()

def ireclaim : Op Int := do
  let n ← act .ninodes
  reclaimLoop n
  pure 0

inductive Call where
  | openFile (path : Option Buffer) (omode : BitVec 32)
  | close (fd : Nat)
  | dup (fd : Nat)
  | link (old new : Option Buffer)
  | unlink (path : Option Buffer)
  | mkdir (path : Option Buffer)
  | mknod (path : Option Buffer) (major minor : Int)
  | chdir (path : Option Buffer)
  | pipe (page : Option Nat) (copied : Bool)
  | fork (child : ProcId) (mem : Bool)
  | exit
  | write (fd : Nat) (src : Nat → Option Byte) (n io : Int)
  | read (fd : Nat) (dst : Nat → Bool) (n io : Int)
  | exec (path : Option Buffer) (args : Bool) (mem : Nat → Bool) (ok : Bool) (argc : Int)
  | reclaim

def Call.op : Call → Op Int
  | .openFile path omode => sysOpen path omode
  | .close fd => sysClose fd
  | .dup fd => sysDup fd
  | .link old new => sysLink old new
  | .unlink path => sysUnlink path
  | .mkdir path => sysMkdir path
  | .mknod path major minor => sysMknod path major minor
  | .chdir path => sysChdir path
  | .pipe page copied => sysPipe page copied
  | .fork child mem => sysFork child mem
  | .exit => sysExit
  | .write fd src n io => sysWrite fd src n io
  | .read fd dst n io => sysRead fd dst n io
  | .exec path args mem ok argc => sysExec path args mem ok argc
  | .reclaim => ireclaim

def Act.exec (p : ProcId) : (a : Act) → SysM a.Res
  | .beginOp => SysM.beginOp
  | .endOp => SysM.endOp
  | .iget i => SysM.onFs (FsM.iget i)
  | .idupCwd => SysM.idupCwd p
  | .iput i => SysM.onFs (FsM.iput i)
  | .search ip name => SysM.onFs (FsM.search ip name)
  | .typeOf ip => SysM.onFs (FsM.typeOf ip)
  | .createAt dp name type major minor => SysM.onFs (FsM.createAt dp name type major minor)
  | .openAt ip omode => SysM.openAt p ip omode
  | .unlinkAt dp name => SysM.onFs (FsM.unlinkAt dp name)
  | .linkCount ip => SysM.onFs (FsM.linkCount ip)
  | .linkEnter dp name ip => SysM.onFs (FsM.linkEnter dp name ip)
  | .linkUncount ip => SysM.onFs (FsM.linkUncount ip)
  | .swapCwd next => SysM.swapCwd p next
  | .dup fd => SysM.dup p fd
  | .takeFd fd => SysM.takeFd p fd
  | .fdalloc f => SysM.fdalloc p f
  | .closeFile f => SysM.closeFile f
  | .pipealloc page => SysM.pipealloc page
  | .forkFiles child => SysM.forkFiles p child
  | .fileOf fd => SysM.fileOf p fd
  | .writeAt fd src n => SysM.writeAt p fd src n
  | .readAt fd dst n => SysM.readAt p fd dst n
  | .load ip mem => SysM.onFs (FsM.load ip mem)
  | .ninodes => do
    let s ← get
    pure s.fs.sb.ninodes
  | .orphan inum => SysM.onFs (FsM.orphan inum)
  | .panic msg => throw msg

end Xv6
