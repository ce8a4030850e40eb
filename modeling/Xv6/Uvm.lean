import Xv6.Vm

/-! User memory: growing, shrinking and freeing an address space, page faults, and
the copies between the kernel and user space. -/

namespace Xv6.Vm

open Fallible

/-- The parts of a process that its memory is found by. -/
structure Task where
  pagetable : Nat
  sz : Nat
  trapframe : Nat

def uvmdealloc (pagetable oldsz newsz : Nat) : VmM Nat := do
  if oldsz ≤ newsz then pure oldsz
  else
    if pgroundup newsz < pgroundup oldsz then
      let npages := i32 ((pgroundup oldsz - pgroundup newsz) / pgsize : Nat)
      uvmunmap pagetable (pgroundup newsz) (npages % 2 ^ 64).toNat true
      pure newsz
    else pure newsz

/-- A page of its own is filled and mapped; it is freed again if there is no room
for the tables. -/
def mapNew (pagetable va : Nat) (perm : Pte) (fill : Nat → VmM Unit) : VmM (Option Nat) := do
  match ← kalloc with
  | none => pure none
  | some mem =>
    fill mem
    if ← mappages pagetable va pgsize mem perm then pure (some mem)
    else
      kfree mem
      pure none

def zeroFill (mem : Nat) : VmM Unit := setPage mem zeroPage

def allocLoop (pagetable oldsz newsz : Nat) (xperm : Pte) : Nat → Nat → VmM Nat
  | 0, a => if a < newsz then throw "uvmalloc: endless" else pure newsz
  | fuel + 1, a =>
    if a < newsz then do
      match ← mapNew pagetable a (pteR ||| pteU ||| xperm) zeroFill with
      | none =>
        let _ ← uvmdealloc pagetable a oldsz
        pure 0
      | some _ => allocLoop pagetable oldsz newsz xperm fuel (u64 (a + pgsize))
    else pure newsz

def uvmalloc (pagetable oldsz newsz : Nat) (xperm : Pte) : VmM Nat :=
  if newsz < oldsz then pure oldsz
  else allocLoop pagetable (pgroundup oldsz) newsz xperm
    ((newsz - pgroundup oldsz) / pgsize + 1) (pgroundup oldsz)

def freeChild (free : Nat → VmM Unit) (pagetable : Nat) (i : Fin 512) : VmM Unit := do
  let s ← get
  let pte := (s.page pagetable).pte i
  if pte &&& pteV ≠ 0 ∧ pte &&& (pteR ||| pteW ||| pteX) = 0 then
    free (pte2pa pte)
    setPte pagetable i 0
  else if pte &&& pteV ≠ 0 then throw "freewalk: leaf"
  else pure ()

def freewalk : Nat → Nat → VmM Unit
  | 0, _ => throw "freewalk: endless"
  | depth + 1, pagetable => do
    loop (fun i => freeChild (freewalk depth) pagetable (entryIndex i)) 512
    kfree pagetable

def uvmfree (pagetable sz : Nat) : VmM Unit := do
  if 0 < sz then uvmunmap pagetable 0 (pgroundup sz / pgsize) true else pure ()
  freewalk 3 pagetable

def ismapped (pagetable va : Nat) : VmM Bool := do
  match ← walk pagetable va false with
  | none => pure false
  | some slot =>
    let pte ← readPte slot
    pure (decide (pte &&& pteV ≠ 0))

def vmfault (p : Task) (pagetable va : Nat) : VmM Nat := do
  if p.sz ≤ va then pure 0
  else if ← ismapped pagetable (pgrounddown va) then pure 0
  else
    match ← mapNew p.pagetable (pgrounddown va) (pteW ||| pteU ||| pteR) zeroFill with
    | none => pure 0
    | some mem => pure mem

def faultIn (p : Task) (pagetable va0 : Nat) : VmM Nat := do
  let pa0 ← walkaddr pagetable va0
  if pa0 = 0 then vmfault p pagetable va0 else pure pa0

def written (byte : Nat → Byte) (off : Nat) (src : List Byte) (k : Nat) : Byte :=
  if off ≤ k ∧ k < off + src.length then src.getD (k - off) 0 else byte k

def storeBytes (pa off : Nat) (src : List Byte) : VmM Unit := do
  let s ← get
  setPage pa { s.page pa with byte := written (s.page pa).byte off src }

def excerpt (byte : Nat → Byte) (off n : Nat) : List Byte :=
  (List.range n).map (fun k => byte (off + k))

def loadBytes (pa off n : Nat) : VmM (List Byte) := do
  let s ← get
  pure (excerpt (s.page pa).byte off n)

def copyoutLoop (p : Task) (pagetable : Nat) : Nat → Nat → List Byte → VmM Bool
  | 0, _, src => if src = [] then pure true else throw "copyout: endless"
  | fuel + 1, dstva, src =>
    if src = [] then pure true
    else if maxva ≤ pgrounddown dstva then pure false
    else do
      let va0 := pgrounddown dstva
      let pa0 ← faultIn p pagetable va0
      if pa0 = 0 then pure false
      else
        match ← walk pagetable va0 false with
        | none => throw "copyout: null"
        | some slot =>
          let pte ← readPte slot
          if pte &&& pteW = 0 then pure false
          else
            let n := min (pgsize - (dstva - va0)) src.length
            storeBytes pa0 (dstva - va0) (src.take n)
            copyoutLoop p pagetable fuel (u64 (va0 + pgsize)) (src.drop n)

def copyout (p : Task) (pagetable dstva : Nat) (src : List Byte) : VmM Bool :=
  copyoutLoop p pagetable src.length dstva src

def copyinLoop (p : Task) (pagetable : Nat) : Nat → Nat → Nat → List Byte → VmM (Bool × List Byte)
  | 0, _, len, dst => if len = 0 then pure (true, dst) else throw "copyin: endless"
  | fuel + 1, srcva, len, dst =>
    if len = 0 then pure (true, dst)
    else do
      let va0 := pgrounddown srcva
      let pa0 ← faultIn p pagetable va0
      if pa0 = 0 then pure (false, dst)
      else
        let n := min (pgsize - (srcva - va0)) len
        let bytes ← loadBytes pa0 (srcva - va0) n
        copyinLoop p pagetable fuel (u64 (va0 + pgsize)) (len - n) (dst ++ bytes)

def copyin (p : Task) (pagetable srcva len : Nat) : VmM (Bool × List Byte) :=
  copyinLoop p pagetable len srcva len []

def copyinstrLoop (pagetable : Nat) : Nat → Nat → Nat → List Byte → VmM (Bool × List Byte)
  | 0, _, max, dst => if max = 0 then pure (false, dst) else throw "copyinstr: endless"
  | fuel + 1, srcva, max, dst =>
    if max = 0 then pure (false, dst)
    else do
      let va0 := pgrounddown srcva
      let pa0 ← walkaddr pagetable va0
      if pa0 = 0 then pure (false, dst)
      else
        let n := min (pgsize - (srcva - va0)) max
        let bytes ← loadBytes pa0 (srcva - va0) n
        if bytes.contains 0 then pure (true, dst ++ bytes.takeWhile (· ≠ 0) ++ [0])
        else copyinstrLoop pagetable fuel (u64 (va0 + pgsize)) (max - n) (dst ++ bytes)

/-- Whether the string has ended, and what has been copied of it. -/
def copyinstr (pagetable srcva max : Nat) : VmM (Bool × List Byte) :=
  copyinstrLoop pagetable max srcva max []

def fetchaddr (p : Task) (addr : Nat) : VmM (Option (List Byte)) := do
  if p.sz ≤ addr ∨ p.sz < u64 (addr + 8) then pure none
  else
    let r ← copyin p p.pagetable addr 8
    if r.1 then pure (some r.2) else pure none

def fetchstr (p : Task) (addr max : Nat) : VmM (Option (List Byte)) := do
  let r ← copyinstr p.pagetable addr max
  if r.1 then pure (some r.2.dropLast) else pure none

def translate (pagetable va : Nat) (perm : Pte) : VmM (Option Nat) := do
  if maxva ≤ va then pure none
  else
    match ← walk pagetable va false with
    | none => pure none
    | some slot =>
      let pte ← readPte slot
      if pte &&& pteV ≠ 0 ∧ pte &&& pteU ≠ 0 ∧ pte &&& perm ≠ 0 then pure (some (pte2pa pte))
      else pure none

/-- An access of the user program: a fault goes to `vmfault`, and the process is
killed if that does not help. -/
def access (p : Task) (va : Nat) (perm : Pte) : VmM (Option Nat) := do
  match ← translate p.pagetable va perm with
  | some pa => pure (some pa)
  | none =>
    let mem ← vmfault p p.pagetable va
    if mem ≠ 0 then translate p.pagetable va perm else pure none

def userLoad (p : Task) (va : Nat) : VmM (Option Byte) := do
  match ← access p va pteR with
  | none => pure none
  | some pa =>
    let s ← get
    pure (some ((s.page pa).byte (va - pgrounddown va)))

def userStore (p : Task) (va : Nat) (b : Byte) : VmM Bool := do
  match ← access p va pteW with
  | none => pure false
  | some pa =>
    storeBytes pa (va - pgrounddown va) [b]
    pure true

def procPagetable (frame : Nat) : VmM (Option Nat) := do
  match ← uvmcreate with
  | none => pure none
  | some pagetable =>
    let s ← get
    if ← mappages pagetable trampoline pgsize s.trampText (pteR ||| pteX) then
      if ← mappages pagetable trapframe pgsize frame (pteR ||| pteW) then pure (some pagetable)
      else
        uvmunmap pagetable trampoline 1 false
        uvmfree pagetable 0
        pure none
    else
      uvmfree pagetable 0
      pure none

def addInt (x : Nat) (n : Int) : Nat := ((x + n) % 2 ^ 64).toNat

def growproc (p : Task) (n : Int) : VmM (Option Nat) := do
  if 0 < n then
    if trapframe < addInt p.sz n then pure none
    else
      let sz ← uvmalloc p.pagetable p.sz (addInt p.sz n) pteW
      if sz = 0 then pure none else pure (some sz)
  else if n < 0 then
    let sz ← uvmdealloc p.pagetable p.sz (addInt p.sz n)
    pure (some sz)
  else pure (some p.sz)

def sbrk (p : Task) (n : Int) (eager : Bool) : VmM (Option Nat) :=
  if eager ∨ n < 0 then growproc p n
  else if addInt p.sz n < p.sz then pure none
  else if trapframe < addInt p.sz n then pure none
  else pure (some (addInt p.sz n))

end Xv6.Vm
