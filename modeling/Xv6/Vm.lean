import Xv6.Fs

/-! Physical memory, its allocator and the page tables. A page is used as a table
or as data between `kalloc` and `kfree`, so that the two readings of a page are
kept apart. Addresses are numbers below `2 ^ 64`. -/

namespace Xv6.Vm

open Fallible

def pgsize : Nat := 4096

def maxva : Nat := 2 ^ (9 + 9 + 9 + 12 - 1)

def trampoline : Nat := maxva - pgsize

def trapframe : Nat := trampoline - pgsize

def pgroundup (a : Nat) : Nat := u64 (a + pgsize - 1) / pgsize * pgsize

def pgrounddown (a : Nat) : Nat := a / pgsize * pgsize

abbrev Pte := BitVec 64

def pteV : Pte := 1

def pteR : Pte := 2

def pteW : Pte := 4

def pteX : Pte := 8

def pteU : Pte := 16

def pa2pte (pa : Nat) : Pte := (BitVec.ofNat 64 pa >>> 12) <<< 10

def pte2pa (pte : Pte) : Nat := ((pte >>> 10) <<< 12).toNat

def pteFlags (pte : Pte) : Pte := pte &&& 0x3FF

def px (level va : Nat) : Fin 512 := Fin.ofNat 512 (va >>> (12 + 9 * level))

def entryIndex (i : Nat) : Fin 512 := Fin.ofNat 512 i

structure Page where
  pte : Fin 512 → Pte
  byte : Nat → Byte

/-- `deny` says which calls of `kalloc` fail although a page is free; `failures`
counts all that have failed. `trampText` is the trampoline's code. -/
structure Ram where
  page : Nat → Page
  freelist : List Nat
  kend : Nat
  phystop : Nat
  trampText : Nat
  deny : Nat → Bool
  calls : Nat
  failures : Nat

abbrev VmM := StateT Ram (Except String)

def junk (b : Byte) (w : Pte) : Page := ⟨fun _ => w, fun _ => b⟩

def zeroPage : Page := junk 0 0

def setPage (pa : Nat) (v : Page) : VmM Unit :=
  modify (fun s => { s with page := Function.update s.page pa v })

def setPte (pa : Nat) (i : Fin 512) (pte : Pte) : VmM Unit := do
  let s ← get
  setPage pa { s.page pa with pte := Function.update (s.page pa).pte i pte }

def kalloc : VmM (Option Nat) := do
  let s ← get
  match s.freelist, s.deny s.calls with
  | r :: rest, false =>
    set { s with calls := s.calls + 1, freelist := rest }
    setPage r (junk 5 0x0505050505050505)
    pure (some r)
  | _, _ =>
    set { s with calls := s.calls + 1, failures := s.failures + 1 }
    pure none

def kfree (pa : Nat) : VmM Unit := do
  let s ← get
  if pa % pgsize ≠ 0 ∨ pa < s.kend ∨ s.phystop ≤ pa then throw "kfree"
  else
    setPage pa (junk 1 0x0101010101010101)
    modify (fun s => { s with freelist := pa :: s.freelist })

def descend (va : Nat) (alloc : Bool) : Nat → Nat → VmM (Option Nat)
  | 0, pagetable => pure (some pagetable)
  | level + 1, pagetable => do
    let s ← get
    let pte := (s.page pagetable).pte (px (level + 1) va)
    if pte &&& pteV ≠ 0 then descend va alloc level (pte2pa pte)
    else if alloc then
      match ← kalloc with
      | none => pure none
      | some child =>
        setPage child zeroPage
        setPte pagetable (px (level + 1) va) (pa2pte child ||| pteV)
        descend va alloc level child
    else pure none

def walk (pagetable va : Nat) (alloc : Bool) : VmM (Option (Nat × Fin 512)) := do
  if maxva ≤ va then throw "walk"
  else
    match ← descend va alloc 2 pagetable with
    | none => pure none
    | some table => pure (some (table, px 0 va))

def readPte (slot : Nat × Fin 512) : VmM Pte := do
  let s ← get
  pure ((s.page slot.1).pte slot.2)

def walkaddr (pagetable va : Nat) : VmM Nat := do
  if maxva ≤ va then pure 0
  else
    match ← walk pagetable va false with
    | none => pure 0
    | some slot =>
      let pte ← readPte slot
      if pte &&& pteV = 0 then pure 0
      else if pte &&& pteU = 0 then pure 0
      else pure (pte2pa pte)

def mapLoop (pagetable last : Nat) (perm : Pte) : Nat → Nat → Nat → VmM Bool
  | 0, _, _ => pure true
  | fuel + 1, a, pa => do
    match ← walk pagetable a true with
    | none => pure false
    | some slot =>
      let pte ← readPte slot
      if pte &&& pteV ≠ 0 then throw "mappages: remap"
      else
        setPte slot.1 slot.2 (pa2pte pa ||| perm ||| pteV)
        if a = last then pure true
        else mapLoop pagetable last perm fuel (u64 (a + pgsize)) (u64 (pa + pgsize))

def mappages (pagetable va size pa : Nat) (perm : Pte) : VmM Bool :=
  if va % pgsize ≠ 0 then throw "mappages: va not aligned"
  else if size % pgsize ≠ 0 then throw "mappages: size not aligned"
  else if size = 0 then throw "mappages: size"
  else mapLoop pagetable (u64 (va + size - pgsize)) perm (size / pgsize) va pa

def uvmcreate : VmM (Option Nat) := do
  match ← kalloc with
  | none => pure none
  | some pagetable =>
    setPage pagetable zeroPage
    pure (some pagetable)

def unmapPage (pagetable a : Nat) (doFree : Bool) : VmM Unit := do
  match ← walk pagetable a false with
  | none => pure ()
  | some slot =>
    let pte ← readPte slot
    if pte &&& pteV = 0 then pure ()
    else
      if doFree then kfree (pte2pa pte) else pure ()
      setPte slot.1 slot.2 0

def unmapLoop (pagetable stop : Nat) (doFree : Bool) : Nat → Nat → VmM Unit
  | 0, _ => pure ()
  | fuel + 1, a => do
    if a < stop then
      unmapPage pagetable a doFree
      unmapLoop pagetable stop doFree fuel (u64 (a + pgsize))
    else pure ()

def uvmunmap (pagetable va npages : Nat) (doFree : Bool) : VmM Unit :=
  if va % pgsize ≠ 0 then throw "uvmunmap: not aligned"
  else unmapLoop pagetable (u64 (va + npages * pgsize)) doFree npages va

end Xv6.Vm
