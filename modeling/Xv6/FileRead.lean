import Xv6.UserCopies
import Xv6.FileBytes

/-! `fileread` on an inode, from the content of the file to the memory of the process. -/

namespace Xv6

open Fallible FsM List Fs

/-- The file system and the memory that a read goes between. -/
structure Reading where
  fs : Fs
  ram : Vm.Ram

abbrev ReadM := StateT Reading (Except String)

namespace ReadM

def onFs {α : Type} (m : FsM α) : ReadM α := fun s =>
  (m s.fs).map (fun r => (r.1, { s with fs := r.2 }))

def onRam {α : Type} (m : Vm.VmM α) : ReadM α := fun s =>
  (m s.ram).map (fun r => (r.1, { s with ram := r.2 }))

def eitherCopyout (p : Vm.Task) (dst : Nat) (src : List Byte) : ReadM Bool :=
  onRam (Vm.copyout p p.pagetable dst src)

def readLoop (p : Vm.Task) (ip n : Nat) : Nat → Nat → Nat → Nat → ReadM Int
  | 0, _, _, tot => pure tot
  | fuel + 1, dst, off, tot =>
    if tot < n then do
      let addr ← onFs (bmap ip (off / bsize))
      if addr = 0 then pure tot
      else
        let s ← onFs get
        let m := min (n - tot) (bsize - off % bsize)
        if ← eitherCopyout p dst (slice (s.block addr) (off % bsize) m) then
          readLoop p ip n fuel (u64 (dst + m)) (off + m) (tot + m)
        else pure (-1)
    else pure tot

def readi (p : Vm.Task) (ip dst off n : Nat) : ReadM Int := do
  let d ← onFs (inode ip)
  if off > d.size ∨ u32 (off + n) < off then pure 0
  else
    let n := if u32 (off + n) > d.size then d.size - off else n
    readLoop p ip n n dst off 0

end ReadM

section Reads

variable {all : Nat → Prop} {start root sz frame ip off n tot addr : Nat} {s t u : Reading}
  {p : Vm.Task} {d : Node} {E : String → Prop}

/-- What a read has done to the memory of the process: the first `k` bytes are there. -/
structure Delivered (all : Nat → Prop) (root sz : Nat) (s t : Reading) (ip off addr k : Nat) :
    Prop where
  fs : t.fs = s.fs
  memory : Vm.Became all root s.ram t.ram sz (t.ram.cell root)
  bytes : Vm.seen (t.ram.view root sz) =
    Vm.replaced (Vm.seen (s.ram.view root sz)) addr (s.fs.bytes ip off k)
  served : 0 < k → Vm.Served s.ram t.ram root sz Vm.pteW addr

theorem Delivered.allowed_zero {va : Nat} (h : Delivered all root sz s t ip off addr 0) :
    Vm.Allowed (t.ram.view root sz) Vm.pteW va ↔ Vm.Allowed (s.ram.view root sz) Vm.pteW va := by
  rw [Vm.Allowed, Vm.Allowed, h.bytes, show s.fs.bytes ip off 0 = [] from rfl, Vm.replaced_nil]

theorem Delivered.next {m r : Nat} (h : Delivered all root sz s t ip off addr tot)
    (hfs : u.fs = t.fs) (hbecame : Vm.Became all root t.ram u.ram sz (u.ram.cell root))
    (hbrings : Vm.Brings root sz t.ram u.ram)
    (hserved : ∀ i < r, Vm.Served t.ram u.ram root sz Vm.pteW (addr + tot + i))
    (hr : r ≤ m) (hbytes : Vm.seen (u.ram.view root sz) =
      Vm.replaced (Vm.seen (t.ram.view root sz)) (addr + tot)
        ((s.fs.bytes ip (off + tot) m).take r)) :
    Delivered all root sz s u ip off addr (tot + r) where
  fs := hfs.trans h.fs
  memory := h.memory.trans hbecame
  bytes := by
    have hlength : (s.fs.bytes ip off tot).length = tot := by
      rw [Fs.bytes, length_map, length_range]
    have htake : (s.fs.bytes ip (off + tot) m).take r = s.fs.bytes ip (off + tot) r := by
      rw [Fs.bytes, Fs.bytes, ← map_take, take_range, min_eq_left hr]
    have happend : Vm.replaced (Vm.replaced (Vm.seen (s.ram.view root sz)) addr
        (s.fs.bytes ip off tot)) (addr + (s.fs.bytes ip off tot).length)
          (s.fs.bytes ip (off + tot) r) = _ := Vm.replaced_append
    rw [hlength] at happend
    rw [hbytes, h.bytes, htake, happend, Fs.bytes_add]
  served hpos := by
    rcases Nat.eq_zero_or_pos tot with rfl | htot
    · obtain ⟨hallowed, hthere⟩ := hserved 0 (by omega)
      exact ⟨h.allowed_zero.mp hallowed, hthere⟩
    · obtain ⟨hallowed, hthere⟩ := h.served htot
      exact ⟨hallowed, fun hmissing => hthere (hbrings.missing _ hmissing)⟩

theorem Delivered.refl (hspace : Vm.Space all root sz frame s.ram) :
    Delivered all root sz s s ip off addr 0 :=
  ⟨rfl, hspace.user.became, (Vm.replaced_nil _ _).symm, fun h => absurd h (lt_irrefl 0)⟩

end Reads

end Xv6
