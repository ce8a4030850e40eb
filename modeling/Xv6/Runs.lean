import Xv6.Accounts
import Xv6.Boot
import Xv6.DirectoryMap

/-! Runs of the whole system: any number of processes make system calls, and
their steps interleave in any order. -/

namespace Xv6

open Interleave Fallible FsM Shares Option

abbrev SysWorld := Interleave.World Act.Res Sys ProcId Int

def SysWorld.idle (w : SysWorld) (p : ProcId) : Bool :=
  match w.prog p with
  | .done _ => true
  | .step _ _ => false

theorem SysWorld.done_of_idle {w : SysWorld} {p : ProcId} (h : w.idle p = true) : ∃ r, w.prog p = .done r := by
  unfold SysWorld.idle at h
  cases hp : w.prog p with
  | done r => exact ⟨r, rfl⟩
  | step a k => simp [hp] at h

abbrev SysEvent := Interleave.Event ProcId Call

def sysFire (w : SysWorld) (ev : SysEvent) : Option (Except String SysWorld) :=
  fire (fun p a => a.exec p) (fun _ c => c.op) w ev

def sysMachine : Machine SysWorld SysEvent := machine (fun p a => a.exec p) (fun _ c => c.op)

/-- Nobody is in the middle of a call, and the tables in memory are in order. -/
structure Started (w : SysWorld) : Prop where
  idle : ∀ p, ∃ r, w.prog p = .done r
  files : w.st.IdleFiles
  outstanding : w.st.fs.outstanding = 0
  accounted : Booked w.st.abs (fun _ => {})

/-- The image is in order too: no file has a hole, and every block is marked as
it is used. -/
structure Sane (start : Nat) (w : SysWorld) : Prop where
  started : Started w
  good : Good start w.st.fs

/-- What the processes hold behind a run in which they began with nothing. -/
def heldAt (w : SysWorld) (es : List SysEvent) : ProcId → Held :=
  heldBehind (fun p a => a.exec p) (fun _ c => c.op) contract (fun _ => {}) w es

def bootWorld (disk : Fs) : SysWorld := ⟨bootOn disk, fun _ => .done 0⟩

def childProc : ProcId := ⟨1, by decide⟩

def alone (p : ProcId) (c : Call) (n : Nat) : List SysEvent :=
  .call p c :: List.replicate n (.step p)

def pathA : CString.Buffer := [slash, 97#8, 0#8]

theorem boot_started {disk : Fs} (href : ∀ i, (disk.itable i).ref = 0)
    (htx : disk.outstanding = 0) : Started (bootWorld disk) := by
  refine ⟨fun p => ⟨0, rfl⟩, fun f _ => rfl, htx, ?_⟩
  have hzero : Balanced (fun _ : Nat => 0) (fun (_ : ProcId ⊕ FileId) (_ : Nat) => 0) :=
    fun k => (Finset.sum_eq_zero (fun j _ => rfl)).symm
  refine hzero.one (.inl initProc) (fun j hj => ?_) (fun k => ?_)
  · funext k
    cases j with
    | inl p =>
      have hp : p ≠ initProc := fun he => hj (by rw [he])
      simp [share, Sys.abs, bootWorld, bootOn, hp]
    | inr f => simp [share, Sys.abs, bootWorld, bootOn, File.hold]
  · have hr : (bootWorld disk).st.abs.inodes.ref k = if k = rootino then 1 else 0 := boot_ref href k
    rw [hr]
    simp [share, Sys.abs, bootWorld, bootOn, eq_comm]

theorem boot_sane {data : List Byte} (hdata : data.length ≤ bsize) :
    Sane 10 (bootWorld (image data)) := ⟨boot_started (fun _ => rfl) rfl, boot_good hdata⟩

section Running

variable {start : Nat} {w w' : SysWorld} {es : List SysEvent}

theorem Sane.inv (h : Sane start w) : SysInv start w.st (fun _ => {}) where
  good := h.good
  idle := h.started.files
  outstanding := h.started.outstanding.trans (Finset.sum_eq_zero (fun _ _ => rfl)).symm
  accounted := h.started.accounted
  covered _ := le_rfl

theorem Sane.config (h : Sane start w) :
    Interleave.Config contract (SysInv start) {} w (fun _ => {}) := by
  refine ⟨h.inv, fun p => ?_⟩
  obtain ⟨r, hr⟩ := h.started.idle p
  rw [hr]
  rfl

theorem Sane.run (h : Sane start w) (hrun : sysMachine.exec w es = some w') :
    Interleave.Config contract (SysInv start) {} w' (heldAt w es) :=
  h.config.run (sys_sound start) (fun _ c => call_closed c) (along_true es) hrun

theorem Sane.error (h : Sane start w) (hrun : sysMachine.exec w es = some w') {ev : SysEvent}
    {e : String} (hf : sysFire w' ev = some (.error e)) : Benign e ∨ e = "unlink: nlink < 1" :=
  (h.run hrun).error (sys_sound start) (fun _ c => call_closed c) (meetsNext_true w' ev) hf

theorem balloc_unmarked {s t : Fs} {b : BlockNo} (hsize : s.sb.size < 2 ^ 31)
    (h : balloc s = .ok (b, t)) (hb : b ≠ 0) : b.toNat < s.sb.size ∧ s.bitmap b = false := by
  cases hf : (List.range s.sb.size).find? (fun b => !s.bitmap (BitVec.ofNat 32 b)) with
  | none =>
    rw [balloc_of_none hf] at h
    exact absurd (congrArg Prod.fst (Except.ok.inj h)).symm hb
  | some n =>
    rw [balloc_of_some hf] at h
    have hn := List.mem_range.mp (List.mem_of_find?_eq_some hf)
    have hbit : s.bitmap (BitVec.ofNat 32 n) = false := by simpa using List.find?_some hf
    obtain ⟨_, s1, -, h⟩ := bind_eq_ok h
    obtain ⟨_, s2, -, h⟩ := bind_eq_ok h
    obtain ⟨_, s3, -, h⟩ := bind_eq_ok h
    obtain rfl : BitVec.ofNat 32 n = b := congrArg Prod.fst (Except.ok.inj h)
    refine ⟨?_, hbit⟩
    rw [BitVec.toNat_ofNat, Nat.mod_eq_of_lt (by omega)]
    exact hn

/-- In every run every block is free, metadata, or in one place; no block in use
is allocated, and no free block is freed. -/
theorem block_ownership (h : Sane start w) (hrun : sysMachine.exec w es = some w') :
    (∀ b, b.toNat < w'.st.fs.sb.size → (w'.st.fs.bitmap b = true ↔
      b.toNat < start ∨ ∃ i k, w'.st.fs.owner (i, k) = some b)) ∧
    (∀ i k b, w'.st.fs.owner (i, k) = some b → start ≤ b.toNat ∧ b.toNat < w'.st.fs.sb.size ∧
      ∀ j l, w'.st.fs.owner (j, l) = some b → j = i ∧ l = k) ∧
    (∀ b t, balloc w'.st.fs = .ok (b, t) → b ≠ 0 →
      start ≤ b.toNat ∧ ∀ i k, w'.st.fs.owner (i, k) ≠ some b) ∧
    ∀ ev, sysFire w' ev ≠ some (.error "freeing free block") := by
  have hgood := (h.run hrun).inv.good
  have hled := hgood.owned
  refine ⟨fun b hb => ?_, fun i k b hb => ⟨?_, ?_, ?_⟩, fun b t hbt hb0 => ?_, fun ev hf => ?_⟩
  · have hbusy : w'.st.fs.busy b ↔ _ := hled.busy_iff b
    rw [Fs.busy, and_iff_right hb] at hbusy
    rw [hbusy]
    simp
  · exact not_lt.mp (hled.owned (i, k) b hb).1
  · exact (hled.busy_of_owner hb).1
  · intro j l hj
    exact Prod.mk.inj (hled.inj (j, l) (i, k) b hj hb)
  · obtain ⟨hlt, hbit⟩ := balloc_unmarked hgood.size_lt hbt hb0
    have hfree : ¬ w'.st.fs.busy b := fun hbusy => by simp [hbusy.2] at hbit
    refine ⟨not_lt.mp (fun hs => hfree ((hled.busy_iff b).mpr (.inl hs))), fun i k => ?_⟩
    exact hled.not_owned hfree (i, k)
  · rcases h.error hrun hf with he | he
    · exact absurd he (by decide)
    · exact absurd he (by decide)

theorem block_ownership_mkdir :
    ∃ w', sysMachine.exec (bootWorld (image rootData)) (alone initProc (.mkdir (some pathA)) 7) = some w' ∧
      (∀ b, b.toNat < w'.st.fs.sb.size → (w'.st.fs.bitmap b = true ↔
        b.toNat < 10 ∨ ∃ i k, w'.st.fs.owner (i, k) = some b)) ∧
      ∀ ev, sysFire w' ev ≠ some (.error "freeing free block") := by
  obtain ⟨w', hw⟩ := isSome_iff_exists.mp (show (sysMachine.exec (bootWorld (image rootData))
    (alone initProc (.mkdir (some pathA)) 7)).isSome = true by decide +kernel)
  have h := block_ownership (boot_sane (by decide)) hw
  exact ⟨w', hw, h.1, h.2.2.2⟩

/-- In every run every file has a block for each part of its content. A read
finds them all, so that it changes nothing and never needs a transaction. -/
theorem no_holes (h : Sane start w) (hrun : sysMachine.exec w es = some w') :
    (∀ i, w'.st.fs.Filled i) ∧
    (∀ ip t, ilock ip w'.st.fs = .ok ((), t) →
      (∀ bn, bn * bsize < (t.node ip).size → ∃ b, b ≠ 0 ∧ bmap ip bn t = .ok (b, t)) ∧
      ∀ dst off n, n < 2 ^ 32 → Ends (readi ip dst off n) t (fun r u => u = t ∧
        ((∀ i < n, dst i = true) → off ≤ (t.node ip).size → off + n < 2 ^ 32 →
          r.1 = (min n ((t.node ip).size - off) : Nat))) (fun _ => False)) ∧
    ∀ ev, sysFire w' ev ≠ some (.error "log_write outside of trans") := by
  have hgood := (h.run hrun).inv.good
  refine ⟨hgood.filled, fun ip t hlock => ?_, fun ev hf => ?_⟩
  · obtain ⟨n, -, hn, hb, hl⟩ := (ilock_spec (E := fun _ => True) hgood (fun _ => trivial)
      (fun _ => trivial)).ok hlock
    have hv := (Fs.loaded_iff.mp hl).2
    have hty : (t.node ip).type ≠ 0 := fun h0 => by rw [Fs.view_eq_none.mpr h0] at hn; simp at hn
    refine ⟨fun bn hbn => ?_, fun dst off m hm => ?_⟩
    · obtain ⟨b, hown⟩ := ne_none_iff_exists'.mp (hb.good.filled ip hty bn hbn)
      exact ⟨b, (Fs.owner_eq_some.mp hown).2.1, bmap_present hv hown⟩
    · refine (readi_spec hv (hb.good.filled ip) hty dst off hm).post (fun r u hu => ⟨hu.1, ?_⟩)
      intro hdst hoff hsum
      rw [hu.2 hdst hoff hsum]
  · rcases h.error hrun hf with he | he
    · exact absurd he (by decide)
    · exact absurd he (by decide)

theorem no_holes_mkdir :
    ∃ w', sysMachine.exec (bootWorld (image rootData)) (alone initProc (.mkdir (some pathA)) 7) = some w' ∧
      (∀ i, w'.st.fs.Filled i) ∧
      ∀ ev, sysFire w' ev ≠ some (.error "log_write outside of trans") := by
  obtain ⟨w', hw⟩ := isSome_iff_exists.mp (show (sysMachine.exec (bootWorld (image rootData))
    (alone initProc (.mkdir (some pathA)) 7)).isSome = true by decide +kernel)
  have h := no_holes (boot_sane (by decide)) hw
  exact ⟨w', hw, h.1, h.2.2⟩

end Running

section CrossLinked

def pathB : CString.Buffer := [slash, 98#8, 0#8]

def crossRoot : List Byte :=
  (rootEntries ++ [Dirent.new [97#8, 0#8] 3, Dirent.new [98#8, 0#8] 2]).flatMap Dirent.encode

/-- The file 2 has 13 blocks, and its indirect block 32 is the content of the
file 3 as well. -/
def crossImage : Fs where
  sb := ⟨64, 16⟩
  bitmap b := b.toNat < 34
  block := Function.update (Function.update (fun _ _ => 0) 10 (blit (fun _ => 0) 0 crossRoot)) 32
    (blit (fun _ => 0) 0 [33#8])
  dinode i :=
    if i = rootino then rootNode crossRoot
    else if i = 2 then
      { type := tFile, nlink := 1, size := 12 * bsize + 1
        addrs := fun k => if k ≤ 12 then BitVec.ofNat 32 (20 + k) else 0 }
    else if i = 3 then { type := tFile, nlink := 1, size := 4, addrs := fun k => if k = 0 then 32 else 0 }
    else {}
  itable _ := ⟨0, false, {}⟩
  inuse := 0
  outstanding := 0

theorem cross_filled (i : Nat) : (bootWorld crossImage).st.fs.Filled i := by
  intro hty bn hbn
  have hb : bsize = 1024 := rfl
  rw [hb] at hbn
  by_cases h1 : i = 1
  · subst h1
    have hs : ((bootWorld crossImage).st.fs.node 1).size = 64 := by decide +kernel
    obtain rfl : bn = 0 := by omega
    decide +kernel
  by_cases h2 : i = 2
  · subst h2
    have hs : ((bootWorld crossImage).st.fs.node 2).size = 12 * 1024 + 1 := rfl
    have hlt : bn < 13 := by omega
    have hall : ∀ bn < 13, (bootWorld crossImage).st.fs.owner (2, place bn) ≠ none := by
      decide +kernel
    exact hall bn hlt
  by_cases h3 : i = 3
  · subst h3
    have hs : ((bootWorld crossImage).st.fs.node 3).size = 4 := rfl
    obtain rfl : bn = 0 := by omega
    decide +kernel
  · exfalso
    apply hty
    simp [Fs.node, bootWorld, bootOn, Fs.setInode, crossImage, rootino, h1, h2, h3]

def crossWrite : List SysEvent :=
  alone initProc (.openFile (some pathA) oWronly) 6 ++
    alone initProc (.write 0 (fun i => if i < 4 then some 0 else none) 4 0) 4

theorem holes_from_crossImage : ∃ w', Started (bootWorld crossImage) ∧
    (∀ i, (bootWorld crossImage).st.fs.Filled i) ∧
    sysMachine.exec (bootWorld crossImage) crossWrite = some w' ∧ ¬ w'.st.fs.Filled 2 := by
  have hrun : (sysMachine.exec (bootWorld crossImage) crossWrite).map (fun w =>
      ((w.st.fs.node 2).type, (w.st.fs.node 2).size, w.st.fs.owner (2, place 12))) =
        some (tFile, 12 * bsize + 1, none) := by
    decide +kernel
  obtain ⟨w', hw, hw'⟩ := map_eq_some_iff.mp hrun
  obtain ⟨hty, hrest⟩ := Prod.mk.inj hw'
  obtain ⟨hsize, hown⟩ := Prod.mk.inj hrest
  refine ⟨w', boot_started (fun _ => rfl) rfl, cross_filled, hw, fun hfilled => ?_⟩
  refine hfilled (by rw [hty]; decide) 12 ?_ hown
  rw [hsize]
  decide

end CrossLinked

end Xv6
