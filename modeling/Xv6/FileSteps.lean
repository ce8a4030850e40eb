import Xv6.FileTable
import Xv6.SectionSpecs

/-! What the steps of the file table do. An open file holds a reference to its
inode; a file without references has no type and holds nothing. -/

namespace Xv6

open Fallible FsM SysM

/-- The inode that a file holds, and whether it can be written through it. -/
def File.hold (ff : File) : Option (Nat × Bool) :=
  if ff.type = .inode ∨ ff.type = .device then some (ff.ip, ff.type = .inode && ff.writable)
  else none

structure Abs where
  inodes : Inodes
  cwd : ProcId → Option Nat
  holds : FileId → Option (Nat × Bool)

def Abs.withInodes (X : Abs) (B : Inodes) : Abs := { X with inodes := B }

def Sys.abs (σ : Sys) : Abs := ⟨σ.fs.inodes, σ.cwd, fun f => (σ.ftable f).hold⟩

def Sys.withFile (σ : Sys) (f : FileId) (ff : File) : Sys :=
  { σ with ftable := Function.update σ.ftable f ff }

def Sys.IdleFiles (σ : Sys) : Prop := ∀ f, (σ.ftable f).ref = 0 → (σ.ftable f).type = .none

def OnlyFs (σ τ : Sys) : Prop := τ = { σ with fs := τ.fs }

structure Calm (σ τ : Sys) : Prop where
  fs : τ.fs = σ.fs
  cwd : τ.cwd = σ.cwd
  holds : ∀ f, (τ.ftable f).hold = (σ.ftable f).hold
  idle : σ.IdleFiles → τ.IdleFiles

section Rules

variable {σ τ υ : Sys} {E : String → Prop} {f : FileId} {ff : File} {p : ProcId} {fd : Nat}

theorem OnlyFs.of_fs (σ : Sys) (t : Fs) : OnlyFs σ { σ with fs := t } := rfl

theorem OnlyFs.trans (h : OnlyFs σ τ) (h' : OnlyFs τ υ) : OnlyFs σ υ := by
  unfold OnlyFs at h h' ⊢
  rw [h'] at *
  rw [h]

theorem OnlyFs.idle (h : OnlyFs σ τ) (hI : σ.IdleFiles) : τ.IdleFiles := by
  rw [h]
  exact hI

theorem OnlyFs.abs (h : OnlyFs σ τ) : τ.abs = σ.abs.withInodes τ.fs.inodes := by
  unfold OnlyFs at h
  generalize τ.fs = t at h
  rw [h]
  rfl

theorem onFs_ends {α : Type} {m : FsM α} {Q : α → Fs → Prop} (h : Ends m σ.fs Q E) :
    Ends (onFs m) σ (fun a τ => OnlyFs σ τ ∧ Q a τ.fs) E := by
  cases hm : m σ.fs with
  | error e =>
    refine Ends.of_error (e := e) ?_ (h.error hm)
    simp [onFs, hm]
  | ok r =>
    refine Ends.of_ok (a := r.1) (t := { σ with fs := r.2 }) ?_
      (And.intro (OnlyFs.of_fs σ r.2) (h.ok hm))
    simp [onFs, hm]

theorem onFs_ok {α : Type} {m : FsM α} {a : α} {t : Fs} (h : m σ.fs = .ok (a, t)) :
    onFs m σ = .ok (a, { σ with fs := t }) := by
  simp [onFs, h]

theorem beginOp_run (σ : Sys) : SysM.beginOp σ = .ok ((), { σ with
    fs := { σ.fs with outstanding := σ.fs.outstanding + 1 } }) := rfl

theorem endOp_run (σ : Sys) : SysM.endOp σ = .ok ((), { σ with
    fs := { σ.fs with outstanding := σ.fs.outstanding - 1 } }) := rfl

theorem Calm.refl (σ : Sys) : Calm σ σ := ⟨rfl, rfl, fun _ => rfl, id⟩

theorem Calm.trans (h : Calm σ τ) (h' : Calm τ υ) : Calm σ υ :=
  ⟨h'.fs.trans h.fs, h'.cwd.trans h.cwd, fun f => (h'.holds f).trans (h.holds f),
    fun hI => h'.idle (h.idle hI)⟩

theorem Calm.abs (h : Calm σ τ) : τ.abs = σ.abs := by
  unfold Sys.abs
  rw [h.fs, h.cwd]
  congr 1
  funext f
  exact h.holds f

theorem Calm.setFd (σ : Sys) (p : ProcId) (fd : Nat) (f : Option FileId) :
    Calm σ { σ with ofile := Function.update σ.ofile p (Function.update (σ.ofile p) fd f) } :=
  ⟨rfl, rfl, fun _ => rfl, id⟩

theorem Calm.setPipe (σ : Sys) (pipe : Nat → Option Pipes.Pipe) :
    Calm σ { σ with pipe := pipe } := ⟨rfl, rfl, fun _ => rfl, id⟩

theorem Sys.abs_withFile (σ : Sys) (f : FileId) (ff : File) : (σ.withFile f ff).abs =
    { σ.abs with holds := Function.update σ.abs.holds f ff.hold } := by
  unfold Sys.abs Sys.withFile
  congr 1
  funext g
  by_cases h : g = f
  · subst h
    simp
  · simp [h]

theorem Sys.IdleFiles.withFile (hI : σ.IdleFiles) (hf : ff.ref = 0 → ff.type = .none) :
    (σ.withFile f ff).IdleFiles := by
  intro g hg
  by_cases h : g = f
  · subst h
    simp only [Sys.withFile, Function.update_self] at hg ⊢
    exact hf hg
  · simp only [Sys.withFile, Function.update_of_ne h] at hg ⊢
    exact hI g hg

theorem Calm.setFile (hhold : ff.hold = (σ.ftable f).hold) (hidle : ff.ref = 0 → ff.type = .none) :
    Calm σ (σ.withFile f ff) := by
  refine ⟨rfl, rfl, fun g => ?_, fun hI => hI.withFile hidle⟩
  by_cases h : g = f
  · subst h
    simpa [Sys.withFile] using hhold
  · simp [Sys.withFile, h]

theorem File.hold_none (h : ff.type = .none) : ff.hold = none := by
  simp [File.hold, h]

theorem filealloc_spec : Ends filealloc σ (fun r τ => (r = none ∧ τ = σ) ∨
    ∃ f, r = some f ∧ (σ.ftable f).ref = 0 ∧ τ = σ.withFile f { σ.ftable f with ref := 1 }) E := by
  unfold filealloc
  refine Ends.get_bind ?_
  cases hfind : (List.finRange nfile).find? (fun f => (σ.ftable f).ref = 0) with
  | none => exact Ends.pure (.inl ⟨rfl, rfl⟩)
  | some f =>
    have hf : (σ.ftable f).ref = 0 := by simpa using List.find?_some hfind
    exact Ends.modify_bind (Ends.pure (.inr ⟨f, rfl, hf, rfl⟩))

theorem Calm.alloc (hI : σ.IdleFiles) (hf : (σ.ftable f).ref = 0) :
    Calm σ (σ.withFile f { σ.ftable f with ref := 1 }) :=
  Calm.setFile (by simp [File.hold]) (fun _ => hI f hf)

theorem filedup_spec (hE : E "filedup") : Ends (filedup f) σ (fun _ τ => Calm σ τ) E := by
  unfold filedup
  refine Ends.get_bind ?_
  split_ifs with h
  · exact Ends.throw hE
  · exact Ends.modify (Calm.setFile (by simp [File.hold]) (fun h0 => by simp at h0))

theorem closeFile_spec (hE : E "fileclose") : Ends (closeFile f) σ (fun r τ =>
    (r = none ∧ Calm σ τ) ∨ ∃ i w, r = some i ∧ (σ.ftable f).hold = some (i, w) ∧
      τ = σ.withFile f { σ.ftable f with ref := 0, type := .none }) E := by
  unfold closeFile
  refine Ends.get_bind ?_
  have hcalm : ¬ ((σ.ftable f).type = .inode ∨ (σ.ftable f).type = .device) →
      Calm σ (σ.withFile f { σ.ftable f with ref := 0, type := .none }) := fun ht =>
    Calm.setFile (by rw [File.hold_none rfl, File.hold, if_neg ht]) (fun _ => rfl)
  split_ifs with h h' ht hp
  · exact Ends.throw hE
  · refine Ends.modify_bind (Ends.pure (.inl ⟨rfl, ?_⟩))
    exact Calm.setFile (by simp [File.hold]) (fun h0 => by dsimp only at h0; omega)
  · exact Ends.modify_bind (Ends.pure (.inr ⟨_, _, rfl, if_pos ht, rfl⟩))
  · exact Ends.modify_bind (Ends.modify_bind (Ends.pure
      (.inl ⟨rfl, (hcalm ht).trans (Calm.setPipe _ _)⟩)))
  · exact Ends.modify_bind (Ends.pure (.inl ⟨rfl, hcalm ht⟩))

theorem fdalloc_spec : Ends (fdalloc p f) σ (fun _ τ => Calm σ τ ∧ τ.ftable = σ.ftable) E := by
  unfold fdalloc
  refine Ends.get_bind ?_
  cases (List.range nofile).find? (fun fd => σ.ofile p fd = none) with
  | none => exact Ends.pure ⟨Calm.refl σ, rfl⟩
  | some fd => exact Ends.modify_bind (Ends.pure ⟨Calm.setFd σ p fd (some f), rfl⟩)

theorem argfd_spec : Ends (argfd p fd) σ (fun _ τ => τ = σ) E := by
  unfold argfd
  refine Ends.get_bind ?_
  split_ifs
  · exact Ends.pure rfl
  · exact Ends.pure rfl

theorem dup_spec (hE : E "filedup") : Ends (SysM.dup p fd) σ (fun _ τ => Calm σ τ) E := by
  refine argfd_spec.bind ?_
  rintro r τ rfl
  cases r with
  | none => exact Ends.pure (Calm.refl τ)
  | some f =>
    refine fdalloc_spec.bind (fun r υ hυ => ?_)
    cases r with
    | none => exact Ends.pure hυ.1
    | some fd' =>
      exact (filedup_spec hE).bind (fun _ ρ hρ => Ends.pure (hυ.1.trans hρ))

theorem takeFd_spec : Ends (takeFd p fd) σ (fun _ τ => Calm σ τ) E := by
  refine argfd_spec.bind ?_
  rintro r τ rfl
  exact Ends.modify_bind (Ends.pure (Calm.setFd τ p fd none))

theorem dupFd_spec {child : ProcId} (hE : E "filedup") :
    Ends (dupFd p child fd) σ (fun _ τ => Calm σ τ) E := by
  unfold dupFd
  refine Ends.get_bind ?_
  cases σ.ofile p fd with
  | none => exact Ends.pure (Calm.refl σ)
  | some f =>
    exact (filedup_spec hE).bind (fun _ τ hτ => Ends.modify (hτ.trans (Calm.setFd τ child fd _)))

theorem closeFile_fresh (hE : E "fileclose") (hf : (σ.ftable f).hold = none) :
    Ends (closeFile f) σ (fun r τ => r = none ∧ Calm σ τ) E := by
  refine (closeFile_spec hE).post ?_
  rintro r τ (h | ⟨i, w, -, hw, -⟩)
  · exact h
  · rw [hf] at hw
    simp at hw

theorem pipealloc_spec (hE : E "fileclose") (hI : σ.IdleFiles) (page : Option Nat) :
    Ends (pipealloc page) σ (fun r τ => Calm σ τ ∧
      ∀ r0 r1, r = .bad r0 r1 → r0 = none ∧ r1 = none) E := by
  refine filealloc_spec.bind ?_
  rintro r τ (⟨rfl, rfl⟩ | ⟨f0, rfl, h0, rfl⟩)
  · refine Ends.pure ⟨Calm.refl τ, fun r0 r1 h => ?_⟩
    cases h
    exact ⟨rfl, rfl⟩
  have hc0 := Calm.alloc hI h0
  generalize hτ : σ.withFile f0 { σ.ftable f0 with ref := 1 } = τ at hc0 ⊢
  have hf0 : (τ.ftable f0).type = .none ∧ (τ.ftable f0).ref = 1 := by
    rw [← hτ]
    simp [Sys.withFile, hI f0 h0]
  refine filealloc_spec.bind ?_
  rintro r υ (⟨rfl, rfl⟩ | ⟨f1, rfl, h1, rfl⟩)
  · refine (closeFile_fresh hE (File.hold_none hf0.1)).bind (fun r υ hυ => Ends.pure ⟨hc0.trans hυ.2, ?_⟩)
    intro r0 r1 h
    cases h
    exact ⟨hυ.1, rfl⟩
  have hne : f1 ≠ f0 := fun he => by rw [he, hf0.2] at h1; simp at h1
  have hc1 := Calm.alloc (hc0.idle hI) h1
  have hf1 : (τ.ftable f1).type = .none := hc0.idle hI f1 h1
  generalize hυ : τ.withFile f1 { τ.ftable f1 with ref := 1 } = υ at hc1 ⊢
  have hg0 : υ.ftable f0 = τ.ftable f0 := by
    rw [← hυ]
    simp [Sys.withFile, Ne.symm hne]
  have hg1 : (υ.ftable f1).type = .none ∧ (υ.ftable f1).ref = 1 := by
    rw [← hυ]
    simp [Sys.withFile, hf1]
  refine Ends.get_bind ?_
  cases page.filter (fun pi => (υ.pipe pi).isNone) with
  | none =>
    have h0 : (υ.ftable f0).hold = none := by rw [hg0, File.hold_none hf0.1]
    refine (closeFile_fresh hE h0).bind (fun r0 ρ hρ => ?_)
    have h1 : (ρ.ftable f1).hold = none := by rw [hρ.2.holds, File.hold_none hg1.1]
    refine (closeFile_fresh hE h1).bind (fun r1 π hπ => Ends.pure ⟨?_, fun a b h => ?_⟩)
    · exact ((hc0.trans hc1).trans hρ.2).trans hπ.2
    · cases h
      exact ⟨hρ.1, hπ.1⟩
  | some pi =>
    refine Ends.modify_bind (Ends.get_bind (Ends.modify_bind (Ends.get_bind (Ends.modify_bind
      (Ends.pure ⟨?_, fun r0 r1 h => by cases h⟩)))))
    have hp := Calm.setPipe υ (Function.update υ.pipe pi (some .opened))
    generalize hκ : ({ υ with pipe := Function.update υ.pipe pi (some .opened) } : Sys) = κ at hp ⊢
    have hft : κ.ftable = υ.ftable := by rw [← hκ]
    have hs0 : Calm κ (κ.withFile f0 { κ.ftable f0 with
        type := .pipe, readable := true, writable := false, pipe := pi }) := by
      refine Calm.setFile ?_ (fun h => ?_)
      · rw [hft, hg0, File.hold_none hf0.1]
        rfl
      · simp [hft, hg0, hf0.2] at h
    refine ((hc0.trans hc1).trans hp).trans (hs0.trans (Calm.setFile ?_ (fun h => ?_)))
    · rw [hs0.holds, hft, File.hold_none hg1.1]
      rfl
    · simp [hne, hft, hg1.2] at h

theorem idupCwd_spec {start : Nat} (hE : E "no cwd") (h : Good start σ.fs)
    (hcwd : ∀ c, σ.cwd p = some c → 1 ≤ (σ.fs.itable c).ref) :
    Ends (idupCwd p) σ (fun i τ => σ.cwd p = some i ∧ OnlyFs σ τ ∧
      Becomes start σ.fs τ.fs (σ.fs.inodes.get i)) E := by
  unfold idupCwd
  refine Ends.get_bind ?_
  cases hc : σ.cwd p with
  | none => exact Ends.throw hE
  | some i =>
    exact (onFs_ends (idup_spec h (hcwd i hc))).bind (fun _ τ hτ => Ends.pure ⟨rfl, hτ.1, hτ.2⟩)

theorem forkFiles_spec {start : Nat} {child : ProcId} (hE : E "filedup") (hE' : E "no cwd")
    (h : Good start σ.fs) (hI : σ.IdleFiles)
    (hcwd : ∀ c, σ.cwd p = some c → 1 ≤ (σ.fs.itable c).ref) :
    Ends (forkFiles p child) σ (fun r τ => (r = false ∧ τ = σ) ∨ (r = true ∧ τ.IdleFiles ∧ ∃ i,
      σ.cwd p = some i ∧ σ.cwd child = none ∧ child ≠ p ∧
      Becomes start σ.fs τ.fs (σ.fs.inodes.get i) ∧
      τ.abs = ⟨τ.fs.inodes, Function.update σ.cwd child (some i), σ.abs.holds⟩)) E := by
  unfold forkFiles
  refine Ends.get_bind ?_
  split_ifs with hfree
  · exact Ends.pure (.inl ⟨rfl, rfl⟩)
  obtain ⟨hnone, hne⟩ := not_or.mp hfree
  have hloop : Ends (loop (dupFd p child) nofile) σ (fun _ τ => Calm σ τ) E :=
    Ends.loop (I := fun _ τ => Calm σ τ) (Calm.refl σ)
      (fun k _ τ hτ => (dupFd_spec hE).post (fun _ υ hυ => hτ.trans hυ))
  refine hloop.bind (fun _ τ hτ => ?_)
  have hg : Good start τ.fs := hτ.fs ▸ h
  refine (idupCwd_spec hE' hg (fun c hc => ?_)).bind (fun i υ hυ => Ends.modify_bind (Ends.pure ?_))
  · rw [hτ.fs]
    exact hcwd c (hτ.cwd ▸ hc)
  · obtain ⟨hi, hfs, hb⟩ := hυ
    rw [hτ.cwd] at hi
    rw [hτ.fs] at hb
    refine .inr ⟨rfl, hfs.idle (hτ.idle hI), i, hi, not_not.mp hnone, hne, hb, ?_⟩
    have ha := hfs.abs
    rw [hτ.abs] at ha
    have hcwd' : υ.cwd = σ.cwd := congrArg Abs.cwd ha
    have hholds : υ.abs.holds = σ.abs.holds := by
      rw [ha]
      rfl
    unfold Sys.abs at hholds ⊢
    dsimp only at hholds ⊢
    rw [hcwd', hholds]

theorem truncAt_spec {start ip : Nat} {s : Fs} {n : Node} {d : Dinode} (omode : BitVec 32)
    (h : Good start s) (hl : s.inodes.loaded ip = true) (htx : 1 ≤ s.outstanding)
    (hn : s.view ip = some n) (hd : d.type = n.type) :
    Ends (truncAt ip d omode) s (fun _ t => ∃ data, (data = n.data ∨ n.type = tFile ∧ data = []) ∧
      Becomes start s t (s.inodes.put ip (some { n with data := data }))) E := by
  unfold truncAt
  split_ifs with ht
  · exact (itrunc_becomes h hl htx hn).post (fun _ t hb => ⟨[], .inr ⟨hd ▸ ht.2, rfl⟩, hb⟩)
  · refine Ends.pure ⟨n.data, .inl rfl, ?_⟩
    rw [Inodes.put_self hn]
    exact Becomes.refl h

theorem File.hold_opened (ff : File) (ip : Nat) (d : Dinode) (omode : BitVec 32) :
    ∃ w, (omode = oRdonly → w = false) ∧ (ff.opened ip d omode).hold = some (ip, w) := by
  unfold File.opened File.hold
  by_cases hd : d.type = tDevice
  · refine ⟨false, fun _ => rfl, ?_⟩
    simp [hd]
  · refine ⟨decide (omode &&& oWronly ≠ 0 ∨ omode &&& oRdwr ≠ 0), fun h => ?_, ?_⟩
    · rw [h]
      decide
    · simp [hd]

theorem openFile_spec {ip : Nat} {d : Dinode} {omode : BitVec 32} (hf : (σ.ftable f).ref ≠ 0) :
    Ends (openFile f ip d omode) σ (fun _ τ => τ.fs = σ.fs ∧ (σ.IdleFiles → τ.IdleFiles) ∧
      ∃ w, (omode = oRdonly → w = false) ∧
        τ.abs = { σ.abs with holds := Function.update σ.abs.holds f (some (ip, w)) }) E := by
  have href : ((σ.ftable f).opened ip d omode).ref = (σ.ftable f).ref := by
    unfold File.opened
    split_ifs <;> rfl
  obtain ⟨w, hw, hhold⟩ := File.hold_opened (σ.ftable f) ip d omode
  refine Ends.get_bind (Ends.modify ⟨rfl, fun hI => ?_, w, hw, ?_⟩)
  · exact hI.withFile (fun h0 => absurd (href.symm.trans h0) hf)
  · rw [← hhold]
    exact Sys.abs_withFile σ f _

end Rules

end Xv6
