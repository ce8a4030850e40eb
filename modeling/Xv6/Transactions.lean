import Xv6.Runs

/-! Only `begin_op` and `end_op` change the number of open transactions, whatever
the image is. -/

namespace Xv6

open Interleave Fallible FsM CString

def OtherPanic (e : String) : Prop := e ≠ "log_write outside of trans"

instance (e : String) : Decidable (OtherPanic e) := inferInstanceAs (Decidable (e ≠ _))

def Fails (outstanding : Nat) (e : String) : Prop := OtherPanic e ∨ outstanding = 0

def Steady {α : Type} (m : FsM α) : Prop := Keeps Fs.outstanding Fails m

def FsPanic (e : String) : Prop :=
  e ∈ ["freeing free block", "bmap: out of range", "iget: no inodes", "ilock", "ilock: no type",
    "iunlock", "unlink: writei", "acquiresleep", "unlink: nlink < 1", "dirlookup not DIR",
    "dirlookup read", "dirlink read", "isdirempty: readi"]

instance (e : String) : Decidable (FsPanic e) := inferInstanceAs (Decidable (e ∈ _))

def FsFails (outstanding : Nat) (e : String) : Prop :=
  FsPanic e ∨ e = "log_write outside of trans" ∧ outstanding = 0

/-- The program opens and closes no transaction, and fails as the file system does. -/
def SteadyFs {α : Type} (m : FsM α) : Prop := Keeps Fs.outstanding FsFails m

theorem FsFails.fails {k : Nat} {e : String} (h : FsFails k e) : Fails k e := by
  rcases h with h | h
  · refine .inl ?_
    rintro rfl
    exact absurd h (by decide)
  · exact .inr h.2

theorem SteadyFs.steady {α : Type} {m : FsM α} (h : SteadyFs m) : Steady m :=
  fun s => (h s).mono (fun _ _ ht => ht) (fun _ he => he.fails)

section Blocks

variable {α : Type}

theorem steady_throw {e : String} (he : FsPanic e) :
    SteadyFs (throw e : FsM α) := Keeps.throw (fun _ => .inl he)

theorem logWrite_steady : SteadyFs FsM.logWrite := by
  refine Keeps.of_get (fun s => ?_)
  split_ifs with h
  · exact Ends.throw (.inr ⟨rfl, Nat.lt_one_iff.mp h⟩)
  · exact Ends.pure rfl

theorem setBlock_steady (b : BlockNo) (v : Block) : SteadyFs (setBlock b v) := Keeps.modify (fun _ => rfl)

theorem setBit_steady (b : BlockNo) (v : Bool) : SteadyFs (setBit b v) := Keeps.modify (fun _ => rfl)

theorem claim_steady (b : BlockNo) : SteadyFs (claim b) :=
  (setBit_steady b true).seq (logWrite_steady.seq (((setBlock_steady b _).seq (logWrite_steady)).ret))

theorem balloc_steady : SteadyFs balloc := by
  refine Keeps.get (fun s => ?_)
  cases (List.range s.sb.size).find? (fun b => !s.bitmap (BitVec.ofNat 32 b)) with
  | none => exact Keeps.pure _
  | some b => exact claim_steady _

theorem bfree_steady (b : BlockNo) : SteadyFs (bfree b) :=
  Keeps.get (fun _ => Keeps.ite (steady_throw (by decide))
    ((setBit_steady b false).seq (logWrite_steady)))

theorem inode_steady (ip : Nat) : SteadyFs (inode ip) := Keeps.get (fun _ => Keeps.pure _)

theorem edit_steady (ip : Nat) (f : Dinode → Dinode) : SteadyFs (edit ip f) := Keeps.modify (fun _ => rfl)

theorem iupdate_steady (ip : Nat) : SteadyFs (iupdate ip) := by
  refine Keeps.bind (Keeps.modify (fun s => ?_)) (fun _ => logWrite_steady)
  rfl

theorem amend_steady (ip : Nat) (f : Dinode → Dinode) : SteadyFs (amend ip f) :=
  (edit_steady ip f).seq (iupdate_steady ip)

theorem addrAt_steady (ip k : Nat) : SteadyFs (addrAt ip k) :=
  (inode_steady ip).bind (fun _ => Keeps.ite (balloc_steady.bind (fun _ => Keeps.ite (Keeps.pure _)
    ((edit_steady ip _).ret))) (Keeps.pure _))

theorem indirectAt_steady (ind : BlockNo) (j : Nat) : SteadyFs (indirectAt ind j) := by
  refine Keeps.get (fun _ => Keeps.ite (balloc_steady.bind (fun _ => Keeps.ite (Keeps.pure _)
    (Keeps.bind (Keeps.modify (fun s => ?_)) (fun _ => logWrite_steady.ret)))) (Keeps.pure _))
  rfl

theorem bmap_steady (ip bn : Nat) : SteadyFs (bmap ip bn) :=
  Keeps.ite (addrAt_steady ip bn) (Keeps.ite ((addrAt_steady ip ndirect).bind (fun _ =>
    Keeps.ite (Keeps.pure _) (indirectAt_steady _ _))) (steady_throw (by decide)))

theorem freeDirect_steady (ip k : Nat) : SteadyFs (freeDirect ip k) :=
  (inode_steady ip).bind (fun _ => Keeps.ite (Keeps.pure _)
    ((bfree_steady _).seq (edit_steady ip _)))

theorem freeIndirect_steady (ip : Nat) : SteadyFs (freeIndirect ip) :=
  (inode_steady ip).bind (fun _ => Keeps.ite (Keeps.pure _) (Keeps.get (fun _ =>
    (Keeps.loop (fun _ => Keeps.ite (Keeps.pure _) (bfree_steady _)) nindirect).seq ((bfree_steady _).seq (edit_steady ip _)))))

theorem itrunc_steady (ip : Nat) : SteadyFs (itrunc ip) :=
  (Keeps.loop (freeDirect_steady ip) ndirect).seq ((freeIndirect_steady ip).seq (amend_steady ip _))

end Blocks

section Inodes

variable {γ : Type} {φ : Fs → γ} {F : γ → String → Prop}

theorem iget_keeps (hφ : ∀ s itable inuse, φ { s with itable := itable, inuse := inuse } = φ s)
    (hF : ∀ c, F c "iget: no inodes") (i : Nat) : Keeps φ F (iget i) := by
  refine Keeps.of_get (fun s => ?_)
  split_ifs
  · exact Ends.modify (u := fun _ => _) (hφ s _ _)
  · exact Ends.throw (hF _)
  · exact Ends.modify (u := fun _ => _) (hφ s _ _)

theorem ilock_keeps (hφ : ∀ s itable inuse, φ { s with itable := itable, inuse := inuse } = φ s)
    (hF : ∀ c, F c "ilock" ∧ F c "ilock: no type") (ip : Nat) : Keeps φ F (ilock ip) := by
  refine Keeps.of_get (fun s => ?_)
  split_ifs
  · exact Ends.throw (hF _).1
  · exact Ends.pure rfl
  · exact Keeps.set_bind (hφ s _ _) (Keeps.throw (fun c => (hF c).2))
  · exact Keeps.set_bind (F := F) (hφ s _ _) (Keeps.pure _)

theorem iunlock_keeps (hF : ∀ c, F c "iunlock") (ip : Nat) : Keeps φ F (iunlock ip) :=
  Keeps.get (fun _ => Keeps.ite (Keeps.throw hF) (Keeps.pure _))

theorem iget_steady (i : Nat) : SteadyFs (iget i) :=
  iget_keeps (fun _ _ _ => rfl) (fun _ => .inl (by decide)) i

theorem ilock_steady (ip : Nat) : SteadyFs (ilock ip) :=
  ilock_keeps (fun _ _ _ => rfl) (fun _ => ⟨.inl (by decide), .inl (by decide)⟩) ip

theorem iunlock_steady (ip : Nat) : SteadyFs (iunlock ip) :=
  iunlock_keeps (fun _ => .inl (by decide)) ip

theorem deref_steady (ip : Nat) : SteadyFs (deref ip) := Keeps.modify (fun _ => rfl)

theorem ifree_steady (ip : Nat) : SteadyFs (ifree ip) := by
  refine (itrunc_steady ip).seq ((edit_steady ip _).seq ((iupdate_steady ip).seq (Keeps.modify (fun s => ?_))))
  rfl

theorem iput_steady (ip : Nat) : SteadyFs (iput ip) :=
  Keeps.get (fun _ => Keeps.ite ((ifree_steady ip).seq (deref_steady ip)) (deref_steady ip))

theorem iunlockput_steady (ip : Nat) : SteadyFs (iunlockput ip) :=
  (iunlock_steady ip).seq (iput_steady ip)

theorem ialloc_steady (type : Int) : SteadyFs (ialloc type) := by
  refine Keeps.of_get (fun s => ?_)
  cases (List.range s.sb.ninodes).find? (fun i => 1 ≤ i ∧ (s.dinode i).type = 0) with
  | none => exact Ends.pure rfl
  | some i =>
    refine Keeps.set_bind rfl (logWrite_steady.seq ((iget_steady i).ret))

theorem readLoop_steady (ip : Nat) (dst : Nat → Bool) (n fuel off tot : Nat) (got : List Byte) :
    SteadyFs (readLoop ip dst n fuel off tot got) := by
  induction fuel generalizing off tot got with
  | zero => exact Keeps.pure _
  | succ fuel ih =>
    exact Keeps.ite ((bmap_steady ip _).bind (fun _ => Keeps.ite (Keeps.pure _)
      (Keeps.get (fun _ => Keeps.ite (ih _ _ _) (Keeps.pure _))))) (Keeps.pure _)

theorem readi_steady (ip : Nat) (dst : Nat → Bool) (off n : Nat) : SteadyFs (readi ip dst off n) :=
  (inode_steady ip).bind (fun _ => Keeps.ite (Keeps.pure _) (readLoop_steady ip dst _ _ _ _ _))

theorem writeLoop_steady (ip : Nat) (src : Nat → Option Byte) (n fuel off tot : Nat) :
    SteadyFs (writeLoop ip src n fuel off tot) := by
  induction fuel generalizing off tot with
  | zero => exact Keeps.pure _
  | succ fuel ih =>
    exact Keeps.ite ((bmap_steady ip _).bind (fun _ => Keeps.ite (Keeps.pure _)
      (Keeps.get (fun _ => (setBlock_steady _ _).seq (Keeps.ite (Keeps.pure _)
        (logWrite_steady.seq (ih _ _))))))) (Keeps.pure _)

theorem writei_steady (ip : Nat) (src : Nat → Option Byte) (off n : Nat) :
    SteadyFs (writei ip src off n) :=
  (inode_steady ip).bind (fun _ => Keeps.ite (Keeps.pure _) (Keeps.ite (Keeps.pure _)
    ((writeLoop_steady ip src _ _ _ _).bind (fun _ =>
      Keeps.bind ((inode_steady ip).bind (fun _ => Keeps.ite (edit_steady ip _) (Keeps.pure _)))
        (fun _ => (iupdate_steady ip).ret)))))

end Inodes

section Directories

theorem scan_steady (dp : Nat) {msg : String} (hmsg : FsPanic msg)
    (test : Dirent → Bool) (fuel off : Nat) : SteadyFs (scan dp msg test fuel off) := by
  induction fuel generalizing off with
  | zero => exact Keeps.pure _
  | succ fuel ih =>
    exact (inode_steady dp).bind (fun _ => Keeps.ite ((readi_steady dp _ _ _).bind (fun _ =>
      Keeps.ite (steady_throw hmsg) (Keeps.ite (Keeps.pure _) (ih _)))) (Keeps.pure _))

theorem dirlookup_steady (dp : Nat) (name : Buffer) : SteadyFs (dirlookup dp name) := by
  refine (inode_steady dp).bind (fun _ => Keeps.ite (steady_throw (by decide))
    ((scan_steady dp (by decide) _ _ _).bind (fun r => ?_)))
  cases r.2 with
  | none => exact Keeps.pure _
  | some de => exact (iget_steady de.inum).ret

theorem dirlink_steady (dp : Nat) (name : Buffer) (inum : Nat) : SteadyFs (dirlink dp name inum) := by
  refine (dirlookup_steady dp name).bind (fun r => ?_)
  cases r with
  | none =>
    exact (inode_steady dp).bind (fun _ => (scan_steady dp (by decide) _ _ _).bind (fun _ =>
      (writei_steady dp _ _ _).bind (fun _ => Keeps.ite (Keeps.pure _) (Keeps.pure _))))
  | some x => exact (iput_steady x.1).ret

theorem isdirempty_steady (dp : Nat) : SteadyFs (isdirempty dp) :=
  (inode_steady dp).bind (fun _ => (scan_steady dp (by decide) _ _ _).ret)

end Directories

section Sections

theorem search_steady (ip : Nat) (name : Buffer) : SteadyFs (search ip name) :=
  (ilock_steady ip).seq ((inode_steady ip).bind (fun _ => Keeps.ite ((iunlock_steady ip).ret)
    ((dirlookup_steady ip name).bind (fun _ => (iunlock_steady ip).ret))))

theorem typeOf_steady (ip : Nat) : SteadyFs (typeOf ip) :=
  (ilock_steady ip).seq ((inode_steady ip).bind (fun _ =>
    (iunlock_steady ip).ret))

theorem countDir_steady (dp : Nat) (type : Int) (f : Int → Int) : SteadyFs (countDir dp type f) :=
  Keeps.ite (amend_steady dp _) (Keeps.pure _)

theorem linkNew_steady (dp ip : Nat) (name : Buffer) (type : Int) :
    SteadyFs (linkNew dp ip name type) := by
  have hdots : SteadyFs (linkDots dp ip type) :=
    Keeps.ite ((dirlink_steady ip dot ip).bind (fun _ => Keeps.ite (Keeps.pure _)
      ((dirlink_steady ip dotdot dp).ret))) (Keeps.pure _)
  exact hdots.bind (fun _ => Keeps.ite ((dirlink_steady dp name ip).ret) (Keeps.pure _))

theorem createNew_steady (dp ip : Nat) (name : Buffer) (type major minor : Int) :
    SteadyFs (createNew dp ip name type major minor) :=
  (ilock_steady ip).seq ((amend_steady ip _).seq ((linkNew_steady dp ip name type).bind (fun _ => Keeps.ite
      ((countDir_steady dp type _).seq ((iunlock_steady dp).ret))
      ((amend_steady ip _).seq ((iunlockput_steady ip).seq ((iunlock_steady dp).ret))))))

theorem createAt_steady (dp : Nat) (name : Buffer) (type major minor : Int) :
    SteadyFs (createAt dp name type major minor) := by
  refine (ilock_steady dp).seq ((dirlookup_steady dp name).bind (fun r => ?_))
  cases r with
  | some x => exact (iunlock_steady dp).ret
  | none =>
    refine (ialloc_steady type).bind (fun r => ?_)
    cases r with
    | none => exact (iunlock_steady dp).ret
    | some i => exact createNew_steady dp i name type major minor

theorem clearEntry_steady (dp ip off : Nat) (type : Int) : SteadyFs (clearEntry dp ip off type) :=
  (writei_steady dp _ _ _).bind (fun _ => Keeps.ite (steady_throw (by decide))
    ((countDir_steady dp type _).seq ((iunlockput_steady dp).seq ((amend_steady ip _).seq ((iunlock_steady ip).ret)))))

theorem unlinkAt_steady (dp : Nat) (name : Buffer) : SteadyFs (unlinkAt dp name) := by
  have hno : SteadyFs (do iunlock dp; pure none : FsM (Option Nat)) :=
    (iunlock_steady dp).ret
  refine (ilock_steady dp).seq (Keeps.ite hno ((dirlookup_steady dp name).bind (fun r => ?_)))
  cases r with
  | none => exact hno
  | some x =>
    have hmay : ∀ type, SteadyFs (mayUnlink x.1 type) :=
      fun type => Keeps.ite (isdirempty_steady x.1) (Keeps.pure _)
    exact Keeps.ite (steady_throw (by decide)) ((ilock_steady x.1).seq ((inode_steady x.1).bind
      (fun _ => Keeps.ite (steady_throw (by decide)) ((hmay _).bind (fun _ => Keeps.ite
        (clearEntry_steady dp x.1 _ _) ((iunlockput_steady x.1).seq (hno)))))))

theorem linkCount_steady (ip : Nat) : SteadyFs (linkCount ip) :=
  (ilock_steady ip).seq ((inode_steady ip).bind (fun _ => Keeps.ite ((iunlock_steady ip).ret)
    ((amend_steady ip _).seq ((iunlock_steady ip).ret))))

theorem linkEnter_steady (dp : Nat) (name : Buffer) (ip : Nat) : SteadyFs (linkEnter dp name ip) :=
  (ilock_steady dp).seq ((dirlink_steady dp name ip).bind (fun _ =>
    (iunlock_steady dp).ret))

theorem linkUncount_steady (ip : Nat) : SteadyFs (linkUncount ip) :=
  (ilock_steady ip).seq ((amend_steady ip _).seq (iunlock_steady ip))

theorem loadseg_steady (ip off sz fuel i : Nat) : SteadyFs (loadseg ip off sz fuel i) := by
  induction fuel generalizing i with
  | zero => exact Keeps.pure _
  | succ fuel ih =>
    exact Keeps.ite ((readi_steady ip _ _ _).bind (fun _ => Keeps.ite (Keeps.pure _) (ih _)))
      (Keeps.pure _)

theorem loadSegs_steady (ip : Nat) (mem : Nat → Bool) (n off k : Nat) :
    SteadyFs (loadSegs ip mem n off k) := by
  induction n generalizing off k with
  | zero => exact Keeps.pure _
  | succ n ih =>
    exact (readi_steady ip _ _ _).bind (fun _ => Keeps.ite (Keeps.pure _) (Keeps.ite (ih _ _)
      (Keeps.ite (Keeps.pure _) ((loadseg_steady ip _ _ _ _).bind (fun _ =>
        Keeps.ite (ih _ _) (Keeps.pure _))))))

theorem load_steady (ip : Nat) (mem : Nat → Bool) : SteadyFs (load ip mem) := by
  have helf : SteadyFs (loadElf ip mem) :=
    (readi_steady ip _ _ _).bind (fun _ => Keeps.ite (Keeps.pure _) (Keeps.ite (Keeps.pure _)
      (Keeps.ite (Keeps.pure _) (loadSegs_steady ip mem _ _ _))))
  exact (ilock_steady ip).seq (helf.bind (fun _ => (iunlock_steady ip).ret))

theorem orphan_steady (inum : Nat) : SteadyFs (orphan inum) :=
  Keeps.get (fun _ => Keeps.ite ((iget_steady inum).ret) (Keeps.pure _))

end Sections

/-- No transaction has been opened or closed, and idle files are still idle. -/
structure Tended (σ τ : Sys) : Prop where
  outstanding : τ.fs.outstanding = σ.fs.outstanding
  idle : τ.IdleFiles

def Tame {α : Type} (m : SysM α) : Prop :=
  ∀ σ, σ.IdleFiles → Ends m σ (fun _ τ => Tended σ τ) (Fails σ.fs.outstanding)

section Files

open SysM

variable {α β : Type} {m : SysM α} {f : α → SysM β} {σ τ υ : Sys} {p : ProcId}

theorem Tended.trans (h : Tended σ τ) (h' : Tended τ υ) : Tended σ υ :=
  ⟨h'.outstanding.trans h.outstanding, h'.idle⟩

theorem Calm.tended (h : Calm σ τ) (hI : σ.IdleFiles) : Tended σ τ := ⟨by rw [h.fs], h.idle hI⟩

theorem Tame.pure (a : α) : Tame (Pure.pure a : SysM α) := fun _ hI => Ends.pure ⟨rfl, hI⟩

theorem Tame.throw {e : String} (he : OtherPanic e) :
    Tame (throw e : SysM α) := fun _ _ => Ends.throw (.inl he)

theorem Tended.next (h : Tended σ τ) (hm : Tame m) :
    Ends m τ (fun _ υ => Tended σ υ) (Fails σ.fs.outstanding) := by
  rw [← h.outstanding]
  exact (hm τ h.idle).post (fun _ _ hυ => h.trans hυ)

theorem Tame.bind (hm : Tame m) (hf : ∀ a, Tame (f a)) : Tame (m >>= f) :=
  fun σ hI => (hm σ hI).bind (fun a _ hτ => hτ.next (hf a))

theorem Tame.get {g : Sys → SysM β} (h : ∀ σ, Tame (g σ)) : Tame (get >>= g) :=
  fun σ hI => Ends.get_bind (h σ σ hI)

theorem Tame.onFs {n : FsM α} (h : SteadyFs n) : Tame (onFs n) := fun σ hI =>
  (onFs_ends (h.steady σ.fs)).post (fun _ _ hτ => ⟨hτ.2, hτ.1.idle hI⟩)

theorem Tame.calm (h : ∀ σ : Sys, σ.IdleFiles → Ends m σ (fun _ τ => Calm σ τ) (Fails σ.fs.outstanding)) :
    Tame m := fun σ hI => (h σ hI).post (fun _ _ hτ => hτ.tended hI)

theorem idupCwd_tame (p : ProcId) : Tame (idupCwd p) := by
  refine Tame.get (fun σ => ?_)
  cases σ.cwd p with
  | none => exact Tame.throw (by decide)
  | some i =>
    have hd : SteadyFs (idup i) := Keeps.modify (fun _ => rfl)
    exact (Tame.onFs hd).bind (fun _ => Tame.pure _)

theorem setCwd_tame (p : ProcId) (next : Option Nat) : Tame (setCwd p next) :=
  fun _ hI => Ends.modify ⟨rfl, hI⟩

theorem swapCwd_tame (p : ProcId) (next : Option Nat) : Tame (swapCwd p next) := by
  refine Tame.get (fun σ => ?_)
  cases σ.cwd p with
  | none => exact Tame.throw (by decide)
  | some i => exact (setCwd_tame p next).bind (fun _ => Tame.pure _)

theorem argfd_tame (p : ProcId) (fd : Nat) : Tame (argfd p fd) :=
  fun _ hI => argfd_spec.post (fun _ _ hτ => by rw [hτ]; exact ⟨rfl, hI⟩)

theorem moveOff_tame (f : FileId) (r : Int) : Tame (moveOff f r) :=
  Tame.calm (fun _ hI => moveOff_spec hI f r)

theorem closeFile_tame (f : FileId) : Tame (closeFile f) := by
  intro σ hI
  refine (closeFile_spec (.inl (by decide))).post ?_
  rintro r τ (⟨-, hτ⟩ | ⟨i, w, -, -, rfl⟩)
  · exact hτ.tended hI
  · exact ⟨rfl, hI.withFile (fun _ => rfl)⟩

theorem forkFiles_tame (p child : ProcId) : Tame (forkFiles p child) := by
  refine Tame.get (fun σ => ?_)
  split_ifs
  · exact Tame.pure _
  · have hloop : Tame (loop (dupFd p child) nofile) := Tame.calm (fun σ _ =>
      Ends.loop (I := fun _ τ => Calm σ τ) (Calm.refl σ)
        (fun k _ τ hτ => (dupFd_spec (.inl (by decide))).post (fun _ υ hυ => hτ.trans hυ)))
    exact hloop.bind (fun _ => (idupCwd_tame p).bind (fun _ => (setCwd_tame child _).bind
      (fun _ => Tame.pure _)))

theorem writeAt_tame (p : ProcId) (fd : Nat) (src : Nat → Option Byte) (n : Nat) :
    Tame (writeAt p fd src n) := by
  refine (argfd_tame p fd).bind (fun r => ?_)
  cases r with
  | none => exact Tame.throw (by decide)
  | some f =>
    refine Tame.get (fun σ => ?_)
    dsimp only
    split_ifs
    · exact Tame.throw (by decide)
    · exact (Tame.onFs (ilock_steady _)).bind (fun _ => (Tame.onFs (writei_steady _ _ _ _)).bind
        (fun _ => (moveOff_tame f _).bind (fun _ => (Tame.onFs (iunlock_steady _)).bind
          (fun _ => Tame.pure _))))

theorem readAt_tame (p : ProcId) (fd : Nat) (dst : Nat → Bool) (n : Nat) :
    Tame (readAt p fd dst n) := by
  refine (argfd_tame p fd).bind (fun r => ?_)
  cases r with
  | none => exact Tame.throw (by decide)
  | some f =>
    refine Tame.get (fun σ => ?_)
    dsimp only
    split_ifs
    · exact Tame.throw (by decide)
    · exact (Tame.onFs (ilock_steady _)).bind (fun _ => (Tame.onFs (readi_steady _ _ _ _)).bind
        (fun _ => (moveOff_tame f _).bind (fun _ => (Tame.onFs (iunlock_steady _)).bind
          (fun _ => Tame.pure _))))

theorem openAt_tended (hI : σ.IdleFiles) (ip : Nat) (omode : BitVec 32) :
    Ends (openAt p ip omode) σ (fun r τ => Tended σ τ ∧ allows (.openAt ip omode) r)
      (Fails σ.fs.outstanding) := by
  have hleave : ∀ {τ : Sys} {r : Opened}, Tended σ τ → allows (.openAt ip omode) r →
      Ends (do onFs (iunlock ip); pure r) τ
        (fun r τ => Tended σ τ ∧ allows (.openAt ip omode) r) (Fails σ.fs.outstanding) :=
    fun hτ hr => (hτ.next (Tame.onFs (iunlock_steady ip))).bind (fun _ _ hυ => Ends.pure ⟨hυ, hr⟩)
  refine (Tame.onFs (ilock_steady ip) σ hI).bind (fun _ τ hτ => ?_)
  refine Ends.bind_ok (onFs_ok (t := τ.fs) inode_run) ?_
  split_ifs
  · exact hleave hτ trivial
  · exact hleave hτ trivial
  refine filealloc_spec.bind ?_
  rintro r υ (⟨rfl, rfl⟩ | ⟨f, rfl, hf, rfl⟩)
  · exact hleave hτ trivial
  have hcalm := Calm.alloc hτ.idle hf
  refine fdalloc_spec.bind (fun r ρ hρ => ?_)
  have hcρ := hcalm.trans hρ.1
  have hρt := hτ.trans (hcρ.tended hτ.idle)
  cases r with
  | none =>
    have hfresh : (ρ.ftable f).hold = none := by
      rw [hcρ.holds, File.hold_none (hτ.idle f hf)]
    refine (closeFile_fresh (.inl (by decide)) hfresh).bind (fun r π hπ => ?_)
    exact hleave (hρt.trans (hπ.2.tended hρt.idle)) hπ.1
  | some fd =>
    have hfref : (ρ.ftable f).ref ≠ 0 := by
      rw [hρ.2]
      simp [Sys.withFile]
    refine (openFile_spec hfref).bind (fun _ π hπ => ?_)
    have hπt : Tended ρ π := ⟨by rw [hπ.1], hπ.2.1 hρt.idle⟩
    have htrunc : SteadyFs (truncAt ip (τ.fs.itable ip).copy omode) :=
      Keeps.ite (itrunc_steady ip) (Keeps.pure _)
    refine ((hρt.trans hπt).next (Tame.onFs htrunc)).bind (fun _ κ hκ => ?_)
    exact hleave hκ trivial

theorem exec_tended {a : Act} (hmsg : ∀ msg, a = .panic msg → OtherPanic msg)
    (hI : σ.IdleFiles) : Ends (a.exec p) σ (fun r τ => τ.fs.outstanding = a.count σ.fs.outstanding ∧
      τ.IdleFiles ∧ allows a r) (Fails σ.fs.outstanding) := by
  have htame : ∀ {α : Type} {m : SysM α}, Tame m →
      Ends m σ (fun _ τ => τ.fs.outstanding = σ.fs.outstanding ∧ τ.IdleFiles ∧ True)
        (Fails σ.fs.outstanding) :=
    fun hm => (hm σ hI).post (fun _ _ hτ => ⟨hτ.outstanding, hτ.idle, trivial⟩)
  cases a with
  | beginOp => exact Ends.of_ok (beginOp_run σ) ⟨rfl, hI, trivial⟩
  | endOp => exact Ends.of_ok (endOp_run σ) ⟨rfl, hI, trivial⟩
  | iget i => exact htame (Tame.onFs (iget_steady i))
  | idupCwd => exact htame (idupCwd_tame p)
  | iput i => exact htame (Tame.onFs (iput_steady i))
  | search ip name => exact htame (Tame.onFs (search_steady ip name))
  | typeOf ip => exact htame (Tame.onFs (typeOf_steady ip))
  | createAt dp name type major minor =>
    exact htame (Tame.onFs (createAt_steady dp name type major minor))
  | openAt ip omode =>
    exact (openAt_tended hI ip omode).post (fun _ _ hτ => ⟨hτ.1.outstanding, hτ.1.idle, hτ.2⟩)
  | unlinkAt dp name => exact htame (Tame.onFs (unlinkAt_steady dp name))
  | linkCount ip => exact htame (Tame.onFs (linkCount_steady ip))
  | linkEnter dp name ip => exact htame (Tame.onFs (linkEnter_steady dp name ip))
  | linkUncount ip => exact htame (Tame.onFs (linkUncount_steady ip))
  | swapCwd next => exact htame (swapCwd_tame p next)
  | dup fd =>
    exact htame (Tame.calm (fun _ _ => dup_spec (.inl (by decide))))
  | takeFd fd => exact htame (Tame.calm (fun _ _ => takeFd_spec))
  | fdalloc f =>
    exact htame (Tame.calm (fun _ _ => fdalloc_spec.post (fun _ _ hτ => hτ.1)))
  | closeFile f => exact htame (closeFile_tame f)
  | pipealloc page =>
    refine (pipealloc_spec (.inl (by decide)) hI page).post (fun r τ hτ => ?_)
    have ht := hτ.1.tended hI
    refine ⟨ht.outstanding, ht.idle, ?_⟩
    cases r with
    | bad r0 r1 => exact hτ.2 r0 r1 rfl
    | made f0 f1 => trivial
  | forkFiles child => exact htame (forkFiles_tame p child)
  | fileOf fd =>
    exact htame (Tame.get (fun _ => (argfd_tame p fd).bind (fun _ => Tame.pure _)))
  | writeAt fd src n => exact htame (writeAt_tame p fd src n)
  | readAt fd dst n => exact htame (readAt_tame p fd dst n)
  | load ip mem => exact htame (Tame.onFs (load_steady ip mem))
  | ninodes => exact htame (Tame.get (fun _ => Tame.pure _))
  | orphan inum => exact htame (Tame.onFs (orphan_steady inum))
  | panic msg => exact Ends.throw (.inl (hmsg msg rfl))

end Files

def Fs.disk (s : Fs) : (BlockNo → Bool) × (BlockNo → Block) × (Nat → Dinode) :=
  (s.bitmap, s.block, s.dinode)

def Silent {α : Type} (m : FsM α) : Prop := Keeps Fs.disk (fun _ => OtherPanic) m

section Disk

open SysM

variable {α : Type} {σ τ : Sys} {p : ProcId} {a : Act}

theorem iget_silent (i : Nat) : Silent (iget i) :=
  iget_keeps (fun _ _ _ => rfl) (fun _ => by decide) i

theorem ilock_silent (ip : Nat) : Silent (ilock ip) :=
  ilock_keeps (fun _ _ _ => rfl) (fun _ => by decide) ip

theorem iunlock_silent (ip : Nat) : Silent (iunlock ip) := iunlock_keeps (fun _ => by decide) ip

theorem orphan_silent (inum : Nat) : Silent (orphan inum) :=
  Keeps.get (fun _ => Keeps.ite ((iget_silent inum).ret) (Keeps.pure _))

theorem onFs_silent {m : FsM α} (h : Silent m) (σ : Sys) :
    Ends (onFs m) σ (fun _ τ => τ.fs.disk = σ.fs.disk) OtherPanic :=
  (onFs_ends (h σ.fs)).post (fun _ _ hτ => hτ.2)

theorem idupCwd_silent (p : ProcId) (σ : Sys) :
    Ends (idupCwd p) σ (fun _ τ => τ.fs.disk = σ.fs.disk) OtherPanic := by
  refine Ends.get_bind ?_
  cases σ.cwd p with
  | none => exact Ends.throw (by decide)
  | some i =>
    have hd : Silent (idup i) := Keeps.modify (fun _ => rfl)
    exact (onFs_silent hd σ).bind (fun _ _ hτ => Ends.pure hτ)

theorem forkFiles_silent (p child : ProcId) (σ : Sys) :
    Ends (forkFiles p child) σ (fun _ τ => τ.fs.disk = σ.fs.disk) OtherPanic := by
  refine Ends.get_bind ?_
  split_ifs
  · exact Ends.pure rfl
  · have hloop : Ends (loop (dupFd p child) nofile) σ (fun _ τ => Calm σ τ) OtherPanic :=
      Ends.loop (I := fun _ τ => Calm σ τ) (Calm.refl σ)
        (fun k _ τ hτ => (dupFd_spec (by decide)).post (fun _ υ hυ => hτ.trans hυ))
    refine hloop.bind (fun _ τ hτ => (idupCwd_silent p τ).bind (fun i υ hυ => ?_))
    refine Ends.modify_bind (Ends.pure ?_)
    have hfs : υ.fs.disk = σ.fs.disk := by rw [hυ, hτ.fs]
    exact hfs

theorem exec_silent (hI : σ.IdleFiles)
    (hmsg : ∀ msg, a = .panic msg → OtherPanic msg) (hl : ¬ a.Logs)
    (hr : ∀ fd dst n, a ≠ .readAt fd dst n) :
    Ends (a.exec p) σ (fun _ τ => τ.fs.disk = σ.fs.disk) OtherPanic := by
  have hcalm : ∀ {τ : Sys}, Calm σ τ → τ.fs.disk = σ.fs.disk := fun h => by rw [h.fs]
  cases a with
  | beginOp => exact Ends.of_ok (beginOp_run σ) rfl
  | endOp => exact Ends.of_ok (endOp_run σ) rfl
  | iget i => exact onFs_silent (iget_silent i) σ
  | idupCwd => exact idupCwd_silent p σ
  | swapCwd next =>
    refine Ends.get_bind ?_
    cases σ.cwd p with
    | none => exact Ends.throw (by decide)
    | some i => exact Ends.modify_bind (Ends.pure rfl)
  | dup fd => exact (dup_spec (by decide)).post (fun _ _ hτ => hcalm hτ)
  | takeFd fd => exact takeFd_spec.post (fun _ _ hτ => hcalm hτ)
  | fdalloc f => exact fdalloc_spec.post (fun _ _ hτ => hcalm hτ.1)
  | closeFile f =>
    refine (closeFile_spec (by decide)).post ?_
    rintro r τ (⟨-, hτ⟩ | ⟨i, w, -, -, rfl⟩)
    · exact hcalm hτ
    · rfl
  | pipealloc page => exact (pipealloc_spec (by decide) hI page).post (fun _ _ hτ => hcalm hτ.1)
  | forkFiles child => exact forkFiles_silent p child σ
  | fileOf fd =>
    exact Ends.get_bind (argfd_spec.bind (fun _ _ hτ => Ends.pure (by rw [hτ])))
  | readAt fd dst n => exact absurd rfl (hr fd dst n)
  | ninodes => exact Ends.get_bind (Ends.pure rfl)
  | orphan inum => exact onFs_silent (orphan_silent inum) σ
  | panic msg => exact Ends.throw (hmsg msg rfl)
  | _ => exact absurd trivial hl

theorem readAt_silent {start : Nat} (h : Good start σ.fs) (hI : σ.IdleFiles) (fd : Nat)
    (dst : Nat → Bool) {n : Nat} (hn : n < 2 ^ 32) :
    Ends (readAt p fd dst n) σ (fun _ τ => τ.fs.disk = σ.fs.disk) OtherPanic := by
  refine argfd_spec.bind ?_
  rintro r τ rfl
  cases r with
  | none => exact Ends.throw (by decide)
  | some f =>
    refine Ends.get_bind ?_
    dsimp only
    split_ifs
    · exact Ends.throw (by decide)
    have hlock := (ilock_spec (i := (τ.ftable f).ip) (E := OtherPanic) h
      (fun _ => by decide) (fun _ => by decide)).and (ilock_silent (τ.ftable f).ip τ.fs)
    refine (onFs_ends hlock).bind ?_
    rintro _ υ ⟨hfs, ⟨m, -, hm, hb, hl⟩, hdisk⟩
    refine (onFs_ends (readi_same hb.good hl hm dst _ hn)).bind (fun r ρ hρ => ?_)
    refine (moveOff_spec ((hfs.trans hρ.1).idle hI) f r.1).bind (fun _ π hπ => ?_)
    have hπ : π.fs.disk = τ.fs.disk := by rw [hπ.fs, hρ.2, hdisk]
    exact (onFs_silent (iunlock_silent _) π).bind (fun _ κ hκ => Ends.pure (hκ.trans hπ))

end Disk

end Xv6
