import Xv6.FileSteps
import Xv6.Resources

/-! What every step of a system call does to the inodes, the current directories
and the open files. -/

namespace Xv6

open Fallible FsM SysM Records CString Fs

section Loading

variable {start : Nat} {s : Fs} {ip : Nat} {n : Node} {E : String → Prop}

theorem readi_same (h : Good start s) (hl : s.inodes.loaded ip = true) (hn : s.view ip = some n)
    (dst : Nat → Bool) (off : Nat) {m : Nat} (hm : m < 2 ^ 32) :
    Ends (readi ip dst off m) s (fun _ t => t = s) E :=
  (readi_becomes h hl hn dst off hm).mono (fun _ _ h => h.1) (fun _ h => h.elim)

theorem loadseg_same (h : Good start s) (hl : s.inodes.loaded ip = true) (hn : s.view ip = some n)
    (off sz fuel i : Nat) : Ends (loadseg ip off sz fuel i) s (fun _ t => t = s) E := by
  induction fuel generalizing i with
  | zero => exact Ends.pure rfl
  | succ fuel ih =>
    rw [loadseg]
    split_ifs with hi
    · have hsize : min (sz - i) pgsize < 2 ^ 32 := lt_of_le_of_lt (min_le_right _ _) (by decide)
      refine (readi_same h hl hn _ _ hsize).bind ?_
      rintro r t rfl
      split_ifs
      · exact Ends.pure rfl
      · exact ih _
    · exact Ends.pure rfl

theorem loadSegs_same (h : Good start s) (hl : s.inodes.loaded ip = true) (hn : s.view ip = some n)
    (mem : Nat → Bool) (k off j : Nat) :
    Ends (loadSegs ip mem k off j) s (fun _ t => t = s) E := by
  induction k generalizing off j with
  | zero => exact Ends.pure rfl
  | succ k ih =>
    rw [loadSegs]
    refine (readi_same h hl hn _ _ (by decide)).bind ?_
    rintro r t rfl
    split_ifs
    · exact Ends.pure rfl
    · exact ih _ _
    · exact Ends.pure rfl
    · refine (loadseg_same h hl hn _ _ _ _).bind ?_
      rintro ok t rfl
      split_ifs
      · exact ih _ _
      · exact Ends.pure rfl

theorem loadElf_same (h : Good start s) (hl : s.inodes.loaded ip = true) (hn : s.view ip = some n)
    (mem : Nat → Bool) : Ends (loadElf ip mem) s (fun _ t => t = s) E := by
  refine (readi_same h hl hn _ _ (by decide)).bind ?_
  rintro r t rfl
  split_ifs
  · exact Ends.pure rfl
  · exact Ends.pure rfl
  · exact Ends.pure rfl
  · exact loadSegs_same h hl hn mem _ _ _

theorem load_spec (h : Good start s) (hE : ∀ e, Benign e → E e) (mem : Nat → Bool) :
    Ends (load ip mem) s (fun _ t => ∃ n, s.view ip = some n ∧
      Becomes start s t (s.inodes.load ip)) E := by
  refine (ilock_spec h (fun _ => hE _ (by decide)) (fun _ => hE _ (by decide))).bind ?_
  rintro _ t ⟨n, hn, hnt, hb, hl⟩
  refine (loadElf_same hb.good hl hnt mem).bind ?_
  rintro ok u rfl
  exact Ends.bind_ok (iunlock_run (ref_of_loaded hl)) (Ends.pure ⟨n, hn, hb⟩)

theorem orphan_spec (h : Good start s) (hE : ∀ e, Benign e → E e) (inum : Nat) :
    Ends (orphan inum) s (fun r t => (r = false ∧ t = s) ∨ (r = true ∧
      (∃ n, s.view inum = some n ∧ n.nlink = 0) ∧ Becomes start s t (s.inodes.get inum))) E := by
  unfold orphan
  refine Ends.get_bind ?_
  split_ifs with ho
  · obtain ⟨-, ht, hnl⟩ := ho
    refine (iget_spec h (fun _ _ => hE _ (by decide))).bind
      (fun _ t hb => Ends.pure (.inr ⟨rfl, ?_, hb⟩))
    rw [← h.node_dinode] at ht hnl
    have hv : s.view inum ≠ none := fun h0 => ht (view_eq_none.mp h0)
    obtain ⟨n, hn⟩ := Option.ne_none_iff_exists'.mp hv
    exact ⟨n, hn, (view_eq_some hn).2.2.2.2.1 ▸ hnl⟩
  · exact Ends.pure (.inl ⟨rfl, rfl⟩)

end Loading

/-- The file system is in order, and files without references are idle. -/
structure Kept (start : Nat) (σ τ : Sys) : Prop where
  good : Good start τ.fs
  sb : τ.fs.sb = σ.fs.sb
  outstanding : τ.fs.outstanding = σ.fs.outstanding
  idle : τ.IdleFiles

section Files

variable {start : Nat} {σ τ υ : Sys} {p : ProcId} {ip fd : Nat} {E : String → Prop} {A : Inodes}

theorem Becomes.kept (h : Becomes start σ.fs τ.fs A) (hI : τ.IdleFiles) : Kept start σ τ :=
  ⟨h.good, h.sb, h.outstanding, hI⟩

theorem Calm.kept (h : Calm σ τ) (hg : Good start σ.fs) (hI : σ.IdleFiles) : Kept start σ τ :=
  ⟨h.fs ▸ hg, by rw [h.fs], by rw [h.fs], h.idle hI⟩

theorem OnlyFs.abs_eq (h : OnlyFs σ τ) (hb : Becomes start σ.fs τ.fs A) :
    τ.abs = σ.abs.withInodes A := by
  rw [h.abs, hb.inodes]

def Opens (X : Abs) (ip : Nat) (omode : BitVec 32) (n : Node) : Opened → Abs → Prop
  | .opened _, Y => ∃ f w data, X.holds f = none ∧
      (omode &&& oCreate = 0 → n.type = tDir → w = false) ∧
      (data = n.data ∨ n.type = tFile ∧ data = []) ∧
      Y = ⟨(X.inodes.load ip).put ip (some { n with data := data }), X.cwd,
        Function.update X.holds f (some (ip, w))⟩
  | _, Y => Y = X.withInodes (X.inodes.load ip)

theorem openAt_spec (h : Good start σ.fs) (hI : σ.IdleFiles) (htx : 1 ≤ σ.fs.outstanding)
    (hE : ∀ e, Benign e → E e) (omode : BitVec 32) :
    Ends (openAt p ip omode) σ (fun r τ => Kept start σ τ ∧ allows (.openAt ip omode) r ∧
      ∃ n, σ.fs.view ip = some n ∧ Opens σ.abs ip omode n r τ.abs) E := by
  refine (onFs_ends (ilock_spec h (fun _ => hE _ (by decide)) (fun _ => hE _ (by decide)))).bind ?_
  rintro _ τ ⟨hfs, n, hn, hnt, hb, hl⟩
  have hIτ := hfs.idle hI
  have habs := hfs.abs_eq hb
  obtain ⟨htype, -, -⟩ := inode_view hl hnt
  have hunlock : ∀ υ : Sys, υ.fs = τ.fs → onFs (iunlock ip) υ = .ok ((), υ) := by
    intro υ hυ
    refine onFs_ok (t := υ.fs) (iunlock_run ?_)
    rw [hυ]
    exact ref_of_loaded hl
  have hrefuse : Ends (do onFs (iunlock ip); pure Opened.refused) τ (fun r υ =>
      Kept start σ υ ∧ allows (.openAt ip omode) r ∧
        ∃ n, σ.fs.view ip = some n ∧ Opens σ.abs ip omode n r υ.abs) E :=
    Ends.bind_ok (hunlock τ rfl) (Ends.pure ⟨hb.kept hIτ, trivial, n, hn, habs⟩)
  refine Ends.bind_ok (onFs_ok (t := τ.fs) inode_run) ?_
  by_cases hdir : omode &&& oCreate = 0 ∧ (τ.fs.itable ip).copy.type = tDir ∧ omode ≠ oRdonly
  · rw [if_pos hdir]
    exact hrefuse
  rw [if_neg hdir]
  split_ifs with hmajor
  · exact hrefuse
  refine filealloc_spec.bind ?_
  rintro r υ (⟨rfl, rfl⟩ | ⟨f, rfl, hf, rfl⟩)
  · exact hrefuse
  have hcalm := Calm.alloc hIτ hf
  have hfresh : (τ.ftable f).hold = none := File.hold_none (hIτ f hf)
  generalize hυ : τ.withFile f { τ.ftable f with ref := 1 } = υ at hcalm ⊢
  refine fdalloc_spec.bind (fun r ρ hρ => ?_)
  have hcρ := hcalm.trans hρ.1
  cases r with
  | none =>
    dsimp only
    refine (closeFile_fresh (hE _ (by decide)) (by rw [hcρ.holds, hfresh])).bind (fun r π hπ => ?_)
    have hcπ := hcρ.trans hπ.2
    refine Ends.bind_ok (hunlock π hcπ.fs) (Ends.pure ⟨?_, hπ.1, n, hn, ?_⟩)
    · have hk := hcπ.kept hb.good hIτ
      exact ⟨hk.good, hk.sb.trans hb.sb, hk.outstanding.trans hb.outstanding, hk.idle⟩
    · exact hcπ.abs.trans habs
  | some fd =>
    dsimp only
    have hfref : (ρ.ftable f).ref ≠ 0 := by
      rw [hρ.2, ← hυ]
      simp [Sys.withFile]
    refine (openFile_spec hfref).bind ?_
    rintro _ π ⟨hπfs, hπI, w, hw, hπabs⟩
    have hfsπ : π.fs = τ.fs := hπfs.trans hcρ.fs
    have hIπ := hπI (hcρ.idle hIτ)
    have htrunc : Ends (truncAt ip (τ.fs.itable ip).copy omode) π.fs (fun _ t =>
        ∃ data, (data = n.data ∨ n.type = tFile ∧ data = []) ∧
          Becomes start τ.fs t (τ.fs.inodes.put ip (some { n with data := data }))) E := by
      rw [hfsπ]
      exact truncAt_spec omode hb.good hl (hb.open htx) hnt htype
    refine (onFs_ends htrunc).bind ?_
    rintro _ κ ⟨hκfs, data, hdata, hκ⟩
    have hlκ : 1 ≤ (κ.fs.itable ip).ref := by
      rw [hκ.ref]
      exact ref_of_loaded hl
    refine Ends.bind_ok (onFs_ok (t := κ.fs) (iunlock_run hlκ)) (Ends.pure ⟨?_, trivial, n, hn, ?_⟩)
    · exact (hb.trans hκ).kept (hκfs.idle hIπ)
    · refine ⟨f, w, data, ?_, fun hc hd => hw ?_, hdata, ?_⟩
      · have hσ : τ.abs.holds f = σ.abs.holds f := by
          rw [habs]
          rfl
        rw [← hσ]
        exact hfresh
      · by_contra hne
        exact hdir ⟨hc, htype.trans hd, hne⟩
      · rw [hκfs.abs, hπabs, hcρ.abs, habs, hκ.inodes, hb.inodes]
        rfl

theorem moveOff_spec (hI : σ.IdleFiles) (f : FileId) (r : Int) :
    Ends (moveOff f r) σ (fun _ τ => Calm σ τ) E :=
  Ends.get_bind (Ends.modify (Calm.setFile (by simp [File.hold]) (hI f)))

theorem writeAt_spec (h : Good start σ.fs) (hI : σ.IdleFiles) (htx : 1 ≤ σ.fs.outstanding)
    (hE : ∀ e, Benign e → E e) (src : Nat → Option Byte) {n : Nat} (hsize : n < 2 ^ 32) :
    Ends (writeAt p fd src n) σ (fun _ τ => Kept start σ τ ∧ ∃ f ip m data,
      σ.abs.holds f = some (ip, true) ∧ σ.fs.view ip = some m ∧
      τ.abs = σ.abs.withInodes ((σ.fs.inodes.load ip).put ip (some { m with data := data }))) E := by
  refine argfd_spec.bind ?_
  rintro r τ rfl
  cases r with
  | none => exact Ends.throw (hE _ (by decide))
  | some f =>
    refine Ends.get_bind ?_
    dsimp only
    split_ifs with hbad
    · exact Ends.throw (hE _ (by decide))
    obtain ⟨htype, hwr⟩ := not_or.mp hbad
    have hhold : τ.abs.holds f = some ((τ.ftable f).ip, true) := by
      have ht : (τ.ftable f).type = .inode := not_not.mp htype
      have hw : (τ.ftable f).writable = true := by simpa using hwr
      simp [Sys.abs, File.hold, ht, hw]
    refine (onFs_ends (ilock_spec h (fun _ => hE _ (by decide)) (fun _ => hE _ (by decide)))).bind
      ?_
    rintro _ υ ⟨hfs, m, hm, hmυ, hb, hl⟩
    have hwrite : Ends (writei (τ.ftable f).ip src (τ.ftable f).off n) υ.fs (fun _ t => ∃ data,
        Becomes start υ.fs t (υ.fs.inodes.put (τ.ftable f).ip (some { m with data := data }))) E := by
      refine (writei_becomes hb.good hl (hb.open htx) hmυ src _ hsize).post ?_
      rintro r t (⟨-, rfl⟩ | ⟨tot, data, -, -, -, ht⟩)
      · refine ⟨m.data, ?_⟩
        rw [Inodes.put_self hmυ]
        exact Becomes.refl hb.good
      · exact ⟨data, ht⟩
    refine (onFs_ends hwrite).bind ?_
    rintro r ρ ⟨hρfs, data, hρ⟩
    refine (moveOff_spec ((hfs.trans hρfs).idle hI) f r).bind (fun _ π hπ => ?_)
    have hlπ : 1 ≤ (π.fs.itable (τ.ftable f).ip).ref := by
      rw [hπ.fs, hρ.ref]
      exact ref_of_loaded hl
    refine Ends.bind_ok (onFs_ok (t := π.fs) (iunlock_run hlπ)) (Ends.pure ⟨?_, ?_⟩)
    · have hk := hπ.kept hρ.good ((hfs.trans hρfs).idle hI)
      exact ⟨hk.good, hk.sb.trans (hρ.sb.trans hb.sb),
        hk.outstanding.trans (hρ.outstanding.trans hb.outstanding), hk.idle⟩
    · refine ⟨f, _, m, data, hhold, hm, ?_⟩
      have hall := (hfs.trans hρfs).abs_eq (hb.trans hρ)
      rw [hπ.abs, hall, hb.inodes]

theorem readAt_spec (h : Good start σ.fs) (hI : σ.IdleFiles) (hE : ∀ e, Benign e → E e)
    (dst : Nat → Bool) {n : Nat} (hsize : n < 2 ^ 32) :
    Ends (readAt p fd dst n) σ (fun _ τ => Kept start σ τ ∧ ∃ f ip w m,
      σ.abs.holds f = some (ip, w) ∧ σ.fs.view ip = some m ∧
        τ.abs = σ.abs.withInodes (σ.fs.inodes.load ip)) E := by
  refine argfd_spec.bind ?_
  rintro r τ rfl
  cases r with
  | none => exact Ends.throw (hE _ (by decide))
  | some f =>
    refine Ends.get_bind ?_
    dsimp only
    split_ifs with htype
    · exact Ends.throw (hE _ (by decide))
    have hhold : τ.abs.holds f = some ((τ.ftable f).ip, (τ.ftable f).writable) := by
      have ht : (τ.ftable f).type = .inode := not_not.mp htype
      simp [Sys.abs, File.hold, ht]
    refine (onFs_ends (ilock_spec h (fun _ => hE _ (by decide)) (fun _ => hE _ (by decide)))).bind
      ?_
    rintro _ υ ⟨hfs, m, hm, hmυ, hb, hl⟩
    refine (onFs_ends (readi_same hb.good hl hmυ dst _ hsize)).bind (fun r ρ hρ => ?_)
    have hIρ := (hfs.trans hρ.1).idle hI
    refine (moveOff_spec hIρ f r.1).bind (fun _ π hπ => ?_)
    have hπfs : π.fs = υ.fs := hπ.fs.trans hρ.2
    have hbπ : Becomes start τ.fs π.fs (τ.fs.inodes.load (τ.ftable f).ip) := by
      rw [hπfs]
      exact hb
    have hlπ : 1 ≤ (π.fs.itable (τ.ftable f).ip).ref := by
      rw [hπfs]
      exact ref_of_loaded hl
    refine Ends.bind_ok (onFs_ok (t := π.fs) (iunlock_run hlπ)) (Ends.pure ⟨?_, ?_⟩)
    · exact hbπ.kept (hπ.idle hIρ)
    · refine ⟨f, _, _, m, hhold, hm, ?_⟩
      rw [hπ.abs, (hfs.trans hρ.1).abs, hρ.2, hb.inodes]

end Files

def Does (p : ProcId) : (a : Act) → a.Res → Abs → Abs → Prop
  | .iget i, _, X, Y => Y = X.withInodes (X.inodes.get i)
  | .idupCwd, i, X, Y => X.cwd p = some i ∧ Y = X.withInodes (X.inodes.get i)
  | .iput i, _, X, Y => Y = X.withInodes (X.inodes.drop i)
  | .search ip name, r, X, Y => ∃ n, X.inodes.view ip = some n ∧ (n.type ≠ tDir → r = none) ∧
      (n.type = tDir → n.Formatted → r = (lookup (dirents n.data) name).map Prod.fst) ∧
      Y = X.withInodes (r.elim (X.inodes.load ip) (X.inodes.load ip).get)
  | .typeOf ip, r, X, Y => ∃ n, X.inodes.view ip = some n ∧ r = n.type ∧
      Y = X.withInodes (X.inodes.load ip)
  | .createAt dp name type major minor, r, X, Y => ∃ n, X.inodes.view dp = some n ∧
      n.type = tDir ∧ ∃ B, CreateDone X.inodes dp name type major minor n r B ∧ Y = X.withInodes B
  | .openAt ip omode, r, X, Y => ∃ n, X.inodes.view ip = some n ∧ Opens X ip omode n r Y
  | .unlinkAt dp name, r, X, Y =>
      (r = none ∧ ∃ B, Untouched X.inodes B ∧ Y = X.withInodes B) ∨
      ∃ n ip m k, X.inodes.view dp = some n ∧ n.type = tDir ∧ r = some ip ∧ ip ≠ dp ∧
        X.inodes.view ip = some m ∧ 1 ≤ m.nlink ∧ namecmp name dot ≠ 0 ∧ namecmp name dotdot ≠ 0 ∧
        (n.Formatted → lookup (dirents n.data) name = some (ip, direntSize * k)) ∧
        (m.type = tDir → m.Formatted → ∀ de ∈ (dirents m.data).drop 2, de.inum = 0) ∧
        direntSize * k ≤ n.data.length ∧ Y = X.withInodes (X.inodes.unlink dp ip { n with
            nlink := if m.type = tDir then i16 (n.nlink - 1) else n.nlink
            data := splice n.data (direntSize * k) Dirent.free.encode }
          { m with nlink := i16 (m.nlink - 1) })
  | .linkCount ip, r, X, Y => ∃ n, X.inodes.view ip = some n ∧
      ((r = false ∧ n.type = tDir ∧ Y = X.withInodes (X.inodes.load ip)) ∨
        (r = true ∧ n.type ≠ tDir ∧ Y = X.withInodes ((X.inodes.load ip).put ip
          (some { n with nlink := i16 (n.nlink + 1) }))))
  | .linkEnter dp name ip, r, X, Y => ∃ n, X.inodes.view dp = some n ∧ n.type = tDir ∧
      ((r = false ∧ Y = X.withInodes (X.inodes.load dp)) ∨
        ∃ data, r = true ∧ (n.Formatted → lookup (dirents n.data) name = none ∧
            Node.Formatted { n with data := data } ∧
            dirents data = enter (dirents n.data) (Dirent.new name ip)) ∧
          Y = X.withInodes ((X.inodes.load dp).put dp (some { n with data := data })))
  | .linkUncount ip, _, X, Y => ∃ n, X.inodes.view ip = some n ∧
      Y = X.withInodes ((X.inodes.load ip).put ip (some { n with nlink := i16 (n.nlink - 1) }))
  | .swapCwd next, i, X, Y => X.cwd p = some i ∧ Y = { X with cwd := Function.update X.cwd p next }
  | .closeFile _, none, X, Y => Y = X
  | .closeFile f, some i, X, Y => ∃ w, X.holds f = some (i, w) ∧
      Y = { X with holds := Function.update X.holds f none }
  | .forkFiles _, false, X, Y => Y = X
  | .forkFiles child, true, X, Y => ∃ i, X.cwd p = some i ∧ X.cwd child = none ∧ child ≠ p ∧
      Y = ⟨X.inodes.get i, Function.update X.cwd child (some i), X.holds⟩
  | .writeAt _ _ _, _, X, Y => ∃ f ip m data, X.holds f = some (ip, true) ∧
      X.inodes.view ip = some m ∧
      Y = X.withInodes ((X.inodes.load ip).put ip (some { m with data := data }))
  | .readAt _ _ _, _, X, Y => ∃ f ip w m, X.holds f = some (ip, w) ∧ X.inodes.view ip = some m ∧
      Y = X.withInodes (X.inodes.load ip)
  | .load ip _, _, X, Y => ∃ n, X.inodes.view ip = some n ∧ Y = X.withInodes (X.inodes.load ip)
  | .orphan _, false, X, Y => Y = X
  | .orphan i, true, X, Y => (∃ n, X.inodes.view i = some n ∧ n.nlink = 0) ∧
      Y = X.withInodes (X.inodes.get i)
  | .panic _, _, _, _ => False
  | _, _, X, Y => Y = X

/-- The steps of a transaction. Those that only read count too: in a file with
holes `bmap` would allocate. -/
def Act.Logs : Act → Prop
  | .iput _ | .search _ _ | .typeOf _ | .createAt _ _ _ _ _ | .openAt _ _ | .unlinkAt _ _
  | .linkCount _ | .linkEnter _ _ _ | .linkUncount _ | .writeAt _ _ _ | .load _ _ => True
  | _ => False

def Act.count : Act → Nat → Nat
  | .beginOp, n => n + 1
  | .endOp, n => n - 1
  | _, n => n

structure Done (start : Nat) (p : ProcId) (a : Act) (σ : Sys) (r : a.Res) (τ : Sys) : Prop where
  good : Good start τ.fs
  sb : τ.fs.sb = σ.fs.sb
  idle : τ.IdleFiles
  outstanding : τ.fs.outstanding = a.count σ.fs.outstanding
  allows : allows a r
  does : Does p a r σ.abs τ.abs

section Exec

variable {start : Nat} {σ τ : Sys} {p : ProcId} {E : String → Prop} {a : Act} {r : a.Res}

theorem Kept.done (h : Kept start σ τ) (hc : ∀ n, a.count n = n) (ha : allows a r)
    (hd : Does p a r σ.abs τ.abs) : Done start p a σ r τ :=
  ⟨h.good, h.sb, h.idle, by rw [hc, h.outstanding], ha, hd⟩

theorem onFs_done {m : FsM a.Res} (hexec : a.exec p = onFs m) (hc : ∀ n, a.count n = n)
    (ha : ∀ r, allows a r) (hI : σ.IdleFiles) (h : Ends m σ.fs (fun r t => ∃ B,
      Becomes start σ.fs t B ∧ Does p a r σ.abs (σ.abs.withInodes B)) E) :
    Ends (a.exec p) σ (fun r τ => Done start p a σ r τ) E := by
  rw [hexec]
  refine (onFs_ends h).post ?_
  rintro r τ ⟨hfs, B, hb, hd⟩
  refine (hb.kept (hfs.idle hI)).done hc (ha r) ?_
  rw [hfs.abs_eq hb]
  exact hd

theorem Good.transactions {s : Fs} (h : Good start s) (n : Nat) :
    Good start { s with outstanding := n } :=
  ⟨h.start_pos, h.size_lt, h.owned, h.filled, h.synced, h.typed, h.bounded⟩

def Counted (s : Fs) : Prop := ∀ dp n, s.view dp = some n → n.type = tDir → n.Formatted ∧
  ∀ name m ip off, lookup (dirents n.data) name = some (ip, off) → namecmp name dot ≠ 0 →
    namecmp name dotdot ≠ 0 → s.view ip = some m → 1 ≤ m.nlink

theorem exec_does (hgood : Good start σ.fs) (hI : σ.IdleFiles) (hE : ∀ e, Benign e → E e)
    (hnl : E "unlink: nlink < 1" ∨ Counted σ.fs) (htx : a.Logs → 1 ≤ σ.fs.outstanding)
    (href : ∀ i, a = .iput i → 1 ≤ (σ.fs.itable i).ref)
    (hcwd : ∀ c, σ.cwd p = some c → 1 ≤ (σ.fs.itable c).ref) {h : Held} (hneeds : needs a h) :
    Ends (a.exec p) σ (fun r τ => Done start p a σ r τ) E := by
  have hcalm : ∀ {τ : Sys}, Calm σ τ → Kept start σ τ := fun h => h.kept hgood hI
  cases a with
  | beginOp =>
    refine Ends.of_ok (beginOp_run σ) ?_
    exact ⟨hgood.transactions _, rfl, hI, rfl, trivial, rfl⟩
  | endOp =>
    refine Ends.of_ok (endOp_run σ) ?_
    exact ⟨hgood.transactions _, rfl, hI, rfl, trivial, rfl⟩
  | iget i =>
    refine onFs_done rfl (fun _ => rfl) (fun _ => trivial) hI ?_
    exact (iget_spec hgood (fun _ _ => hE _ (by decide))).post (fun _ t hb => ⟨_, hb, rfl⟩)
  | idupCwd =>
    refine (idupCwd_spec (hE _ (by decide)) hgood hcwd).post ?_
    rintro i τ ⟨hi, hfs, hb⟩
    exact (hb.kept (hfs.idle hI)).done (fun _ => rfl) trivial ⟨hi, hfs.abs_eq hb⟩
  | iput i =>
    refine onFs_done rfl (fun _ => rfl) (fun _ => trivial) hI ?_
    exact (iput_spec hgood (href i rfl) (fun _ _ => htx trivial)).post (fun _ t hb => ⟨_, hb, rfl⟩)
  | search ip name =>
    refine onFs_done rfl (fun _ => rfl) (fun _ => trivial) hI ?_
    refine (search_spec hgood name (fun _ => hE _ (by decide)) (fun _ => hE _ (by decide))
      (fun _ _ _ _ => hE _ (by decide)) (fun _ => hE _ (by decide))).post ?_
    rintro r t ⟨⟨rfl, hb⟩ | ⟨i, rfl, hb⟩, n, hn, hfile, hdir⟩
    · exact ⟨_, hb, n, hn, hfile, hdir, rfl⟩
    · exact ⟨_, hb, n, hn, hfile, hdir, rfl⟩
  | typeOf ip =>
    refine onFs_done rfl (fun _ => rfl) (fun _ => trivial) hI ?_
    refine (typeOf_spec hgood (fun _ => hE _ (by decide)) (fun _ => hE _ (by decide))).post ?_
    rintro r t ⟨hb, n, hn, hr⟩
    exact ⟨_, hb, n, hn, hr, rfl⟩
  | createAt dp name type major minor =>
    refine onFs_done rfl (fun _ => rfl) (fun _ => trivial) hI ?_
    refine (createAt_spec hgood (htx trivial) name major minor hneeds.2.2 hE).post ?_
    rintro r t ⟨n, hn, hd, B, hB, hb⟩
    exact ⟨B, hb, n, hn, hd, B, hB, rfl⟩
  | openAt ip omode =>
    refine (openAt_spec hgood hI (htx trivial) hE omode).post (fun r τ hτ => ?_)
    exact hτ.1.done (fun _ => rfl) hτ.2.1 hτ.2.2
  | unlinkAt dp name =>
    refine onFs_done rfl (fun _ => rfl) (fun _ => trivial) hI ?_
    refine (unlinkAt_spec hgood (htx trivial) name hE ?_).post (fun r t ht => ?_)
    · refine hnl.imp_right (fun hall n hn hd => ⟨(hall dp n hn hd).1, fun m ip off hl => ?_⟩)
      exact (hall dp n hn hd).2 name m ip off hl
    · obtain ⟨rfl, B, hB, hb⟩ | ⟨n, ip, m, k, hn, hd, rfl, hne, hm, h1, h2, h3, h4, h5, h6, hb⟩ := ht
      · exact ⟨B, hb, .inl ⟨rfl, B, hB, rfl⟩⟩
      · exact ⟨_, hb, .inr ⟨n, ip, m, k, hn, hd, rfl, hne, hm, h1, h2, h3, h4, h5, h6, rfl⟩⟩
  | linkCount ip =>
    refine onFs_done rfl (fun _ => rfl) (fun _ => trivial) hI ?_
    refine (linkCount_spec hgood (htx trivial) hE).post ?_
    rintro r t ⟨n, hn, ⟨rfl, hd, hb⟩ | ⟨rfl, hd, hb⟩⟩
    · exact ⟨_, hb, n, hn, .inl ⟨rfl, hd, rfl⟩⟩
    · exact ⟨_, hb, n, hn, .inr ⟨rfl, hd, rfl⟩⟩
  | linkEnter dp name ip =>
    refine onFs_done rfl (fun _ => rfl) (fun _ => trivial) hI ?_
    refine (linkEnter_spec hgood (htx trivial) name hE).post ?_
    rintro r t ⟨n, hn, hd, ⟨rfl, hb⟩ | ⟨data, rfl, hb, hdata⟩⟩
    · exact ⟨_, hb, n, hn, hd, .inl ⟨rfl, rfl⟩⟩
    · exact ⟨_, hb, n, hn, hd, .inr ⟨data, rfl, hdata, rfl⟩⟩
  | linkUncount ip =>
    refine onFs_done rfl (fun _ => rfl) (fun _ => trivial) hI ?_
    refine (linkUncount_spec hgood (htx trivial) hE).post ?_
    rintro _ t ⟨n, hn, hb⟩
    exact ⟨_, hb, n, hn, rfl⟩
  | swapCwd next =>
    have hm : Ends (swapCwd p next) σ (fun i τ => σ.cwd p = some i ∧
        τ = { σ with cwd := Function.update σ.cwd p next }) E := by
      unfold swapCwd
      refine Ends.get_bind ?_
      cases hc : σ.cwd p with
      | none => exact Ends.throw (hE _ (by decide))
      | some i => exact Ends.modify_bind (Ends.pure ⟨rfl, rfl⟩)
    refine hm.post ?_
    rintro i τ ⟨hi, rfl⟩
    exact ⟨hgood, rfl, hI, rfl, trivial, hi, rfl⟩
  | dup fd =>
    exact (dup_spec (hE _ (by decide))).post (fun r τ hτ =>
      (hcalm hτ).done (fun _ => rfl) trivial hτ.abs)
  | takeFd fd =>
    exact takeFd_spec.post (fun r τ hτ => (hcalm hτ).done (fun _ => rfl) trivial hτ.abs)
  | fdalloc f =>
    exact fdalloc_spec.post (fun r τ hτ => (hcalm hτ.1).done (fun _ => rfl) trivial hτ.1.abs)
  | closeFile f =>
    refine (closeFile_spec (hE _ (by decide))).post ?_
    rintro r τ (⟨rfl, hτ⟩ | ⟨i, w, rfl, hw, rfl⟩)
    · exact (hcalm hτ).done (fun _ => rfl) trivial hτ.abs
    · refine ⟨hgood, rfl, hI.withFile (fun _ => rfl), rfl, trivial, w, hw, ?_⟩
      rw [Sys.abs_withFile, File.hold_none rfl]
  | pipealloc page =>
    refine (pipealloc_spec (hE _ (by decide)) hI page).post (fun r τ hτ => ?_)
    refine (hcalm hτ.1).done (fun _ => rfl) ?_ hτ.1.abs
    cases r with
    | bad r0 r1 => exact hτ.2 r0 r1 rfl
    | made f0 f1 => trivial
  | forkFiles child =>
    refine (forkFiles_spec (hE _ (by decide)) (hE _ (by decide)) hgood hI hcwd).post ?_
    rintro r τ (⟨rfl, rfl⟩ | ⟨rfl, hIτ, i, hi, hn, hne, hb, habs⟩)
    · exact ⟨hgood, rfl, hI, rfl, trivial, rfl⟩
    · refine (hb.kept hIτ).done (fun _ => rfl) trivial ⟨i, hi, hn, hne, ?_⟩
      rw [habs, hb.inodes]
      rfl
  | fileOf fd =>
    have hm : Ends (fileOf p fd) σ (fun _ τ => τ = σ) E := by
      refine Ends.get_bind (argfd_spec.bind (fun r τ hτ => ?_))
      exact Ends.pure hτ
    refine hm.post ?_
    rintro r τ rfl
    exact ⟨hgood, rfl, hI, rfl, trivial, rfl⟩
  | writeAt fd src n =>
    exact (writeAt_spec hgood hI (htx trivial) hE src hneeds.2).post (fun r τ hτ =>
      hτ.1.done (fun _ => rfl) trivial hτ.2)
  | readAt fd dst n =>
    exact (readAt_spec hgood hI hE dst hneeds).post (fun r τ hτ =>
      hτ.1.done (fun _ => rfl) trivial hτ.2)
  | load ip mem =>
    refine onFs_done rfl (fun _ => rfl) (fun _ => trivial) hI ?_
    refine (load_spec hgood hE mem).post ?_
    rintro _ t ⟨n, hn, hb⟩
    exact ⟨_, hb, n, hn, rfl⟩
  | ninodes => exact Ends.get_bind (Ends.pure ⟨hgood, rfl, hI, rfl, trivial, rfl⟩)
  | orphan inum =>
    refine onFs_done rfl (fun _ => rfl) (fun _ => trivial) hI ?_
    refine (orphan_spec hgood hE inum).post ?_
    rintro r t (⟨rfl, rfl⟩ | ⟨rfl, hn, hb⟩)
    · exact ⟨_, Becomes.refl hgood, rfl⟩
    · exact ⟨_, hb, hn, rfl⟩
  | panic msg =>
    refine Ends.throw (hE _ ?_)
    have hmsg : msg ∈ ["filewrite", "fileread"] := hneeds
    simp only [List.mem_cons, List.not_mem_nil, or_false] at hmsg
    rcases hmsg with rfl | rfl <;> decide

end Exec

end Xv6
