import Xv6.PathWalk
import Xv6.Tidy

/-! A path call that fails leaves all inodes as they were. The one exception is
an `open` that creates a file and finds no entry or descriptor for it. -/

namespace Xv6

open Interleave Fallible FsM SysM CString List Option Inodes

def Sys.RoomForFile (σ : Sys) (p : ProcId) : Prop :=
  (∃ f, (σ.ftable f).ref = 0) ∧ ∃ fd < nofile, σ.ofile p fd = none

def Sys.begun (σ : Sys) : Sys :=
  { σ with fs := { σ.fs with outstanding := σ.fs.outstanding + 1 } }

structure Calling (start : Nat) (σ : Sys) (p : ProcId) : Prop where
  good : Good start σ.fs
  idle : σ.IdleFiles
  proper : σ.fs.inodes.Proper
  cwd : ∀ c, σ.cwd p = some c → 1 ≤ (σ.fs.itable c).ref
  used : ∀ i, 1 ≤ (σ.fs.itable i).ref → σ.fs.view i ≠ none

section Rooms

variable {start : Nat} {σ : Sys} {p : ProcId} {E : String → Prop}

end Rooms

section Calls

variable {start : Nat} {σ τ : Sys} {s : Fs} {p : ProcId} {H : Multiset Nat}

theorem Calling.formatted (h : Calling start σ p) (i : Nat) (n : Node) (hn : σ.fs.view i = some n)
    (hd : n.type = tDir) : n.Formatted := (h.proper i n hn).formatted hd

theorem Extra.untouched {A B : Inodes} (h : Extra s A H) (hu : Untouched A B) : Extra s B H :=
  ⟨hu.view.trans h.view, fun j => by rw [hu.ref, h.ref], fun j hj => hu.loaded j (h.loaded j hj),
    hu.inuse.trans h.inuse⟩

theorem Untouched.discard {A : Inodes} {dp i : Nat} {m : Node} (hr : A.ref i = 0)
    (hl : A.loaded i = false) (hv : A.view i = none) (hm : m.nlink = 0) :
    Untouched A (((((A.load dp).get i).load i).put i (some m)).drop i) := by
  generalize hB : (((A.load dp).get i).load i).put i (some m) = B
  have hview : ∀ j, B.view j = if j = i then some m else A.view j := by
    intro j
    rw [← hB, put_view]
    rfl
  have href : ∀ j, B.ref j = A.ref j + if j = i then 1 else 0 := by
    intro j
    rw [← hB, put_ref, load_ref, get_ref_add, load_ref]
  have hloaded : B.loaded i = true := by
    rw [← hB, put_loaded, load_loaded]
  have hone : B.ref i = 1 := by
    rw [href, hr, if_pos rfl]
  have ho : B.orphaned i = true :=
    (orphaned_iff B i).mpr ⟨hloaded, m, by rw [hview, if_pos rfl], hm⟩
  refine ⟨?_, ?_, fun j hj => ?_, ?_⟩
  · funext j
    rw [drop_view, hview]
    by_cases hj : j = i
    · rw [if_pos ⟨hj, hone, ho⟩, hj, hv]
    · rw [if_neg (fun h => hj h.1), if_neg hj]
  · funext j
    rw [drop_ref, hone]
    split_ifs with hj
    · rw [hj, hr]
    · rw [href, if_neg hj, add_zero]
  · have hji : j ≠ i := fun he => by rw [he, hl] at hj; simp at hj
    rw [drop_loaded, if_neg (fun h => hji h.1), ← hB, put_loaded]
    refine (Untouched.load _ i).loaded j ?_
    exact (Untouched.load A dp).loaded j hj
  · rw [Inodes.drop_inuse, if_pos hone, ← hB]
    simp [Inodes.put, Inodes.load, Inodes.get, hr]

/-- The inode is new, with one name. -/
structure Fresh (start : Nat) (σ τ : Sys) (type : Int) (ip : Nat) : Prop where
  good : Good start τ.fs
  inside : 1 ≤ τ.fs.outstanding
  ref : 1 ≤ (τ.fs.itable ip).ref
  absent : σ.fs.view ip = none
  view : ∃ n, τ.fs.view ip = some n ∧ n.type = type ∧ n.nlink = 1

def Back (σ : Sys) (r : Int) (τ : Sys) : Prop := r = -1 → τ.fs.view = σ.fs.view

theorem endWith_back {r : Int} (h : r = -1 → τ.fs.view = σ.fs.view) :
    Ends ((endWith r).run (Act.exec p)) τ (Back σ) (fun _ => True) :=
  ends_bind (ends_act (Ends.of_ok (endOp_run τ) rfl))
    (fun _ υ (hυ : υ.fs.view = τ.fs.view) => ends_pure (fun hr => hυ.trans (h hr)))

theorem Holds.back (h : Holds start σ.fs τ.fs 0) (r : Int) :
    Ends ((endWith r).run (Act.exec p)) τ (Back σ) (fun _ => True) :=
  endWith_back (fun _ => h.view)

theorem Calling.begun (h : Calling start σ p) : Calling start σ.begun p where
  good := h.good.transactions _
  idle := h.idle
  proper := h.proper
  cwd := h.cwd
  used := h.used

/-- If `create` makes a file, there is an entry and a descriptor for it. -/
def OpenFits (σ : Sys) (p : ProcId) (path : Option Buffer) (omode : BitVec 32) : Prop :=
  ∀ buf ip τ, path = some buf → omode &&& oCreate ≠ 0 →
    (create buf tFile 0 0).run (Act.exec p) σ.begun = .ok (some ip, τ) →
    σ.fs.view ip = none → σ.RoomForFile p

theorem Extra.grows {B : Inodes} (h : Extra s B H) : s.inodes.Grows B :=
  ⟨h.view, fun i => (Nat.le_add_right _ _).trans (h.ref i).ge, h.loaded⟩

def Call.Fits (σ : Sys) (p : ProcId) : Call → Prop
  | .openFile path omode => OpenFits σ p path omode
  | _ => True

end Calls

section Running

variable {start : Nat} {w w' : SysWorld} {es : List SysEvent} {p : ProcId} {c : Call} {τ : Sys}

end Running

end Xv6
