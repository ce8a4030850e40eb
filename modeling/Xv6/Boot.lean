import Xv6.Image
import Xv6.FileTable

/-! The system at its start: the first process has the root directory as its
current directory, and no file is open. -/

namespace Xv6

def initProc : ProcId := ⟨0, by decide⟩

def bootOn (disk : Fs) : Sys where
  fs := { disk.setInode rootino ⟨1, false, {}⟩ with inuse := 1 }
  ftable _ := {}
  cwd p := if p = initProc then some rootino else none
  ofile _ _ := none
  pipe _ := none

def bootSys (data : List Byte) : Sys := bootOn (image data)

section Booting

variable {data : List Byte}

theorem boot_becomes (hdata : data.length ≤ bsize) : Becomes 10 (image data) (bootSys data).fs
      { view := (image data).view
        ref := Function.update (image data).inodes.ref rootino 1
        loaded := Function.update (image data).inodes.loaded rootino false
        inuse := 1 } :=
  (image_good hdata).retable (by simp) 1

theorem boot_good (hdata : data.length ≤ bsize) : Good 10 (bootSys data).fs := (boot_becomes hdata).good

theorem boot_view (hdata : data.length ≤ bsize) (i : Nat) :
    (bootSys data).fs.view i = if i = rootino then some ⟨tDir, 0, 0, 1, data⟩ else none := by
  have hv : (bootSys data).fs.view i = (image data).view i :=
    congrFun (congrArg Inodes.view (boot_becomes hdata).inodes) i
  rw [hv]
  split_ifs with hi
  · rw [hi, image_view_root hdata]
  · rw [Fs.view_eq_none, image_node, if_neg hi]

theorem boot_ref {disk : Fs} (h : ∀ i, (disk.itable i).ref = 0) (i : Nat) :
    ((bootOn disk).fs.itable i).ref = if i = rootino then 1 else 0 := by
  simp only [bootOn, Fs.setInode, Function.update_apply]
  split_ifs
  · rfl
  · exact h i

end Booting

end Xv6
