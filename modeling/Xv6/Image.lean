import Xv6.Inodes

/-! Small images: the blocks below 10 are metadata, and the root directory has
its content in block 10. -/

namespace Xv6

open LittleEndian FsM List Fs

def rootNode (data : List Byte) : Dinode where
  type := tDir
  nlink := 1
  size := data.length
  addrs := Function.update (fun _ => 0) 0 10

def image (data : List Byte) : Fs where
  sb := ⟨64, 16⟩
  bitmap b := b.toNat < 11
  block := Function.update (fun _ _ => 0) 10 (blit (fun _ => 0) 0 data)
  dinode := Function.update (fun _ => {}) rootino (rootNode data)
  itable _ := ⟨0, false, {}⟩
  inuse := 0
  outstanding := 0

section Images

variable {data : List Byte}

theorem image_node (data : List Byte) (i : Nat) :
    (image data).node i = if i = rootino then rootNode data else {} := by
  simp [node, image, Function.update_apply]

theorem image_slot (data : List Byte) (k : Nat) :
    slot (image data).block (rootNode data) k = if k = 0 then 10 else 0 := by
  have h12 : ndirect = 12 := rfl
  have haddr : (rootNode data).addrs ndirect = 0 := rfl
  unfold slot
  split_ifs with h1 h2 h3
  · rw [h2]
    rfl
  · simp [rootNode, h2]
  · omega
  · rfl
  · omega
  · exact absurd (.inl haddr) h3

theorem image_owner (data : List Byte) (p : Nat × Nat) :
    (image data).owner p = if p = (rootino, 0) then some 10 else none := by
  obtain ⟨i, k⟩ := p
  unfold owner
  rw [image_node]
  by_cases hi : i = rootino
  · rw [if_pos hi, image_slot]
    by_cases hk : k = 0
    · rw [if_pos hk, if_neg (by simp [rootNode, tDir]), if_pos (by rw [hi, hk])]
    · rw [if_neg hk, if_pos (by simp), if_neg (by simp [hk])]
  · rw [if_neg hi, if_pos (.inl rfl), if_neg (by simp [hi])]

theorem image_good (hdata : data.length ≤ bsize) : Good 10 (image data) := by
  refine ⟨by decide, by simp [image], ⟨fun b => ?_, fun p q b hp hq => ?_, fun p b hp => ?_,
    fun b hb => by simp at hb⟩, fun i _ bn hbn => ?_, fun i hv => ?_, fun i hv => ?_,
    fun i hty => ?_⟩
  · have h10 : (10 : BlockNo).toNat = 10 := rfl
    have hbusy : (image data).busy b ↔ b.toNat < 10 ∨ b = 10 := by
      have he : b = 10 ↔ b.toNat = 10 := by rw [← BitVec.toNat_inj, h10]
      simp only [busy, image, decide_eq_true_eq, he]
      omega
    rw [hbusy]
    refine or_congr_right ⟨?_, ?_⟩
    · rintro rfl
      exact .inr ⟨(rootino, 0), by rw [image_owner, if_pos rfl]⟩
    · rintro (hb | ⟨p, hp⟩)
      · simp at hb
      · rw [image_owner] at hp
        split_ifs at hp
        exact (Option.some.inj hp).symm
  · rw [image_owner] at hp hq
    split_ifs at hp hq with h1 h2
    rw [h1, h2]
  · rw [image_owner] at hp
    split_ifs at hp
    rw [← Option.some.inj hp]
    exact ⟨by decide, by simp⟩
  · rw [image_node] at hbn
    split_ifs at hbn with hi
    · have hb0 : bn = 0 := by
        simp only [rootNode] at hbn
        have hb : bsize = 1024 := rfl
        rw [hb] at hbn hdata
        omega
      rw [hb0, hi, image_owner]
      simp [place, ndirect]
    · simp at hbn
  · simp [image] at hv
  · simp [image] at hv
  · rw [image_node] at hty
    split_ifs at hty with hi
    · rw [hi]
      exact ⟨le_rfl, by simp [image, rootino]⟩
    · simp at hty

theorem image_view_root (hdata : data.length ≤ bsize) :
    (image data).view rootino = some ⟨tDir, 0, 0, 1, data⟩ := by
  have hnode : (image data).node rootino = rootNode data := by rw [image_node, if_pos rfl]
  have hcontent : (image data).content rootino = data := by
    refine ext_getElem? (fun o => ?_)
    unfold content
    rw [hnode]
    by_cases ho : o < data.length
    · have hlt : o < bsize := by omega
      have hdiv : o / bsize = 0 := Nat.div_eq_of_lt hlt
      have hsize : (rootNode data).size = data.length := rfl
      rw [hsize, getElem?_map, getElem?_range ho, Option.map_some]
      unfold byte
      rw [hnode, hdiv, show place 0 = 0 from rfl, image_slot, if_pos rfl, Nat.mod_eq_of_lt hlt]
      have hblk : (image data).block 10 = blit (fun _ => 0) 0 data := by simp [image]
      rw [hblk, byteAt_blit _ _ _ hlt, if_neg (by omega), Nat.sub_zero, getElem?_eq_getElem ho]
      rfl
    · rw [getElem?_eq_none (by simpa [rootNode] using ho), getElem?_eq_none (by omega)]
  unfold view
  rw [hnode, hcontent, if_neg (by simp [rootNode, tDir])]
  rfl

end Images

/-- The image with the root directory read and a transaction open. -/
def lockedImage (data : List Byte) : Fs :=
  { (image data).setInode rootino ⟨1, true, rootNode data⟩ with inuse := 1, outstanding := 1 }

theorem lockedImage_good {data : List Byte} (hdata : data.length ≤ bsize) :
    Good 10 (lockedImage data) := by
  have hg := ((image_good hdata).retable (i := rootino) (e := ⟨1, true, rootNode data⟩)
    (fun _ => ⟨by simp [image], by simp [rootNode, tDir]⟩) 1).good
  exact ⟨hg.start_pos, hg.size_lt, hg.owned, hg.filled, hg.synced, hg.typed, hg.bounded⟩

theorem lockedImage_loaded (data : List Byte) :
    (lockedImage data).inodes.loaded rootino = true := by
  simp [inodes, lockedImage, setInode]

theorem lockedImage_view_root {data : List Byte} (hdata : data.length ≤ bsize) :
    (lockedImage data).view rootino = some ⟨tDir, 0, 0, 1, data⟩ := by
  have hb := (image_good hdata).retable (i := rootino) (e := ⟨1, true, rootNode data⟩)
    (fun _ => ⟨by simp [image], by simp [rootNode, tDir]⟩) 1
  rw [← image_view_root hdata]
  exact congrFun (congrArg Inodes.view hb.inodes) rootino

end Xv6
