import Xv6.MkfsImage

/-! `mkfs` as a whole. After each file the image is a file system; the root
directory, which gets one entry for each file, is rounded up at the end. -/

namespace Xv6

open LittleEndian Fallible FsM CString Function Fs

namespace Mkfs

structure Built (m : Mk) (n : Nat) : Prop where
  sound : Sound m
  freeinode : m.freeinode = n
  good : Good nmeta m.fs
  live : ∀ i, (m.fs.dinode i).type ≠ 0 ↔ 1 ≤ i ∧ i < n
  tight : ∀ i bn, (m.fs.dinode i).size ≤ bn * bsize → m.fs.owner (i, place bn) = none
  super : m.image 1 = superblock

section Building

variable {m t u : Mk} {inum n : Nat} {din d : Dinode} {E : String → Prop}

theorem fs_node (m : Mk) (i : Nat) : m.fs.node i = m.fs.dinode i := rfl

theorem fs_stored (m : Mk) (i : Nat) : (m.fs.dinode i).Stored := by
  unfold Mk.fs
  dsimp only
  split_ifs
  · exact Dinode.stored_ofWords _
  · exact ⟨by decide, by decide, by decide, by decide, by decide, fun _ _ => rfl⟩

theorem iblock_small (hi : inum < capacity) : (iblock inum).toNat < 2 ^ 22 := by
  have := (iblock_toNat hi).2
  have hm : nmeta = 47 := by decide
  omega

theorem iblock_ne_one (hi : inum < capacity) : (1 : BlockNo) ≠ iblock inum := by
  intro he
  have h := (iblock_toNat hi).1
  have h1 : (1 : BlockNo).toNat = 1 := by decide
  have hs : inodestart = 33 := by decide
  rw [← he, h1, hs] at h
  have := Nat.le_add_left 33 (inum / ipb)
  rw [← h] at this
  exact absurd this (by decide)

theorem rinode_run (h : Sound m) (hi : inum < capacity) :
    rinode inum m = .ok (m.fs.dinode inum, m) := by
  have hlt : (iblock inum).toNat < fssize := lt_of_lt_of_le (iblock_toNat hi).2 (by decide)
  have hd : m.fs.dinode inum = dinodeAt (m.image (iblock inum)) (inum % ipb) := if_pos hi
  refine Ends.eq_ok ((rsect_spec (iblock_small hi) (fun hle => ?_)).bind (fun v t hv => ?_))
  · have := h.sectors
    omega
  · obtain ⟨rfl, -, rfl⟩ := hv
    exact Ends.pure ⟨hd.symm, rfl⟩

def Mk.store (m : Mk) (inum : Nat) (d : Dinode) : Mk :=
  m.put (iblock inum) (putDinode (m.image (iblock inum)) (inum % ipb) d)

theorem winode_run (h : Sound m) (hi : inum < capacity) :
    winode inum d m = .ok ((), m.store inum d) := by
  have hlt : (iblock inum).toNat < fssize := lt_of_lt_of_le (iblock_toNat hi).2 (by decide)
  have hread : rsect (iblock inum) m = .ok (m.image (iblock inum), m) := by
    refine Ends.eq_ok ((rsect_spec (iblock_small hi) (fun hle => ?_)).post (fun v t hv => ?_))
    · have := h.sectors
      omega
    · exact ⟨hv.2.2, hv.1⟩
  rw [winode, bind_ok hread]
  exact wsect_run (iblock_small hi)

theorem Sound.store (h : Sound m) (hi : inum < capacity) : Sound (m.store inum d) := by
  refine h.put ?_
  have := (iblock_toNat hi).2
  have := h.low
  omega

theorem store_super (m : Mk) (d : Dinode) (hi : inum < capacity) :
    (m.store inum d).image 1 = m.image 1 :=
  update_of_ne (iblock_ne_one hi) _ _

theorem store_dinode (m : Mk) (hi : inum < capacity) (hd : d.Stored) :
    (m.store inum d).fs.dinode = update m.fs.dinode inum d := by
  have hp : ipb = 16 := by decide
  have hself : (m.store inum d).image (iblock inum) =
      putDinode (m.image (iblock inum)) (inum % ipb) d := update_self _ _ _
  have hother : ∀ b, b ≠ iblock inum → (m.store inum d).image b = m.image b :=
    fun b hb => update_of_ne hb _ _
  have hmod : ∀ i, i % ipb < ipb := fun i => Nat.mod_lt _ (by decide)
  funext i
  rw [update_apply]
  split_ifs with hii
  · subst hii
    refine (if_pos hi).trans ?_
    rw [hself]
    exact dinodeAt_putDinode hd (hmod i)
  · unfold Mk.fs
    dsimp only
    split_ifs with hlt
    · by_cases hblk : iblock i = iblock inum
      · have hdiv : i / ipb = inum / ipb := by
          have h1 := (iblock_toNat hlt).1
          rw [hblk, (iblock_toNat hi).1] at h1
          omega
        have hne : i % ipb ≠ inum % ipb := by
          intro he
          rw [hp] at hdiv he
          omega
        rw [hblk, hself]
        exact dinodeAt_putDinode_of_ne (hmod i) hne
      · rw [hother _ hblk]
    · rfl

theorem store_fs (m : Mk) (hi : inum < capacity) (hd : d.Stored) :
    (m.store inum d).fs = { m.fs with dinode := update m.fs.dinode inum d } := by
  have hblock : (m.store inum d).fs.block = m.fs.block := by
    funext b
    unfold Mk.fs
    dsimp only
    split_ifs with hb
    · rfl
    · have hne : b ≠ iblock inum := by
        rintro rfl
        exact hb (iblock_toNat hi).2
      exact update_of_ne hne _ _
  rw [← store_dinode m hi hd]
  dsimp only
  rw [← hblock]
  rfl

theorem opened_owner (m : Mk) (inum : Nat) :
    (m.opened inum (m.fs.dinode inum)).owner = m.fs.owner := by
  funext p
  obtain ⟨i, k⟩ := p
  refine owner_congr (s := m.fs) (t := m.opened inum (m.fs.dinode inum)) ?_ (fun _ _ => rfl) k
  rw [Mk.opened, node_setInode]
  by_cases hi : i = inum
  · subst hi
    simp only [if_true]
    rfl
  · simp only [hi, if_false]

theorem Built.drawn (h : Built m n) (hi : 1 ≤ inum ∧ inum < n) :
    Drawn m inum (m.fs.dinode inum) (m.fs.dinode inum).size m (m.fs.dinode inum) := by
  have hty : (m.fs.dinode inum).type ≠ 0 := (h.live inum).mpr hi
  have hgood : Good nmeta (m.opened inum (m.fs.dinode inum)) :=
    (h.good.setInode (e := ⟨1, true, m.fs.dinode inum⟩)
      (fun _ => (⟨rfl, hty⟩ : m.fs.dinode inum = m.fs.dinode inum ∧ _)) 0).1
  have hvalid : ((m.opened inum (m.fs.dinode inum)).itable inum).valid = true := by
    simp [Mk.opened, setInode]
  refine ⟨⟨h.sound, hgood.editing hvalid⟩, Same.refl m, Apart.refl _ _, rfl,
    (fs_stored m inum).addrs, fun bn hbn => ?_, fun bn hbn => ?_⟩
  · rw [opened_owner]
    exact h.good.filled inum hty bn hbn
  · rw [opened_owner]
    exact h.tight inum bn hbn

theorem Drawn.size_le {off : Nat} (h : Drawn m inum din off t d) : off ≤ maxfile * bsize := by
  by_contra hgt
  exact h.filled maxfile (by omega) (owner_maxfile _ inum)

theorem stored_resize {size : Nat} (h : d.Stored) (hs : size < 2 ^ 32) :
    ({ d with size := size } : Dinode).Stored :=
  ⟨h.type, h.major, h.minor, h.nlink, hs, h.addrs⟩

theorem Drawn.stored {off : Nat} (h : Drawn m inum (m.fs.dinode inum) off t d) :
    ({ d with size := off } : Dinode).Stored := by
  have hst := fs_stored m inum
  have hh := h.header
  refine stored_resize ⟨?_, ?_, ?_, ?_, ?_, h.tail⟩ (lt_of_le_of_lt h.size_le (by decide))
  · rw [hh]
    exact hst.type
  · rw [hh]
    exact hst.major
  · rw [hh]
    exact hst.minor
  · rw [hh]
    exact hst.nlink
  · rw [hh]
    exact hst.size

theorem store_stopped (t : Mk) (hi : inum < capacity) (hd : d.Stored) :
    ((t.opened inum d).sync inum).stopped = (t.store inum d).fs := by
  rw [store_fs t hi hd]
  simp [stopped, sync, Mk.opened, setInode, Mk.fs]

theorem Built.append (h : Built m n) (hn : n ≤ capacity) (hi : 1 ≤ inum ∧ inum < n) {off : Nat}
    (hd : Drawn m inum (m.fs.dinode inum) off t d) :
    Built (t.store inum { d with size := off }) n ∧
      (t.store inum { d with size := off }).fs.dinode =
        update m.fs.dinode inum { d with size := off } := by
  have hcap : inum < capacity := by omega
  have hty : (m.fs.dinode inum).type ≠ 0 := (h.live inum).mpr hi
  have htype : d.type = (m.fs.dinode inum).type := by rw [hd.header]
  have hstored := hd.stored
  have hdin : t.fs.dinode = m.fs.dinode := hd.same.dinode
  obtain ⟨hedit, howner⟩ := hd.drawing.editing.edit (f := fun d => { d with size := off })
    rfl (by rw [opened_node]; dsimp only; rw [htype]; exact hty)
  rw [opened_edit] at hedit howner
  obtain ⟨hsync, hsowner⟩ := hedit.sync
  have hstop := store_stopped t hcap hstored
  have hgood : Good nmeta ((t.opened inum { d with size := off }).sync inum) := by
    refine hsync.good (fun _ bn hbn => ?_) ?_
    · rw [hedit.sync_node, opened_node] at hbn
      rw [hsowner, howner]
      exact hd.filled bn hbn
    · simp [sync, Mk.opened, setInode]
  have hall : (t.store inum { d with size := off }).fs.owner = (t.opened inum d).owner := by
    rw [← hstop, hgood.stopped_owner, hsowner, howner]
  have hdinode : (t.store inum { d with size := off }).fs.dinode =
      update m.fs.dinode inum { d with size := off } := by
    rw [store_dinode t hcap hstored, hdin]
  refine ⟨⟨hd.drawing.sound.store hcap, ?_, ?_, fun i => ?_, fun i bn hbn => ?_, ?_⟩, hdinode⟩
  · exact hd.same.freeinode.trans h.freeinode
  · rw [← hstop]
    exact hgood.stopped
  · rw [hdinode, ← h.live i]
    by_cases hii : i = inum
    · rw [hii, update_self]
      dsimp only
      rw [htype]
    · rw [update_of_ne hii]
  · rw [hdinode] at hbn
    rw [hall]
    rw [update_apply] at hbn
    split_ifs at hbn with hii
    · subst hii
      exact hd.tight bn hbn
    · rw [hd.apart.owner hii, opened_owner]
      exact h.tight i bn hbn
  · rw [store_super t _ hcap, hd.same.image 1 (by decide)]
    exact h.super

theorem ialloc_spec (h : Built m n) (hn : 1 ≤ n ∧ n < capacity) (type : Int) (ht : type ≠ 0)
    (hs : -2 ^ 15 ≤ type ∧ type < 2 ^ 15) :
    Ends (ialloc type) m (fun r t => r = n ∧ Built t (n + 1) ∧ t.freeblock = m.freeblock ∧
      t.fs = { m.fs with
        dinode := update m.fs.dinode n { type := type, nlink := 1, size := 0 } }) E := by
  have hcap : capacity = 208 := by decide
  have hnext : u32 (n + 1) = n + 1 := Nat.mod_eq_of_lt (by omega)
  generalize hd : ({ type := type, nlink := 1, size := 0 } : Dinode) = d
  have hstored : d.Stored := by
    subst hd
    refine ⟨hs, ?_, ?_, ?_, ?_, fun _ _ => rfl⟩ <;> dsimp only <;> decide
  have htype : d.type ≠ 0 := by
    subst hd
    exact ht
  have hsize : d.size = 0 := by
    subst hd
    rfl
  have haddrs : d.addrs = fun _ => 0 := by
    subst hd
    rfl
  generalize hm1 : ({ m with freeinode := n + 1 } : Mk) = m1
  have hsound : Sound m1 := by
    subst hm1
    exact ⟨h.sound.sectors, h.sound.low, h.sound.high, h.sound.zero⟩
  have hfs1 : m1.fs = m.fs := by
    subst hm1
    rfl
  have hfs := store_fs m1 hn.2 hstored
  rw [hfs1] at hfs
  have hfree : m.fs.view n = none := by
    have hz : ¬ (m.fs.dinode n).type ≠ 0 := fun hne => by
      have := (h.live n).mp hne
      omega
    exact if_pos (not_not.mp hz)
  obtain ⟨hgood, howner⟩ := h.good.header hsize haddrs hfree hn
  unfold ialloc
  refine Ends.get_bind (Ends.set_bind ?_)
  rw [h.freeinode, hnext, hm1, hd]
  refine Ends.bind_ok (winode_run hsound hn.2) (Ends.pure ⟨rfl, ?_, ?_, hfs⟩)
  · refine ⟨hsound.store hn.2, by subst hm1; rfl, by rw [hfs]; exact hgood, fun i => ?_,
      fun i bn hbn => ?_, ?_⟩
    · rw [hfs]
      dsimp only
      by_cases hi : i = n
      · rw [hi, update_self]
        exact ⟨fun _ => by omega, fun _ => htype⟩
      · rw [update_of_ne hi, h.live i]
        omega
    · rw [hfs] at hbn ⊢
      rw [howner]
      dsimp only at hbn
      by_cases hi : i = n
      · subst hi
        unfold view at hfree
        unfold owner
        split_ifs at hfree with hz
        exact if_pos (.inl hz)
      · rw [update_of_ne hi] at hbn
        exact h.tight i bn hbn
    · rw [store_super m1 d hn.2]
      subst hm1
      exact h.super
  · subst hm1
    rfl

theorem iappend_spec (h : Built m n) (hn : n ≤ capacity) (hi : 1 ≤ inum ∧ inum < n) (p : List Byte)
    (hmax : maxfile * bsize < (m.fs.dinode inum).size + p.length → E "fbn < MAXFILE")
    (hE : fssize < m.freeblock.toNat + 2 * rounds (m.fs.dinode inum).size p.length → E "read") :
    Ends (iappend inum p) m (fun _ t => Built t n ∧
      (∀ i, i ≠ inum → t.fs.dinode i = m.fs.dinode i) ∧
      (t.fs.dinode inum).size = (m.fs.dinode inum).size + p.length ∧
      t.freeblock.toNat ≤ m.freeblock.toNat + 2 * rounds (m.fs.dinode inum).size p.length) E := by
  have hcap : inum < capacity := by omega
  refine Ends.bind_ok (rinode_run h.sound hcap) ?_
  refine (appendLoop_spec p.length _ p (h.drawn hi) le_rfl hmax hE).bind ?_
  rintro r t ⟨hoff, hdrawn, hfree⟩
  obtain ⟨hbuilt, hdin⟩ := h.append hn hi hdrawn
  rw [hoff]
  refine Ends.of_ok (winode_run hdrawn.drawing.sound hcap) ⟨hbuilt, fun i hne => ?_, ?_, hfree⟩
  · rw [hdin, update_of_ne hne]
  · rw [hdin, update_self]

theorem copyFile_spec (h : Built m n) (hn : n ≤ capacity) (hi : 1 ≤ inum ∧ inum < n) (fuel : Nat)
    (content : List Byte) :
    Ends (copyFile inum fuel content) m (fun _ t => Built t n ∧
      ∀ i, i ≠ inum → t.fs.dinode i = m.fs.dinode i) (fun _ => True) := by
  induction fuel generalizing m content with
  | zero => exact Ends.pure ⟨h, fun _ _ => rfl⟩
  | succ fuel ih =>
    unfold copyFile
    split_ifs with hc
    · exact Ends.pure ⟨h, fun _ _ => rfl⟩
    · refine (iappend_spec h hn hi _ (fun _ => trivial) (fun _ => trivial)).bind (fun _ t ht => ?_)
      refine (ih ht.1 (content.drop bsize)).post (fun _ u hu => ⟨hu.1, fun i hne => ?_⟩)
      rw [hu.2 i hne, ht.2.1 i hne]

/-- The image with the inodes below `n`, all of which the root lists. -/
structure Listed (m : Mk) (n : Nat) : Prop where
  built : Built m n
  two_le : 2 ≤ n
  root : (m.fs.dinode rootino).size = 16 * n

def Source.Plain (f : Source) : Prop :=
  f.content = [] ∧ 47#8 ∉ baseName f.path ∧ (shortName f.path).length ≤ dirsiz

instance (f : Source) : Decidable f.Plain :=
  inferInstanceAs (Decidable (f.content = [] ∧ 47#8 ∉ baseName f.path ∧ _))

theorem assert_spec {b : Bool} {msg : String} {Q : Unit → Mk → Prop} (h : b = true → Q () m)
    (hE : b = false → E msg) : Ends (assert b msg) m Q E := by
  cases b with
  | false => exact Ends.throw (hE rfl)
  | true => exact Ends.pure (h rfl)

theorem rounds_entry (k : Nat) : rounds (16 * k) 16 = 1 := by
  have hb : bsize = 1024 := by decide
  unfold rounds
  rw [if_neg (by decide), hb]
  omega

theorem addFile_spec (h : Listed m n) (hn : n < capacity) (f : Source)
    (hbad : ¬ f.Plain ∨ fssize < m.freeblock.toNat + 2 → ∀ e, E e) :
    Ends (addFile rootino f) m (fun _ t => Listed t (n + 1) ∧
      (f.Plain → t.freeblock.toNat ≤ m.freeblock.toNat + 2)) E := by
  have hcap : capacity = 208 := by decide
  have hroot : rootino = 1 := rfl
  have hmax : maxfile * bsize = 274432 := by decide
  have htwo := h.two_le
  unfold addFile
  refine (assert_spec (Q := fun _ t => t = m) (fun _ => rfl)
    (fun hf => hbad (.inl (fun hp => ?_)) _)).bind ?_
  · simp [hp.2.1] at hf
  rintro _ _ rfl
  refine (assert_spec (Q := fun _ u => u = _) (fun _ => rfl)
    (fun hf => hbad (.inl (fun hp => ?_)) _)).bind ?_
  · simp [hp.2.2] at hf
  rintro _ m rfl
  refine (ialloc_spec h.built ⟨by omega, hn⟩ tFile (by decide) (by decide)).bind ?_
  rintro r t ⟨rfl, hbuilt, hfree, hfs⟩
  have hsize : (t.fs.dinode rootino).size = 16 * r := by
    rw [hfs]
    dsimp only
    rw [update_of_ne (by omega), h.root]
  have hlen : _ = 16 := Dirent.length_encode_new (shortName f.path) r
  refine (iappend_spec hbuilt (by omega) (show 1 ≤ rootino ∧ rootino < _ from ⟨le_rfl, by omega⟩) _
    (fun hbig => ?_) (fun hfull => ?_)).bind (fun _ u hu => ?_)
  · rw [hsize, hlen] at hbig
    omega
  · rw [hsize, hlen, rounds_entry, hfree] at hfull
    exact hbad (.inr (by omega)) _
  obtain ⟨hbuilt', -, hsize', hfree'⟩ := hu
  rw [hsize, hlen] at hsize' hfree'
  rw [rounds_entry, hfree] at hfree'
  have hlisted : Listed u (r + 1) := ⟨hbuilt', by omega, by omega⟩
  by_cases hp : f.Plain
  · rw [hp.1]
    exact Ends.pure ⟨hlisted, fun _ => by omega⟩
  · refine (copyFile_spec hbuilt' (by omega) ⟨by omega, by omega⟩ _ _).mono
      (fun _ w hw => ⟨⟨hw.1, by omega, ?_⟩, fun hq => absurd hq hp⟩) (fun e _ => hbad (.inl hp) e)
    rw [hw.2 _ (by omega), hlisted.root]

theorem addFiles_spec (files : List Source) (h : Listed m n) (hn : n + files.length ≤ capacity)
    (hbad : (¬ ∀ f ∈ files, f.Plain) ∨ fssize < m.freeblock.toNat + 2 * files.length → ∀ e, E e) :
    Ends (addFiles rootino files) m (fun _ t => Listed t (n + files.length)) E := by
  induction files generalizing m n with
  | nil => exact Ends.pure h
  | cons f fs ih =>
    have hlen : (f :: fs).length = fs.length + 1 := rfl
    rw [hlen] at hn hbad ⊢
    have hhead : f.Plain ∨ ¬ ∀ g ∈ f :: fs, g.Plain := by
      by_cases hp : f.Plain
      · exact .inl hp
      · exact .inr (fun hall => hp (hall f List.mem_cons_self))
    refine (addFile_spec h (by omega) f (fun hf => hbad ?_)).bind (fun _ t ht => ?_)
    · rcases hf with hp | hfull
      · exact .inl (hhead.resolve_left hp)
      · exact .inr (by omega)
    · have hrec := ih ht.1 (by omega) (fun hf => hbad ?_)
      · rwa [show n + 1 + fs.length = n + (fs.length + 1) by omega] at hrec
      rcases hf with hp | hfull
      · exact .inl (fun hall => hp (fun g hg => hall g (List.mem_cons_of_mem f hg)))
      · rcases hhead with hp | hnot
        · have := ht.2 hp
          exact .inr (by omega)
        · exact .inl hnot

/-- The image before the root directory: zeros and the superblock. -/
def blank : Mk := Mk.put { start with sectors := fssize } 1 superblock

theorem zeroSectors_run : zeroSectors start = .ok ((), { start with sectors := fssize }) := by
  refine Ends.eq_ok ((Ends.loop (I := fun k t => t = { start with sectors := k }) rfl
    (fun k hk t ht => ?_)).post (fun _ t ht => ⟨rfl, ht⟩))
  subst ht
  have hf : fssize = 2000 := by decide
  have hto : (BitVec.ofNat 32 k).toNat = k := by
    rw [BitVec.toNat_ofNat]
    exact Nat.mod_eq_of_lt (by omega)
  refine Ends.of_ok (wsect_run (by omega)) ?_
  unfold Mk.put
  rw [hto]
  dsimp only
  rw [Nat.max_eq_right (Nat.le_succ k)]
  have himage : update start.image (BitVec.ofNat 32 k) (fun _ => 0) = start.image :=
    update_eq_self _ _
  rw [himage]

theorem blank_dinode (i : Nat) : (blank.fs.dinode i).type = 0 := by
  unfold Mk.fs
  dsimp only
  split_ifs with hi
  · have hzero : blank.image (iblock i) = fun _ => 0 :=
      update_of_ne (iblock_ne_one hi).symm _ _
    rw [hzero]
    unfold dinodeAt Dinode.ofWords
    dsimp only
    simp [word, byteAt, i16]
  · rfl

theorem built_blank : Built blank 1 := by
  have hnone : ∀ p, blank.fs.owner p = none := fun p => if_pos (.inl (blank_dinode p.1))
  have hnm : nmeta = 47 := by decide
  have hf : fssize = 2000 := by decide
  have hfree : blank.freeblock.toNat = nmeta := by decide
  refine ⟨⟨by decide, by omega, by omega, fun b hb => ?_⟩, rfl, ⟨by decide, by decide, ?_, ?_, ?_, ?_, ?_⟩,
    fun i => ?_, fun i bn _ => hnone _, by simp [blank, Mk.put]⟩
  · refine update_of_ne ?_ _ _
    rintro rfl
    have h1 : (1 : BlockNo).toNat = 1 := by decide
    omega
  · refine ⟨fun b => ?_, fun p q b hp => ?_, fun p b hp => ?_, fun b hb => hb.elim⟩
    · have hbusy : blank.fs.busy b ↔ b.toNat < fssize ∧ b.toNat < blank.freeblock.toNat := by
        simp [busy, Mk.fs]
      rw [hbusy, hfree]
      constructor
      · exact fun hb => .inl hb.2
      · rintro (hb | hb | ⟨p, hp⟩)
        · exact ⟨by omega, hb⟩
        · exact hb.elim
        · rw [hnone] at hp
          simp at hp
    · rw [hnone] at hp
      simp at hp
    · rw [hnone] at hp
      simp at hp
  · exact fun i hi => absurd (blank_dinode i) hi
  · exact fun i hi => absurd hi (by simp [Mk.fs])
  · exact fun i hi => absurd hi (by simp [Mk.fs])
  · exact fun i hi => absurd (blank_dinode i) hi
  · constructor
    · exact fun hi => absurd (blank_dinode i) hi
    · omega

/-- The end of `main`: the size of the root is rounded up and the bitmap written. -/
def Mk.rounded (m : Mk) : Dinode :=
  { m.fs.dinode rootino with size := ((m.fs.dinode rootino).size / bsize + 1) * bsize }

def Mk.finish (m : Mk) : Mk :=
  (m.store rootino m.rounded).put (BitVec.ofNat 32 bmapstart) (marked m.freeblock.toNat)

theorem main_spec (files : List Source) (hn : files.length + 2 ≤ capacity)
    (hbad : (¬ ∀ f ∈ files, f.Plain) ∨ fssize < nmeta + 4 + 2 * files.length → ∀ e, E e) :
    Ends (main files) start (fun _ m => ∃ t, Listed t (files.length + 2) ∧ m = t.finish) E := by
  have hcap : capacity = 208 := by decide
  have hf : fssize = 2000 := by decide
  have hnm : nmeta = 47 := by decide
  have hbits : bpb = 8192 := by decide
  have hmax : maxfile * bsize = 274432 := by decide
  have hfree0 : blank.freeblock.toNat = nmeta := by decide
  unfold main
  refine Ends.bind_ok zeroSectors_run (Ends.bind_ok (wsect_run (by decide)) ?_)
  refine (ialloc_spec built_blank ⟨le_rfl, by decide⟩ tDir (by decide) (by decide)).bind ?_
  rintro r m ⟨rfl, hbuilt, hfree, hfs⟩
  refine Ends.bind_ok (m := assert (decide (1 = rootino)) _) (a := ()) (t := m) rfl ?_
  have hsize : (m.fs.dinode rootino).size = 16 * 0 := by
    rw [hfs, show rootino = 1 from rfl]
    dsimp only
    rw [update_self]
  have hlen : ∀ name, (Dirent.new name 1).encode.length = 16 :=
    fun name => Dirent.length_encode_new name 1
  refine (iappend_spec hbuilt (by omega) (show 1 ≤ rootino ∧ rootino < _ from ⟨le_rfl, by decide⟩) _
    (fun hbig => ?_) (fun hfull => ?_)).bind (fun _ t ht => ?_)
  · rw [hsize, hlen] at hbig
    omega
  · rw [hsize, hlen, rounds_entry, hfree] at hfull
    omega
  obtain ⟨hbuilt1, -, hsize1, hfree1⟩ := ht
  rw [hsize, hlen] at hsize1 hfree1
  rw [rounds_entry] at hfree1
  have hsize1 : (t.fs.dinode rootino).size = 16 * 1 := by omega
  refine (iappend_spec hbuilt1 (by omega) (show 1 ≤ rootino ∧ rootino < _ from ⟨le_rfl, by decide⟩) _
    (fun hbig => ?_) (fun hfull => ?_)).bind (fun _ u hu => ?_)
  · rw [hsize1, hlen] at hbig
    omega
  · rw [hsize1, hlen, rounds_entry] at hfull
    rw [hfree] at hfree1
    omega
  obtain ⟨hbuilt2, -, hsize2, hfree2⟩ := hu
  rw [hsize1, hlen] at hsize2 hfree2
  rw [rounds_entry] at hfree2
  rw [hfree] at hfree1
  have hlisted : Listed u 2 := ⟨hbuilt2, le_rfl, by omega⟩
  refine (addFiles_spec files hlisted (by omega) (fun hor => hbad ?_)).bind (fun _ w hw => ?_)
  · rcases hor with hp | hfull
    · exact .inl hp
    · exact .inr (by omega)
  have hs := hw.built.sound
  have hroot : rootino < capacity := by decide
  have hfix : fixRoot rootino w = .ok ((), w.store rootino w.rounded) := by
    rw [fixRoot, bind_ok (rinode_run hs hroot)]
    exact winode_run hs hroot
  refine Ends.bind_ok hfix (Ends.get_bind ?_)
  have hhigh := hs.high
  have hused : (w.store rootino w.rounded).freeblock = w.freeblock := rfl
  unfold balloc
  rw [hused]
  refine Ends.bind_ok (m := assert _ _) (a := ()) (t := w.store rootino w.rounded) ?_ ?_
  · simp [assert, show w.freeblock.toNat < bpb by omega]
    rfl
  · exact Ends.of_ok (wsect_run (by decide)) ⟨w, by rwa [Nat.add_comm] at hw, rfl⟩

end Building

section Mounting

variable {m : Mk} {n : Nat}

theorem finish_low (m : Mk) {b : BlockNo} (hb : b ≠ BitVec.ofNat 32 bmapstart) :
    m.finish.image b = (m.store rootino m.rounded).image b := update_of_ne hb _ _

theorem Built.finish_super (h : Built m n) : m.finish.image 1 = superblock := by
  rw [finish_low m (by decide), store_super m _ (by decide)]
  exact h.super

theorem super_word {i : Nat} (hi : i < 8) : word superblock (4 * i) = superWords i := by
  have h := word_setWords (n := bsize) (fun _ => 0) (a := 0) superWords hi (by decide)
  rwa [Nat.zero_add] at h

theorem Listed.mount_sb (h : Listed m n) : (mount m.finish.image).sb = ⟨fssize, ninodes⟩ := by
  unfold mount
  dsimp only
  rw [h.built.finish_super, super_word (i := 1) (by decide), super_word (i := 3) (by decide)]
  rfl

theorem rounded_type (m : Mk) : m.rounded.type = (m.fs.dinode rootino).type := by
  unfold Mk.rounded
  dsimp only

theorem rounded_addrs (m : Mk) : m.rounded.addrs = (m.fs.dinode rootino).addrs := by
  unfold Mk.rounded
  dsimp only

theorem Listed.rounded_size (h : Listed m n) : m.rounded.size = (n / 64 + 1) * bsize := by
  have hb : bsize = 1024 := by decide
  unfold Mk.rounded
  dsimp only
  rw [h.root, hb]
  omega

theorem Built.rounded_stored (h : Built m n) (hn : 2 ≤ n) : m.rounded.Stored := by
  have hroot : rootino < n := lt_of_lt_of_le (by decide) hn
  have hty : (m.fs.dinode rootino).type ≠ 0 := (h.live rootino).mpr ⟨le_rfl, hroot⟩
  have hle := (h.good.filled rootino).size_le (by rw [fs_node]; exact hty)
  have hb : bsize = 1024 := by decide
  have hmax : maxfile = 268 := by decide
  refine stored_resize (fs_stored m rootino) ?_
  rw [fs_node] at hle
  rw [hb] at hle ⊢
  rw [hmax] at hle
  omega

theorem Built.finish_dinode (h : Built m n) (hn2 : 2 ≤ n) {i : Nat} (hi : i < ninodes) :
    (mount m.finish.image).dinode i = update m.fs.dinode rootino m.rounded i := by
  have hn : ninodes = 200 := by decide
  have hcap : capacity = 208 := by decide
  have hword : (word superblock 12).toNat = ninodes := by
    rw [super_word (i := 3) (by decide)]
    decide
  have hword' : (word superblock 24).toNat = inodestart := by
    rw [super_word (i := 6) (by decide)]
    decide
  have hb := (iblock_toNat (i := i) (by omega))
  have hne : iblock i ≠ BitVec.ofNat 32 bmapstart := by
    intro he
    have hbm : (BitVec.ofNat 32 bmapstart).toNat = 46 := by decide
    have hs : inodestart = 33 := by decide
    have hp : ipb = 16 := by decide
    rw [he, hbm, hs, hp] at hb
    omega
  rw [← store_dinode m (by decide) (h.rounded_stored hn2)]
  unfold mount
  dsimp only
  rw [h.finish_super, hword, hword', if_pos hi]
  refine Eq.trans ?_ (if_pos (show i < capacity by omega)).symm
  exact congrArg (dinodeAt · (i % ipb)) (finish_low m hne)

theorem finish_block (m : Mk) {b : BlockNo} (hb : ¬ b.toNat < nmeta) :
    m.finish.image b = m.image b := by
  have hmeta : ∀ c : BlockNo, c.toNat < nmeta → b ≠ c := by
    rintro c hc rfl
    exact hb hc
  refine (finish_low m (hmeta _ (by decide))).trans ?_
  exact update_of_ne (hmeta _ (iblock_toNat (by decide)).2) _ _

theorem Listed.mount_dinode_ge (h : Listed m n) {i : Nat} (hi : ¬ i < ninodes) :
    (mount m.finish.image).dinode i = {} := by
  have hword : (word superblock 12).toNat = ninodes := by
    rw [super_word (i := 3) (by decide)]
    decide
  unfold mount
  dsimp only
  rw [h.built.finish_super, hword, if_neg hi]

theorem Listed.mount_bitmap (h : Listed m n) {b : BlockNo} (hb : b.toNat < fssize) :
    (mount m.finish.image).bitmap b = decide (b.toNat < m.freeblock.toNat) := by
  have hf : fssize = 2000 := by decide
  have hbits : bpb = 8192 := by decide
  have hhigh := h.built.sound.high
  have hword : (word superblock 28).toNat = bmapstart := by
    rw [super_word (i := 7) (by decide)]
    decide
  have hself : m.finish.image (BitVec.ofNat 32 bmapstart) = marked m.freeblock.toNat := by
    simp [Mk.finish, Mk.put]
  unfold mount
  dsimp only
  rw [h.built.finish_super, hword, Nat.div_eq_of_lt (by omega), Nat.zero_add, hself,
    Nat.mod_eq_of_lt (by omega)]
  exact bitAt_marked _ (by omega) (by omega)

theorem Listed.mount_owner (h : Listed m n) (hn : n ≤ ninodes) :
    (mount m.finish.image).owner = m.fs.owner := by
  have hnode : ∀ i, (mount m.finish.image).node i = (mount m.finish.image).dinode i := fun _ => rfl
  funext p
  obtain ⟨i, k⟩ := p
  by_cases hi : i < ninodes
  · have hd := h.built.finish_dinode h.two_le hi
    have hsame : ((mount m.finish.image).dinode i).type = (m.fs.dinode i).type ∧
        ((mount m.finish.image).dinode i).addrs = (m.fs.dinode i).addrs := by
      rw [hd]
      by_cases hr : i = rootino
      · rw [hr, update_self]
        exact ⟨rounded_type m, rounded_addrs m⟩
      · rw [update_of_ne hr]
        exact ⟨rfl, rfl⟩
    refine owner_of_addrs (by rw [hnode, hsame.1, fs_node]) (by rw [hnode, hsame.2, fs_node])
      (fun b hb => ?_) k
    have hlow : ¬ b.toNat < nmeta := (h.built.good.owned.owned _ _ hb).1
    have hblock : m.fs.block b = m.image b := if_neg hlow
    rw [hblock]
    exact finish_block m hlow
  · have hdead : (m.fs.dinode i).type = 0 := by
      by_contra hne
      have := (h.built.live i).mp hne
      omega
    have hnone : ((mount m.finish.image).dinode i).type = 0 := by
      rw [h.mount_dinode_ge hi]
    exact (if_pos (.inl hnone)).trans (if_pos (.inl hdead)).symm

/-- The kernel's view of an inode region, of the files' blocks and of the bitmap. -/
structure WellFormed (m : Mk) : Prop where
  inodes : ∀ i, 1 ≤ i → i < m.freeinode → i < (mount m.image).sb.ninodes ∧
    inodestart ≤ (iblock i).toNat ∧ (iblock i).toNat < bmapstart ∧
    ((mount m.image).dinode i).type ≠ 0
  blocks : ∀ i, ((mount m.image).dinode i).type ≠ 0 →
    ∀ bn, bn * bsize < ((mount m.image).dinode i).size →
      ∃ b, (mount m.image).owner (i, place bn) = some b
  bitmap : ∀ b : BlockNo, b.toNat < (mount m.image).sb.size →
    ((mount m.image).bitmap b = true ↔ b.toNat < nmeta ∨ ∃ p, (mount m.image).owner p = some b)

theorem Listed.freeinode (h : Listed m n) : m.finish.freeinode = n := h.built.freeinode

theorem Listed.mount_live (h : Listed m n) (hn : n ≤ ninodes) (i : Nat) :
    ((mount m.finish.image).dinode i).type ≠ 0 ↔ 1 ≤ i ∧ i < n := by
  rw [← h.built.live i]
  by_cases hi : i < ninodes
  · rw [h.built.finish_dinode h.two_le hi]
    by_cases hr : i = rootino
    · rw [hr, update_self, rounded_type]
    · rw [update_of_ne hr]
  · rw [h.mount_dinode_ge hi]
    refine iff_of_false (fun hne => hne rfl) (fun hne => ?_)
    have := (h.built.live i).mp hne
    omega

theorem Listed.wellFormed (h : Listed m n) (hn : n ≤ ninodes) (hr : n % 64 ≠ 0) :
    WellFormed m.finish := by
  have hb : bsize = 1024 := by decide
  have hni : ninodes = 200 := by decide
  have hcap : capacity = 208 := by decide
  have hs : inodestart = 33 := by decide
  have hp : ipb = 16 := by decide
  have hbm : bmapstart = 46 := by decide
  have hlive := h.mount_live hn
  refine ⟨fun i h1 hi => ?_, fun i hty bn hbn => ?_, fun b hsize => ?_⟩
  · rw [h.freeinode] at hi
    have hblock := (iblock_toNat (i := i) (by omega)).1
    rw [hp, hs] at hblock
    rw [h.mount_sb]
    exact ⟨lt_of_lt_of_le hi hn, by omega, by omega, (hlive i).mpr ⟨h1, hi⟩⟩
  · obtain ⟨h1, hi⟩ := (hlive i).mp hty
    have hty' : (m.fs.node i).type ≠ 0 := by
      rw [fs_node]
      exact (h.built.live i).mpr ⟨h1, hi⟩
    rw [h.built.finish_dinode h.two_le (lt_of_lt_of_le hi hn)] at hbn
    rw [h.mount_owner hn]
    refine Option.ne_none_iff_exists'.mp (h.built.good.filled i hty' bn ?_)
    rw [fs_node]
    by_cases hroot : i = rootino
    · -- the size before rounding is not a multiple of the block size
      rw [hroot, update_self, h.rounded_size, hb] at hbn
      rw [hroot, h.root, hb]
      omega
    · rwa [update_of_ne hroot] at hbn
  · rw [h.mount_sb] at hsize
    have hledger := h.built.good.owned.busy_iff b
    have hbusy : m.fs.busy b ↔ b.toNat < m.freeblock.toNat := by
      simp only [busy, Mk.fs, decide_eq_true_eq]
      exact ⟨fun hx => hx.2, fun hx => ⟨hsize, hx⟩⟩
    rw [h.mount_owner hn, h.mount_bitmap hsize, decide_eq_true_eq, ← hbusy, hledger]
    simp

theorem Listed.not_rounded (h : Listed m n) (hn : n ≤ ninodes) (hw : WellFormed m.finish) :
    n % 64 ≠ 0 := by
  intro hr
  have hb : bsize = 1024 := by decide
  have hroot : rootino < n := lt_of_lt_of_le (by decide) h.two_le
  have hsize : (n / 64) * bsize < ((mount m.finish.image).dinode rootino).size := by
    rw [h.built.finish_dinode h.two_le (by decide), update_self, h.rounded_size, hb]
    omega
  obtain ⟨b, hown⟩ := hw.blocks rootino ((h.mount_live hn rootino).mpr ⟨le_rfl, hroot⟩) _ hsize
  rw [h.mount_owner hn, h.built.tight rootino (n / 64) (by rw [h.root, hb]; omega)] at hown
  simp at hown

theorem Listed.numbered (h : Listed m n) (hw : WellFormed m.finish) : n ≤ ninodes := by
  by_contra hn
  have hlast := (hw.inodes ninodes (by decide) (by rw [h.freeinode]; omega)).1
  rw [h.mount_sb] at hlast
  exact lt_irrefl _ hlast

end Mounting

/-- `mkfs` numbers the inodes without a bound, and it rounds a root directory
whose size is a multiple of the block size up by a block that is not there. As long as
the inodes fit into their blocks, nothing else goes wrong. -/
theorem image_well_formed (files : List Source) (m : Mk) (h : main files start = .ok ((), m))
    (hc : files.length + 2 ≤ capacity) :
    WellFormed m ↔ files.length + 2 ≤ ninodes ∧ (files.length + 2) % 64 ≠ 0 := by
  obtain ⟨t, ht, rfl⟩ := (main_spec (E := fun _ => True) files hc (fun _ _ => trivial)).ok h
  refine ⟨fun hw => ?_, fun hn => ht.wellFormed hn.1 hn.2⟩
  have hn := ht.numbered hw
  exact ⟨hn, ht.not_rounded hn hw⟩

def emptyFiles (k : Nat) : List Source :=
  (List.range k).map (fun i => ⟨[BitVec.ofNat 8 (97 + i / 16), BitVec.ofNat 8 (97 + i % 16)], []⟩)

theorem emptyFiles_main (k : Nat) (hk : k + 2 ≤ capacity) (hp : ∀ f ∈ emptyFiles k, f.Plain) :
    ∃ t, Listed t (k + 2) ∧ main (emptyFiles k) start = .ok ((), t.finish) := by
  have hlen : (emptyFiles k).length = k := by simp [emptyFiles]
  have hcap : capacity = 208 := by decide
  have hf : fssize = 2000 := by decide
  have hnm : nmeta = 47 := by decide
  have hspec := main_spec (E := fun _ => False) (emptyFiles k) (by omega) (fun hbad => ?_)
  · obtain ⟨a, m, hm, t, ht, rfl⟩ := hspec.returns
    rw [hlen] at ht
    exact ⟨t, ht, hm⟩
  · rcases hbad with hbad | hfull
    · exact absurd hp hbad
    · omega

theorem image_well_formed_three : ∃ m, main (emptyFiles 3) start = .ok ((), m) ∧ WellFormed m := by
  obtain ⟨t, -, hm⟩ := emptyFiles_main 3 (by decide) (by decide)
  exact ⟨_, hm, (image_well_formed _ _ hm (by decide)).mpr (by decide)⟩

/-- With 62 files the root directory has no second block, and with 199 files
the last of them has an inode that the superblock does not count. -/
theorem image_ill_formed : (∃ m, main (emptyFiles 62) start = .ok ((), m) ∧
      ((emptyFiles 62).map (fun f => shortName f.path)).Nodup ∧
      ((mount m.image).dinode rootino).size = 2 * bsize ∧
      (mount m.image).owner (rootino, place 1) = none) ∧
    ∃ m, main (emptyFiles 199) start = .ok ((), m) ∧
      ((emptyFiles 199).map (fun f => shortName f.path)).Nodup ∧
      200 < m.freeinode ∧ (mount m.image).sb.ninodes = 200 := by
  constructor
  · obtain ⟨t, ht, hm⟩ := emptyFiles_main 62 (by decide) (by decide)
    refine ⟨_, hm, by decide, ?_, ?_⟩
    · rw [ht.built.finish_dinode ht.two_le (by decide), update_self, ht.rounded_size]
    · rw [ht.mount_owner (by decide)]
      refine ht.built.tight rootino 1 ?_
      rw [ht.root]
      decide
  · obtain ⟨t, ht, hm⟩ := emptyFiles_main 199 (by decide) (by decide +kernel)
    refine ⟨_, hm, by decide +kernel, ?_, ?_⟩
    · rw [ht.freeinode]
      decide
    · rw [ht.mount_sb]
      rfl

end Mkfs

end Xv6
