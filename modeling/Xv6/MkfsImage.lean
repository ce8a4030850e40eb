import Xv6.Mkfs

/-! What `mkfs` has built at each point: the image with the inode that it is
working on is a file system in which the blocks below the counter are in use. -/

namespace Xv6

open LittleEndian Fallible FsM CString Function BitVec Fs

structure Dinode.Stored (d : Dinode) : Prop where
  type : -2 ^ 15 ≤ d.type ∧ d.type < 2 ^ 15
  major : -2 ^ 15 ≤ d.major ∧ d.major < 2 ^ 15
  minor : -2 ^ 15 ≤ d.minor ∧ d.minor < 2 ^ 15
  nlink : -2 ^ 15 ≤ d.nlink ∧ d.nlink < 2 ^ 15
  size : d.size < 2 ^ 32
  addrs : ∀ k, ndirect < k → d.addrs k = 0

section Encoding

variable {d : Dinode} {v : Block} {i j : Nat}

theorem i16_bounds (x : Int) : -2 ^ 15 ≤ i16 x ∧ i16 x < 2 ^ 15 := by
  unfold i16
  have h1 := Int.le_bmod (x := x) (m := 2 ^ 16) (by decide)
  have h2 := Int.bmod_lt (x := x) (m := 2 ^ 16) (by decide)
  omega

theorem Dinode.stored_ofWords (w : Nat → BitVec 32) : (Dinode.ofWords w).Stored := by
  unfold Dinode.ofWords
  constructor <;> dsimp only
  · exact i16_bounds _
  · exact i16_bounds _
  · exact i16_bounds _
  · exact i16_bounds _
  · exact (w 2).isLt
  · intro k hk
    exact if_neg (by omega)

theorem shorts_of_word {x y : Int} (hx : -2 ^ 15 ≤ x ∧ x < 2 ^ 15) (hy : -2 ^ 15 ≤ y ∧ y < 2 ^ 15) :
    i16 (BitVec.ofInt 32 (x % 2 ^ 16 + 2 ^ 16 * y)).toNat = x ∧
      i16 ((BitVec.ofInt 32 (x % 2 ^ 16 + 2 ^ 16 * y)).toNat / 2 ^ 16 : Nat) = y := by
  have hn : ((BitVec.ofInt 32 (x % 2 ^ 16 + 2 ^ 16 * y)).toNat : Int) =
      (x % 2 ^ 16 + 2 ^ 16 * y) % 2 ^ 32 := by
    rw [BitVec.toNat_ofInt]
    omega
  generalize (BitVec.ofInt 32 (x % 2 ^ 16 + 2 ^ 16 * y)).toNat = n at hn ⊢
  unfold i16
  rw [Int.bmod_def, Int.bmod_def]
  push_cast
  constructor
  · split_ifs <;> omega
  · split_ifs <;> omega

theorem Dinode.ofWords_words (h : d.Stored) {w : Nat → BitVec 32}
    (hw : ∀ k < dinodeWords, w k = d.words k) : Dinode.ofWords w = d := by
  have hlt : ∀ k ≤ ndirect, k + 3 < dinodeWords := fun k hk => by
    unfold dinodeWords
    omega
  have haddrs : (fun k => if k ≤ ndirect then w (k + 3) else 0) = d.addrs := by
    funext k
    split_ifs with hk
    · rw [hw _ (hlt k hk)]
      rfl
    · rw [h.addrs k (by omega)]
  obtain ⟨ht, hm⟩ := shorts_of_word h.type h.major
  obtain ⟨hmi, hn⟩ := shorts_of_word h.minor h.nlink
  unfold Dinode.ofWords
  rw [haddrs, hw 0 (by decide), hw 1 (by decide), hw 2 (by decide)]
  simp only [Dinode.words, ht, hm, hmi, hn, toNat_ofNat, Nat.mod_eq_of_lt h.size]

theorem Dinode.ofWords_congr {w w' : Nat → BitVec 32} (h : ∀ k < dinodeWords, w k = w' k) :
    Dinode.ofWords w = Dinode.ofWords w' := by
  have haddrs : (fun k => if k ≤ ndirect then w (k + 3) else 0) =
      fun k => if k ≤ ndirect then w' (k + 3) else 0 := by
    funext k
    split_ifs with hk
    · exact h _ (by unfold dinodeWords; omega)
    · rfl
  unfold Dinode.ofWords
  rw [haddrs, h 0 (by decide), h 1 (by decide), h 2 (by decide)]

theorem dinodeAt_putDinode (h : d.Stored) (hj : j < Mkfs.ipb) :
    dinodeAt (putDinode v j d) j = d := by
  have hi : Mkfs.ipb = 16 := by decide
  have hw : dinodeWords = 16 := by decide
  refine Dinode.ofWords_words h (fun k hk => ?_)
  exact word_setWords v d.words hk (by rw [hw]; simp only [bsize]; omega)

theorem dinodeAt_putDinode_of_ne (hi : i < Mkfs.ipb) (hij : i ≠ j) :
    dinodeAt (putDinode v j d) i = dinodeAt v i := by
  have h16 : Mkfs.ipb = 16 := by decide
  have hw : dinodeWords = 16 := by decide
  refine Dinode.ofWords_congr (fun k hk => ?_)
  exact word_setWords_of_disjoint v d.words dinodeWords (by rw [hw] at hk ⊢; simp only [bsize]; omega)
    (by rw [hw] at hk ⊢; omega)

theorem bitAt_marked (n : Nat) {i : Nat} (hn : n ≤ Mkfs.bpb) (hi : i < Mkfs.bpb) :
    bitAt (Mkfs.marked n) i = decide (i < n) := by
  have hb : Mkfs.bpb = 8192 := by decide
  induction n with
  | zero => simp [bitAt, Mkfs.marked, byteAt]
  | succ n ih =>
    have hrec := ih (by omega)
    unfold bitAt at hrec ⊢
    by_cases hbyte : i / 8 = n / 8
    · have hself : byteAt (Mkfs.marked (n + 1)) (i / 8) =
          byteAt (Mkfs.marked n) (i / 8) ||| 1#8 <<< (n % 8) := by
        rw [hbyte]
        exact update_self _ _ _
      have hbit : (1#8 <<< (n % 8)).getLsbD (i % 8) = decide (i = n) := by
        have h8 : i % 8 < 8 := Nat.mod_lt _ (by decide)
        rw [getLsbD_shiftLeft, getLsbD_one]
        simp only [h8, decide_true, Bool.true_and]
        by_cases hin : i = n
        · subst hin
          simp
        · have hne : i % 8 ≠ n % 8 := by omega
          by_cases hlt : i % 8 < n % 8
          · simp [hlt, hin]
          · have hpos : i % 8 - n % 8 ≠ 0 := by omega
            simp [hlt, hin, hpos]
      rw [hself, getLsbD_or, hrec, hbit]
      by_cases hin : i = n
      · simp [hin]
      · have hlt : i < n + 1 ↔ i < n := by omega
        simp [hin, hlt]
    · have hne : Fin.ofNat bsize (i / 8) ≠ Fin.ofNat bsize (n / 8) := by
        intro he
        have hv : i / 8 % bsize = n / 8 % bsize := congrArg Fin.val he
        have h1 : i / 8 < bsize := by
          simp only [bsize]
          omega
        have h2 : n / 8 < bsize := by
          simp only [bsize]
          omega
        rw [Nat.mod_eq_of_lt h1, Nat.mod_eq_of_lt h2] at hv
        exact hbyte hv
      have hother : byteAt (Mkfs.marked (n + 1)) (i / 8) = byteAt (Mkfs.marked n) (i / 8) :=
        update_of_ne hne _ _
      have hin : i ≠ n := fun he => hbyte (by rw [he])
      have hlt : i < n + 1 ↔ i < n := by omega
      rw [hother, hrec]
      simp only [hlt]

end Encoding

namespace Mkfs

def capacity : Nat := ninodeblocks * ipb

/-- The image as a file system in which the blocks below the counter are in use. -/
def Mk.fs (m : Mk) : Fs where
  sb := ⟨fssize, capacity⟩
  bitmap b := decide (b.toNat < m.freeblock.toNat)
  block b := if b.toNat < nmeta then fun _ => 0 else m.image b
  dinode i := if i < capacity then dinodeAt (m.image (iblock i)) (i % ipb) else {}
  itable _ := ⟨0, false, {}⟩
  inuse := 0
  outstanding := 0

def Mk.opened (m : Mk) (inum : Nat) (din : Dinode) : Fs := m.fs.setInode inum ⟨1, true, din⟩

def Mk.put (m : Mk) (b : BlockNo) (v : Block) : Mk :=
  { m with image := Function.update m.image b v, sectors := max m.sectors (b.toNat + 1) }

def Mk.next (m : Mk) : Mk := { m with freeblock := m.freeblock + 1 }

/-- All sectors exist, and the blocks from the counter on are zero. -/
structure Sound (m : Mk) : Prop where
  sectors : m.sectors = fssize
  low : nmeta ≤ m.freeblock.toNat
  high : m.freeblock.toNat ≤ fssize
  zero : ∀ b : BlockNo, m.freeblock.toNat ≤ b.toNat → m.image b = fun _ => 0

structure Same (m t : Mk) : Prop where
  image : ∀ b : BlockNo, b.toNat < nmeta → t.image b = m.image b
  freeinode : t.freeinode = m.freeinode

structure Drawing (m : Mk) (inum : Nat) (din : Dinode) : Prop where
  sound : Sound m
  editing : Editing nmeta (m.opened inum din) inum ∅

section Blocks

variable {m t u : Mk} {inum k : Nat} {din d : Dinode} {b : BlockNo} {v : Block} {E : String → Prop}

theorem sector_eq (h : b.toNat < 2 ^ 22) : sector b = b := by
  apply eq_of_toNat_eq
  have h1024 : (BitVec.ofNat 32 bsize).toNat = 1024 := by decide
  unfold sector
  rw [toNat_udiv, toNat_mul, h1024]
  omega

theorem wsect_run (h : b.toNat < 2 ^ 22) : wsect b v m = .ok ((), m.put b v) := by
  unfold wsect Mk.put
  rw [sector_eq h]
  rfl

theorem rsect_spec (h : b.toNat < 2 ^ 22) (hE : m.sectors ≤ b.toNat → E "read") :
    Ends (rsect b) m (fun v t => t = m ∧ b.toNat < m.sectors ∧ v = m.image b) E := by
  refine Ends.get_bind ?_
  rw [sector_eq h]
  split_ifs with hlt
  · exact Ends.pure ⟨rfl, hlt, rfl⟩
  · exact Ends.throw (hE (by omega))

theorem Same.refl (m : Mk) : Same m m := ⟨fun _ _ => rfl, rfl⟩

theorem Same.trans (h : Same m t) (h' : Same t u) : Same m u :=
  ⟨fun b hb => (h'.image b hb).trans (h.image b hb), h'.freeinode.trans h.freeinode⟩

theorem Same.next (m : Mk) : Same m m.next := ⟨fun _ _ => rfl, rfl⟩

theorem Same.put (m : Mk) (v : Block) (hb : nmeta ≤ b.toNat) : Same m (m.put b v) := by
  refine ⟨fun c hc => update_of_ne ?_ _ _, rfl⟩
  rintro rfl
  omega

theorem iblock_toNat {i : Nat} (hi : i < capacity) :
    (iblock i).toNat = i / ipb + inodestart ∧ (iblock i).toNat < nmeta := by
  have hc : capacity = 208 := by decide
  have hp : ipb = 16 := by decide
  have hs : inodestart = 33 := by decide
  have hm : nmeta = 47 := by decide
  have h : (iblock i).toNat = i / ipb + inodestart := by
    unfold iblock
    rw [toNat_ofNat]
    exact Nat.mod_eq_of_lt (by rw [hp, hs]; omega)
  exact ⟨h, by rw [h, hp, hs, hm]; omega⟩

theorem Same.dinode (h : Same m t) : t.fs.dinode = m.fs.dinode := by
  funext i
  unfold Mk.fs
  dsimp only
  split_ifs with hi
  · rw [h.image _ (iblock_toNat hi).2]
  · rfl

theorem opened_edit (m : Mk) (inum : Nat) (din : Dinode) (f : Dinode → Dinode) :
    (m.opened inum din).edit inum f = m.opened inum (f din) := by
  simp [Mk.opened, Fs.edit, Fs.setInode]

theorem opened_node (m : Mk) (inum : Nat) (din : Dinode) : (m.opened inum din).node inum = din := by
  simp [Mk.opened, node_setInode]

theorem Sound.next_toNat (h : Sound m) : m.next.freeblock.toNat = m.freeblock.toNat + 1 := by
  have hf : fssize = 2000 := by decide
  have hh := h.high
  have h1 : (1 : BlockNo).toNat = 1 := by decide
  unfold Mk.next
  rw [toNat_add, h1]
  exact Nat.mod_eq_of_lt (by omega)

theorem Sound.next (h : Sound m) (hroom : m.freeblock.toNat < fssize) : Sound m.next := by
  have hn := h.next_toNat
  have hl := h.low
  exact ⟨h.sectors, by omega, by omega, fun b hb => h.zero b (by omega)⟩

theorem Sound.put (h : Sound m) (hb : b.toNat < m.freeblock.toNat) : Sound (m.put b v) := by
  refine ⟨?_, h.low, h.high, fun c hc => ?_⟩
  · have hs := h.sectors
    have hh := h.high
    simp only [Mk.put]
    omega
  · have hc : m.freeblock.toNat ≤ c.toNat := hc
    have hne : c ≠ b := by
      rintro rfl
      omega
    exact (update_of_ne hne _ _).trans (h.zero c hc)

theorem Sound.opened_next (h : Sound m) (inum : Nat) (din : Dinode) :
    m.next.opened inum din = (m.opened inum din).take m.freeblock := by
  have hbitmap : (fun b : BlockNo => decide (b.toNat < m.next.freeblock.toNat)) =
      update (fun b : BlockNo => decide (b.toNat < m.freeblock.toNat)) m.freeblock true := by
    funext b
    rw [h.next_toNat]
    by_cases hb : b = m.freeblock
    · subst hb
      simp
    · have hne : b.toNat ≠ m.freeblock.toNat := fun he => hb (eq_of_toNat_eq he)
      have hiff : b.toNat < m.freeblock.toNat + 1 ↔ b.toNat < m.freeblock.toNat := by omega
      rw [update_of_ne hb]
      simp only [hiff]
  have hblock : (fun b : BlockNo => if b.toNat < nmeta then (fun _ => 0 : Block) else m.image b) =
      update (fun b : BlockNo => if b.toNat < nmeta then (fun _ => 0 : Block)
        else m.image b) m.freeblock (fun _ => 0) := by
    funext b
    by_cases hb : b = m.freeblock
    · subst hb
      rw [update_self]
      split_ifs
      · rfl
      · exact h.zero _ le_rfl
    · rw [update_of_ne hb]
  unfold Mk.opened setInode take Mk.fs
  dsimp only
  rw [← hbitmap, ← hblock]
  rfl

theorem opened_put (m : Mk) (inum : Nat) (din : Dinode) (v : Block) (hb : nmeta ≤ b.toNat) :
    (m.put b v).opened inum din = (m.opened inum din).putBlock b v := by
  have hblock : (fun c : BlockNo => if c.toNat < nmeta then (fun _ => 0 : Block)
      else update m.image b v c) =
      update (fun c : BlockNo => if c.toNat < nmeta then (fun _ => 0 : Block)
        else m.image c) b v := by
    funext c
    by_cases hc : c = b
    · subst hc
      rw [update_self, update_self, if_neg (by omega)]
    · rw [update_of_ne hc, update_of_ne hc]
  have hd := (Same.put m v hb).dinode
  unfold Mk.opened setInode putBlock
  rw [hd]
  simp only [Mk.fs, Mk.put, hblock]
  rfl

/-- The inode has got a block for place `k`, and perhaps an indirect block. -/
structure Grown (m : Mk) (inum : Nat) (din : Dinode) (k : Nat) (t : Mk) (d : Dinode) : Prop where
  drawing : Drawing t inum d
  same : Same m t
  keeps : Extends (m.opened inum din) (t.opened inum d) inum
  others : ∀ j, j ≠ k → j ≠ ndirect →
    (t.opened inum d).owner (inum, j) = (m.opened inum din).owner (inum, j)
  tail : ∀ j, ndirect < j → d.addrs j = din.addrs j

/-- The counter has passed the last sector, so that the next read fails. -/
structure Full (m t : Mk) (b : BlockNo) : Prop where
  last : b.toNat = fssize
  sectors : t.sectors = fssize
  room : fssize < m.freeblock.toNat + 2

theorem Drawing.grown (h : Drawing m inum din) (k : Nat) : Grown m inum din k m din :=
  ⟨h, Same.refl m, Extends.refl _ _, fun _ _ _ => rfl, fun _ _ => rfl⟩

theorem Grown.trans {e : Dinode} (h : Grown m inum din k t d) (h' : Grown t inum d k u e) :
    Grown m inum din k u e where
  drawing := h'.drawing
  same := h.same.trans h'.same
  keeps := h.keeps.trans h'.keeps
  others j hj hn := (h'.others j hj hn).trans (h.others j hj hn)
  tail j hj := (h'.tail j hj).trans (h.tail j hj)

theorem Mk.freeblock_free (m : Mk) (inum : Nat) (din : Dinode) :
    (m.opened inum din).bitmap m.freeblock = false := by
  simp [Mk.opened, setInode, Mk.fs]

theorem Mk.not_busy (m : Mk) (inum : Nat) (din : Dinode) :
    ¬ (m.opened inum din).busy m.freeblock := by
  intro hb
  simp [busy, m.freeblock_free] at hb

theorem Drawing.owner_bounds (h : Drawing m inum din) {p : Nat × Nat}
    (hb : (m.opened inum din).owner p = some b) :
    nmeta ≤ b.toNat ∧ b.toNat < m.freeblock.toNat := by
  have hsys := (h.editing.owned.owned p b hb).1
  have hbusy := (h.editing.owned.busy_of_owner hb).2
  have hlt : b.toNat < m.freeblock.toNat := by
    simpa [Mk.opened, setInode, Mk.fs] using hbusy
  exact ⟨by omega, hlt⟩

theorem Drawing.addr (h : Drawing m inum din) (hk : k ≤ ndirect) (hne : din.addrs k ≠ 0) :
    (m.opened inum din).owner (inum, k) = some (din.addrs k) := by
  rw [owner_eq_some, slot_direct _ _ hk, opened_node]
  refine ⟨?_, hne, rfl⟩
  have hty := h.editing.type_ne
  rwa [opened_node] at hty

theorem Drawing.newAddr (h : Drawing m inum din) (hk : k ≤ ndirect) (hold : din.addrs k = 0)
    (hroom : m.freeblock.toNat < fssize) {j : Nat} (hj : k = j ∨ k = ndirect) :
    Grown m inum din j m.next { din with addrs := update din.addrs k m.freeblock } ∧
      (m.next.opened inum { din with addrs := update din.addrs k m.freeblock }).owner
        (inum, k) = some m.freeblock := by
  have hput : m.next.opened inum { din with addrs := update din.addrs k m.freeblock } =
      ((m.opened inum din).take m.freeblock).putAddr inum k m.freeblock := by
    rw [← h.sound.opened_next]
    exact (opened_edit m.next inum din
      (fun d => { d with addrs := update d.addrs k m.freeblock })).symm
  obtain ⟨htake, -, htakeo⟩ := h.editing.take (b := m.freeblock) hroom (m.freeblock_free inum din)
  have hnode : ((m.opened inum din).take m.freeblock).node inum = din := opened_node m inum din
  have hzero : ((m.opened inum din).take m.freeblock).block m.freeblock = fun _ => 0 := by
    simp [take]
  obtain ⟨hedit, hext, howner⟩ := htake.putAddr (k := k) (Set.mem_insert _ _) hk
    (by rw [hnode]; exact hold) (fun _ => hzero)
  rw [diff_insert_empty] at hedit
  rw [hput]
  refine ⟨⟨⟨h.sound.next hroom, by rw [hput]; exact hedit⟩, Same.next m, ?_, fun i hi hn => ?_,
    fun i hi => ?_⟩, by rw [howner, update_self]⟩
  · rw [hput]
    exact (h.editing.take_extends (m.not_busy inum din)).trans hext
  · have hik : i ≠ k := by
      rcases hj with rfl | rfl
      · exact hi
      · exact hn
    have hne : (inum, i) ≠ (inum, k) := fun he => hik (Prod.mk.inj he).2
    rw [hput, howner, update_of_ne hne, htakeo]
  · exact update_of_ne (by omega) _ _

theorem addrAt_spec (h : Drawing m inum din) (hk : k ≤ ndirect) {j : Nat}
    (hj : k = j ∨ k = ndirect) :
    Ends (addrAt din k) m (fun d t => t.freeblock.toNat ≤ m.freeblock.toNat + 1 ∧
      (Full m t (d.addrs k) ∨ Grown m inum din j t d ∧
        (t.opened inum d).owner (inum, k) = some (d.addrs k))) E := by
  unfold addrAt
  split_ifs with hz
  · refine Ends.bind_ok (m := newBlock) (a := m.freeblock) (t := m.next) rfl (Ends.pure ?_)
    dsimp only
    rw [update_self]
    refine ⟨h.sound.next_toNat.le, ?_⟩
    rcases h.sound.high.lt_or_eq with hlt | heq
    · exact .inr (h.newAddr hk hz hlt hj)
    · exact .inl ⟨heq, h.sound.sectors, by omega⟩
  · exact Ends.pure ⟨Nat.le_succ _, .inr ⟨h.grown j, h.addr hk hz⟩⟩

theorem place_indirect {fbn : Nat} (h : ¬ fbn < ndirect) :
    place fbn = ndirect + 1 + (fbn - ndirect) := by
  unfold place
  rw [if_neg h]
  omega

theorem Drawing.newEntry {ind : BlockNo} (h : Drawing m inum din)
    (hind : (m.opened inum din).owner (inum, ndirect) = some ind) {j : Nat} (hj : j < nindirect)
    (hold : word (m.image ind) (4 * j) = 0) (hroom : m.freeblock.toNat < fssize) :
    Grown m inum din (ndirect + 1 + j) (m.next.put ind (setWord (m.image ind) (4 * j) m.freeblock))
        din ∧
      ((m.next.put ind (setWord (m.image ind) (4 * j) m.freeblock)).opened inum din).owner
        (inum, ndirect + 1 + j) = some m.freeblock := by
  obtain ⟨hlow, hlt⟩ := h.owner_bounds hind
  have hne : ind ≠ m.freeblock := by
    rintro rfl
    exact lt_irrefl _ hlt
  obtain ⟨htake, -, htakeo⟩ := h.editing.take (b := m.freeblock) hroom (m.freeblock_free inum din)
  have hblock : ((m.opened inum din).take m.freeblock).block ind = m.image ind := by
    simp [take, hne, Mk.opened, setInode, Mk.fs, Nat.not_lt.mpr hlow]
  have hind' : ((m.opened inum din).take m.freeblock).owner (inum, ndirect) = some ind := by
    rw [htakeo, hind]
  have hold' : word (((m.opened inum din).take m.freeblock).block ind) (4 * j) = 0 := by
    rw [hblock, hold]
  obtain ⟨hedit, hext, howner⟩ := htake.putEntry hind' hj hold' (Set.mem_insert _ _)
  rw [diff_insert_empty] at hedit
  rw [hblock] at hedit hext howner
  have hput : (m.next.put ind (setWord (m.image ind) (4 * j) m.freeblock)).opened inum din =
      ((m.opened inum din).take m.freeblock).putBlock ind
        (setWord (m.image ind) (4 * j) m.freeblock) := by
    rw [opened_put _ _ _ _ hlow, h.sound.opened_next]
  have hsound : Sound (m.next.put ind (setWord (m.image ind) (4 * j) m.freeblock)) := by
    refine (h.sound.next hroom).put ?_
    rw [h.sound.next_toNat]
    omega
  refine ⟨⟨⟨hsound, by rw [hput]; exact hedit⟩, (Same.next m).trans (Same.put _ _ hlow), ?_,
    fun i hi _ => ?_, fun _ _ => rfl⟩, by rw [hput, howner, update_self]⟩
  · rw [hput]
    exact (h.editing.take_extends (m.not_busy inum din)).trans hext
  · have hne' : (inum, i) ≠ (inum, ndirect + 1 + j) := fun he => hi (Prod.mk.inj he).2
    rw [hput, howner, update_of_ne hne', htakeo]

theorem rsect_found {P : Prop} (h : Full m t b ∨ P) (hP : P → Sound t ∧ b.toNat < t.freeblock.toNat)
    (hE : fssize < m.freeblock.toNat + 2 → E "read") :
    Ends (rsect b) t (fun v u => u = t ∧ v = t.image b ∧ P ∧ b.toNat < 2 ^ 22) E := by
  have hf : fssize = 2000 := by decide
  rcases h with hfull | hp
  · have hlast := hfull.last
    have hsec := hfull.sectors
    refine (rsect_spec (by omega) (fun _ => hE hfull.room)).post (fun v u hv => ?_)
    omega
  · obtain ⟨hs, hlt⟩ := hP hp
    have hh := hs.high
    have hsec := hs.sectors
    refine (rsect_spec (by omega) (fun hle => by omega)).post (fun v u hv => ?_)
    exact ⟨hv.1, hv.2.2, hp, by omega⟩

theorem blockFor_spec {fbn : Nat} (h : Drawing m inum din) (hfbn : fbn < maxfile)
    (hE : fssize < m.freeblock.toNat + 2 → E "read") :
    Ends (blockFor din fbn) m (fun r t => t.freeblock.toNat ≤ m.freeblock.toNat + 2 ∧
      (Full m t r.2 ∨ Grown m inum din (place fbn) t r.1 ∧
        (t.opened inum r.1).owner (inum, place fbn) = some r.2)) E := by
  unfold blockFor
  split_ifs with hd
  · have hplace : place fbn = fbn := if_pos hd
    rw [hplace]
    refine (addrAt_spec h (by omega) (.inl rfl)).bind (fun d t ht => Ends.pure ⟨by omega, ht.2⟩)
  · rw [place_indirect hd]
    have hj : fbn - ndirect < nindirect := by
      unfold maxfile at hfbn
      omega
    refine (addrAt_spec (j := ndirect + 1 + (fbn - ndirect)) h le_rfl (.inr rfl)).bind ?_
    rintro d t ⟨hfree, ht⟩
    refine (rsect_found ht (fun hp => ⟨hp.1.drawing.sound,
      (hp.1.drawing.owner_bounds hp.2).2⟩) hE).bind ?_
    rintro v t' ⟨rfl, rfl, ⟨hgrown, hown⟩, hsmall⟩
    split_ifs with hz
    · refine Ends.bind_ok (m := newBlock) (a := t'.freeblock) (t := t'.next) rfl ?_
      refine Ends.bind_ok (wsect_run hsmall) (Ends.pure ⟨?_, ?_⟩)
      · have hn := hgrown.drawing.sound.next_toNat
        simp only [Mk.put]
        omega
      · rcases hgrown.drawing.sound.high.lt_or_eq with hroom | heq
        · obtain ⟨hg, ho⟩ := hgrown.drawing.newEntry hown hj hz hroom
          exact .inr ⟨hgrown.trans hg, ho⟩
        · refine .inl ⟨heq, ?_, by omega⟩
          have hs := hgrown.drawing.sound.sectors
          have hlt := (hgrown.drawing.owner_bounds hown).2
          simp only [Mk.put, Mk.next]
          omega
    · refine Ends.pure ⟨by omega, .inr ⟨hgrown, ?_⟩⟩
      obtain ⟨hlow, -⟩ := hgrown.drawing.owner_bounds hown
      have hne0 := (owner_eq_some.mp hown).2.1
      rw [owner_eq_some, opened_node, slot_indirect _ _ hj hne0]
      have hblock : (t'.opened inum d).block (d.addrs ndirect) = t'.image (d.addrs ndirect) := by
        simp [Mk.opened, setInode, Mk.fs, Nat.not_lt.mpr hlow]
      refine ⟨?_, hz, by rw [hblock]⟩
      have hty := hgrown.drawing.editing.type_ne
      rwa [opened_node] at hty

/-- `iappend` has come to offset `off`: the inode has blocks up to there. -/
structure Drawn (m : Mk) (inum : Nat) (din : Dinode) (off : Nat) (t : Mk) (d : Dinode) : Prop where
  drawing : Drawing t inum d
  same : Same m t
  apart : Apart (m.opened inum din) (t.opened inum d) inum
  header : d = { din with addrs := d.addrs }
  tail : ∀ j, ndirect < j → d.addrs j = 0
  filled : ∀ bn, bn * bsize < off → (t.opened inum d).owner (inum, place bn) ≠ none
  tight : ∀ bn, off ≤ bn * bsize → (t.opened inum d).owner (inum, place bn) = none

theorem Grown.header (h : Grown m inum din k t d) : d = { din with addrs := d.addrs } := by
  have hh := h.keeps.header
  rwa [opened_node, opened_node] at hh

theorem Drawing.write (h : Drawing m inum din) (hb : (m.opened inum din).owner (inum, k) = some b)
    (hk : k ≠ ndirect) (v : Block) :
    Drawing (m.put b v) inum din ∧ Same m (m.put b v) ∧
      Apart (m.opened inum din) ((m.put b v).opened inum din) inum ∧
      ((m.put b v).opened inum din).owner = (m.opened inum din).owner := by
  obtain ⟨hlow, hlt⟩ := h.owner_bounds hb
  have hput := opened_put m inum din v hlow
  obtain ⟨hedit, hap, howner⟩ := h.editing.putData hb hk v
  rw [hput]
  exact ⟨⟨h.sound.put hlt, by rw [hput]; exact hedit⟩, Same.put m v hlow, hap, howner⟩

theorem Drawn.round {off n : Nat} {e : Dinode} (h : Drawn m inum din off t d)
    (hg : Grown t inum d (place (off / bsize)) u e)
    (hb : (u.opened inum e).owner (inum, place (off / bsize)) = some b) (v : Block) (hn : 1 ≤ n)
    (hle : off + n ≤ (off / bsize + 1) * bsize) :
    Drawn m inum din (off + n) (u.put b v) e := by
  obtain ⟨hdraw, hsame, hap, howner⟩ := hg.drawing.write hb (place_ne_ndirect _) v
  have hfloor : off / bsize * bsize ≤ off := Nat.div_mul_le_self off bsize
  refine ⟨hdraw, (h.same.trans hg.same).trans hsame, (h.apart.trans hg.keeps.apart).trans hap, ?_,
    fun j hj => ?_, fun bn hbn => ?_, fun bn hbn => ?_⟩
  · rw [hg.header, h.header]
  · rw [hg.tail j hj, h.tail j hj]
  · rw [howner]
    by_cases hlt : bn * bsize < off
    · obtain ⟨c, hc⟩ := Option.ne_none_iff_exists'.mp (h.filled bn hlt)
      rw [hg.keeps.keep _ _ hc]
      simp
    · have h1 : bn < off / bsize + 1 :=
        Nat.lt_of_mul_lt_mul_right (lt_of_lt_of_le hbn hle)
      have h2 : off / bsize ≤ bn := by
        by_contra hc
        have := Nat.mul_le_mul_right bsize (show bn + 1 ≤ off / bsize by omega)
        rw [Nat.add_mul, one_mul] at this
        have hpos : 0 < bsize := by decide
        omega
      obtain rfl : bn = off / bsize := by omega
      rw [hb]
      simp
  · have hne : bn ≠ off / bsize := by
      rintro rfl
      omega
    rw [howner, hg.others _ (fun he => hne (place_inj he)) (place_ne_ndirect bn)]
    exact h.tight bn (by omega)

def rounds (off n : Nat) : Nat := if n = 0 then 0 else (off % bsize + n + (bsize - 1)) / bsize

theorem rounds_succ (off : Nat) {n : Nat} (hn : 0 < n) :
    rounds (off + min n ((off / bsize + 1) * bsize - off))
      (n - min n ((off / bsize + 1) * bsize - off)) + 1 = rounds off n := by
  have hb : bsize = 1024 := by decide
  have hdm := Nat.div_add_mod off bsize
  have hmod : off % bsize < bsize := Nat.mod_lt _ (by decide)
  have hnext : (off / bsize + 1) * bsize = off - off % bsize + bsize := by
    rw [Nat.add_mul, one_mul, Nat.mul_comm]
    omega
  unfold rounds
  rw [if_neg (by omega : ¬ n = 0)]
  by_cases hlast : n ≤ (off / bsize + 1) * bsize - off
  · rw [if_pos (by omega)]
    rw [hb] at *
    omega
  · have hoff : off + min n ((off / bsize + 1) * bsize - off) = (off / bsize + 1) * bsize := by omega
    rw [if_neg (by omega), hoff, Nat.mul_mod_left]
    rw [hb] at *
    omega

theorem appendLoop_spec (fuel off : Nat) (p : List Byte) (h : Drawn m inum din off t d)
    (hfuel : p.length ≤ fuel) (hmax : maxfile * bsize < off + p.length → E "fbn < MAXFILE")
    (hE : fssize < t.freeblock.toNat + 2 * rounds off p.length → E "read") :
    Ends (appendLoop fuel d off p) t (fun r u => r.2 = off + p.length ∧
      Drawn m inum din (off + p.length) u r.1 ∧
      u.freeblock.toNat ≤ t.freeblock.toNat + 2 * rounds off p.length) E := by
  induction fuel generalizing off p t d with
  | zero =>
    have hp : p = [] := List.eq_nil_of_length_eq_zero (by omega)
    subst hp
    exact Ends.pure ⟨rfl, h, Nat.le_add_right _ _⟩
  | succ fuel ih =>
    unfold appendLoop
    split_ifs with hp
    · by_cases hfbn : off / bsize < maxfile
      · have hsucc := rounds_succ off hp
        generalize hn : min p.length ((off / bsize + 1) * bsize - off) = n at hsucc
        refine Ends.bind_ok (m := assert (off / bsize < maxfile) "fbn < MAXFILE") (a := ()) (t := t)
          (by simp [assert, hfbn]; rfl) ?_
        refine (blockFor_spec h.drawing hfbn (fun hfull => hE (by omega))).bind ?_
        rintro r u ⟨hfree, hu⟩
        refine (rsect_found hu (fun hp => ⟨hp.1.drawing.sound,
          (hp.1.drawing.owner_bounds hp.2).2⟩) (fun hroom => hE (by omega))).bind ?_
        rintro v u' ⟨rfl, rfl, ⟨hgrown, hown⟩, hsmall⟩
        refine Ends.bind_ok (wsect_run hsmall) ?_
        have hdm := Nat.div_add_mod off bsize
        have hmod : off % bsize < bsize := Nat.mod_lt _ (by decide)
        have hnext : (off / bsize + 1) * bsize = off - off % bsize + bsize := by
          rw [Nat.add_mul, one_mul, Nat.mul_comm]
          omega
        have hround := h.round hgrown hown (blit (u'.image r.2) (off - off / bsize * bsize)
          (p.take n)) (n := n) (by omega) (by omega)
        have hlen : (p.drop n).length = p.length - n := List.length_drop
        have hsum : off + n + (p.drop n).length = off + p.length := by omega
        have hrec := ih (off + n) (p.drop n) hround (by omega) (fun hm => hmax (by omega))
          (fun hm => hE (by rw [hlen] at hm; simp only [Mk.put] at hm; omega))
        rw [hsum, hlen] at hrec
        refine hrec.post (fun q w hw => ⟨hw.1, hw.2.1, ?_⟩)
        have hbound := hw.2.2
        simp only [Mk.put] at hbound
        omega
      · refine Ends.of_error (e := "fbn < MAXFILE") ?_ (hmax ?_)
        · simp [assert, hfbn]
          rfl
        · have := Nat.mul_le_mul_right bsize (Nat.not_lt.mp hfbn)
          have := Nat.div_mul_le_self off bsize
          omega
    · have hp : p = [] := List.eq_nil_of_length_eq_zero (by omega)
      subst hp
      exact Ends.pure ⟨rfl, h, Nat.le_add_right _ _⟩

end Blocks

end Mkfs

end Xv6
