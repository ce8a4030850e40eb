import Xv6.Ledger
import Xv6.Fs

/-! Which inode owns which block. The places of an inode are its addresses and
the entries of its indirect block; the bitmap and these places form a ledger. -/

namespace Xv6

open LittleEndian Fallible FsM Function List Fs

/-- The inode as the file system sees it: the copy in the table once it is read. -/
def Fs.node (s : Fs) (i : Nat) : Dinode :=
  if (s.itable i).valid then (s.itable i).copy else s.dinode i

/-- Place `k` of an inode: `addrs[k]`, and behind these the entries of the
indirect block. -/
def slot (blk : Disk) (d : Dinode) (k : Nat) : BlockNo :=
  if k ≤ ndirect then d.addrs k
  else if d.addrs ndirect = 0 ∨ ndirect + nindirect < k then 0
  else word (blk (d.addrs ndirect)) (4 * (k - (ndirect + 1)))

def place (bn : Nat) : Nat := if bn < ndirect then bn else bn + 1

def Fs.owner (s : Fs) (p : Nat × Nat) : Option BlockNo :=
  if (s.node p.1).type = 0 ∨ slot s.block (s.node p.1) p.2 = 0 then none
  else some (slot s.block (s.node p.1) p.2)

def Fs.busy (s : Fs) (b : BlockNo) : Prop := b.toNat < s.sb.size ∧ s.bitmap b = true

/-- The bitmap is right, apart from the blocks of `R` that are marked and have
no place; the blocks below `start` hold the metadata. -/
def Fs.Owned (start : Nat) (s : Fs) (R : Set BlockNo) : Prop :=
  Ledger s.busy (fun b => b.toNat < start) s.owner R

def Fs.Filled (s : Fs) (i : Nat) : Prop :=
  (s.node i).type ≠ 0 → ∀ bn, bn * bsize < (s.node i).size → s.owner (i, place bn) ≠ none

/-- What holds while the inode `ip` is locked and edited. -/
structure Editing (start : Nat) (s : Fs) (ip : Nat) (R : Set BlockNo) : Prop where
  start_pos : 0 < start
  size_lt : s.sb.size < 2 ^ 31
  owned : s.Owned start R
  filled : ∀ i, i ≠ ip → s.Filled i
  synced : ∀ i, i ≠ ip → (s.itable i).valid = true → (s.itable i).copy = s.dinode i
  typed : ∀ i, (s.itable i).valid = true → (s.itable i).copy.type ≠ 0
  bounded : ∀ i, (s.node i).type ≠ 0 → 1 ≤ i ∧ i < s.sb.ninodes
  valid : (s.itable ip).valid = true

/-- `t` differs from `s` only in the inode `ip` and in blocks that no other
inode has. -/
structure Apart (s t : Fs) (ip : Nat) : Prop where
  sb : t.sb = s.sb
  outstanding : t.outstanding = s.outstanding
  inuse : t.inuse = s.inuse
  itable : ∀ j, j ≠ ip → t.itable j = s.itable j
  dinode : ∀ j, j ≠ ip → t.dinode j = s.dinode j
  ref : (t.itable ip).ref = (s.itable ip).ref
  valid : (t.itable ip).valid = (s.itable ip).valid
  block : ∀ j k b, j ≠ ip → s.owner (j, k) = some b → t.block b = s.block b

theorem Fs.node_of_valid {s : Fs} {i : Nat} (h : (s.itable i).valid = true) :
    s.node i = (s.itable i).copy := if_pos h

theorem Fs.node_setInode (s : Fs) (ip i : Nat) (e : Inode) : (s.setInode ip e).node i =
      if i = ip then (if e.valid then e.copy else s.dinode ip) else s.node i := by
  unfold node setInode
  by_cases h : i = ip
  · subst h
    simp
  · simp [h]

theorem Fs.owner_eq_some {s : Fs} {i k : Nat} {b : BlockNo} : s.owner (i, k) = some b ↔
      (s.node i).type ≠ 0 ∧ b ≠ 0 ∧ slot s.block (s.node i) k = b := by
  unfold owner
  constructor
  · intro h
    split at h
    · simp at h
    · rename_i hn
      obtain rfl := Option.some.inj h
      exact ⟨fun h0 => hn (.inl h0), fun h0 => hn (.inr h0), rfl⟩
  · rintro ⟨ht, hb, rfl⟩
    rw [if_neg (not_or.mpr ⟨ht, hb⟩)]

theorem slot_direct (blk : Disk) (d : Dinode) {k : Nat} (hk : k ≤ ndirect) :
    slot blk d k = d.addrs k := if_pos hk

theorem slot_congr {blk blk' : Disk} {d : Dinode} (k : Nat)
    (h : d.addrs ndirect ≠ 0 → blk' (d.addrs ndirect) = blk (d.addrs ndirect)) :
    slot blk' d k = slot blk d k := by
  unfold slot
  split_ifs with hk hn
  · rfl
  · rfl
  · rw [h (fun h0 => hn (.inl h0))]

theorem Fs.owner_of_addrs {s t : Fs} {i : Nat} (htype : (t.node i).type = 0 ↔ (s.node i).type = 0)
    (haddrs : (t.node i).addrs = (s.node i).addrs)
    (hblock : ∀ b, s.owner (i, ndirect) = some b → t.block b = s.block b) (k : Nat) :
    t.owner (i, k) = s.owner (i, k) := by
  have hd : slot t.block (t.node i) k = slot t.block (s.node i) k := by
    unfold slot
    rw [haddrs]
  unfold owner
  by_cases ht : (s.node i).type = 0
  · simp only [htype, ht, true_or, if_true]
  · have hs : slot t.block (s.node i) k = slot s.block (s.node i) k := by
      refine slot_congr k (fun hne => hblock _ ?_)
      exact owner_eq_some.mpr ⟨ht, hne, slot_direct _ _ le_rfl⟩
    simp only [htype, hd, hs]

theorem Fs.owner_congr {s t : Fs} {i : Nat} (hnode : t.node i = s.node i)
    (hblock : ∀ b, s.owner (i, ndirect) = some b → t.block b = s.block b) (k : Nat) :
    t.owner (i, k) = s.owner (i, k) :=
  owner_of_addrs (by rw [hnode]) (by rw [hnode]) hblock k

section Frames

variable {s t u : Fs} {ip : Nat}

theorem Apart.refl (s : Fs) (ip : Nat) : Apart s s ip :=
  ⟨rfl, rfl, rfl, fun _ _ => rfl, fun _ _ => rfl, rfl, rfl, fun _ _ _ _ _ => rfl⟩

theorem Apart.node (h : Apart s t ip) {j : Nat} (hj : j ≠ ip) : t.node j = s.node j := by
  unfold Fs.node
  rw [h.itable j hj, h.dinode j hj]

theorem Apart.owner (h : Apart s t ip) {j : Nat} (hj : j ≠ ip) (k : Nat) :
    t.owner (j, k) = s.owner (j, k) :=
  owner_congr (h.node hj) (fun _ hb => h.block j ndirect _ hj hb) k

theorem Apart.trans (h : Apart s t ip) (h' : Apart t u ip) : Apart s u ip where
  sb := h'.sb.trans h.sb
  outstanding := h'.outstanding.trans h.outstanding
  inuse := h'.inuse.trans h.inuse
  itable j hj := (h'.itable j hj).trans (h.itable j hj)
  dinode j hj := (h'.dinode j hj).trans (h.dinode j hj)
  ref := h'.ref.trans h.ref
  valid := h'.valid.trans h.valid
  block j k b hj hb :=
    (h'.block j k b hj (by rw [h.owner hj, hb])).trans (h.block j k b hj hb)

theorem Apart.filled (h : Apart s t ip) {j : Nat} (hj : j ≠ ip) (hf : s.Filled j) : t.Filled j := by
  intro ht bn hbn
  rw [h.node hj] at ht hbn
  rw [h.owner hj]
  exact hf ht bn hbn

end Frames

section Edits

variable {start : Nat} {s t : Fs} {ip : Nat} {R : Set BlockNo} {b : BlockNo}

theorem Editing.of_apart (h : Editing start s ip R) (ha : Apart s t ip) {R' : Set BlockNo}
    (howned : t.Owned start R') (htype : (t.itable ip).copy.type ≠ 0)
    (hbounded : 1 ≤ ip ∧ ip < s.sb.ninodes) : Editing start t ip R' where
  start_pos := h.start_pos
  size_lt := by rw [ha.sb]; exact h.size_lt
  owned := howned
  filled i hi := ha.filled hi (h.filled i hi)
  synced i hi hv := by
    rw [ha.itable i hi] at hv ⊢
    rw [ha.dinode i hi]
    exact h.synced i hi hv
  typed i hv := by
    by_cases hi : i = ip
    · rw [hi]
      exact htype
    · rw [ha.itable i hi] at hv ⊢
      exact h.typed i hv
  bounded i ht := by
    rw [ha.sb]
    by_cases hi : i = ip
    · rw [hi]
      exact hbounded
    · rw [ha.node hi] at ht
      exact h.bounded i ht
  valid := by rw [ha.valid, h.valid]

theorem Editing.node_eq (h : Editing start s ip R) : s.node ip = (s.itable ip).copy :=
  node_of_valid h.valid

theorem Editing.type_ne (h : Editing start s ip R) : (s.node ip).type ≠ 0 := by
  rw [h.node_eq]
  exact h.typed ip h.valid

theorem Editing.in_range (h : Editing start s ip R) : 1 ≤ ip ∧ ip < s.sb.ninodes :=
  h.bounded ip h.type_ne

theorem Editing.owner_ne_zero (h : Editing start s ip R) {p : Nat × Nat}
    (hp : s.owner p = some b) : b ≠ 0 := by
  rintro rfl
  exact ((h.owned.owned p 0 hp).1) h.start_pos

theorem logWrite_run (htx : 1 ≤ s.outstanding) : FsM.logWrite s = .ok ((), s) := by
  have hn : ¬ s.outstanding < 1 := by omega
  rw [FsM.logWrite, bind_ok (m := get) (a := s) (t := s) rfl, if_neg hn]
  rfl

def Fs.take (s : Fs) (b : BlockNo) : Fs :=
  { s with
    bitmap := Function.update s.bitmap b true
    block := Function.update s.block b (fun _ => 0) }

def Fs.giveBack (s : Fs) (b : BlockNo) : Fs :=
  { s with bitmap := Function.update s.bitmap b false }

def Fs.putBlock (s : Fs) (b : BlockNo) (v : Block) : Fs :=
  { s with block := Function.update s.block b v }

def Fs.edit (s : Fs) (ip : Nat) (f : Dinode → Dinode) : Fs :=
  s.setInode ip { s.itable ip with copy := f (s.itable ip).copy }

def Fs.putAddr (s : Fs) (ip k : Nat) (b : BlockNo) : Fs :=
  s.edit ip (fun d => { d with addrs := Function.update d.addrs k b })

theorem claim_run (htx : 1 ≤ s.outstanding) : claim b s = .ok (b, s.take b) := by
  have hbit : setBit b true s = .ok ((), { s with bitmap := update s.bitmap b true }) := rfl
  have hzero : bzero b { s with bitmap := update s.bitmap b true } = .ok ((), s.take b) := by
    rw [bzero, bind_ok (m := setBlock b (fun _ => 0)) (t := s.take b) rfl]
    exact logWrite_run htx
  rw [claim, bind_ok hbit, bind_ok (logWrite_run (by exact htx)), bind_ok hzero]
  rfl

theorem balloc_of_some {n : Nat}
    (hf : (List.range s.sb.size).find? (fun b => !s.bitmap (BitVec.ofNat 32 b)) = some n) :
    balloc s = claim (BitVec.ofNat 32 n) s := by
  rw [balloc, bind_ok (m := get) (a := s) (t := s) rfl, hf]

theorem balloc_of_none
    (hf : (List.range s.sb.size).find? (fun b => !s.bitmap (BitVec.ofNat 32 b)) = none) :
    balloc s = .ok (0, s) := by
  rw [balloc, bind_ok (m := get) (a := s) (t := s) rfl, hf]
  rfl

theorem balloc_cases (htx : 1 ≤ s.outstanding) :
    (balloc s = .ok (0, s) ∧ ∀ b < s.sb.size, s.bitmap (BitVec.ofNat 32 b) = true) ∨
      ∃ b < s.sb.size, s.bitmap (BitVec.ofNat 32 b) = false ∧
        balloc s = .ok (BitVec.ofNat 32 b, s.take (BitVec.ofNat 32 b)) := by
  cases hf : (range s.sb.size).find? (fun b => !s.bitmap (BitVec.ofNat 32 b)) with
  | none =>
    refine .inl ⟨balloc_of_none hf, fun b hb => ?_⟩
    simpa using find?_eq_none.mp hf b (mem_range.mpr hb)
  | some b =>
    have hb := mem_range.mp (mem_of_find?_eq_some hf)
    refine .inr ⟨b, hb, by simpa using find?_some hf, ?_⟩
    rw [balloc_of_some hf]
    exact claim_run htx

theorem bfree_run (htx : 1 ≤ s.outstanding) (hb : s.bitmap b = true) :
    bfree b s = .ok ((), s.giveBack b) := by
  have hr : bfree b s = (if s.bitmap b = false then (halt "freeing free block" : FsM Unit)
    else do setBit b false; FsM.logWrite) s := rfl
  rw [hr, if_neg (by simp [hb]), bind_ok (m := setBit b false) (t := s.giveBack b) rfl]
  exact logWrite_run htx

theorem Fs.take_owner (hb : ∀ p, s.owner p ≠ some b) : (s.take b).owner = s.owner := by
  funext p
  obtain ⟨i, k⟩ := p
  refine owner_congr (s := s) (t := s.take b) rfl (fun c hc => ?_) k
  have hne : c ≠ b := fun he => hb _ (he ▸ hc)
  simp [take, hne]

theorem Apart.take (hb : ∀ p, s.owner p ≠ some b) : Apart s (s.take b) ip where
  sb := rfl
  outstanding := rfl
  inuse := rfl
  itable _ _ := rfl
  dinode _ _ := rfl
  ref := rfl
  valid := rfl
  block j k c _ hc := by
    have hne : c ≠ b := fun he => hb _ (he ▸ hc)
    simp [Fs.take, hne]

theorem Editing.take (h : Editing start s ip R) (hlt : b.toNat < s.sb.size)
    (hbit : s.bitmap b = false) :
    Editing start (s.take b) ip (insert b R) ∧ Apart s (s.take b) ip ∧
      (s.take b).owner = s.owner := by
  have hfree : ¬ s.busy b := fun hbusy => by simp [busy, hbit] at hbusy
  have hno := h.owned.not_owned hfree
  have howner := take_owner hno
  have hap : Apart s (s.take b) ip := Apart.take hno
  refine ⟨h.of_apart hap ?_ (h.typed ip h.valid) h.in_range, hap, howner⟩
  have hbusy : ∀ c, (s.take b).busy c ↔ c = b ∨ s.busy c := by
    intro c
    by_cases hc : c = b
    · simp [Fs.busy, Fs.take, hc, hlt]
    · simp [Fs.busy, Fs.take, hc]
  unfold Fs.Owned
  rw [howner]
  exact h.owned.reserve hfree hbusy

theorem Editing.giveBack (h : Editing start s ip R) (hb : b ∈ R) :
    Editing start (s.giveBack b) ip (R \ {b}) ∧ Apart s (s.giveBack b) ip := by
  have hap : Apart s (s.giveBack b) ip :=
    ⟨rfl, rfl, rfl, fun _ _ => rfl, fun _ _ => rfl, rfl, rfl, fun _ _ _ _ _ => rfl⟩
  refine ⟨h.of_apart hap ?_ (h.typed ip h.valid) h.in_range, hap⟩
  refine h.owned.release hb (fun c => ?_)
  by_cases hc : c = b
  · simp [Fs.busy, Fs.giveBack, hc]
  · simp [Fs.busy, Fs.giveBack, hc]

theorem Editing.bitmap_of_reserved (h : Editing start s ip R) (hb : b ∈ R) : s.bitmap b = true :=
  ((h.owned.busy_iff b).mpr (.inr (.inl hb))).2

theorem Fs.edit_node (s : Fs) (hv : (s.itable ip).valid = true) (f : Dinode → Dinode) :
    (s.edit ip f).node ip = f (s.node ip) := by
  rw [node_of_valid hv, edit, node_setInode, if_pos rfl]
  exact if_pos hv

theorem Fs.putAddr_node (s : Fs) (hv : (s.itable ip).valid = true) (k : Nat) (b : BlockNo) :
    (s.putAddr ip k b).node ip = { s.node ip with addrs := update (s.node ip).addrs k b } :=
  s.edit_node hv _

theorem Apart.edit (s : Fs) (ip : Nat) (f : Dinode → Dinode) : Apart s (s.edit ip f) ip where
  sb := rfl
  outstanding := rfl
  inuse := rfl
  itable j hj := Function.update_of_ne hj _ _
  dinode _ _ := rfl
  ref := by simp [Fs.edit, Fs.setInode]
  valid := by simp [Fs.edit, Fs.setInode]
  block _ _ _ _ _ := rfl

theorem word_zero (a : Nat) : word (fun _ => 0 : Block) a = 0 := by
  simp [word, byteAt]

theorem Fs.putAddr_owner (hv : (s.itable ip).valid = true) (ht : (s.node ip).type ≠ 0) {k : Nat}
    (hk : k ≤ ndirect) (hold : (s.node ip).addrs k = 0) (hb : b ≠ 0)
    (hzero : k = ndirect → s.block b = fun _ => 0) :
    (s.putAddr ip k b).owner = update s.owner (ip, k) (some b) := by
  have hnode := s.edit_node hv (fun d => { d with addrs := update d.addrs k b })
  have hap := Apart.edit s ip (fun d => { d with addrs := update d.addrs k b })
  funext p
  obtain ⟨i, j⟩ := p
  by_cases hi : i = ip
  · subst hi
    by_cases hjk : j = k
    · subst hjk
      rw [update_self, owner_eq_some, putAddr, hnode, slot_direct _ _ hk]
      exact ⟨ht, hb, update_self _ _ _⟩
    · have hne : (i, j) ≠ (i, k) := fun he => hjk (Prod.mk.inj he).2
      rw [update_of_ne hne]
      have hslot : slot (s.putAddr i k b).block ((s.putAddr i k b).node i) j =
          slot s.block (s.node i) j := by
        rw [putAddr, hnode]
        unfold slot
        by_cases hj : j ≤ ndirect
        · simp [hj, hjk]
        · by_cases hkn : k = ndirect
          · subst hkn
            have hblk : (s.edit i (fun d => { d with
              addrs := update d.addrs ndirect b })).block b = fun _ => 0 := hzero rfl
            simp only [hj, if_false, update_self, hold, true_or, if_true, hblk]
            rw [word_zero, ite_self]
          · have hu : update (s.node i).addrs k b ndirect = (s.node i).addrs ndirect :=
              update_of_ne (Ne.symm hkn) _ _
            simp only [hj, if_false, hu]
            rfl
      have htype : ((s.putAddr i k b).node i).type = (s.node i).type := by
        rw [putAddr, hnode]
      unfold owner
      rw [hslot, htype]
  · have hne : (i, j) ≠ (ip, k) := fun he => hi (Prod.mk.inj he).1
    rw [update_of_ne hne]
    exact hap.owner hi j

end Edits

/-- `t` differs from `s` in that the locked inode has got new blocks. -/
structure Extends (s t : Fs) (ip : Nat) : Prop where
  apart : Apart s t ip
  header : t.node ip = { s.node ip with addrs := (t.node ip).addrs }
  dinode : t.dinode = s.dinode
  keep : ∀ k b, s.owner (ip, k) = some b → t.owner (ip, k) = some b
  data : ∀ k b, k ≠ ndirect → s.owner (ip, k) = some b → t.block b = s.block b

section Mapping

variable {start : Nat} {s t u : Fs} {ip k : Nat} {R : Set BlockNo} {b : BlockNo} {E : String → Prop}

theorem Extends.refl (s : Fs) (ip : Nat) : Extends s s ip :=
  ⟨Apart.refl s ip, rfl, rfl, fun _ _ h => h, fun _ _ _ _ => rfl⟩

theorem Extends.trans (h : Extends s t ip) (h' : Extends t u ip) : Extends s u ip where
  apart := h.apart.trans h'.apart
  header := by rw [h'.header, h.header]
  dinode := h'.dinode.trans h.dinode
  keep k b hb := h'.keep k b (h.keep k b hb)
  data k b hk hb := (h'.data k b hk (h.keep k b hb)).trans (h.data k b hk hb)

theorem Editing.reserved_ne_zero (h : Editing start s ip R) (hb : b ∈ R) : b ≠ 0 := by
  rintro rfl
  exact h.owned.reserved_only 0 hb h.start_pos

theorem Editing.putAddr (h : Editing start s ip R) (hb : b ∈ R) (hk : k ≤ ndirect)
    (hold : (s.node ip).addrs k = 0) (hzero : k = ndirect → s.block b = fun _ => 0) :
    Editing start (s.putAddr ip k b) ip (R \ {b}) ∧ Extends s (s.putAddr ip k b) ip ∧
      (s.putAddr ip k b).owner = update s.owner (ip, k) (some b) := by
  have hap : Apart s (s.putAddr ip k b) ip := Apart.edit s ip _
  have howner := putAddr_owner h.valid h.type_ne hk hold (h.reserved_ne_zero hb) hzero
  have hnode : (s.putAddr ip k b).node ip =
      { s.node ip with addrs := update (s.node ip).addrs k b } := s.putAddr_node h.valid k b
  have hnone : s.owner (ip, k) = none := by
    rw [owner, slot_direct _ _ hk, hold]
    simp
  have hedit : Editing start (s.putAddr ip k b) ip (R \ {b}) := by
    refine h.of_apart hap ?_ ?_ h.in_range
    · unfold Fs.Owned
      rw [howner]
      exact h.owned.attach hb hnone
    · rw [← node_of_valid (hap.valid.trans h.valid), hnode]
      exact h.type_ne
  refine ⟨hedit, ⟨hap, by rw [hnode], rfl, fun j c hc => ?_, fun _ _ _ _ => rfl⟩, howner⟩
  have hne : (ip, j) ≠ (ip, k) := fun he => by simp [he, hnone] at hc
  rw [howner, update_of_ne hne, hc]

/-- What `bmap` and its parts guarantee about the address they return. -/
def Mapped (start : Nat) (s : Fs) (ip k : Nat) (addr : BlockNo) (t : Fs) : Prop :=
  Editing start t ip ∅ ∧ Extends s t ip ∧ (addr = 0 ∨ t.owner (ip, k) = some addr) ∧
    ∀ j, j ≠ k → j ≠ ndirect → t.owner (ip, j) = s.owner (ip, j)

theorem toNat_ofNat_lt (h : Editing start s ip R) {n : Nat} (hn : n < s.sb.size) :
    (BitVec.ofNat 32 n).toNat = n := by
  have hs := h.size_lt
  exact Nat.mod_eq_of_lt (by omega)

theorem balloc_spec (h : Editing start s ip R) (htx : 1 ≤ s.outstanding) :
    Ends balloc s (fun b t => (b = 0 ∧ t = s) ∨
      (b ≠ 0 ∧ ¬ s.busy b ∧ t = s.take b ∧ Editing start t ip (insert b R))) E := by
  rcases balloc_cases htx with ⟨hr, -⟩ | ⟨n, hn, hbit, hr⟩
  · exact Ends.of_ok hr (.inl ⟨rfl, rfl⟩)
  · have hlt : (BitVec.ofNat 32 n).toNat < s.sb.size := by rwa [toNat_ofNat_lt h hn]
    obtain ⟨hedit, -, -⟩ := h.take hlt hbit
    refine Ends.of_ok hr (.inr ⟨hedit.reserved_ne_zero (Set.mem_insert _ _), ?_, rfl, hedit⟩)
    exact fun hbusy => by simp [busy, hbit] at hbusy

theorem Editing.take_extends (h : Editing start s ip R) (hb : ¬ s.busy b) :
    Extends s (s.take b) ip := by
  have hno := h.owned.not_owned hb
  refine ⟨Apart.take hno, rfl, rfl, fun j c hc => ?_, fun j c _ hc => ?_⟩
  · rw [take_owner hno, hc]
  · have hne : c ≠ b := fun he => hno _ (he ▸ hc)
    simp [Fs.take, hne]

theorem Mapped.refl (h : Editing start s ip ∅) (hb : b = 0 ∨ s.owner (ip, k) = some b) :
    Mapped start s ip k b s :=
  ⟨h, Extends.refl s ip, hb, fun _ _ _ => rfl⟩

theorem Editing.taken (h : Editing start s ip ∅) (hfree : ¬ s.busy b) (ht : Editing start t ip ∅)
    (hx : Extends (s.take b) t ip) (ho : t.owner = update (s.take b).owner (ip, k) (some b)) :
    Mapped start s ip k b t := by
  refine ⟨ht, (h.take_extends hfree).trans hx, .inr (by rw [ho, update_self]), fun j hj _ => ?_⟩
  rw [ho, update_of_ne (fun he => hj (Prod.mk.inj he).2), take_owner (h.owned.not_owned hfree)]

theorem diff_insert_empty (b : BlockNo) : (insert b ∅ : Set BlockNo) \ {b} = ∅ := by
  simp

theorem addrAt_spec (h : Editing start s ip ∅) (htx : 1 ≤ s.outstanding) (hk : k ≤ ndirect) :
    Ends (addrAt ip k) s (Mapped start s ip k) E := by
  have hnode := h.node_eq
  refine Ends.bind_ok (m := inode ip) (a := (s.itable ip).copy) rfl ?_
  split_ifs with hz
  · refine (balloc_spec h htx).bind ?_
    rintro b t (⟨rfl, rfl⟩ | ⟨hb0, hfree, rfl, hedit⟩)
    · rw [if_pos rfl]
      exact Ends.pure (Mapped.refl h (.inl rfl))
    · rw [if_neg hb0]
      have hold : ((s.take b).node ip).addrs k = 0 := by
        have hn : (s.take b).node ip = s.node ip := rfl
        rw [hn, hnode]
        exact hz
      have hzero : (s.take b).block b = fun _ => 0 := by simp [Fs.take]
      obtain ⟨hput, hext, howner⟩ :=
        hedit.putAddr (Set.mem_insert b ∅) hk hold (fun _ => hzero)
      rw [diff_insert_empty] at hput
      refine Ends.bind_ok (m := setAddr ip k b) (t := (s.take b).putAddr ip k b) rfl ?_
      exact Ends.pure (h.taken hfree hput hext howner)
  · refine Ends.pure (Mapped.refl h (.inr ?_))
    rw [owner_eq_some, slot_direct _ _ hk, hnode]
    exact ⟨h.typed ip h.valid, hz, rfl⟩

theorem slot_indirect (blk : Disk) (d : Dinode) {j : Nat} (hj : j < nindirect)
    (hind : d.addrs ndirect ≠ 0) :
    slot blk d (ndirect + 1 + j) = word (blk (d.addrs ndirect)) (4 * j) := by
  unfold slot
  rw [if_neg (by omega), if_neg (not_or.mpr ⟨hind, by omega⟩)]
  congr 2
  omega

theorem Fs.addrs_ndirect {ind : BlockNo} (hind : s.owner (ip, ndirect) = some ind) :
    (s.node ip).addrs ndirect = ind := by
  have hs := (owner_eq_some.mp hind).2.2
  rwa [slot_direct _ _ le_rfl] at hs

theorem Editing.putEntry_owner {ind : BlockNo} (h : Editing start s ip R)
    (hind : s.owner (ip, ndirect) = some ind) {j : Nat} (hj : j < nindirect)
    (hold : word (s.block ind) (4 * j) = 0) (hb : b ≠ 0) :
    (s.putBlock ind (setWord (s.block ind) (4 * j) b)).owner =
      update s.owner (ip, ndirect + 1 + j) (some b) := by
  have haddr := addrs_ndirect hind
  have hne0 : (s.node ip).addrs ndirect ≠ 0 := haddr ▸ h.owner_ne_zero hind
  have hself : (s.putBlock ind (setWord (s.block ind) (4 * j) b)).block ind =
      setWord (s.block ind) (4 * j) b := by simp [putBlock]
  have hsize : nindirect * 4 = bsize := by decide
  funext p
  obtain ⟨i, k⟩ := p
  by_cases hi : i = ip
  · subst hi
    by_cases hk : k = ndirect + 1 + j
    · subst hk
      rw [update_self, owner_eq_some]
      refine ⟨h.type_ne, hb, ?_⟩
      have hn : (s.putBlock ind (setWord (s.block ind) (4 * j) b)).node i = s.node i := rfl
      rw [hn, slot_indirect _ _ hj hne0, haddr, hself, word_setWord _ _ (by omega)]
    · have hne : (i, k) ≠ (i, ndirect + 1 + j) := fun he => hk (Prod.mk.inj he).2
      rw [update_of_ne hne]
      have hslot : slot (s.putBlock ind (setWord (s.block ind) (4 * j) b)).block (s.node i) k =
          slot s.block (s.node i) k := by
        unfold slot
        split_ifs with hk1 hk2
        · rfl
        · rfl
        · rw [haddr, hself, word_setWord_of_disjoint _ _ (by omega) (by omega)]
      unfold owner
      have hn : (s.putBlock ind (setWord (s.block ind) (4 * j) b)).node i = s.node i := rfl
      rw [hn, hslot]
  · have hne : (i, k) ≠ (ip, ndirect + 1 + j) := fun he => hi (Prod.mk.inj he).1
    rw [update_of_ne hne]
    refine owner_congr (s := s)
      (t := s.putBlock ind (setWord (s.block ind) (4 * j) b)) rfl (fun c hc => ?_) k
    have hci : c ≠ ind := by
      rintro rfl
      exact hi (Prod.mk.inj (h.owned.inj _ _ _ hc hind)).1
    simp [putBlock, hci]

theorem Editing.putEntry {ind : BlockNo} (h : Editing start s ip R)
    (hind : s.owner (ip, ndirect) = some ind) {j : Nat} (hj : j < nindirect)
    (hold : word (s.block ind) (4 * j) = 0) (hb : b ∈ R) :
    Editing start (s.putBlock ind (setWord (s.block ind) (4 * j) b)) ip (R \ {b}) ∧
      Extends s (s.putBlock ind (setWord (s.block ind) (4 * j) b)) ip ∧
      (s.putBlock ind (setWord (s.block ind) (4 * j) b)).owner =
        update s.owner (ip, ndirect + 1 + j) (some b) := by
  have howner := h.putEntry_owner hind hj hold (h.reserved_ne_zero hb)
  have hother : ∀ p c, p ≠ (ip, ndirect) → s.owner p = some c →
      (s.putBlock ind (setWord (s.block ind) (4 * j) b)).block c = s.block c := by
    intro p c hp hc
    have hci : c ≠ ind := by
      rintro rfl
      exact hp (h.owned.inj _ _ _ hc hind)
    simp [putBlock, hci]
  have hap : Apart s (s.putBlock ind (setWord (s.block ind) (4 * j) b)) ip :=
    ⟨rfl, rfl, rfl, fun _ _ => rfl, fun _ _ => rfl, rfl, rfl, fun i k c hi hc =>
      hother (i, k) c (fun he => hi (Prod.mk.inj he).1) hc⟩
  have hnone : s.owner (ip, ndirect + 1 + j) = none := by
    have haddr := addrs_ndirect hind
    rw [owner, slot_indirect _ _ hj (haddr ▸ h.owner_ne_zero hind), haddr, hold]
    simp
  refine ⟨h.of_apart hap ?_ (h.typed ip h.valid) h.in_range,
    ⟨hap, rfl, rfl, fun k c hc => ?_, fun k c hk hc => ?_⟩, howner⟩
  · unfold Fs.Owned
    rw [howner]
    exact h.owned.attach hb hnone
  · have hne : (ip, k) ≠ (ip, ndirect + 1 + j) := fun he => by simp [he, hnone] at hc
    rw [howner, update_of_ne hne, hc]
  · exact hother (ip, k) c (fun he => hk (Prod.mk.inj he).2) hc

theorem indirectAt_spec {ind : BlockNo} (h : Editing start s ip ∅) (htx : 1 ≤ s.outstanding)
    (hind : s.owner (ip, ndirect) = some ind) {j : Nat} (hj : j < nindirect) :
    Ends (indirectAt ind j) s (Mapped start s ip (ndirect + 1 + j)) E := by
  have haddr := addrs_ndirect hind
  refine Ends.get_bind ?_
  split_ifs with hz
  · refine (balloc_spec h htx).bind ?_
    rintro b t (⟨rfl, rfl⟩ | ⟨hb0, hfree, rfl, hedit⟩)
    · rw [if_pos rfl]
      exact Ends.pure (Mapped.refl h (.inl rfl))
    · rw [if_neg hb0]
      have hno := h.owned.not_owned hfree
      have hind' : (s.take b).owner (ip, ndirect) = some ind := by rw [take_owner hno, hind]
      have hne : ind ≠ b := fun he => hno _ (he ▸ hind)
      have hold : word ((s.take b).block ind) (4 * j) = 0 := by simpa [Fs.take, hne] using hz
      obtain ⟨hput, hext, howner⟩ := hedit.putEntry hind' hj hold (Set.mem_insert b ∅)
      rw [diff_insert_empty] at hput
      refine Ends.modify_bind (Ends.bind_ok (logWrite_run (by exact htx)) ?_)
      exact Ends.pure (h.taken hfree hput hext howner)
  · refine Ends.pure (Mapped.refl h (.inr ?_))
    rw [owner_eq_some, slot_indirect _ _ hj (haddr ▸ h.owner_ne_zero hind), haddr]
    exact ⟨h.type_ne, hz, rfl⟩

theorem bmap_spec (h : Editing start s ip ∅) (htx : 1 ≤ s.outstanding) {bn : Nat}
    (hbn : bn < maxfile) : Ends (bmap ip bn) s (Mapped start s ip (place bn)) E := by
  unfold bmap place
  by_cases hd : bn < ndirect
  · rw [if_pos hd, if_pos hd]
    exact addrAt_spec h htx (by omega)
  · have hj : bn - ndirect < nindirect := by
      simp only [maxfile] at hbn
      omega
    have hk : ndirect + 1 + (bn - ndirect) = bn + 1 := by omega
    rw [if_neg hd, if_neg hd, if_pos hj]
    refine (addrAt_spec h htx le_rfl).bind ?_
    rintro ind t ⟨hedit, hext, hind, hsame⟩
    split_ifs with hz
    · exact Ends.pure ⟨hedit, hext, .inl rfl, fun j _ hj => hsame j hj hj⟩
    · have htx' : 1 ≤ t.outstanding := by rw [hext.apart.outstanding]; exact htx
      refine (indirectAt_spec hedit htx' (hind.resolve_left hz) hj).post (fun addr u hu => ?_)
      rw [hk] at hu
      obtain ⟨hedit', hext', haddr, hsame'⟩ := hu
      exact ⟨hedit', hext.trans hext', haddr, fun j hj hn => (hsame' j hj hn).trans (hsame j hn hn)⟩

theorem addrAt_present (hk : (s.itable ip).copy.addrs k ≠ 0) :
    addrAt ip k s = .ok ((s.itable ip).copy.addrs k, s) := by
  rw [addrAt, bind_ok (m := inode ip) (a := (s.itable ip).copy) rfl, if_neg hk]
  rfl

theorem indirectAt_present {ind : BlockNo} {j : Nat} (hj : word (s.block ind) (4 * j) ≠ 0) :
    indirectAt ind j s = .ok (word (s.block ind) (4 * j), s) := by
  refine Ends.eq_ok (Ends.get_bind ?_)
  rw [if_neg hj]
  exact Ends.pure ⟨rfl, rfl⟩

theorem bmap_present (h : (s.itable ip).valid = true) {bn : Nat}
    (hb : s.owner (ip, place bn) = some b) : bmap ip bn s = .ok (b, s) := by
  obtain ⟨-, hb0, hslot⟩ := owner_eq_some.mp hb
  rw [node_of_valid h] at hslot
  unfold bmap
  by_cases hd : bn < ndirect
  · rw [place, if_pos hd, slot_direct _ _ (by omega)] at hslot
    rw [if_pos hd, addrAt_present (hslot ▸ hb0), hslot]
  · rw [place, if_neg hd] at hslot
    unfold slot at hslot
    rw [if_neg (by omega)] at hslot
    split at hslot
    · exact absurd hslot.symm hb0
    · rename_i hn
      obtain ⟨hind, hle⟩ := not_or.mp hn
      have hk : bn + 1 - (ndirect + 1) = bn - ndirect := by omega
      rw [hk] at hslot
      rw [if_neg hd, if_pos (by omega), bind_ok (addrAt_present hind), if_neg hind,
        indirectAt_present (hslot ▸ hb0), hslot]

end Mapping

end Xv6
