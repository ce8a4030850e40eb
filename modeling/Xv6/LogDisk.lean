import Xv6.Commit

/-! The log on disk: when a disk is one from which recovery leads to given home
blocks, and what the block writes of `commit` and recovery do to such a disk. -/

namespace Xv6

open LittleEndian Function List

/-- Outside the log, which is its header and `LOGBLOCKS` blocks behind it. -/
def Home (start b : BlockNo) : Prop := ∀ i ≤ logBlocks, b ≠ start + BitVec.ofNat 32 i

theorem home_of_lt {start b : BlockNo} (h : start.toNat + logBlocks < b.toNat) : Home start b := by
  rintro i hi rfl
  rw [BitVec.toNat_add, BitVec.toNat_ofNat] at h
  omega

theorem logBlock_eq (start : BlockNo) (i : Nat) :
    logBlock start i = start + BitVec.ofNat 32 (i + 1) := by
  rw [logBlock, BitVec.add_assoc]
  congr 1
  apply BitVec.eq_of_toNat_eq
  simp [BitVec.toNat_add]

theorem Home.ne_start {start b : BlockNo} (h : Home start b) : b ≠ start := by
  simpa using h 0 (by decide)

theorem Home.ne_logBlock {start b : BlockNo} (h : Home start b) {i : Nat} (hi : i < logBlocks) :
    b ≠ logBlock start i := by
  rw [logBlock_eq]
  exact h (i + 1) hi

theorem logBlock_inj {start : BlockNo} {i j : Nat} (hi : i < logBlocks) (hj : j < logBlocks)
    (h : logBlock start i = logBlock start j) : i = j := by
  rw [logBlock_eq, logBlock_eq, BitVec.add_right_inj] at h
  have hn := congrArg BitVec.toNat h
  simp only [BitVec.toNat_ofNat, logBlocks, maxOpBlocks] at hn hi hj
  omega

theorem logBlock_ne_start {start : BlockNo} {i : Nat} (hi : i < logBlocks) :
    logBlock start i ≠ start := by
  intro h
  have hz : start + BitVec.ofNat 32 (i + 1) = start + 0#32 := by
    rw [BitVec.add_zero, ← logBlock_eq, h]
  have hn := congrArg BitVec.toNat ((BitVec.add_right_inj start).mp hz)
  simp only [BitVec.toNat_ofNat, logBlocks, maxOpBlocks] at hn hi
  omega

def LogHeader.Lists (lh : LogHeader) (bs : List BlockNo) : Prop :=
  lh.n = bs.length ∧ ∀ i (_ : i < bs.length), lh.block i = bs[i]

theorem LogHeader.lists_nil {lh : LogHeader} : lh.Lists [] ↔ lh.n = 0 := by
  simp [LogHeader.Lists]

theorem LogHeader.Lists.logged {lh : LogHeader} {bs : List BlockNo} (h : lh.Lists bs)
    (b : BlockNo) : lh.Logged b ↔ b ∈ bs := by
  rw [LogHeader.Logged, h.1, mem_iff_getElem]
  constructor
  · rintro ⟨i, hi, rfl⟩
    exact ⟨i, by exact_mod_cast hi, (h.2 i (by exact_mod_cast hi)).symm⟩
  · rintro ⟨i, hi, rfl⟩
    exact ⟨i, by exact_mod_cast hi, h.2 i hi⟩

theorem LogHeader.Lists.take {hb : LogHeader} {bs : List BlockNo} (h : hb.Lists bs)
    (lh : LogHeader) : (takeHeader hb lh).Lists bs := by
  refine ⟨h.1, fun i hi => ?_⟩
  have hlt : (i : Int) < hb.n := by
    rw [h.1]
    exact_mod_cast hi
  simp only [takeHeader, if_pos hlt, h.2 i hi]

theorem LogHeader.Lists.snoc {lh : LogHeader} {bs : List BlockNo} (h : lh.Lists bs) (b : BlockNo) :
    LogHeader.Lists { n := lh.n + 1, block := update lh.block lh.n.toNat b } (bs ++ [b]) := by
  have hn : lh.n.toNat = bs.length := by rw [h.1, Int.toNat_natCast]
  refine ⟨by simp [h.1], fun i hi => ?_⟩
  rw [hn]
  by_cases hib : i = bs.length
  · subst hib
    simp
  · have hlt : i < bs.length := by
      simp only [length_append, length_singleton] at hi
      omega
    simp only [update_of_ne hib, h.2 i hlt, getElem_append_left hlt]

theorem LogHeader.Lists.put {lh : LogHeader} {bs : List BlockNo} (h : lh.Lists bs)
    (hfits : bs.length ≤ logBlocks) (m : Block) : (logHeader (putHeader lh m)).Lists bs := by
  have hn : lh.n.toNat = bs.length := by rw [h.1, Int.toNat_natCast]
  have hsize : 4 + 4 * bs.length ≤ bsize := by
    simp only [logBlocks, maxOpBlocks] at hfits
    simp only [bsize]
    omega
  constructor
  · simp only [logHeader, putHeader, hn]
    rw [word_setWords_of_disjoint _ _ _ (by omega) (by omega), word_setWord _ _ (by omega), h.1]
    simp only [logBlocks, maxOpBlocks] at hfits
    exact BitVec.toInt_ofInt_eq_self (by decide) (by omega) (by omega)
  · intro i hi
    simp only [logHeader, putHeader, hn]
    rw [word_setWords _ _ hi hsize, h.2 i hi]

structure Clear (start : BlockNo) (R d : Disk) : Prop where
  empty : (logHeader (d start)).n = 0
  home : ∀ b, Home start b → d b = R b

/-- The log lists `bs` and has their contents in `R`, which the home blocks have
as well but for the entries from `k` on. -/
structure Installing (start : BlockNo) (bs : List BlockNo) (R : Disk) (k : Nat) (d : Disk) :
    Prop where
  lists : (logHeader (d start)).Lists bs
  fits : bs.length ≤ logBlocks
  home : ∀ b ∈ bs, Home start b
  done : ∀ b, Home start b → b ∉ bs.drop k → d b = R b
  logged : ∀ i (_ : i < bs.length), d (logBlock start i) = R bs[i]

def Recoverable (start : BlockNo) (R d : Disk) : Prop := ∃ bs, Installing start bs R 0 d

section Writes

variable {start : BlockNo} {bs : List BlockNo} {R d : Disk} {k : Nat}

theorem Clear.recoverable (h : Clear start R d) : Recoverable start R d := by
  refine ⟨[], LogHeader.lists_nil.mpr h.empty, by simp, by simp, ?_, by simp⟩
  intro b hb _
  exact h.home b hb

theorem Installing.recoverable (h : Installing start bs R k d) : Recoverable start R d := by
  refine ⟨bs, h.lists, h.fits, h.home, fun b hb hn => h.done b hb ?_, h.logged⟩
  exact fun hm => hn (mem_of_mem_drop hm)

theorem Clear.write {b : BlockNo} (h : Clear start R d) (hs : b ≠ start) (hb : ¬ Home start b)
    (v : Block) : Clear start R (update d b v) := by
  have hempty : (logHeader (update d b v start)).n = 0 := by
    rw [update_of_ne hs.symm]
    exact h.empty
  have hhome : ∀ b', Home start b' → update d b v b' = R b' := by
    intro b' hb'
    have hne : b' ≠ b := fun he => hb (he ▸ hb')
    rw [update_of_ne hne]
    exact h.home b' hb'
  exact ⟨hempty, hhome⟩

theorem Installing.round (h : Installing start bs R k d) (hk : k < bs.length) :
    Installing start bs R (k + 1) (update d bs[k] (d (logBlock start k))) := by
  have hhome := h.home bs[k] (getElem_mem hk)
  have hlists : (logHeader (update d bs[k] (d (logBlock start k)) start)).Lists bs := by
    rw [update_of_ne hhome.ne_start.symm]
    exact h.lists
  have hdone : ∀ b, Home start b → b ∉ bs.drop (k + 1) →
      update d bs[k] (d (logBlock start k)) b = R b := by
    intro b hb hn
    by_cases hbk : b = bs[k]
    · rw [hbk, update_self, h.logged k hk]
    · have hdrop : b ∉ bs.drop k := by
        rw [drop_eq_getElem_cons hk, mem_cons, not_or]
        exact ⟨hbk, hn⟩
      rw [update_of_ne hbk]
      exact h.done b hb hdrop
  have hlogged : ∀ i (_ : i < bs.length),
      update d bs[k] (d (logBlock start k)) (logBlock start i) = R bs[i] := by
    intro i hi
    have hne : logBlock start i ≠ bs[k] :=
      (hhome.ne_logBlock (lt_of_lt_of_le hi h.fits)).symm
    rw [update_of_ne hne, h.logged i hi]
  exact ⟨hlists, h.fits, h.home, hdone, hlogged⟩

theorem Installing.clear (h : Installing start bs R bs.length d) {lh : LogHeader} (hn : lh.n = 0)
    (m : Block) : Clear start R (update d start (putHeader lh m)) := by
  have hempty : (logHeader (putHeader lh m)).n = 0 :=
    LogHeader.lists_nil.mp ((LogHeader.lists_nil.mpr hn).put (by simp) m)
  have hhome : ∀ b, Home start b → update d start (putHeader lh m) b = R b := by
    intro b hb
    rw [update_of_ne hb.ne_start]
    exact h.done b hb (by simp)
  exact ⟨by rwa [update_self], hhome⟩

theorem Clear.commit {R' : Disk} {lh : LogHeader} (h : Clear start R d) (hl : lh.Lists bs)
    (hfits : bs.length ≤ logBlocks) (hhome : ∀ b ∈ bs, Home start b)
    (hlog : ∀ i (_ : i < bs.length), d (logBlock start i) = R' bs[i])
    (hR : ∀ b, Home start b → b ∉ bs → R b = R' b) (m : Block) :
    Installing start bs R' 0 (update d start (putHeader lh m)) := by
  have hlists : (logHeader (putHeader lh m)).Lists bs := hl.put hfits m
  have hdone : ∀ b, Home start b → b ∉ bs → update d start (putHeader lh m) b = R' b := by
    intro b hb hn
    rw [update_of_ne hb.ne_start, h.home b hb]
    exact hR b hb hn
  have hlogged : ∀ i (_ : i < bs.length),
      update d start (putHeader lh m) (logBlock start i) = R' bs[i] := by
    intro i hi
    have hne : logBlock start i ≠ start := logBlock_ne_start (lt_of_lt_of_le hi hfits)
    rw [update_of_ne hne, hlog i hi]
  exact ⟨by rwa [update_self], hfits, hhome, hdone, hlogged⟩

end Writes

end Xv6
