import Xv6.Types

/-! The in-memory log: what `begin_op`, `log_write` and `end_op` do while they
hold `log.lock`. -/

namespace Xv6

open List

def maxOpBlocks : Nat := 10

def logBlocks : Nat := maxOpBlocks * 3

abbrev BlockNo := BitVec 32

structure LogHeader where
  n : Int
  block : Nat → BlockNo

structure Log where
  start : BlockNo
  outstanding : Int
  committing : Int
  lh : LogHeader

/-- One round of the loop of `begin_op`; `none` when the caller goes to sleep. -/
def beginOp (l : Log) : Option Log :=
  if l.committing ≠ 0 then none
  else if l.lh.n + (l.outstanding + 1) * maxOpBlocks > logBlocks then none
  else some { l with outstanding := l.outstanding + 1 }

/-- Where the search loop of `log_write` stops: the entry of `b`, or `n`. -/
def absorbAt (lh : LogHeader) (b : BlockNo) : Nat :=
  (List.range lh.n.toNat).findIdx (fun i => lh.block i == b)

def logWrite (l : Log) (b : BlockNo) : Except String (Log × Bool) :=
  if l.lh.n ≥ logBlocks then .error "too big a transaction"
  else if l.outstanding < 1 then .error "log_write outside of trans"
  else
    let i := absorbAt l.lh b
    let block := Function.update l.lh.block i b
    if (i : Int) = l.lh.n then
      .ok ({ l with lh := { n := l.lh.n + 1, block := block } }, true)
    else .ok ({ l with lh := { l.lh with block := block } }, false)

/-- `end_op` up to its release of the lock: the new log and `do_commit`. -/
def endOp (l : Log) : Except String (Log × Bool) :=
  let outstanding := l.outstanding - 1
  if l.committing ≠ 0 then .error "log.committing"
  else if outstanding = 0 then
    .ok ({ l with outstanding := outstanding, committing := 1 }, true)
  else .ok ({ l with outstanding := outstanding }, false)

def LogHeader.Logged (lh : LogHeader) (b : BlockNo) : Prop :=
  ∃ i : Nat, (i : Int) < lh.n ∧ lh.block i = b

instance (lh : LogHeader) (b : BlockNo) : Decidable (lh.Logged b) :=
  decidable_of_iff (∃ i ∈ List.range lh.n.toNat, lh.block i = b) (by
    simp only [LogHeader.Logged, List.mem_range]
    refine exists_congr (fun i => and_congr_left (fun _ => ?_))
    omega)

theorem absorbAt_cases (lh : LogHeader) (b : BlockNo) (hn : 0 ≤ lh.n) :
    ((absorbAt lh b : Int) < lh.n ∧ lh.block (absorbAt lh b) = b) ∨
      ((absorbAt lh b : Int) = lh.n ∧ ¬ lh.Logged b) := by
  have hlen : (range lh.n.toNat).length = lh.n.toNat := length_range
  by_cases h : absorbAt lh b < lh.n.toNat
  · left
    have hlt : (range lh.n.toNat).findIdx (fun i => lh.block i == b) <
        (range lh.n.toNat).length := by rwa [hlen]
    have hfound := findIdx_getElem (w := hlt)
    simp only [getElem_range, beq_iff_eq] at hfound
    exact ⟨by omega, hfound⟩
  · right
    have hle : absorbAt lh b ≤ lh.n.toNat := by
      rw [← hlen]
      exact findIdx_le_length
    refine ⟨by omega, ?_⟩
    rintro ⟨i, hi, hb⟩
    refine h ?_
    rw [← hlen]
    exact findIdx_lt_length_of_exists ⟨i, mem_range.mpr (by omega), by simp [hb]⟩

theorem logWrite_error {l : Log} {b : BlockNo} {m : String} (h : logWrite l b = .error m) :
    m = "too big a transaction" ∨ m = "log_write outside of trans" := by
  unfold logWrite at h
  split at h
  · exact .inl (Except.error.inj h).symm
  · split at h
    · exact .inr (Except.error.inj h).symm
    · dsimp only at h
      split at h <;> simp at h

theorem logWrite_cases {l : Log} {b : BlockNo} (hn : 0 ≤ l.lh.n) (hfull : l.lh.n < logBlocks)
    (hop : 1 ≤ l.outstanding) :
    (l.lh.Logged b ∧ logWrite l b = .ok (l, false)) ∨
      (¬ l.lh.Logged b ∧ logWrite l b = .ok ({ l with lh :=
        { n := l.lh.n + 1, block := Function.update l.lh.block l.lh.n.toNat b } }, true)) := by
  have h1 : ¬ l.lh.n ≥ logBlocks := by omega
  have h2 : ¬ l.outstanding < 1 := by omega
  unfold logWrite
  rw [if_neg h1, if_neg h2]
  rcases absorbAt_cases l.lh b hn with ⟨hi, hb⟩ | ⟨hi, hb⟩
  · left
    have hu : Function.update l.lh.block (absorbAt l.lh b) b = l.lh.block := by
      rw [Function.update_eq_self_iff, hb]
    refine ⟨⟨_, hi, hb⟩, ?_⟩
    simp only [hu]
    rw [if_neg (by omega)]
  · right
    refine ⟨hb, ?_⟩
    have he : absorbAt l.lh b = l.lh.n.toNat := by omega
    simp only [he]
    rw [if_pos (by omega)]

end Xv6
