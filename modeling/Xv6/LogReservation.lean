import Xv6.Machine
import Xv6.Log

/-! The log under any number of processes. Each step is one critical section of
`log.lock`, or the part of `commit` that clears the header. -/

namespace Xv6

open Function Option Finset

/-- The process that `end_op` has sent into `commit`, before and after it has
cleared the header. -/
inductive Committer where
  | idle
  | running (p : Nat)
  | cleared (p : Nat)

/-- `ops` are the processes between `begin_op` and `end_op`; `written` is what
the operation of each has logged, which the kernel does not record. -/
structure LogSys where
  log : Log
  ops : Finset Nat
  written : Nat → Finset BlockNo
  commit : Committer
  panic : Option String

inductive LogEvent where
  | beginOp (p : Nat)
  | logWrite (p : Nat) (b : BlockNo)
  | endOp (p : Nat)
  | commit
  | committed

def logStep (s : LogSys) (e : LogEvent) : Option LogSys :=
  if s.panic ≠ none then none
  else
    match e with
    | .beginOp p =>
      if p ∈ s.ops then none
      else (beginOp s.log).map (fun l => { s with
        log := l, ops := insert p s.ops, written := Function.update s.written p ∅ })
    | .logWrite p b =>
      if p ∈ s.ops then
        match logWrite s.log b with
        | .error m => some { s with panic := some m }
        | .ok (l, _) => some { s with
            log := l, written := Function.update s.written p (insert b (s.written p)) }
      else none
    | .endOp p =>
      if p ∈ s.ops then
        match endOp s.log with
        | .error m => some { s with panic := some m }
        | .ok (l, doCommit) => some { s with
            log := l, ops := s.ops.erase p, commit := if doCommit then .running p else s.commit }
      else none
    | .commit =>
      match s.commit with
      | .running p => some { s with
          log := { s.log with lh := { s.log.lh with n := if s.log.lh.n > 0 then 0 else s.log.lh.n } }
          commit := .cleared p }
      | _ => none
    | .committed =>
      match s.commit with
      | .cleared _ => some { s with log := { s.log with committing := 0 }, commit := .idle }
      | _ => none

abbrev logMachine : Machine LogSys LogEvent := ⟨logStep⟩

def logInit (start : BlockNo) : LogSys where
  log := { start := start, outstanding := 0, committing := 0, lh := { n := 0, block := fun _ => 0 } }
  ops := ∅
  written := fun _ => ∅
  commit := .idle
  panic := none

def WithinBudget (s : LogSys) : LogEvent → Prop
  | .logWrite p b => (insert b (s.written p)).card ≤ maxOpBlocks
  | _ => True

/-- The log is full and the block that is logged already has its entry. -/
def LogsAgainWhenFull (s : LogSys) : LogEvent → Prop
  | .logWrite _ b => s.log.lh.n = logBlocks ∧ s.log.lh.Logged b
  | _ => False

instance (s : LogSys) : (e : LogEvent) → Decidable (WithinBudget s e)
  | .logWrite p b => inferInstanceAs (Decidable ((insert b (s.written p)).card ≤ maxOpBlocks))
  | .beginOp _ | .endOp _ | .commit | .committed => isTrue trivial

instance (s : LogSys) : (e : LogEvent) → Decidable (LogsAgainWhenFull s e)
  | .logWrite _ b => inferInstanceAs (Decidable (s.log.lh.n = logBlocks ∧ s.log.lh.Logged b))
  | .beginOp _ | .endOp _ | .commit | .committed => isFalse not_false

def LogHeader.Distinct (lh : LogHeader) : Prop :=
  ∀ i j : Nat, (i : Int) < lh.n → (j : Int) < lh.n → lh.block i = lh.block j → i = j

/-- What is logged and what the operations may still log fit into the log. -/
structure Reserved (s : LogSys) : Prop where
  outstanding : s.log.outstanding = s.ops.card
  committing : s.log.committing = 0 ↔ s.commit = .idle
  quiet : s.commit ≠ .idle → s.ops = ∅
  nonneg : 0 ≤ s.log.lh.n
  room : s.log.lh.n + ∑ p ∈ s.ops, ((maxOpBlocks - (s.written p).card : Nat) : Int) ≤ logBlocks
  distinct : s.log.lh.Distinct
  logged : ∀ p ∈ s.ops, ∀ b ∈ s.written p, s.log.lh.Logged b
  budget : ∀ p ∈ s.ops, (s.written p).card ≤ maxOpBlocks

theorem reserved_init (start : BlockNo) : Reserved (logInit start) := by
  constructor <;> simp [logInit, LogHeader.Distinct]

theorem Reserved.n_le {s : LogSys} (h : Reserved s) : s.log.lh.n ≤ logBlocks := by
  have hsum : (0 : Int) ≤ ∑ p ∈ s.ops, ((maxOpBlocks - (s.written p).card : Nat) : Int) :=
    sum_nonneg (fun p _ => Int.natCast_nonneg _)
  have hroom := h.room
  omega

theorem sum_unused_update {s : LogSys} {p : Nat} (hp : p ∈ s.ops) (w : Finset BlockNo) :
    ∑ q ∈ s.ops, ((maxOpBlocks - (update s.written p w q).card : Nat) : Int) =
      ∑ q ∈ s.ops, ((maxOpBlocks - (s.written q).card : Nat) : Int) -
        ((maxOpBlocks - (s.written p).card : Nat) : Int) + ((maxOpBlocks - w.card : Nat) : Int) := by
  rw [← add_sum_erase s.ops _ hp,
    ← add_sum_erase s.ops (fun q => ((maxOpBlocks - (s.written q).card : Nat) : Int)) hp]
  have hsame : ∑ q ∈ s.ops.erase p, ((maxOpBlocks - (update s.written p w q).card : Nat) : Int) =
      ∑ q ∈ s.ops.erase p, ((maxOpBlocks - (s.written q).card : Nat) : Int) := by
    refine sum_congr rfl (fun q hq => ?_)
    rw [update_of_ne (ne_of_mem_erase hq)]
  rw [hsame, update_self]
  omega

theorem beginOp_eq_some {l l' : Log} (h : beginOp l = some l') :
    l.committing = 0 ∧ l.lh.n + (l.outstanding + 1) * maxOpBlocks ≤ logBlocks ∧
      l' = { l with outstanding := l.outstanding + 1 } := by
  unfold beginOp at h
  split at h
  · simp at h
  · rename_i hc
    split at h
    · simp at h
    · rename_i hr
      exact ⟨not_not.mp hc, by omega, by simpa using h.symm⟩

theorem Reserved.beginOp {s : LogSys} (h : Reserved s) {p : Nat} (hp : p ∉ s.ops) {l : Log}
    (hl : beginOp s.log = some l) :
    Reserved { s with
      log := l, ops := insert p s.ops, written := update s.written p ∅ } := by
  obtain ⟨hc, hroom, rfl⟩ := beginOp_eq_some hl
  have hidle : s.commit = .idle := h.committing.mp hc
  have hne : ∀ q ∈ s.ops, q ≠ p := fun q hq he => hp (he ▸ hq)
  have hsame : ∀ q ∈ s.ops, update s.written p ∅ q = s.written q := fun q hq =>
    update_of_ne (hne q hq) _ _
  have hcard : (insert p s.ops).card = s.ops.card + 1 := card_insert_of_notMem hp
  have hout : s.log.outstanding + 1 = ((insert p s.ops).card : Int) := by
    simp only [hcard, h.outstanding]
    push_cast
    rfl
  have hspace : s.log.lh.n + ∑ q ∈ insert p s.ops,
      ((maxOpBlocks - (update s.written p ∅ q).card : Nat) : Int) ≤ logBlocks := by
    have hbound : ∑ q ∈ s.ops, ((maxOpBlocks - (update s.written p ∅ q).card : Nat) : Int)
        ≤ ∑ q ∈ s.ops, (maxOpBlocks : Int) := by
      refine sum_le_sum (fun q _ => ?_)
      omega
    rw [sum_const, nsmul_eq_mul] at hbound
    rw [h.outstanding] at hroom
    rw [sum_insert hp, update_self, card_empty]
    have hexp : ((s.ops.card : Int) + 1) * maxOpBlocks = s.ops.card * maxOpBlocks + maxOpBlocks := by
      ring
    omega
  have hlogged : ∀ q ∈ insert p s.ops, ∀ b ∈ update s.written p ∅ q, s.log.lh.Logged b := by
    intro q hq b hb
    rcases mem_insert.mp hq with rfl | hq
    · simp at hb
    · rw [hsame q hq] at hb
      exact h.logged q hq b hb
  have hbudget : ∀ q ∈ insert p s.ops, (update s.written p ∅ q).card ≤ maxOpBlocks := by
    intro q hq
    rcases mem_insert.mp hq with rfl | hq
    · simp
    · rw [hsame q hq]
      exact h.budget q hq
  exact ⟨hout, h.committing, fun hn => absurd hidle hn, h.nonneg, hspace, h.distinct, hlogged,
    hbudget⟩

theorem Reserved.again_of_full {s : LogSys} (h : Reserved s) {p : Nat} (hp : p ∈ s.ops)
    {b : BlockNo} (hb : (insert b (s.written p)).card ≤ maxOpBlocks)
    (hfull : s.log.lh.n ≥ logBlocks) : LogsAgainWhenFull s (.logWrite p b) := by
  have hn : s.log.lh.n = logBlocks := le_antisymm h.n_le hfull
  refine ⟨hn, h.logged p hp b ?_⟩
  by_contra hnot
  have hle : ((maxOpBlocks - (s.written p).card : Nat) : Int) ≤
      ∑ q ∈ s.ops, ((maxOpBlocks - (s.written q).card : Nat) : Int) :=
    single_le_sum (f := fun q => ((maxOpBlocks - (s.written q).card : Nat) : Int))
      (fun q _ => Int.natCast_nonneg _) hp
  have hroom := h.room
  rw [card_insert_of_notMem hnot] at hb
  omega

theorem Logged.snoc {lh : LogHeader} {b c : BlockNo} (hn : 0 ≤ lh.n) (h : lh.Logged c) :
    ({ n := lh.n + 1, block := update lh.block lh.n.toNat b } : LogHeader).Logged c := by
  obtain ⟨i, hi, hc⟩ := h
  refine ⟨i, by dsimp only; omega, ?_⟩
  dsimp only
  rw [update_of_ne (by omega), hc]

theorem LogHeader.Distinct.snoc {lh : LogHeader} {b : BlockNo} (hn : 0 ≤ lh.n) (h : lh.Distinct)
    (hb : ¬ lh.Logged b) :
    ({ n := lh.n + 1, block := update lh.block lh.n.toNat b } : LogHeader).Distinct := by
  have hold : ∀ i : Nat, (i : Int) < lh.n →
      update lh.block lh.n.toNat b i = lh.block i := fun i hi =>
    update_of_ne (by omega) _ _
  intro i j hi hj he
  dsimp only at hi hj he
  rcases lt_or_eq_of_le (Int.lt_add_one_iff.mp hi) with hi | hi <;>
    rcases lt_or_eq_of_le (Int.lt_add_one_iff.mp hj) with hj | hj
  · rw [hold i hi, hold j hj] at he
    exact h i j hi hj he
  · have hjn : j = lh.n.toNat := by omega
    rw [hold i hi, hjn, update_self] at he
    exact absurd ⟨i, hi, he⟩ hb
  · have hin : i = lh.n.toNat := by omega
    rw [hold j hj, hin, update_self] at he
    exact absurd ⟨j, hj, he.symm⟩ hb
  · omega

theorem Reserved.one_le_outstanding {s : LogSys} (h : Reserved s) {p : Nat} (hp : p ∈ s.ops) :
    1 ≤ s.log.outstanding := by
  have hpos : 0 < s.ops.card := card_pos.mpr ⟨p, hp⟩
  rw [h.outstanding]
  omega

theorem logWrite_full {l : Log} (b : BlockNo) (h : l.lh.n ≥ logBlocks) :
    logWrite l b = .error "too big a transaction" := if_pos h

theorem Reserved.logWrite {s : LogSys} (h : Reserved s) {p : Nat} (hp : p ∈ s.ops) {b : BlockNo}
    (hb : (insert b (s.written p)).card ≤ maxOpBlocks) {l : Log} {pin : Bool}
    (hl : logWrite s.log b = .ok (l, pin)) :
    Reserved { s with
      log := l, written := update s.written p (insert b (s.written p)) } := by
  have hn := h.nonneg
  have hroom := h.room
  have hsum := sum_unused_update hp (insert b (s.written p))
  have hlt : s.log.lh.n < logBlocks := by
    by_contra hfull
    rw [logWrite_full b (by omega)] at hl
    simp at hl
  have hbudget : ∀ q ∈ s.ops,
      (update s.written p (insert b (s.written p)) q).card ≤ maxOpBlocks := by
    intro q hq
    by_cases hqp : q = p
    · subst hqp
      simpa using hb
    · rw [update_of_ne hqp]
      exact h.budget q hq
  have hlog : ∀ lh : LogHeader, lh.Logged b → (∀ c, s.log.lh.Logged c → lh.Logged c) →
      ∀ q ∈ s.ops, ∀ c ∈ update s.written p (insert b (s.written p)) q, lh.Logged c := by
    intro lh hself hold q hq c hc
    rw [update_apply] at hc
    split_ifs at hc with hqp
    · subst hqp
      rcases mem_insert.mp hc with rfl | hc
      · exact hself
      · exact hold c (h.logged q hq c hc)
    · exact hold c (h.logged q hq c hc)
  rcases logWrite_cases hn hlt (h.one_le_outstanding hp) with ⟨hin, hw⟩ | ⟨hout, hw⟩
  · rw [hw] at hl
    obtain ⟨rfl, -⟩ := Prod.mk.inj (Except.ok.inj hl)
    refine ⟨h.outstanding, h.committing, h.quiet, hn, ?_, h.distinct, ?_, hbudget⟩
    · have hmono : (s.written p).card ≤ (insert b (s.written p)).card :=
        card_le_card (subset_insert _ _)
      dsimp only
      rw [hsum]
      omega
    · exact hlog s.log.lh hin (fun c hc => hc)
  · rw [hw] at hl
    obtain ⟨rfl, -⟩ := Prod.mk.inj (Except.ok.inj hl)
    refine ⟨h.outstanding, h.committing, h.quiet, by dsimp only; omega, ?_,
      h.distinct.snoc hn hout, ?_, hbudget⟩
    · have hnot : b ∉ s.written p := fun hin => hout (h.logged p hp b hin)
      rw [card_insert_of_notMem hnot] at hb hsum
      dsimp only
      rw [hsum]
      omega
    · refine hlog _ ⟨s.log.lh.n.toNat, by dsimp only; omega, ?_⟩ (fun c hc => Logged.snoc hn hc)
      simp

theorem logStep_full {s t : LogSys} {p : Nat} {b : BlockNo} (hp : s.panic = none)
    (hfull : s.log.lh.n = logBlocks) (hst : logStep s (.logWrite p b) = some t) :
    t.panic = some "too big a transaction" := by
  unfold logStep at hst
  rw [if_neg (not_not.mpr hp)] at hst
  dsimp only at hst
  split at hst
  · rw [logWrite_full b hfull.ge] at hst
    obtain rfl := some.inj hst
    rfl
  · simp at hst

theorem endOp_eq {l : Log} (hc : l.committing = 0) : endOp l = if l.outstanding - 1 = 0 then
      .ok ({ l with outstanding := l.outstanding - 1, committing := 1 }, true)
    else .ok ({ l with outstanding := l.outstanding - 1 }, false) := by
  simp [endOp, hc]

theorem Reserved.idle_of_op {s : LogSys} (h : Reserved s) {p : Nat} (hp : p ∈ s.ops) :
    s.commit = .idle := by
  by_contra hn
  simp [h.quiet hn] at hp

theorem Reserved.endOp {s : LogSys} (h : Reserved s) {p : Nat} (hp : p ∈ s.ops) {l : Log}
    {doCommit : Bool} (hl : endOp s.log = .ok (l, doCommit)) :
    Reserved { s with
      log := l, ops := s.ops.erase p, commit := if doCommit then .running p else s.commit } := by
  have hidle := h.idle_of_op hp
  have hcard : (s.ops.erase p).card + 1 = s.ops.card := card_erase_add_one hp
  have hout := h.outstanding
  have hroom : s.log.lh.n +
      ∑ q ∈ s.ops.erase p, ((maxOpBlocks - (s.written q).card : Nat) : Int) ≤ logBlocks := by
    have hr := h.room
    rw [← add_sum_erase s.ops _ hp] at hr
    omega
  have hlogged : ∀ q ∈ s.ops.erase p, ∀ b ∈ s.written q, s.log.lh.Logged b := fun q hq =>
    h.logged q (mem_of_mem_erase hq)
  have hbudget : ∀ q ∈ s.ops.erase p, (s.written q).card ≤ maxOpBlocks := fun q hq =>
    h.budget q (mem_of_mem_erase hq)
  rw [endOp_eq (h.committing.mpr hidle)] at hl
  split at hl
  · rename_i hlast
    obtain ⟨rfl, rfl⟩ := Prod.mk.inj (Except.ok.inj hl)
    refine ⟨by dsimp only; omega, by simp, fun _ => ?_, h.nonneg, hroom, h.distinct, hlogged,
      hbudget⟩
    have hnone : (s.ops.erase p).card = 0 := by omega
    exact card_eq_zero.mp hnone
  · obtain ⟨rfl, rfl⟩ := Prod.mk.inj (Except.ok.inj hl)
    exact ⟨by dsimp only; omega, h.committing, fun hn => absurd hidle hn, h.nonneg, hroom,
      h.distinct, hlogged, hbudget⟩

theorem Reserved.commit {s : LogSys} (h : Reserved s) {p : Nat} (hc : s.commit = .running p) :
    Reserved { s with
      log := { s.log with lh := { s.log.lh with n := if s.log.lh.n > 0 then 0 else s.log.lh.n } }
      commit := .cleared p } := by
  have hops : s.ops = ∅ := h.quiet (by simp [hc])
  have hz : (if s.log.lh.n > 0 then 0 else s.log.lh.n) = 0 := by
    have hn := h.nonneg
    split <;> omega
  rw [hz]
  refine ⟨h.outstanding, ?_, fun _ => hops, le_rfl, ?_, ?_, ?_, ?_⟩
  · simpa [hc] using h.committing
  · simp [hops]
  · intro i j hi
    dsimp only at hi
    omega
  · simp [hops]
  · simp [hops]

theorem Reserved.committed {s : LogSys} (h : Reserved s) :
    Reserved { s with log := { s.log with committing := 0 }, commit := .idle } :=
  ⟨h.outstanding, by simp, fun hn => absurd rfl hn, h.nonneg, h.room, h.distinct, h.logged,
    h.budget⟩

theorem step_reserved {s t : LogSys} {e : LogEvent} (hst : logStep s e = some t)
    (hb : WithinBudget s e) (h : Reserved s) :
    Reserved t ∧ s.panic = none ∧
      (t.panic = none ∨ (LogsAgainWhenFull s e ∧ t.panic = some "too big a transaction")) := by
  have hp : s.panic = none := by
    by_contra hn
    simp [logStep, hn] at hst
  have hpanic : ∀ m, Reserved { s with panic := m } := fun m =>
    ⟨h.outstanding, h.committing, h.quiet, h.nonneg, h.room, h.distinct, h.logged, h.budget⟩
  unfold logStep at hst
  rw [if_neg (not_not.mpr hp)] at hst
  refine and_left_comm.mp ⟨hp, ?_⟩
  cases e with
  | beginOp p =>
    dsimp only at hst
    split at hst
    · simp at hst
    · rename_i hnot
      obtain ⟨l, hl, rfl⟩ := map_eq_some_iff.mp hst
      exact ⟨h.beginOp hnot hl, .inl hp⟩
  | logWrite p b =>
    dsimp only at hst
    split at hst
    · rename_i hin
      have hcard : (insert b (s.written p)).card ≤ maxOpBlocks := hb
      by_cases hfull : s.log.lh.n ≥ logBlocks
      · rw [logWrite_full b hfull] at hst
        obtain rfl := some.inj hst
        exact ⟨hpanic _, .inr ⟨h.again_of_full hin hcard hfull, rfl⟩⟩
      · cases hl : logWrite s.log b with
        | error m =>
          rcases logWrite_cases h.nonneg (by omega) (h.one_le_outstanding hin) with
            ⟨-, hw⟩ | ⟨-, hw⟩ <;> exact absurd (hw.symm.trans hl) (by simp)
        | ok r =>
          obtain ⟨l, pin⟩ := r
          rw [hl] at hst
          obtain rfl := some.inj hst
          exact ⟨h.logWrite hin hcard hl, .inl hp⟩
    · simp at hst
  | endOp p =>
    dsimp only at hst
    split at hst
    · rename_i hin
      cases hl : endOp s.log with
      | error m =>
        rw [endOp_eq (h.committing.mpr (h.idle_of_op hin))] at hl
        split at hl <;> simp at hl
      | ok r =>
        obtain ⟨l, doCommit⟩ := r
        rw [hl] at hst
        obtain rfl := some.inj hst
        exact ⟨h.endOp hin hl, .inl hp⟩
    · simp at hst
  | commit =>
    dsimp only at hst
    split at hst
    · rename_i p hc
      obtain rfl := some.inj hst
      exact ⟨h.commit hc, .inl hp⟩
    · simp at hst
  | committed =>
    dsimp only at hst
    split at hst
    · obtain rfl := some.inj hst
      exact ⟨h.committed, .inl hp⟩
    · simp at hst

/-- Within budget the log never overflows and never holds a block twice; it
panics exactly when a block that has its entry is logged again while the log is
full, so a run without such a call does not panic. -/
theorem log_space_sufficient (start : BlockNo) {es : List LogEvent} {s : LogSys}
    (hrun : logMachine.exec (logInit start) es = some s)
    (hbudget : logMachine.Along WithinBudget (logInit start) es) :
    (s.log.lh.n ≤ logBlocks ∧ s.log.lh.Distinct) ∧
    (logMachine.Along (fun u e => ¬ LogsAgainWhenFull u e) (logInit start) es → s.panic = none) ∧
    ∀ e t, WithinBudget s e → logStep s e = some t →
      (t.panic = some "too big a transaction" ↔ LogsAgainWhenFull s e) := by
  have hinv : Reserved s := Machine.inv_along (I := Reserved)
    (fun u e v hst hb hi => (step_reserved hst hb hi).1) hrun hbudget (reserved_init start)
  refine ⟨⟨hinv.n_le, hinv.distinct⟩, fun hagain => ?_, fun e t hb hst => ?_⟩
  · have hboth := Machine.along_and hbudget hagain
    refine (Machine.inv_along (I := fun u => Reserved u ∧ u.panic = none) ?_ hrun hboth
      ⟨reserved_init start, rfl⟩).2
    rintro u e v hst ⟨hb, ha⟩ ⟨hi, -⟩
    obtain ⟨hr, -, hp | ⟨hfull, -⟩⟩ := step_reserved hst hb hi
    · exact ⟨hr, hp⟩
    · exact absurd hfull ha
  · obtain ⟨-, hp, hcase⟩ := step_reserved hst hb hinv
    constructor
    · intro ht
      rcases hcase with hn | ⟨hfull, -⟩
      · simp [hn] at ht
      · exact hfull
    · intro hfull
      cases e with
      | logWrite p b => exact logStep_full hp hfull.1 hst
      | _ => exact absurd hfull not_false

def twice : List LogEvent := [.beginOp 0, .logWrite 0 7, .logWrite 0 7, .endOp 0]

theorem log_space_sufficient_twice : ∃ s,
    logMachine.exec (logInit 2) twice = some s ∧ s.log.lh.n = 1 ∧ s.panic = none := by
  have h : (logMachine.exec (logInit 2) twice).map (fun s => s.log.lh.n) = some 1 := by
    decide +kernel
  obtain ⟨s, hs, hn⟩ := map_eq_some_iff.mp h
  exact ⟨s, hs, hn, (log_space_sufficient 2 hs (by decide +kernel)).2.1 (by decide +kernel)⟩

/-- Three operations fill the log with their thirty blocks, and the first of
them logs its first block again. -/
def refill : List LogEvent :=
  [.beginOp 0, .beginOp 1, .beginOp 2] ++
    (List.range 30).map (fun k => .logWrite (k / 10) (BitVec.ofNat 32 (100 + k))) ++
    [.logWrite 0 100]

theorem log_panics_within_budget : ¬ ∀ (start : BlockNo) (es : List LogEvent) (s : LogSys),
      logMachine.exec (logInit start) es = some s →
      logMachine.Along WithinBudget (logInit start) es →
      s.panic ≠ some "too big a transaction" := by
  intro hall
  have h : (logMachine.exec (logInit 2) refill).map (fun s => s.panic) =
      some (some "too big a transaction") := by decide +kernel
  obtain ⟨s, hs, hp⟩ := map_eq_some_iff.mp h
  exact hall 2 refill s hs (by decide +kernel) hp

end Xv6
