import Xv6.Proc
import Xv6.FirstMin

/-! The selection loops of `scheduler`. Both the FCFS and the PBS body keep one
candidate while they walk the table; each is a first minimum for its own key. -/

namespace Xv6

open FirstMin List

/-- The number of tenths of its lifetime the process has slept, in `uint64`. -/
def niceness (p : Proc) : Int :=
  if u64 (p.pbsRtime + p.pbsStime) ≠ 0 then
    i32 ((u64 (p.pbsStime * 10) / u64 (p.pbsRtime + p.pbsStime) : Nat) : Int)
  else 5

def processDp (p : Proc) : Int :=
  let val := i32 (i32 (p.priority - niceness p) + 5)
  let val := if val > 100 then 100 else val
  if val < 0 then 0 else val

def fcfsVisit (proc : Nat → Proc) (b : Option Nat × Int) (i : Nat) : Option Nat × Int :=
  if (proc i).state = .runnable then
    match b.1 with
    | none => (some i, b.2)
    | some k => if (proc i).ctime < (proc k).ctime then (some i, b.2) else b
  else b

/-- One iteration of the PBS loop: the candidate and its cached `dp`. -/
def pbsVisit (proc : Nat → Proc) (b : Option Nat × Int) (i : Nat) : Option Nat × Int :=
  if (proc i).state ≠ .runnable then b
  else
    match b.1 with
    | none => (some i, processDp (proc i))
    | some k =>
      if b.2 > processDp (proc i) ∨ (b.2 = processDp (proc i) ∧ (proc i).ctime < (proc k).ctime) ∨
          (b.2 = processDp (proc i) ∧ (proc i).ctime = (proc k).ctime ∧
            (proc i).nrun < (proc k).nrun) then
        (some i, processDp (proc i))
      else b

def visit : Scheduler → (Nat → Proc) → Option Nat × Int → Nat → Option Nat × Int
  | .rr, _, b, _ => b
  | .fcfs, proc, b, i => fcfsVisit proc b i
  | .pbs, proc, b, i => pbsVisit proc b i

/-- A whole pass over a table of `n` slots that nobody else changes. -/
def pass (sched : Scheduler) (proc : Nat → Proc) (n : Nat) : Option Nat × Int :=
  (List.range n).foldl (visit sched proc) (none, 101)

def schedKey : Scheduler → Proc → ℤ ×ₗ ℕ ×ₗ ℤ
  | .pbs, p => toLex (processDp p, toLex (p.ctime, p.nrun))
  | _, p => toLex (0, toLex (p.ctime, 0))

def seenAt (i : Nat) (p : Proc) : List (Nat × Proc) :=
  if p.state = .runnable then [(i, p)] else []

/-- The loop variables `b` stand for the best of the processes seen so far. -/
def Tracks (sched : Scheduler) (proc : Nat → Proc) (b : Option Nat × Int)
    (best : Option (Nat × Proc)) : Prop :=
  b.1 = best.map Prod.fst ∧
    ∀ k p, best = some (k, p) → proc k = p ∧ (sched = .pbs → b.2 = processDp p)

def bestOf (sched : Scheduler) (seen : List (Nat × Proc)) : Option (Nat × Proc) :=
  firstMin (fun x => schedKey sched x.2) seen

theorem schedKey_fcfs_lt {p q : Proc} :
    schedKey .fcfs p < schedKey .fcfs q ↔ p.ctime < q.ctime := by
  simp [schedKey, Prod.Lex.toLex_lt_toLex]

theorem schedKey_pbs_lt {p q : Proc} : schedKey .pbs p < schedKey .pbs q ↔
      processDp p < processDp q ∨
      (processDp q = processDp p ∧ p.ctime < q.ctime) ∨
      (processDp q = processDp p ∧ p.ctime = q.ctime ∧ p.nrun < q.nrun) := by
  simp only [schedKey, Prod.Lex.toLex_lt_toLex]
  constructor
  · rintro (h | ⟨h, h' | ⟨h', h''⟩⟩)
    · exact .inl h
    · exact .inr (.inl ⟨h.symm, h'⟩)
    · exact .inr (.inr ⟨h.symm, h', h''⟩)
  · rintro (h | ⟨h, h'⟩ | ⟨h, h', h''⟩)
    · exact .inl h
    · exact .inr ⟨h.symm, .inl h'⟩
    · exact .inr ⟨h.symm, .inr ⟨h', h''⟩⟩

theorem fcfsVisit_tracks {proc : Nat → Proc} {b : Option Nat × Int} {seen : List (Nat × Proc)}
    (h : Tracks .fcfs proc b (bestOf .fcfs seen)) (i : Nat) :
    Tracks .fcfs proc (fcfsVisit proc b i) (bestOf .fcfs (seen ++ seenAt i (proc i))) := by
  by_cases hr : (proc i).state = .runnable
  · rw [seenAt, if_pos hr, bestOf, firstMin_snoc]
    change Tracks .fcfs proc _ (keep _ (bestOf .fcfs seen) _)
    cases hb : bestOf .fcfs seen with
    | none =>
      have h1 : b.1 = none := by simpa [hb] using h.1
      simp [fcfsVisit, hr, h1, keep, Tracks]
    | some x =>
      obtain ⟨k, p⟩ := x
      have h1 : b.1 = some k := by simpa [hb] using h.1
      have h2 := (h.2 k p hb).1
      by_cases hlt : (proc i).ctime < p.ctime
      · simp [fcfsVisit, hr, h1, h2, hlt, keep, schedKey_fcfs_lt, Tracks]
      · simp [fcfsVisit, hr, h1, h2, hlt, keep, schedKey_fcfs_lt, Tracks]
  · simpa [seenAt, hr, fcfsVisit] using h

theorem pbsVisit_tracks {proc : Nat → Proc} {b : Option Nat × Int} {seen : List (Nat × Proc)}
    (h : Tracks .pbs proc b (bestOf .pbs seen)) (i : Nat) :
    Tracks .pbs proc (pbsVisit proc b i) (bestOf .pbs (seen ++ seenAt i (proc i))) := by
  by_cases hr : (proc i).state = .runnable
  · rw [seenAt, if_pos hr, bestOf, firstMin_snoc]
    change Tracks .pbs proc _ (keep _ (bestOf .pbs seen) _)
    cases hb : bestOf .pbs seen with
    | none =>
      have h1 : b.1 = none := by simpa [hb] using h.1
      simp [pbsVisit, hr, h1, keep, Tracks]
    | some x =>
      obtain ⟨k, p⟩ := x
      have h1 : b.1 = some k := by simpa [hb] using h.1
      obtain ⟨h2, h3⟩ := h.2 k p hb
      have h3 := h3 rfl
      by_cases hlt : schedKey .pbs (proc i) < schedKey .pbs p
      · have hc := schedKey_pbs_lt.mp hlt
        simp [pbsVisit, hr, h1, h2, h3, hlt, hc, keep, Tracks]
      · have hc := fun hh => hlt (schedKey_pbs_lt.mpr hh)
        simp only [pbsVisit, hr, h1, h2, h3, hlt, keep, ne_eq, not_true_eq_false, if_false,
          gt_iff_lt, if_neg hc]
        exact ⟨by simp [h1], by simp [h2, h3]⟩
  · simpa [seenAt, hr, pbsVisit] using h

theorem visit_tracks {sched : Scheduler} (hs : sched ≠ .rr) {proc : Nat → Proc}
    {b : Option Nat × Int} {seen : List (Nat × Proc)}
    (h : Tracks sched proc b (bestOf sched seen)) (i : Nat) :
    Tracks sched proc (visit sched proc b i) (bestOf sched (seen ++ seenAt i (proc i))) := by
  cases sched with
  | rr => exact absurd rfl hs
  | fcfs => exact fcfsVisit_tracks h i
  | pbs => exact pbsVisit_tracks h i

theorem tracks_nil (sched : Scheduler) (proc : Nat → Proc) (dp : Int) :
    Tracks sched proc (none, dp) (bestOf sched []) := by
  simp [Tracks, bestOf]

def seenIn (proc : Nat → Proc) (n : Nat) : List (Nat × Proc) :=
  (List.range n).flatMap (fun i => seenAt i (proc i))

theorem mem_seenAt {i : Nat} {p : Proc} {x : Nat × Proc} :
    x ∈ seenAt i p ↔ x = (i, p) ∧ p.state = .runnable := by
  unfold seenAt
  split <;> simp_all

theorem mem_seenIn {proc : Nat → Proc} {n : Nat} {x : Nat × Proc} :
    x ∈ seenIn proc n ↔ x.1 < n ∧ x.2 = proc x.1 ∧ (proc x.1).state = .runnable := by
  simp only [seenIn, mem_flatMap, mem_range, mem_seenAt]
  constructor
  · rintro ⟨i, hi, rfl, hr⟩
    exact ⟨hi, rfl, hr⟩
  · rintro ⟨hi, he, hr⟩
    exact ⟨x.1, hi, Prod.ext rfl he, hr⟩

theorem seenIn_succ (proc : Nat → Proc) (n : Nat) :
    seenIn proc (n + 1) = seenIn proc n ++ seenAt n (proc n) := by
  simp [seenIn, range_succ, flatMap_append]

theorem seenIn_pairwise (proc : Nat → Proc) (n : Nat) :
    (seenIn proc n).Pairwise (fun x y => x.1 < y.1) := by
  induction n with
  | zero => simp [seenIn]
  | succ n ih =>
    rw [seenIn_succ, pairwise_append]
    refine ⟨ih, ?_, ?_⟩
    · unfold seenAt
      split <;> simp
    · intro x hx y hy
      rw [mem_seenIn] at hx
      rw [mem_seenAt] at hy
      simpa [hy.1] using hx.1

theorem pass_tracks {sched : Scheduler} (hs : sched ≠ .rr) (proc : Nat → Proc) (n : Nat) :
    Tracks sched proc (pass sched proc n) (bestOf sched (seenIn proc n)) := by
  induction n with
  | zero => exact tracks_nil sched proc 101
  | succ n ih =>
    have hp : pass sched proc (n + 1) = visit sched proc (pass sched proc n) n := by
      simp [pass, range_succ, foldl_append]
    rw [hp, seenIn_succ]
    exact visit_tracks hs ih n

theorem pass_eq_none_iff {sched : Scheduler} (hs : sched ≠ .rr) (proc : Nat → Proc) (n : Nat) :
    (pass sched proc n).1 = none ↔ ∀ i < n, (proc i).state ≠ .runnable := by
  rw [(pass_tracks hs proc n).1, Option.map_eq_none_iff, bestOf, firstMin_eq_none,
    eq_nil_iff_forall_not_mem]
  constructor
  · intro h i hi hr
    exact h (i, proc i) (mem_seenIn.mpr ⟨hi, rfl, hr⟩)
  · intro h x hx
    obtain ⟨hi, -, hr⟩ := mem_seenIn.mp hx
    exact h x.1 hi hr

theorem pass_eq_some_iff {sched : Scheduler} (hs : sched ≠ .rr) (proc : Nat → Proc) (n i : Nat) :
    (pass sched proc n).1 = some i ↔ i < n ∧ (proc i).state = .runnable ∧
      ∀ j < n, (proc j).state = .runnable → j ≠ i →
        toLex (schedKey sched (proc i), i) < toLex (schedKey sched (proc j), j) := by
  have hleast : ∀ k, (pass sched proc n).1 = some k → k < n ∧ (proc k).state = .runnable ∧
      ∀ j < n, (proc j).state = .runnable → j ≠ k →
        toLex (schedKey sched (proc k), k) < toLex (schedKey sched (proc j), j) := by
    intro k hk
    obtain ⟨h1, h2⟩ := pass_tracks hs proc n
    rw [h1, Option.map_eq_some_iff] at hk
    obtain ⟨⟨k', p⟩, hb, rfl⟩ := hk
    have hm := firstMin_isFirstMin hb
    obtain ⟨hi, he, hr⟩ := mem_seenIn.mp hm.mem
    obtain rfl : p = proc k' := he
    refine ⟨hi, hr, ?_⟩
    intro j hj hrj hne
    exact hm.lex_lt Prod.fst (x := (j, proc j)) (seenIn_pairwise proc n)
      (mem_seenIn.mpr ⟨hj, rfl, hrj⟩) hne
  constructor
  · exact hleast i
  · rintro ⟨hi, hr, hmin⟩
    cases hk : (pass sched proc n).1 with
    | none => exact absurd hr ((pass_eq_none_iff hs proc n).mp hk i hi)
    | some k =>
      obtain ⟨hkn, hkr, hkmin⟩ := hleast k hk
      by_contra hne
      have hki : k ≠ i := fun he => hne (by rw [he])
      exact lt_asymm (hmin k hkn hkr hki) (hkmin i hi hr (Ne.symm hki))

end Xv6
