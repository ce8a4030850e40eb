import Xv6.SlotHistory

/-! A scanning hart keeps its candidate locked, so the candidate does not
change under it; everything else may. The choice at the end of a pass is the
first minimum of what the hart saw at its visits. -/

namespace Xv6

open FirstMin Function Option

variable {cfg : Config} {s t : Kernel} {e : Event}

theorem setCpu_self {c : Nat} {x : Cpu} (h : s.cpu c = x) : s.setCpu c x = s.toControl := by
  simp [Control.setCpu, ← h]

theorem control_cases (h : step cfg s e = some t) :
    (t.cpu = s.cpu ∧ t.lock = s.lock ∧
      ∀ i a, target cfg s e = some (i, a) → s.lock i = none ∧ a.Passive) ∨
    (∃ c i a, s.cpu c = .run i ∧ s.lock i = none ∧ target cfg s e = some (i, a) ∧ a.Leaves ∧
      t.cpu = update s.cpu c (leave cfg.scheduler i) ∧ t.lock = s.lock) ∨
    ∃ c, e = .schedule c ∧ scheduleStep cfg s c = some (t.toControl, target cfg s e) := by
  have he := (step_eq_some h).1
  have hrun : ∀ {c act}, runningStep s c (leave cfg.scheduler) act =
      some (t.toControl, target cfg s e) → act.Leaves →
      ∃ c i a, s.cpu c = .run i ∧ s.lock i = none ∧ target cfg s e = some (i, a) ∧ a.Leaves ∧
        t.cpu = update s.cpu c (leave cfg.scheduler i) ∧ t.lock = s.lock := by
    intro c act hr ha
    obtain ⟨i, hc, hl, -, heq⟩ := runningStep_eq_some hr
    obtain ⟨ht, hx⟩ := Prod.mk.inj heq
    exact ⟨c, i, act, hc, hl, hx, ha, by rw [ht]; rfl, by rw [ht]; rfl⟩
  have hact : ∀ {ctl : Control} {j act}, (t.toControl, target cfg s e) = (ctl, some (j, act)) →
      ctl.cpu = s.cpu → ctl.lock = s.lock → s.lock j = none → act.Passive →
      t.cpu = s.cpu ∧ t.lock = s.lock ∧
        ∀ i a, target cfg s e = some (i, a) → s.lock i = none ∧ a.Passive := by
    intro ctl j act heq hc hl hj ha
    obtain ⟨ht, hx⟩ := Prod.mk.inj heq
    refine ⟨by rw [ht, hc], by rw [ht, hl], fun i a hi => ?_⟩
    obtain ⟨rfl, rfl⟩ : j = i ∧ act = a := by simpa [hx] using hi
    exact ⟨hj, ha⟩
  cases e with
  | timer =>
    simp only [effect] at he
    split at he
    · obtain ⟨ht, hx⟩ := Prod.mk.inj (some.inj he)
      exact .inl ⟨by rw [← ht], by rw [← ht], by simp [← hx]⟩
    · simp at he
  | clock =>
    rcases clockStep_cases he with ⟨k, _, _, hl, hr⟩ | ⟨k, _, _, hl, hr⟩ | ⟨clk, _, hr⟩
    · exact .inl (hact hr rfl rfl hl (by simp [SlotAct.Passive, SlotAct.Leaves]))
    · exact .inl (hact hr rfl rfl hl (by simp [SlotAct.Passive, SlotAct.Leaves]))
    · obtain ⟨ht, hx⟩ := Prod.mk.inj hr
      exact .inl ⟨by rw [ht], by rw [ht], by simp [hx]⟩
  | schedule c =>
    simp only [effect] at he
    split at he
    · exact .inr (.inr ⟨c, rfl, he⟩)
    · simp at he
  | yield c =>
    simp only [effect] at he
    split at he
    · exact .inr (.inl (hrun he trivial))
    · simp at he
  | sleep c chan => exact .inr (.inl (hrun he trivial))
  | kexit c status =>
    simp only [effect] at he
    split at he
    · simp at he
    · exact .inr (.inl (hrun he trivial))
  | setkilled c =>
    obtain ⟨i, hc, hl, -, hr⟩ := runningStep_eq_some he
    rw [setCpu_self hc] at hr
    exact .inl (hact hr rfl rfl hl (by simp [SlotAct.Passive, SlotAct.Leaves]))
  | allocpid j =>
    obtain ⟨ht, hx⟩ := Prod.mk.inj (allocpid_eq_some he).2
    exact .inl ⟨by rw [ht], by rw [ht], by simp [hx]⟩
  | allocproc j ok =>
    obtain ⟨pid, -, hl, -, hr⟩ := allocproc_eq_some he
    exact .inl (hact hr rfl rfl hl (by simp [SlotAct.Passive, SlotAct.Leaves]))
  | start j | kwait j | wakeup j chan | kkill j pid | setpriority j pid pr =>
    obtain ⟨-, hl, -, hr⟩ := slotStep_eq_some he
    exact .inl (hact hr rfl rfl hl (by simp [SlotAct.Passive, SlotAct.Leaves]))

theorem lock_of_no_schedule {es : List Event} (h : (kernel cfg).exec s es = some t)
    (hes : ∀ e ∈ es, ∀ c, e ≠ .schedule c) : t.lock = s.lock := by
  refine Machine.inv_along (m := kernel cfg) (R := fun _ e => ∀ c, e ≠ .schedule c)
    (I := fun u => u.lock = s.lock) ?_ h (Machine.along_of_forall (fun e he _ => hes e he)) rfl
  intro u e v hs hne hu
  rcases control_cases hs with ⟨-, hl, -⟩ | ⟨-, -, -, -, -, -, -, -, hl⟩ | ⟨c, hc, -⟩
  · rw [hl, hu]
  · rw [hl, hu]
  · exact absurd hc (hne c)

theorem target_lock (hst : step cfg s e = some t) {i : Nat} {a : SlotAct}
    (h : target cfg s e = some (i, a)) :
    s.lock i = none ∨ ∃ c k dp, e = .schedule c ∧ nproc ≤ k ∧ s.cpu c = .scan k (some i) dp := by
  rcases control_cases hst with ⟨-, -, hp⟩ | ⟨c, j, b, -, hl, hj, -⟩ | ⟨c, hc, hs⟩
  · exact .inl (hp i a h).1
  · obtain ⟨rfl, -⟩ : j = i ∧ b = a := by simpa [hj] using h
    exact .inl hl
  · rw [h] at hs
    rcases scheduleStep_cases hs with ⟨-, hr⟩ | ⟨k, dp, -, -, hr⟩ | ⟨k, j, dp, hj, hk, hr⟩ |
      ⟨k, b, dp, -, -, hl, -, -, hr⟩ | ⟨k, b, dp, -, -, -, -, -, hr⟩ |
      ⟨k, b, dp, -, -, -, -, hr⟩ <;>
      simp only [Prod.mk.injEq, some.injEq, reduceCtorEq, and_false] at hr
    · exact .inr ⟨c, k, dp, hc, hk, by rw [hr.2.1]; exact hj⟩
    · exact .inl (by rw [hr.2.1]; exact hl)

def CandidateLocked (s : Kernel) : Prop :=
  ∀ c k i dp, s.cpu c = .scan k (some i) dp → s.lock i = some c

theorem visit_cases (sched : Scheduler) (proc : Nat → Proc) (b : Option Nat × Int) (k : Nat) :
    (visit sched proc b k).1 = b.1 ∨
      ((visit sched proc b k).1 = some k ∧ (proc k).state = .runnable) := by
  cases sched with
  | rr => exact .inl rfl
  | fcfs =>
    simp only [visit, fcfsVisit]
    split
    · rename_i hr
      split
      · exact .inr ⟨rfl, hr⟩
      · split
        · exact .inr ⟨rfl, hr⟩
        · exact .inl rfl
    · exact .inl rfl
  | pbs =>
    simp only [visit, pbsVisit]
    split
    · exact .inl rfl
    · rename_i hr
      have hr := not_not.mp hr
      split
      · exact .inr ⟨rfl, hr⟩
      · split
        · exact .inr ⟨rfl, hr⟩
        · exact .inl rfl

theorem leave_ne_candidate (sched : Scheduler) (i k j : Nat) (dp : Int) :
    leave sched i ≠ .scan k (some j) dp := by
  cases sched <;> simp [leave]

theorem relock_of_ne {c c' i : Nat} {old new : Option Nat} {lock : Nat → Option Nat}
    (hi : lock i = some c') (hn : new ≠ some i) (ho : old ≠ some i) :
    relock c old new lock i = some c' := by
  simp [relock, hn, ho, hi]

theorem schedule_lock_cases {c : Nat} {ctl : Control} {x : Option (Nat × SlotAct)}
    (h : scheduleStep cfg s c = some (ctl, x)) :
    (∀ c', c' ≠ c → ctl.cpu c' = s.cpu c') ∧
    ((ctl.lock = s.lock ∧ ∀ k i dp, ctl.cpu c ≠ .scan k (some i) dp) ∨
      (∃ k j dp, s.cpu c = .scan k (some j) dp ∧ ctl.lock = update s.lock j none ∧
        ctl.cpu c = .run j) ∨
      ∃ k best dp new dp', s.cpu c = .scan k best dp ∧ s.lock k = none ∧
        ctl.lock = relock c best new s.lock ∧ ctl.cpu c = .scan (k + 1) new dp' ∧
        (new = best ∨ (new = some k ∧ (s.proc k).state = .runnable))) := by
  rcases scheduleStep_cases h with ⟨-, hr⟩ | ⟨k, dp, -, -, hr⟩ | ⟨k, j, dp, hc, hk, hr⟩ |
    ⟨k, b, dp, -, -, hl, -, -, hr⟩ | ⟨k, b, dp, -, -, -, -, -, hr⟩ |
    ⟨k, b, dp, hc, -, hl, -, hr⟩ <;>
    (have ht := (Prod.mk.inj hr).1
     subst ht
     refine ⟨fun c' hne => by simp [Control.setCpu, hne], ?_⟩)
  · exact .inl ⟨rfl, by simp [Control.setCpu]⟩
  · exact .inl ⟨rfl, by simp [Control.setCpu]⟩
  · exact .inr (.inl ⟨k, j, dp, hc, rfl, by simp [Control.setCpu]⟩)
  · exact .inl ⟨rfl, by simp [Control.setCpu]⟩
  · exact .inl ⟨rfl, by simp [Control.setCpu]⟩
  · exact .inr (.inr ⟨k, b, dp, _, (visit cfg.scheduler s.proc (b, dp) k).2, hc, hl, rfl,
      by simp [Control.setCpu], visit_cases cfg.scheduler s.proc (b, dp) k⟩)

theorem step_candidateLocked (h : step cfg s e = some t) (hinv : CandidateLocked s) :
    CandidateLocked t := by
  intro c' k' i' dp' hc'
  rcases control_cases h with ⟨hcpu, hlock, -⟩ | ⟨c, i, -, -, -, -, -, hcpu, hlock⟩ | ⟨c, -, hs⟩
  · rw [hcpu] at hc'
    rw [hlock]
    exact hinv c' k' i' dp' hc'
  · rw [hcpu] at hc'
    rw [hlock]
    rw [update_apply] at hc'
    split_ifs at hc' with he
    · subst he
      exact absurd hc' (leave_ne_candidate _ _ _ _ _)
    · exact hinv c' k' i' dp' hc'
  · obtain ⟨hother, hcase⟩ := schedule_lock_cases hs
    by_cases he : c' = c
    · subst he
      rcases hcase with ⟨-, hn⟩ | ⟨k, j, dp, -, -, hr⟩ | ⟨k, best, dp, new, d, -, -, hl, hr, -⟩
      · exact absurd hc' (hn k' i' dp')
      · simp [hc'] at hr
      · obtain ⟨-, rfl, -⟩ : k' = k + 1 ∧ some i' = new ∧ dp' = d := by simpa [hc'] using hr
        rw [hl]
        simp [relock]
    · have hi := hinv c' k' i' dp' (by rw [← hother c' he]; exact hc')
      rcases hcase with ⟨hl, -⟩ | ⟨k, j, dp, hj, hl, -⟩ | ⟨k, best, dp, new, d, hb, hk, hl, -, hn⟩
      · rw [hl]
        exact hi
      · -- the slot given up was held by `c`, the other candidate is held by `c'`
        have hne : i' ≠ j := by
          rintro rfl
          have hh := hinv c k i' dp hj
          rw [hi] at hh
          exact he (some.inj hh)
        rw [hl, update_of_ne hne]
        exact hi
      · have hbest : best ≠ some i' := by
          rintro rfl
          have hh := hinv c k i' dp hb
          rw [hi] at hh
          exact he (some.inj hh)
        have hvis : k ≠ i' := by
          rintro rfl
          simp [hi] at hk
        have hnew : new ≠ some i' := by
          rcases hn with rfl | ⟨rfl, -⟩
          · exact hbest
          · simpa using hvis
        rw [hl]
        exact relock_of_ne hi hnew hbest

theorem candidateLocked_boot : CandidateLocked boot := by
  intro c k i dp hc
  simp [boot] at hc

theorem candidateLocked_of_reachable {es : List Event}
    (h : (kernel cfg).exec boot es = some s) : CandidateLocked s :=
  Machine.inv_exec (m := kernel cfg) (fun _ _ _ hs hi => step_candidateLocked hs hi) h
    candidateLocked_boot

theorem candidate_frozen (h : step cfg s e = some t) (hinv : CandidateLocked s) {c k i : Nat}
    {dp : Int} (hc : s.cpu c = .scan k (some i) dp)
    (hscan : ∃ k' best' dp', t.cpu c = .scan k' best' dp') : t.proc i = s.proc i := by
  rcases step_slot h i with ⟨-, hp⟩ | ⟨a, ha, -, -⟩
  · exact hp
  · exfalso
    have hl := hinv c k i dp hc
    rcases target_lock h ha with hn | ⟨c', k', dp', rfl, hk', hc'⟩
    · simp [hl] at hn
    · have hl' := hinv c' k' i dp' hc'
      obtain rfl : c = c' := by
        rw [hl] at hl'
        exact some.inj hl'
      obtain ⟨k'', best', d, ht⟩ := hscan
      have he := (step_eq_some h).1
      simp only [effect] at he
      split at he
      · simp only [scheduleStep, hc', hk', if_true, some.injEq, Prod.mk.injEq] at he
        rw [← he.1] at ht
        simp [Control.setCpu] at ht
      · simp at he

def Scanning (s : Kernel) (c : Nat) : Prop := ∃ k best dp, s.cpu c = .scan k best dp

/-- What hart `c` has seen, and that it saw slot `p` while `φ` held of it. -/
structure ScanInv (cfg : Config) (c p : Nat) (φ : Proc → Prop) (s : Kernel)
    (seen : List (Nat × Proc)) (k : Nat) (best : Option Nat) (dp : Int) : Prop where
  cpu : s.cpu c = .scan k best dp
  tracks : Tracks cfg.scheduler s.proc (best, dp) (bestOf cfg.scheduler seen)
  sorted : seen.Pairwise (fun x y => x.1 < y.1)
  below : ∀ x ∈ seen, x.1 < k
  found : p < k → ∃ q, (p, q) ∈ seen ∧ φ q

theorem ScanInv.start (cfg : Config) {c : Nat} (p : Nat) (φ : Proc → Prop) {s : Kernel}
    (h : s.cpu c = .scan 0 none 101) : ScanInv cfg c p φ s [] 0 none 101 where
  cpu := h
  tracks := tracks_nil cfg.scheduler s.proc 101
  sorted := List.Pairwise.nil
  below := by simp
  found := by omega

theorem ScanInv.other {c p : Nat} {φ : Proc → Prop} {seen : List (Nat × Proc)} {k : Nat}
    {best : Option Nat} {dp : Int} (h : ScanInv cfg c p φ s seen k best dp)
    (hst : step cfg s e = some t) (hl : CandidateLocked s) (hc : t.cpu c = s.cpu c) :
    ScanInv cfg c p φ t seen k best dp where
  cpu := by rw [hc]; exact h.cpu
  tracks := by
    refine ⟨h.tracks.1, fun i q hb => ?_⟩
    obtain ⟨hq, hdp⟩ := h.tracks.2 i q hb
    have hi : best = some i := by simpa [hb] using h.tracks.1
    have hcpu := h.cpu
    rw [hi] at hcpu
    rw [candidate_frozen hst hl hcpu ⟨k, some i, dp, by rw [hc]; exact hcpu⟩]
    exact ⟨hq, hdp⟩
  sorted := h.sorted
  below := h.below
  found := h.found

theorem ScanInv.visit {c p : Nat} {φ : Proc → Prop} {seen : List (Nat × Proc)} {k : Nat}
    {best : Option Nat} {dp : Int} (h : ScanInv cfg c p φ s seen k best dp)
    (hs : cfg.scheduler ≠ .rr) (hp : t.proc = s.proc)
    (hc : t.cpu c = .scan (k + 1) (visit cfg.scheduler s.proc (best, dp) k).1
      (Xv6.visit cfg.scheduler s.proc (best, dp) k).2)
    (hrun : (s.proc p).state = .runnable) (hφ : φ (s.proc p)) :
    ScanInv cfg c p φ t (seen ++ seenAt k (s.proc k)) (k + 1)
      (Xv6.visit cfg.scheduler s.proc (best, dp) k).1
      (Xv6.visit cfg.scheduler s.proc (best, dp) k).2 where
  cpu := hc
  tracks := by
    rw [hp]
    exact visit_tracks hs h.tracks k
  sorted := by
    rw [List.pairwise_append]
    refine ⟨h.sorted, ?_, ?_⟩
    · unfold seenAt
      split <;> simp
    · intro x hx y hy
      rw [(mem_seenAt.mp hy).1]
      exact h.below x hx
  below := by
    intro x hx
    rcases List.mem_append.mp hx with hx | hx
    · exact Nat.lt_succ_of_lt (h.below x hx)
    · rw [(mem_seenAt.mp hx).1]
      exact Nat.lt_succ_self k
  found := by
    intro hpk
    by_cases hk : p < k
    · obtain ⟨q, hq, hh⟩ := h.found hk
      exact ⟨q, List.mem_append_left _ hq, hh⟩
    · obtain rfl : p = k := by omega
      exact ⟨s.proc p, List.mem_append_right _ (mem_seenAt.mpr ⟨rfl, hrun⟩), hφ⟩

theorem step_scanInv (hs : cfg.scheduler ≠ .rr) {c p : Nat} {φ : Proc → Prop}
    (hst : step cfg s e = some t) (hl : CandidateLocked s) (hscan : Scanning t c)
    (hrun : (s.proc p).state = .runnable) (hφ : φ (s.proc p))
    (h : ∃ seen k best dp, ScanInv cfg c p φ s seen k best dp) :
    ∃ seen k best dp, ScanInv cfg c p φ t seen k best dp := by
  obtain ⟨seen, k, best, dp, h⟩ := h
  by_cases hc : t.cpu c = s.cpu c
  · exact ⟨seen, k, best, dp, h.other hst hl hc⟩
  · obtain ⟨k', best', dp', ht⟩ := hscan
    rcases control_cases hst with ⟨hcpu, -⟩ | ⟨c', i, -, hc', -, -, -, hcpu, -⟩ | ⟨c', -, hsc⟩
    · exact absurd (by rw [hcpu]) hc
    · by_cases he : c = c'
      · subst he
        simp [h.cpu] at hc'
      · exact absurd (by rw [hcpu, update_of_ne he]) hc
    · by_cases he : c = c'
      · subst he
        rcases scheduleStep_cases hsc with ⟨hi, -⟩ | ⟨k₁, dp₁, -, -, hr⟩ |
          ⟨k₁, j, dp₁, -, -, hr⟩ | ⟨k₁, b, dp₁, -, -, -, hrr, -⟩ | ⟨k₁, b, dp₁, -, -, -, hrr, -⟩ |
          ⟨k₁, b, dp₁, hi, -, -, -, hr⟩
        · simp [h.cpu] at hi
        · rw [(Prod.mk.inj hr).1] at ht
          simp [Control.setCpu] at ht
        · rw [(Prod.mk.inj hr).1] at ht
          simp [Control.setCpu] at ht
        · exact absurd hrr hs
        · exact absurd hrr hs
        · obtain ⟨rfl, rfl, rfl⟩ : k = k₁ ∧ best = b ∧ dp = dp₁ := by simpa [h.cpu] using hi
          have hp : t.proc = s.proc := by
            rw [(step_eq_some hst).2, (Prod.mk.inj hr).2]
            rfl
          refine ⟨_, _, _, _, h.visit hs hp ?_ hrun hφ⟩
          rw [(Prod.mk.inj hr).1]
          simp [Control.setCpu]
      · exact absurd ((schedule_lock_cases hsc).1 c he) hc

/-- One pass of hart `c`: it leaves the top of its loop in `s`, the events `es`
follow, by everybody, and in `v` it has walked the whole table and is about to
switch to `q`. All the while it stays in the scan and `φ` holds of slot `p`. -/
structure Pass (cfg : Config) (c p : Nat) (φ : Proc → Prop) (s v : Kernel) (es : List Event)
    (q : Nat) : Prop where
  top : s.cpu c = .idle
  run : (kernel cfg).exec s (.schedule c :: es) = some v
  during : ∀ u, step cfg s (.schedule c) = some u →
    (kernel cfg).Always (fun u => Scanning u c ∧ φ (u.proc p)) u es
  choice : ∃ dp, v.cpu c = .scan nproc (some q) dp

theorem Pass.strengthen {c p q : Nat} {φ ψ χ : Proc → Prop} {s v : Kernel} {es : List Event}
    (h : Pass cfg c p φ s v es q)
    (hψ : ∀ u, step cfg s (.schedule c) = some u →
      (kernel cfg).Always (fun u => ψ (u.proc p)) u es)
    (hχ : ∀ x, φ x → ψ x → χ x) : Pass cfg c p χ s v es q where
  top := h.top
  run := h.run
  during := fun u hu =>
    ((h.during u hu).and (hψ u hu)).mono (fun _ hh => ⟨hh.1.1, hχ _ hh.1.2 hh.2⟩)
  choice := h.choice

theorem Pass.choice_first (hs : cfg.scheduler ≠ .rr) {c p q : Nat} {φ : Proc → Prop}
    {v : Kernel} {es : List Event} (hl : CandidateLocked s)
    (hφ : ∀ x, φ x → x.state = .runnable) (hp : p < nproc) (h : Pass cfg c p φ s v es q) :
    (p = q ∧ φ (v.proc q)) ∨ ∃ x, φ x ∧
      toLex (schedKey cfg.scheduler (v.proc q), q) < toLex (schedKey cfg.scheduler x, p) := by
  obtain ⟨u, hu, hv⟩ := Machine.exec_cons.mp h.run
  have hlu : CandidateLocked u := step_candidateLocked hu hl
  have hcpu : u.cpu c = .scan 0 none 101 := by
    have he := (step_eq_some hu).1
    simp only [effect] at he
    split at he
    · simp only [scheduleStep, h.top, some.injEq, Prod.mk.injEq] at he
      rw [← he.1]
      simp [Control.setCpu]
    · simp at he
  have hinv : CandidateLocked v ∧ ∃ seen k best dp, ScanInv cfg c p φ v seen k best dp := by
    refine ((h.during u hu).inv (I := fun w =>
      CandidateLocked w ∧ ∃ seen k best dp, ScanInv cfg c p φ w seen k best dp) ?_
      ⟨hlu, [], 0, none, 101, ScanInv.start cfg p φ hcpu⟩).last hv
    rintro w e x hst ⟨-, hw⟩ ⟨hx, -⟩ ⟨hlw, hiw⟩
    exact ⟨step_candidateLocked hst hlw, step_scanInv hs hst hlw hx (hφ _ hw) hw hiw⟩
  obtain ⟨-, seen, k, best, dp, hi⟩ := hinv
  obtain ⟨dp', hc⟩ := h.choice
  obtain ⟨rfl, rfl, rfl⟩ : k = nproc ∧ best = some q ∧ dp = dp' := by simpa [hi.cpu] using hc
  obtain ⟨x, hx, hφx⟩ := hi.found hp
  obtain ⟨⟨q', y⟩, hb, hq⟩ := map_eq_some_iff.mp hi.tracks.1.symm
  obtain rfl : q' = q := hq
  have hm := firstMin_isFirstMin hb
  obtain ⟨hvq, -⟩ := hi.tracks.2 q' y hb
  by_cases hpq : p = q'
  · subst hpq
    exact .inl ⟨rfl, ((h.during u hu).last hv).2⟩
  · refine .inr ⟨x, hφx, ?_⟩
    rw [hvq]
    exact hm.lex_lt Prod.fst (x := (p, x)) hi.sorted hx hpq

end Xv6
