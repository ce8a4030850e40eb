import Xv6.ScanLock

/-! Round robin on one hart. The table may change in any way between the steps of
the hart; its walk still visits the slots in cyclic order and takes every process
that it finds runnable. -/

namespace Xv6

open Function List

/-- A step of the kernel, or some other change of the process table. -/
inductive TableEvent where
  | event (e : Event)
  | change (proc : Nat → Proc)

def tableStep (cfg : Config) (s : Kernel) : TableEvent → Option Kernel
  | .event e => step cfg s e
  | .change proc => some { s with proc := proc }

abbrev openKernel (cfg : Config) : Machine Kernel TableEvent := ⟨tableStep cfg⟩

def Dispatches (cfg : Config) (c : Nat) (s : Kernel) (e : TableEvent) (i : Nat) : Prop :=
  e = .event (.schedule c) ∧ target cfg s (.schedule c) = some (i, .dispatch)

/-- The slot that hart `c` looks at, and whether its process is runnable. -/
def visitOf (c : Nat) (s : Kernel) : TableEvent → Option (Nat × Bool)
  | .event (.schedule d) =>
    if d = c then
      match s.cpu c with
      | .scan k _ _ => if k < nproc then some (k, decide ((s.proc k).state = .runnable)) else none
      | _ => none
    else none
  | _ => none

def visits (cfg : Config) (c : Nat) : Kernel → List TableEvent → List (Nat × Bool)
  | _, [] => []
  | s, e :: es =>
    match tableStep cfg s e with
    | none => []
    | some t => (visitOf c s e).toList ++ visits cfg c t es

def Cpu.nextSlot : Cpu → Nat
  | .idle => 0
  | .scan k _ _ => k % nproc
  | .run i => (i + 1) % nproc

def Cpu.Walks : Cpu → Prop
  | .idle => True
  | .scan k best _ => k ≤ nproc ∧ best = none
  | .run i => i < nproc

section Walk

variable {cfg : Config} {s t u : Kernel} {e : TableEvent} {es : List TableEvent} {c i j k : Nat}

theorem leave_rr (i : Nat) : leave .rr i = .scan (i + 1) none 101 := rfl

theorem setCpu_of_ne {x : Cpu} {d : Nat} (hd : c ≠ d) : (s.setCpu d x).cpu c = s.cpu c :=
  update_of_ne hd _ _

theorem scheduleStep_cpu {d : Nat} {r : Effect} (h : scheduleStep cfg s d = some r)
    (hd : c ≠ d) : r.1.cpu c = s.cpu c := by
  rcases scheduleStep_cases h with ⟨-, rfl⟩ | ⟨k, dp, -, -, rfl⟩ | ⟨k, i, dp, -, -, rfl⟩ |
    ⟨k, best, dp, -, -, -, -, -, rfl⟩ | ⟨k, best, dp, -, -, -, -, -, rfl⟩ |
    ⟨k, best, dp, -, -, -, -, rfl⟩
  · exact setCpu_of_ne hd
  · exact setCpu_of_ne hd
  · exact setCpu_of_ne hd
  · exact setCpu_of_ne hd
  · exact setCpu_of_ne hd
  · exact setCpu_of_ne hd

theorem visitOf_other (h : e ≠ .event (.schedule c)) : visitOf c s e = none := by
  cases e with
  | change proc => rfl
  | event e =>
    cases e with
    | schedule d =>
      have hd : d ≠ c := fun he => h (by rw [he])
      exact if_neg hd
    | _ => rfl

theorem visitOf_scan {best : Option Nat} {dp : Int} (hc : s.cpu c = .scan k best dp)
    (hk : k < nproc) : visitOf c s (.event (.schedule c)) =
      some (k, decide ((s.proc k).state = .runnable)) := by
  simp only [visitOf, if_true, hc, hk]

theorem walk_other (hrr : cfg.scheduler = .rr) (h : tableStep cfg s e = some t)
    (hw : (s.cpu c).Walks) (he : e ≠ .event (.schedule c)) :
    (t.cpu c).Walks ∧ (t.cpu c).nextSlot = (s.cpu c).nextSlot := by
  have hsame : t.cpu c = s.cpu c → (t.cpu c).Walks ∧ (t.cpu c).nextSlot = (s.cpu c).nextSlot := by
    intro hc
    rw [hc]
    exact ⟨hw, rfl⟩
  cases e with
  | change proc =>
    obtain rfl : { s with proc := proc } = t := Option.some.inj h
    exact hsame rfl
  | event e =>
    rcases control_cases h with ⟨hcpu, -, -⟩ | ⟨d, i, a, hd, -, -, -, hcpu, -⟩ | ⟨d, rfl, hs⟩
    · exact hsame (by rw [hcpu])
    · by_cases hcd : c = d
      · rw [← hcd] at hd
        rw [hcpu, ← hcd, update_self, hrr, leave_rr, hd]
        rw [hd] at hw
        exact ⟨⟨hw, rfl⟩, rfl⟩
      · exact hsame (by rw [hcpu, update_of_ne hcd])
    · have hcd : c ≠ d := fun hcd => he (by rw [hcd])
      exact hsame (scheduleStep_cpu hs hcd)

theorem walk_cases (hrr : cfg.scheduler = .rr) (h : tableStep cfg s e = some t)
    (hw : (s.cpu c).Walks) : (t.cpu c).Walks ∧
    ((visitOf c s e = none ∧ (t.cpu c).nextSlot = (s.cpu c).nextSlot ∧
        ∀ i, ¬ Dispatches cfg c s e i) ∨
      ∃ k, k < nproc ∧ (s.cpu c).nextSlot = k ∧ (t.cpu c).nextSlot = (k + 1) % nproc ∧
        visitOf c s e = some (k, decide ((s.proc k).state = .runnable)) ∧
        ∀ i, Dispatches cfg c s e i ↔ i = k ∧ (s.proc k).state = .runnable) := by
  by_cases he : e = .event (.schedule c)
  · subst he
    obtain ⟨hstep, -⟩ := step_eq_some h
    have hsched : scheduleStep cfg s c = some (t.toControl, target cfg s (.schedule c)) := by
      simp only [effect] at hstep
      split at hstep
      · exact hstep
      · simp at hstep
    have hset : ∀ {x : Cpu}, t.toControl = s.setCpu c x → t.cpu c = x := by
      intro x ht
      rw [ht]
      exact update_self _ _ _
    have hnone : target cfg s (.schedule c) = none →
        ∀ i, ¬ Dispatches cfg c s (.event (.schedule c)) i := by
      rintro ht i ⟨-, hi⟩
      rw [ht] at hi
      simp at hi
    rcases scheduleStep_cases hsched with ⟨hc, hr⟩ | ⟨k, dp, hc, hk, hr⟩ | ⟨k, i, dp, hc, -, -⟩ |
      ⟨k, best, dp, hc, hk, -, -, hrun, hr⟩ | ⟨k, best, dp, hc, hk, -, -, hrun, hr⟩ |
      ⟨k, best, dp, -, -, -, hne, -⟩
    · obtain ⟨ht, htarget⟩ := Prod.mk.inj hr
      rw [hset ht, hc]
      refine ⟨⟨Nat.zero_le _, rfl⟩, .inl ⟨?_, rfl, hnone htarget⟩⟩
      simp only [visitOf, if_true, hc]
    · obtain ⟨ht, htarget⟩ := Prod.mk.inj hr
      rw [hc] at hw
      have hend : k = nproc := le_antisymm hw.1 hk
      rw [hset ht, hc]
      refine ⟨trivial, .inl ⟨?_, ?_, hnone htarget⟩⟩
      · simp only [visitOf, if_true, hc, hend, lt_irrefl, if_false]
      · rw [Cpu.nextSlot, Cpu.nextSlot, hend, Nat.mod_self]
    · rw [hc] at hw
      simp [Cpu.Walks] at hw
    · obtain ⟨ht, htarget⟩ := Prod.mk.inj hr
      rw [hset ht]
      refine ⟨hk, .inr ⟨k, hk, ?_, rfl, visitOf_scan hc hk, fun i => ?_⟩⟩
      · rw [hc]
        exact Nat.mod_eq_of_lt hk
      · rw [Dispatches, htarget]
        simp [hrun, eq_comm]
    · obtain ⟨ht, htarget⟩ := Prod.mk.inj hr
      rw [hset ht]
      refine ⟨⟨hk, rfl⟩, .inr ⟨k, hk, ?_, rfl, visitOf_scan hc hk, fun i => ?_⟩⟩
      · rw [hc]
        exact Nat.mod_eq_of_lt hk
      · refine iff_of_false (hnone htarget i) ?_
        rintro ⟨-, hr⟩
        exact hrun hr
    · exact absurd hrr hne
  · obtain ⟨hwalks, hnext⟩ := walk_other hrr h hw he
    exact ⟨hwalks, .inl ⟨visitOf_other he, hnext, fun i hi => he hi.1⟩⟩

theorem visits_cons (h : tableStep cfg s e = some t) :
    visits cfg c s (e :: es) = (visitOf c s e).toList ++ visits cfg c t es := by
  rw [visits, h]

theorem visits_cyclic (hrr : cfg.scheduler = .rr) (hrun : (openKernel cfg).exec s es = some t)
    (hw : (s.cpu c).Walks) : (t.cpu c).Walks ∧
    (t.cpu c).nextSlot = ((s.cpu c).nextSlot + (visits cfg c s es).length) % nproc ∧
    (visits cfg c s es).map Prod.fst = (List.range (visits cfg c s es).length).map
      (fun m => ((s.cpu c).nextSlot + m) % nproc) := by
  induction es generalizing s with
  | nil =>
    obtain rfl : s = t := Option.some.inj hrun
    refine ⟨hw, ?_, rfl⟩
    have hlt : (s.cpu c).nextSlot < nproc := by
      cases s.cpu c with
      | idle => exact Nat.zero_lt_succ 63
      | scan k best dp => exact Nat.mod_lt k (by decide)
      | run i => exact Nat.mod_lt (i + 1) (by decide)
    rw [visits, length_nil, Nat.add_zero, Nat.mod_eq_of_lt hlt]
  | cons e es ih =>
    obtain ⟨r, hs, hr⟩ := Machine.exec_cons.mp hrun
    obtain ⟨hwr, hcases⟩ := walk_cases hrr hs hw
    obtain ⟨hwt, hnext, hmap⟩ := ih hr hwr
    refine ⟨hwt, ?_⟩
    rw [visits_cons hs]
    rcases hcases with ⟨hv, hsame, -⟩ | ⟨k, hk, hslot, hsucc, hv, -⟩
    · rw [hv, Option.toList_none, nil_append, ← hsame]
      exact ⟨hnext, hmap⟩
    · have hshift : ∀ m, ((k + 1) % nproc + m) % nproc = (k + (m + 1)) % nproc := by
        intro m
        rw [Nat.mod_add_mod, Nat.add_assoc, Nat.add_comm 1]
      rw [hv, Option.toList_some, singleton_append, length_cons, hslot]
      rw [hsucc, hshift] at hnext
      refine ⟨hnext, ?_⟩
      rw [range_succ_eq_map, map_cons, map_cons, map_map, hmap, hsucc]
      congr 1
      · exact (Nat.mod_eq_of_lt hk).symm
      · exact map_congr_left (fun m _ => hshift m)

theorem visits_idle (hrr : cfg.scheduler = .rr) (hrun : (openKernel cfg).exec s es = some t)
    (hw : (s.cpu c).Walks)
    (hno : (openKernel cfg).Along (fun s e => ∀ i, ¬ Dispatches cfg c s e i) s es) :
    ∀ x ∈ visits cfg c s es, x.2 = false := by
  induction es generalizing s with
  | nil => simp [visits]
  | cons e es ih =>
    obtain ⟨r, hs, hr⟩ := Machine.exec_cons.mp hrun
    obtain ⟨hwr, hcases⟩ := walk_cases hrr hs hw
    intro x hx
    rw [visits_cons hs, mem_append] at hx
    rcases hx with hx | hx
    · rcases hcases with ⟨hv, -, -⟩ | ⟨k, -, -, -, hv, hd⟩
      · simp [hv] at hx
      · have hidle : (s.proc k).state ≠ .runnable := fun hk => hno.1 k ((hd k).mpr ⟨rfl, hk⟩)
        rw [hv, Option.toList_some, mem_singleton] at hx
        rw [hx]
        exact decide_eq_false hidle
    · exact ih hr hwr (hno.2 r hs) x hx

theorem exists_of_mem_visits {b : Bool} (hx : (k, b) ∈ visits cfg c s es) :
    ∃ fs f gs w, es = fs ++ f :: gs ∧ (openKernel cfg).exec s fs = some w ∧
      visitOf c w f = some (k, b) ∧ (tableStep cfg w f).isSome := by
  induction es generalizing s with
  | nil => simp [visits] at hx
  | cons e es ih =>
    cases hs : tableStep cfg s e with
    | none =>
      rw [visits, hs] at hx
      simp at hx
    | some t =>
      rw [visits_cons hs, mem_append] at hx
      rcases hx with hx | hx
      · refine ⟨[], e, es, s, rfl, rfl, ?_, by rw [hs]; rfl⟩
        exact Option.mem_toList.mp hx
      · obtain ⟨fs, f, gs, w, rfl, hw, hv, hf⟩ := ih hx
        refine ⟨e :: fs, f, gs, w, rfl, ?_, hv, hf⟩
        exact Machine.exec_cons.mpr ⟨t, hs, hw⟩

theorem walks_of_run (hrr : cfg.scheduler = .rr) (hrun : (openKernel cfg).exec boot es = some s)
    (c : Nat) : (s.cpu c).Walks :=
  (visits_cyclic hrr hrun (c := c) trivial).1

theorem after_dispatch (hrr : cfg.scheduler = .rr) (hw : (s.cpu c).Walks)
    (hs : tableStep cfg s e = some t) (hd : Dispatches cfg c s e i) :
    i < nproc ∧ (s.cpu c).nextSlot = i ∧ (t.cpu c).Walks ∧
      (t.cpu c).nextSlot = (i + 1) % nproc ∧ (t.proc i).state = .running := by
  obtain ⟨hwt, ⟨-, -, hno⟩ | ⟨k, hk, hslot, hsucc, -, hdk⟩⟩ := walk_cases hrr hs hw
  · exact absurd hd (hno i)
  · obtain ⟨rfl, -⟩ := (hdk i).mp hd
    refine ⟨hk, hslot, hwt, hsucc, ?_⟩
    obtain ⟨rfl, htarget⟩ := hd
    rw [(step_eq_some hs).2, htarget, actOn, update_self, SlotAct.apply, hrr]
    rfl

end Walk

/-- Between two dispatches of `i` by a hart, the hart also dispatches every `j` that
is runnable from the first of them on until it is dispatched. -/
theorem rr_no_bypass (cfg : Config) (hrr : cfg.scheduler = .rr) (pre : List TableEvent)
    (s : Kernel) (hpre : (openKernel cfg).exec boot pre = some s) (c i : Nat) (e : TableEvent)
    (t : Kernel) (hfirst : tableStep cfg s e = some t ∧ Dispatches cfg c s e i)
    (es : List TableEvent) (u : Kernel) (hrun : (openKernel cfg).exec t es = some u) :
    (∀ e' u', tableStep cfg u e' = some u' → Dispatches cfg c u e' i → ∀ j < nproc,
      (∀ fs gs w, es = fs ++ gs → (openKernel cfg).exec t fs = some w →
        (openKernel cfg).Along (fun s e => ¬ Dispatches cfg c s e j) t fs →
        (w.proc j).state = .runnable) →
      ∃ fs f gs w, es = fs ++ f :: gs ∧ (openKernel cfg).exec t fs = some w ∧
        Dispatches cfg c w f j) ∧
    (∀ e' u' k, tableStep cfg u e' = some u' → Dispatches cfg c u e' k →
      (openKernel cfg).Along (fun s e => ∀ i, ¬ Dispatches cfg c s e i) t es →
      ∃ n, visits cfg c t es = (List.range n).map (fun m => ((i + 1 + m) % nproc, false)) ∧
        k = (i + 1 + n) % nproc) := by
  have hws := walks_of_run hrr hpre c
  obtain ⟨hi, -, hwt, hnext, hrunning⟩ := after_dispatch hrr hws hfirst.1 hfirst.2
  obtain ⟨hwu, hlast, hmap⟩ := visits_cyclic hrr hrun hwt
  have hshift : ∀ m, ((i + 1) % nproc + m) % nproc = (i + 1 + m) % nproc := fun m =>
    Nat.mod_add_mod _ _ _
  rw [hnext] at hlast hmap
  constructor
  · intro e' u' hs' hd' j hj hwait
    obtain ⟨-, hslot, -⟩ := after_dispatch hrr hwu hs' hd'
    by_contra hnone
    have hnever : ∀ fs gs, es = fs ++ gs →
        (openKernel cfg).Along (fun s e => ¬ Dispatches cfg c s e j) t fs := by
      intro fs gs hes
      by_contra hnot
      obtain ⟨ds, d, gs', w, rfl, hw, hdj⟩ := Machine.exists_of_not_along hnot
      refine hnone ⟨ds, d, gs' ++ gs, w, ?_, hw, not_not.mp hdj⟩
      rw [hes, append_assoc, cons_append]
    have hready : ∀ fs gs w, es = fs ++ gs → (openKernel cfg).exec t fs = some w →
        (w.proc j).state = .runnable := fun fs gs w hes hw =>
      hwait fs gs w hes hw (hnever fs gs hes)
    have hji : j ≠ i := by
      rintro rfl
      have hrunnable := hready [] es t rfl rfl
      rw [hrunning] at hrunnable
      simp at hrunnable
    -- the walk from `i` back to `i` comes by `j`
    have hj : j ∈ (visits cfg c t es).map Prod.fst := by
      rw [hlast, hshift] at hslot
      rw [hmap, mem_map]
      refine ⟨(j + nproc - (i + 1)) % nproc, mem_range.mpr ?_, ?_⟩
      · simp only [nproc] at *
        omega
      · rw [hshift]
        simp only [nproc] at *
        omega
    obtain ⟨⟨k, b⟩, hmem, rfl⟩ := mem_map.mp hj
    obtain ⟨fs, f, gs, w, hes, hw, hv, hf⟩ := exists_of_mem_visits hmem
    have hwalks := (visits_cyclic hrr hw hwt).1
    obtain ⟨x, hx⟩ := Option.isSome_iff_exists.mp hf
    obtain ⟨-, ⟨hno, -, -⟩ | ⟨k', -, -, -, hv', hd⟩⟩ := walk_cases hrr hx hwalks
    · rw [hv] at hno
      simp at hno
    · rw [hv'] at hv
      obtain ⟨rfl, -⟩ := Prod.mk.inj (Option.some.inj hv)
      refine hnone ⟨fs, f, gs, w, hes, hw, (hd k').mpr ⟨rfl, ?_⟩⟩
      exact hready fs (f :: gs) w hes hw
  · intro e' u' k hs' hd' hno
    obtain ⟨-, hslot, -⟩ := after_dispatch hrr hwu hs' hd'
    refine ⟨(visits cfg c t es).length, ?_, ?_⟩
    · have hidle := visits_idle hrr hrun hwt hno
      have hpairs : visits cfg c t es =
          ((visits cfg c t es).map Prod.fst).map (fun k => (k, false)) := by
        rw [map_map]
        conv_lhs => rw [← map_id (visits cfg c t es)]
        exact map_congr_left (fun x hx => Prod.ext rfl (hidle x hx))
      rw [hmap, map_map] at hpairs
      refine hpairs.trans (map_congr_left (fun m _ => ?_))
      exact congrArg (fun k => (k, false)) (hshift m)
    · rw [← hslot, hlast, hshift]

def rrConfig : Config := ⟨.rr, false⟩

/-- Two processes are runnable when hart 0 is about to switch to the first one. -/
def rrStart : List TableEvent :=
  [.event (.allocpid 1), .event (.allocproc 1 true), .event (.start 1), .event (.schedule 0)]

/-- The first process gives up the hart, the second one too, and the hart goes round. -/
def rrRound : List TableEvent :=
  [.event (.yield 0), .event (.schedule 0), .event (.yield 0)] ++
    List.replicate 64 (.event (.schedule 0))

def rrAt (es : List TableEvent) : Kernel := ((openKernel rrConfig).exec boot es).getD boot

theorem rrAt_run (es fs : List TableEvent)
    (h : ((openKernel rrConfig).exec boot (es ++ fs)).isSome = true) :
    (openKernel rrConfig).exec (rrAt es) fs = some (rrAt (es ++ fs)) := by
  obtain ⟨t, ht⟩ := Option.isSome_iff_exists.mp h
  obtain ⟨s, hs, hfs⟩ := Machine.exec_append.mp ht
  rw [rrAt, hs, Option.getD_some, hfs, rrAt, ht, Option.getD_some]

theorem rr_no_bypass_second : ∃ fs f gs w, rrRound = fs ++ f :: gs ∧
    (openKernel rrConfig).exec (rrAt (rrStart ++ [.event (.schedule 0)])) fs = some w ∧
    Dispatches rrConfig 0 w f 1 := by
  have hpre := rrAt_run [] rrStart (by decide +kernel)
  have hfirst := rrAt_run rrStart [.event (.schedule 0)] (by decide +kernel)
  have hround := rrAt_run (rrStart ++ [.event (.schedule 0)]) rrRound (by decide +kernel)
  have hagain := rrAt_run (rrStart ++ [.event (.schedule 0)] ++ rrRound) [.event (.schedule 0)]
    (by decide +kernel)
  have hsecond : Dispatches rrConfig 0 (rrAt (rrStart ++ [.event (.schedule 0), .event (.yield 0)]))
      (.event (.schedule 0)) 1 := ⟨rfl, by decide +kernel⟩
  refine (rr_no_bypass rrConfig rfl rrStart (rrAt rrStart) hpre 0 0 (.event (.schedule 0)) _
    ⟨Machine.exec_singleton.mp hfirst, rfl, by decide +kernel⟩ rrRound _ hround).1 _ _
    (Machine.exec_singleton.mp hagain) ⟨rfl, by decide +kernel⟩ 1 (by decide) ?_
  -- only before the second switch does the process have to be runnable
  intro fs gs w hes hw hno
  match fs with
  | [] =>
    have hstart : rrAt (rrStart ++ [.event (.schedule 0)]) = w := by simpa using hw
    rw [← hstart]
    decide +kernel
  | [a] =>
    obtain ⟨rfl, -⟩ := cons.inj hes
    obtain rfl := Option.some.inj ((rrAt_run _ _ (by decide +kernel)).symm.trans hw)
    decide +kernel
  | a :: b :: rest =>
    obtain ⟨rfl, htail⟩ := cons.inj hes
    obtain ⟨rfl, -⟩ := cons.inj htail
    have hstep := rrAt_run (rrStart ++ [.event (.schedule 0)]) [.event (.yield 0)]
      (by decide +kernel)
    exact absurd hsecond (hno.2 _ (Machine.exec_singleton.mp hstep)).1

end Xv6
