import Xv6.FcfsOrder
import Xv6.Kill

/-! The numbers of the processes. `allocpid` hands out the values of a counter
that nothing bounds, so the numbers are positive and distinct until the counter
passes the largest `int`. -/

namespace Xv6

open Function

variable {cfg : Config} {s t : Kernel} {e : Event}

structure Sleeplock where
  locked : Bool
  pid : Int
  deriving DecidableEq, Repr

def holdingsleep (lk : Sleeplock) (p : Proc) : Bool := lk.locked && lk.pid == p.pid

structure DistinctPids (proc : Nat → Proc) : Prop where
  positive : ∀ i, (proc i).state ≠ .unused → 0 < (proc i).pid
  distinct : ∀ i j, (proc i).state ≠ .unused → (proc j).state ≠ .unused →
    (proc i).pid = (proc j).pid → i = j

/-- Whoever asks for the number of a process gets that process. -/
structure PidNames (proc : Nat → Proc) (i : Nat) : Prop where
  kkill : Xv6.kkill (proc i).pid proc = (0, Function.update proc i (kkillSlot (proc i)))
  setpriority : ∀ pr, minPriority ≤ pr → pr ≤ maxPriority → sysSetpriority (proc i).pid pr proc =
      (0, Function.update proc i { proc i with priority := pr })
  getpriority : (sysGetpriority (proc i).pid proc).1 = (proc i).priority
  holdingsleep : ∀ j, (proc j).state ≠ .unused →
    (Xv6.holdingsleep ⟨true, (proc i).pid⟩ (proc j) = true ↔ j = i)

theorem DistinctPids.first {proc : Nat → Proc} (h : DistinctPids proc)
    (hfree : ∀ i, (proc i).state = .unused → (proc i).pid = 0) {i : Nat} (hi : i < nproc)
    (hlive : (proc i).state ≠ .unused) : IsFirst proc (proc i).pid i := by
  refine ⟨hi, rfl, fun j hj hp => ?_⟩
  have hpos := h.positive i hlive
  have hjlive : (proc j).state ≠ .unused := by
    intro hu
    rw [← hp, hfree j hu] at hpos
    exact lt_irrefl 0 hpos
  exact hj.ne (h.distinct j i hjlive hlive hp)

theorem DistinctPids.names {proc : Nat → Proc} (h : DistinctPids proc)
    (hfree : ∀ i, (proc i).state = .unused → (proc i).pid = 0) {i : Nat} (hi : i < nproc)
    (hlive : (proc i).state ≠ .unused) : PidNames proc i := by
  have hfirst := h.first hfree hi hlive
  refine ⟨hfirst.scanPid _, fun pr hl hu => ?_, ?_, fun j hj => ?_⟩
  · rw [sysSetpriority_eq hl hu]
    exact hfirst.scanPid _
  · rw [sysGetpriority, hfirst.scanPid]
  · have hiff : Xv6.holdingsleep ⟨true, (proc i).pid⟩ (proc j) = true ↔
        (proc i).pid = (proc j).pid := by simp [Xv6.holdingsleep]
    rw [hiff]
    constructor
    · exact fun hp => h.distinct j i hj hlive hp.symm
    · rintro rfl
      rfl

/-- The number that a slot holds: that of its process, or the one drawn for the next. -/
def Kernel.number (s : Kernel) (i : Nat) : Option Int :=
  if (s.proc i).state = .unused then s.fresh i else some (s.proc i).pid

structure Numbered (s : Kernel) : Prop where
  positive : ∀ i n, s.number i = some n → 0 < n
  distinct : ∀ i j n, s.number i = some n → s.number j = some n → i = j
  used : ∀ i n, s.number i = some n → 0 < s.nextpid → n < s.nextpid
  taken : ∀ i, (s.proc i).state ≠ .unused → s.fresh i = none
  bound : s.nextpid < 2 ^ 31

def PidLeft (s : Kernel) : Event → Prop
  | .allocpid _ => 0 < s.nextpid
  | _ => True

instance (s : Kernel) : (e : Event) → Decidable (PidLeft s e)
  | .allocpid _ => inferInstanceAs (Decidable (0 < s.nextpid))
  | .timer | .clock | .schedule _ | .yield _ | .sleep _ _ | .kexit _ _ | .setkilled _
  | .allocproc _ _ | .start _ | .kwait _ | .wakeup _ _ | .kkill _ _ | .setpriority _ _ _ =>
    isTrue trivial

theorem i32_lt_int (x : Int) : i32 x < 2 ^ 31 := by
  have h := Int.bmod_lt (x := x) (m := 2 ^ 32) (by decide)
  unfold i32
  omega

theorem number_live {i : Nat} (h : (s.proc i).state ≠ .unused) :
    s.number i = some (s.proc i).pid := if_neg h

theorem number_free {i : Nat} (h : (s.proc i).state = .unused) : s.number i = s.fresh i := if_pos h

theorem Numbered.pids (h : Numbered s) : DistinctPids s.proc where
  positive i hi := h.positive i _ (number_live hi)
  distinct i j hi hj heq := h.distinct i j _ (number_live hi) (by rw [number_live hj, heq])

theorem Numbered.same (h : Numbered s) (hn : t.nextpid = s.nextpid)
    (ht : ∀ i, (t.proc i).state ≠ .unused → t.fresh i = none)
    (hp : ∀ i n, t.number i = some n → s.number i = some n) : Numbered t where
  positive i n hi := h.positive i n (hp i n hi)
  distinct i j n hi hj := h.distinct i j n (hp i n hi) (hp j n hj)
  used i n hi := hn ▸ h.used i n (hp i n hi)
  taken := ht
  bound := hn ▸ h.bound

theorem Numbered.drawn (h : Numbered s) {i : Nat} (hpos : 0 < s.nextpid)
    (hst : step cfg s (.allocpid i) = some t) : Numbered t := by
  obtain ⟨hu, -, hn, hfresh, hproc⟩ := step_allocpid_eq hst
  have hnum : ∀ j n, t.number j = some n → j = i ∧ n = s.nextpid ∨ s.number j = some n := by
    intro j n hj
    rw [Kernel.number, hproc, hfresh] at hj
    by_cases hji : j = i
    · subst hji
      rw [if_pos hu, update_self] at hj
      exact .inl ⟨rfl, (Option.some.inj hj).symm⟩
    · rw [update_of_ne hji] at hj
      exact .inr hj
  have hle : ∀ j n, t.number j = some n → 0 < n ∧ n ≤ s.nextpid := by
    intro j n hj
    rcases hnum j n hj with ⟨-, rfl⟩ | hjs
    · exact ⟨hpos, le_rfl⟩
    · exact ⟨h.positive j n hjs, (h.used j n hjs hpos).le⟩
  refine ⟨fun j n hj => (hle j n hj).1, fun j k n hj hk => ?_, fun j n hj hnext => ?_,
    fun j hj => ?_, by rw [hn]; exact i32_lt_int _⟩
  · rcases hnum j n hj with ⟨rfl, hjn⟩ | hjs <;> rcases hnum k n hk with ⟨rfl, hkn⟩ | hks
    · rfl
    · have := h.used k n hks hpos
      omega
    · have := h.used j n hjs hpos
      omega
    · exact h.distinct j k n hjs hks
  · have hsucc : t.nextpid = s.nextpid + 1 := by
      rw [hn]
      refine i32_eq (by omega) ?_
      by_contra hc
      have hb := h.bound
      have hmax : s.nextpid = 2 ^ 31 - 1 := by omega
      rw [hn, hmax] at hnext
      exact absurd hnext (by decide)
    have := (hle j n hj).2
    omega
  · rw [hproc] at hj
    rw [hfresh, update_of_ne (by rintro rfl; exact hj hu)]
    exact h.taken j hj

theorem Numbered.filled (h : Numbered s) {i : Nat} {ok : Bool}
    (hst : step cfg s (.allocproc i ok) = some t) : Numbered t := by
  obtain ⟨pid, hpid, hu, -, hn, hfresh, hproc⟩ := step_allocproc_eq hst
  refine h.same hn (fun j hj => ?_) (fun j n hj => ?_)
  · rw [hfresh, update_apply]
    split_ifs with hji
    · rfl
    · rw [hproc, update_of_ne hji] at hj
      exact h.taken j hj
  · by_cases hji : j = i
    · subst hji
      rw [number_free hu, hpid]
      by_cases hlive : (t.proc j).state = .unused
      · rw [number_free hlive, hfresh, update_self] at hj
        simp at hj
      · rw [← hj, number_live hlive, hproc, update_self]
        rw [hproc, update_self] at hlive
        rw [(allocproc_live hlive).1]
    · rwa [Kernel.number, hproc, hfresh, update_of_ne hji, update_of_ne hji] at hj

theorem step_numbered (hst : step cfg s e = some t) (ho : Occupied s) (hleft : PidLeft s e)
    (h : Numbered s) : Numbered t := by
  by_cases hno : e.Clerical
  · cases e with
    | timer =>
      obtain ⟨-, hn, hfresh, hproc⟩ := step_timer_eq hst
      refine h.same hn (hproc ▸ hfresh ▸ h.taken) (fun i n hi => ?_)
      rwa [Kernel.number, hproc, hfresh] at hi
    | allocpid i => exact h.drawn hleft hst
    | allocproc i ok => exact h.filled hst
    | _ => exact absurd hno id
  · obtain ⟨-, hn, hfresh⟩ := step_clerical hst hno
    refine h.same hn (fun i hi => ?_) (fun i n hi => ?_)
    · rw [hfresh]
      exact h.taken i (ho.same_life hst hno hi).1
    · by_cases hlive : (t.proc i).state = .unused
      · rw [number_free hlive, hfresh] at hi
        rw [number_free, hi]
        by_contra hs
        rw [h.taken i hs] at hi
        simp at hi
      · obtain ⟨hs, hp, -⟩ := ho.same_life hst hno hlive
        rwa [number_live hs, ← hp, ← number_live hlive]

theorem numbered_boot : Numbered boot := by
  have hnum : ∀ i n, boot.number i = some n → i = 0 ∧ n = 1 := by
    intro i n hi
    by_cases hne : i = 0
    · subst hne
      exact ⟨rfl, (Option.some.inj hi).symm⟩
    · rw [Kernel.number, boot_proc_ne hne] at hi
      exact nomatch hi
  refine ⟨fun i n hi => ?_, fun i j n hi hj => ?_, fun i n hi _ => ?_, fun _ _ => rfl, by decide⟩
  · rw [(hnum i n hi).2]
    decide
  · rw [(hnum i n hi).1, (hnum j n hj).1]
  · rw [(hnum i n hi).2]
    decide

theorem numbered_of_run {es : List Event} (hrun : (kernel cfg).exec boot es = some s)
    (hleft : (kernel cfg).Along PidLeft boot es) : Numbered s := by
  refine (Machine.inv_along (m := kernel cfg)
    (I := fun u => (CandidateLocked u ∧ Occupied u) ∧ Numbered u) ?_ hrun hleft
    ⟨⟨candidateLocked_boot, occupied_boot⟩, numbered_boot⟩).2
  rintro u e v hst hl ⟨⟨hc, ho⟩, hn⟩
  exact ⟨⟨step_candidateLocked hst hc, step_occupied hst hc ho⟩, step_numbered hst ho hl hn⟩

/-- In every run whose allocations all find the counter positive, the processes
have distinct positive numbers, and a number names its process. -/
theorem pids_unique (cfg : Config) (es : List Event) (s : Kernel)
    (hrun : (kernel cfg).exec boot es = some s) (hleft : (kernel cfg).Along PidLeft boot es) :
    DistinctPids s.proc ∧ ∀ i < nproc, (s.proc i).state ≠ .unused → PidNames s.proc i := by
  have h := (numbered_of_run hrun hleft).pids
  exact ⟨h, fun i hi hlive => h.names (fun j => free_pid_zero hrun j) hi hlive⟩

/-- Two children; the first exits, is waited for, and its slot is used again. -/
def forkAgain : List Event :=
  [.allocpid 1, .allocproc 1 true, .start 1, .allocpid 2, .allocproc 2 true, .start 2,
    .schedule 1, .schedule 1, .schedule 2, .schedule 2, .schedule 2, .kexit 2 0, .kwait 1,
    .allocpid 1, .allocproc 1 true]

theorem pids_unique_forkAgain : ∃ s, (kernel ⟨.rr, true⟩).exec boot forkAgain = some s ∧
    (s.proc 1).pid = 4 ∧ (s.proc 2).pid = 3 ∧ DistinctPids s.proc ∧ PidNames s.proc 1 := by
  have h : ((kernel ⟨.rr, true⟩).exec boot forkAgain).map
      (fun s => ((s.proc 1).state, (s.proc 1).pid, (s.proc 2).pid)) = some (.used, 4, 3) := by
    decide +kernel
  have hleft : (kernel ⟨.rr, true⟩).Along PidLeft boot forkAgain := by decide +kernel
  obtain ⟨s, hs, hv⟩ := Option.map_eq_some_iff.mp h
  simp only [Prod.mk.injEq] at hv
  obtain ⟨hd, hnames⟩ := pids_unique _ _ s hs hleft
  exact ⟨s, hs, hv.2.1, hv.2.2, hd, hnames 1 (by decide) (by rw [hv.1]; decide)⟩

def forkEvents (ok : Bool) : List Event := [.allocpid 1, .allocproc 1 ok]

/-- Nothing stands in the way of a fork into slot 1. -/
structure Forkable (s : Kernel) : Prop where
  free : (s.proc 1).state = .unused
  lock : s.lock 1 = none
  fresh : s.fresh 1 = none

variable (cfg) in
theorem Forkable.exec (h : Forkable s) (ok : Bool) :
    ∃ t, (kernel cfg).exec s (forkEvents ok) = some t ∧ t.nextpid = i32 (s.nextpid + 1) ∧
      t.lock 1 = none ∧ t.fresh 1 = none ∧
      t.proc = update s.proc 1 (allocproc ok s.nextpid s.ticks (s.proc 1)) := by
  have hpid : effect cfg s (.allocpid 1) = some ({ s.toControl with
      nextpid := i32 (s.nextpid + 1)
      fresh := update s.fresh 1 (some s.nextpid) }, none) :=
    if_pos ⟨by decide, h.lock, h.free, h.fresh⟩
  have hproc : ∀ u : Kernel, u.fresh 1 = some s.nextpid → u.lock 1 = none →
      (u.proc 1).state = .unused → effect cfg u (.allocproc 1 ok) =
        some ({ u.toControl with fresh := update u.fresh 1 none },
          some (1, .allocproc ok s.nextpid u.ticks)) := by
    intro u hf hl hu
    simp only [effect, hf]
    exact if_pos ⟨by decide, hl, hu⟩
  refine ⟨_, Machine.exec_cons.mpr ⟨_, Option.map_eq_some_iff.mpr ⟨_, hpid, rfl⟩,
    Machine.exec_singleton.mpr (Option.map_eq_some_iff.mpr ⟨_, hproc _ rfl h.lock
      h.free, rfl⟩)⟩, rfl, h.lock, rfl, rfl⟩

variable (cfg) in
theorem exec_failed_forks (n : Nat) :
    ∃ t, (kernel cfg).exec boot (List.replicate n (forkEvents false)).flatten = some t ∧
      t.nextpid = i32 (2 + n) ∧ Forkable t ∧ ∀ i, i ≠ 1 → t.proc i = boot.proc i := by
  induction n with
  | zero => exact ⟨boot, rfl, rfl, ⟨rfl, rfl, rfl⟩, fun _ _ => rfl⟩
  | succ n ih =>
    obtain ⟨u, hrun, hn, hu, hp⟩ := ih
    obtain ⟨t, hst, hn', hl', hf', hp'⟩ := hu.exec cfg false
    refine ⟨t, ?_, ?_, ⟨by rw [hp', update_self]; rfl, hl', hf'⟩, fun i hi => ?_⟩
    · rw [List.replicate_succ', List.flatten_append, Machine.exec_append]
      exact ⟨u, hrun, by rwa [List.flatten_singleton]⟩
    · rw [hn', hn, i32_add]
      push_cast
      rw [add_assoc]
    · rw [hp', update_of_ne hi, hp i hi]

variable (cfg) in
theorem exec_fork_after (n : Nat) :
    ∃ es t, (kernel cfg).exec boot es = some t ∧ (t.proc 1).state = .used ∧
      (t.proc 1).pid = i32 (2 + n) ∧ ∀ i, i ≠ 1 → t.proc i = boot.proc i := by
  obtain ⟨u, hrun, hn, hu, hp⟩ := exec_failed_forks cfg n
  obtain ⟨t, hst, -, -, -, hp'⟩ := hu.exec cfg true
  refine ⟨_, t, Machine.exec_append.mpr ⟨u, hrun, hst⟩, ?_, ?_, fun i hi => ?_⟩
  · rw [hp', update_self]
    rfl
  · rw [hp', update_self, ← hn]
    rfl
  · rw [hp', update_of_ne hi, hp i hi]

/-- After 2³¹ − 2 forks the next one gets a negative number; after 2³² − 1 it
gets the number of the first process. -/
theorem pids_wrap_around :
    (∃ es s, (kernel ⟨.rr, true⟩).exec boot es = some s ∧ (s.proc 1).state = .used ∧
      (s.proc 1).pid = -2 ^ 31) ∧
    ∃ es s, (kernel ⟨.rr, true⟩).exec boot es = some s ∧ (s.proc 0).state = .runnable ∧
      (s.proc 1).state = .used ∧ (s.proc 0).pid = 1 ∧ (s.proc 1).pid = 1 := by
  constructor
  · obtain ⟨_, s, hrun, hst, hpid, -⟩ := exec_fork_after ⟨.rr, true⟩ (2 ^ 31 - 2)
    exact ⟨_, s, hrun, hst, hpid.trans (by decide)⟩
  · obtain ⟨_, s, hrun, hst, hpid, hp⟩ := exec_fork_after ⟨.rr, true⟩ (2 ^ 32 - 1)
    have h0 := hp 0 (by decide)
    exact ⟨_, s, hrun, by rw [h0]; rfl, hst, by rw [h0]; rfl, hpid.trans (by decide)⟩

end Xv6
