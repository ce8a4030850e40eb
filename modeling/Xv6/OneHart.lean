import Xv6.SmpSound

/-! Dispatching: a process runs on at most one hart, a scheduler goes to a process
with the lock of that process and no other, and harts that wait for locks never wait
in a circle. -/

namespace Xv6

namespace Smp

open Threads

variable {D : Type} {S : Setup D} {g : Resources D} {p i : Nat}
  {w : Harts D}

theorem next_pre (hc : Threads.Config (logic S) Safe w g) {a : Act D}
    {k : Res D a → Prog (Res D) (Ret D) Nat Thread Unit} (hp : w.prog p = .step a k) :
    Pre (g.held p) (g.kept (w.cur p)) a := by
  have := hc.prog p
  rw [hp] at this
  exact this.1

theorem next_leave (hc : Threads.Config (logic S) Safe w g) {save load : Nat → Thread}
    {k : Prog (Res D) (Ret D) Nat Thread Unit} (hp : w.prog p = .swtch save load k) :
    Leave save load (g.held p) := by
  have := hc.prog p
  rw [hp] at this
  exact this.1

theorem fire_fails (hc : Threads.Config (logic S) Safe w g) {ev : Threads.Event Nat (Input D) (Interrupt D)}
    {e : String} (hf : fire (system S) w ev = some (.error e)) : e = "init exiting" :=
  (hc.fire (sound S) (verified S) hf).1 e rfl

theorem dispatch_alone (hc : Threads.Config (logic S) Safe w g)
    {k : Unit → Prog (Res D) (Ret D) Nat Thread Unit}
    (hp : w.prog p = .step (.write i .running) k) (q : Nat) :
    w.cur q ≠ .proc i ∧ (w.st.cpu q).proc ≠ some i := by
  have hi := hc.inv.inv
  obtain ⟨d, hd, h1, h2, h3, h4, -⟩ := next_pre hc hp
  obtain ⟨hl, hpd⟩ := hi.holds_proc hd
  have hfree : ¬ (runs g q).On i := by
    refine hi.run.alone hl (by rw [states, hpd, h4]; simp) ?_
    rintro (h | h | h)
    · exact absurd (h1.symm.trans h) (by simp)
    · exact absurd (h2.symm.trans h) (by simp)
    · exact absurd (h3.symm.trans h) (by simp)
  refine ⟨fun hq => ?_, fun hq => ?_⟩
  · rw [hi.run.here q] at hq
    cases hcq : (runs g q).cur with
    | none => simp [hcq, thread] at hq
    | some j =>
      rw [hcq] at hq
      exact hfree (.inl (by rw [hcq, Thread.proc.inj hq]))
  · rw [(hi.cpu q).proc] at hq
    exact hfree (.inr (.inl hq))

/-- At most one hart has `c->proc = i`, a process is RUNNING exactly when it was
dispatched and has not left that state itself, no hart dispatches it or switches to
it while another is in its context, slots are written under their locks, and no
panic is reached but for that of an exit of init. -/
theorem process_on_one_hart (S : Setup D) (obj : Nat → D)
    (w : Harts D)
    (hr : (machine (system S)).Reachable (boot obj) w) :
    (∀ p q i, (w.st.cpu p).proc = some i → (w.st.cpu q).proc = some i → p = q) ∧
    (∀ i, (w.st.proc i).state = .running ↔ w.st.hist.on i ≠ none) ∧
    (∀ p i k, w.prog p = .step (.write i .running) k →
      ∀ q, w.cur q ≠ .proc i ∧ (w.st.cpu q).proc ≠ some i) ∧
    (∀ p save load k, w.prog p = .swtch save load k → ∀ q, w.cur q ≠ load p) ∧
    (∀ p i m k, w.prog p = .step (.write i m) k → w.st.lock (.proc i) = some p) ∧
    ∀ ev e, fire (system S) w ev = some (.error e) → e = "init exiting" := by
  obtain ⟨g, hc⟩ := reachable_config S hr
  have hi := hc.inv.inv
  refine ⟨fun p q i hp hq => ?_, fun i => ⟨hi.run.running i, fun hon => ?_⟩,
    fun p i k hp => dispatch_alone hc hp, fun p save load k hp => ?_, fun p i m k hp => ?_,
    fun ev e hf => fire_fails hc hf⟩
  · rw [(hi.cpu p).proc] at hp
    rw [(hi.cpu q).proc] at hq
    exact hi.run.unique p q i (.inr (.inl hp)) (.inr (.inl hq))
  · obtain ⟨p, hp⟩ := Option.ne_none_iff_exists'.mp hon
    exact ((hi.run.ran i p).mp hp).1
  · exact (swtch_ok hc.inv (next_leave hc hp)).2.1
  · obtain ⟨d, hd, -⟩ := next_pre hc hp
    exact (hi.holds_proc hd).1

/-- Runs of a kernel whose objects are flags, all of them down at boot. -/
def flagRun (sched : Scheduler) (es : List (Threads.Event Nat (Input Bool) (Interrupt Bool))) :
    Option (Harts Bool) :=
  (machine (system ⟨⟨sched, false⟩, fun _ d => d⟩)).exec (boot fun _ => false) es

theorem flagRun_reachable {sched : Scheduler}
    {es : List (Threads.Event Nat (Input Bool) (Interrupt Bool))} {w : Harts Bool}
    (hw : flagRun sched es = some w) :
    (machine (system ⟨⟨sched, false⟩, fun _ d => d⟩)).Reachable (boot fun _ => false) w := ⟨es, hw⟩

def steps (p n : Nat) (t : Trap Bool) : List (Threads.Event Nat (Input Bool) (Interrupt Bool)) :=
  List.replicate n (.step p ⟨true, t⟩)

/-- Init forks on hart 0, and hart 1 has taken up the child. -/
theorem process_on_one_hart_fork : ∃ w,
    flagRun .rr (steps 0 63 (.syscall .fork) ++ steps 1 12 .timer) = some w ∧
    (w.st.cpu 0).proc = some 0 ∧ (w.st.cpu 1).proc = some 1 ∧
    (∀ q, (w.st.cpu q).proc = some 1 → q = 1) ∧ (w.st.proc 1).state = .running := by
  have h : (flagRun .rr (steps 0 63 (.syscall .fork) ++ steps 1 12 .timer)).map (fun w =>
      ((w.st.cpu 0).proc, (w.st.cpu 1).proc, (w.st.hist.on 1).isSome)) =
      some (some 0, some 1, true) := by decide +kernel
  obtain ⟨w, hw, h⟩ := Option.map_eq_some_iff.mp h
  simp only [Prod.mk.injEq] at h
  have hone := process_on_one_hart _ _ w (flagRun_reachable hw)
  exact ⟨w, hw, h.1, h.2.1, fun q hq => hone.1 q 1 1 hq h.2.1,
    (hone.2.1 1).mpr (Option.isSome_iff_ne_none.mp h.2.2)⟩

def WaitFor (w : Harts D) (a b : Lock) : Prop :=
  ∃ p k, w.st.lock a = some p ∧ w.prog p = .step (.lock b) k ∧ w.st.lock b ≠ none

def HartWaits (w : Harts D) (p q : Nat) : Prop :=
  ∃ lk k, w.prog p = .step (.lock lk) k ∧ w.st.lock lk = some q

theorem waitFor_rank (hc : Threads.Config (logic S) Safe w g) {a b : Lock} (hw : WaitFor w a b) :
    rank a < rank b := by
  obtain ⟨p, k, ha, hp, -⟩ := hw
  exact (next_pre hc hp).2.2 a (hc.inv.inv.holds_iff.mp ha)

theorem hartWaits_rank (hc : Threads.Config (logic S) Safe w g) {q : Nat}
    (hw : Relation.TransGen (HartWaits w) p q) {lk : Lock} {k}
    (hq : w.prog q = .step (.lock lk) k) :
    ∃ lk' k', w.prog p = .step (.lock lk') k' ∧ rank lk' < rank lk := by
  induction hw generalizing lk k with
  | single h =>
    obtain ⟨lk', k', hp, hl⟩ := h
    exact ⟨lk', k', hp, (next_pre hc hq).2.2 lk' (hc.inv.inv.holds_iff.mp hl)⟩
  | tail _ h ih =>
    obtain ⟨lk', k', hb, hl⟩ := h
    obtain ⟨lk'', k'', hp, hlt⟩ := ih hb
    exact ⟨lk'', k'', hp, hlt.trans ((next_pre hc hq).2.2 lk' (hc.inv.inv.holds_iff.mp hl))⟩

theorem leave_holds (hc : Threads.Config (logic S) Safe w g) {save load : Nat → Thread}
    (hl : Leave save load (g.held p)) :
    ∃ i, (save p = .proc i ∨ load p = .proc i) ∧
      (∀ lk, w.st.lock lk = some p ↔ lk = .proc i) ∧ (w.st.cpu p).noff = 1 := by
  have hi := hc.inv.inv
  have hone : ∀ i (d : Proc), (g.held p).view = only (.proc i) d →
      ∀ lk, w.st.lock lk = some p ↔ lk = .proc i := by
    intro i d hv lk
    rw [hi.holds_iff, hv]
    by_cases hlk : lk = .proc i
    · subst hlk
      simp
    · simp [only_of_ne (D := D) d hlk, hlk]
  have hnoff := (hi.cpu p).noff
  generalize hh : g.held p = h at hl hnoff hone
  cases hl with
  | run i d hd => exact ⟨i, .inr rfl, hone i d rfl, hnoff⟩
  | stop i d nap hd hn => exact ⟨i, .inl rfl, hone i d rfl, hnoff⟩

/-- The locks that are held and their number are those that a switch to `i` needs. -/
def OneLock (h : Held D) (i : Nat) : Prop :=
  (∀ lk, h.view lk ≠ none ↔ lk = .proc i) ∧ h.noff = 1

theorem oneLock_wrote {h : Held D} {m : Move} {d : Proc} (hd : h.proc i = some d)
    (hw : OneLock (h.wrote i m d) i) : OneLock h i := by
  have hv : (h.wrote i m d).view = Function.update h.view (.proc i) (some (m.apply d)) := by
    cases m <;> rfl
  have hn : (h.wrote i m d).noff = h.noff := by cases m <;> rfl
  refine ⟨fun lk => ?_, hn ▸ hw.2⟩
  by_cases hlk : lk = .proc i
  · subst hlk
    simp [show h.view (.proc i) = some d from hd]
  · have := hw.1 lk
    rwa [hv, Function.update_of_ne hlk] at this

theorem oneLock_setproc {h : Held D} {v : Option Nat} (hw : OneLock { h with me := v } i) :
    OneLock h i := hw

theorem right_write_inv {m : Move} {h : Held D} {k : Kept} {f : P D Unit}
    {Q : Unit → Held D → Kept → Prop} (hr : Right (logic S) (write i m >>= fun _ => f) h k Q) :
    ∃ d, h.proc i = some d ∧ Right (logic S) f (h.wrote i m d) (k.wrote i m d) Q := by
  obtain ⟨⟨d, hd, -⟩, hpost⟩ := hr
  exact ⟨d, hd, hpost () _ _ ⟨d, hd, rfl, rfl⟩⟩

theorem right_setproc_inv {v : Option Nat} {h : Held D} {k : Kept} {f : P D Unit}
    {Q : Unit → Held D → Kept → Prop}
    (hr : Right (logic S) (act (.setproc v) >>= fun _ => f) h k Q) :
    Right (logic S) f { h with me := v } k Q := hr.2 () _ _ ⟨rfl, rfl⟩

theorem right_switch_inv {h : Held D} {k : Kept} {f : P D Unit} {Q : Unit → Held D → Kept → Prop}
    (hr : Right (logic S) (Prog.switch .sched (fun _ => .proc i) >>= fun _ => f) h k Q) :
    OneLock h i := by
  have hl : Leave Thread.sched (fun _ => .proc i) h := hr.1
  generalize hsave : Thread.sched = save at hl
  generalize hload : (fun _ : Nat => Thread.proc i) = load at hl
  cases hl with
  | run j d hd =>
    obtain rfl : i = j := Thread.proc.inj (congrFun hload 0)
    refine ⟨fun lk => ?_, rfl⟩
    by_cases hlk : lk = .proc i
    · subst hlk
      simp [one]
    · simp [one, only_of_ne (D := D) d hlk, hlk]
  | stop j d nap hd hn => exact absurd (congrFun hsave 0) (by simp)

theorem right_switchTo_inv {s : Scheduler} {h : Held D} {k : Kept} {f : P D Unit}
    {Q : Unit → Held D → Kept → Prop}
    (hr : Right (logic S) (switchTo s i >>= fun _ => f) h k Q) : OneLock h i := by
  have hrr : ∀ {s}, s ≠ .pbs → Right (logic S) (switchTo s i >>= fun _ => f) h k Q →
      OneLock h i := by
    intro s hs hr
    have hr : Right (logic S) (write i .running >>= fun _ => act (.setproc (some i)) >>= fun _ =>
        write i (.tally (fun p => { p with nrun := i32 (p.nrun + 1) })) >>= fun _ =>
        Prog.switch .sched (fun _ => .proc i) >>= fun _ => act (.setproc none) >>= fun _ => f)
        h k Q := by cases s <;> first | exact hr | exact absurd rfl hs
    obtain ⟨d, hd, h1⟩ := right_write_inv hr
    obtain ⟨d', hd', h2⟩ := right_write_inv (right_setproc_inv h1)
    exact oneLock_wrote hd (oneLock_setproc (oneLock_wrote hd' (right_switch_inv h2)))
  cases s with
  | rr => exact hrr (by decide) hr
  | fcfs => exact hrr (by decide) hr
  | pbs =>
    have hr : Right (logic S) (write i (.tally (fun p => { p with
          nrun := i32 (p.nrun + 1)
          starving := 0 })) >>= fun _ =>
        write i .running >>= fun _ => act (.setproc (some i)) >>= fun _ =>
        Prog.switch .sched (fun _ => .proc i) >>= fun _ => act (.setproc none) >>= fun _ => f)
        h k Q := hr
    obtain ⟨d, hd, h1⟩ := right_write_inv hr
    obtain ⟨d', hd', h2⟩ := right_write_inv h1
    have h3 := right_switch_inv (right_setproc_inv h2)
    exact oneLock_wrote hd (oneLock_wrote hd' (oneLock_setproc h3))

/-- At the end of a scan a hart holds the lock of the process that it has chosen and
no other, or none at all; a switch is made with that one lock and `noff = 1`; and
neither locks nor harts wait in a circle. -/
theorem scan_holds_one_lock (S : Setup D) (obj : Nat → D)
    (w : Harts D)
    (hr : (machine (system S)).Reachable (boot obj) w) :
    (∀ p s i k, w.prog p = (switchTo s i >>= fun _ => k) →
      (∀ lk, w.st.lock lk = some p ↔ lk = .proc i) ∧ (w.st.cpu p).noff = 1) ∧
    (∀ p k, w.prog p = .call .scheduler k → (∀ lk, w.st.lock lk ≠ some p) ∧ (w.st.cpu p).noff = 0) ∧
    (∀ p save load k, w.prog p = .swtch save load k → ∃ i, (save p = .proc i ∨ load p = .proc i) ∧
        (∀ lk, w.st.lock lk = some p ↔ lk = .proc i) ∧ (w.st.cpu p).noff = 1) ∧
    (∀ ev e, fire (system S) w ev = some (.error e) → e = "init exiting") ∧
    (∀ lk, ¬ Relation.TransGen (WaitFor w) lk lk) ∧
    ∀ p, ¬ Relation.TransGen (HartWaits w) p p := by
  obtain ⟨g, hc⟩ := reachable_config S hr
  have hi := hc.inv.inv
  refine ⟨fun p s i k hp => ?_, fun p k hp => ?_, fun p save load k hp =>
    leave_holds hc (next_leave hc hp), fun ev e hf => fire_fails hc hf, fun lk hw => ?_,
    fun p hw => ?_⟩
  · have hright := hc.prog p
    rw [hp] at hright
    obtain ⟨hv, hn⟩ := right_switchTo_inv hright
    exact ⟨fun lk => hi.holds_iff.trans (hv lk), (hi.cpu p).noff.trans hn⟩
  · have hright := hc.prog p
    rw [hp] at hright
    obtain ⟨⟨hq, -⟩, -⟩ := hright
    refine ⟨fun lk hl => ?_, (hi.cpu p).noff.trans (by rw [hq]; rfl)⟩
    exact hi.holds_iff.mp hl (by rw [hq]; rfl)
  · exact lt_irrefl _ (Relation.TransGen.trans_induction_on (motive := fun {a b} _ =>
      rank a < rank b) hw (waitFor_rank hc) (fun _ _ => lt_trans))
  · obtain ⟨q, hpq, -⟩ := Relation.TransGen.head'_iff.mp hw
    obtain ⟨lk, k, hp, -⟩ := hpq
    obtain ⟨lk', k', hp', hlt⟩ := hartWaits_rank hc hw hp
    rw [hp] at hp'
    cases hp'
    exact lt_irrefl _ hlt

/-- Init has forked on hart 0. Hart 1 is at the end of its scan with the child, whose lock
hart 2 is waiting for. -/
def scanRun : List (Threads.Event Nat (Input Bool) (Interrupt Bool)) :=
  steps 0 378 (.syscall .fork) ++ (steps 1 320 .timer ++ steps 2 8 .timer)

theorem scanRun_ok : (flagRun .pbs scanRun).isSome = true := by decide +kernel

def scanned : Harts Bool := (flagRun .pbs scanRun).get scanRun_ok

set_option maxRecDepth 20000 in
theorem scanned_at : (∃ k, scanned.prog 1 = (switchTo .pbs 1 >>= fun _ => k)) ∧
    HartWaits scanned 2 1 := ⟨⟨_, rfl⟩, .proc 1, _, rfl, rfl⟩

theorem scan_holds_one_lock_waiter : flagRun .pbs scanRun = some scanned ∧
    (∀ lk, scanned.st.lock lk = some 1 ↔ lk = .proc 1) ∧ (scanned.st.cpu 1).noff = 1 ∧
    HartWaits scanned 2 1 ∧ ¬ Relation.TransGen (HartWaits scanned) 1 2 := by
  obtain ⟨⟨k, hp⟩, hwait⟩ := scanned_at
  have hw : flagRun .pbs scanRun = some scanned := (Option.some_get _).symm
  have hscan := scan_holds_one_lock _ _ scanned (flagRun_reachable hw)
  obtain ⟨hlock, hnoff⟩ := hscan.1 1 .pbs 1 k hp
  exact ⟨hw, hlock, hnoff, hwait, fun h => hscan.2.2.2.2.2 1 (h.tail hwait)⟩

end Smp

end Xv6
