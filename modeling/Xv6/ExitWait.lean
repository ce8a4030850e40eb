import Xv6.OneHart

/-! Exiting and waiting, sleeping and waking: what the records of `kexit` and `kwait`
come to in every reachable state, and why no sleeper misses its wakeup. -/

namespace Xv6

namespace Smp

open Threads

variable {D : Type} {S : Setup D} {g : Resources D} {i : Nat} {ch : Chan}
  {w : Harts D}

/-- A hart has made a change under the lock, holds it still and has not passed slot
`i` since: the call of `wakeup` that it owes is still to come to that slot. -/
def ToWake (s : State D) (lk : Lock) (i : Nat) : Prop :=
  ∃ p, s.lock lk = some p ∧ s.hist.poster lk = some p ∧ s.hist.passed lk i = false

theorem toWake_of_waking (hi : Inv w.st g w.cur) (hw : Waking (duties g) i ch) :
    ToWake w.st (guard ch) i := by
  obtain ⟨p, ho, hn⟩ := hw
  obtain ⟨hl, hp, hpassed⟩ := hi.sleep.owes p ch ho
  exact ⟨p, hl, hp, Bool.eq_false_iff.mpr (fun ht => hn (hpassed i ht))⟩

theorem exit_reaped_or_zombie (hi : Inv w.st g w.cur) {e : Exit} (he : e ∈ w.st.hist.exits) :
    (e.slot, e.inc) ∈ reaped w.st.hist.waits ∨
      ((w.st.proc e.slot).state = .zombie ∧ w.st.hist.inc e.slot = e.inc ∧
        (w.st.proc e.slot).pid = e.pid ∧ (w.st.proc e.slot).xstate = e.status) := by
  by_cases hr : (e.slot, e.inc) ∈ reaped w.st.hist.waits
  · exact .inl hr
  · obtain ⟨hz, hinc⟩ := hi.recs.waiting e he hr
    obtain ⟨hmem, -⟩ := hi.recs.zombie e.slot hz
    have hkey := List.inj_on_of_nodup_map hi.recs.once he hmem (by rw [hinc])
    refine .inr ⟨hz, hinc.symm, ?_, ?_⟩
    · exact (congrArg Exit.pid hkey).symm
    · exact (congrArg Exit.status hkey).symm

theorem parent_alive (hi : Inv w.st g w.cur) {j : Nat} (h1 : (w.st.proc j).state ≠ .unused)
    (h2 : (w.st.proc j).state ≠ .used) (h3 : j ≠ initproc) :
    ∃ q, w.st.parent j = some q ∧ (w.st.proc q).state ≠ .unused ∧
      (w.st.proc q).state ≠ .zombie := by
  obtain ⟨q, hq⟩ := Option.ne_none_iff_exists'.mp (hi.kids.orphan j h1 h2 h3)
  have ha : Alive (w.st.proc q).state := (hi.kids.alive j q hq).1
  refine ⟨q, hq, ?_, ?_⟩
  · rintro hu
    rcases ha with h | h | h <;> rw [h] at hu <;> cases hu
  · rintro hz
    rcases ha with h | h | h <;> rw [h] at hz <;> cases hz

/-- Every process that has left `kfork` has a living parent; every exit is returned
by one call of `kwait` at most, to the parent or to init, and its record stays until
then; `kwait` fails for the three reasons only; what a process is given as the value of
its calls is what is on record for them; and a process does not sleep in `kwait` over a
zombie unless a hart is still to wake it. -/
theorem children_reaped_once (S : Setup D) (obj : Nat → D) (w : Harts D)
    (hr : (machine (system S)).Reachable (boot obj) w) :
    (∀ j, (w.st.proc j).state ≠ .unused → (w.st.proc j).state ≠ .used → j ≠ initproc →
      ∃ q, w.st.parent j = some q ∧ (w.st.proc q).state ≠ .unused ∧ (w.st.proc q).state ≠ .zombie) ∧
    (w.st.hist.exits.map (fun e => (e.slot, e.inc))).Nodup ∧
    (reaped w.st.hist.waits).Nodup ∧
    (∀ e ∈ w.st.hist.exits, (e.slot, e.inc) ∈ reaped w.st.hist.waits ∨
      ((w.st.proc e.slot).state = .zombie ∧ w.st.hist.inc e.slot = e.inc ∧
        (w.st.proc e.slot).pid = e.pid ∧ (w.st.proc e.slot).xstate = e.status)) ∧
    (∀ x ∈ w.st.hist.waits, x.Good w.st.hist.exits) ∧
    (∀ c, ∃ due : Option Int,
      returns w.st.hist.waits c = due.toList ++ answered w.st.hist.answers c) ∧
    (∀ p v k, w.prog p = .step (.answer v) k →
      returns w.st.hist.waits (w.st.who p) = v :: answered w.st.hist.answers (w.st.who p)) ∧
    ∀ i j, AsleepOn (w.st.proc i) (procChan i) → w.st.parent j = some i →
      (w.st.proc j).state = .zombie → ToWake w.st .wait i := by
  obtain ⟨g, hc⟩ := reachable_config S hr
  have hi := hc.inv.inv
  refine ⟨fun j => parent_alive hi, hi.recs.once, hi.recs.single,
    fun e => exit_reaped_or_zombie hi, fun x => hi.recs.good x, fun c => ?_, fun p v k hp => ?_,
    fun i j hs hp hz => ?_⟩
  · exact ⟨_, hc.inv.told.all c⟩
  · obtain ⟨⟨i, hcur, -⟩, hdue⟩ := next_pre hc hp
    rw [(hi.inside hcur).2.2.2] at hdue
    rw [hi.who_eq hcur, hc.inv.told.all, owed, if_pos rfl, hdue]
    rfl
  · rw [← guard_procChan i]
    exact toWake_of_waking hi (hi.sleep.wait i j (.inl hs) hp hz)

/-- The child of init has exited on hart 1, and init is about to return from `wait`. -/
def reapRun : List (Threads.Event Nat (Input Bool) (Interrupt Bool)) :=
  steps 0 63 (.syscall .fork) ++
    (steps 1 487 (.syscall (.exit 7)) ++ steps 0 23 (.syscall (.wait 8)))

theorem reapRun_ok : (flagRun .rr reapRun).isSome = true := by decide +kernel

def reaping : Harts Bool := (flagRun .rr reapRun).get reapRun_ok

set_option maxRecDepth 20000 in
theorem reaping_at : (∃ k, reaping.prog 0 = .step (.answer 2) k) ∧ reaping.st.who 0 = (0, 1) :=
  ⟨⟨_, rfl⟩, rfl⟩

theorem children_reaped_once_child : flagRun .rr reapRun = some reaping ∧
    reaped reaping.st.hist.waits = [(1, 1)] ∧
    returns reaping.st.hist.waits (0, 1) = 2 :: answered reaping.st.hist.answers (0, 1) := by
  obtain ⟨⟨k, hp⟩, hwho⟩ := reaping_at
  have hw : flagRun .rr reapRun = some reaping := (Option.some_get _).symm
  have hall := children_reaped_once _ _ reaping (flagRun_reachable hw)
  exact ⟨hw, by decide +kernel, hwho ▸ hall.2.2.2.2.2.2.1 0 2 k hp⟩

/-- A process that sleeps on an object whose condition was made true since its test is
still to be woken; a sleep lock has one holder while it is locked and none otherwise;
and nobody sleeps on a free sleep lock unless its release is still going on. -/
theorem wakeups_not_lost (S : Setup D) (obj : Nat → D) (w : Harts D)
    (hr : (machine (system S)).Reachable (boot obj) w) :
    (∀ i o, AsleepOn (w.st.proc i) (objChan o) → w.st.hist.hit i o = true →
      ToWake w.st (.obj o) i) ∧
    (∀ l, (w.st.hist.inside l).length ≤ 1) ∧
    (∀ l, (w.st.sl l).locked = true ↔ ∃ i, w.st.hist.inside l = [i]) ∧
    ∀ i l, AsleepOn (w.st.proc i) (sleepChan l) → (w.st.sl l).locked = false →
      ToWake w.st (.sleep l) i := by
  obtain ⟨g, hc⟩ := reachable_config S hr
  have hi := hc.inv.inv
  refine ⟨fun i o hs hh => ?_, fun l => ?_, fun l => ⟨hi.hold.locked l, fun hl => ?_⟩,
    fun i l hs hl => ?_⟩
  · rw [← guard_objChan o]
    exact toWake_of_waking hi (hi.sleep.obj i o (.inl hs) hh)
  · by_cases hl : (w.st.sl l).locked = true
    · obtain ⟨i, hin⟩ := hi.hold.locked l hl
      simp [hin]
    · simp [hi.hold.free l (Bool.eq_false_iff.mpr hl)]
  · by_contra hn
    obtain ⟨i, hin⟩ := hl
    rw [hi.hold.free l (Bool.eq_false_iff.mpr hn)] at hin
    simp at hin
  · rw [← guard_sleepChan l]
    exact toWake_of_waking hi (hi.sleep.sleep i l (.inl hs) hl)

/-- Init sleeps on flag 5 and has sleep lock 3, and an interrupt on hart 1 has just raised
the flag. -/
def wakeRun : List (Threads.Event Nat (Input Bool) (Interrupt Bool)) :=
  steps 0 49 (.syscall (.op (.locked 3 (.await 5 id)))) ++
    (steps 1 2 .timer ++ (.trap 1 (.device 5 fun _ => true) :: steps 1 3 .timer))

theorem wakeups_not_lost_flag : ∃ w, flagRun .rr wakeRun = some w ∧
    AsleepOn (w.st.proc 0) (objChan 5) ∧ ToWake w.st (.obj 5) 0 ∧
    ∃ i, w.st.hist.inside 3 = [i] := by
  have h : (flagRun .rr wakeRun).map (fun w => ((w.st.proc 0).state, (w.st.proc 0).chan,
      w.st.hist.hit 0 5, (w.st.sl 3).locked)) = some (.sleeping, objChan 5, true, true) := by
    decide +kernel
  obtain ⟨w, hw, h⟩ := Option.map_eq_some_iff.mp h
  simp only [Prod.mk.injEq] at h
  have hall := wakeups_not_lost _ _ w (flagRun_reachable hw)
  have hasleep : AsleepOn (w.st.proc 0) (objChan 5) := ⟨h.1, h.2.1⟩
  exact ⟨w, hw, hasleep, hall.1 0 5 hasleep h.2.2.1, (hall.2.2.1 3).mp h.2.2.2⟩

end Smp

end Xv6
