import Xv6.OneHart

/-! Shared data is used under its lock, by one hart at a time, and a slot changes hands
only when no hart is in its process. -/

namespace Xv6.Smp

open Threads

variable {D : Type} {S : Setup D} {obj : Nat → D} {g : Resources D} {p i me : Nat}
  {w : Harts D}

variable (w) in
/-- Hart `p` has the lock of slot `i` and finds it in state `st`; no hart is in the
context of its process or has it in `c->proc`. -/
def Vacant (p i : Nat) (st : ProcState) : Prop :=
  w.st.lock (.proc i) = some p ∧ (w.st.proc i).state = st ∧
    ∀ q, w.cur q ≠ .proc i ∧ (w.st.cpu q).proc ≠ some i

theorem vacant_of_other (hi : Inv w.st g w.cur) {d : Proc} (hc : (g.held p).cur = some me)
    (hne : me ≠ i) (hd : (g.held p).proc i = some d) (hs : d.state ≠ .running) :
    Vacant w p i d.state := by
  obtain ⟨hl, rfl⟩ := hi.holds_proc hd
  have hp : ¬ (runs g p).On i := by
    rw [((hi.run.phase p).of_cur hc).1]
    simp [Run.On, hne]
  refine ⟨hl, rfl, fun q => ?_⟩
  have hq : ¬ (runs g q).On i := hi.run.alone hl hs hp
  refine ⟨fun h => hq (.inl ?_), fun h => hq (.inr (.inl ((hi.cpu q).proc.symm.trans h)))⟩
  rw [hi.run.here q] at h
  cases hcq : (runs g q).cur <;> simp_all [thread]

/-- The thread that fills a slot is that of another process. -/
theorem filler_is_other (hi : Inv w.st g w.cur) {c : Child}
    (hk : (g.kept (w.cur p)).child = some c) :
    ∃ me, (g.held p).cur = some me ∧ w.cur p = .proc me ∧ me ≠ c.slot ∧
      (w.st.proc c.slot).state = .used := by
  have hused := hi.kids.child _ c hk
  have hcur := hi.run.here p
  cases hr : (runs g p).cur with
  | none =>
    rw [hcur, hr, thread, hi.kids.sched p] at hk
    simp [idle] at hk
  | some me =>
    refine ⟨me, hr, hcur.trans (by rw [hr, thread]), ?_, hused⟩
    rintro rfl
    exact ((hi.run.phase p).of_cur hr).2.2.1.2 hused

section Reachable

variable (hr : (machine (system S)).Reachable (boot obj) w)
include hr

/-- A slot is UNUSED when it is taken, USED when its context is set up or `kfork` gives it
up, and a ZOMBIE child of the caller when `kwait` frees it. -/
theorem slot_changes_hands_vacant :
    (∀ p i pid t k, w.prog p = .step (.write i (.used pid t)) k → Vacant w p i .unused) ∧
    (∀ p x c k, w.prog p = .entry x c k → ∃ i, x = .proc i ∧ Vacant w p i .used) ∧
    (∀ p i k, w.prog p = .step (.free i) k → Vacant w p i .used ∧ w.st.parent i = none) ∧
    ∀ p i pid status k, w.prog p = .step (.reap i pid status) k → Vacant w p i .zombie ∧
      w.st.lock .wait = some p ∧ w.st.parent i ≠ none ∧ w.st.parent i = (w.st.cpu p).proc := by
  obtain ⟨g, hc⟩ := reachable_config S hr
  have hi := hc.inv.inv
  refine ⟨fun p i pid t k hp => ?_, fun p x c k hp => ?_, fun p i k hp => ?_,
    fun p i pid status k hp => ?_⟩
  · obtain ⟨d, hd, hs, -, -, me, hme, hno⟩ := next_pre hc hp
    have hne : me ≠ i := by
      rintro rfl
      simp [hno] at hd
    exact hs ▸ vacant_of_other hi hme hne hd (by simp [hs])
  · have hright := hc.prog p
    rw [hp] at hright
    obtain ⟨⟨i, d, rfl, -, -, hd, hs, hk⟩, -⟩ := hright
    obtain ⟨me, hme, -, hne, -⟩ := filler_is_other hi hk
    exact ⟨i, rfl, hs ▸ vacant_of_other hi hme hne hd (by simp [hs])⟩
  · obtain ⟨hd, r, hk⟩ := next_pre hc hp
    obtain ⟨d, hd⟩ := Option.ne_none_iff_exists'.mp hd
    obtain ⟨me, hme, hcur, hne, hs⟩ := filler_is_other hi hk
    obtain rfl := (hi.holds_proc hd).2
    rw [hcur] at hk
    exact ⟨hs ▸ vacant_of_other hi hme hne hd (by simp [hs]), hi.kids.adopted me _ hk⟩
  · obtain ⟨me, d, f, hme, hd, hs, hf, hfi, -⟩ := next_pre hc hp
    obtain ⟨hl, rfl⟩ := hi.parents_eq hf
    refine ⟨hs ▸ vacant_of_other hi hme (hi.kids.alive i me hfi).2.1 hd (by simp [hs]), hl,
      by simp [hfi], ?_⟩
    rw [hfi, (hi.cpu p).proc]
    exact (congrArg Run.me ((hi.run.phase p).of_cur hme).1).symm

end Reachable

/-- Init forks, and hart 0 is about to take a slot. -/
def Forking (w : Harts Bool) : Prop :=
  flagRun .rr (steps 0 39 (.syscall .fork)) = some w ∧
    ∃ k, w.prog 0 = .step (.write 1 (.used 2 0)) k

theorem exists_forking : ∃ w, Forking w := ⟨_, rfl, _, rfl⟩

theorem slot_changes_hands_vacant_fork : ∃ w, Forking w ∧ Vacant w 0 1 .unused := by
  obtain ⟨w, hw⟩ := exists_forking
  obtain ⟨k, hp⟩ := hw.2
  exact ⟨w, hw, (slot_changes_hands_vacant (flagRun_reachable hw.1)).1 0 1 2 0 k hp⟩

end Xv6.Smp
