import Xv6.SmpRules

/-! The process code is right: every routine and every interrupt handler takes its
locks in order, gives each of them back, and wakes whom it has to wake. -/

namespace Xv6

namespace Smp

open Threads Option Held Right

variable {D : Type} {S : Setup D} {h : Held D} {k : Kept} {i j : Nat} {d e : Proc} {lk : Lock}
  {c : Option Nat} {Q : Unit → Held D → Kept → Prop}

theorem right_oracle {Q : Bool → Held D → Kept → Prop} (hQ : ∀ b, Q b h k) :
    Right (logic S) oracle h k Q := by
  refine ⟨trivial, fun r h' k' hp => ?_⟩
  obtain ⟨rfl, rfl⟩ := hp
  exact hQ r

theorem right_killed {Q : Int → Held D → Kept → Prop} (ho : Outer h)
    (hrun : h.toRun = ⟨c, c, none, none⟩) (howe : ∀ ch, ¬ h.owes ch)
    (hq : h.noff = 0 → h = quiet h.cur)
    (hQ : ∀ d : Proc, Q d.killed (h.visited i d) k) : Right (logic S) (killed i) h k Q := by
  refine seq (right_enter (ho.rank_le i) (fun d hd _ => ?_))
  refine seq (right_slot (h.slot_proc i d) ?_)
  refine seq (right_exit (ho.proc_none i) ?_ (fun h0 => ?_) (fun h1 => ?_)
    (fun ch ho => absurd ho (howe ch)) hq ?_)
  · rw [congrArg Run.right hrun]
    simp
  · have hc : c = none := (congrArg Run.cur hrun).symm.trans h0
    rw [congrArg Run.me hrun, hc]
    simp
  · exact ⟨congrArg Run.nap hrun, hd h1⟩
  · exact pure (hQ _)

theorem right_visits (f : Proc → Proc) (is : List Nat) (hQ : Q () (quiet c) k) :
    Right (logic S) (visits f is) (quiet c) k Q := by
  induction is with
  | nil => exact pure hQ
  | cons i is ih =>
    refine seq (right_enter ((outer_quiet c).rank_le i) (fun d hd _ => ?_))
    refine seq (right_tally ?_)
    exact seq (right_exit_quiet (fun hc => hd hc) ih)

theorem right_setkilled (hQ : Q () (quiet c) k) : Right (logic S) (setkilled i) (quiet c) k Q := by
  refine seq (right_enter ((outer_quiet c).rank_le i) (fun d hd _ => ?_))
  refine seq (right_tally ?_)
  exact right_exit_quiet (fun hc => hd hc) hQ

theorem right_findPid {Q : Int → Held D → Kept → Prop} (pid : Int) {found : Nat → P D Unit}
    (hf : ∀ i (d : Proc) R, (c = some i → d.state = .running) →
      (∀ e : Proc, (d.state = .running → e.state = .running) → R () ((quiet c).slot i e) k) → Right (logic S) (found i) ((quiet c).slot i d) k R)
    (is : List Nat) (hQ : ∀ v, Q v (quiet c) k) :
    Right (logic S) (findPid pid found is) (quiet c) k Q := by
  induction is with
  | nil => exact pure (hQ _)
  | cons i is ih =>
    refine seq (right_enter ((outer_quiet c).rank_le i) (fun d hd _ => ?_))
    refine seq (right_slot (slot_proc _ i d) ?_)
    split_ifs
    · refine seq (hf i d _ (fun hc => hd hc) (fun e he => ?_))
      exact seq (right_exit_quiet (fun hc => he (hd hc)) (pure (hQ _)))
    · exact seq (right_exit_quiet (fun hc => hd hc) ih)

theorem right_kkill {Q : Int → Held D → Kept → Prop} (pid : Int) (hQ : ∀ v, Q v (quiet c) k) :
    Right (logic S) (kkill pid) (quiet c) k Q := by
  refine right_findPid pid (fun i d R hrun hR => ?_) _ hQ
  refine seq (right_tally ?_)
  refine seq (right_slot (slot_proc _ i _) ?_)
  refine right_onlyIf (fun ht => ?_) (fun _ => hR _ id)
  have hs : d.state = .sleeping := of_decide_eq_true ht
  have hne : c ≠ some i := fun hc => by
    have := hrun hc
    rw [hs] at this
    simp at this
  refine right_write (slot_proc _ i _) (.inl ⟨hs, hne⟩) ?_
  have hk : k.wrote i .runnable ((Move.tally Xv6.setkilled).apply d) = k := by
    simp [Kept.wrote, Move.apply, hs]
  rw [hk]
  have hh := slot_put (quiet c : Held D) i ((Move.tally Xv6.setkilled).apply d)
    (Move.runnable.apply ((Move.tally Xv6.setkilled).apply d))
  unfold wrote
  rw [hh]
  exact hR _ (fun hr => by rw [hs] at hr; simp at hr)

theorem right_setpriority {Q : Int → Held D → Kept → Prop} (pid pr : Int)
    (hQ : ∀ v, Q v (quiet c) k) : Right (logic S) (setpriority pid pr) (quiet c) k Q := by
  unfold setpriority
  split_ifs
  · exact pure (hQ _)
  · refine right_findPid pid (fun i d R hrun hR => ?_) _ hQ
    exact right_tally (hR _ id)

theorem right_lock_quiet (hQ : ∀ v, Fresh c k.child lk v → Q () (busy c lk v noDuty) k) :
    Right (logic S) (acquire lk) (quiet c) k Q :=
  right_acquire rfl (fun _ hv => absurd rfl hv) hQ

theorem right_put {o : Nat} {f : D → D} {v : D} {δ : Duty}
    (hQ : ∀ δ', (∀ ch, δ'.owes ch → δ.owes ch ∨
      (ch = objChan o ∧ S.cond o v = false ∧ S.cond o (f v) = true)) →
      Q () (busy c (.obj o) (f v) δ') k) :
    Right (logic S) (act (.put o f)) (busy c (.obj o) v δ) k Q := by
  have hv : (busy c (.obj o) v δ).obj o = some v :=
    busy_view (.obj o) v δ
  refine ⟨fun hn => by simp [hv] at hn, fun _ h' k' hp => ?_⟩
  obtain ⟨w, hw, rfl, rfl⟩ := hp
  obtain rfl : v = w := some.inj (hv.symm.trans hw)
  rw [busy_put (.obj o)]
  split_ifs with hc
  · exact hQ _ (fun ch ho => ho.imp id (fun he => ⟨he, hc⟩))
  · exact hQ _ (fun ch => .inl)

theorem guard_objChan (o : Nat) : guard (objChan o) = .obj o := by
  have h1 : (3 * o + 2) % 3 = 2 := by omega
  have h2 : (3 * o + 2) / 3 = o := by omega
  simp [guard, objChan, h1, h2]

theorem guard_sleepChan (l : Nat) : guard (sleepChan l) = .sleep l := by
  have h1 : (3 * l + 1) % 3 = 1 := by omega
  have h2 : (3 * l + 1) / 3 = l := by omega
  simp [guard, sleepChan, h1, h2]

theorem guard_procChan (i : Nat) : guard (procChan i) = .wait := by
  simp [guard, procChan]

theorem objChan_ne (o i : Nat) : objChan o ≠ procChan i := by
  simp only [objChan, procChan, ne_eq, Chan.addr.injEq]
  omega

theorem sleepChan_ne (l i : Nat) : sleepChan l ≠ procChan i := by
  simp only [sleepChan, procChan, ne_eq, Chan.addr.injEq]
  omega

theorem right_announce (o : Nat) (f : D → D) (hQ : Q () (quiet c) k) :
    Right (logic S) (announce o f) (quiet c) k Q := by
  refine seq (right_lock_quiet (fun v _ => ?_))
  refine seq (right_put (fun δ hδ => ?_))
  have hδ : ∀ ch, δ.owes ch → ch = objChan o :=
    fun ch ho => (hδ ch ho).elim (fun hf => hf.elim) (fun hc => hc.1)
  refine seq (right_wakeup rfl (guard_objChan o) (fun ch ho => .inl (hδ ch ho))
    (fun δ' hle hw => ?_))
  refine right_release_busy _ rfl (fun ch ho => ?_) hQ
  rw [hle.owes] at ho
  obtain rfl := hδ ch ho
  exact ⟨objChan_ne o initproc, hw⟩

theorem right_await (o : Nat) (f : D → D) (hQ : Q () (quiet (some i)) k) :
    Right (logic S) (await o f) (quiet (some i)) k Q := by
  refine Right.seq (right_lock_quiet (fun v _ => ?_))
  refine Right.seq (Right.run ⟨i, v, rfl⟩ ?_)
  rintro _ h' k' ⟨w, hw, rfl, rfl⟩
  refine Right.seq (right_put (δ := { noDuty with tested := some o }) (fun δ hδ => ?_))
  refine right_release_busy _ rfl (fun ch ho => ?_) hQ
  rcases hδ ch ho with hf | ⟨-, hf, -⟩
  · exact hf.elim
  · rw [hw] at hf
    simp at hf

theorem right_test {Q : D → Held D → Kept → Prop} {o : Nat} {v : D} (hc : h.cur = some i)
    (hv : h.obj o = some v) (hQ : Q v { h with tested := some o } k) :
    Right (logic S) (test o) h k Q := by
  refine ⟨⟨⟨i, hc⟩, by rw [hv]; simp⟩, fun r h' k' hp => ?_⟩
  obtain ⟨hr, rfl, rfl⟩ := hp
  obtain rfl : v = r := some.inj (hv.symm.trans hr)
  exact hQ

theorem right_awaitBody (o : Nat) (v : D) (hQ : ∀ d, S.cond o d = true →
      Q () { (one (some i) (.obj o) d : Held D) with tested := some o } k) :
    Right (logic S) (awaitBody S o) (one (some i) (.obj o) v) k Q := by
  refine Right.seq (right_test rfl (only_self (.obj o) v) ?_)
  split_ifs with hc
  · exact hQ v hc
  · refine Right.seq (right_sleep (.obj o) (δ := { noDuty with tested := some o }) rfl
      (guard_objChan o) ⟨fun _ => id, rfl⟩ (fun w _ => ?_))
    refine Right.run ⟨i, w, rfl⟩ ?_
    rintro _ h' k' ⟨x, hx, rfl, rfl⟩
    exact hQ x hx

theorem right_sleeplock {Q : Sleeplock → Held D → Kept → Prop} {l : Nat} {v : Sleeplock}
    (hv : h.sl l = some v) (hQ : Q v h k) : Right (logic S) (sleeplock l) h k Q := by
  refine ⟨fun hn => by simp [sl, hn] at hv, fun r h' k' hp => ?_⟩
  obtain ⟨hr, rfl, rfl⟩ := hp
  obtain rfl : v = r := some.inj (hv.symm.trans hr)
  exact hQ

theorem right_acquiresleepBody (l : Nat) (v : Sleeplock)
    (hQ : ∀ v : Sleeplock, v.locked = false → Q () (one (some i) (.sleep l) v) k) :
    Right (logic S) (acquiresleepBody l) (one (some i) (.sleep l) v) k Q := by
  refine Right.seq (right_sleeplock (only_self (.sleep l) v) ?_)
  split_ifs with hv
  · refine Right.seq (right_sleep (.sleep l) (δ := noDuty) rfl (guard_sleepChan l)
      ⟨fun _ => id, v, only_self (.sleep l) v, hv⟩ (fun w _ => ?_))
    refine Right.run ⟨i, w, rfl⟩ ?_
    rintro _ h' k' ⟨x, hx, rfl, rfl⟩
    exact hQ x hx
  · exact hQ v (Bool.eq_false_of_not_eq_true hv)

theorem right_acquiresleep (l : Nat) (hQ : Q () (quiet (some i)) { k with own := l :: k.own }) :
    Right (logic S) (acquiresleep l) (quiet (some i)) k Q := by
  refine Right.seq (right_lock_quiet (fun v _ => ?_))
  refine Right.seq (Right.run ⟨i, v, rfl⟩ ?_)
  rintro _ h' k' ⟨w, hw, rfl, rfl⟩
  refine Right.seq (right_myproc ?_)
  refine ⟨.inr ⟨i, rfl, rfl⟩, fun r h' k' hp => ?_⟩
  obtain ⟨rfl, rfl⟩ := hp
  refine ⟨⟨⟨i, rfl, busy_proc (.sleep l) rfl w noDuty i⟩, w, only_self (.sleep l) w, hw⟩,
    fun _ h' k' hp => ?_⟩
  obtain ⟨rfl, rfl⟩ := hp
  show Right (logic S) (release (.sleep l))
    ((busy (some i) (.sleep l) w noDuty).put (.sleep l) (⟨true, r.pid⟩ : Sleeplock)) _ _
  rw [busy_put]
  exact right_release_busy _ rfl (fun ch ho => ho.elim) hQ

theorem right_releasesleep (l : Nat) (hl : l ∈ k.own)
    (hQ : Q () (quiet (some i)) { k with own := k.own.erase l }) :
    Right (logic S) (releasesleep l) (quiet (some i)) k Q := by
  refine seq (right_lock_quiet (fun v _ => ?_))
  refine seq ⟨⟨⟨i, rfl, busy_proc (.sleep l) rfl v noDuty i⟩, fun hn => ?_, hl⟩,
    fun _ h' k' hp => ?_⟩
  · rw [sl, busy_view] at hn
    simp at hn
  obtain ⟨rfl, rfl⟩ := hp
  have hput : ((busy (some i) (.sleep l) v noDuty).put (.sleep l)
      (⟨false, 0⟩ : Sleeplock)).owe (sleepChan l) =
      busy (some i) (.sleep l) (⟨false, 0⟩ : Sleeplock)
        { noDuty with owes := fun c' => False ∨ c' = sleepChan l,
                      woke := fun c' j => c' ≠ sleepChan l ∧ False } := by
    simp [put, owe, busy, one, only, noDuty, quiet]
  rw [hput]
  refine seq (right_wakeup rfl (guard_sleepChan l)
    (fun ch ho => .inl (ho.resolve_left id)) (fun δ hle hw => ?_))
  refine right_release_busy _ rfl (fun ch ho => ?_) hQ
  rw [hle.owes] at ho
  obtain rfl := ho.resolve_left id
  exact ⟨sleepChan_ne l initproc, hw⟩

theorem right_ticks {Q : Nat → Held D → Kept → Prop} {v : Nat}
    (hv : h.view .ticks = some v) (hQ : Q v h k) : Right (logic S) ticks h k Q := by
  refine ⟨fun hn => by simp [hn] at hv, fun r h' k' hp => ?_⟩
  obtain ⟨hr, rfl, rfl⟩ := hp
  obtain rfl : v = r := some.inj (hv.symm.trans hr)
  exact hQ

theorem right_pauseBody {Q : Int → Held D → Kept → Prop} (ticks0 n v : Nat)
    (hQ : ∀ r, Q r (quiet (some i)) k) :
    Right (logic S) (pauseBody ticks0 n) (one (some i) .ticks v) k Q := by
  refine Right.seq (right_ticks (only_self .ticks v) ?_)
  split_ifs
  · refine Right.seq (right_myproc ?_)
    refine Right.seq (right_killed (c := some i) (outer_busy .ticks rfl v noDuty) rfl
      (fun _ => id) (fun h0 => by simp [one] at h0) (fun d => ?_))
    split_ifs
    · exact Right.seq (right_release_busy .ticks rfl (fun ch ho => ho.elim) (Right.pure (hQ _)))
    · refine Right.seq (right_sleep .ticks rfl rfl ⟨fun ch => id, trivial⟩ (fun w _ => ?_))
      refine Right.run ⟨i, w, rfl⟩ ?_
      rintro r h' k' ⟨rfl, rfl⟩
      exact hQ r
  · exact Right.seq (right_release_busy .ticks rfl (fun ch ho => ho.elim) (Right.pure (hQ _)))

theorem right_pause {Q : Int → Held D → Kept → Prop} (n : Nat)
    (hQ : ∀ r, Q r (quiet (some i)) k) : Right (logic S) (pause n) (quiet (some i)) k Q := by
  refine Right.seq (right_lock_quiet (fun v _ => ?_))
  refine Right.seq (right_ticks (only_self .ticks v) ?_)
  refine Right.run ⟨i, v, rfl⟩ ?_
  rintro r h' k' ⟨rfl, rfl⟩
  exact hQ r

theorem right_yield (hQ : Q () (quiet (some i)) k) :
    Right (logic S) yield (quiet (some i)) k Q := by
  refine seq (right_myproc ?_)
  refine seq (right_enter ((outer_quiet (some i)).rank_le i) (fun d hd _ => ?_))
  have hd : d.state = .running := hd rfl
  refine seq (right_write (slot_proc _ i d) (.inr (.inl ⟨rfl, hd, rfl⟩)) ?_)
  have hk : k.wrote i .runnable d = k := by simp [Kept.wrote, hd]
  have hh : ((quiet (some i) : Held D).slot i d).wrote i .runnable d =
      (quiet (some i)).slot i (Move.runnable.apply d) := slot_put _ i d _
  rw [hk, hh]
  refine seq (right_sched none (by simp [Move.apply]) (.inr rfl) (fun e he _ => ?_))
  exact right_exit_quiet (fun _ => he) hQ

theorem right_clockintr (cfg : Config) (hQ : Q () (quiet c) k) :
    Right (logic S) (clockintr cfg) (quiet c) k Q := by
  refine ⟨trivial, fun r h' k' hp => ?_⟩
  obtain ⟨rfl, rfl⟩ := hp
  show Right (logic S) (if r = 0 then _ else _) _ _ _
  split_ifs
  · refine seq (right_lock_quiet (fun v _ => ?_))
    refine seq ⟨fun hn => by simp [busy_view] at hn, fun _ h' k' hp => ?_⟩
    obtain ⟨n, rfl, rfl⟩ := hp
    rw [busy_put .ticks]
    refine seq (right_wakeup rfl rfl (fun ch ho => ho.elim) (fun δ hle _ => ?_))
    refine seq (right_release_busy _ rfl (fun ch ho => ?_) (right_visits _ _ hQ))
    rw [hle.owes] at ho
    exact ho.elim
  · exact hQ

theorem right_op (a : Op D) (hQ : Q () (quiet (some i)) k) :
    Right (logic S) (op a) (quiet (some i)) k Q := by
  induction a generalizing k Q with
  | skip => exact pure hQ
  | seq a b iha ihb => exact seq (iha (ihb hQ))
  | locked l a ih =>
    refine seq (right_acquiresleep l ?_)
    refine seq (ih (right_releasesleep l List.mem_cons_self ?_))
    rw [List.erase_cons_head]
    exact hQ
  | await o f => exact right_await o f hQ
  | announce o f => exact right_announce o f hQ
  | kill pid => exact seq (right_kkill pid (fun _ => pure hQ))
  | setpriority pid pr => exact seq (right_setpriority pid pr (fun _ => pure hQ))
  | visit i f => exact right_visits f [i] hQ
  | pause n => exact seq (right_pause n (fun _ => pure hQ))
  | yield => exact right_yield hQ

theorem right_intrOn (hn : h.noff = 0) (hQ : Q () h k) : Right (logic S) (act .intrOn) h k Q := by
  refine ⟨hn, fun _ h' k' hp => ?_⟩
  obtain ⟨rfl, rfl⟩ := hp
  exact hQ

theorem right_intrOff (hQ : Q () h k) : Right (logic S) (act .intrOff) h k Q := by
  refine ⟨trivial, fun _ h' k' hp => ?_⟩
  obtain ⟨rfl, rfl⟩ := hp
  exact hQ

theorem right_preempt (cfg : Config) (hQ : Q () (quiet (some i)) k) :
    Right (logic S) (preempt cfg) (quiet (some i)) k Q :=
  right_onlyIf (fun _ => right_yield hQ) (fun _ => hQ)

theorem right_kerneltrap (cfg : Config) (v : Interrupt D) (hQ : Q () (quiet c) k) :
    Right (logic S) (kerneltrap cfg v) (quiet c) k Q := by
  cases v with
  | timer =>
    refine seq (right_clockintr cfg ?_)
    refine seq (right_myproc ?_)
    refine seq (right_onlyIf (fun hc => ?_) (fun _ => right_intrOn rfl hQ))
    obtain ⟨i, hi⟩ := isSome_iff_exists.mp hc
    have hi : c = some i := hi
    subst hi
    exact right_preempt cfg (right_intrOn rfl hQ)
  | device o f =>
    refine seq (right_announce o f ?_)
    exact right_intrOn rfl hQ

end Smp

end Xv6
