import Xv6.SmpLogic

/-! Rules for the lock operations and for the functions that every part of the
process code uses: the visit of a slot, `sched`, `sleep` and `wakeup`. -/

namespace Xv6

namespace Smp

open Threads Function List Option Held Right

variable {D : Type} {S : Setup D} {h : Held D} {k : Kept} {i j : Nat} {d e : Proc} {lk : Lock}
  {c : Option Nat}

namespace Held

@[simp] theorem put_view_self (h : Held D) (lk : Lock) (v : Guarded D lk) :
    (h.put lk v).view lk = some v := update_self _ _ _

def slot (h : Held D) (i : Nat) (d : Proc) : Held D :=
  { h.put (.proc i) d with noff := h.noff + 1 }

@[simp] theorem slot_proc (h : Held D) (i : Nat) (d : Proc) : (h.slot i d).proc i = some d :=
  update_self _ _ _

theorem slot_view_of_ne (h : Held D) (d : Proc) (hne : lk ≠ .proc i) :
    (h.slot i d).view lk = h.view lk := update_of_ne hne _ _

theorem slot_put (h : Held D) (i : Nat) (d e : Proc) :
    (h.slot i d).put (.proc i) e = h.slot i e := by
  simp [slot, put]

theorem slot_comm (h : Held D) (hij : i ≠ j) (d e : Proc) :
    (h.slot i d).slot j e = (h.slot j e).slot i d := by
  have hne : (Lock.proc i) ≠ .proc j := fun he => hij (Lock.proc.inj he)
  simp only [slot, put]
  rw [update_comm hne.symm]

end Held

@[simp] theorem only_self (lk : Lock) (v : Guarded D lk) : only lk v lk = some v :=
  update_self _ _ _

theorem only_of_ne {lk lk' : Lock} (v : Guarded D lk) (hne : lk' ≠ lk) : only lk v lk' = none :=
  update_of_ne hne _ _

theorem guard_ne_proc (ch : Chan) (i : Nat) : guard ch ≠ .proc i := by
  unfold guard
  split
  · simp
  · simp
  · split_ifs <;> simp

def Duty.see (δ : Duty) (view : View D) (i : Nat) (d : Proc) : Duty :=
  { δ with
    woke := fun ch j => δ.woke ch j ∨ (j = i ∧ view (guard ch) ≠ none ∧ ¬ AsleepOn d ch)
    calm := fun j => δ.calm j ∨ (j = i ∧ view .wait ≠ none ∧ d.state ≠ .zombie)
    dying := fun j => δ.dying j ∨ (j = i ∧ view .wait ≠ none ∧ d.killed ≠ 0) }

def Held.visited (h : Held D) (i : Nat) (d : Proc) : Held D :=
  { h with toDuty := h.toDuty.see h.view i d }

theorem Held.slot_unlock (hv : h.view (.proc i) = none) :
    { (h.slot i d).unlock (.proc i) with noff := h.noff } = h.visited i d := by
  have hview : update (h.slot i d).view (.proc i) none = h.view := by
    funext lk
    by_cases hlk : lk = .proc i
    · subst hlk
      rw [update_self, hv]
    · rw [update_of_ne hlk, h.slot_view_of_ne d hlk]
  have hguard : ∀ ch, (h.slot i d).view (guard ch) = h.view (guard ch) :=
    fun ch => h.slot_view_of_ne d (guard_ne_proc ch i)
  have hwait : (h.slot i d).view .wait = h.view .wait := h.slot_view_of_ne d (by simp)
  unfold unlock visited Duty.see
  simp only [hview, hguard, hwait, slot_proc, some.injEq, forall_eq']
  rfl

theorem Held.visited_of_none (hv : ∀ ch, h.view (guard ch) = none) : h.visited i d = h := by
  have hwait : h.view .wait = none := hv .null
  simp [visited, Duty.see, hv, hwait]

theorem Held.visited_quiet (c : Option Nat) (i : Nat) (d : Proc) :
    (quiet c : Held D).visited i d = quiet c := visited_of_none (fun _ => rfl)

theorem Held.visited_slot (c : Option Nat) (i j : Nat) (d e : Proc) :
    ((quiet c : Held D).slot j e).visited i d = (quiet c).slot j e :=
  visited_of_none (fun ch => slot_view_of_ne _ e (guard_ne_proc ch j))

section Rules

variable {Q : Unit → Held D → Kept → Prop}

theorem right_acquire (hview : h.view lk = none)
    (hrank : ∀ lk', h.view lk' ≠ none → rank lk' < rank lk)
    (hQ : ∀ v, Fresh h.cur k.child lk v → Q () { h.put lk v with noff := h.noff + 1 } k) :
    Right (logic S) (acquire lk) h k Q := by
  refine ⟨trivial, fun _ h' k' hp => ?_⟩
  obtain ⟨rfl, rfl⟩ := hp
  refine ⟨⟨Nat.succ_pos _, hview, hrank⟩, fun _ h' k' hp => ?_⟩
  obtain ⟨v, hv, rfl, rfl⟩ := hp
  exact hQ v hv

theorem right_release (hm : MayUnlock h lk)
    (hq : h.noff = 1 → { h.unlock lk with noff := 0 } = quiet h.cur)
    (hQ : Q () { h.unlock lk with noff := h.noff - 1 } k) :
    Right (logic S) (release lk) h k Q := by
  have hnoff : (h.unlock lk).noff = h.noff := by cases lk <;> rfl
  have hcur : (h.unlock lk).cur = h.cur := by cases lk <;> rfl
  refine ⟨hm, fun _ h' k' hp => ?_⟩
  obtain ⟨rfl, rfl⟩ := hp
  refine ⟨⟨by rw [hnoff]; exact hm.1, fun h1 => ?_⟩, fun _ h' k' hp => ?_⟩
  · rw [hcur]
    exact hq (hnoff.symm.trans h1)
  · obtain ⟨rfl, rfl⟩ := hp
    rw [hnoff]
    exact hQ

theorem right_enter (hrank : ∀ lk, h.view lk ≠ none → rank lk ≤ i)
    (hQ : ∀ d : Proc, (h.cur = some i → d.state = .running) →
      (∀ x, k.child = some x → x.slot = i → d.state = .used) → Q () (h.slot i d) k) :
    Right (logic S) (acquire (.proc i)) h k Q := by
  refine right_acquire ?_ (fun lk hlk => Nat.lt_succ_of_le (hrank lk hlk))
    (fun d hd => hQ d hd.1 hd.2)
  by_contra hv
  have : i + 1 ≤ i := hrank (.proc i) hv
  omega

theorem right_exit (hv : h.view (.proc i) = none) (hright : h.right ≠ some i)
    (hme : h.cur = none → h.me ≠ some i)
    (hown : h.cur = some i → h.nap = none ∧ d.state = .running)
    (howe : ∀ ch, h.owes ch → h.woke ch i ∨ ¬ AsleepOn d ch)
    (hq : h.noff = 0 → h = quiet h.cur) (hQ : Q () (h.visited i d) k) :
    Right (logic S) (release (.proc i)) (h.slot i d) k Q := by
  refine right_release ⟨Nat.succ_pos _, ?_, hright, hme, fun hc => ⟨(hown hc).1, fun e he => ?_⟩,
    fun ch ho => (howe ch ho).imp id (fun hd e he => ?_)⟩ (fun h1 => ?_) ?_
  · exact fun hn => by
      have := h.slot_proc i d
      rw [proc, hn] at this
      simp at this
  · rw [slot_proc] at he
    obtain rfl := some.inj he
    exact (hown hc).2
  · rw [slot_proc] at he
    obtain rfl := some.inj he
    exact hd
  · have h0 : h.noff = 0 := Nat.succ.inj h1
    have hu := slot_unlock (d := d) hv
    rw [h0] at hu
    rw [hu, hq h0, visited_quiet]
    rfl
  · have hn : (h.slot i d).noff - 1 = h.noff := Nat.add_sub_cancel _ _
    rw [hn, slot_unlock hv]
    exact hQ

theorem right_slot {Q : Proc → Held D → Kept → Prop} (hd : h.proc i = some d) (hQ : Q d h k) :
    Right (logic S) (slot i) h k Q := by
  have hne : h.view (.proc i) ≠ none := fun hn => by
    rw [proc, hn] at hd
    simp at hd
  refine ⟨hne, fun r h' k' hp => ?_⟩
  obtain ⟨hr, rfl, rfl⟩ := hp
  obtain rfl : d = r := some.inj (hd.symm.trans hr)
  exact hQ

theorem right_write {m : Move} (hd : h.proc i = some d) (hm : MayWrite h k i d m)
    (hQ : Q () (h.wrote i m d) (k.wrote i m d)) : Right (logic S) (write i m) h k Q := by
  refine ⟨⟨d, hd, hm⟩, fun _ h' k' hp => ?_⟩
  obtain ⟨e, he, rfl, rfl⟩ := hp
  obtain rfl : d = e := some.inj (hd.symm.trans he)
  exact hQ

theorem right_tally {f : Proc → Proc} (hQ : Q () (h.slot i ((Move.tally f).apply d)) k) :
    Right (logic S) (write i (.tally f)) (h.slot i d) k Q := by
  refine right_write (h.slot_proc i d) trivial ?_
  have : (h.slot i d).wrote i (.tally f) d = h.slot i ((Move.tally f).apply d) := h.slot_put i d _
  rw [this]
  exact hQ

theorem right_onlyIf {b : Bool} {m : P D Unit} (ht : b = true → Right (logic S) m h k Q)
    (hf : b = false → Q () h k) : Right (logic S) (onlyIf b m) h k Q := by
  unfold onlyIf
  cases b with
  | false => exact hf rfl
  | true => exact ht rfl

theorem right_check {b : Bool} {msg : String} (hb : b = false) (hQ : Q () h k) :
    Right (logic S) (check b msg) h k Q :=
  right_onlyIf (fun ht => by simp [hb] at ht) (fun _ => hQ)

theorem right_mycpu {Q : Hart → Held D → Kept → Prop}
    (hQ : ∀ r : Hart, r.proc = h.me → r.noff = h.noff → (0 < h.noff → r.intr = false) → Q r h k) :
    Right (logic S) mycpu h k Q := by
  refine ⟨trivial, fun r h' k' hp => ?_⟩
  obtain ⟨⟨h1, h2, h3⟩, rfl, rfl⟩ := hp
  exact hQ r h1 h2 h3

theorem right_holding {Q : Bool → Held D → Kept → Prop}
    (hQ : ∀ {r : Bool}, (r = true ↔ h.view lk ≠ none) → Q r h k) :
    Right (logic S) (holding lk) h k Q := by
  refine ⟨trivial, fun r h' k' hp => ?_⟩
  obtain ⟨hr, rfl, rfl⟩ := hp
  exact hQ hr

theorem right_myproc {Q : Option Nat → Held D → Kept → Prop} (hQ : Q h.me h k) :
    Right (logic S) myproc h k Q := by
  refine seq (right_mycpu (fun r hr _ _ => pure ?_))
  rw [hr]
  exact hQ

def Outer (h : Held D) : Prop := ∀ lk, h.view lk ≠ none → rank lk = 0

theorem Outer.rank_le (ho : Outer h) (i : Nat) (lk : Lock) (hlk : h.view lk ≠ none) :
    rank lk ≤ i := by
  rw [ho lk hlk]
  exact Nat.zero_le i

theorem Outer.proc_none (ho : Outer h) (i : Nat) : h.view (.proc i) = none := by
  by_contra hv
  have : i + 1 = 0 := ho _ hv
  omega

theorem outer_quiet (c : Option Nat) : Outer (quiet c : Held D) := fun _ hv => absurd rfl hv

theorem right_sched (nap : Option Lock) (hd : d.state ≠ .running)
    (hn : d.state = .sleeping ∨ nap = none)
    (hQ : ∀ e : Proc, e.state = .running → d.state ≠ .zombie → Q () (one (some i) (.proc i) e) k) :
    Right (logic S) sched { (one (some i) (.proc i) d : Held D) with nap := nap } k Q := by
  generalize hh : ({ (one (some i) (.proc i) d : Held D) with nap := nap } : Held D) = h
  have hme : h.me = some i := by rw [← hh]; rfl
  have hnoff : h.noff = 1 := by rw [← hh]; rfl
  have hproc : h.proc i = some d := by
    rw [← hh]
    exact update_self _ _ _
  have hleave : Leave (fun _ => .proc i) .sched h := by
    rw [← hh]
    exact Leave.stop i d nap hd hn
  have hview : h.view (.proc i) ≠ none := fun hv => by
    rw [proc, hv] at hproc
    simp at hproc
  have hcur : h.cur = some i := by rw [← hh]; rfl
  unfold sched
  refine seq (right_myproc ?_)
  rw [hme]
  refine seq (right_holding (fun hheld => ?_))
  refine seq (right_check (by simp [hheld.mpr hview]) ?_)
  refine seq (right_mycpu (fun cpu _ hcpu hintr => ?_))
  refine seq (right_check (by simp [hcpu, hnoff]) ?_)
  refine seq (right_slot hproc ?_)
  refine seq (right_check (by simp [hd]) ?_)
  refine seq (right_check (hintr (by omega)) ?_)
  refine seq (switch hleave (fun h' hb => ?_))
  cases hb with
  | sched _ _ hc _ _ =>
    rw [hcur] at hc
    simp at hc
  | proc j e hc he hz =>
    obtain rfl : i = j := some.inj (hcur.symm.trans hc)
    refine ⟨trivial, fun _ h' k' hp => ?_⟩
    obtain ⟨rfl, rfl⟩ := hp
    exact hQ e he (hz d hproc)

/-- What a hart learns while it goes through the table. -/
structure Duty.Le (δ δ' : Duty) : Prop where
  tested : δ'.tested = δ.tested
  owes : δ'.owes = δ.owes
  woke : ∀ ch j, δ.woke ch j → δ'.woke ch j
  calm : ∀ j, δ.calm j → δ'.calm j

theorem Duty.Le.refl (δ : Duty) : δ.Le δ := ⟨rfl, rfl, fun _ _ => id, fun _ => id⟩

theorem Duty.Le.trans {δ δ' δ'' : Duty} (h1 : δ.Le δ') (h2 : δ'.Le δ'') : δ.Le δ'' :=
  ⟨h2.tested.trans h1.tested, h2.owes.trans h1.owes,
    fun ch j hw => h2.woke ch j (h1.woke ch j hw), fun j hc => h2.calm j (h1.calm j hc)⟩

theorem Duty.le_see (δ : Duty) (view : View D) (i : Nat) (d : Proc) : δ.Le (δ.see view i d) :=
  ⟨rfl, rfl, fun _ _ => .inl, fun _ => .inl⟩

theorem right_wakeSlot {ch : Chan} (hc : h.cur ≠ some i)
    (hQ : ∀ e : Proc, ¬ AsleepOn e ch → Q () (h.slot i e) k) :
    Right (logic S) (onlyIf (decide (d.state = .sleeping ∧ d.chan = ch)) (write i .runnable))
      (h.slot i d) k Q := by
  refine right_onlyIf (fun ht => ?_) (fun hf => hQ d (by simpa [AsleepOn] using hf))
  have hs : d.state = .sleeping ∧ d.chan = ch := of_decide_eq_true ht
  refine right_write (h.slot_proc i d) (.inl ⟨hs.1, hc⟩) ?_
  have hk : k.wrote i .runnable d = k := by simp [Kept.wrote, hs.1]
  have hh : (h.slot i d).wrote i .runnable d = h.slot i (Move.runnable.apply d) := h.slot_put i d _
  rw [hk, hh]
  exact hQ _ (fun ha => by simp [AsleepOn, Move.apply] at ha)

theorem right_wakeupFrom {ch : Chan} (is : List Nat) (ho : Outer h)
    (hrun : h.toRun = ⟨c, c, none, none⟩) (hnoff : 0 < h.noff) (hg : h.view (guard ch) ≠ none)
    (howe : ∀ ch', h.owes ch' → ch' = ch ∨ ∀ j ∈ is, c ≠ some j → h.woke ch' j)
    (hQ : ∀ δ, h.toDuty.Le δ → (∀ j ∈ is, c ≠ some j → δ.woke ch j) →
      Q () { h with toDuty := δ } k) :
    Right (logic S) (wakeupFrom ch is) h k Q := by
  induction is generalizing h with
  | nil => exact pure (hQ _ (Duty.Le.refl _) (fun j hj => absurd hj not_mem_nil))
  | cons i is ih =>
    have hme : h.me = c := congrArg Run.me hrun
    have hcur : h.cur = c := congrArg Run.cur hrun
    refine seq (right_myproc ?_)
    rw [hme]
    split_ifs with hi
    · refine ih ho hrun hnoff hg (fun ch' h1 => (howe ch' h1).imp id
        (fun hw j hj => hw j (mem_cons_of_mem i hj)))
        (fun δ hle hw => hQ δ hle (fun j hj hne => ?_))
      rcases mem_cons.mp hj with rfl | hj
      · exact absurd hi hne
      · exact hw j hj hne
    · have hv := ho.proc_none i
      refine seq (right_enter (ho.rank_le i) (fun d _ _ => ?_))
      refine seq (right_slot (h.slot_proc i d) ?_)
      refine seq (right_wakeSlot (by rw [hcur]; exact hi) (fun e he => ?_))
      refine seq (right_exit hv ?_ (fun h0 => ?_) (fun h1 => ?_) (fun ch' h1 => ?_)
        (fun h0 => by omega) ?_)
      · rw [congrArg Run.right hrun]
        simp
      · rw [hme, ← hcur, h0]
        simp
      · exact absurd (hcur.symm.trans h1) hi
      · rcases howe ch' h1 with rfl | hw
        · exact .inr he
        · exact .inl (hw i mem_cons_self hi)
      · refine ih (h := h.visited i e) ho hrun hnoff hg (fun ch' h1 => (howe ch' h1).imp id
          (fun hw j hj hne => .inl (hw j (mem_cons_of_mem i hj) hne)))
          (fun δ hle hw => ?_)
        refine hQ δ ((Duty.le_see _ _ _ _).trans hle) (fun j hj hne => ?_)
        rcases mem_cons.mp hj with rfl | hj
        · exact hle.woke ch j (.inr ⟨rfl, hg, he⟩)
        · exact hw j hj hne

/-- A state in which one lock is held that comes before those of the slots. -/
def busy (c : Option Nat) (lk : Lock) (v : Guarded D lk) (δ : Duty) : Held D :=
  { (one c lk v : Held D) with toDuty := δ }

variable (lk) in
theorem outer_busy (hr : rank lk = 0) (v : Guarded D lk) (δ : Duty) : Outer (busy c lk v δ) := by
  intro lk' hv
  by_cases he : lk' = lk
  · rw [he, hr]
  · exact absurd (only_of_ne v he) hv

variable (lk) in
theorem busy_view (v : Guarded D lk) (δ : Duty) : (busy c lk v δ).view lk = some v :=
  update_self _ _ _

variable (lk) in
theorem busy_put (v w : Guarded D lk) (δ : Duty) : (busy c lk v δ).put lk w = busy c lk w δ := by
  simp [put, busy, one, only]

theorem right_wakeup {ch : Chan} {v : Guarded D lk} {δ : Duty} (hr : rank lk = 0)
    (hg : guard ch = lk)
    (howe : ∀ ch', δ.owes ch' → ch' = ch ∨ ∀ j < nproc, c ≠ some j → δ.woke ch' j)
    (hQ : ∀ δ', δ.Le δ' → (∀ j < nproc, c ≠ some j → δ'.woke ch j) → Q () (busy c lk v δ') k) :
    Right (logic S) (wakeup ch) (busy c lk v δ) k Q := by
  refine right_wakeupFrom (c := c) _ (outer_busy lk hr v δ) rfl Nat.one_pos ?_
    (fun ch' ho => (howe ch' ho).imp id (fun hw j hj => hw j (mem_range.mp hj)))
    (fun δ' hle hw => ?_)
  · rw [hg, busy_view]
    simp
  · exact hQ δ' hle (fun j hj => hw j (mem_range.mpr hj))

theorem right_exit_quiet (hd : c = some i → d.state = .running) (hQ : Q () (quiet c) k) :
    Right (logic S) (release (.proc i)) (one c (.proc i) d) k Q := by
  refine right_exit (h := quiet c) rfl (by simp [quiet]) (fun hc => ?_) (fun hc => ⟨rfl, hd hc⟩)
    (fun ch ho => ho.elim) (fun _ => rfl) ?_
  · have hc : c = none := hc
    simp [quiet, hc]
  · rw [visited_quiet]
    exact hQ

theorem mayUnlock_of_ne (hlk : ∀ i, lk ≠ .proc i) (hn : 0 < h.noff) (hv : h.view lk ≠ none)
    (hs : ∀ ch, h.owes ch → Settled h ch) (hm : h.Napping → MayNap h lk) : MayUnlock h lk := by
  cases lk with
  | proc i => exact absurd rfl (hlk i)
  | _ => exact ⟨hn, hv, hs, hm⟩

open Classical in
theorem unlock_of_ne (h : Held D) (hlk : ∀ i, lk ≠ .proc i) : h.unlock lk = { h with
      toDuty := noDuty, view := update h.view lk none,
      nap := if h.Napping then some lk else h.nap } := by
  cases lk with
  | proc i => exact absurd rfl (hlk i)
  | _ => rfl

theorem ne_proc_of_rank (hr : rank lk = 0) (i : Nat) : lk ≠ .proc i := by
  rintro rfl
  simp [rank] at hr

theorem only_unlock (v : Guarded D lk) : update (only lk v) lk none = noView := by
  funext lk'
  by_cases he : lk' = lk
  · subst he
    rw [update_self]
    rfl
  · rw [update_of_ne he, only_of_ne v he]
    rfl

variable (lk) in
theorem busy_proc (hr : rank lk = 0) (v : Guarded D lk) (δ : Duty) (i : Nat) :
    (busy c lk v δ).proc i = none := (outer_busy lk hr v δ).proc_none i

theorem busy_not_napping (hr : rank lk = 0) (v : Guarded D lk) (δ : Duty) :
    ¬ (busy c lk v δ).Napping := by
  rintro ⟨i, d, -, hd, -⟩
  rw [busy_proc lk hr] at hd
  simp at hd

variable (lk) in
theorem right_release_busy {v : Guarded D lk} {δ : Duty} (hr : rank lk = 0)
    (hs : ∀ ch, δ.owes ch → ch ≠ procChan initproc ∧ ∀ j < nproc, c ≠ some j → δ.woke ch j)
    (hQ : Q () (quiet c) k) :
    Right (logic S) (release lk) (busy c lk v δ) k Q := by
  have hne := ne_proc_of_rank hr
  have hnap := busy_not_napping (c := c) hr v δ
  have heq : { (busy c lk v δ).unlock lk with noff := 0 } = quiet c := by
    rw [unlock_of_ne _ hne, if_neg hnap]
    have hview : update (busy c lk v δ).view lk none = noView := only_unlock v
    rw [hview]
    rfl
  refine right_release (mayUnlock_of_ne hne Nat.one_pos ?_ (fun ch ho => ⟨rfl, ?_, (hs ch ho).2,
      fun he => absurd he (hs ch ho).1⟩) (fun hn => absurd hn hnap)) (fun _ => heq) ?_
  · rw [busy_view]
    simp
  · intro i d _ hd
    rw [busy_proc lk hr] at hd
    simp at hd
  · have hn : (busy c lk v δ).noff - 1 = 0 := rfl
    rw [hn, heq]
    exact hQ

theorem mayNap_slot (hr : rank lk = 0) (hm : MayNap h lk) (i : Nat) (d : Proc) :
    MayNap (h.slot i d) lk := by
  cases lk with
  | proc i => simp [rank] at hr
  | pid => simp [rank] at hr
  | wait =>
    obtain ⟨ho, j, f, hj, hf, hc⟩ := hm
    exact ⟨ho, j, f, hj, (h.slot_view_of_ne d (by simp)).trans hf, hc⟩
  | ticks => exact hm
  | sleep l =>
    obtain ⟨ho, v, hv, hl⟩ := hm
    exact ⟨ho, v, (h.slot_view_of_ne d (by simp)).trans hv, hl⟩
  | obj o => exact hm

theorem slot_unlock_busy (hr : rank lk = 0) (v : Guarded D lk) (δ : Duty) (d : Proc) :
    update ((busy c lk v δ).slot i d).view lk none = only (.proc i) d := by
  have hne := ne_proc_of_rank hr i
  funext lk'
  by_cases h1 : lk' = lk
  · subst h1
    rw [update_self, only_of_ne _ hne]
  · rw [update_of_ne h1]
    by_cases h2 : lk' = .proc i
    · subst h2
      rw [only_self]
      exact slot_proc _ i d
    · rw [slot_view_of_ne _ _ h2, only_of_ne _ h2]
      exact only_of_ne _ h1

variable (lk) in
theorem right_sleep {ch : Chan} {v : Guarded D lk} {δ : Duty} (hr : rank lk = 0)
    (hg : guard ch = lk) (hm : MayNap (busy (some i) lk v δ) lk)
    (hQ : ∀ v, Fresh (some i) k.child lk v → Q () (one (some i) lk v) k) :
    Right (logic S) (sleep ch lk) (busy (some i) lk v δ) k Q := by
  have hne := ne_proc_of_rank hr
  unfold sleep
  refine seq (right_myproc ?_)
  refine seq (right_enter ((outer_busy lk hr v δ).rank_le i) (fun d hd _ => ?_))
  have hd : d.state = .running := hd rfl
  have hnap : ((busy (some i) lk v δ).slot i d).Napping := ⟨i, d, rfl, slot_proc _ i d, hd⟩
  refine seq (right_release (mayUnlock_of_ne hne (Nat.succ_pos _) ?_
    (fun c hc => absurd hc (hm.1 c)) (fun _ => mayNap_slot hr hm i d)) (fun h1 => ?_) ?_)
  · rw [slot_view_of_ne _ _ (hne i), busy_view]
    simp
  · have : (2 : Nat) = 1 := h1
    omega
  · have heq : { ((busy (some i) lk v δ).slot i d).unlock lk with
        noff := ((busy (some i) lk v δ).slot i d).noff - 1 } =
        ({ (one (some i) (.proc i) d : Held D) with nap := some lk } : Held D) := by
      rw [unlock_of_ne _ hne, if_pos hnap, slot_unlock_busy hr]
      rfl
    rw [heq]
    refine seq (right_write (d := d) (update_self _ _ _) ⟨rfl, hd, by rw [hg]⟩ ?_)
    have hw : ({ (one (some i) (.proc i) d : Held D) with nap := some lk } : Held D).wrote i
        (.sleeping ch) d =
        { (one (some i) (.proc i) (Xv6.sleep ch d) : Held D) with nap := some lk } := by
      simp [wrote, put, one, only, Move.apply]
    rw [hw]
    refine seq (right_sched _ (by simp [Xv6.sleep]) (.inl rfl) (fun e he _ => ?_))
    refine seq (right_write (d := e) (update_self _ _ _) ⟨rfl, he, rfl⟩ ?_)
    have hw' : (one (some i) (.proc i) e : Held D).wrote i .nochan e =
        one (some i) (.proc i) (Move.nochan.apply e) := by
      simp [wrote, put, one, only]
    rw [hw']
    refine seq (right_exit_quiet (fun _ => he) ?_)
    exact right_acquire rfl (fun lk' hv => absurd rfl hv) hQ

end Rules

end Smp

end Xv6
