import Xv6.SmpPrograms

/-! The life of a process: `kfork`, `kexit` and `kwait`, the traps from user space
and the schedulers are right. -/

namespace Xv6

namespace Smp

open Threads Function List Option Held Right

variable {D : Type} {S : Setup D} {h : Held D} {k : Kept} {i j p : Nat} {d e : Proc} {lk : Lock}
  {c : Option Nat} {Q : Unit → Held D → Kept → Prop}

theorem right_parents {Q : (Nat → Option Nat) → Held D → Kept → Prop} {f : Nat → Option Nat}
    (hf : h.parents = some f) (hQ : Q f h k) : Right (logic S) parents h k Q := by
  refine ⟨fun hn => by simp [Held.parents, hn] at hf, fun r h' k' hp => ?_⟩
  obtain ⟨hr, rfl, rfl⟩ := hp
  obtain rfl : f = r := some.inj (hf.symm.trans hr)
  exact hQ

theorem parents_slot {f : Nat → Option Nat} {δ : Duty} :
    ((busy c .wait f δ : Held D).slot j d).parents = some f :=
  (slot_view_of_ne _ _ (by simp)).trans (busy_view .wait f δ)

def Woken (p : Nat) (δ : Duty) : Prop :=
  ∀ ch, δ.owes ch → ∀ j < nproc, some p ≠ some j → δ.woke ch j

theorem Woken.le {δ δ' : Duty} (hw : Woken p δ) (hle : δ.Le δ') : Woken p δ' := by
  intro ch ho j hj hne
  rw [hle.owes] at ho
  exact hle.woke ch j (hw ch ho j hj hne)

theorem right_reparent {f : Nat → Option Nat} {δ : Duty} (hp : p ≠ initproc) (js : List Nat)
    (hδ : Woken p δ)
    (hQ : ∀ (f' : Nat → Option Nat) δ', Woken p δ' → (∀ j ∈ js, f' j ≠ some p) →
      (∀ j, f' j = f j ∨ (f j = some p ∧ f' j = some initproc)) →
      Q () (busy (some p) .wait f' δ') idle) :
    Right (logic S) (reparent p js) (busy (some p) .wait f δ) idle Q := by
  induction js generalizing f δ with
  | nil => exact hQ f δ hδ (fun j hj => absurd hj not_mem_nil) (fun j => .inl rfl)
  | cons j js ih =>
    refine seq (right_parents (busy_view .wait f δ) ?_)
    split_ifs with hj
    · refine seq ⟨⟨p, f, rfl, hp, busy_view .wait f δ, hj, rfl⟩, fun _ h' k' hpost => ?_⟩
      obtain ⟨g, hg, rfl, rfl⟩ := hpost
      obtain rfl : f = g := some.inj ((busy_view .wait f δ).symm.trans hg)
      rw [busy_put .wait]
      refine seq (right_wakeup (δ := { δ with
        owes := fun c' => δ.owes c' ∨ c' = procChan initproc
        woke := fun c' j => c' ≠ procChan initproc ∧ δ.woke c' j }) rfl (guard_procChan initproc)
        (fun ch ho => ?_) (fun δ' hle hw => ?_))
      · by_cases hch : ch = procChan initproc
        · exact .inl hch
        · exact .inr (fun i hi hne => ⟨hch, hδ ch (ho.resolve_right hch) i hi hne⟩)
      refine ih (fun ch ho i hi hne => ?_) (fun f' δ'' hδ' hjs hf' => ?_)
      · by_cases hch : ch = procChan initproc
        · rw [hch]
          exact hw i hi hne
        · rw [hle.owes] at ho
          exact hle.woke ch i ⟨hch, hδ ch (ho.resolve_right hch) i hi hne⟩
      · have hself : f' j = some initproc := by
          rcases hf' j with h1 | ⟨h1, -⟩
          · rw [h1, update_self]
          · rw [update_self] at h1
            exact absurd (some.inj h1).symm hp
        refine hQ f' δ'' hδ' (fun i hi => ?_) (fun i => ?_)
        · rcases mem_cons.mp hi with rfl | hi
          · rw [hself]
            exact fun he => hp (some.inj he).symm
          · exact hjs i hi
        · by_cases hij : i = j
          · subst hij
            exact .inr ⟨hj, hself⟩
          · have := hf' i
            rwa [update_of_ne hij] at this
    · refine ih hδ (fun f' δ' hδ' hjs hf' => hQ f' δ' hδ' (fun i hi => ?_) hf')
      rcases mem_cons.mp hi with rfl | hi
      · rcases hf' i with h1 | ⟨h1, -⟩
        · rw [h1]
          exact hj
        · exact absurd h1 hj
      · exact hjs i hi

theorem guard_chanOf (q : Option Nat) : guard (chanOf q) = .wait := by
  cases q with
  | none => rfl
  | some q => exact guard_procChan q

theorem right_kexit (status : Int) : Right (logic S) (kexit status) (quiet (some p)) idle Q := by
  refine seq (right_myproc ?_)
  refine seq (right_onlyIf (fun _ => ⟨rfl, fun r => nomatch r⟩) (fun hne => ?_))
  have hne : p ≠ initproc := of_decide_eq_false hne
  refine seq (right_lock_quiet (fun (f : Nat → Option Nat) hf => ?_))
  refine seq (right_reparent hne _ (fun ch ho => ho.elim) (fun g δ hδ hall hg => ?_))
  have hkids : ∀ j, g j ≠ some p := by
    intro j
    by_cases hj : j < nproc
    · exact hall j (mem_range.mpr hj)
    · rcases hg j with h1 | ⟨h1, -⟩
      · exact fun he => hj (hf.2 j p (h1.symm.trans he)).1
      · exact absurd (hf.2 j p h1).1 hj
  have hparent : ∀ q, g p = some q → q < nproc := by
    intro q hq
    rcases hg p with h1 | ⟨h1, -⟩
    · exact (hf.2 p q (h1.symm.trans hq)).2
    · exact absurd h1 (hf.1 p rfl)
  refine seq (right_parents (busy_view .wait g δ) ?_)
  refine seq (right_wakeup rfl (guard_chanOf (g p)) (fun ch ho => .inr (hδ ch ho))
    (fun δ' hle hw => ?_))
  have hδ' := hδ.le hle
  refine seq (right_enter ((outer_busy .wait rfl g δ').rank_le p) (fun d hd _ => ?_))
  have hd : d.state = .running := hd rfl
  refine seq (right_write (d := d) (Held.slot_proc _ p d)
    ⟨rfl, hd, hne, rfl, rfl, g, parents_slot, hkids, fun q hq => ?_⟩ ?_)
  · have hqp : some p ≠ some q := fun he => hkids p (hq.trans he.symm)
    have := hw q (hparent q hq) hqp
    rwa [hq] at this
  · have hwrote : ((busy (some p) .wait g δ' : Held D).slot p d).wrote p (.zombie status) d =
        (busy (some p) .wait g { δ' with calm := fun j => δ'.calm j ∧ j ≠ p }).slot p
          (Xv6.kexit status d) := by
      simp only [Held.wrote, Held.slot, Held.put, Move.apply, update_idem]
      rfl
    rw [hwrote]
    generalize hz : Xv6.kexit status d = z
    have hzs : z.state = .zombie := by rw [← hz]; rfl
    generalize hδz : ({ δ' with calm := fun j => δ'.calm j ∧ j ≠ p } : Duty) = δz
    have hnap : ¬ ((busy (some p) .wait g δz : Held D).slot p z).Napping := by
      rintro ⟨i, e, hi, he, hr⟩
      obtain rfl : p = i := some.inj hi
      rw [Held.slot_proc] at he
      rw [← some.inj he, hzs] at hr
      simp at hr
    have heq : { ((busy (some p) .wait g δz : Held D).slot p z).unlock .wait with
        noff := ((busy (some p) .wait g δz : Held D).slot p z).noff - 1 } =
        ({ (one (some p) (.proc p) z : Held D) with nap := none } : Held D) := by
      rw [unlock_of_ne _ (by simp), if_neg hnap, slot_unlock_busy rfl]
      rfl
    refine seq (right_release (mayUnlock_of_ne (by simp) (Nat.succ_pos _) ?_
      (fun ch ho => ⟨rfl, fun i e hi he => ?_, ?_, fun _ => ⟨p, z, rfl, Held.slot_proc _ p z, hzs⟩⟩)
      (fun hn => absurd hn hnap))
      (fun h1 => ?_) ?_)
    · rw [Held.slot_view_of_ne _ _ (by simp), busy_view]
      simp
    · obtain rfl : p = i := some.inj hi
      rw [Held.slot_proc] at he
      rw [← some.inj he, hzs]
      simp
    · intro j hj hne
      rw [← hδz] at ho ⊢
      exact hδ' ch ho j hj hne
    · have : (2 : Nat) = 1 := h1
      omega
    · rw [heq]
      exact seq (right_sched _ (by simp [hzs]) (.inr rfl) (fun e _ hz' => absurd hzs hz'))

theorem right_waitFailed {Q : Int → Held D → Kept → Prop} {f : Nat → Option Nat} {δ : Duty}
    (hk : k.due = none) (hδ : ∀ ch, ¬ δ.owes ch) (hw : δ.dying p ∨ ∀ j, f j ≠ some p)
    (hQ : ∀ r, Q r (quiet (some p)) { k with due := some r }) :
    Right (logic S) waitFailed (busy (some p) .wait f δ) k Q := by
  refine seq ⟨⟨p, f, rfl, busy_proc .wait rfl f δ p, busy_view .wait f δ, hk, .inr hw⟩,
    fun _ h' k' hp => ?_⟩
  obtain ⟨rfl, rfl⟩ := hp
  exact seq (right_release_busy (δ := { δ with spoilt := False }) .wait rfl
    (fun ch ho => absurd ho (hδ ch)) (pure (hQ _)))

theorem slot_own {f : Nat → Option Nat} {δ : Duty} (hj : p ≠ j) :
    ((busy (some p) .wait f δ : Held D).slot j d).proc p = none :=
  (slot_view_of_ne _ d (fun he => hj (Lock.proc.inj he))).trans (busy_proc .wait rfl f δ p)

theorem right_copyStatus {Q : Bool → Held D → Kept → Prop} {f : Nat → Option Nat} {δ : Duty}
    (addr : Nat) (hj : p ≠ j) (hQ : ∀ (r : Bool) bad, (r = false → bad) →
      Q r ((busy (some p) .wait f { δ with spoilt := bad }).slot j d) k) :
    Right (logic S) (copyStatus addr) ((busy (some p) .wait f δ).slot j d) k Q := by
  unfold copyStatus
  split_ifs with h0
  · exact pure (hQ true δ.spoilt (fun h => by simp at h))
  · refine ⟨⟨⟨p, rfl, slot_own hj⟩, by simp [parents_slot]⟩, fun r h' k' hp => ?_⟩
    obtain ⟨rfl, rfl⟩ := hp
    exact hQ r _ id

theorem busy_slot_free {f g : Nat → Option Nat} {δ : Duty} :
    ((((busy c .wait f δ : Held D).slot j d).put (.proc j) e).put .wait g) =
      (busy c .wait g δ).slot j e := by
  have hne : (Lock.wait) ≠ .proc j := by simp
  rw [Held.slot_put]
  simp only [Held.slot, Held.put, busy, one, only]
  rw [update_comm hne, update_idem, update_comm hne.symm]

theorem right_exit_wait {f : Nat → Option Nat} {δ : Duty} (hj : p ≠ j) (hδ : ∀ ch, ¬ δ.owes ch)
    (hQ : ∀ δ', δ.Le δ' → (d.state ≠ .zombie → δ'.calm j) → Q () (busy (some p) .wait f δ') k) :
    Right (logic S) (release (.proc j)) ((busy (some p) .wait f δ).slot j d) k Q := by
  refine right_exit (busy_proc .wait rfl f δ j) (by simp [busy, one, quiet])
    (fun hc => by simp [busy, one, quiet] at hc) (fun hc => absurd (some.inj hc) hj)
    (fun ch ho => absurd ho (hδ ch)) (fun h0 => by simp [busy, one] at h0) ?_
  refine hQ _ (Duty.le_see _ _ _ _) (fun hz => .inr ⟨rfl, ?_, hz⟩)
  rw [busy_view]
  simp

theorem right_waitScan {Q : Int ⊕ Bool → Held D → Kept → Prop} {f : Nat → Option Nat} {δ : Duty}
    (addr : Nat) (js : List Nat) (havekids : Bool) (hk : k.due = none) (hp : f p ≠ some p)
    (hδ : ∀ ch, ¬ δ.owes ch) (hQ : ∀ r, Q (.inl r) (quiet (some p)) { k with due := some r })
    (hQ' : ∀ b δ', δ.Le δ' → (∀ j ∈ js, f j = some p → δ'.calm j) →
      (b = false → havekids = false ∧ ∀ j ∈ js, f j ≠ some p) →
      Q (.inr b) (busy (some p) .wait f δ') k) :
    Right (logic S) (waitScan p addr js havekids) (busy (some p) .wait f δ) k Q := by
  induction js generalizing δ havekids with
  | nil =>
    refine hQ' havekids δ (Duty.Le.refl δ) (fun j hj => absurd hj not_mem_nil) (fun hb => ?_)
    exact ⟨hb, fun j hj => absurd hj not_mem_nil⟩
  | cons j js ih =>
    refine seq (right_parents (busy_view .wait f δ) ?_)
    by_cases hj : f j = some p
    · rw [if_pos hj]
      have hne : p ≠ j := fun he => hp (he ▸ hj)
      refine seq (right_enter ((outer_busy .wait rfl f δ).rank_le j) (fun d _ _ => ?_))
      refine seq (right_slot (slot_proc _ j d) ?_)
      by_cases hz : d.state = .zombie
      · rw [if_pos hz]
        refine seq (right_copyStatus addr hne (fun ok bad hbad => ?_))
        by_cases hok : ok = false
        · rw [if_pos hok]
          refine seq ⟨⟨p, f, rfl, slot_own hne, parents_slot, hk, .inl (hbad hok)⟩,
            fun _ h' k' hpost => ?_⟩
          obtain ⟨rfl, rfl⟩ := hpost
          refine seq (right_exit_wait (δ := { δ with spoilt := False }) hne hδ
            (fun δ' hle _ => ?_))
          refine seq (right_release_busy .wait rfl (fun ch ho => ?_) (pure (hQ _)))
          rw [hle.owes] at ho
          exact absurd ho (hδ ch)
        · rw [if_neg hok]
          refine seq ⟨⟨p, d, f, rfl, slot_proc _ j d, hz, parents_slot, hj, rfl, hk,
            fun st hst => ?_⟩, fun _ h' k' hpost => ?_⟩
          · split_ifs at hst
            exact (some.inj hst).symm
          · obtain ⟨d', f', hd', hf', rfl, rfl⟩ := hpost
            obtain rfl : f = f' := some.inj (parents_slot.symm.trans hf')
            rw [busy_slot_free]
            refine seq (right_exit_wait (δ := { δ with spoilt := bad }) hne hδ
              (fun δ' hle _ => ?_))
            refine seq (right_release_busy .wait rfl (fun ch ho => ?_) (pure (hQ _)))
            rw [hle.owes] at ho
            exact absurd ho (hδ ch)
      · rw [if_neg hz]
        refine seq (right_exit_wait hne hδ (fun δ' hle hcalm => ?_))
        refine ih true (fun ch ho => ?_) (fun b δ'' hle' hc hb => ?_)
        · rw [hle.owes] at ho
          exact hδ ch ho
        · refine hQ' b δ'' (hle.trans hle') (fun i hi hfi => ?_) (fun h0 => ?_)
          · rcases mem_cons.mp hi with rfl | hi
            · exact hle'.calm i (hcalm hz)
            · exact hc i hi hfi
          · exact absurd (hb h0).1 (by simp)
    · rw [if_neg hj]
      refine ih havekids hδ (fun b δ' hle hc hb => hQ' b δ' hle (fun i hi hfi => ?_) (fun h0 => ?_))
      · rcases mem_cons.mp hi with rfl | hi
        · exact absurd hfi hj
        · exact hc i hi hfi
      · refine ⟨(hb h0).1, fun i hi => ?_⟩
        rcases mem_cons.mp hi with rfl | hi
        · exact hj
        · exact (hb h0).2 i hi

theorem right_kwaitBody {Q : Int → Held D → Kept → Prop} {f : Nat → Option Nat} (addr : Nat)
    (hp : p < nproc) (hk : k.due = none) (hf : Fresh (D := D) (some p) none .wait f)
    (hQ : ∀ r, Q r (quiet (some p)) { k with due := some r }) :
    Right (logic S) (kwaitBody p addr) (one (some p) .wait f) k Q := by
  refine Right.seq (right_waitScan (δ := noDuty) addr (range nproc) false hk (hf.1 p rfl)
    (fun ch => id) (fun r => Right.pure (hQ r)) (fun b δ hle hcalm hb => ?_))
  have howes : ∀ ch, ¬ δ.owes ch := by
    intro ch ho
    rw [hle.owes] at ho
    exact ho
  have hlt : ∀ j, f j = some p → j ∈ range nproc :=
    fun j hj => mem_range.mpr (hf.2 j p hj).1
  show Right (logic S) (if b = false then _ else _) _ _ _
  split_ifs with h0
  · refine right_waitFailed hk howes (.inr (fun j hj => ?_)) hQ
    exact (hb h0).2 j (hlt j hj) hj
  · refine Right.seq (right_killed (c := some p) (outer_busy .wait rfl f δ) rfl
      howes (fun h0 => by simp [busy, one] at h0) (fun d => ?_))
    split_ifs with hd
    · refine right_waitFailed hk howes (.inl (.inr ⟨rfl, ?_, hd⟩)) hQ
      rw [busy_view]
      simp
    · refine Right.seq (right_sleep .wait rfl (guard_procChan p)
        ⟨howes, p, f, rfl, busy_view .wait f _, fun j hj => ?_⟩ (fun g hg => ?_))
      · exact .inl (hcalm j (hlt j hj) hj)
      · refine Right.run ⟨hk, g, hp, rfl, hg⟩ ?_
        rintro r h' k' ⟨rfl, rfl⟩
        exact hQ r

theorem right_kwait {Q : Int → Held D → Kept → Prop} (addr : Nat) (hp : p < nproc)
    (hk : k.due = none) (hQ : ∀ r, Q r (quiet (some p)) { k with due := some r }) :
    Right (logic S) (kwait addr) (quiet (some p)) k Q := by
  refine Right.seq (right_myproc ?_)
  refine Right.seq (right_lock_quiet (fun f hf => ?_))
  refine Right.run ⟨hk, f, hp, rfl, hf⟩ ?_
  rintro r h' k' ⟨rfl, rfl⟩
  exact hQ r

theorem slot_rank_lt (hi : i < nproc) :
    ∀ lk, ((quiet c : Held D).slot i d).view lk ≠ none → rank lk < rank .pid := by
  intro lk hv
  by_cases he : lk = .proc i
  · subst he
    show i + 1 < nproc + 1
    omega
  · exact absurd (slot_view_of_ne _ d he) hv

theorem right_nextpid {Q : Int → Held D → Kept → Prop} {n : Int} (hn : h.view .pid = some n)
    (hQ : Q n h k) : Right (logic S) nextpid h k Q := by
  refine ⟨fun hv => by simp [hv] at hn, fun r h' k' hp => ?_⟩
  obtain ⟨hr, rfl, rfl⟩ := hp
  obtain rfl : n = r := some.inj (hn.symm.trans hr)
  exact hQ

theorem right_allocpid {Q : Int → Held D → Kept → Prop} (hi : i < nproc)
    (hd : c = some i → d.state ≠ .running) (hQ : ∀ n, Q n ((quiet c).slot i d) k) :
    Right (logic S) allocpid ((quiet c).slot i d) k Q := by
  have hnone : ((quiet c : Held D).slot i d).view .pid = none :=
    slot_view_of_ne _ d (by simp)
  refine seq (right_acquire hnone (slot_rank_lt hi) (fun n _ => ?_))
  have hview := put_view_self ((quiet c : Held D).slot i d) .pid n
  refine seq (right_nextpid hview ?_)
  refine seq ⟨fun hv => ?_, fun _ h' k' hp => ?_⟩
  · rw [hview] at hv
    simp at hv
  obtain ⟨rfl, rfl⟩ := hp
  generalize hh : (put { ((quiet c : Held D).slot i d).put .pid n with
    noff := ((quiet c : Held D).slot i d).noff + 1 } .pid (i32 (n + 1))) = h
  have hcur : h.cur = c := by rw [← hh]; rfl
  have hnoff : h.noff = 2 := by rw [← hh]; rfl
  have hpid : h.view .pid ≠ none := by
    rw [← hh, put_view_self]
    simp
  have hproc : h.proc = ((quiet c : Held D).slot i d).proc := by
    rw [← hh]
    funext j
    simp [proc, put]
  have hnap : ¬ h.Napping := by
    rintro ⟨j, e, hj, he, hr⟩
    rw [hproc] at he
    by_cases hji : j = i
    · subst hji
      rw [slot_proc] at he
      rw [← some.inj he] at hr
      exact hd (hcur.symm.trans hj) hr
    · have : ((quiet c : Held D).slot i d).proc j = none :=
        slot_view_of_ne _ d (fun he => hji (Lock.proc.inj he))
      rw [this] at he
      simp at he
  have heq : { h.unlock .pid with noff := h.noff - 1 } = (quiet c).slot i d := by
    rw [unlock_of_ne _ (by simp), if_neg hnap, ← hh]
    simp only [put, update_idem]
    rw [← hnone, update_eq_self]
    rfl
  refine seq (right_release (mayUnlock_of_ne (by simp) (by omega) hpid (fun ch ho => ?_)
    (fun hn => absurd hn hnap)) (fun h1 => by omega) ?_)
  · rw [← hh] at ho
    exact ho.elim
  · rw [heq]
    exact pure (hQ n)

theorem right_free {r : Bool} (hk : k.child = some ⟨i, r, false⟩)
    (hQ : Q () ((quiet c).slot i (Xv6.freeproc d)) { k with child := none }) :
    Right (logic S) (act (.free i)) ((quiet c).slot i d) k Q := by
  refine ⟨⟨fun hv => by simp [slot_proc] at hv, r, hk⟩, fun _ h' k' hp => ?_⟩
  obtain ⟨e, he, rfl, rfl⟩ := hp
  rw [slot_proc] at he
  obtain rfl : d = e := some.inj he
  rw [slot_put]
  exact hQ

theorem Kept.child_none (hk : k.child = none) : { k with child := none } = k := by
  cases k
  simp_all

theorem right_allocproc {Q : Option Nat → Held D → Kept → Prop} (is : List Nat)
    (his : ∀ i ∈ is, i < nproc) (hk : k.child = none) (hQ : Q none (quiet (some p)) k)
    (hQ' : ∀ i (d : Proc), i < nproc → p ≠ i → d.state = .used →
      Q (some i) ((quiet (some p)).slot i d) { k with child := some ⟨i, true, false⟩ }) :
    Right (logic S) (allocproc is) (quiet (some p)) k Q := by
  induction is with
  | nil => exact hQ
  | cons i is ih =>
    have hi := his i mem_cons_self
    refine seq (right_enter ((outer_quiet (some p)).rank_le i) (fun d hd _ => ?_))
    refine seq (right_slot (slot_proc _ i d) ?_)
    split_ifs with hun
    · have hne : p ≠ i := by
        rintro rfl
        have := hd rfl
        rw [hun] at this
        simp at this
      have hnp : ((quiet (some p) : Held D).slot i d).proc p = none :=
        slot_view_of_ne _ d (fun he => hne (Lock.proc.inj he))
      refine seq (right_allocpid hi (fun hc => absurd (some.inj hc) hne) (fun pid => ?_))
      refine seq ⟨.inl rfl, fun t h' k' hp => ?_⟩
      obtain ⟨rfl, rfl⟩ := hp
      refine seq (right_write (slot_proc _ i d) ⟨hun, hk, hi, p, rfl, hnp⟩ ?_)
      have hw : ((quiet (some p) : Held D).slot i d).wrote i (.used pid t) d =
          (quiet (some p)).slot i ((Move.used pid t).apply d) := slot_put _ i d _
      rw [hw]
      refine seq (right_oracle (fun ok => ?_))
      split_ifs
      · refine seq (start ⟨i, _, rfl, rfl, hi, slot_proc _ i _, rfl, rfl⟩ ?_)
        rintro h' k'' ⟨rfl, hr⟩
        rw [hr i rfl]
        exact pure (hQ' i _ hi hne rfl)
      · refine seq (right_free rfl ?_)
        refine seq (right_exit_quiet (fun hc => absurd (some.inj hc) hne) (pure ?_))
        have := Kept.child_none hk
        unfold Kept.wrote
        rw [this]
        exact hQ
    · exact seq (right_exit_quiet (fun hc => hd hc) (ih (fun j hj => his j (mem_cons_of_mem i hj))))

theorem right_kfork {Q : Int → Held D → Kept → Prop} (hk : k.child = none)
    (hQ : ∀ r, Q r (quiet (some p)) k) : Right (logic S) kfork (quiet (some p)) k Q := by
  refine seq (right_myproc ?_)
  refine seq (right_allocproc _ (fun i hi => mem_range.mp hi) hk (pure (hQ _))
    (fun np d hnp hne hd => ?_))
  have hown : some p = some np → False := fun hc => hne (some.inj hc)
  refine seq (right_oracle (fun ok => ?_))
  split_ifs with hok
  · refine seq (right_slot (slot_proc _ np d) ?_)
    refine seq (right_exit_quiet (fun hc => (hown hc).elim) ?_)
    refine seq (right_lock_quiet (fun f _ => ?_))
    refine seq ⟨⟨rfl, busy_proc .wait rfl f noDuty p, ?_, true, rfl⟩, fun _ h' k' hp => ?_⟩
    · rw [Held.parents, busy_view]
      simp
    obtain ⟨g, x, hg, hx, rfl, rfl⟩ := hp
    obtain rfl := some.inj hx
    rw [busy_put .wait]
    refine seq (right_release_busy .wait rfl (fun ch ho => ho.elim) ?_)
    refine seq (right_enter ((outer_quiet (some p)).rank_le np) (fun e _ he => ?_))
    have he : e.state = .used := he _ rfl rfl
    refine seq (right_write (slot_proc _ np e) (.inr (.inr ⟨rfl, he⟩)) ?_)
    have hw : ((quiet (some p) : Held D).slot np e).wrote np .runnable e =
        (quiet (some p)).slot np (Move.runnable.apply e) := slot_put _ np e _
    rw [hw]
    refine seq (right_exit_quiet (fun hc => (hown hc).elim) (pure ?_))
    unfold Kept.wrote
    rw [if_pos he]
    have := Kept.child_none hk
    dsimp only
    rw [this]
    exact hQ _
  · refine seq (right_free rfl ?_)
    refine seq (right_exit_quiet (fun hc => (hown hc).elim) (pure ?_))
    have := Kept.child_none hk
    dsimp only
    rw [this]
    exact hQ _

theorem right_exitIfKilled (hQ : Q () (quiet (some p)) idle) :
    Right (logic S) (exitIfKilled p) (quiet (some p)) idle Q := by
  refine seq (right_killed (c := some p) (outer_quiet (some p)) rfl (fun _ => id) (fun _ => rfl)
    (fun d => ?_))
  rw [visited_quiet]
  exact right_onlyIf (fun _ => right_kexit _) (fun _ => hQ)

theorem right_syscall (a : Call D) (hp : p < nproc) (hQ : Q () (quiet (some p)) idle) :
    Right (logic S) (syscall a) (quiet (some p)) idle Q := by
  cases a with
  | op a => exact right_op a hQ
  | fork => exact seq (right_kfork rfl (fun _ => pure hQ))
  | exit status => exact right_kexit status
  | wait addr =>
    refine seq (right_kwait addr hp rfl (fun r => ⟨⟨⟨p, rfl, rfl⟩, rfl⟩, fun _ h' k' hpost => ?_⟩))
    obtain ⟨rfl, rfl⟩ := hpost
    exact hQ

theorem right_trapBody (cfg : Config) (t : Trap D) (hp : p < nproc)
    (hQ : Q () (quiet (some p)) idle) :
    Right (logic S) (trapBody cfg p t) (quiet (some p)) idle Q := by
  cases t with
  | syscall a =>
    refine seq (right_exitIfKilled ?_)
    refine seq (right_intrOn rfl ?_)
    exact seq (right_syscall a hp (right_exitIfKilled hQ))
  | timer =>
    refine seq (right_clockintr cfg ?_)
    exact seq (right_exitIfKilled (right_preempt cfg hQ))
  | device o f => exact seq (right_announce o f (right_exitIfKilled hQ))
  | fault => exact seq (right_setkilled (right_exitIfKilled hQ))

theorem right_user (cfg : Config) (hp : p < nproc) :
    Right (logic S) (user cfg) (quiet (some p)) idle Q := by
  refine seq ⟨trivial, fun t h' k' hpost => ?_⟩
  obtain ⟨rfl, rfl⟩ := hpost
  refine seq (seq (right_myproc ?_))
  refine seq (right_trapBody cfg t hp (right_intrOff ?_))
  exact Right.run ⟨p, hp, rfl, rfl⟩ (fun _ h' k' hg => hg.elim)

theorem right_forkret (hp : p < nproc) (hd : d.state = .running) :
    Right (logic S) forkret (one (some p) (.proc p) d) idle Q := by
  refine seq (right_myproc ?_)
  refine seq (right_exit_quiet (fun _ => hd) ?_)
  refine seq (right_intrOff ?_)
  exact Right.run ⟨p, hp, rfl, rfl⟩ (fun _ h' k' hg => hg.elim)

theorem right_setproc {v : Option Nat} (hc : h.cur = none) (hv : h.right = v)
    (hQ : Q () { h with me := v } k) : Right (logic S) (act (.setproc v)) h k Q := by
  refine ⟨⟨hc, hv⟩, fun _ h' k' hp => ?_⟩
  obtain ⟨rfl, rfl⟩ := hp
  exact hQ

/-- The lock of process `i` is held, which is running from now on. -/
def chosen (i : Nat) (d : Proc) : Held D :=
  { (one none (.proc i) d : Held D) with me := some i, right := some i }

theorem right_running (hi : i < nproc) (hd : d.state = .runnable)
    (hQ : Q () ({ (quiet none : Held D) with right := some i }.slot i (Move.running.apply d)) k) :
    Right (logic S) (write i .running) ((quiet none).slot i d) k Q := by
  refine right_write (slot_proc _ i d) ⟨rfl, rfl, rfl, hd, hi⟩ ?_
  have hw : ((quiet none : Held D).slot i d).wrote i .running d =
      { (quiet none : Held D) with right := some i }.slot i (Move.running.apply d) := by
    unfold wrote
    rw [slot_put]
    rfl
  rw [hw]
  exact hQ

theorem right_dispatch (s : Scheduler) (hi : i < nproc) (hd : d.state = .runnable)
    (hQ : ∀ e : Proc, e.state = .running → Q () (chosen i e) k) :
    Right (logic S) (dispatch i s) ((quiet none).slot i d) k Q := by
  have hrr : Right (logic S) (dispatch i .rr) ((quiet none).slot i d) k Q := by
    refine seq (right_running hi hd ?_)
    refine seq (right_setproc rfl rfl ?_)
    exact right_tally (h := { (quiet none : Held D) with me := some i, right := some i }) (hQ _ rfl)
  cases s with
  | rr => exact hrr
  | fcfs => exact hrr
  | pbs =>
    refine seq (right_tally ?_)
    refine seq (right_running hi hd ?_)
    exact right_setproc rfl rfl (hQ _ rfl)

theorem right_switchTo (s : Scheduler) (hi : i < nproc) (hd : d.state = .runnable)
    (hQ : ∀ e : Proc, Q () (one none (.proc i) e) k) :
    Right (logic S) (switchTo s i) ((quiet none).slot i d) k Q := by
  refine seq (right_dispatch s hi hd (fun e he => ?_))
  refine seq (switch (Leave.run i e he) (fun h' hb => ?_))
  cases hb with
  | sched j e' _ hm _ =>
    obtain rfl : i = j := some.inj hm
    exact right_setproc rfl rfl (hQ e')
  | proc j e' hc _ _ => simp [chosen, one, quiet] at hc

theorem right_roundRobin (is : List Nat) (his : ∀ i ∈ is, i < nproc) (hQ : Q () (quiet none) k) :
    Right (logic S) (roundRobin is) (quiet none) k Q := by
  induction is with
  | nil => exact hQ
  | cons i is ih =>
    have ih := ih (fun j hj => his j (mem_cons_of_mem i hj))
    have hexit : ∀ d : Proc, Right (logic S) (release (.proc i) >>= fun _ => roundRobin is)
        ((quiet none).slot i d) k Q :=
      fun d => seq (right_exit_quiet (fun hc => by simp at hc) ih)
    refine seq (right_enter ((outer_quiet none).rank_le i) (fun d _ _ => ?_))
    refine seq (right_slot (slot_proc _ i d) ?_)
    refine seq (right_onlyIf (fun ht => ?_) (fun _ => hexit d))
    exact right_switchTo .rr (his i mem_cons_self) (of_decide_eq_true ht) hexit

/-- What the scan of FCFS and PBS holds: the lock of the candidate. -/
def Candidate (h : Held D) : Option Nat → Prop
  | none => h = quiet none
  | some q => ∃ e : Proc, e.state = .runnable ∧ h = (quiet none).slot q e

theorem right_scan {Q : Option Nat → Held D → Kept → Prop} (s : Scheduler) (is : List Nat)
    (best : Option Nat) (dp : Int) (hsort : is.Pairwise (· < ·))
    (hbest : ∀ q, best = some q → ∀ i ∈ is, q < i) (hh : Candidate h best)
    (hQ : ∀ b h', (∀ q, b = some q → q ∈ is ∨ best = some q) → Candidate h' b → Q b h' k) :
    Right (logic S) (scan s is best dp) h k Q := by
  induction is generalizing best dp h with
  | nil => exact hQ best h (fun q hq => .inr hq) hh
  | cons i is ih =>
    obtain ⟨hlt, hsort⟩ := pairwise_cons.mp hsort
    have hbest' : ∀ q, best = some q → ∀ j ∈ is, q < j :=
      fun q hq j hj => hbest q hq j (mem_cons_of_mem i hj)
    -- the candidate stays
    have hkeep : ∀ dp, Right (logic S) (scan s is best dp) h k Q := by
      intro dp
      refine ih best dp hsort hbest' hh (fun b h' hb hc => hQ b h' (fun q hq => ?_) hc)
      exact (hb q hq).imp (mem_cons_of_mem i) id
    -- slot `i` becomes the candidate
    have htake : ∀ (d : Proc) dp, d.state = .runnable →
        Right (logic S) (scan s is (some i) dp) ((quiet none).slot i d) k Q := by
      intro d dp hd
      refine ih (some i) dp hsort (fun q hq j hj => ?_) ⟨d, hd, rfl⟩
        (fun b h' hb hc => hQ b h' (fun q hq => ?_) hc)
      · rw [← some.inj hq]
        exact hlt j hj
      · rcases hb q hq with hm | he
        · exact .inl (mem_cons_of_mem i hm)
        · rw [← some.inj he]
          exact .inl mem_cons_self
    cases best with
    | none =>
      obtain rfl : h = quiet none := hh
      refine seq (right_enter ((outer_quiet none).rank_le i) (fun d _ _ => ?_))
      refine seq (right_slot (slot_proc _ i d) ?_)
      split_ifs with hd
      · exact htake d _ hd
      · exact seq (right_exit_quiet (fun hc => by simp at hc) (hkeep dp))
    | some q =>
      obtain ⟨e, he, rfl⟩ := hh
      have hqi : q < i := hbest q rfl i mem_cons_self
      have hne : i ≠ q := by omega
      have hq : ((quiet none : Held D).slot q e).view (.proc i) = none :=
        slot_view_of_ne _ e (fun hp => hne (Lock.proc.inj hp))
      have hi : ∀ d : Proc, ((quiet none : Held D).slot i d).view (.proc q) = none :=
        fun d => slot_view_of_ne _ d (fun hp => hne.symm (Lock.proc.inj hp))
      refine seq (right_enter (fun lk hv => ?_) (fun d _ _ => ?_))
      · by_cases hlk : lk = .proc q
        · subst hlk
          exact hqi
        · exact absurd (slot_view_of_ne _ e hlk) hv
      have hdrop : Right (logic S) (release (.proc i) >>= fun _ => scan s is (some q) dp)
          (((quiet none).slot q e).slot i d) k Q := by
        refine seq (right_exit hq (by simp [Held.slot, Held.put, quiet])
          (fun _ => by simp [Held.slot, Held.put, quiet])
          (fun hc => by simp [Held.slot, Held.put, quiet] at hc) (fun ch ho => ho.elim)
          (fun h0 => by simp [Held.slot] at h0) ?_)
        rw [visited_slot]
        exact hkeep dp
      refine seq (right_slot (slot_proc _ i d) ?_)
      split_ifs with hd
      · have hread : (((quiet none : Held D).slot q e).slot i d).proc q = some e := by
          rw [slot_comm _ hne.symm, slot_proc]
        refine seq (right_slot hread ?_)
        split_ifs with hb
        · rw [slot_comm _ hne.symm]
          refine seq (right_exit (hi d) (by simp [Held.slot, Held.put, quiet])
            (fun _ => by simp [Held.slot, Held.put, quiet])
            (fun hc => by simp [Held.slot, Held.put, quiet] at hc) (fun ch ho => ho.elim)
            (fun h0 => by simp [Held.slot] at h0) ?_)
          rw [visited_slot]
          exact htake d _ hd
        · exact hdrop
      · exact hdrop

theorem right_runBest (s : Scheduler) (hQ : Q () (quiet none) k) :
    Right (logic S) (runBest s) (quiet none) k Q := by
  refine seq (right_scan s _ none 101 pairwise_lt_range (fun q hq => by simp at hq) rfl
    (fun b h' hb hc => ?_))
  cases b with
  | none =>
    obtain rfl : h' = quiet none := hc
    exact pure hQ
  | some i =>
    obtain ⟨e, he, rfl⟩ := hc
    have hi : i ∈ range nproc := (hb i rfl).resolve_right (by simp)
    refine seq (right_switchTo s (mem_range.mp hi) he (fun e' => ?_))
    exact right_exit_quiet (fun hc => by simp at hc) hQ

theorem right_scheduler (cfg : Config) : Right (logic S) (scheduler cfg) (quiet none) idle Q := by
  refine seq (right_intrOn rfl ?_)
  have hloop : Right (logic S) (run .scheduler) (quiet none) idle Q :=
    Right.run ⟨rfl, rfl⟩ (fun _ h' k' hg => hg.elim)
  refine seq ?_
  cases cfg.scheduler with
  | rr => exact right_roundRobin _ (fun i hi => mem_range.mp hi) hloop
  | fcfs => exact right_runBest _ hloop
  | pbs => exact right_runBest _ hloop

theorem verified (S : Setup D) : Verified (system S) (logic S) := by
  intro a h k hn
  cases a with
  | scheduler =>
    obtain ⟨rfl, rfl⟩ := hn
    exact right_scheduler S.cfg
  | forkret =>
    obtain ⟨i, d, hi, hd, rfl, rfl⟩ := hn
    exact right_forkret hi hd
  | user =>
    obtain ⟨i, hi, rfl, rfl⟩ := hn
    exact right_user S.cfg hi
  | kwait p addr =>
    obtain ⟨hk, f, hp, rfl, hf⟩ := hn
    exact right_kwaitBody addr hp hk hf (fun r => ⟨rfl, rfl⟩)
  | acquiresleep l =>
    obtain ⟨i, v, rfl⟩ := hn
    exact right_acquiresleepBody l v (fun w hw => ⟨w, hw, rfl, rfl⟩)
  | await o =>
    obtain ⟨i, v, rfl⟩ := hn
    exact right_awaitBody o v (fun w hw => ⟨w, hw, rfl, rfl⟩)
  | pause t n =>
    obtain ⟨i, v, rfl⟩ := hn
    exact right_pauseBody t n v (fun r => ⟨rfl, rfl⟩)

end Smp

end Xv6
