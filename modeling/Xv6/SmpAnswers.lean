import Xv6.SmpData

/-! What `kwait` returns. The history records how each call ends; the value stays
with the thread until the system call hands it over. -/

namespace Xv6

namespace Smp

open Threads List Option
open Function (update update_apply update_of_ne update_self)

variable {D : Type} {proc proc' : Nat → Proc} {y y' : History} {g : Resources D}
  {kept : Thread → Kept} {p i : Nat} {x : Thread} {h : Held D} {k : Kept} {d : Proc} {c : Nat × Nat}

/-- What the calls of process `c` came to, the last one first. -/
def returns (waits : List Waited) (c : Nat × Nat) : List Int :=
  (waits.filter (fun x => x.caller = c)).map Waited.ret

/-- What process `c` was given as the value of its calls. -/
def answered (answers : List ((Nat × Nat) × Int)) (c : Nat × Nat) : List Int :=
  (answers.filter (fun a => a.1 = c)).map Prod.snd

def owed (inc : Nat → Nat) (kept : Thread → Kept) (c : Nat × Nat) : List Int :=
  (if inc c.1 = c.2 then (kept (.proc c.1)).due else none).toList

def Returned (y : History) (kept : Thread → Kept) : Prop :=
  ∀ c, returns y.waits c = owed y.inc kept c ++ answered y.answers c

/-- A process that was seen killed is marked, and a copy that failed is on record. -/
structure Reasons (proc : Nat → Proc) (spoilt : Nat → Bool) (held : Nat → Held D) : Prop where
  dying : ∀ p j, (held p).dying j → (held p).cur = some j → (proc j).killed ≠ 0
  spoilt : ∀ p, (held p).spoilt → spoilt p = true

structure Told (s : State D) (g : Resources D) : Prop where
  all : Returned s.hist g.kept
  why : Reasons s.proc s.hist.spoilt g.held

theorem owed_update (inc : Nat → Nat) (kept : Thread → Kept) (i : Nat) (k : Kept) :
    owed inc (update kept (.proc i) k) c =
      if c = (i, inc i) then k.due.toList else owed inc kept c := by
  obtain ⟨j, n⟩ := c
  by_cases hj : j = i
  · subst hj
    simp only [owed, update_self, Prod.mk.injEq, true_and]
    split_ifs <;> simp_all
  · simp [owed, update_of_ne, hj]

theorem Returned.same (hr : Returned y kept) (hk : k.due = (kept x).due)
    (hy : y' = { y' with waits := y.waits, answers := y.answers, inc := y.inc }) :
    Returned y' (update kept x k) := by
  rw [hy]
  intro c
  have howed : owed y.inc (update kept x k) c = owed y.inc kept c := by
    unfold owed
    rw [update_apply]
    split_ifs with h1 h2
    · rw [h2, hk]
    · rfl
    · rfl
  exact (hr c).trans (by rw [← howed])

theorem Returned.record (hr : Returned y kept) (hdue : (kept (.proc i)).due = none) {w : Waited}
    (hy : y' = { y' with waits := w :: y.waits, answers := y.answers, inc := y.inc })
    (hw : w.caller = (i, y.inc i)) (hk : k.due = some w.ret) :
    Returned y' (update kept (.proc i) k) := by
  rw [hy]
  intro c
  have hc := hr c
  rw [owed_update]
  dsimp only [returns]
  rw [filter_cons, hw]
  by_cases he : c = (i, y.inc i)
  · subst he
    simp only [owed, if_pos, hdue, toList_none, nil_append] at hc
    simp [hk, ← hc, returns]
  · simpa [Ne.symm he, if_neg he, returns] using hc

theorem Returned.hand (hr : Returned y kept) {v : Int} (hdue : (kept (.proc i)).due = some v)
    (hk : k.due = none)
    (hy : y' = { y' with
      waits := y.waits, answers := ((i, y.inc i), v) :: y.answers, inc := y.inc }) :
    Returned y' (update kept (.proc i) k) := by
  rw [hy]
  intro c
  have hc := hr c
  rw [owed_update]
  dsimp only [answered]
  rw [filter_cons]
  by_cases he : c = (i, y.inc i)
  · subst he
    simp only [owed, if_pos, hdue, toList_some] at hc
    simp [hk, hc, answered]
  · simpa [Ne.symm he, if_neg he, answered] using hc

/-- The new process of a slot has made no calls, nor is its predecessor owed anything. -/
theorem Returned.born (hr : Returned y kept) (hdue : (kept (.proc i)).due = none) {inc : Nat → Nat}
    (hinc : ∀ j, j ≠ i → inc j = y.inc j)
    (hy : y' = { y' with waits := y.waits, answers := y.answers, inc := inc }) :
    Returned y' kept := by
  rw [hy]
  intro c
  have howed : owed inc kept c = owed y.inc kept c := by
    unfold owed
    by_cases hi : c.1 = i
    · simp [hi, hdue]
    · rw [hinc _ hi]
  exact (hr c).trans (by rw [← howed])

theorem Reasons.step {spoilt spoilt' : Nat → Bool} {held : Nat → Held D}
    (hr : Reasons proc spoilt held)
    (hdying : ∀ j, h.dying j → (held p).dying j ∨ (h.cur = some j → (proc' j).killed ≠ 0))
    (hcur : h.cur = (held p).cur) (hs : ∀ q, q ≠ p → spoilt' q = spoilt q)
    (hsp : h.spoilt → spoilt' p = true)
    (hk : ∀ q j, (held q).cur = some j → (proc j).killed ≠ 0 → (proc' j).killed ≠ 0) :
    Reasons proc' spoilt' (update held p h) := by
  constructor
  case dying =>
    intro q j hd hc
    rw [update_apply] at hd hc
    split_ifs at hd hc with hq
    · rw [hcur] at hc
      rcases hdying j hd with hd | hd
      · exact hk p j hc (hr.dying p j hd hc)
      · exact hd (hcur.trans hc)
    · exact hk q j hc (hr.dying q j hd hc)
  case spoilt =>
    intro q hq
    rw [update_apply] at hq
    split_ifs at hq with hqp
    · exact hqp ▸ hsp hq
    · rw [hs q hqp]
      exact hr.spoilt q hq

theorem Reasons.rest {spoilt : Nat → Bool} {held : Nat → Held D} (hr : Reasons proc spoilt held)
    (hd : h.toDuty = noDuty) : Reasons proc spoilt (update held p h) := by
  constructor
  case dying =>
    intro q j hq hc
    rw [update_apply] at hq hc
    split_ifs at hq hc
    · simp [hd, noDuty] at hq
    · exact hr.dying q j hq hc
  case spoilt =>
    intro q hq
    rw [update_apply] at hq
    split_ifs at hq
    · simp [hd, noDuty] at hq
    · exact hr.spoilt q hq

section Steps

variable {s t : State D} {cur : Nat → Thread} {lk : Lock} {m : Move}

/-- A step that says nothing about calls of `kwait`. -/
theorem Told.keep (ht : Told s g) (hdue : k.due = (g.kept x).due)
    (hcur : h.cur = (g.held p).cur) (hd : h.dying = (g.held p).dying)
    (hs : h.spoilt = (g.held p).spoilt)
    (hk : ∀ q j, (g.held q).cur = some j → (s.proc j).killed ≠ 0 → (t.proc j).killed ≠ 0)
    (hy : t.hist = { t.hist with
      waits := s.hist.waits, answers := s.hist.answers, spoilt := s.hist.spoilt
      inc := s.hist.inc }) :
    Told t (g.set p x h k) := by
  have hsp : t.hist.spoilt = s.hist.spoilt := by rw [hy]
  refine ⟨ht.all.same hdue (by rw [hy]), ht.why.step (fun j hj => .inl (hd ▸ hj)) hcur
    (fun _ _ => by rw [hsp]) (fun h0 => ?_) hk⟩
  rw [hsp]
  exact ht.why.spoilt p (hs ▸ h0)

theorem Told.unlock (ht : Told s g) (hi : Inv s g cur) (hv : (g.held p).view lk ≠ none) :
    Told { s with lock := update s.lock lk none, hist := s.hist.unlock p lk }
      (g.set p (cur p) ((g.held p).unlock lk) (g.kept (cur p))) := by
  refine ⟨ht.all.same rfl rfl, ?_⟩
  by_cases hlk : ∃ i, lk = .proc i
  · obtain ⟨i, rfl⟩ := hlk
    refine ht.why.step (fun j hj => hj.imp id ?_) rfl (fun _ _ => rfl) (ht.why.spoilt p)
      (fun _ _ _ => id)
    rintro ⟨rfl, -, hk⟩ -
    obtain ⟨d, hd⟩ := ne_none_iff_exists'.mp hv
    exact (hi.holds_proc hd).2 ▸ hk d hd
  · have hd : ((g.held p).unlock lk).toDuty = noDuty := by
      cases lk <;> first | rfl | exact absurd ⟨_, rfl⟩ hlk
    exact ht.why.rest hd

theorem Move.apply_killed (hm : ∀ pid n, m ≠ .used pid n) (hd : d.killed ≠ 0) :
    (m.apply d).killed ≠ 0 := by
  cases m with
  | tally f =>
    simp only [Move.apply]
    split_ifs <;> assumption
  | used pid n => exact absurd rfl (hm pid n)
  | _ => exact hd

theorem Told.wrote (ht : Told s g) (hi : Inv s g cur) (hd : (g.held p).proc i = some d)
    (hm : MayWrite (g.held p) (g.kept (cur p)) i d m) :
    Told { s.set (.proc i) (m.apply d) with
      hist := s.hist.move p (decide ((s.cpu p).proc = some i)) i d m }
      (g.set p (cur p) ((g.held p).wrote i m d) ((g.kept (cur p)).wrote i m d)) := by
  obtain ⟨-, hpd⟩ := hi.holds_proc hd
  have hdue : ((g.kept (cur p)).wrote i m d).due = (g.kept (cur p)).due := by
    unfold Kept.wrote
    split <;> first | rfl | (split_ifs <;> rfl)
  have hwhy : (∀ q j, (g.held q).cur = some j → (s.proc j).killed ≠ 0 →
      (update s.proc i (m.apply d) j).killed ≠ 0) → Reasons (update s.proc i (m.apply d))
        s.hist.spoilt (update g.held p ((g.held p).wrote i m d)) := by
    intro hk
    refine ht.why.step (fun j hj => .inl ?_) ?_ (fun _ _ => rfl) (fun h0 => ht.why.spoilt p ?_) hk
    · cases m <;> exact hj
    · cases m <;> rfl
    · cases m <;> exact h0
  by_cases hu : ∃ pid n, m = .used pid n
  · obtain ⟨pid, n, rfl⟩ := hu
    have hst : states s i = .unused := (congrArg Proc.state hpd).trans hm.1
    have hidle : (g.kept (.proc i)).due = none := by
      rw [hi.kids.dead i (fun ha => ha.ne.1 hst)]
      rfl
    have hborn : Returned { s.hist with inc := update s.hist.inc i (s.hist.inc i + 1) } g.kept :=
      ht.all.born hidle (fun j hj => update_of_ne hj _ _) rfl
    refine ⟨hborn.same hdue rfl, ?_⟩
    show Reasons (s.set _ _).proc _ _
    rw [State.proc_set_proc]
    refine hwhy (fun q j hc hk => ?_)
    have hji : j ≠ i := by
      rintro rfl
      exact ((hi.run.phase q).of_cur hc).2.2.1.1 hst
    rwa [update_of_ne hji]
  · have hn : ∀ pid n, m ≠ .used pid n := fun pid n he => hu ⟨pid, n, he⟩
    have hy : ∀ own, s.hist.move p own i d m = { s.hist.move p own i d m with
        waits := s.hist.waits, answers := s.hist.answers, spoilt := s.hist.spoilt
        inc := s.hist.inc } := by
      intro own
      cases m with
      | used pid n => exact absurd rfl (hn pid n)
      | runnable | sleeping | zombie => cases own <;> rfl
      | _ => rfl
    refine ⟨ht.all.same hdue (by rw [hy]), ?_⟩
    show Reasons (s.set _ _).proc (s.hist.move _ _ _ _ _).spoilt _
    rw [State.proc_set_proc, hy]
    refine hwhy (fun q j _ hk => ?_)
    rw [update_apply]
    split_ifs with hj
    · exact Move.apply_killed hn (hpd ▸ hj ▸ hk)
    · exact hk

theorem Told.freed (ht : Told s g) (hn : ∀ q, (g.held q).cur ≠ some i) {y : History}
    (hy : y.spoilt = s.hist.spoilt) (hcur : h.cur = (g.held p).cur)
    (hd : h.dying = (g.held p).dying) (hs : h.spoilt = (g.held p).spoilt)
    (hall : Returned y (update g.kept x k)) :
    Told { s.freeproc i with hist := y } (g.set p x h k) := by
  refine ⟨hall, ?_⟩
  show Reasons (s.freeproc i).proc y.spoilt _
  rw [State.freeproc, State.proc_set _ .wait _ (by simp), State.proc_set_proc, hy]
  refine ht.why.step (fun j hj => .inl (hd ▸ hj)) hcur (fun _ _ => rfl)
    (fun h0 => ht.why.spoilt p (hs ▸ h0)) (fun q j hc hk => ?_)
  have hji : j ≠ i := by
    rintro rfl
    exact hn q hc
  rwa [update_of_ne hji]

end Steps

end Smp

end Xv6
