import Xv6.SmpInv

/-! A process runs on at most one hart: what the steps of a hart do to the cycle of
dispatching, running and leaving. -/

namespace Xv6

namespace Smp

open Threads
open Function (update update_apply update_eq_self update_of_ne update_self)

variable {D : Type} {own own' : Nat → Prop} {st : Nat → ProcState} {r : Run} {i j p q : Nat}

theorem Phase.mono (hr : Phase own st r) (ho : ∀ i, own i → own' i) : Phase own' st r := by
  cases hr with
  | idle => exact .idle
  | picked i h1 h2 => exact .picked i (ho i h1) h2
  | sent i h1 h2 => exact .sent i (ho i h1) h2
  | back i h1 h2 => exact .back i (ho i h1) h2
  | inside i nap h1 h2 h3 h4 => exact .inside i nap h1 h2 (fun hn => h3 (fun h => hn (ho i h))) h4

theorem Phase.congr {st' : Nat → ProcState} (hr : Phase own st r)
    (hs : ∀ i, r.On i → st' i = st i) : Phase own st' r := by
  cases hr with
  | idle => exact .idle
  | picked i h1 h2 => exact .picked i h1 (by rw [hs i (by simp [Run.On])]; exact h2)
  | sent i h1 h2 => exact .sent i h1 (by rw [hs i (by simp [Run.On])]; exact h2)
  | back i h1 h2 => exact .back i h1 (by rw [hs i (by simp [Run.On])]; exact h2)
  | inside i nap h1 h2 h3 h4 =>
    have hi : st' i = st i := hs i (by simp [Run.On])
    exact .inside i nap h1 (by rw [hi]; exact h2) (by rw [hi]; exact h3) (by rw [hi]; exact h4)

theorem Phase.running (hr : Phase own st r) (hi : r.On i) (ho : ¬ own i) :
    r.cur = some i ∧ st i = .running ∧ r.nap = none := by
  cases hr with
  | idle => simp [Run.On] at hi
  | picked k h1 h2 =>
    obtain rfl : k = i := by simpa [Run.On] using hi
    exact absurd h1 ho
  | sent k h1 h2 =>
    obtain rfl : k = i := by simpa [Run.On] using hi
    exact absurd h1 ho
  | back k h1 h2 =>
    obtain rfl : k = i := by simpa [Run.On] using hi
    exact absurd h1 ho
  | inside k nap h1 h2 h3 h4 =>
    obtain rfl : k = i := by simpa [Run.On] using hi
    exact ⟨rfl, h3 ho⟩

theorem Phase.of_cur (hr : Phase own st r) (hc : r.cur = some i) :
    r = ⟨some i, some i, none, r.nap⟩ ∧ i < nproc ∧ (st i ≠ .unused ∧ st i ≠ .used) ∧
      (r.nap ≠ none → own i ∧ (st i = .running ∨ st i = .sleeping)) := by
  cases hr with
  | inside k nap h1 h2 h3 h4 =>
    obtain rfl := Option.some.inj hc
    refine ⟨rfl, h1, h2, fun hn => ⟨?_, h4 hn⟩⟩
    by_contra ho
    exact hn (h3 ho).2
  | idle => simp at hc
  | picked => simp at hc
  | sent => simp at hc
  | back => simp at hc

section Inv

variable {lock lock' : Lock → Option Nat} {on : Nat → Option Nat} {run : Nat → Run}
  {parked : Thread → Held D} {cur : Nat → Thread}

theorem RunInv.on_none (hr : RunInv lock st on run parked cur) (hi : st i ≠ .running) :
    on i = none := by
  cases ho : on i with
  | none => rfl
  | some p => exact absurd ((hr.ran i p).mp ho).1 hi

theorem RunInv.lt (hr : RunInv lock st on run parked cur) (hi : st i ≠ .unused) : i < nproc := by
  by_contra hn
  exact hi (hr.table i (Nat.le_of_not_lt hn))

theorem RunInv.other (hr : RunInv lock st on run parked cur) (hl : lock (.proc j) = some p)
    (hq : q ≠ p) (hon : (run q).On j) : (run q).cur = some j ∧ st j = .running := by
  have hne : ¬ lock (.proc j) = some q := by
    rw [hl]
    exact fun he => hq (Option.some.inj he).symm
  obtain ⟨h1, h2, -⟩ := (hr.phase q).running hon hne
  exact ⟨h1, h2⟩

theorem RunInv.alone (hr : RunInv lock st on run parked cur) (hl : lock (.proc j) = some p)
    (hs : st j ≠ .running) (hp : ¬ (run p).On j) : ¬ (run q).On j := by
  intro hon
  by_cases hq : q = p
  · subst hq
    exact hp hon
  · exact hs (hr.other hl hq hon).2

theorem RunInv.slot (hr : RunInv lock st on run parked cur) (hl : lock (.proc j) = some p)
    {s : ProcState} {on' : Nat → Option Nat}
    (hphase : Phase (fun i => lock (.proc i) = some p) (update st j s) (run p))
    (hkeep : st j = .running → s = .running ∨ (run p).cur = some j)
    (hnew : s = .running → st j = .running) (hlt : s ≠ .unused → j < nproc)
    (hsame : s = .running → on' = on) (hoff : s ≠ .running → on' = update on j none)
    (hleft : Alive s → ¬ Alive (st j) → Resumes (parked (.proc j)) j) :
    RunInv lock (update st j s) on' run parked cur := by
  constructor
  case phase =>
    intro q
    by_cases hq : q = p
    · subst hq
      exact hphase
    · refine (hr.phase q).congr (fun i hi => ?_)
      by_cases hij : i = j
      · subst hij
        obtain ⟨hc, hrun⟩ := hr.other hl hq hi
        rcases hkeep hrun with hs | hp
        · rw [update_self, hs, hrun]
        · exact absurd (hr.unique q p i hi (.inl hp)) hq
      · rw [update_of_ne hij]
  case unique => exact hr.unique
  case here => exact hr.here
  case ran =>
    intro i q
    by_cases hs : s = .running
    · have hst : update st j s = st := by
        rw [hs, ← hnew hs, update_eq_self]
      rw [hsame hs, hst]
      exact hr.ran i q
    · rw [hoff hs]
      by_cases hij : i = j
      · subst hij
        simp [hs]
      · rw [update_of_ne hij, update_of_ne hij]
        exact hr.ran i q
  case running =>
    intro i hi
    rw [update_apply] at hi
    split_ifs at hi with hij
    · subst hij
      rw [hsame hi]
      exact hr.running i (hnew hi)
    · by_cases hs : s = .running
      · rw [hsame hs]
        exact hr.running i hi
      · rw [hoff hs, update_of_ne hij]
        exact hr.running i hi
  case table =>
    intro i hi
    rw [update_apply]
    split_ifs with hij
    · subst hij
      by_contra hs
      exact absurd (hlt hs) (by omega)
    · exact hr.table i hi
  case sched => exact hr.sched
  case left =>
    intro i hi hcur
    rw [update_apply] at hi
    split_ifs at hi with hij
    · subst hij
      by_cases ha : Alive (st i)
      · exact hr.left i ha hcur
      · exact hleft hi ha
    · exact hr.left i hi hcur

variable (lock') in
/-- Hart `p` goes on to `r`; the rest is about what it leaves behind. -/
theorem RunInv.move {parked' : Thread → Held D} {cur' : Nat → Thread}
    (hr : RunInv lock st on run parked cur)
    (hlock : ∀ q, q ≠ p → ∀ i, lock' (.proc i) = some q ↔ lock (.proc i) = some q)
    (hphase : Phase (fun i => lock' (.proc i) = some p) st r) (hon : ∀ i, r.On i → (run p).On i)
    (hcur : cur' = update cur p (thread p r.cur))
    (hran : ∀ i, st i = .running → ((run p).cur = some i ∨ (run p).right = some i ↔
      r.cur = some i ∨ r.right = some i))
    (hsched : ∀ q i, (update run p r q).cur = some i →
      (parked' (.sched q)).cur = none ∧ (parked' (.sched q)).me = some i)
    (hleft : ∀ i, Alive (st i) → (∀ q, (update run p r q).cur ≠ some i) →
      Resumes (parked' (.proc i)) i) :
    RunInv lock' st on (update run p r) parked' cur' := by
  have ho : ∀ q i, (update run p r q).On i → (run q).On i := by
    intro q i hi
    rw [update_apply] at hi
    split_ifs at hi with hq
    · subst hq
      exact hon i hi
    · exact hi
  constructor
  case phase =>
    intro q
    rw [update_apply]
    split_ifs with hq
    · subst hq
      exact hphase
    · exact (hr.phase q).mono (fun i hi => (hlock q hq i).mpr hi)
  case unique => exact fun a b i ha hb => hr.unique a b i (ho a i ha) (ho b i hb)
  case here =>
    intro q
    rw [hcur, update_apply, update_apply]
    split_ifs with hq
    · rw [hq]
    · exact hr.here q
  case ran =>
    intro i q
    rw [hr.ran i q, update_apply]
    split_ifs with hq
    · subst hq
      exact and_congr_right (hran i)
    · rfl
  case running => exact hr.running
  case table => exact hr.table
  case sched => exact hsched
  case left => exact hleft

variable (lock') in
theorem RunInv.turn (hr : RunInv lock st on run parked cur)
    (hlock : ∀ q, q ≠ p → ∀ i, lock' (.proc i) = some q ↔ lock (.proc i) = some q)
    (hphase : Phase (fun i => lock' (.proc i) = some p) st r) (hcur : r.cur = (run p).cur)
    (hright : r.right = (run p).right) (hon : ∀ i, r.On i → (run p).On i) :
    RunInv lock' st on (update run p r) parked cur := by
  have hc : ∀ q, (update run p r q).cur = (run q).cur := by
    intro q
    rw [update_apply]
    split_ifs with hq
    · rw [hcur, hq]
    · rfl
  refine hr.move lock' hlock hphase hon ?_ (fun i _ => by rw [hcur, hright])
    (fun q i hi => hr.sched q i ((hc q).symm.trans hi))
    (fun i hi hq => hr.left i hi (fun q => by rw [← hc q]; exact hq q))
  rw [hcur, ← hr.here p, update_eq_self]

theorem RunInv.pick (hr : RunInv lock st on run parked cur) (hl : lock (.proc j) = some p)
    (hj : j < nproc) (hs : st j = .runnable) (hp : run p = ⟨none, none, none, none⟩) :
    RunInv lock (update st j .running) (update on j (some p))
      (update run p ⟨none, none, some j, none⟩) parked cur := by
  have hfree : ∀ q, ¬ (run q).On j :=
    fun q => hr.alone hl (by simp [hs]) (by simp [hp, Run.On])
  have hc : ∀ q, (update run p ⟨none, none, some j, none⟩ q).cur = (run q).cur := by
    intro q
    by_cases hq : q = p
    · subst hq
      rw [update_self, hp]
    · rw [update_of_ne hq]
  have ho : ∀ q i, (update run p ⟨none, none, some j, none⟩ q).On i →
      (run q).On i ∨ (q = p ∧ i = j) := by
    intro q i hi
    rw [update_apply] at hi
    split_ifs at hi with hq
    · subst hq
      exact .inr ⟨rfl, by simpa [Run.On, eq_comm] using hi⟩
    · exact .inl hi
  constructor
  case phase =>
    intro q
    rw [update_apply]
    split_ifs with hq
    · subst hq
      exact .picked j hl (update_self _ _ _)
    · refine (hr.phase q).congr (fun i hi => update_of_ne ?_ _ _)
      rintro rfl
      exact hfree q hi
  case unique =>
    intro a b i ha hb
    rcases ho a i ha with ha' | ⟨ha', hij⟩
    · rcases ho b i hb with hb' | ⟨-, hij⟩
      · exact hr.unique a b i ha' hb'
      · rw [hij] at ha'
        exact absurd ha' (hfree a)
    · rcases ho b i hb with hb' | ⟨hb', -⟩
      · rw [hij] at hb'
        exact absurd hb' (hfree b)
      · rw [ha', hb']
  case here => exact fun q => by rw [hc q]; exact hr.here q
  case ran =>
    intro i q
    by_cases hij : i = j
    · subst hij
      rw [update_self, update_self]
      by_cases hq : q = p
      · subst hq
        simp
      · have h1 : (run q).cur ≠ some i := fun h => hfree q (.inl h)
        have h2 : (run q).right ≠ some i := fun h => hfree q (.inr (.inr h))
        rw [update_of_ne hq]
        simp [h1, h2, Ne.symm hq]
    · rw [update_of_ne hij, update_of_ne hij, hr.ran i q, hc q]
      by_cases hq : q = p
      · subst hq
        rw [update_self, hp]
        simp [Ne.symm hij]
      · rw [update_of_ne hq]
  case running =>
    intro i hi
    by_cases hij : i = j
    · subst hij
      rw [update_self]
      simp
    · rw [update_of_ne hij] at hi ⊢
      exact hr.running i hi
  case table =>
    intro i hi
    rw [update_of_ne (by omega)]
    exact hr.table i hi
  case sched => exact fun q i hi => hr.sched q i ((hc q).symm.trans hi)
  case left =>
    intro i hi hq
    refine hr.left i ?_ (fun q => by rw [← hc q]; exact hq q)
    by_cases hij : i = j
    · subst hij
      exact .inr (.inl hs)
    · rwa [update_of_ne hij] at hi

theorem RunInv.enter (hr : RunInv lock st on run parked cur)
    (hp : run p = ⟨none, some i, some i, none⟩) {h : Held D} (hc : h.cur = none)
    (hm : h.me = some i) (hi : i < nproc) :
    RunInv lock st on (update run p ⟨some i, some i, none, none⟩)
      (update parked (.sched p) h) (update cur p (.proc i)) := by
  have hphase := hr.phase p
  rw [hp] at hphase
  obtain ⟨hl, hs⟩ : lock (.proc i) = some p ∧ st i = .running := by
    cases hphase with
    | sent _ h1 h2 => exact ⟨h1, h2⟩
  refine hr.move lock (fun _ _ _ => Iff.rfl)
    (.inside i none hi (by simp [hs]) (fun hn => absurd hl hn) (fun hn => absurd rfl hn))
    (fun j hj => by simpa [hp, Run.On] using hj) rfl (fun j _ => by simp [hp]) ?_ ?_
  · intro q j hj
    by_cases hq : q = p
    · subst hq
      rw [update_self] at hj ⊢
      exact ⟨hc, hm.trans hj⟩
    · rw [update_of_ne hq] at hj
      rw [update_of_ne (by simp [hq])]
      exact hr.sched q j hj
  · intro j hj hq
    rw [update_of_ne (by simp)]
    refine hr.left j hj (fun q hcur => ?_)
    by_cases hqp : q = p
    · subst hqp
      rw [hp] at hcur
      simp at hcur
    · have := hq q
      rw [update_of_ne hqp] at this
      exact this hcur

theorem RunInv.leave (hr : RunInv lock st on run parked cur) {nap : Option Lock}
    (hp : run p = ⟨some i, some i, none, nap⟩) (hl : lock (.proc i) = some p)
    (hs : st i ≠ .running) {h : Held D} (hh : Alive (st i) → Resumes h i) :
    RunInv lock st on (update run p ⟨none, some i, none, none⟩)
      (update parked (.proc i) h) (update cur p (.sched p)) := by
  refine hr.move lock (fun _ _ _ => Iff.rfl) (.back i hl hs)
    (fun j hj => by simpa [hp, Run.On] using hj) rfl (fun j hj => ?_) ?_ ?_
  · have hij : i ≠ j := fun he => hs (he ▸ hj)
    simp [hp, hij]
  · intro q j hj
    rw [update_of_ne (by simp)]
    by_cases hq : q = p
    · subst hq
      rw [update_self] at hj
      simp at hj
    · rw [update_of_ne hq] at hj
      exact hr.sched q j hj
  · intro j hj hq
    by_cases hij : j = i
    · subst hij
      rw [update_self]
      exact hh hj
    · rw [update_of_ne (by simp [hij])]
      refine hr.left j hj (fun q hcur => ?_)
      by_cases hqp : q = p
      · subst hqp
        rw [hp] at hcur
        exact hij (Option.some.inj hcur).symm
      · have := hq q
        rw [update_of_ne hqp] at this
        exact this hcur

theorem RunInv.entry (hr : RunInv lock st on run parked cur) (hs : st i = .used) (h : Held D) :
    RunInv lock st on run (update parked (.proc i) h) cur := by
  refine { hr with sched := fun q j hj => ?_, left := fun j hj hq => ?_ }
  · rw [update_of_ne (by simp)]
    exact hr.sched q j hj
  · have hij : j ≠ i := by
      rintro rfl
      rw [hs] at hj
      simp [Alive] at hj
    rw [update_of_ne (by simp [hij])]
    exact hr.left j hj hq

end Inv

end Smp

end Xv6
