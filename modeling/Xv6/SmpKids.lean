import Xv6.SmpInv

/-! The process tree: who has a parent, who is in `kfork`, and who holds a sleep
lock. -/

namespace Xv6

namespace Smp

open Threads Function Option

variable {D : Type} {st : Nat → ProcState} {parent : Nat → Option Nat} {kept : Thread → Kept}
  {parked : Thread → Held D} {i j q : Nat} {s : ProcState} {k : Kept} {x : Thread}

theorem Alive.ne (hs : Alive s) : s ≠ .unused ∧ s ≠ .used ∧ s ≠ .zombie := by
  rcases hs with rfl | rfl | rfl <;> simp

theorem Kids.lt_init (hk : Kids st parent kept parked) (hs : st j = .unused ∨ st j = .used ∨
    st j = .zombie) : j ≠ initproc := by
  rintro rfl
  have := hk.init.1.ne
  simp_all

theorem Kids.child_alive (hk : Kids st parent kept parked) {c : Child}
    (hc : (kept x).child = some c) : ∃ q, x = .proc q ∧ Alive (st q) := by
  cases x with
  | sched p => simp [hk.sched p, idle] at hc
  | proc q =>
    refine ⟨q, rfl, ?_⟩
    by_contra hd
    simp [hk.dead q hd, idle] at hc

structure Filling (st : Nat → ProcState) (parent : Nat → Option Nat) (parked : Thread → Held D)
    (q : Nat) (c : Child) : Prop where
  used : st c.slot = .used
  parent : parent c.slot = if c.adopted then some q else none
  ready : c.ready = true → Resumes (parked (.proc c.slot)) c.slot

structure Tree (st : Nat → ProcState) (parent : Nat → Option Nat) : Prop where
  alive : ∀ j q, parent j = some q → Alive (st q) ∧ q ≠ j ∧ st j ≠ .unused
  orphan : ∀ j, st j ≠ .unused → st j ≠ .used → j ≠ initproc → parent j ≠ none
  init : Alive (st initproc) ∧ parent initproc = none

theorem Kids.filling (hk : Kids st parent kept parked) {c : Child}
    (hc : (kept (.proc q)).child = some c) : Filling st parent parked q c :=
  ⟨hk.child _ c hc, hk.adopted q c hc, hk.ready _ c hc⟩

theorem Kids.tree (hk : Kids st parent kept parked) : Tree st parent :=
  ⟨hk.alive, hk.orphan, hk.init⟩

section Writing

variable {st' : Nat → ProcState} {parent' : Nat → Option Nat} {parked' : Thread → Held D}
  {p : Option Nat} {c : Child}

theorem Filling.write (h : Filling st parent parked q c) (hne : c.slot ≠ j) :
    Filling (update st j s) (update parent j p) parked q c :=
  ⟨by rw [update_of_ne hne]; exact h.used, by rw [update_of_ne hne]; exact h.parent, h.ready⟩

theorem Tree.write (h : Tree st parent) (hkids : Alive s ∨ ∀ i, parent i ≠ some j)
    (hp : ∀ r, p = some r → Alive (st r) ∧ r ≠ j ∧ s ≠ .unused)
    (ho : s ≠ .unused → s ≠ .used → j ≠ initproc → p ≠ none)
    (hinit : j = initproc → Alive s ∧ p = none) :
    Tree (update st j s) (update parent j p) := by
  refine ⟨fun i r hi => ?_, fun i h1 h2 h3 => ?_, ?_⟩
  · by_cases hij : i = j
    · subst hij
      rw [update_self] at hi ⊢
      obtain ⟨hr, hne, hs⟩ := hp r hi
      rw [update_of_ne hne]
      exact ⟨hr, hne, hs⟩
    · rw [update_of_ne hij] at hi ⊢
      obtain ⟨hr, hne, hs⟩ := h.alive i r hi
      refine ⟨?_, hne, hs⟩
      rw [update_apply]
      split_ifs with hrj
      · subst hrj
        exact hkids.resolve_right (fun hnone => hnone i hi)
      · assumption
  · simp only [update_apply] at h1 h2 ⊢
    split_ifs at h1 h2 ⊢ with hij
    · subst hij
      exact ho h1 h2 h3
    · exact h.orphan i h1 h2 h3
  · simp only [update_apply]
    split_ifs with hij
    · subst hij
      exact hinit rfl
    · exact h.init

theorem Kids.same (hk : Kids st parent kept parked)
    (hfill : ∀ q c, (kept (.proc q)).child = some c → Filling st' parent' parked' q c)
    (hdead : ∀ i, Alive (st i) → Alive (st' i) ∨ kept (.proc i) = idle)
    (htree : Tree st' parent') : Kids st' parent' kept parked' := by
  have hproc : ∀ x c, (kept x).child = some c → ∃ q, x = .proc q ∧ Filling st' parent' parked' q c := by
    intro x c hc
    obtain ⟨q, rfl, -⟩ := hk.child_alive hc
    exact ⟨q, rfl, hfill q c hc⟩
  constructor
  case child =>
    intro x c hc
    obtain ⟨q, -, hf⟩ := hproc x c hc
    exact hf.used
  case adopted => exact fun q c hc => (hfill q c hc).parent
  case ready =>
    intro x c hc
    obtain ⟨q, -, hf⟩ := hproc x c hc
    exact hf.ready
  case unique => exact hk.unique
  case alive => exact htree.alive
  case orphan => exact htree.orphan
  case init => exact htree.init
  case dead =>
    intro i hi
    by_cases ha : Alive (st i)
    · exact (hdead i ha).resolve_left hi
    · exact hk.dead i ha
  case sched => exact hk.sched

theorem Kids.change (hk : Kids st parent kept parked) (hq : Alive (st q))
    (hnew : ∀ c, k.child = some c → Filling st parent parked q c)
    (hother : ∀ c r c', k.child = some c → r ≠ q → (kept (.proc r)).child = some c' →
      c'.slot ≠ c.slot) : Kids st parent (update kept (.proc q) k) parked := by
  have hcases : ∀ x c, (update kept (.proc q) k x).child = some c →
      (x = .proc q ∧ k.child = some c) ∨ (x ≠ .proc q ∧ (kept x).child = some c) := by
    intro x c hc
    rw [update_apply] at hc
    split_ifs at hc with hx
    · subst hx
      exact .inl ⟨rfl, hc⟩
    · exact .inr ⟨hx, hc⟩
  have hapart : ∀ {c x c'}, k.child = some c → x ≠ .proc q → (kept x).child = some c' →
      c'.slot ≠ c.slot := by
    intro c x c' hc hx hc'
    obtain ⟨r, rfl, -⟩ := hk.child_alive hc'
    exact hother c r c' hc (fun he => hx (by rw [he])) hc'
  constructor
  case child =>
    intro x c hc
    rcases hcases x c hc with ⟨-, hc⟩ | ⟨-, hc⟩
    · exact (hnew c hc).used
    · exact hk.child x c hc
  case adopted =>
    intro r c hc
    rcases hcases _ c hc with ⟨hr, hc⟩ | ⟨-, hc⟩
    · rw [Thread.proc.inj hr]
      exact (hnew c hc).parent
    · exact hk.adopted r c hc
  case ready =>
    intro x c hc
    rcases hcases x c hc with ⟨-, hc⟩ | ⟨-, hc⟩
    · exact (hnew c hc).ready
    · exact hk.ready x c hc
  case unique =>
    intro x y c c' hc hc' he
    rcases hcases x c hc with ⟨hx, hc⟩ | ⟨hx, hc⟩ <;> rcases hcases y c' hc' with ⟨hy, hc'⟩ | ⟨hy, hc'⟩
    · rw [hx, hy]
    · exact absurd he.symm (hapart hc hy hc')
    · exact absurd he (hapart hc' hx hc)
    · exact hk.unique x y c c' hc hc' he
  case alive => exact hk.alive
  case orphan => exact hk.orphan
  case init => exact hk.init
  case dead =>
    intro i hi
    have hne : i ≠ q := by
      rintro rfl
      exact hi hq
    rw [update_of_ne (by simp [hne])]
    exact hk.dead i hi
  case sched =>
    intro p
    rw [update_of_ne (by simp)]
    exact hk.sched p

theorem Kids.write (hk : Kids st parent kept parked)
    (hchild : ∀ r c, (kept (.proc r)).child = some c → c.slot ≠ j)
    (hidle : Alive (st j) → Alive s ∨ kept (.proc j) = idle)
    (hkids : Alive s ∨ ∀ i, parent i ≠ some j)
    (hp : ∀ r, p = some r → Alive (st r) ∧ r ≠ j ∧ s ≠ .unused)
    (ho : s ≠ .unused → s ≠ .used → j ≠ initproc → p ≠ none)
    (hinit : j = initproc → Alive s ∧ p = none) :
    Kids (update st j s) (update parent j p) kept parked := by
  refine hk.same (fun q c hc => (hk.filling hc).write (hchild q c hc)) (fun i hi => ?_)
    (hk.tree.write hkids hp ho hinit)
  rw [update_apply]
  split_ifs with hij
  · subst hij
    exact hidle hi
  · exact .inl hi

theorem Kids.slot_ne (hk : Kids st parent kept parked) (hj : st j ≠ .used) (r : Nat) (c : Child)
    (hc : (kept (.proc r)).child = some c) : c.slot ≠ j := by
  rintro rfl
  exact hj (hk.child _ c hc)

theorem Kids.live (hk : Kids st parent kept parked) (hj : Alive (st j)) (hs : Alive s) :
    Kids (update st j s) parent kept parked := by
  have hw := hk.write (s := s) (p := parent j) (hk.slot_ne hj.ne.2.1) (fun _ => .inl hs)
    (.inl hs) (fun r hr => ⟨(hk.alive j r hr).1, (hk.alive j r hr).2.1, hs.ne.1⟩)
    (fun _ _ => hk.orphan j hj.ne.1 hj.ne.2.1) (fun he => ⟨hs, he ▸ hk.init.2⟩)
  rwa [update_eq_self] at hw

theorem Kids.exit (hk : Kids st parent kept parked) (hj : Alive (st j)) (hne : j ≠ initproc)
    (hnone : ∀ i, parent i ≠ some j) (hidle : kept (.proc j) = idle) :
    Kids (update st j .zombie) parent kept parked := by
  have hw := hk.write (s := .zombie) (p := parent j) (hk.slot_ne hj.ne.2.1) (fun _ => .inr hidle)
    (.inr hnone) (fun r hr => ⟨(hk.alive j r hr).1, (hk.alive j r hr).2.1, by decide⟩)
    (fun _ _ => hk.orphan j hj.ne.1 hj.ne.2.1) (fun he => absurd he hne)
  rwa [update_eq_self] at hw

theorem Kids.reap (hk : Kids st parent kept parked) (hj : st j = .zombie) :
    Kids (update st j .unused) (update parent j none) kept parked := by
  have hdead : ¬ Alive (st j) := fun ha => ha.ne.2.2 hj
  refine hk.write (hk.slot_ne (by rw [hj]; decide)) (fun ha => absurd ha hdead)
    (.inr (fun i hi => hdead (hk.alive i j hi).1)) nofun (fun hne => absurd rfl hne) ?_
  exact fun he => absurd he (hk.lt_init (.inr (.inr hj)))

theorem Kids.inherit (hk : Kids st parent kept parked) (hs : st j ≠ .unused) (hq : Alive (st q))
    (hqj : q ≠ j) (hj : j ≠ initproc)
    (hchild : ∀ r c, (kept (.proc r)).child = some c → c.slot ≠ j) :
    Kids st (update parent j (some q)) kept parked := by
  have hkids : Alive (st j) ∨ ∀ i, parent i ≠ some j := by
    by_cases ha : Alive (st j)
    · exact .inl ha
    · exact .inr (fun i hi => ha (hk.alive i j hi).1)
  have hw := hk.write (s := st j) (p := some q) hchild (fun ha => .inl ha) hkids
    (fun r hr => some.inj hr ▸ ⟨hq, hqj, hs⟩) (fun _ _ _ => nofun) (fun he => absurd he hj)
  rwa [update_eq_self] at hw

theorem Kids.leave (hk : Kids st parent kept parked) {y : Thread}
    (hy : ∀ r c, (kept (.proc r)).child = some c → Thread.proc c.slot ≠ y) (h : Held D) :
    Kids st parent kept (update parked y h) := by
  refine hk.same (fun q c hc => ?_) (fun _ hi => .inl hi) hk.tree
  obtain ⟨hused, hpar, hready⟩ := hk.filling hc
  exact ⟨hused, hpar, by rwa [update_of_ne (hy q c hc)]⟩

theorem Kids.park (hk : Kids st parent kept parked) {y : Thread}
    (hy : ∀ i, y = .proc i → st i ≠ .used) (h : Held D) :
    Kids st parent kept (update parked y h) :=
  hk.leave (fun _ c hc he => hy c.slot he.symm (hk.child _ c hc)) h

theorem Kids.own (hk : Kids st parent kept parked) (hq : Alive (st q))
    (hc : k.child = (kept (.proc q)).child) :
    Kids st parent (update kept (.proc q) k) parked := by
  refine hk.change hq (fun c hc' => hk.filling (hc.symm.trans hc')) (fun c r c' hc' hr hrc he => ?_)
  exact hr (Thread.proc.inj (hk.unique _ _ c' c hrc (hc.symm.trans hc') he))

theorem Kids.take (hk : Kids st parent kept parked) (hj : st j = .unused) (hq : Alive (st q))
    (hc : k.child = some ⟨j, false, false⟩) :
    Kids (update st j .used) parent (update kept (.proc q) k) parked := by
  have hslot := hk.slot_ne (j := j) (by rw [hj]; decide)
  have hpar : parent j = none := by
    by_contra hp
    obtain ⟨r, hr⟩ := ne_none_iff_exists'.mp hp
    exact (hk.alive j r hr).2.2 hj
  have hdead : ¬ Alive (st j) := fun ha => ha.ne.1 hj
  have hw := hk.write (s := .used) (p := parent j) hslot (fun ha => absurd ha hdead)
    (.inr (fun i hi => hdead (hk.alive i j hi).1)) (fun r hr => absurd hr (by rw [hpar]; nofun))
    (fun _ hne => absurd rfl hne) (fun he => absurd he (hk.lt_init (.inl hj)))
  rw [update_eq_self] at hw
  have hqj : q ≠ j := by
    rintro rfl
    exact hdead hq
  refine hw.change (by rwa [update_of_ne hqj]) (fun c hc' => ?_) (fun c r c' hc' _ => ?_)
  · obtain rfl := some.inj (hc.symm.trans hc')
    exact ⟨update_self _ _ _, hpar, nofun⟩
  · obtain rfl := some.inj (hc.symm.trans hc')
    exact hslot r c'

theorem Kids.aside (hk : Kids st parent kept parked) (hc : (kept (.proc q)).child = some c)
    (hnone : k.child = none) : Kids st parent (update kept (.proc q) k) parked ∧
      Alive (st q) ∧ ∀ r c', (update kept (.proc q) k (.proc r)).child = some c' →
        c'.slot ≠ c.slot := by
  obtain ⟨q', hq', hq⟩ := hk.child_alive hc
  obtain rfl := Thread.proc.inj hq'
  refine ⟨hk.change hq (fun c' hc' => ?_) (fun c' _ _ hc' => ?_), hq, fun r c' hc' he => ?_⟩
  · rw [hnone] at hc'
    cases hc'
  · rw [hnone] at hc'
    cases hc'
  · by_cases hr : r = q
    · subst hr
      rw [update_self, hnone] at hc'
      cases hc'
    · have hne : Thread.proc r ≠ .proc q := by simp [hr]
      rw [update_of_ne hne] at hc'
      exact hne (hk.unique _ _ c' c hc' hc he)

theorem Kids.finish (hk : Kids st parent kept parked)
    (hc : (kept (.proc q)).child = some c) (hnone : k.child = none)
    (hs : s = .unused ∧ c.adopted = false ∨ Alive s ∧ c.adopted = true) :
    Kids (update st c.slot s) parent (update kept (.proc q) k) parked := by
  obtain ⟨ha, hq, hslot⟩ := hk.aside hc hnone
  obtain ⟨hused, hpar, -⟩ := hk.filling hc
  have hdead : ¬ Alive (st c.slot) := fun ha => ha.ne.2.1 hused
  have hw := ha.write (s := s) (p := parent c.slot) hslot (fun h => absurd h hdead)
    (.inr (fun i hi => hdead (hk.alive i _ hi).1)) (fun r hr => ?_) (fun h1 _ _ => ?_)
    (fun he => absurd he (hk.lt_init (.inr (.inl hused))))
  · rwa [update_eq_self] at hw
  · rcases hs with ⟨-, hno⟩ | ⟨hs, -⟩
    · rw [hpar, hno] at hr
      cases hr
    · exact ⟨(hk.alive _ r hr).1, (hk.alive _ r hr).2.1, hs.ne.1⟩
  · rcases hs with ⟨hs, -⟩ | ⟨-, hyes⟩
    · exact absurd hs h1
    · rw [hpar, hyes]
      nofun

theorem Kids.adopt (hk : Kids st parent kept parked)
    (hc : (kept (.proc q)).child = some c) (hk' : k.child = some { c with adopted := true }) :
    Kids st (update parent c.slot (some q)) (update kept (.proc q) k) parked := by
  obtain ⟨ha, hq, hslot⟩ := hk.aside hc (k := idle) rfl
  obtain ⟨hused, hpar, hready⟩ := hk.filling hc
  have hqc : q ≠ c.slot := by
    rintro rfl
    exact hq.ne.2.1 hused
  have hw := ha.inherit (by rw [hused]; decide) hq hqc (hk.lt_init (.inr (.inl hused))) hslot
  rw [← update_idem idle k kept]
  refine hw.change hq (fun c' hc' => ?_) (fun c' r c'' hc' _ => ?_)
  · obtain rfl := some.inj (hk'.symm.trans hc')
    exact ⟨hused, update_self _ _ _, hready⟩
  · obtain rfl := some.inj (hk'.symm.trans hc')
    exact hslot r c''

theorem Kids.entry (hk : Kids st parent kept parked)
    (hc : (kept (.proc q)).child = some c) (hk' : k.child = some { c with ready := true })
    {h : Held D} (hh : Resumes h c.slot) :
    Kids st parent (update (update kept (.proc q) k) (.proc c.slot) idle)
      (update parked (.proc c.slot) h) := by
  obtain ⟨ha, hq, hslot⟩ := hk.aside hc (k := idle) rfl
  obtain ⟨hused, hpar, -⟩ := hk.filling hc
  have hdead : ¬ Alive (st c.slot) := fun ha => ha.ne.2.1 hused
  have hqc : Thread.proc c.slot ≠ .proc q := fun he => hdead (Thread.proc.inj he ▸ hq)
  have heq : update (update kept (.proc q) k) (.proc c.slot) idle =
      update (update kept (.proc q) idle) (.proc q) k := by
    rw [update_idem]
    refine update_eq_self_iff.mpr ?_
    rw [update_of_ne hqc, hk.dead _ hdead]
  have hw := ha.leave (fun r c' hc' he => hslot r c' hc' (Thread.proc.inj he)) h
  rw [heq]
  refine hw.change hq (fun c' hc' => ?_) (fun c' r c'' hc' _ => ?_)
  · obtain rfl := some.inj (hk'.symm.trans hc')
    exact ⟨hused, hpar, fun _ => by rw [update_self]; exact hh⟩
  · obtain rfl := some.inj (hk'.symm.trans hc')
    exact hslot r c''

end Writing

section Holding

variable {sl : Nat → Sleeplock} {inside : Nat → List Nat} {l : Nat} {v : Sleeplock}

theorem HoldInv.child (hh : HoldInv sl inside kept) (ho : k.own = (kept (.proc q)).own) :
    HoldInv sl inside (update kept (.proc q) k) := by
  have hown : ∀ i, (update kept (.proc q) k (.proc i)).own = (kept (.proc i)).own := by
    intro i
    by_cases hi : i = q
    · subst hi
      rw [update_self, ho]
    · rw [update_of_ne (by simp [hi])]
  exact { hh with
    own := fun i l hl => hh.own i l (hown i ▸ hl)
    nodup := fun i => by rw [hown i]; exact hh.nodup i }

theorem HoldInv.take (hh : HoldInv sl inside kept) (hf : (sl l).locked = false)
    (hv : v.locked = true) (hk : k.own = l :: (kept (.proc q)).own) :
    HoldInv (update sl l v) (update inside l (q :: inside l)) (update kept (.proc q) k) := by
  have hin := hh.free l hf
  have hnot : ∀ i, l ∉ (kept (.proc i)).own := by
    intro i hi
    have := hh.own i l hi
    rw [hin] at this
    simp at this
  rw [hin]
  constructor
  case own =>
    intro i m hm
    by_cases hi : i = q
    · subst hi
      rw [update_self, hk] at hm
      rcases List.mem_cons.mp hm with rfl | hm
      · rw [update_self]
      · have hne : m ≠ l := fun he => hnot i (he ▸ hm)
        rw [update_of_ne hne]
        exact hh.own i m hm
    · rw [update_of_ne (by simp [hi])] at hm
      have hne : m ≠ l := fun he => hnot i (he ▸ hm)
      rw [update_of_ne hne]
      exact hh.own i m hm
  case nodup =>
    intro i
    by_cases hi : i = q
    · subst hi
      rw [update_self, hk]
      exact List.nodup_cons.mpr ⟨hnot i, hh.nodup i⟩
    · rw [update_of_ne (by simp [hi])]
      exact hh.nodup i
  case locked =>
    intro m hm
    by_cases hml : m = l
    · subst hml
      exact ⟨q, update_self _ _ _⟩
    · rw [update_of_ne hml] at hm ⊢
      exact hh.locked m hm
  case free =>
    intro m hm
    by_cases hml : m = l
    · subst hml
      rw [update_self, hv] at hm
      simp at hm
    · rw [update_of_ne hml] at hm ⊢
      exact hh.free m hm

theorem HoldInv.drop (hh : HoldInv sl inside kept) (hl : l ∈ (kept (.proc q)).own)
    (hv : v.locked = false) (hk : k.own = (kept (.proc q)).own.erase l) :
    HoldInv (update sl l v) (update inside l ((inside l).erase q)) (update kept (.proc q) k) := by
  have hin := hh.own q l hl
  have hnot : ∀ i m, m ∈ (update kept (.proc q) k (.proc i)).own →
      m ≠ l ∧ m ∈ (kept (.proc i)).own := by
    intro i m hm
    by_cases hi : i = q
    · subst hi
      rw [update_self, hk] at hm
      exact (hh.nodup i).mem_erase_iff.mp hm
    · rw [update_of_ne (by simp [hi])] at hm
      refine ⟨fun he => ?_, hm⟩
      rw [he] at hm
      have := hh.own i l hm
      rw [hin] at this
      exact hi (List.head_eq_of_cons_eq this).symm
  rw [hin]
  constructor
  case own =>
    intro i m hm
    obtain ⟨hne, hm⟩ := hnot i m hm
    rw [update_of_ne hne]
    exact hh.own i m hm
  case nodup =>
    intro i
    by_cases hi : i = q
    · subst hi
      rw [update_self, hk]
      exact (hh.nodup i).erase l
    · rw [update_of_ne (by simp [hi])]
      exact hh.nodup i
  case locked =>
    intro m hm
    by_cases hml : m = l
    · subst hml
      rw [update_self, hv] at hm
      simp at hm
    · rw [update_of_ne hml] at hm ⊢
      exact hh.locked m hm
  case free =>
    intro m hm
    by_cases hml : m = l
    · subst hml
      rw [update_self]
      simp
    · rw [update_of_ne hml] at hm ⊢
      exact hh.free m hm

end Holding

end Smp

end Xv6
