import Xv6.SmpKids

/-! The history of exits and waits: an exited process is a zombie until one call of
`kwait` has returned it. -/

namespace Xv6

open Function List Option

namespace Smp

variable {proc : Nat → Proc} {parent : Nat → Option Nat} {inc : Nat → Nat}
  {creator : Nat → Nat × Nat} {exits : List Exit} {waits : List Waited} {run run' : Nat → Run}
  {duty duty' : Nat → Duty} {i j p q me : Nat} {e : Proc}

theorem Records.rerun (hr : Records proc parent inc creator exits waits run duty)
    (hg : ∀ c, Gone inc exits run duty c → Gone inc exits run' duty' c) :
    Records proc parent inc creator exits waits run' duty' :=
  { hr with born := fun j q hj => (hr.born j q hj).imp id (fun h => ⟨h.1, hg _ h.2⟩) }

theorem Gone.mono {c : Nat × Nat} (hc : Gone inc exits run duty c)
    (hm : ∀ p, (duty p).owes (procChan initproc) →
      (run' p).cur = (run p).cur ∧ (duty' p).owes (procChan initproc)) :
    Gone inc exits run' duty' c := by
  refine hc.imp id ?_
  rintro ⟨p, h1, h2, h3⟩
  exact ⟨p, (hm p h3).1.trans h1, h2, (hm p h3).2⟩

theorem Records.owing (hr : Records proc parent inc creator exits waits run duty) {δ : Duty}
    (ho : (duty p).owes (procChan initproc) → δ.owes (procChan initproc)) :
    Records proc parent inc creator exits waits run (update duty p δ) := by
  refine hr.rerun (fun c hg => hg.mono (fun q hq => ⟨rfl, ?_⟩))
  rw [update_apply]
  split_ifs with hqp
  · subst hqp
    exact ho hq
  · assumption

theorem Records.reaped_exit (hr : Records proc parent inc creator exits waits run duty)
    {c : Nat × Nat} (hc : c ∈ Smp.reaped waits) : ∃ e ∈ exits, (e.slot, e.inc) = c := by
  obtain ⟨x, hx, hxc⟩ := mem_filterMap.mp hc
  have hgood := hr.good x hx
  cases x with
  | reaped caller ret status child creator =>
    obtain ⟨⟨e, he, h1, -⟩, -⟩ := hgood
    exact ⟨e, he, h1.trans (some.inj hxc)⟩
  | failed => simp [Waited.child?] at hxc

theorem Records.slot (hr : Records proc parent inc creator exits waits run duty)
    (hkeep : (proc j).state = .zombie ∨ (proc j).state = .unused →
      e.state = (proc j).state ∧ e.pid = (proc j).pid ∧ e.xstate = (proc j).xstate)
    (hz : e.state = .zombie → (proc j).state = .zombie) :
    Records (update proc j e) parent inc creator exits waits run duty := by
  constructor
  case past => exact hr.past
  case ended =>
    intro x hx hi
    have := hr.ended x hx hi
    by_cases hj : x.slot = j
    · rw [hj] at this
      rw [hj, update_self, (hkeep this).1]
      exact this
    · rwa [update_of_ne hj]
  case once => exact hr.once
  case zombie =>
    intro k hk
    simp only [update_apply] at hk ⊢
    split_ifs at hk ⊢ with hj
    · subst hj
      obtain ⟨-, h2, h3⟩ := hkeep (.inl (hz hk))
      rw [h2, h3]
      exact hr.zombie k (hz hk)
    · exact hr.zombie k hk
  case waiting =>
    intro x hx hn
    have := hr.waiting x hx hn
    by_cases hj : x.slot = j
    · rw [hj] at this
      rw [hj, update_self, (hkeep (.inl this.1)).1]
      exact this
    · rwa [update_of_ne hj]
  case single => exact hr.single
  case good => exact hr.good
  case born => exact hr.born

theorem Waited.Good.mono {x : Waited} {exits' : List Exit} (hx : x.Good exits)
    (hsub : ∀ e ∈ exits, e ∈ exits') : x.Good exits' := by
  cases x with
  | reaped caller ret status child creator =>
    obtain ⟨⟨e, he, h⟩, h'⟩ := hx
    refine ⟨⟨e, hsub e he, h⟩, h'.imp id ?_⟩
    rintro ⟨h1, y, hy, h2⟩
    exact ⟨h1, y, hsub y hy, h2⟩
  | failed => exact hx

theorem Records.exit (hr : Records proc parent inc creator exits waits run duty)
    (hj : Alive (proc j).state) (he : e.state = .zombie) (hpid : e.pid = (proc j).pid) :
    Records (update proc j e) parent inc creator
      (⟨j, inc j, (proc j).pid, e.xstate⟩ :: exits) waits run duty := by
  have hnew : ∀ x ∈ exits, (x.slot, x.inc) ≠ (j, inc j) := by
    rintro x hx hxj
    obtain ⟨h1, h2⟩ := Prod.mk.inj hxj
    have := hr.ended x hx (by rw [h2, h1])
    rw [h1] at this
    rcases this with h | h
    · exact hj.ne.2.2 h
    · exact hj.ne.1 h
  have hfresh : (j, inc j) ∉ Smp.reaped waits := by
    intro hm
    obtain ⟨x, hx, hxj⟩ := hr.reaped_exit hm
    exact hnew x hx hxj
  constructor
  case past =>
    intro x hx
    rcases mem_cons.mp hx with rfl | hx
    · exact le_refl _
    · exact hr.past x hx
  case ended =>
    intro x hx hi
    by_cases hxj : x.slot = j
    · rw [hxj, update_self]
      exact .inl he
    · rw [update_of_ne hxj]
      rcases mem_cons.mp hx with rfl | hx
      · exact absurd rfl hxj
      · exact hr.ended x hx hi
  case once =>
    rw [map_cons]
    refine nodup_cons.mpr ⟨fun hm => ?_, hr.once⟩
    obtain ⟨x, hx, hxj⟩ := mem_map.mp hm
    exact hnew x hx hxj
  case zombie =>
    intro k hk
    by_cases hkj : k = j
    · subst hkj
      rw [update_self, hpid]
      exact ⟨mem_cons_self, hfresh⟩
    · rw [update_of_ne hkj] at hk ⊢
      exact ⟨mem_cons_of_mem _ (hr.zombie k hk).1, (hr.zombie k hk).2⟩
  case waiting =>
    intro x hx hn
    rcases mem_cons.mp hx with rfl | hx
    · exact ⟨by rw [update_self]; exact he, rfl⟩
    · have := hr.waiting x hx hn
      have hxj : x.slot ≠ j := by
        intro h
        rw [h] at this
        exact hj.ne.2.2 this.1
      rwa [update_of_ne hxj]
  case single => exact hr.single
  case good => exact fun x hx => (hr.good x hx).mono (fun y hy => mem_cons_of_mem _ hy)
  case born =>
    intro k q hk
    refine (hr.born k q hk).imp id (fun h => ⟨h.1, h.2.imp ?_ id⟩)
    rintro ⟨x, hx, h'⟩
    exact ⟨x, mem_cons_of_mem _ hx, h'⟩

theorem Records.take (hr : Records proc parent inc creator exits waits run duty)
    (hj : (proc j).state = .unused) (he : e.state = .used) (hpar : ∀ i, parent i ≠ some j)
    (hcur : ∀ p, (run p).cur ≠ some j) :
    Records (update proc j e) parent (update inc j (inc j + 1)) creator exits waits run duty := by
  have hle : ∀ k, inc k ≤ update inc j (inc j + 1) k := by
    intro k
    by_cases hk : k = j
    · subst hk
      simp
    · rw [update_of_ne hk]
  have hinc : ∀ k, k ≠ j → update inc j (inc j + 1) k = inc k :=
    fun k hk => update_of_ne hk _ _
  constructor
  case past => exact fun x hx => (hr.past x hx).trans (hle _)
  case ended =>
    intro x hx hi
    have hxj : x.slot ≠ j := by
      intro h
      rw [h, update_self] at hi
      have := hr.past x hx
      rw [h] at this
      omega
    rw [hinc _ hxj] at hi
    rw [update_of_ne hxj]
    exact hr.ended x hx hi
  case once => exact hr.once
  case zombie =>
    intro k hk
    have hkj : k ≠ j := by
      rintro rfl
      rw [update_self, he] at hk
      simp at hk
    rw [update_of_ne hkj] at hk
    rw [hinc k hkj, update_of_ne hkj]
    exact hr.zombie k hk
  case waiting =>
    intro x hx hn
    have := hr.waiting x hx hn
    have hxj : x.slot ≠ j := by
      intro h
      rw [h, hj] at this
      simp at this
    rw [update_of_ne hxj, hinc _ hxj]
    exact this
  case single => exact hr.single
  case good => exact hr.good
  case born =>
    intro k q hk
    have hq : q ≠ j := by
      rintro rfl
      exact hpar k hk
    rw [hinc q hq]
    refine (hr.born k q hk).imp id (fun h => ⟨h.1, h.2.imp id ?_⟩)
    rintro ⟨p, h1, h2, h3⟩
    have hne : (creator k).1 ≠ j := fun he => hcur p (he ▸ h1)
    exact ⟨p, h1, (hinc _ hne).trans h2, h3⟩

theorem Records.reap (hr : Records proc parent inc creator exits waits run duty)
    (hj : (proc j).state = .zombie) (he : e.state = .unused) (hp : parent j = some me)
    {pid : Int} {status : Option Int} (hpid : pid = (proc j).pid)
    (hst : ∀ st, status = some st → st = (proc j).xstate)
    (hlast : ∀ q, (duty q).owes (procChan initproc) → (run q).cur = some me) :
    Records (update proc j e) (update parent j none) inc creator exits
      (.reaped (me, inc me) pid status (j, inc j) (creator j) :: waits) run duty := by
  obtain ⟨hexit, hnot⟩ := hr.zombie j hj
  have hcons : Smp.reaped (.reaped (me, inc me) pid status (j, inc j) (creator j) :: waits) =
      (j, inc j) :: Smp.reaped waits := rfl
  constructor
  case past => exact hr.past
  case ended =>
    intro x hx hi
    by_cases hxj : x.slot = j
    · rw [hxj, update_self]
      exact .inr he
    · rw [update_of_ne hxj]
      exact hr.ended x hx hi
  case once => exact hr.once
  case zombie =>
    intro k hk
    have hkj : k ≠ j := by
      rintro rfl
      rw [update_self, he] at hk
      simp at hk
    rw [update_of_ne hkj] at hk ⊢
    refine ⟨(hr.zombie k hk).1, fun hm => ?_⟩
    rw [hcons] at hm
    rcases mem_cons.mp hm with h | h
    · exact hkj (Prod.mk.inj h).1
    · exact (hr.zombie k hk).2 h
  case waiting =>
    intro x hx hn
    rw [hcons] at hn
    have hxn : (x.slot, x.inc) ∉ Smp.reaped waits := fun h => hn (mem_cons_of_mem _ h)
    have := hr.waiting x hx hxn
    have hxj : x.slot ≠ j := by
      intro h
      refine hn (mem_cons.mpr (.inl ?_))
      rw [this.2, h]
    rw [update_of_ne hxj]
    exact this
  case single =>
    rw [hcons]
    exact nodup_cons.mpr ⟨hnot, hr.single⟩
  case good =>
    intro x hx
    rcases mem_cons.mp hx with rfl | hx
    · refine ⟨⟨_, hexit, rfl, hpid.symm, hst⟩, ?_⟩
      rcases hr.born j me hp with h | ⟨hme, h | ⟨q, h1, h2, h3⟩⟩
      · exact .inl h.symm
      · exact .inr ⟨hme, h⟩
      · -- the caller itself is giving its children away
        have hm : (creator j).1 = me := some.inj (h1.symm.trans (hlast q h3))
        refine .inl (Prod.ext hm.symm ?_)
        rw [← h2, hm]
    · exact hr.good x hx
  case born =>
    intro k q hk
    have hkj : k ≠ j := by
      rintro rfl
      rw [update_self] at hk
      simp at hk
    rw [update_of_ne hkj] at hk
    exact hr.born k q hk

theorem Records.failed (hr : Records proc parent inc creator exits waits run duty)
    {caller : Nat × Nat} {copy killed kids : Bool}
    (hg : copy = true ∨ killed = true ∨ kids = false) :
    Records proc parent inc creator exits (.failed caller copy killed kids :: waits) run duty := by
  have hcons : Smp.reaped (.failed caller copy killed kids :: waits) = Smp.reaped waits := rfl
  refine { hr with zombie := ?_, waiting := ?_, single := ?_, good := fun x hx => ?_ }
  · rw [hcons]
    exact hr.zombie
  · rw [hcons]
    exact hr.waiting
  · rw [hcons]
    exact hr.single
  · rcases mem_cons.mp hx with rfl | hx
    · exact hg
    · exact hr.good x hx

theorem Records.adopt (hr : Records proc parent inc creator exits waits run duty) (j q : Nat) :
    Records proc (update parent j (some q)) inc
      (update creator j (q, inc q)) exits waits run duty := by
  refine { hr with born := fun k r hk => ?_ }
  simp only [update_apply] at hk ⊢
  split_ifs at hk ⊢ with hkj
  · subst hkj
    obtain rfl := some.inj hk
    exact .inl rfl
  · exact hr.born k r hk

theorem Records.orphan (hr : Records proc parent inc creator exits waits run duty)
    (hp : parent j = some i) (hi : i ≠ initproc) (hcur : (run p).cur = some i)
    (ho : (duty p).owes (procChan initproc)) :
    Records proc (update parent j (some initproc)) inc creator exits waits run duty := by
  refine { hr with born := fun k r hk => ?_ }
  rw [update_apply] at hk
  split_ifs at hk with hkj
  · subst hkj
    obtain rfl := some.inj hk
    rcases hr.born k i hp with h | ⟨h, -⟩
    · exact .inr ⟨rfl, .inr ⟨p, by rw [h]; exact hcur, by rw [h], ho⟩⟩
    · exact absurd h hi
  · exact hr.born k r hk

end Smp

end Xv6
