import Xv6.FreeWalk

/-! The page table of a process, as `proc_pagetable` makes it. -/

namespace Xv6.Vm

open Fallible Function

/-- The two pages at the top, which the user cannot reach. -/
structure Special (root frame : Nat) (s : Ram) : Prop where
  tramp : s.map root (slotOf trampoline) = some (pa2pte s.trampText ||| (pteR ||| pteX) ||| pteV)
  frame : s.map root (slotOf trapframe) = some (pa2pte frame ||| (pteR ||| pteW) ||| pteV)

/-- The address space of a process whose trapframe is `frame`. -/
structure Space (all : Nat → Prop) (root sz frame : Nat) (s : Ram) : Prop where
  user : User all root sz s
  special : Special root frame s

/-- Only the pages `own` are in use, and those that were before are as they were. -/
structure Left (all own : Nat → Prop) (s t : Ram) : Prop where
  pool : Pool all t
  busy : ∀ a, t.busy all a ↔ own a
  page : ∀ a, s.busy all a → own a → t.page a = s.page a
  text : t.trampText = s.trampText
  failures : s.failures ≤ t.failures

section Tables

variable {all own : Nat → Prop} {s t u : Ram} {root sz frame va : Nat} {pte : Pte}
  {map : Slot → Option Pte} {E : String → Prop}

theorem isUser_iff (v : Slot) : ¬ isUser v ↔ v = slotOf trampoline ∨ v = slotOf trapframe := by
  rw [isUser, not_and_or, not_not, not_not]

theorem Within.keepSpecial (h : Within all root s t own) (hs : Special root frame s) :
    Special root frame t := by
  have htramp := h.special (slotOf trampoline) ((isUser_iff _).mpr (.inl rfl))
  have hframe := h.special (slotOf trapframe) ((isUser_iff _).mpr (.inr rfl))
  exact ⟨by rw [htramp, hs.tramp, h.text], by rw [hframe, hs.frame]⟩

theorem Became.space {cells : Slot → Option Cell} (h : Became all root s t sz cells)
    (hs : Special root frame s) : Space all root sz frame t :=
  ⟨h.user, h.within.keepSpecial hs⟩

theorem User.freeEmpty (h : User all root sz s) (hmap : ∀ v, s.map root v = none) :
    Ends (freewalk 3 root) s (fun _ t => Left all (s.rest all root) s t) E := by
  refine (h.table.freewalk hmap).post (fun _ t ht => ?_)
  have hrest : ∀ a, s.rest all root a ↔ s.others all root a := by
    refine fun a => and_iff_left ?_
    rintro ⟨v, pte, -, hpte, -⟩
    rw [hmap] at hpte
    simp at hpte
  refine ⟨ht.pool, fun a => ?_, fun a _ ha => ?_, ht.text, ht.failures.ge⟩
  · rw [ht.busy, hrest, Ram.others, not_exists]
  · refine ht.page a ?_
    rintro ⟨p, hp⟩
    exact ha.1.2 p hp

theorem User.uvmfree (h : User all root sz s) (htop : ∀ v, ¬ isUser v → s.map root v = none) :
    Ends (uvmfree root sz) s (fun _ t => Left all (s.rest all root) s t) E := by
  have hsize := h.size
  have hmax : trapframe < 2 ^ 39 := by decide
  obtain ⟨halign, -, -, hround⟩ := pgroundup_spec hsize
  have hpages : pgroundup sz / pgsize * pgsize = pgroundup sz :=
    Nat.div_mul_cancel (Nat.dvd_of_mod_eq_zero halign)
  -- no user page is left, whether or not there was one
  have hdone : ∀ t, Became all root s t sz (overlay (fun _ => none) (pgroundup sz / pgsize) 0
      (s.cell root)) → Ends (freewalk 3 root) t (fun _ u => Left all (s.rest all root) s u) E := by
    intro t ht
    have hmap : ∀ v, t.map root v = none := by
      intro v
      by_cases hv : isUser v
      · by_contra hne
        obtain ⟨pte, hpte⟩ := Option.ne_none_iff_exists'.mp hne
        obtain ⟨k, hk, rfl⟩ := ht.user.low v pte hv hpte
        rw [← Ram.cell_eq_none hv, ht.cell, overlay_apply (by decide) (mul_pgsize_mod k) (by omega)
          (by omega), if_pos] at hne
        · exact hne rfl
        · have hlt := (lt_pgroundup hsize (mul_pgsize_mod k)).mpr hk
          omega
      · rw [ht.within.special v hv, htop v hv]
    refine (ht.user.freeEmpty hmap).post (fun _ u hu => ?_)
    refine ⟨hu.pool, fun a => (hu.busy a).trans (ht.within.rest a), fun a _ ha => ?_,
      hu.text.trans ht.within.text, ht.within.failures.trans hu.failures⟩
    have hrest := (ht.within.rest a).mpr ha
    rw [hu.page a hrest.1.1 hrest, ht.within.kept a ha ha]
  rw [Vm.uvmfree]
  by_cases hpos : 0 < sz
  · rw [if_pos hpos]
    exact (h.unmap (by decide) (by omega)).bind (fun _ t ht => hdone t ht)
  · have hzero : sz = 0 := by omega
    rw [if_neg hpos]
    refine hdone s ?_
    subst hzero
    exact h.became

/-- What `proc_pagetable` leaves: nothing, or an address space without user pages. -/
def NewTable (all : Nat → Prop) (frame : Nat) (s : Ram) (r : Option Nat) (t : Ram) : Prop :=
  (r = none ∧ s.failures < t.failures ∧ Left all (s.busy all) s t) ∨
    ∃ root, r = some root ∧ all root ∧ ¬ s.busy all root ∧ Space all root 0 frame t ∧
      (∀ v, t.cell root v = none) ∧ (∀ a, t.rest all root a ↔ s.busy all a) ∧
      (∀ a, s.busy all a → t.page a = s.page a) ∧ t.trampText = s.trampText ∧
      s.failures ≤ t.failures

theorem User.empty (h : Table all root s) (hmap : ∀ v, isUser v → s.map root v = none) :
    User all root 0 s := by
  have hno : ∀ v pte, isUser v → s.map root v ≠ some pte := fun v pte hv hpte => by
    rw [hmap v hv] at hpte
    simp at hpte
  exact ⟨h, Nat.zero_le _, fun v pte hv hpte => absurd hpte (hno v pte hv),
    fun v pte hv hpte => absurd hpte (hno v pte hv),
    fun v _ pte _ hv _ hpte => absurd hpte (hno v pte hv),
    fun v pte hv hpte => absurd hpte (hno v pte hv)⟩

theorem Ram.rest_empty (hmap : ∀ v, isUser v → s.map root v = none) (a : Nat) :
    s.rest all root a ↔ s.others all root a := by
  refine and_iff_left ?_
  rintro ⟨v, pte, hv, hpte, -⟩
  rw [hmap v hv] at hpte
  simp at hpte

theorem procPagetable_spec (h : Pool all s) :
    Ends (procPagetable frame) s (NewTable all frame s) E := by
  rw [procPagetable]
  refine (uvmcreate_spec h).bind ?_
  rintro r t (⟨rfl, hpool, hbusy, hpage, hfail, htext⟩ |
    ⟨root, rfl, hidle, hall, htable, hmap, hothers, hpage, hfail, htext⟩)
  · exact Ends.pure (.inl ⟨rfl, hfail, hpool, hbusy, fun a _ _ => by rw [hpage], htext, hfail.le⟩)
  refine Ends.get_bind ?_
  -- a table without entries is freed again
  have hgiveUp : ∀ u, After all root t u (t.others all root) (fun _ => none) →
      s.failures < u.failures →
      Ends (do uvmfree root 0; pure none : VmM (Option Nat)) u (NewTable all frame s) E := by
    intro u hu hless
    have hnone : ∀ v, isUser v → u.map root v = none := fun v _ => by rw [hu.mapped]
    refine ((User.empty hu.table hnone).uvmfree (fun v _ => by rw [hu.mapped])).bind ?_
    intro _ w hw
    have hrest : ∀ a, u.rest all root a ↔ s.busy all a := fun a => by
      rw [Ram.rest_empty hnone, hu.others, hothers]
    refine Ends.pure (.inl ⟨rfl, lt_of_lt_of_le hless hw.failures, hw.pool,
      fun a => (hw.busy a).trans (hrest a), fun a hs _ => ?_, ?_, ?_⟩)
    · have hu' := (hrest a).mpr hs
      have ht' := (hothers a).mpr hs
      rw [hw.page a hu'.1.1 hu', hu.kept a ht' ht', hpage a (fun he => hidle (he ▸ hs))]
    · rw [hw.text, hu.text, htext]
    · exact hless.le.trans hw.failures
  refine (htable.mapOne (by decide) (by decide) (by rw [hmap])).bind ?_
  rintro r u (⟨rfl, hu⟩ | ⟨rfl, hless, hu⟩)
  · have hslot : slotOf trapframe ≠ slotOf trampoline := by decide
    refine (hu.table.mapOne (by decide) (by decide) (by
      rw [hu.mapped, update_of_ne hslot, hmap])).bind ?_
    rintro r w (⟨rfl, hw⟩ | ⟨rfl, hless, hw⟩)
    · have htw := hu.trans (hw.congr (fun a => (hu.others a).symm) rfl) (fun _ _ ha => ha)
      have hnone : ∀ v, isUser v → w.map root v = none := by
        intro v hv
        rw [hw.mapped, update_of_ne hv.2, hu.mapped, update_of_ne hv.1, hmap]
      have hrest : ∀ a, w.rest all root a ↔ s.busy all a := fun a => by
        rw [Ram.rest_empty hnone, htw.others, hothers]
      refine Ends.pure (.inr ⟨root, rfl, hall, hidle, ⟨User.empty hw.table hnone, ?_, ?_⟩, ?_,
        hrest, fun a ha => ?_, ?_, ?_⟩)
      · rw [hw.mapped, update_of_ne hslot.symm, hu.mapped, update_self, hw.text, hu.text]
      · rw [hw.mapped, update_self]
      · intro v
        rw [Ram.cell]
        split_ifs with hv
        · rw [hnone v hv]
          rfl
        · rfl
      · have ht' := (hothers a).mpr ha
        rw [htw.kept a ht' ht', hpage a (fun he => hidle (he ▸ ha))]
      · rw [htw.text, htext]
      · exact hfail.ge.trans htw.failures
    · have htw := hu.trans (hw.congr (fun a => (hu.others a).symm) rfl) (fun _ _ ha => ha)
      refine (hw.table.uvmunmap (n := 1) (by decide) (by decide) (fun hf => by simp at hf)).bind ?_
      intro _ x hx
      refine hgiveUp x (htw.trans (hx.congr (fun a => ?_) ?_) (fun _ _ ha => ha)) ?_
      · rw [htw.others]
        exact (and_iff_left (fun hf => by simp at hf)).symm
      · rw [htw.mapped, hu.mapped, hmap, overlay, overlay, update_idem, update_eq_self_iff.mpr rfl]
      · exact lt_of_le_of_lt (hfail.ge.trans hu.failures) (lt_of_lt_of_le hless hx.failures)
  · exact hgiveUp u (hu.congr (fun _ => Iff.rfl) hmap.symm) (lt_of_le_of_lt hfail.ge hless)

end Tables

end Xv6.Vm
