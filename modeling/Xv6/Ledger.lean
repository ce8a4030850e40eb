import Mathlib.Tactic

/-! Exclusive ownership of the units of a pool. Each place owns at most one
unit, no unit has two places, and a unit is marked busy exactly when it belongs
to the system, to a place, or to a request that has not placed it yet. -/

variable {ι β : Type}

structure Ledger (busy system : β → Prop) (owner : ι → Option β) (reserved : Set β) : Prop where
  busy_iff : ∀ b, busy b ↔ system b ∨ b ∈ reserved ∨ ∃ p, owner p = some b
  inj : ∀ p q b, owner p = some b → owner q = some b → p = q
  owned : ∀ p b, owner p = some b → ¬ system b ∧ b ∉ reserved
  reserved_only : ∀ b ∈ reserved, ¬ system b

namespace Ledger

open Function

variable {busy busy' system : β → Prop} {owner owner' : ι → Option β}
  {reserved : Set β} {b : β} {p : ι}

theorem not_owned (h : Ledger busy system owner reserved) (hb : ¬ busy b) (p : ι) :
    owner p ≠ some b := fun ho => hb ((h.busy_iff b).mpr (.inr (.inr ⟨p, ho⟩)))

theorem busy_of_owner (h : Ledger busy system owner reserved) (ho : owner p = some b) : busy b :=
  (h.busy_iff b).mpr (.inr (.inr ⟨p, ho⟩))

theorem reserve (h : Ledger busy system owner reserved) (hb : ¬ busy b)
    (hbusy : ∀ c, busy' c ↔ c = b ∨ busy c) :
    Ledger busy' system owner (insert b reserved) where
  busy_iff c := by
    rw [hbusy, h.busy_iff, Set.mem_insert_iff]
    tauto
  inj := h.inj
  owned q c hq := by
    obtain ⟨hs, hr⟩ := h.owned q c hq
    refine ⟨hs, ?_⟩
    rintro (rfl | hc)
    · exact h.not_owned hb q hq
    · exact hr hc
  reserved_only c hc := by
    rcases hc with rfl | hc
    · exact fun hs => hb ((h.busy_iff c).mpr (.inl hs))
    · exact h.reserved_only c hc

theorem release (h : Ledger busy system owner reserved) (hb : b ∈ reserved)
    (hbusy : ∀ c, busy' c ↔ c ≠ b ∧ busy c) :
    Ledger busy' system owner (reserved \ {b}) where
  busy_iff c := by
    rw [hbusy, h.busy_iff]
    constructor
    · rintro ⟨hne, hs | hr | ho⟩
      · exact .inl hs
      · exact .inr (.inl ⟨hr, hne⟩)
      · exact .inr (.inr ho)
    · rintro (hs | ⟨hr, hne⟩ | ⟨q, hq⟩)
      · exact ⟨fun he => h.reserved_only b hb (he ▸ hs), .inl hs⟩
      · exact ⟨hne, .inr (.inl hr)⟩
      · exact ⟨fun he => (h.owned q c hq).2 (he ▸ hb), .inr (.inr ⟨q, hq⟩)⟩
  inj := h.inj
  owned q c hq := ⟨(h.owned q c hq).1, fun hc => (h.owned q c hq).2 hc.1⟩
  reserved_only c hc := h.reserved_only c hc.1

theorem attach [DecidableEq ι] (h : Ledger busy system owner reserved) (hb : b ∈ reserved)
    (hp : owner p = none) :
    Ledger busy system (update owner p (some b)) (reserved \ {b}) where
  busy_iff c := by
    rw [h.busy_iff]
    constructor
    · rintro (hs | hr | ⟨q, hq⟩)
      · exact .inl hs
      · by_cases hc : c = b
        · exact .inr (.inr ⟨p, by rw [update_self, hc]⟩)
        · exact .inr (.inl ⟨hr, hc⟩)
      · have hne : q ≠ p := fun he => by simp [he, hp] at hq
        exact .inr (.inr ⟨q, by rw [update_of_ne hne, hq]⟩)
    · rintro (hs | ⟨hr, -⟩ | ⟨q, hq⟩)
      · exact .inl hs
      · exact .inr (.inl hr)
      · by_cases hqp : q = p
        · rw [hqp, update_self] at hq
          exact .inr (.inl (Option.some.inj hq ▸ hb))
        · rw [update_of_ne hqp] at hq
          exact .inr (.inr ⟨q, hq⟩)
  inj := by
    have hother : ∀ q, q ≠ p → owner q ≠ some b := fun q _ hq => (h.owned q b hq).2 hb
    intro q r c hq hr
    by_cases hqp : q = p <;> by_cases hrp : r = p
    · rw [hqp, hrp]
    · rw [hqp, update_self] at hq
      rw [update_of_ne hrp] at hr
      exact absurd (hr.trans hq.symm) (hother r hrp)
    · rw [hrp, update_self] at hr
      rw [update_of_ne hqp] at hq
      exact absurd (hq.trans hr.symm) (hother q hqp)
    · rw [update_of_ne hqp] at hq
      rw [update_of_ne hrp] at hr
      exact h.inj q r c hq hr
  owned q c hq := by
    by_cases hqp : q = p
    · rw [hqp, update_self] at hq
      obtain rfl := Option.some.inj hq
      exact ⟨h.reserved_only b hb, fun hc => hc.2 rfl⟩
    · rw [update_of_ne hqp] at hq
      exact ⟨(h.owned q c hq).1, fun hc => (h.owned q c hq).2 hc.1⟩
  reserved_only c hc := h.reserved_only c hc.1

theorem detach (h : Ledger busy system owner reserved) {gone : ι → Prop}
    (ho : ∀ q, ¬ gone q → owner' q = owner q) (hgone : ∀ q, gone q → owner' q = none) :
    Ledger busy system owner' (reserved ∪ {c | ∃ q, gone q ∧ owner q = some c}) where
  busy_iff c := by
    rw [h.busy_iff]
    constructor
    · rintro (hs | hr | ⟨q, hq⟩)
      · exact .inl hs
      · exact .inr (.inl (.inl hr))
      · by_cases hg : gone q
        · exact .inr (.inl (.inr ⟨q, hg, hq⟩))
        · exact .inr (.inr ⟨q, by rw [ho q hg, hq]⟩)
    · rintro (hs | (hr | ⟨q, -, hq⟩) | ⟨q, hq⟩)
      · exact .inl hs
      · exact .inr (.inl hr)
      · exact .inr (.inr ⟨q, hq⟩)
      · by_cases hg : gone q
        · rw [hgone q hg] at hq
          simp at hq
        · exact .inr (.inr ⟨q, by rw [← ho q hg, hq]⟩)
  inj q r c hq hr := by
    have hq' : ¬ gone q := fun hg => by simp [hgone q hg] at hq
    have hr' : ¬ gone r := fun hg => by simp [hgone r hg] at hr
    rw [ho q hq'] at hq
    rw [ho r hr'] at hr
    exact h.inj q r c hq hr
  owned q c hq := by
    have hq' : ¬ gone q := fun hg => by simp [hgone q hg] at hq
    rw [ho q hq'] at hq
    refine ⟨(h.owned q c hq).1, ?_⟩
    rintro (hr | ⟨r, hg, hr⟩)
    · exact (h.owned q c hq).2 hr
    · exact hq' (h.inj r q c hr hq ▸ hg)
  reserved_only c hc := by
    rcases hc with hr | ⟨q, -, hq⟩
    · exact h.reserved_only c hr
    · exact (h.owned q c hq).1

end Ledger
