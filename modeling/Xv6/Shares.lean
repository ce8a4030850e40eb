import Mathlib.Algebra.BigOperators.Ring.Finset
import Mathlib.Algebra.Order.BigOperators.Group.Finset
import Mathlib.Data.Fintype.BigOperators
import Mathlib.Tactic

/-! Totals that are the sums of the shares of finitely many owners. -/

namespace Shares

open Finset Function

variable {ι κ : Type} [Fintype ι] {t t' : κ → Nat} {s s' : ι → κ → Nat}

def Balanced (t : κ → Nat) (s : ι → κ → Nat) : Prop := ∀ k, t k = ∑ j, s j k

theorem Balanced.share_le (h : Balanced t s) (j : ι) (k : κ) : s j k ≤ t k := by
  rw [h k]
  exact single_le_sum (f := fun j => s j k) (fun _ _ => Nat.zero_le _) (mem_univ j)

variable [DecidableEq ι] {a b : ι}

theorem sum_replace {f g : ι → Nat} (h : ∀ j, j ≠ a → g j = f j) :
    ∑ j, g j + f a = ∑ j, f j + g a := by
  have hg := add_sum_erase univ g (mem_univ a)
  have hf := add_sum_erase univ f (mem_univ a)
  have hrest : ∑ j ∈ univ.erase a, g j = ∑ j ∈ univ.erase a, f j :=
    sum_congr rfl (fun j hj => h j (ne_of_mem_erase hj))
  omega

theorem Balanced.one (h : Balanced t s) (a : ι) (hs : ∀ j, j ≠ a → s' j = s j)
    (ht : ∀ k, t' k + s a k = t k + s' a k) : Balanced t' s' := by
  intro k
  have hsum := sum_replace (f := fun j => s j k) (g := fun j => s' j k) (a := a)
    (fun j hj => by rw [hs j hj])
  have hk := h k
  have ht := ht k
  omega

theorem Balanced.two (h : Balanced t s) (a b : ι) (hab : a ≠ b)
    (hs : ∀ j, j ≠ a → j ≠ b → s' j = s j)
    (ht : ∀ k, t' k + s a k + s b k = t k + s' a k + s' b k) : Balanced t' s' := by
  have hmid : Balanced (fun k => ∑ j, update s a (s' a) j k) (update s a (s' a)) :=
    fun _ => rfl
  refine hmid.one b (fun j hj => ?_) (fun k => ?_)
  · by_cases hja : j = a
    · rw [hja, update_self]
    · rw [update_of_ne hja]
      exact hs j hja hj
  · have hsum := sum_replace (f := fun j => s j k) (g := fun j => update s a (s' a) j k)
      (a := a) (fun j hj => by rw [update_of_ne hj])
    have hk := h k
    have ht := ht k
    rw [update_self] at hsum
    rw [update_of_ne (Ne.symm hab)]
    omega

end Shares
