import Mathlib.Tactic

/-! A circular buffer of `N` slots between two counters of `w` bits that wrap around. -/

namespace WrapRing

open List

variable {α : Type*} {w N : Nat} {buf : Nat → α} {r e : BitVec w} {xs ys : List α} {x : α}

def cell (N : Nat) (c : BitVec w) : Nat := c.toNat % N

/-- From the counter `r` up to `e` the buffer holds `xs`. -/
structure Carries (N : Nat) (buf : Nat → α) (r e : BitVec w) (xs : List α) : Prop where
  fits : xs.length ≤ N
  stop : e = r + BitVec.ofNat w xs.length
  item : ∀ k y, xs[k]? = some y → buf (cell N (r + BitVec.ofNat w k)) = y

theorem add_ofNat (r : BitVec w) (k l : Nat) :
    r + BitVec.ofNat w k + BitVec.ofNat w l = r + BitVec.ofNat w (k + l) := by
  rw [BitVec.add_assoc, BitVec.ofNat_add]

theorem add_one_ofNat (r : BitVec w) (k : Nat) :
    r + 1 + BitVec.ofNat w k = r + BitVec.ofNat w (k + 1) := by
  rw [show (1 : BitVec w) = BitVec.ofNat w 1 from rfl, add_ofNat, Nat.add_comm]

theorem cell_add (hN : N ∣ 2 ^ w) (r : BitVec w) (k : Nat) :
    cell N (r + BitVec.ofNat w k) = (r.toNat + k) % N := by
  simp [cell, Nat.mod_mod_of_dvd _ hN]

theorem cell_inj (hN : N ∣ 2 ^ w) {k l : Nat} (hk : k < N) (hl : l < N)
    (h : cell N (r + BitVec.ofNat w k) = cell N (r + BitVec.ofNat w l)) : k = l := by
  rw [cell_add hN, cell_add hN] at h
  have hmod : k ≡ l [MOD N] := Nat.ModEq.add_left_cancel' r.toNat h
  exact Nat.ModEq.eq_of_lt_of_lt hmod hk hl

theorem toNat_sub_of_add {m : Nat} (hm : m < 2 ^ w) : (r + BitVec.ofNat w m - r).toNat = m := by
  rw [BitVec.add_comm, BitVec.add_sub_cancel, BitVec.toNat_ofNat, Nat.mod_eq_of_lt hm]

theorem add_inj {k l : Nat} (hk : k < 2 ^ w) (hl : l < 2 ^ w)
    (h : r + BitVec.ofNat w k = r + BitVec.ofNat w l) : k = l := by
  rw [← toNat_sub_of_add (r := r) hk, h, toNat_sub_of_add hl]

namespace Carries

theorem nil (r : BitVec w) : Carries N buf r r [] := by
  refine ⟨Nat.zero_le N, ?_, fun k y hk => ?_⟩
  · simp
  · simp at hk

theorem length_eq (h : Carries N buf r e xs) (hlt : N < 2 ^ w) : (e - r).toNat = xs.length := by
  rw [h.stop]
  exact toNat_sub_of_add (h.fits.trans_lt hlt)

theorem eq_iff (h : Carries N buf r e xs) (hlt : N < 2 ^ w) : r = e ↔ xs = [] := by
  have hlen := h.length_eq hlt
  constructor
  · rintro rfl
    rw [BitVec.sub_self] at hlen
    exact eq_nil_of_length_eq_zero (by simpa using hlen.symm)
  · rintro rfl
    simpa using h.stop.symm

theorem full_iff (h : Carries N buf r e xs) (hlt : N < 2 ^ w) :
    e = r + BitVec.ofNat w N ↔ xs.length = N := by
  rw [h.stop]
  constructor
  · exact add_inj (h.fits.trans_lt hlt) hlt
  · rintro hN
    rw [hN]

theorem stage (h : Carries N buf r e xs) (hN : N ∣ 2 ^ w) (hroom : xs.length < N) (x : α) :
    Carries N (Function.update buf (cell N e) x) r e xs := by
  refine ⟨h.fits, h.stop, fun k y hk => ?_⟩
  have hlt : k < xs.length := (List.getElem?_eq_some_iff.mp hk).1
  have hne : cell N (r + BitVec.ofNat w k) ≠ cell N e := by
    rw [h.stop]
    intro heq
    have := cell_inj hN (hlt.trans hroom) hroom heq
    omega
  rw [Function.update_of_ne hne]
  exact h.item k y hk

theorem extend (h : Carries N buf r e xs) (hroom : xs.length < N) (hx : buf (cell N e) = x) :
    Carries N buf r (e + 1) (xs ++ [x]) := by
  have he : e + 1 = r + BitVec.ofNat w (xs.length + 1) := by
    rw [h.stop, ← add_ofNat]
    rfl
  refine ⟨?_, ?_, fun k y hk => ?_⟩
  · simpa using hroom
  · simpa using he
  · by_cases hlast : k = xs.length
    · subst hlast
      have hxy : x = y := by simpa using hk
      rw [← h.stop, hx, hxy]
    · have hlt : k < xs.length := by
        have := (List.getElem?_eq_some_iff.mp hk).1
        rw [length_append, length_singleton] at this
        omega
      rw [getElem?_append_left hlt] at hk
      exact h.item k y hk

theorem push (h : Carries N buf r e xs) (hN : N ∣ 2 ^ w) (hroom : xs.length < N) (x : α) :
    Carries N (Function.update buf (cell N e) x) r (e + 1) (xs ++ [x]) :=
  (h.stage hN hroom x).extend hroom (Function.update_self ..)

theorem head (h : Carries N buf r e (x :: xs)) : buf (cell N r) = x := by
  simpa using h.item 0 x rfl

theorem pop (h : Carries N buf r e (x :: xs)) : Carries N buf (r + 1) e xs := by
  refine ⟨?_, ?_, fun k y hk => ?_⟩
  · have := h.fits
    rw [length_cons] at this
    omega
  · rw [h.stop, add_one_ofNat, length_cons]
  · rw [add_one_ofNat]
    exact h.item (k + 1) y (by simpa using hk)

theorem stop_sub_one (h : Carries N buf r e (xs ++ [x])) : e - 1 = r + BitVec.ofNat w xs.length := by
  rw [h.stop, length_append, length_singleton, ← add_ofNat]
  exact BitVec.add_sub_cancel _ _

theorem last (h : Carries N buf r e (xs ++ [x])) : buf (cell N (e - 1)) = x := by
  rw [h.stop_sub_one]
  exact h.item xs.length x (by simp)

theorem unpush (h : Carries N buf r e (xs ++ [x])) : Carries N buf r (e - 1) xs := by
  refine ⟨?_, h.stop_sub_one, fun k y hk => ?_⟩
  · have := h.fits
    rw [length_append] at this
    omega
  · have hlt := (List.getElem?_eq_some_iff.mp hk).1
    exact h.item k y (by rw [getElem?_append_left hlt, hk])

end Carries

end WrapRing
