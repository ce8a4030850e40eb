import Mathlib.Tactic

/-! Little-endian 32-bit words in a fixed number of bytes. -/

namespace LittleEndian

variable {n : Nat} [NeZero n]

def byteAt (m : Fin n → BitVec 8) (a : Nat) : BitVec 8 := m (Fin.ofNat n a)

def word (m : Fin n → BitVec 8) (a : Nat) : BitVec 32 :=
  BitVec.ofNat 32 ((byteAt m a).toNat + 2 ^ 8 * (byteAt m (a + 1)).toNat +
    2 ^ 16 * (byteAt m (a + 2)).toNat + 2 ^ 24 * (byteAt m (a + 3)).toNat)

def setWord (m : Fin n → BitVec 8) (a : Nat) (w : BitVec 32) : Fin n → BitVec 8 :=
  fun k => if a ≤ k ∧ k < a + 4 then BitVec.ofNat 8 (w.toNat / 2 ^ (8 * (k - a))) else m k

theorem byteAt_setWord_of_mem (m : Fin n → BitVec 8) {a i : Nat} (w : BitVec 32) (hi : i < 4)
    (h : a + 4 ≤ n) : byteAt (setWord m a w) (a + i) = BitVec.ofNat 8 (w.toNat / 2 ^ (8 * i)) := by
  have hv : (Fin.ofNat n (a + i)).val = a + i := Nat.mod_eq_of_lt (by omega)
  simp only [byteAt, setWord, hv]
  rw [if_pos (by omega), Nat.add_sub_cancel_left]

theorem byteAt_setWord_of_disjoint (m : Fin n → BitVec 8) {a b : Nat} (w : BitVec 32)
    (hb : b < n) (h : b < a ∨ a + 4 ≤ b) : byteAt (setWord m a w) b = byteAt m b := by
  have hv : (Fin.ofNat n b).val = b := Nat.mod_eq_of_lt hb
  simp only [byteAt, setWord, hv]
  rw [if_neg (by omega)]

@[simp] theorem word_setWord (m : Fin n → BitVec 8) {a : Nat} (w : BitVec 32) (h : a + 4 ≤ n) :
    word (setWord m a w) a = w := by
  have h0 := byteAt_setWord_of_mem m (i := 0) w (by decide) h
  have h1 := byteAt_setWord_of_mem m (i := 1) w (by decide) h
  have h2 := byteAt_setWord_of_mem m (i := 2) w (by decide) h
  have h3 := byteAt_setWord_of_mem m (i := 3) w (by decide) h
  rw [Nat.add_zero] at h0
  apply BitVec.eq_of_toNat_eq
  have hw := w.isLt
  simp only [word, h0, h1, h2, h3, BitVec.toNat_ofNat]
  omega

theorem word_setWord_of_disjoint (m : Fin n → BitVec 8) {a b : Nat} (w : BitVec 32)
    (hb : b + 4 ≤ n) (h : b + 4 ≤ a ∨ a + 4 ≤ b) : word (setWord m a w) b = word m b := by
  have hbyte : ∀ i < 4, byteAt (setWord m a w) (b + i) = byteAt m (b + i) := fun i hi =>
    byteAt_setWord_of_disjoint m w (by omega) (by omega)
  have h0 := hbyte 0 (by decide)
  rw [Nat.add_zero] at h0
  simp only [word, h0, hbyte 1 (by decide), hbyte 2 (by decide), hbyte 3 (by decide)]

def setWords (m : Fin n → BitVec 8) (a : Nat) (f : Nat → BitVec 32) : Nat → Fin n → BitVec 8
  | 0 => m
  | k + 1 => setWord (setWords m a f k) (a + 4 * k) (f k)

theorem word_setWords_of_disjoint (m : Fin n → BitVec 8) {a b : Nat} (f : Nat → BitVec 32) (k : Nat)
    (hb : b + 4 ≤ n) (h : b + 4 ≤ a ∨ a + 4 * k ≤ b) : word (setWords m a f k) b = word m b := by
  induction k with
  | zero => rfl
  | succ k ih =>
    rw [setWords, word_setWord_of_disjoint _ _ hb (by omega)]
    exact ih (by omega)

theorem word_setWords (m : Fin n → BitVec 8) {a i k : Nat} (f : Nat → BitVec 32) (hi : i < k)
    (h : a + 4 * k ≤ n) : word (setWords m a f k) (a + 4 * i) = f i := by
  induction k with
  | zero => omega
  | succ k ih =>
    rw [setWords]
    by_cases hik : i = k
    · subst hik
      exact word_setWord _ _ (by omega)
    · rw [word_setWord_of_disjoint _ _ (by omega) (by omega)]
      exact ih (by omega) (by omega)

end LittleEndian
