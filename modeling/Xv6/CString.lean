import Mathlib.Tactic

/-! `strncmp` and `strncpy` on buffers. A buffer may end before the bytes that
are compared or copied; what is behind its end is never read. -/

namespace CString

open List

abbrev Buffer := List (BitVec 8)

def char (c : Char) : BitVec 8 := BitVec.ofNat 8 c.toNat

def strncmp : Nat → Buffer → Buffer → Int
  | 0, _, _ => 0
  | n + 1, p, q =>
    if p.headD 0#8 ≠ 0#8 ∧ p.headD 0#8 = q.headD 0#8 then strncmp n p.tail q.tail
    else (p.headD 0#8).toNat - (q.headD 0#8).toNat

def strncpy : Nat → Buffer → Buffer
  | 0, _ => []
  | n + 1, t =>
    if t.headD 0#8 ≠ 0#8 then t.headD 0#8 :: strncpy n t.tail else List.replicate (n + 1) 0#8

def text (n : Nat) (p : Buffer) : Buffer := (p.take n).takeWhile (· ≠ 0#8)

theorem text_succ (n : Nat) (p : Buffer) :
    text (n + 1) p = if p.headD 0#8 ≠ 0#8 then p.headD 0#8 :: text n p.tail else [] := by
  cases p with
  | nil => simp [text]
  | cons a p =>
    by_cases ha : a = 0#8
    · simp [text, ha]
    · simp [text, ha]

theorem toNat_sub_eq_zero {a b : BitVec 8} : (a.toNat : Int) - b.toNat = 0 ↔ a = b := by
  rw [sub_eq_zero, Nat.cast_inj, BitVec.toNat_inj]

theorem strncmp_eq_zero (n : Nat) (p q : Buffer) : strncmp n p q = 0 ↔ text n p = text n q := by
  induction n generalizing p q with
  | zero => simp [strncmp, text]
  | succ n ih =>
    rw [strncmp, text_succ, text_succ]
    generalize p.headD 0#8 = a
    generalize q.headD 0#8 = b
    by_cases ha : a = 0#8
    · by_cases hb : b = 0#8
      · simp [ha, hb]
      · have hb' : b.toNat ≠ 0 := fun h => hb (BitVec.eq_of_toNat_eq h)
        simp [ha, hb, hb']
    · by_cases hab : a = b
      · subst hab
        simp only [ne_eq, ha, not_false_eq_true, and_self, if_true, cons.injEq, true_and]
        exact ih _ _
      · rw [if_neg (fun h => hab h.2), toNat_sub_eq_zero, if_pos ha]
        by_cases hb : b = 0#8
        · simp [ha, hb]
        · simp [hab, hb]

theorem length_strncpy (n : Nat) (t : Buffer) : (strncpy n t).length = n := by
  induction n generalizing t with
  | zero => rfl
  | succ n ih =>
    unfold strncpy
    split_ifs
    · rw [length_cons, ih]
    · simp

theorem text_strncpy (n : Nat) (t : Buffer) : text n (strncpy n t) = text n t := by
  induction n generalizing t with
  | zero => rfl
  | succ n ih =>
    rw [text_succ n t]
    unfold strncpy
    split_ifs with h
    · rw [text_succ]
      simp only [headD_cons, tail_cons, ih]
      exact if_pos h
    · rw [text_succ, replicate_succ]
      simp

end CString
