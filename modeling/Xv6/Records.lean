import Mathlib.Tactic

/-! Records of a fixed length in a list, and writes over a part of a list. -/

namespace Records

open List

variable {α : Type}

def splice (l : List α) (off : Nat) (d : List α) : List α :=
  l.take off ++ (d ++ l.drop (off + d.length))

theorem length_splice {l d : List α} {off : Nat} (hoff : off ≤ l.length) :
    (splice l off d).length = max l.length (off + d.length) := by
  simp only [splice, length_append, length_take, length_drop]
  omega

theorem getElem?_splice {l d : List α} {off : Nat} (hoff : off ≤ l.length) (o : Nat) :
    (splice l off d)[o]? = if off ≤ o ∧ o < off + d.length then d[o - off]? else l[o]? := by
  have htake : (l.take off).length = off := by
    rw [length_take]
    omega
  unfold splice
  by_cases h1 : o < off
  · rw [getElem?_append_left (by omega), getElem?_take_of_lt h1, if_neg (by omega)]
  · rw [getElem?_append_right (by omega), htake]
    by_cases h2 : o < off + d.length
    · rw [getElem?_append_left (by omega), if_pos (by omega)]
    · rw [getElem?_append_right (by omega), getElem?_drop, if_neg (by omega)]
      congr 1
      omega

theorem splice_nil (l : List α) (off : Nat) : splice l off [] = l := by
  simp [splice]

theorem splice_splice {l a b : List α} {off : Nat} (hoff : off ≤ l.length) :
    splice (splice l off a) (off + a.length) b = splice l off (a ++ b) := by
  have hle : off + a.length ≤ (splice l off a).length := by
    rw [length_splice hoff]
    exact le_max_right _ _
  refine ext_getElem? (fun o => ?_)
  rw [getElem?_splice hle, getElem?_splice hoff, getElem?_splice hoff, length_append]
  by_cases h1 : off + a.length ≤ o ∧ o < off + a.length + b.length
  · rw [if_pos h1, if_pos (by omega), getElem?_append_right (by omega), Nat.sub_sub]
  · rw [if_neg h1]
    by_cases h2 : off ≤ o ∧ o < off + a.length
    · rw [if_pos h2, if_pos (by omega), getElem?_append_left (by omega)]
    · rw [if_neg h2, if_neg (by omega)]

/-- The list in parts of length `m`, the last one perhaps shorter. -/
def pieces (m : Nat) (l : List α) : List (List α) :=
  if l = [] ∨ m = 0 then [] else l.take m :: pieces m (l.drop m)
termination_by l.length
decreasing_by
  rename_i h
  obtain ⟨hl, hm⟩ := not_or.mp h
  have hpos := List.length_pos_iff.mpr hl
  rw [List.length_drop]
  omega

theorem pieces_nil (m : Nat) : pieces m ([] : List α) = [] := by
  rw [pieces, if_pos (.inl rfl)]

theorem pieces_cons {m : Nat} {l : List α} (hm : 0 < m) (hl : l ≠ []) :
    pieces m l = l.take m :: pieces m (l.drop m) := by
  rw [pieces, if_neg (by simp [hl, hm.ne'])]

theorem pieces_of_le {m : Nat} {l : List α} (hl : l ≠ []) (hle : l.length ≤ m) :
    pieces m l = [l] := by
  have hpos := length_pos_iff.mpr hl
  rw [pieces_cons (by omega) hl, take_of_length_le hle, drop_of_length_le hle, pieces_nil]

theorem flatten_pieces {m : Nat} (hm : 0 < m) (l : List α) : (pieces m l).flatten = l := by
  induction hn : l.length using Nat.strong_induction_on generalizing l with
  | _ n ih =>
    by_cases hl : l = []
    · rw [hl, pieces_nil, flatten_nil]
    · have hpos := length_pos_iff.mpr hl
      rw [pieces_cons hm hl, flatten_cons,
        ih (l.drop m).length (by rw [length_drop]; omega) (l.drop m) rfl,
        take_append_drop]

def chunks (m : Nat) (l : List α) : List (List α) :=
  (List.range (l.length / m)).map (fun k => (l.drop (m * k)).take m)

theorem length_chunks (m : Nat) (l : List α) : (chunks m l).length = l.length / m := by
  simp [chunks]

theorem getElem?_chunks {m k : Nat} {l : List α} (hk : k < l.length / m) :
    (chunks m l)[k]? = some ((l.drop (m * k)).take m) := by
  unfold chunks
  rw [getElem?_map, getElem?_range hk]
  rfl

section Write

variable {m q k : Nat} {l d : List α}

theorem splice_chunk_self (hl : l.length = m * q) (hk : k ≤ q) (hc : d.length = m) :
    ((splice l (m * k) d).drop (m * k)).take m = d := by
  have hoff : m * k ≤ l.length := by rw [hl]; exact Nat.mul_le_mul_left m hk
  refine ext_getElem? (fun i => ?_)
  by_cases hi : i < m
  · rw [getElem?_take_of_lt hi, getElem?_drop, getElem?_splice hoff, if_pos (by omega)]
    congr 1
    omega
  · rw [getElem?_eq_none (by rw [length_take]; omega), getElem?_eq_none (by omega)]

theorem splice_chunk_of_ne (hl : l.length = m * q) (hk : k ≤ q) (hc : d.length = m) {j : Nat}
    (hj : j ≠ k) : ((splice l (m * k) d).drop (m * j)).take m = (l.drop (m * j)).take m := by
  have hoff : m * k ≤ l.length := by rw [hl]; exact Nat.mul_le_mul_left m hk
  refine ext_getElem? (fun i => ?_)
  by_cases hi : i < m
  · rw [getElem?_take_of_lt hi, getElem?_take_of_lt hi, getElem?_drop,
      getElem?_drop, getElem?_splice hoff, if_neg]
    rcases Nat.lt_or_gt_of_ne hj with h | h
    · have h1 := Nat.mul_le_mul_left m (Nat.succ_le_of_lt h)
      rw [Nat.mul_succ] at h1
      omega
    · have h1 := Nat.mul_le_mul_left m (Nat.succ_le_of_lt h)
      rw [Nat.mul_succ] at h1
      omega
  · rw [getElem?_eq_none (by rw [length_take]; omega),
      getElem?_eq_none (by rw [length_take]; omega)]

theorem chunks_splice_set (hm : 0 < m) (hl : l.length = m * q) (hk : k < q) (hc : d.length = m) :
    chunks m (splice l (m * k) d) = (chunks m l).set k d := by
  have hkq := Nat.mul_le_mul_left m (Nat.succ_le_of_lt hk)
  rw [Nat.mul_succ] at hkq
  have hlen : (splice l (m * k) d).length = m * q := by
    rw [length_splice (by omega)]
    omega
  have hdiv : (m * q) / m = q := Nat.mul_div_cancel_left q hm
  refine ext_getElem? (fun j => ?_)
  by_cases hj : j < q
  · rw [getElem?_chunks (by rw [hlen, hdiv]; exact hj)]
    by_cases hjk : j = k
    · subst hjk
      rw [splice_chunk_self hl (by omega) hc, getElem?_set_self]
      rw [length_chunks, hl, hdiv]
      exact hj
    · rw [splice_chunk_of_ne hl (by omega) hc hjk, getElem?_set_ne (Ne.symm hjk),
        getElem?_chunks (by rw [hl, hdiv]; exact hj)]
  · rw [getElem?_eq_none (by rw [length_chunks, hlen, hdiv]; omega),
      getElem?_eq_none (by rw [length_set, length_chunks, hl, hdiv]; omega)]

theorem chunks_splice_append (hm : 0 < m) (hl : l.length = m * q) (hc : d.length = m) :
    chunks m (splice l (m * q) d) = chunks m l ++ [d] := by
  have hlen : (splice l (m * q) d).length = m * (q + 1) := by
    rw [length_splice (by omega), Nat.mul_add]
    omega
  have hdiv : (m * q) / m = q := Nat.mul_div_cancel_left q hm
  have hdiv' : (m * (q + 1)) / m = q + 1 := Nat.mul_div_cancel_left (q + 1) hm
  have hold : (chunks m l).length = q := by rw [length_chunks, hl, hdiv]
  refine ext_getElem? (fun j => ?_)
  by_cases hj : j < q + 1
  · rw [getElem?_chunks (by rw [hlen, hdiv']; exact hj)]
    by_cases hjq : j = q
    · subst hjq
      rw [splice_chunk_self hl le_rfl hc, getElem?_append_right (by omega), hold]
      simp
    · rw [splice_chunk_of_ne hl le_rfl hc hjq, getElem?_append_left (by omega),
        getElem?_chunks (by rw [hl, hdiv]; omega)]
  · rw [getElem?_eq_none (by rw [length_chunks, hlen, hdiv']; omega),
      getElem?_eq_none (by rw [length_append, hold, length_singleton]; omega)]

end Write

end Records
