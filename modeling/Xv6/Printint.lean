import Xv6.CString

/-! `printint` of the kernel and of the user library: the digits go into a
buffer of 20 bytes from the last to the first and are printed in reverse. -/

namespace Xv6

open CString List Option

/-- The loop over the digits, with `room` bytes of the buffer left. The buffer is listed from
its last byte on, and a write behind its end has no result. -/
def putDigits (digits : Buffer) (base : BitVec 64) :
    Nat → BitVec 64 → Buffer → Option (Nat × Buffer)
  | 0, _, _ => none
  | room + 1, x, buf => do
    let c ← digits[(x % base).toNat]?
    if x / base ≠ 0#64 then putDigits digits base room (x / base) (c :: buf)
    else some (room, c :: buf)

def putSign : Nat × Buffer → Option Buffer
  | (0, _) => none
  | (_ + 1, buf) => some (char '-' :: buf)

def Kernel.digits : Buffer := "0123456789abcdef".toList.map char

/-- `printint` of kernel/printf.c, as the characters it hands to `consputc`. -/
def Kernel.printint (xx : BitVec 64) (base : BitVec 32) (sign : Bool) : Option Buffer := do
  let sign := sign && xx.slt 0
  let x := if sign then -xx else xx
  let out ← putDigits Kernel.digits (base.signExtend 64) 20 x []
  if sign then putSign out else some out.2

def Ulib.digits : Buffer := "0123456789ABCDEF".toList.map char

/-- `printint` of user/printf.c, as the characters it hands to `putc`. -/
def Ulib.printint (xx : BitVec 64) (base : BitVec 32) (sgn : Bool) : Option Buffer := do
  let (neg, x) := if sgn && xx.slt 0 then (true, -xx) else (false, xx)
  let out ← putDigits Ulib.digits (base.signExtend 64) 20 x []
  if neg then putSign out else some out.2

/-- The value of digits listed from the last on. -/
def readDigits (digits : Buffer) (b : Nat) : Buffer → Option Nat
  | [] => some 0
  | c :: s => do
    let v ← readDigits digits b s
    if digits.idxOf c < b then some (digits.idxOf c + b * v) else none

def readNat (digits : Buffer) (b : Nat) (s : Buffer) : Option Nat :=
  if s = [] then none else readDigits digits b s.reverse

def readInt (digits : Buffer) (b : Nat) (s : Buffer) : Option Int :=
  if s.head? = some (char '-') then (readNat digits b s.tail).map fun n : Nat => -(n : Int)
  else (readNat digits b s).map fun n : Nat => (n : Int)

/-- No digit `0` leads, other than the numeral `0` itself, which has no sign. -/
def Plain (s : Buffer) : Prop :=
  (s.head? = some (char '0') → s = [char '0']) ∧
  (s.head? = some (char '-') → s.tail.head? ≠ some (char '0'))

section Numerals

variable {digits : Buffer} {b : Nat}

/-- The digits of a number, the last first; those of 0 are one 0. -/
def digitsOf (b x : Nat) : List Nat := x % b :: Nat.digits b (x / b)

def glyph (digits : Buffer) (d : Nat) : BitVec 8 := digits.getD d 0#8

theorem glyph_eq {d : Nat} (hd : d < digits.length) : glyph digits d = digits[d] := by
  simp [glyph, hd]

def numeral (digits : Buffer) (b x : Nat) : Buffer :=
  ((digitsOf b x).map (glyph digits)).reverse

theorem digitsOf_eq (hb : 1 < b) (x : Nat) :
    digitsOf b x = x % b :: if x / b = 0 then [] else digitsOf b (x / b) := by
  rw [digitsOf]
  split_ifs with h
  · rw [h, Nat.digits_zero]
  · rw [Nat.digits_def' hb (Nat.pos_of_ne_zero h), digitsOf]

theorem digitsOf_lt (hb : 1 < b) {x d : Nat} (hd : d ∈ digitsOf b x) : d < b := by
  rcases mem_cons.mp hd with rfl | hd
  · exact Nat.mod_lt _ (by omega)
  · exact Nat.digits_lt_base hb hd

theorem ofDigits_digitsOf (b x : Nat) : Nat.ofDigits b (digitsOf b x) = x := by
  rw [digitsOf, Nat.ofDigits_cons, Nat.ofDigits_digits]
  exact Nat.mod_add_div x b

theorem length_digitsOf (hb : 1 < b) {x k : Nat} (hx : x < b ^ (k + 1)) :
    (digitsOf b x).length ≤ k + 1 := by
  rw [digitsOf, length_cons, Nat.add_le_add_iff_right, Nat.digits_length_le_iff hb]
  exact Nat.div_lt_of_lt_mul (by rwa [← Nat.pow_succ'])

theorem digitsOf_ofDigits (hb : 1 < b) {L : List Nat} (hne : L ≠ []) (hlt : ∀ d ∈ L, d < b)
    (hlead : L.getLast hne = 0 → L = [0]) : digitsOf b (Nat.ofDigits b L) = L := by
  cases L with
  | nil => exact absurd rfl hne
  | cons d L =>
    obtain ⟨hd, hL⟩ := forall_mem_cons.mp hlt
    rw [digitsOf, Nat.ofDigits_cons, Nat.add_mul_mod_self_left, Nat.mod_eq_of_lt hd,
      Nat.add_mul_div_left _ _ (by omega), Nat.div_eq_of_lt hd, Nat.zero_add,
      Nat.digits_ofDigits b hb L hL]
    intro hnil hzero
    rw [getLast_cons hnil] at hlead
    exact hnil (cons.inj (hlead hzero)).2

/-- A table of digits that serves base `b`. -/
structure Table (digits : Buffer) (b : Nat) : Prop where
  one_lt : 1 < b
  le_length : b ≤ digits.length
  nodup : digits.Nodup
  zero : glyph digits 0 = char '0'
  minus : char '-' ∉ digits

variable (t : Table digits b)

include t

theorem Table.idxOf_glyph {d : Nat} (hd : d < b) : digits.idxOf (glyph digits d) = d := by
  have hin : d < digits.length := hd.trans_le t.le_length
  rw [glyph_eq hin, t.nodup.idxOf_getElem]

-- The loop writes the digits of `x` in front of what is there.
theorem Table.putDigits_eq {base : BitVec 64} (hbase : base.toNat = b) (room : Nat)
    (x : BitVec 64) (buf : Buffer) (hroom : (digitsOf b x.toNat).length ≤ room) :
    putDigits digits base room x buf =
      some (room - (digitsOf b x.toNat).length, numeral digits b x.toNat ++ buf) := by
  induction room generalizing x buf with
  | zero => simp [digitsOf] at hroom
  | succ room ih =>
    have hdiv : (x / base).toNat = x.toNat / b := by rw [BitVec.toNat_udiv, hbase]
    have hmod : (x % base).toNat = x.toNat % b := by rw [BitVec.toNat_umod, hbase]
    have hin : x.toNat % b < digits.length :=
      (Nat.mod_lt _ (Nat.zero_lt_of_lt t.one_lt)).trans_le t.le_length
    have hzero : x / base = 0#64 ↔ x.toNat / b = 0 := by
      rw [← hdiv, ← BitVec.toNat_inj]
      rfl
    rw [digitsOf_eq t.one_lt, length_cons] at hroom
    rw [putDigits, hmod, getElem?_eq_getElem hin, numeral, digitsOf_eq t.one_lt]
    by_cases hx : x.toNat / b = 0
    · simp [hzero, hx, glyph_eq hin]
    · rw [if_neg hx, ← hdiv] at hroom
      simp only [bind_eq_bind, bind_some, ne_eq, hzero, hx, not_false_eq_true, if_true,
        ih (x / base) _ (by omega), hdiv, if_false, numeral]
      simp [glyph_eq hin]

theorem Table.readDigits_map {L : List Nat} (hL : ∀ d ∈ L, d < b) :
    readDigits digits b (L.map (glyph digits)) = some (Nat.ofDigits b L) := by
  induction L with
  | nil => rfl
  | cons d L ih =>
    obtain ⟨hd, hL⟩ := forall_mem_cons.mp hL
    rw [map_cons, readDigits, ih hL]
    simp [t.idxOf_glyph hd, hd, Nat.ofDigits_cons]

theorem Table.of_readDigits {s : Buffer} {v : Nat} (h : readDigits digits b s = some v) :
    ∃ L, s = L.map (glyph digits) ∧ (∀ d ∈ L, d < b) ∧ v = Nat.ofDigits b L := by
  induction s generalizing v with
  | nil => exact ⟨[], rfl, by simp, by simpa [readDigits] using h.symm⟩
  | cons c s ih =>
    rw [readDigits] at h
    obtain ⟨v', hv', h⟩ := bind_eq_some_iff.mp h
    obtain ⟨L, rfl, hL, rfl⟩ := ih hv'
    split_ifs at h with hc
    cases h
    have hin : digits.idxOf c < digits.length := hc.trans_le t.le_length
    refine ⟨digits.idxOf c :: L, ?_, forall_mem_cons.mpr ⟨hc, hL⟩, rfl⟩
    rw [map_cons, glyph_eq hin, getElem_idxOf hin]

theorem Table.readNat_numeral (x : Nat) : readNat digits b (numeral digits b x) = some x := by
  have hne : numeral digits b x ≠ [] := by simp [numeral, digitsOf]
  rw [readNat, if_neg hne, numeral, reverse_reverse,
    t.readDigits_map fun _ => digitsOf_lt t.one_lt, ofDigits_digitsOf]

theorem Table.eq_numeral {s : Buffer} {x : Nat} (h : readNat digits b s = some x)
    (hlead : s.head? = some (char '0') → s = [char '0']) : s = numeral digits b x := by
  unfold readNat at h
  split_ifs at h with hs
  obtain ⟨L, hL, hlt, rfl⟩ := t.of_readDigits h
  have hsL : s = (L.map (glyph digits)).reverse := by rw [← hL, reverse_reverse]
  have hne : L ≠ [] := by
    rintro rfl
    exact hs hsL
  rw [numeral, digitsOf_ofDigits t.one_lt hne hlt, ← hsL]
  intro hzero
  have hhead : s.head? = some (char '0') := by
    rw [hsL, head?_reverse, getLast?_map, getLast?_eq_getLast_of_ne_nil hne, hzero]
    exact congrArg some t.zero
  have hone : L.length = 1 := by
    have := congrArg length (hlead hhead)
    simpa [hsL] using this
  obtain ⟨d, rfl⟩ := length_eq_one_iff.mp hone
  exact congrArg ([·]) hzero

theorem Table.numeral_head (x : Nat) : (numeral digits b x).head? ≠ some (char '-') ∧
    ((numeral digits b x).head? = some (char '0') → x = 0) := by
  have hne : digitsOf b x ≠ [] := cons_ne_nil _ _
  have hlast : (digitsOf b x).getLast hne < b := digitsOf_lt t.one_lt (getLast_mem hne)
  have hhead : (numeral digits b x).head? = some (glyph digits ((digitsOf b x).getLast hne)) := by
    rw [numeral, head?_reverse, getLast?_map, getLast?_eq_getLast_of_ne_nil hne]
    rfl
  rw [hhead, some_inj.ne, some_inj]
  constructor
  · intro hminus
    rw [glyph_eq (hlast.trans_le t.le_length)] at hminus
    exact t.minus (hminus ▸ getElem_mem _)
  · intro hzero
    rw [← t.zero] at hzero
    have hz : (digitsOf b x).getLast hne = 0 := by
      rw [← t.idxOf_glyph hlast, hzero, t.idxOf_glyph (Nat.zero_lt_of_lt t.one_lt)]
    by_cases hdiv : x / b = 0
    · have hmod : x % b = 0 := by simpa [digitsOf, hdiv] using hz
      rw [← Nat.mod_add_div x b, hmod, hdiv, Nat.mul_zero]
    · have hdigits : Nat.digits b (x / b) ≠ [] := Nat.digits_ne_nil_iff_ne_zero.mpr hdiv
      simp only [digitsOf, getLast_cons hdigits] at hz
      exact absurd hz (Nat.getLast_digit_ne_zero b hdiv)

end Numerals

/-- The numeral of `v` without leading zeros, in the buffer of 20 bytes. -/
structure Exact (digits : Buffer) (b : Nat) (v : Int) (out : Buffer) : Prop where
  fits : out.length ≤ 20
  plain : Plain out
  value : readInt digits b out = some v
  unique : ∀ s, Plain s → readInt digits b s = some v → s = out

theorem Table.exact_numeral {digits : Buffer} {b x : Nat} (t : Table digits b)
    (hlen : (digitsOf b x).length ≤ 20) : Exact digits b x (numeral digits b x) := by
  obtain ⟨hminus, hzero⟩ := t.numeral_head x
  have hnil : numeral digits b 0 = [char '0'] := by simp [numeral, digitsOf, t.zero]
  refine ⟨by simpa [numeral] using hlen, ⟨fun h => ?_, fun h => absurd h hminus⟩, ?_, ?_⟩
  · rw [hzero h, hnil]
  · rw [readInt, if_neg hminus, t.readNat_numeral]
    rfl
  · intro s hplain h
    unfold readInt at h
    split_ifs at h with hs
    · -- A sign denotes a number below zero, or the 0 that no plain text signs.
      obtain ⟨n, hn, hneg⟩ := map_eq_some_iff.mp h
      obtain rfl : n = 0 := by omega
      have htail := t.eq_numeral hn fun h => absurd h (hplain.2 hs)
      exact absurd (by rw [htail, hnil]; rfl) (hplain.2 hs)
    · obtain ⟨n, hn, hv⟩ := map_eq_some_iff.mp h
      rw [Nat.cast_inj.mp hv] at hn
      exact t.eq_numeral hn hplain.1

theorem Table.exact_negative {digits : Buffer} {b x : Nat} (t : Table digits b) (hx : 0 < x)
    (hlen : (digitsOf b x).length ≤ 19) :
    Exact digits b (-x) (char '-' :: numeral digits b x) := by
  obtain ⟨-, hzero⟩ := t.numeral_head x
  refine ⟨by simpa [numeral] using Nat.lt_succ_of_le hlen, ⟨fun h => ?_, fun _ h => ?_⟩, ?_, ?_⟩
  · exact absurd (some.inj h) (by decide)
  · exact hx.ne' (hzero h)
  · rw [readInt, if_pos head?_cons, tail_cons, t.readNat_numeral]
    rfl
  · intro s hplain h
    unfold readInt at h
    split_ifs at h with hs
    · obtain ⟨n, hn, hv⟩ := map_eq_some_iff.mp h
      rw [Nat.cast_inj.mp (neg_inj.mp hv)] at hn
      rw [← t.eq_numeral hn fun h => absurd h (hplain.2 hs)]
      exact (cons_head?_tail hs).symm
    · obtain ⟨n, -, hv⟩ := map_eq_some_iff.mp h
      omega

theorem table_of_base {b : Nat} (hb : b = 10 ∨ b = 16) :
    Table Kernel.digits b ∧ Table Ulib.digits b := by
  rcases hb with rfl | rfl
  · constructor <;> constructor <;> decide
  · constructor <;> constructor <;> decide

/-- What the 64 bits denote. -/
def printed (xx : BitVec 64) (sgn : Bool) : Int := if sgn then xx.toInt else xx.toNat

theorem printed_negative {xx : BitVec 64} (h : xx.slt 0 = true) :
    printed xx true = -((-xx).toNat : Int) ∧ 0 < (-xx).toNat ∧ (-xx).toNat ≤ 2 ^ 63 := by
  have hneg : xx.toInt < 0 := by simpa [BitVec.slt] using h
  have hlow := BitVec.le_toInt xx
  rw [BitVec.toInt_eq_toNat_cond] at hneg hlow
  rw [printed, if_pos rfl, BitVec.toInt_eq_toNat_cond, BitVec.toNat_neg]
  split_ifs at hneg hlow ⊢ with hx
  · omega
  · omega

theorem printed_nonneg {xx : BitVec 64} {sgn : Bool} (h : (sgn && xx.slt 0) = false) :
    printed xx sgn = xx.toNat := by
  cases sgn with
  | false => rfl
  | true =>
    have hpos : 0 ≤ xx.toInt := by simpa [BitVec.slt] using h
    rw [BitVec.toInt_eq_toNat_cond] at hpos
    rw [printed, if_pos rfl, BitVec.toInt_eq_toNat_cond]
    split_ifs at hpos ⊢
    · rfl
    · omega

-- Twenty bytes are the digits of 2 ^ 64 - 1, or a sign and the nineteen digits of 2 ^ 63.
theorem Table.exact_print {digits : Buffer} {b : Nat} (t : Table digits b) (hb : 10 ≤ b)
    {base : BitVec 64} (hbase : base.toNat = b) (xx : BitVec 64) (sgn : Bool) :
    ∃ out, ((putDigits digits base 20 (if sgn && xx.slt 0 then -xx else xx) []).bind fun o =>
        if sgn && xx.slt 0 then putSign o else some o.2) = some out ∧
      Exact digits b (printed xx sgn) out := by
  have hlen {x k : Nat} (hx : x < 10 ^ (k + 1)) : (digitsOf b x).length ≤ k + 1 :=
    length_digitsOf t.one_lt (hx.trans_le (Nat.pow_le_pow_left hb _))
  cases hneg : sgn && xx.slt 0 with
  | true =>
    obtain ⟨rfl, hslt⟩ := (Bool.and_eq_true _ _).mp hneg
    obtain ⟨hv, hpos, hmax⟩ := printed_negative hslt
    have hfit := hlen (x := (-xx).toNat) (k := 18) (by omega)
    refine ⟨char '-' :: numeral digits b (-xx).toNat, ?_, hv ▸ t.exact_negative hpos hfit⟩
    obtain ⟨room, hroom⟩ : ∃ room, 20 - (digitsOf b (-xx).toNat).length = room + 1 :=
      Nat.exists_eq_add_one.mpr (by omega)
    rw [if_pos rfl, t.putDigits_eq hbase 20 (-xx) [] (by omega), hroom]
    simp [putSign]
  | false =>
    have hfit := hlen (x := xx.toNat) (k := 19) (by omega)
    refine ⟨numeral digits b xx.toNat, ?_, printed_nonneg hneg ▸ t.exact_numeral hfit⟩
    simp [t.putDigits_eq hbase 20 xx [] hfit]

/-- Both `printint`s print, for every 64-bit value, the one numeral that denotes it, and never
write behind their buffers. -/
theorem printint_exact (xx : BitVec 64) (base : BitVec 32) (hbase : base = 10 ∨ base = 16)
    (sgn : Bool) :
    (∃ out, Kernel.printint xx base sgn = some out ∧
      Exact Kernel.digits base.toNat (printed xx sgn) out) ∧
    (∃ out, Ulib.printint xx base sgn = some out ∧
      Exact Ulib.digits base.toNat (printed xx sgn) out) := by
  have hb : base.toNat = 10 ∨ base.toNat = 16 := by
    rcases hbase with rfl | rfl <;> simp
  have hten : 10 ≤ base.toNat := by omega
  have hext : (base.signExtend 64).toNat = base.toNat := by
    rcases hbase with rfl | rfl <;> rfl
  obtain ⟨hkernel, hulib⟩ := table_of_base hb
  constructor
  · exact hkernel.exact_print hten hext xx sgn
  · obtain ⟨out, hout, hexact⟩ := hulib.exact_print hten hext xx sgn
    refine ⟨out, ?_, hexact⟩
    rw [← hout, Ulib.printint]
    cases sgn && xx.slt 0 with
    | true => rfl
    | false => rfl

theorem printint_exact_minimum :
    Kernel.printint (1 <<< 63) 10 true = some ("-9223372036854775808".toList.map char) ∧
    ∃ out, Ulib.printint (1 <<< 63) 10 true = some out ∧ Exact Ulib.digits 10 (-2 ^ 63) out := by
  exact ⟨by decide +kernel, (printint_exact (1 <<< 63) 10 (.inl rfl) true).2⟩

end Xv6
