import Mathlib.Data.BitVec
import Mathlib.Tactic

/-! The two `memmove`s, of the kernel and of the user library, on a memory that
is overwritten while it is read. Addresses are machine words, so that the
pointer arithmetic of the source is the arithmetic of the model. -/

namespace Xv6

open Function BitVec

abbrev Pointer := BitVec 64

abbrev Memory := Pointer → BitVec 8

def copyUp (m : Memory) (d s : Pointer) : Nat → Memory
  | 0 => m
  | n + 1 => copyUp (Function.update m d (m s)) (d + 1) (s + 1) n

def copyDown (m : Memory) (d s : Pointer) : Nat → Memory
  | 0 => m
  | n + 1 => copyDown (Function.update m (d - 1) (m (s - 1))) (d - 1) (s - 1) n

/-- `memmove` of kernel/string.c: backward only when the destination starts inside the source. -/
def Kernel.memmove (m : Memory) (dst src : Pointer) (n : BitVec 32) : Memory × Pointer :=
  if n = 0 then (m, dst)
  else if src < dst ∧ src + n.setWidth 64 > dst then
    (copyDown m (dst + n.setWidth 64) (src + n.setWidth 64) n.toNat, dst)
  else (copyUp m dst src n.toNat, dst)

/-- `memmove` of user/ulib.c: the length is an `int`, and a negative one runs no loop. -/
def Ulib.memmove (m : Memory) (dst src : Pointer) (n : BitVec 32) : Memory × Pointer :=
  if src > dst then (copyUp m dst src n.toInt.toNat, dst)
  else (copyDown m (dst + n.signExtend 64) (src + n.signExtend 64) n.toInt.toNat, dst)

/-- The `n` bytes at `d` are those that were at `s`; every other byte is as it was. -/
def moved (m : Memory) (d s : Pointer) (n : Nat) : Memory :=
  fun a => if (a - d).toNat < n then m (s + (a - d)) else m a

-- Upward is safe when no byte is written before it is read.
theorem copyUp_eq (m : Memory) (d s : Pointer) (n : Nat) (hn : n ≤ 2 ^ 64)
    (h : d = s ∨ n ≤ (d - s).toNat) : copyUp m d s n = moved m d s n := by
  induction n generalizing m d s with
  | zero => funext a; simp [copyUp, moved]
  | succ n ih =>
    have hds : d + 1 - (s + 1) = d - s := by ring
    have hstep : d + 1 = s + 1 ∨ n ≤ (d + 1 - (s + 1)).toNat := by
      rw [hds]
      exact h.imp (congrArg (· + 1)) (by omega)
    rw [copyUp, ih _ _ _ (by omega) hstep]
    funext a
    obtain ⟨k, rfl⟩ : ∃ k, a = d + k := ⟨a - d, by ring⟩
    have hk : d + k - d = k := by ring
    have hk' : d + k - (d + 1) = k - 1 := by ring
    have hsrc : s + 1 + (k - 1) = s + k := by ring
    rw [moved, moved, hk, hk', hsrc]
    by_cases hzero : k = 0
    · have hlast : ¬ ((0 : Pointer) - 1).toNat < n := by
        have hmax : ((0 : Pointer) - 1).toNat = 2 ^ 64 - 1 := rfl
        omega
      have hfirst : (0 : Pointer).toNat < n + 1 := Nat.succ_pos n
      rw [hzero, if_neg hlast, if_pos hfirst, add_zero, add_zero, update_self]
    · have hpred : (k - 1).toNat = k.toNat - 1 := by bv_omega
      have hpos : 0 < k.toNat := by bv_omega
      have hlt : (k - 1).toNat < n ↔ k.toNat < n + 1 := by omega
      have hd : d + k ≠ d := by simpa using hzero
      simp only [hlt, update_of_ne hd]
      refine if_ctx_congr Iff.rfl (fun hin => update_of_ne ?_ _ _) (fun _ => rfl)
      intro hsk
      have hgap : d - s = k := by rw [← hsk]; ring
      rcases h with rfl | h
      · exact hd hsk
      · rw [hgap] at h
        omega

theorem copyDown_eq (m : Memory) (d s : Pointer) (n : Nat) (hn : n ≤ 2 ^ 64)
    (h : d = s ∨ n ≤ (s - d).toNat) :
    copyDown m (d + BitVec.ofNat 64 n) (s + BitVec.ofNat 64 n) n = moved m d s n := by
  induction n generalizing m with
  | zero => funext a; simp [copyDown, moved]
  | succ n ih =>
    have hsucc (p : Pointer) : p + BitVec.ofNat 64 (n + 1) - 1 = p + BitVec.ofNat 64 n := by
      rw [BitVec.ofNat_add, ← add_assoc]
      exact add_sub_cancel_right _ _
    have hstep : d = s ∨ n ≤ (s - d).toNat := h.imp id (by omega)
    rw [copyDown, hsucc, hsucc, ih _ (by omega) hstep]
    funext a
    obtain ⟨k, rfl⟩ : ∃ k, a = d + k := ⟨a - d, by ring⟩
    have hk : d + k - d = k := by ring
    have hn' : (BitVec.ofNat 64 n).toNat = n := by
      rw [BitVec.toNat_ofNat, Nat.mod_eq_of_lt (by omega)]
    rw [moved, moved, hk]
    by_cases hlast : k = BitVec.ofNat 64 n
    · simp [hlast, hn']
    · have hne : k.toNat ≠ n := by
        intro e
        exact hlast (BitVec.eq_of_toNat_eq (e.trans hn'.symm))
      have hlt : k.toNat < n ↔ k.toNat < n + 1 := by omega
      have hd : d + k ≠ d + BitVec.ofNat 64 n := by simpa using hlast
      simp only [hlt, update_of_ne hd]
      refine if_ctx_congr Iff.rfl (fun hin => update_of_ne ?_ _ _) (fun _ => rfl)
      intro hsk
      have hgap : s - d = BitVec.ofNat 64 n - k := by
        rw [eq_sub_of_add_eq hsk]
        ring
      rcases h with rfl | h
      · exact hd hsk
      · rw [hgap, BitVec.toNat_sub_of_le (by rw [BitVec.le_def]; omega)] at h
        omega

theorem Kernel.memmove_eq (m : Memory) (dst src : Pointer) (n : BitVec 32)
    (hd : dst.toNat + n.toNat ≤ 2 ^ 64) (hs : src.toNat + n.toNat ≤ 2 ^ 64) :
    Kernel.memmove m dst src n = (moved m dst src n.toNat, dst) := by
  have hlen : n.setWidth 64 = BitVec.ofNat 64 n.toNat := (BitVec.ofNat_toNat 64 n).symm
  unfold Kernel.memmove
  split_ifs with hzero hback
  · rw [hzero]
    rfl
  · rw [hlen, copyDown_eq _ _ _ _ (by omega)]
    bv_omega
  · rw [copyUp_eq _ _ _ _ (by omega)]
    bv_omega

theorem Ulib.memmove_eq (m : Memory) (dst src : Pointer) (n : BitVec 32) (hn : 0 ≤ n.toInt)
    (hd : dst.toNat + n.toNat ≤ 2 ^ 64) (hs : src.toNat + n.toNat ≤ 2 ^ 64) :
    Ulib.memmove m dst src n = (moved m dst src n.toNat, dst) := by
  have hmsb : n.msb = false := by
    rw [msb_eq_toInt]
    simpa using hn
  have hint : n.toInt = n.toNat := toInt_eq_toNat_of_msb hmsb
  have hlen : n.signExtend 64 = BitVec.ofNat 64 n.toNat := by
    rw [signExtend_eq_setWidth_of_msb_false hmsb, ofNat_toNat]
  unfold Ulib.memmove
  rw [hint, Int.toNat_natCast]
  split_ifs with hback
  · rw [copyUp_eq _ _ _ _ (by omega)]
    bv_omega
  · rw [hlen, copyDown_eq _ _ _ _ (by omega)]
    bv_omega

theorem Ulib.memmove_negative (m : Memory) (dst src : Pointer) (n : BitVec 32)
    (hn : n.toInt < 0) : Ulib.memmove m dst src n = (m, dst) := by
  simp [Ulib.memmove, Int.toNat_of_nonpos hn.le, copyUp, copyDown]

/-- Where the ranges do not wrap, the kernel moves every length of a `uint` and the user
library every length of an `int`; there the two agree. -/
theorem memmove_agree (m : Memory) (dst src : Pointer) (n : BitVec 32)
    (hd : dst.toNat + n.toNat ≤ 2 ^ 64) (hs : src.toNat + n.toNat ≤ 2 ^ 64) :
    Kernel.memmove m dst src n = (moved m dst src n.toNat, dst) ∧
    (0 ≤ n.toInt → Ulib.memmove m dst src n = Kernel.memmove m dst src n) ∧
    (n.toInt < 0 → Ulib.memmove m dst src n = (m, dst)) := by
  have hkernel := Kernel.memmove_eq m dst src n hd hs
  refine ⟨hkernel, fun hn => ?_, Ulib.memmove_negative m dst src n⟩
  rw [hkernel, Ulib.memmove_eq m dst src n hn hd hs]

theorem memmove_agree_overlap : (Kernel.memmove (fun a => a.setWidth 8) 3 1 4).1 6 = 4 ∧
    (Ulib.memmove (fun a => a.setWidth 8) 3 1 4).1 6 = 4 := by
  have h := memmove_agree (fun a => a.setWidth 8) 3 1 4 (by decide) (by decide)
  rw [h.2.1 (by decide), h.1]
  exact ⟨rfl, rfl⟩

/-- The user library takes a length of `2 ^ 31` for a negative one and copies nothing. -/
theorem memmove_disagree :
    let m : Memory := Function.update (fun _ => 0) 0x100000000 1
    (Kernel.memmove m 0 0x100000000 0x80000000).1 0 = 1 ∧
    (Ulib.memmove m 0 0x100000000 0x80000000).1 0 = 0 := by
  intro m
  rw [Kernel.memmove_eq m 0 0x100000000 0x80000000 (by decide) (by decide),
    Ulib.memmove_negative m 0 0x100000000 0x80000000 (by decide)]
  exact ⟨rfl, rfl⟩

end Xv6
