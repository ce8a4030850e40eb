import Mathlib.Tactic

/-! The C integer types of the kernel as reductions of `Int` and `Nat`. -/

namespace Xv6

/-- The value an `int` holds after a computation with result `x`. -/
def i32 (x : Int) : Int := x.bmod (2 ^ 32)

def i16 (x : Int) : Int := x.bmod (2 ^ 16)

def u32 (n : Nat) : Nat := n % 2 ^ 32

def u64 (n : Nat) : Nat := n % 2 ^ 64

theorem i32_eq {x : Int} (hl : -2 ^ 31 ≤ x) (hu : x < 2 ^ 31) : i32 x = x :=
  Int.bmod_eq_of_le (by omega) (by omega)

theorem i32_add (x y : Int) : i32 (i32 x + y) = i32 (x + y) := by
  simp [i32]

theorem u32_add (m n : Nat) : u32 (u32 m + n) = u32 (m + n) := by
  simp [u32]

theorem u64_add (m n : Nat) : u64 (u64 m + n) = u64 (m + n) := by
  simp [u64]

theorem u64_eq {n : Nat} (h : n < 2 ^ 64) : u64 n = n := Nat.mod_eq_of_lt h

theorem i32_nat_le {n : Nat} : i32 n ≤ n := by
  rw [i32, Int.bmod_def]
  split <;> omega

end Xv6
