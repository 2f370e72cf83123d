import Mathlib

/-!
# Unsigned 32-bit arithmetic

The kernel's `unsigned long` is 32 bits wide on the i386, and a good part of what can go wrong in
it goes wrong because a sum or a difference wraps.  Words are natural numbers below `2 ^ 32` here,
and the operations that can wrap say so: `add32`, `sub32`, `neg32`, `shl32`.  The modulus is written
out as a literal so that `omega` sees through all of them once they are unfolded.
-/

set_option autoImplicit false

namespace Linux24

/-- `a + b` on an `unsigned long`. -/
def add32 (a b : ℕ) : ℕ := (a + b) % 4294967296

/-- `a - b` on an `unsigned long`. -/
def sub32 (a b : ℕ) : ℕ := (a + (4294967296 - b % 4294967296)) % 4294967296

/-- `-a` on an `unsigned long`. -/
def neg32 (a : ℕ) : ℕ := (4294967296 - a % 4294967296) % 4294967296

/-- `~a` on an `unsigned long`. -/
def not32 (a : ℕ) : ℕ := 4294967295 - a % 4294967296

/-- `a << n` on an `unsigned long`. -/
def shl32 (a n : ℕ) : ℕ := a * 2 ^ n % 4294967296

theorem add32_of_lt {a b : ℕ} (h : a + b < 4294967296) : add32 a b = a + b :=
  Nat.mod_eq_of_lt h

theorem add32_lt (a b : ℕ) : add32 a b < 4294967296 := Nat.mod_lt _ (by norm_num)

theorem sub32_of_le {a b : ℕ} (ha : a < 4294967296) (h : b ≤ a) : sub32 a b = a - b := by
  rw [sub32]; omega

/-- Sums and differences are those of the integers modulo `2 ^ 32`. -/
theorem cast_add32 (a b : ℕ) : ((add32 a b : ℕ) : ZMod 4294967296) = a + b := by
  rw [add32, ZMod.natCast_mod, Nat.cast_add]

theorem cast_sub32 (a b : ℕ) : ((sub32 a b : ℕ) : ZMod 4294967296) = a - b := by
  have h : b % 4294967296 ≤ 4294967296 := (Nat.mod_lt b (by norm_num)).le
  rw [sub32, ZMod.natCast_mod, Nat.cast_add, Nat.cast_sub h, ZMod.natCast_mod, ZMod.natCast_self,
    zero_sub, sub_eq_add_neg]

/-- Masking with `~0 << k` rounds down to a multiple of `2 ^ k`. -/
theorem and_mask {x k : ℕ} (hx : x < 4294967296) (hk : k ≤ 32) :
    x &&& (4294967296 - 2 ^ k) = x / 2 ^ k * 2 ^ k := by
  have hm : 4294967296 - 2 ^ k = (2 ^ (32 - k) - 1) <<< k := by
    rw [Nat.shiftLeft_eq, Nat.sub_mul, ← pow_add, Nat.sub_add_cancel hk]
    norm_num
  have hx' : x / 2 ^ k < 2 ^ (32 - k) := by
    rw [Nat.div_lt_iff_lt_mul (Nat.two_pow_pos k), ← pow_add, Nat.sub_add_cancel hk]
    exact hx
  rw [hm, ← Nat.shiftLeft_eq, ← Nat.mod_eq_of_lt hx', ← Nat.and_two_pow_sub_one_eq_mod,
    Nat.shiftLeft_and_distrib, ← Nat.shiftRight_eq_div_pow]
  apply Nat.eq_of_testBit_eq
  intro i
  by_cases h : k ≤ i
  · simp [h]
  · simp [h]

end Linux24
