import Mathlib

/-!
# Numbers in a memory of bytes

A memory is a function from addresses to bytes.  `load m a n` is the number that the `n` bytes from
the address `a` on stand for, the low byte first, and `store m a n v` puts one there.  What a load
gives depends on the bytes it reads, and a store changes no other bytes than those it writes.
-/

set_option autoImplicit false

namespace Bytes

abbrev Mem := ℕ → BitVec 8

/-- The number at an address. -/
def load (m : Mem) (a : ℕ) : ℕ → ℕ
  | 0 => 0
  | n + 1 => (m a).toNat + 256 * load m (a + 1) n

/-- The memory with a number put at an address. -/
def store (m : Mem) (a n v : ℕ) : Mem := fun x ↦
  if a ≤ x ∧ x < a + n then BitVec.ofNat 8 (v / 256 ^ (x - a)) else m x

variable {m m' : Mem} {a b n k v x : ℕ}

theorem load_lt (m : Mem) (a n : ℕ) : load m a n < 256 ^ n := by
  induction n generalizing a with
  | zero => exact one_pos
  | succ n ih =>
    have hrest := ih (a + 1)
    rw [load]
    omega

theorem load_congr (h : ∀ x, a ≤ x → x < a + n → m x = m' x) : load m a n = load m' a n := by
  induction n generalizing a with
  | zero => rfl
  | succ n ih =>
    rw [load, load, h a le_rfl (by omega), ih fun x hx hlt ↦ h x (by omega) (by omega)]

theorem store_of_outside (h : x < a ∨ a + n ≤ x) : store m a n v x = m x :=
  if_neg (by omega)

/-- What has been put somewhere is there, as far as it fits. -/
theorem load_store_self : load (store m a n v) a n = v % 256 ^ n := by
  -- the bytes of the tail are those of the quotient
  have htail : ∀ n a m v, load (store m a n v) a n = v % 256 ^ n := by
    intro n
    induction n with
    | zero => exact fun a m v ↦ (Nat.mod_one v).symm
    | succ n ih =>
      intro a m v
      have hfirst : store m a (n + 1) v a = BitVec.ofNat 8 v := by
        simp [store]
      have hrest : load (store m a (n + 1) v) (a + 1) n =
          load (store m (a + 1) n (v / 256)) (a + 1) n := by
        refine load_congr fun x hx hlt ↦ ?_
        rw [store, store, if_pos (by omega), if_pos (by omega), Nat.div_div_eq_div_mul,
          ← pow_succ', show x - a = x - (a + 1) + 1 by omega]
      rw [load, hfirst, hrest, ih, BitVec.toNat_ofNat, pow_succ' 256 n, Nat.mod_mul]
  exact htail n a m v

theorem load_store_of_disjoint (h : b + k ≤ a ∨ a + n ≤ b) :
    load (store m a n v) b k = load m b k :=
  load_congr fun x hx hlt ↦ store_of_outside (by omega)

end Bytes
