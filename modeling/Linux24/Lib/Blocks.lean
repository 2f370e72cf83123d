import Mathlib

/-!
# Aligned blocks

The block of order `o` around `p` is the aligned interval of length `2 ^ o` that contains `p`; it is
the set of the `q` with `q / 2 ^ o = p / 2 ^ o`.  Two such blocks are nested or disjoint, each block
of order `o + 1` is the disjoint union of a block of order `o` and its *buddy* — the block one gets
by flipping bit `o` — and these two facts are the whole of the geometry a buddy system needs.

Everything is phrased with an indicator, `Blocks.ind p o q`, rather than with sets.  A statement
"these blocks are disjoint and cover exactly `R`" is then an equation between sums,

```lean
∑ blocks, ind p o q = if q ∈ R then 1 else 0
```

which is additive in the blocks: moving a block from one list to another does not change the left
side at all, and splitting or merging one is `ind_add_ind_buddy`.
-/

set_option autoImplicit false

namespace Blocks

/-- `q` lies in the block of order `o` around `p`. -/
def Covers (p o q : ℕ) : Prop := q / 2 ^ o = p / 2 ^ o

instance (p o q : ℕ) : Decidable (Covers p o q) := inferInstanceAs (Decidable (_ = _))

/-- The indicator of `Covers`. -/
def ind (p o q : ℕ) : ℕ := if Covers p o q then 1 else 0

theorem covers_self (p o : ℕ) : Covers p o p := rfl

variable {o p q : ℕ}

theorem Covers.symm (h : Covers p o q) : Covers q o p := Eq.symm h

theorem Covers.trans {r : ℕ} (h : Covers p o q) (h' : Covers q o r) : Covers p o r :=
  Eq.trans h' h

theorem ind_eq_one (h : Covers p o q) : ind p o q = 1 := if_pos h

theorem ind_eq_zero (h : ¬ Covers p o q) : ind p o q = 0 := if_neg h

@[simp] theorem ind_self (p o : ℕ) : ind p o p = 1 := ind_eq_one rfl

/-- The block of an aligned `p` is the interval that starts there. -/
theorem covers_iff_of_dvd (h : 2 ^ o ∣ p) : Covers p o q ↔ p ≤ q ∧ q < p + 2 ^ o := by
  obtain ⟨k, rfl⟩ := h
  have hpos : 0 < 2 ^ o := Nat.two_pow_pos o
  rw [Covers, Nat.mul_div_cancel_left k hpos, Nat.div_eq_iff hpos, mul_comm k]
  omega

/-- **Nested or disjoint.**  If a block and one of no larger order share a point, the larger one
contains the smaller. -/
theorem Covers.mono {o' : ℕ} (h : Covers p o q) (ho : o ≤ o') : Covers p o' q := by
  obtain ⟨k, rfl⟩ := Nat.exists_eq_add_of_le ho
  rw [Covers] at *
  rw [pow_add, ← Nat.div_div_eq_div_mul, ← Nat.div_div_eq_div_mul, h]

/-! ## Buddies -/

/-- Flipping the last bit is the only other way to have the same half. -/
theorem half_eq_half_iff (x k : ℕ) : x / 2 = k / 2 ↔ x = k ∨ x = k ^^^ 1 := by
  have h1 : (k ^^^ 1) / 2 = k / 2 := by rw [Nat.xor_div_two]; simp
  have h2 : (k ^^^ 1) % 2 = (k + 1) % 2 := Nat.xor_mod_two_eq
  omega

theorem xor_one_ne (k : ℕ) : k ^^^ 1 ≠ k := by
  have h2 : (k ^^^ 1) % 2 = (k + 1) % 2 := Nat.xor_mod_two_eq
  omega

theorem xor_two_pow_div (p o : ℕ) : (p ^^^ 2 ^ o) / 2 ^ o = (p / 2 ^ o) ^^^ 1 := by
  rw [Nat.xor_div_two_pow, Nat.div_self (Nat.two_pow_pos o)]

theorem dvd_xor_two_pow (h : 2 ^ o ∣ p) : 2 ^ o ∣ p ^^^ 2 ^ o := by
  rw [Nat.dvd_iff_mod_eq_zero, Nat.xor_mod_two_pow, Nat.mod_eq_zero_of_dvd h, Nat.mod_self]
  rfl

theorem div_two_pow_succ (p o : ℕ) : p / 2 ^ (o + 1) = p / 2 ^ o / 2 := by
  rw [pow_succ, Nat.div_div_eq_div_mul]

/-- A block and its buddy are different. -/
theorem not_covers_buddy (p o : ℕ) : ¬ Covers p o (p ^^^ 2 ^ o) := by
  rw [Covers, xor_two_pow_div]
  exact xor_one_ne _

theorem xor_two_pow_xor (p o : ℕ) : (p ^^^ 2 ^ o) ^^^ 2 ^ o = p := by
  rw [Nat.xor_assoc, Nat.xor_self, Nat.xor_zero]

/-- The upper half of a block starts half a block later. -/
theorem add_two_pow_eq_xor (h : 2 ^ (o + 1) ∣ p) : p + 2 ^ o = p ^^^ 2 ^ o := by
  obtain ⟨k, rfl⟩ := h
  have hpos : 0 < 2 ^ o := Nat.two_pow_pos o
  have hk : 2 ^ (o + 1) * k = 2 * k * 2 ^ o := by rw [pow_succ]; ring
  have hdvd : 2 ^ o ∣ 2 * k * 2 ^ o := Dvd.intro_left _ rfl
  have hxor : (2 * k) ^^^ 1 = 2 * k + 1 := Nat.xor_one_of_even (even_two_mul k)
  rw [hk, ← Nat.div_mul_cancel (dvd_xor_two_pow hdvd), xor_two_pow_div, Nat.mul_div_cancel _ hpos,
    hxor]
  ring

/-- The block of order `o + 1` consists of a block of order `o` and its buddy. -/
theorem covers_succ_iff (p o q : ℕ) :
    Covers p (o + 1) q ↔ Covers p o q ∨ Covers (p ^^^ 2 ^ o) o q := by
  rw [Covers, Covers, Covers, div_two_pow_succ, div_two_pow_succ, half_eq_half_iff, xor_two_pow_div]

/-- **Splitting and merging**, as an equation between indicators. -/
theorem ind_add_ind_buddy (p o q : ℕ) :
    ind p o q + ind (p ^^^ 2 ^ o) o q = ind p (o + 1) q := by
  by_cases h1 : Covers p o q
  · have h2 : ¬ Covers (p ^^^ 2 ^ o) o q := fun h ↦ not_covers_buddy p o (h1.trans h.symm)
    rw [ind_eq_one h1, ind_eq_zero h2, ind_eq_one ((covers_succ_iff p o q).2 (.inl h1))]
  · by_cases h2 : Covers (p ^^^ 2 ^ o) o q
    · rw [ind_eq_zero h1, ind_eq_one h2, ind_eq_one ((covers_succ_iff p o q).2 (.inr h2))]
    · rw [ind_eq_zero h1, ind_eq_zero h2,
        ind_eq_zero fun h ↦ ((covers_succ_iff p o q).1 h).elim h1 h2]

/-- The indicator only depends on the block, not on the point that names it. -/
theorem ind_congr {p' : ℕ} (h : Covers p o p') (q : ℕ) : ind p' o q = ind p o q := by
  have h' : Covers p' o q ↔ Covers p o q := ⟨h.trans, h.symm.trans⟩
  simp only [ind, h']

/-! ## Counting -/

/-- A block inside `[0, n)` has `2 ^ o` points. -/
theorem sum_ind {n : ℕ} (hp : 2 ^ o ∣ p) (hn : p + 2 ^ o ≤ n) :
    ∑ q ∈ Finset.range n, ind p o q = 2 ^ o := by
  have h : ∀ q ∈ Finset.range n, ind p o q = if q ∈ Finset.Ico p (p + 2 ^ o) then 1 else 0 := by
    intro q _
    simp only [ind, covers_iff_of_dvd hp, Finset.mem_Ico]
  rw [Finset.sum_congr rfl h, ← Finset.sum_filter, Finset.sum_const, smul_eq_mul,
    Finset.filter_mem_eq_inter, Finset.inter_eq_right.2, Nat.card_Ico]
  · omega
  · intro q hq
    rw [Finset.mem_Ico] at hq
    exact Finset.mem_range.2 (by omega)

end Blocks
