import Mathlib

/-!
# One level of a timing wheel

A level of a timing wheel is a ring of `size` lists, each of which stands for `span` consecutive
instants: the list for an instant `D` is number `D / span % size`.  A hand moves around the ring,
one list at a time, and the `c`-th list it empties stands for the instants `D` with `D / span = c`.
Since only `D / span % size` is kept, what makes the ring work is that everything in it lies within
one turn of the hand, which is `Placed`.

Three facts are needed and none of them knows how many levels there are: what the hand finds is what
it is looking for (`Placed.div_eq`), what it does not find stays placed when it moves on
(`Placed.advance`), and what lies far enough ahead, but not too far, may be put in
(`Placed.of_ahead`).
-/

set_option autoImplicit false

namespace Wheel

/-- `D` is in list `i` of a ring whose hand is at `c`. -/
structure Placed (span size c i D : ℕ) : Prop where
  /-- The hand has not passed it. -/
  lo : c ≤ D / span
  /-- It is less than a turn ahead. -/
  hi : D / span < c + size
  /-- It is in its own list. -/
  slot : i = D / span % size

variable {span size c i D : ℕ}

/-- What the hand finds at its position is due. -/
theorem Placed.div_eq (h : Placed span size c (c % size) D) : D / span = c := by
  have hlo := h.lo
  have hhi := h.hi
  obtain ⟨k, hk⟩ := Nat.exists_eq_add_of_le hlo
  have hmod : (c + k) % size = c % size := by rw [← hk]; exact h.slot.symm
  have hdvd : size ∣ k := by
    have := (Nat.modEq_iff_dvd' (Nat.le_add_right c k)).1 (Eq.symm hmod)
    rwa [Nat.add_sub_cancel_left] at this
  rw [hk, Nat.eq_zero_of_dvd_of_lt hdvd (by omega), add_zero]

/-- What is in another list stays placed when the hand moves on. -/
theorem Placed.advance (h : Placed span size c i D) (hi : i ≠ c % size) :
    Placed span size (c + 1) i D := by
  have hne : D / span ≠ c := fun hc ↦ hi (by rw [h.slot, hc])
  have hlo := h.lo
  exact ⟨by omega, by have := h.hi; omega, h.slot⟩

/-- An instant at least one list and less than a turn ahead of `N` may be put in, wherever the hand
is around `N`. -/
theorem Placed.of_ahead {N : ℕ} (hspan : 0 < span) (hlo : N + span ≤ D)
    (hhi : D < N + size * span) (hN : N ≤ c * span) (hc : c ≤ N / span + 1) :
    Placed span size c (D / span % size) D := by
  refine ⟨hc.trans ?_, ?_, rfl⟩
  · rw [← Nat.add_div_right N hspan]
    exact Nat.div_le_div_right hlo
  · rw [Nat.div_lt_iff_lt_mul hspan, add_mul]
    omega

end Wheel
