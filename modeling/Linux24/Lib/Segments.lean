import Mathlib

/-!
# Labelled ranges

A list of ranges of integers with labels, as a table that says which label each integer has.  The
table is `Canonical` if the ranges stand in order, do not overlap, and are as long as possible: two
ranges with one label have a gap between them.

`below c` and `above c` are the parts of a table on the two sides.  To give the integers of a range
a new label (`Canonical.overwrite`) is to keep what is below and what is above a larger range, one
that reaches as far as the label is there already, and to put that in between; to take their labels
away (`Canonical.clear`) is to put nothing there.
-/

set_option autoImplicit false

universe u

namespace Segments

open List

/-- A range, both ends of which belong to it, and its label. -/
structure Seg (τ : Type u) where
  start : ℤ
  stop : ℤ
  label : τ

variable {τ : Type u}

/-- The integer has the label. -/
def Holds (l : List (Seg τ)) (b : ℤ) (t : τ) : Prop :=
  ∃ x ∈ l, (x.start ≤ b ∧ b ≤ x.stop) ∧ x.label = t

/-- The one range comes before the other, and the two could not be one. -/
def Before (x y : Seg τ) : Prop := x.stop < y.start ∧ (x.label = y.label → x.stop + 1 < y.start)

/-- The table is in order, and has no range that could be left out or made larger. -/
structure Canonical (l : List (Seg τ)) : Prop where
  nonempty : ∀ x ∈ l, x.start ≤ x.stop
  ordered : l.Pairwise Before

/-- What is below `c`. -/
def below (c : ℤ) (l : List (Seg τ)) : List (Seg τ) :=
  (l.filter fun x ↦ decide (x.start < c)).map fun x ↦ { x with stop := min x.stop (c - 1) }

/-- What is above `c`. -/
def above (c : ℤ) (l : List (Seg τ)) : List (Seg τ) :=
  (l.filter fun x ↦ decide (c < x.stop)).map fun x ↦ { x with start := max x.start (c + 1) }

variable {l r : List (Seg τ)} {a b c z a' z' : ℤ} {t t' : τ}

/-! ## The parts of a table -/

theorem holds_append : Holds (l ++ r) b t ↔ Holds l b t ∨ Holds r b t := by
  simp only [Holds, mem_append, or_and_right, exists_or]

theorem holds_cons {x : Seg τ} :
    Holds (x :: l) b t ↔ ((x.start ≤ b ∧ b ≤ x.stop) ∧ x.label = t) ∨ Holds l b t := by
  simp [Holds]

variable {y : Seg τ}

theorem mem_below : y ∈ below c l ↔
    ∃ x ∈ l, x.start < c ∧ y = { x with stop := min x.stop (c - 1) } := by
  simp only [below, mem_map, mem_filter, decide_eq_true_eq, and_assoc, @eq_comm _ y]

theorem mem_above : y ∈ above c l ↔
    ∃ x ∈ l, c < x.stop ∧ y = { x with start := max x.start (c + 1) } := by
  simp only [above, mem_map, mem_filter, decide_eq_true_eq, and_assoc, @eq_comm _ y]

theorem holds_below : Holds (below c l) b t ↔ b < c ∧ Holds l b t := by
  constructor
  · rintro ⟨y, hy, hb, rfl⟩
    obtain ⟨x, hx, -, rfl⟩ := mem_below.1 hy
    dsimp only at hb ⊢
    exact ⟨by omega, x, hx, by omega, rfl⟩
  · rintro ⟨hc, x, hx, hb, rfl⟩
    refine ⟨_, mem_below.2 ⟨x, hx, by omega, rfl⟩, ?_, rfl⟩
    dsimp only
    omega

theorem holds_above : Holds (above c l) b t ↔ c < b ∧ Holds l b t := by
  constructor
  · rintro ⟨y, hy, hb, rfl⟩
    obtain ⟨x, hx, -, rfl⟩ := mem_above.1 hy
    dsimp only at hb ⊢
    exact ⟨by omega, x, hx, by omega, rfl⟩
  · rintro ⟨hc, x, hx, hb, rfl⟩
    refine ⟨_, mem_above.2 ⟨x, hx, by omega, rfl⟩, ?_, rfl⟩
    dsimp only
    omega

theorem Canonical.below (h : Canonical l) (c : ℤ) : Canonical (below c l) := by
  constructor
  · intro y hy
    obtain ⟨x, hx, hc, rfl⟩ := mem_below.1 hy
    have := h.nonempty x hx
    dsimp only
    omega
  · refine pairwise_map.2 ((h.ordered.filter _).imp fun hxy ↦ ⟨?_, fun heq ↦ ?_⟩)
    · have := hxy.1
      dsimp only
      omega
    · have := hxy.2 heq
      dsimp only
      omega

theorem Canonical.above (h : Canonical l) (c : ℤ) : Canonical (above c l) := by
  constructor
  · intro y hy
    obtain ⟨x, hx, hc, rfl⟩ := mem_above.1 hy
    have := h.nonempty x hx
    dsimp only
    omega
  · refine pairwise_map.2 ((h.ordered.filter _).imp fun hxy ↦ ⟨?_, fun heq ↦ ?_⟩)
    · have := hxy.1
      dsimp only
      omega
    · have := hxy.2 heq
      dsimp only
      omega

theorem Canonical.append (hl : Canonical l) (hr : Canonical r)
    (h : ∀ x ∈ l, ∀ y ∈ r, Before x y) : Canonical (l ++ r) := by
  refine ⟨fun x hx ↦ ?_, pairwise_append.2 ⟨hl.ordered, hr.ordered, h⟩⟩
  rcases mem_append.1 hx with hx | hx
  · exact hl.nonempty x hx
  · exact hr.nonempty x hx

/-! ## Changing a table -/

/-- What is below one integer comes before what is above another one. -/
theorem before_of_mem {x : Seg τ} (haz : a ≤ z) (hx : x ∈ Segments.below a l)
    (hy : y ∈ Segments.above z r) : Before x y := by
  obtain ⟨x, -, -, rfl⟩ := mem_below.1 hx
  obtain ⟨y, -, -, rfl⟩ := mem_above.1 hy
  refine ⟨?_, fun _ ↦ ?_⟩ <;> dsimp only <;> omega

/-- **Taking the labels of a range away.** -/
theorem Canonical.clear (h : Canonical l) (haz : a ≤ z) :
    Canonical (Segments.below a l ++ Segments.above z l) ∧
    ∀ b t, Holds (Segments.below a l ++ Segments.above z l) b t ↔
      ¬ (a ≤ b ∧ b ≤ z) ∧ Holds l b t := by
  refine ⟨(h.below a).append (h.above z) fun x hx y hy ↦ before_of_mem haz hx hy, fun b t ↦ ?_⟩
  rw [holds_append, holds_below, holds_above, ← or_and_right]
  refine and_congr_left fun _ ↦ ?_
  omega

/-- **Giving a range a new label.**  The larger range is the smaller one and ranges that have the
label already, and no other range with the label reaches into it or touches it. -/
theorem Canonical.overwrite (h : Canonical l) (haz : a ≤ z) (ha : a' ≤ a) (hz : z ≤ z')
    (hcover : ∀ b, a' ≤ b → b ≤ z' → (a ≤ b ∧ b ≤ z) ∨ Holds l b t)
    (hleft : ∀ x ∈ l, x.label = t → x.start < a' → x.stop + 1 < a')
    (hright : ∀ x ∈ l, x.label = t → z' < x.stop → z' + 1 < x.start) :
    Canonical (Segments.below a' l ++ ⟨a', z', t⟩ :: Segments.above z' l) ∧
    ∀ b u, Holds (Segments.below a' l ++ ⟨a', z', t⟩ :: Segments.above z' l) b u ↔
      if a ≤ b ∧ b ≤ z then u = t else Holds l b u := by
  have hle : a' ≤ z' := by omega
  constructor
  · have hnew : Canonical (⟨a', z', t⟩ :: Segments.above z' l) := by
      refine ⟨forall_mem_cons.2 ⟨hle, (h.above z').nonempty⟩,
        pairwise_cons.2 ⟨fun y hy ↦ ?_, (h.above z').ordered⟩⟩
      obtain ⟨y, hmem, hlt, rfl⟩ := mem_above.1 hy
      refine ⟨by dsimp only; omega, fun heq ↦ ?_⟩
      have := hright y hmem heq.symm hlt
      dsimp only
      omega
    refine (h.below a').append hnew fun x hx y hy ↦ ?_
    rcases mem_cons.1 hy with rfl | hy
    · obtain ⟨x, hmem, hlt, rfl⟩ := mem_below.1 hx
      refine ⟨by dsimp only; omega, fun heq ↦ ?_⟩
      have := hleft x hmem heq hlt
      dsimp only
      omega
    · exact before_of_mem hle hx hy
  · intro b u
    rw [holds_append, holds_cons, holds_below, holds_above]
    dsimp only
    -- an integer has one label at most
    have huniq : Holds l b t → Holds l b u → t = u := by
      rintro ⟨x, hx, hxb, rfl⟩ ⟨y, hy, hyb, rfl⟩
      by_contra hne
      have hxy : x ≠ y := fun heq ↦ hne (congrArg Seg.label heq)
      have hsymm : Std.Symm fun x y : Seg τ ↦ x.stop < y.start ∨ y.stop < x.start :=
        ⟨fun _ _ ↦ Or.symm⟩
      have hdisj : l.Pairwise fun x y ↦ x.stop < y.start ∨ y.stop < x.start :=
        h.ordered.imp fun hb ↦ Or.inl hb.1
      have := hdisj.forall hx hy hxy
      omega
    split_ifs with hb
    · refine ⟨?_, fun heq ↦ Or.inr (Or.inl ⟨by omega, heq.symm⟩)⟩
      rintro (⟨hlt, -⟩ | ⟨-, heq⟩ | ⟨hlt, -⟩)
      · omega
      · exact heq.symm
      · omega
    · constructor
      · rintro (⟨-, hold⟩ | ⟨hin, rfl⟩ | ⟨-, hold⟩)
        · exact hold
        · exact (hcover b hin.1 hin.2).resolve_left hb
        · exact hold
      · intro hold
        by_cases hin : a' ≤ b ∧ b ≤ z'
        · have ht := (hcover b hin.1 hin.2).resolve_left hb
          exact Or.inr (Or.inl ⟨hin, huniq ht hold⟩)
        · rw [not_and_or, not_le, not_le] at hin
          rcases hin with hlt | hlt
          · exact Or.inl ⟨hlt, hold⟩
          · exact Or.inr (Or.inr ⟨hlt, hold⟩)

end Segments
