import Mathlib

/-!
# Intervals laid out in a row

A list of things that occupy half-open intervals of the natural numbers, each after the one before
it.  `Laid s e d lo l hi` says that the intervals from `s a` to `e a`, for `a` along `l`, are not
empty, do not overlap, stand in the order of the list between `lo` and `hi`, and start and end at
multiples of `d`.

The point of carrying both bounds along is `laid_append`: to take a row apart, and to put it
together again with another row in the middle, one only has to look at that middle.  `laid_iff` is
the same condition without bounds in between: every interval is all right by itself, and any two of
them are in order.  `Tiles` says that there are no gaps, which is so if the lengths add up to the
distance of the bounds, or if every number in between is in one of the intervals.
-/

set_option autoImplicit false

universe u v

namespace Intervals

open List

variable {α : Type u} {β : Type v} (s e : α → ℕ) (d : ℕ)

/-- The intervals stand in a row between the two bounds. -/
def Laid : ℕ → List α → ℕ → Prop
  | lo, [], hi => lo ≤ hi
  | lo, a :: l, hi => (lo ≤ s a ∧ s a < e a ∧ d ∣ s a ∧ d ∣ e a) ∧ Laid (e a) l hi

variable {s e d} {lo hi : ℕ} {a : α} {l r : List α}

theorem laid_cons : Laid s e d lo (a :: l) hi ↔
    (lo ≤ s a ∧ s a < e a ∧ d ∣ s a ∧ d ∣ e a) ∧ Laid s e d (e a) l hi := Iff.rfl

theorem Laid.le (h : Laid s e d lo l hi) : lo ≤ hi := by
  induction l generalizing lo with
  | nil => exact h
  | cons a l ih => exact h.1.1.trans (h.1.2.1.le.trans (ih h.2))

theorem Laid.mono {lo' hi' : ℕ} (h : Laid s e d lo l hi) (hlo : lo' ≤ lo) (hhi : hi ≤ hi') :
    Laid s e d lo' l hi' := by
  induction l generalizing lo lo' with
  | nil => exact hlo.trans (h.trans hhi)
  | cons a l ih => exact ⟨⟨hlo.trans h.1.1, h.1.2⟩, ih h.2 le_rfl⟩

theorem laid_append :
    Laid s e d lo (l ++ r) hi ↔ ∃ m, Laid s e d lo l m ∧ Laid s e d m r hi := by
  induction l generalizing lo with
  | nil => exact ⟨fun h ↦ ⟨lo, le_rfl, h⟩, fun ⟨m, hm, h⟩ ↦ h.mono hm le_rfl⟩
  | cons a l ih =>
    rw [cons_append, laid_cons, ih]
    constructor
    · rintro ⟨ha, m, hl, hr⟩
      exact ⟨m, ⟨ha, hl⟩, hr⟩
    · rintro ⟨m, ⟨ha, hl⟩, hr⟩
      exact ⟨ha, m, hl, hr⟩

/-- The row interval by interval and pair by pair. -/
theorem laid_iff : Laid s e d lo l hi ↔ lo ≤ hi ∧
    (∀ a ∈ l, lo ≤ s a ∧ s a < e a ∧ e a ≤ hi ∧ d ∣ s a ∧ d ∣ e a) ∧
    l.Pairwise (fun a b ↦ e a ≤ s b) := by
  constructor
  · intro h
    refine ⟨h.le, ?_⟩
    induction l generalizing lo with
    | nil => simp
    | cons a l ih =>
      obtain ⟨⟨hlo, hne, hs, he⟩, h⟩ := h
      obtain ⟨hall, hpair⟩ := ih h
      refine ⟨forall_mem_cons.2 ⟨⟨hlo, hne, h.le, hs, he⟩, fun b hb ↦ ?_⟩,
        pairwise_cons.2 ⟨fun b hb ↦ (hall b hb).1, hpair⟩⟩
      exact ⟨hlo.trans (hne.le.trans (hall b hb).1), (hall b hb).2⟩
  · rintro ⟨hle, hall, hpair⟩
    induction l generalizing lo with
    | nil => exact hle
    | cons a l ih =>
      obtain ⟨⟨hlo, hne, hhi, hs, he⟩, hall⟩ := forall_mem_cons.1 hall
      obtain ⟨ha, hpair⟩ := pairwise_cons.1 hpair
      exact ⟨⟨hlo, hne, hs, he⟩, ih hhi (fun b hb ↦ ⟨ha b hb, (hall b hb).2⟩) hpair⟩

theorem Laid.pairwise (h : Laid s e d lo l hi) : l.Pairwise (fun a b ↦ e a ≤ s b) :=
  (laid_iff.1 h).2.2

theorem Laid.of_mem (h : Laid s e d lo l hi) (ha : a ∈ l) :
    lo ≤ s a ∧ s a < e a ∧ e a ≤ hi ∧ d ∣ s a ∧ d ∣ e a :=
  (laid_iff.1 h).2.1 a ha

theorem Laid.sublist (h : Laid s e d lo l hi) (hr : r.Sublist l) : Laid s e d lo r hi := by
  rw [laid_iff] at h ⊢
  exact ⟨h.1, fun a ha ↦ h.2.1 a (hr.subset ha), h.2.2.sublist hr⟩

/-- The middle of a row can be replaced by what takes up no more space. -/
theorem Laid.replace (m m' : List α) (h : Laid s e d lo (l ++ (m ++ r)) hi)
    (hm : ∀ p q, Laid s e d p m q → Laid s e d p m' q) :
    Laid s e d lo (l ++ (m' ++ r)) hi := by
  obtain ⟨p, hl, h⟩ := laid_append.1 h
  obtain ⟨q, h, hr⟩ := laid_append.1 h
  exact laid_append.2 ⟨p, hl, laid_append.2 ⟨q, hm p q h, hr⟩⟩

/-- A row can be replaced interval by interval. -/
theorem Laid.flatMap {f : α → List α} (h : Laid s e d lo l hi)
    (hf : ∀ a ∈ l, ∀ p q, Laid s e d p [a] q → Laid s e d p (f a) q) :
    Laid s e d lo (l.flatMap f) hi := by
  induction l generalizing lo with
  | nil => exact h
  | cons a l ih =>
    refine laid_append.2 ⟨e a, hf a mem_cons_self lo (e a) ⟨h.1, le_rfl⟩, ih h.2 ?_⟩
    exact fun b hb ↦ hf b (mem_cons_of_mem a hb)

/-- A further interval fits in where nothing is in its way. -/
theorem Laid.insert (h : Laid s e d lo (l ++ r) hi) (hl : ∀ b ∈ l, e b ≤ s a)
    (hr : ∀ b ∈ r, e a ≤ s b) (ha : Laid s e d lo [a] hi) : Laid s e d lo (l ++ a :: r) hi := by
  rw [laid_iff] at h ⊢
  obtain ⟨hle, hall, hpair⟩ := h
  obtain ⟨hpl, hpr, hlr⟩ := pairwise_append.1 hpair
  obtain ⟨halll, hallr⟩ := forall_mem_append.1 hall
  obtain ⟨⟨hlo, hne, hs, he⟩, hhi⟩ := ha
  refine ⟨hle, forall_mem_append.2 ⟨halll, forall_mem_cons.2 ⟨?_, hallr⟩⟩,
    pairwise_append.2 ⟨hpl, pairwise_cons.2 ⟨hr, hpr⟩, fun b hb c hc ↦ ?_⟩⟩
  · exact ⟨hlo, hne, hhi, hs, he⟩
  · rcases mem_cons.1 hc with rfl | hc
    · exact hl b hb
    · exact hlr b hb c hc

theorem laid_map {f : β → α} {l : List β} :
    Laid s e d lo (l.map f) hi ↔ Laid (s ∘ f) (e ∘ f) d lo l hi := by
  induction l generalizing lo with
  | nil => exact Iff.rfl
  | cons b l ih => exact and_congr Iff.rfl ih

/-! ## Rows without gaps -/

variable (s e) in
/-- The intervals fill everything between the two bounds. -/
def Tiles : ℕ → List α → ℕ → Prop
  | lo, [], hi => lo = hi
  | lo, a :: l, hi => s a = lo ∧ Tiles (e a) l hi

variable (s e) in
/-- The number is in one of the intervals. -/
def Covers (l : List α) (x : ℕ) : Prop := ∃ a ∈ l, s a ≤ x ∧ x < e a

@[simp] theorem covers_nil {x : ℕ} : ¬ Covers s e ([] : List α) x := by simp [Covers]

@[simp] theorem covers_cons {x : ℕ} :
    Covers s e (a :: l) x ↔ (s a ≤ x ∧ x < e a) ∨ Covers s e l x := by simp [Covers]

@[simp] theorem covers_append {x : ℕ} :
    Covers s e (l ++ r) x ↔ Covers s e l x ∨ Covers s e r x := by
  simp [Covers, or_and_right, exists_or]

/-- What the intervals of a row add up to fits between the bounds, and if it is all there is, they
leave no gap. -/
theorem Laid.sum_le (h : Laid s e d lo l hi) : lo + (l.map fun a ↦ e a - s a).sum ≤ hi := by
  induction l generalizing lo with
  | nil =>
    have hle : lo ≤ hi := h
    simpa using hle
  | cons a l ih =>
    have hrest := ih h.2
    have ha := h.1
    rw [map_cons, sum_cons]
    omega

theorem Laid.tiles_iff_sum (h : Laid s e d lo l hi) :
    Tiles s e lo l hi ↔ lo + (l.map fun a ↦ e a - s a).sum = hi := by
  induction l generalizing lo with
  | nil => simp [Tiles]
  | cons a l ih =>
    have hrest := h.2.sum_le
    have ha := h.1
    rw [Tiles, ih h.2, map_cons, sum_cons]
    omega

/-- A row leaves no gap if there is no number that is in none of its intervals. -/
theorem Laid.tiles_iff_covers (h : Laid s e d lo l hi) :
    Tiles s e lo l hi ↔ ∀ x, lo ≤ x → x < hi → Covers s e l x := by
  induction l generalizing lo with
  | nil =>
    have hle : lo ≤ hi := h
    simp only [Tiles, covers_nil, imp_false, not_lt]
    exact ⟨fun heq x hx ↦ heq ▸ hx, fun hall ↦ le_antisymm hle (hall lo le_rfl)⟩
  | cons a l ih =>
    have ha := h.1
    rw [Tiles, ih h.2]
    constructor
    · rintro ⟨hs, hall⟩ x hlo hhi
      rw [covers_cons]
      rcases lt_or_ge x (e a) with hx | hx
      · exact Or.inl ⟨hs ▸ hlo, hx⟩
      · exact Or.inr (hall x hx hhi)
    · intro hall
      -- before the end of the first interval no other one starts
      have hfirst : ∀ x, x < e a → ¬ Covers s e l x := fun x hx ⟨b, hb, hbx, _⟩ ↦
        absurd (h.2.of_mem hb).1 (by omega)
      have hend := h.2.le
      refine ⟨?_, fun x hx hhi ↦ ?_⟩
      · have hlo := (covers_cons.1 (hall lo le_rfl (by omega))).resolve_right
          (hfirst lo (by omega))
        omega
      · exact (covers_cons.1 (hall x (by omega) hhi)).resolve_left (by omega)

/-- The parts of a list that a row without gaps cuts it into make the list. -/
theorem Tiles.flatten {w : List β} {f : α → List β} (h : Tiles s e lo l w.length)
    (hle : ∀ a ∈ l, s a ≤ e a) (hf : ∀ a ∈ l, f a = (w.drop (s a)).take (e a - s a)) :
    (l.map f).flatten = w.drop lo := by
  induction l generalizing lo with
  | nil =>
    rw [show lo = w.length from h]
    simp
  | cons a l ih =>
    obtain ⟨rfl, h⟩ := h
    rw [map_cons, flatten_cons, hf a mem_cons_self, ih h (fun b hb ↦ hle b (mem_cons_of_mem a hb))
        (fun b hb ↦ hf b (mem_cons_of_mem a hb))]
    have hle := hle a mem_cons_self
    conv_rhs => rw [← take_append_drop (e a - s a) (w.drop (s a)), drop_drop,
      Nat.add_sub_cancel' hle]

theorem Tiles.sum (h : Tiles s e lo l hi) (hle : ∀ a ∈ l, s a ≤ e a) :
    lo + (l.map fun a ↦ e a - s a).sum = hi := by
  induction l generalizing lo with
  | nil => exact h
  | cons a l ih =>
    obtain ⟨rfl, h⟩ := h
    have ha := hle a mem_cons_self
    have hrest := ih h fun b hb ↦ hle b (mem_cons_of_mem a hb)
    rw [map_cons, sum_cons]
    omega

theorem Tiles.append {mid : ℕ} (h : Tiles s e lo l mid) (h' : Tiles s e mid r hi) :
    Tiles s e lo (l ++ r) hi := by
  induction l generalizing lo with
  | nil =>
    obtain rfl : lo = mid := h
    exact h'
  | cons a l ih => exact ⟨h.1, ih h.2⟩

theorem Tiles.covers {x : ℕ} (h : Tiles s e lo l hi) (hlo : lo ≤ x) (hhi : x < hi) :
    Covers s e l x := by
  induction l generalizing lo with
  | nil =>
    obtain rfl : lo = hi := h
    omega
  | cons a l ih =>
    obtain ⟨rfl, h⟩ := h
    rw [covers_cons]
    rcases lt_or_ge x (e a) with hx | hx
    · exact Or.inl ⟨hlo, hx⟩
    · exact Or.inr (ih h hx)

/-- Each interval may be replaced by some that fill it. -/
theorem Tiles.flatMap {g : α → List α} (h : Tiles s e lo l hi)
    (hg : ∀ a ∈ l, Tiles s e (s a) (g a) (e a)) : Tiles s e lo (l.flatMap g) hi := by
  induction l generalizing lo with
  | nil => exact h
  | cons a l ih =>
    obtain ⟨rfl, h⟩ := h
    exact (hg a mem_cons_self).append (ih h fun b hb ↦ hg b (mem_cons_of_mem a hb))

variable {n : ℕ}

/-- Intervals that cover so many numbers have a total length of at least as many. -/
theorem le_sum_of_covers (h : ∀ x < n, Covers s e l x) :
    n ≤ (l.map fun a ↦ e a - s a).sum := by
  classical
  have hcard : ((Finset.range n).filter (Covers s e l)).card ≤
      (l.map fun a ↦ e a - s a).sum := by
    clear h
    induction l with
    | nil => simp
    | cons a l ih =>
      have hsub : (Finset.range n).filter (Covers s e (a :: l)) ⊆
          Finset.Ico (s a) (e a) ∪ (Finset.range n).filter (Covers s e l) := by
        intro x hx
        rw [Finset.mem_filter, covers_cons] at hx
        rw [Finset.mem_union, Finset.mem_Ico, Finset.mem_filter]
        exact hx.2.imp_right fun hc ↦ ⟨hx.1, hc⟩
      calc ((Finset.range n).filter (Covers s e (a :: l))).card
          ≤ (Finset.Ico (s a) (e a)).card + ((Finset.range n).filter (Covers s e l)).card :=
            (Finset.card_le_card hsub).trans (Finset.card_union_le _ _)
        _ ≤ (e a - s a) + (l.map fun a ↦ e a - s a).sum := by
            rw [Nat.card_Ico]
            exact Nat.add_le_add_left ih _
        _ = ((a :: l).map fun a ↦ e a - s a).sum := by rw [map_cons, sum_cons]
  rwa [Finset.filter_true_of_mem fun x hx ↦ h x (Finset.mem_range.1 hx), Finset.card_range]
    at hcard

/-- In a row, the last interval ends last. -/
theorem Laid.le_of_getLast (h : Laid s e d lo l hi) (hn : ∀ b ∈ l.getLast?, e b ≤ n) :
    ∀ b ∈ l, e b ≤ n := by
  induction l generalizing lo with
  | nil => simp
  | cons a l ih =>
    cases l with
    | nil => simpa using hn
    | cons c l =>
      have hrest := ih h.2 (by rwa [getLast?_cons_cons] at hn)
      have hc := hrest c mem_cons_self
      exact forall_mem_cons.2 ⟨h.2.1.1.trans (h.2.1.2.1.le.trans hc), hrest⟩

/-- In a row, what comes after the intervals that start before `n` starts at `n` or later. -/
theorem Laid.le_of_mem_dropWhile (h : Laid s e d lo l hi)
    (ha : a ∈ l.dropWhile fun b ↦ s b < n) : n ≤ s a := by
  induction l generalizing lo with
  | nil => cases ha
  | cons b l ih =>
    rw [dropWhile_cons] at ha
    split at ha
    · exact ih h.2 ha
    · rename_i hb
      rw [decide_eq_true_eq, not_lt] at hb
      rcases mem_cons.1 ha with rfl | ha
      · exact hb
      · exact hb.trans (h.1.2.1.le.trans (h.2.of_mem ha).1)

end Intervals
