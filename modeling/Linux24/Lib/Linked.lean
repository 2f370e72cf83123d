import Mathlib

/-!
# Linked lists

The nodes of a linked list are the indices of a table, and each has an index of the node after it.
`Seg next h l m` says that from `h` the links lead through the nodes of `l`, in that order, and then
to `m`; a whole list leads to `none`.  The two operations are `Seg.insert` and `Seg.remove`.  They
are stated for a table of links that is what it ought to be afterwards, at the nodes of the list, so
that it does not matter how it was written.
-/

set_option autoImplicit false

namespace Linked

open List

variable {ι : Type*} {next next' : ι → Option ι} {h m : Option ι} {l l₁ l₂ : List ι} {a : ι}

/-- From `h` the links lead through the nodes of `l` to `m`. -/
def Seg (next : ι → Option ι) : Option ι → List ι → Option ι → Prop
  | h, [], m => h = m
  | h, a :: l, m => h = some a ∧ Seg next (next a) l m

theorem seg_append : Seg next h (l₁ ++ l₂) m ↔ ∃ k, Seg next h l₁ k ∧ Seg next k l₂ m := by
  induction l₁ generalizing h with
  | nil => simp [Seg]
  | cons a l₁ ih => simp [Seg, ih, and_assoc]

/-- Only the links of the nodes matter. -/
theorem Seg.congr (hs : Seg next h l m) (heq : ∀ a ∈ l, next' a = next a) : Seg next' h l m := by
  induction l generalizing h with
  | nil => exact hs
  | cons a l ih =>
    refine ⟨hs.1, ?_⟩
    rw [heq a mem_cons_self]
    exact ih hs.2 fun b hb ↦ heq b (mem_cons_of_mem a hb)

theorem Seg.eq_head? (hs : Seg next h l none) : h = l.head? := by
  match l with
  | [] => exact hs
  | _ :: _ => exact hs.1

theorem Seg.next_eq (hs : Seg next h (l₁ ++ a :: l₂) none) : next a = l₂.head? := by
  obtain ⟨k, -, -, hrest⟩ := seg_append.1 hs
  exact hrest.eq_head?

/-- The last node before a place in the list links to what is at the place. -/
theorem Seg.split_last {q : ι} (hs : Seg next h (l₁ ++ q :: l₂) m) :
    Seg next h l₁ (some q) ∧ Seg next (next q) l₂ m := by
  obtain ⟨k, hfirst, rfl, hrest⟩ := seg_append.1 hs
  exact ⟨hfirst, hrest⟩

theorem Seg.unique (hs : Seg next h l₁ none) (hs' : Seg next h l₂ none) : l₁ = l₂ := by
  induction l₁ generalizing h l₂ with
  | nil =>
    have hnone := hs'.eq_head?
    rw [show h = none from hs] at hnone
    exact (head?_eq_none_iff.1 hnone.symm).symm
  | cons a l₁ ih =>
    match l₂ with
    | [] => exact absurd (hs.1.symm.trans hs') (by simp)
    | b :: l₂ =>
      cases hs.1.symm.trans hs'.1
      rw [ih hs.2 hs'.2]

/-- Another list is put behind a part of the list: only the last link of the part changes. -/
theorem Seg.splice {l₃ : List ι} (hs : Seg next h (l₁ ++ l₂) none) (hnodup : l₁.Nodup)
    (hlast : ∀ q, l₁.getLast? = some q → next' q = l₃.head?)
    (hkeep : ∀ b ∈ l₁, l₁.getLast? ≠ some b → next' b = next b)
    (hrest : Seg next' l₃.head? l₃ none) : Seg next' (l₁ ++ l₃).head? (l₁ ++ l₃) none := by
  rcases eq_nil_or_concat l₁ with rfl | ⟨l₁, q, rfl⟩
  · exact hrest
  · rw [concat_eq_append] at *
    have hgetLast : (l₁ ++ [q]).getLast? = some q := by simp
    rw [hgetLast] at hlast hkeep
    have hhead : h = (l₁ ++ [q] ++ l₃).head? := by
      rw [hs.eq_head?]
      cases l₁ <;> rfl
    rw [append_assoc] at hs
    obtain ⟨hfirst, -⟩ := (show Seg next h (l₁ ++ q :: l₂) none from hs).split_last
    rw [← hhead, append_assoc]
    refine seg_append.2 ⟨some q, hfirst.congr fun b hb ↦ hkeep b (by simp [hb]) ?_, rfl, ?_⟩
    · intro heq
      have hmem : q ∈ l₁ := (Option.some.inj heq) ▸ hb
      exact (nodup_append.1 hnodup).2.2 q hmem q (by simp) rfl
    · rw [hlast q rfl]
      exact hrest

/-- **Insertion.**  The node is linked to what is after it, and what is before it is linked to
it. -/
theorem Seg.insert (hs : Seg next h (l₁ ++ l₂) none) (hnodup : (l₁ ++ l₂).Nodup)
    (ha : next' a = l₂.head?) (hprev : ∀ q, l₁.getLast? = some q → next' q = some a)
    (hother : ∀ b ∈ l₁ ++ l₂, l₁.getLast? ≠ some b → next' b = next b) :
    Seg next' (l₁ ++ a :: l₂).head? (l₁ ++ a :: l₂) none := by
  refine hs.splice hnodup.of_append_left hprev
    (fun b hb ↦ hother b (mem_append_left _ hb)) ⟨rfl, ?_⟩
  obtain ⟨k, -, hrest⟩ := seg_append.1 hs
  rw [ha, ← hrest.eq_head?]
  refine hrest.congr fun b hb ↦ hother b (mem_append_right _ hb) fun hlast ↦ ?_
  exact (nodup_append.1 hnodup).2.2 b (mem_of_getLast? hlast) b hb rfl

/-- **Removal.**  What is before the node is linked to what is after it. -/
theorem Seg.remove (hs : Seg next h (l₁ ++ a :: l₂) none) (hnodup : (l₁ ++ a :: l₂).Nodup)
    (hprev : ∀ q, l₁.getLast? = some q → next' q = next a)
    (hother : ∀ b ∈ l₁ ++ l₂, l₁.getLast? ≠ some b → next' b = next b) :
    Seg next' (l₁ ++ l₂).head? (l₁ ++ l₂) none := by
  rw [hs.next_eq] at hprev
  refine hs.splice hnodup.of_append_left hprev
    (fun b hb ↦ hother b (mem_append_left _ hb)) ?_
  have hrest := (Seg.split_last hs).2
  rw [← hrest.eq_head?]
  refine hrest.congr fun b hb ↦ hother b (mem_append_right _ hb) fun hlast ↦ ?_
  exact (nodup_append.1 hnodup).2.2 b (mem_of_getLast? hlast) b
    (mem_cons_of_mem a hb) rfl

end Linked
