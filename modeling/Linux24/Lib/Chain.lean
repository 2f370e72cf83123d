import Mathlib

/-!
# Singly linked lists

A chain of nodes that know their successor, seen as the list of its nodes.  What a program does to
such a chain is to read a successor and to overwrite one, and the four operations here are that.
Each of them is given by what it does to a node of which the position is known, and a node occurs
once, so that the position is determined by the node.
-/

set_option autoImplicit false

universe u

namespace Chain

open List

variable {α : Type u} [DecidableEq α]

/-- The chain from the successor of `x` on. -/
def after (x : α) : List α → List α
  | [] => []
  | y :: l => if y = x then l else after x l

/-- The chain up to `x`. -/
def upTo (x : α) : List α → List α
  | [] => []
  | y :: l => if y = x then [y] else y :: upTo x l

/-- The chain from `x` on. -/
def startAt (x : α) : List α → List α
  | [] => []
  | y :: l => if y = x then y :: l else startAt x l

/-- The chain with `v` as the successor of `x`, followed by the old successor. -/
def insertAfter (x v : α) : List α → List α
  | [] => []
  | y :: l => if y = x then y :: v :: l else y :: insertAfter x v l

/-- The successor of `x`. -/
def next (x : α) (l : List α) : Option α := (after x l).head?

variable {x v : α} {a b : List α}

theorem after_append (h : x ∉ a) : after x (a ++ x :: b) = b := by
  induction a with
  | nil => exact if_pos rfl
  | cons y a ih =>
    rw [mem_cons, not_or] at h
    rw [cons_append, after, if_neg (Ne.symm h.1), ih h.2]

theorem upTo_append (h : x ∉ a) : upTo x (a ++ x :: b) = a ++ [x] := by
  induction a with
  | nil => exact if_pos rfl
  | cons y a ih =>
    rw [mem_cons, not_or] at h
    rw [cons_append, upTo, if_neg (Ne.symm h.1), ih h.2, cons_append]

theorem startAt_append (h : x ∉ a) : startAt x (a ++ x :: b) = x :: b := by
  induction a with
  | nil => exact if_pos rfl
  | cons y a ih =>
    rw [mem_cons, not_or] at h
    rw [cons_append, startAt, if_neg (Ne.symm h.1), ih h.2]

theorem insertAfter_append (h : x ∉ a) : insertAfter x v (a ++ x :: b) = a ++ x :: v :: b := by
  induction a with
  | nil => exact if_pos rfl
  | cons y a ih =>
    rw [mem_cons, not_or] at h
    rw [cons_append, insertAfter, if_neg (Ne.symm h.1), ih h.2, cons_append]

theorem next_append (h : x ∉ a) : next x (a ++ x :: b) = b.head? := by
  rw [next, after_append h]

end Chain
