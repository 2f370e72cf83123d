import Mathlib

/-!
# Marking what is reachable

What is reachable from the roots is found by keeping a stack of what is still to be looked at, next
to what is `done`.  `Inv` is what holds in between: nothing is in the two lists twice, all of it is
reachable, and what a thing that is done leads to is in one of them.  A step takes one thing from
the stack and pushes those that it leads to and that are new (`Inv.visit`); when the stack is empty
and the roots are among the others, these are exactly what is reachable (`Inv.mem_iff`).
-/

set_option autoImplicit false

universe u

namespace Marking

open Relation List

variable {V : Type u} {root : V → Prop} {edge : V → V → Prop} {stack done new : List V} {x : V}

/-- There is a way from a root. -/
def Live (root : V → Prop) (edge : V → V → Prop) (v : V) : Prop :=
  ∃ r, root r ∧ ReflTransGen edge r v

/-- What holds in between. -/
structure Inv (root : V → Prop) (edge : V → V → Prop) (stack done : List V) : Prop where
  nodup : (stack ++ done).Nodup
  live : ∀ v ∈ stack ++ done, Live root edge v
  closed : ∀ v ∈ done, ∀ u, edge v u → u ∈ stack ++ done

/-- **One step**: what `x` leads to is pushed, as far as it is new. -/
theorem Inv.visit (h : Inv root edge (x :: stack) done)
    (hnodup : (new ++ stack ++ x :: done).Nodup) (hnew : ∀ v ∈ new, edge x v)
    (hall : ∀ v, edge x v → v ∈ new ++ stack ++ x :: done) :
    Inv root edge (new ++ stack) (x :: done) := by
  have hx : Live root edge x := h.live x mem_cons_self
  refine ⟨hnodup, fun v hv ↦ ?_, fun v hv u hu ↦ ?_⟩
  · rw [append_assoc] at hv
    rcases mem_append.1 hv with hv | hv
    · obtain ⟨r, hr, hway⟩ := hx
      exact ⟨r, hr, hway.tail (hnew v hv)⟩
    · exact h.live v (perm_middle.mem_iff.1 hv)
  · rcases mem_cons.1 hv with rfl | hv
    · exact hall u hu
    · rw [append_assoc]
      exact mem_append_right _ (perm_middle.mem_iff.2 (h.closed v hv u hu))

/-- **At the end** exactly what is reachable has been found. -/
theorem Inv.mem_iff (h : Inv root edge [] done) (hroot : ∀ r, root r → r ∈ done) (v : V) :
    v ∈ done ↔ Live root edge v := by
  refine ⟨h.live v, ?_⟩
  rintro ⟨r, hr, hway⟩
  induction hway with
  | refl => exact hroot r hr
  | tail _ hedge ih => exact h.closed _ ih _ hedge

end Marking
