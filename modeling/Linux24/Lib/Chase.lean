import Mathlib

/-!
# Following pointers

`chase next goal` follows `next` from a point until it comes to `goal` or can go no further.  If no
way leads back to where it starts, it comes to an end (`Acyclic.exists_chase`), and what it says is
whether there is a way to `goal` (`chase_eq_some`).

The other half of the matter is how a relation without cycles keeps being one: taking something out
of it does no harm, and one more edge does exactly if there is a way back (`Acyclic.add_iff`).
-/

set_option autoImplicit false

universe u

namespace Chase

open Relation

variable {V : Type u}

/-! ## Cycles -/

/-- No way leads back to where it starts. -/
def Acyclic (r : V → V → Prop) : Prop := ∀ v, ¬ TransGen r v v

/-- The relation with one more edge. -/
def Add (r : V → V → Prop) (a b : V) : V → V → Prop := fun p q ↦ r p q ∨ p = a ∧ q = b

variable {r r' : V → V → Prop} {a b p q : V}

theorem Acyclic.mono (h : Acyclic r) (hsub : ∀ p q, r' p q → r p q) : Acyclic r' :=
  fun v hv ↦ h v (TransGen.mono hsub _ _ hv)

/-- A way either does without the new edge, or leads to its beginning and then on from its end. -/
theorem transGen_add (h : TransGen (Add r a b) p q) :
    TransGen r p q ∨ ReflTransGen r p a ∧ ReflTransGen r b q := by
  induction h with
  | single h =>
    rcases h with h | ⟨rfl, rfl⟩
    · exact Or.inl (.single h)
    · exact Or.inr ⟨.refl, .refl⟩
  | tail _ h ih =>
    rcases h with h | ⟨rfl, rfl⟩
    · exact ih.imp (·.tail h) fun hw ↦ ⟨hw.1, hw.2.tail h⟩
    · exact Or.inr ⟨ih.elim TransGen.to_reflTransGen And.left, .refl⟩

/-- **One more edge** closes a cycle exactly if there is a way back. -/
theorem Acyclic.add_iff (h : Acyclic r) : Acyclic (Add r a b) ↔ ¬ ReflTransGen r b a := by
  constructor
  · intro hadd hback
    have hto : ReflTransGen (Add r a b) b a := ReflTransGen.mono (fun _ _ ↦ Or.inl) _ _ hback
    exact hadd a (.head' (Or.inr ⟨rfl, rfl⟩) hto)
  · intro hback v hv
    rcases transGen_add hv with hv | ⟨hva, hbv⟩
    · exact h v hv
    · exact hback (hbv.trans hva)

/-! ## The search -/

variable {next : V → Option V} {goal : V}

/-- Following the pointers, for at most so many steps. -/
def chase [DecidableEq V] (next : V → Option V) (goal : V) : (fuel : ℕ) → V → Option Bool
  | 0, _ => none
  | fuel + 1, p =>
    if goal = p then some true
    else
      match next p with
      | none => some false
      | some q => chase next goal fuel q

/-- There is a pointer from the one to the other. -/
def Points (next : V → Option V) (p q : V) : Prop := next p = some q

theorem reflTransGen_iff (hne : goal ≠ p) :
    ReflTransGen (Points next) p goal ↔
      ∃ q, next p = some q ∧ ReflTransGen (Points next) q goal := by
  constructor
  · intro h
    rcases h.cases_head with heq | ⟨q, hq, h⟩
    · exact absurd heq.symm hne
    · exact ⟨q, hq, h⟩
  · rintro ⟨q, hq, h⟩
    exact .head hq h

variable [DecidableEq V]

/-- **What the search says** is whether there is a way to the goal. -/
theorem chase_eq_some {fuel : ℕ} {found : Bool} (h : chase next goal fuel p = some found) :
    found = true ↔ ReflTransGen (Points next) p goal := by
  induction fuel generalizing p with
  | zero => cases h
  | succ fuel ih =>
    rw [chase] at h
    split at h
    · rename_i heq
      cases h
      exact ⟨fun _ ↦ heq ▸ .refl, fun _ ↦ rfl⟩
    · rename_i hne
      rw [reflTransGen_iff hne]
      split at h
      · rename_i hnone
        cases h
        simp [hnone]
      · rename_i q hq
        simp [hq, ih h]

open Classical in
/-- **The search ends** if there is no cycle and there are pointers from finitely many points
only. -/
theorem Acyclic.exists_chase (hac : Acyclic (Points next)) (sources : Finset V)
    (hsources : ∀ p q, next p = some q → p ∈ sources) {fuel : ℕ} (hfuel : sources.card < fuel)
    (goal p : V) : ∃ found, chase next goal fuel p = some found := by
  -- with every step there is one source less to come to
  have key : ∀ fuel p, (sources.filter fun v ↦ ReflTransGen (Points next) p v).card < fuel →
      ∃ found, chase next goal fuel p = some found := by
    intro fuel
    induction fuel with
    | zero =>
      omega
    | succ fuel ih =>
      intro p h
      rw [chase]
      split
      · exact ⟨true, rfl⟩
      split
      · exact ⟨false, rfl⟩
      rename_i q hq
      refine ih q (lt_of_lt_of_le (Finset.card_lt_card ?_) (Nat.lt_succ_iff.1 h))
      refine Finset.ssubset_iff_of_subset (fun v hv ↦ ?_) |>.2 ⟨p, ?_, fun hp ↦ ?_⟩
      · rw [Finset.mem_filter] at hv ⊢
        exact ⟨hv.1, hv.2.head hq⟩
      · rw [Finset.mem_filter]
        exact ⟨hsources p q hq, .refl⟩
      · rw [Finset.mem_filter] at hp
        exact hac p (.head' hq hp.2)
  exact key fuel p ((Finset.card_filter_le _ _).trans_lt hfuel)

end Chase
