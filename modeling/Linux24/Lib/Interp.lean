import Mathlib

/-!
# Interpreters

An interpreter is a function that does one instruction: from a state it comes to the next one, or it
returns.  `Interp.run` iterates it, for as many instructions as it is told to, and `Interp.visited`
is the states it comes through.

There are rules for one run — what every state it visits has in common, in which order they are
visited, and that a run returns if something gets smaller with every instruction — and for two runs
that are compared.  `Interp.run_eq_of_rel` is for two runs that are kept in a relation, which may
depend on how much of the run is still to come.  `Interp.same_iff` is for two interpreters that are
started in the same state: what they do is the same if and only if it is the same in every state the
first one visits.
-/

set_option autoImplicit false

universe u v w x

namespace Interp

open List

variable {σ : Type u} {τ : Type v} {ρ : Type w} {ω : Type x} {step : σ → σ ⊕ ρ}

/-- What is returned within `n` instructions. -/
def run (step : σ → σ ⊕ ρ) : ℕ → σ → Option ρ
  | 0, _ => none
  | n + 1, s =>
    match step s with
    | .inl t => run step n t
    | .inr r => some r

/-- The states in which the first `n` instructions are done. -/
def visited (step : σ → σ ⊕ ρ) : ℕ → σ → List σ
  | 0, _ => []
  | n + 1, s => s ::
    match step s with
    | .inl t => visited step n t
    | .inr _ => []

section Equations

variable {s t : σ} {r : ρ}

theorem run_inl (h : step s = .inl t) (n : ℕ) : run step (n + 1) s = run step n t := by
  rw [run, h]

theorem run_inr (h : step s = .inr r) (n : ℕ) : run step (n + 1) s = some r := by
  rw [run, h]

theorem visited_inl (h : step s = .inl t) (n : ℕ) :
    visited step (n + 1) s = s :: visited step n t := by
  rw [visited, h]

theorem visited_inr (h : step s = .inr r) (n : ℕ) : visited step (n + 1) s = [s] := by
  rw [visited, h]

end Equations

/-! ## One run -/

variable {P : σ → Prop}

/-- What a state has and every instruction keeps, all states that are visited have. -/
theorem visited_invariant (hstep : ∀ s t, P s → step s = .inl t → P t) {s : σ}
    (hs : P s) (n : ℕ) : ∀ t ∈ visited step n s, P t := by
  induction n generalizing s with
  | zero => exact forall_mem_nil _
  | succ n ih =>
    cases h : step s with
    | inl t =>
      rw [visited_inl h]
      exact forall_mem_cons.2 ⟨hs, ih (hstep s t hs h)⟩
    | inr r =>
      rw [visited_inr h]
      simpa using hs

/-- What gets larger with every instruction is never the same twice. -/
theorem visited_pairwise_lt {f : σ → ℤ} (hstep : ∀ s t, P s → step s = .inl t → P t)
    (hlt : ∀ s t, P s → step s = .inl t → f s < f t) {s : σ} (hs : P s) (n : ℕ) :
    ((visited step n s).map f).Pairwise (· < ·) := by
  -- along with it: nothing that comes later is smaller
  suffices h : ((visited step n s).map f).Pairwise (· < ·) ∧
      ∀ t ∈ visited step n s, f s ≤ f t from h.1
  induction n generalizing s with
  | zero => exact ⟨Pairwise.nil, forall_mem_nil _⟩
  | succ n ih =>
    cases h : step s with
    | inl t =>
      obtain ⟨hpair, hle⟩ := ih (hstep s t hs h)
      have hst := hlt s t hs h
      rw [visited_inl h]
      refine ⟨pairwise_cons.2 ⟨fun y hy ↦ ?_, hpair⟩, ?_⟩
      · obtain ⟨u, hu, rfl⟩ := mem_map.1 hy
        exact hst.trans_le (hle u hu)
      · exact forall_mem_cons.2 ⟨le_rfl, fun u hu ↦ hst.le.trans (hle u hu)⟩
    | inr r =>
      rw [visited_inr h]
      exact ⟨pairwise_singleton _ _, by simp⟩

/-- A run returns if something gets smaller with every instruction. -/
theorem exists_run (μ : σ → ℕ) (hstep : ∀ s t, P s → step s = .inl t → P t)
    (hlt : ∀ s t, P s → step s = .inl t → μ t < μ s) {s : σ} (hs : P s) {n : ℕ} (hn : μ s < n) :
    ∃ t r, P t ∧ step t = .inr r ∧ run step n s = some r := by
  induction n generalizing s with
  | zero => cases hn
  | succ n ih =>
    cases h : step s with
    | inl t =>
      rw [run_inl h]
      exact ih (hstep s t hs h) (by have := hlt s t hs h; omega)
    | inr r => exact ⟨s, r, hs, h, run_inr h n⟩

/-- Some instructions lead from one state to another. -/
def Steps (step : σ → σ ⊕ ρ) : σ → σ → Prop := Relation.ReflTransGen fun s t ↦ step s = .inl t

theorem Steps.single {s t : σ} (h : step s = .inl t) :
    Steps step s t :=
  Relation.ReflTransGen.single h

theorem Steps.trans {s t u : σ} (h : Steps step s t) (h' : Steps step t u) : Steps step s u :=
  Relation.ReflTransGen.trans h h'

/-- A run returns if it comes to a state in which it does. -/
theorem Steps.exists_run {s t : σ} {r : ρ} (h : Steps step s t) (hr : step t = .inr r) :
    ∃ n, ∀ m ≥ n, run step m s = some r := by
  induction h using Relation.ReflTransGen.head_induction_on with
  | refl =>
    refine ⟨1, fun m hm ↦ ?_⟩
    obtain ⟨m, rfl⟩ := Nat.exists_eq_add_of_le' hm
    exact run_inr hr m
  | head hstep _ ih =>
    obtain ⟨n, hn⟩ := ih
    refine ⟨n + 1, fun m hm ↦ ?_⟩
    obtain ⟨m, rfl⟩ := Nat.exists_eq_add_of_le' hm
    rw [← add_assoc, run_inl hstep]
    exact hn _ (by omega)

/-! ## Two runs -/

/-- Two runs that are kept in a relation look the same and return the same.  The relation may depend
on how many instructions are still to come. -/
theorem run_eq_of_rel {step' : τ → τ ⊕ ρ} (obs : σ → ω) (obs' : τ → ω) {R : ℕ → σ → τ → Prop}
    (hobs : ∀ n a b, R (n + 1) a b → obs a = obs' b)
    (hstep : ∀ n a b, R (n + 1) a b → (∃ r, step a = .inr r ∧ step' b = .inr r) ∨
      ∃ a' b', step a = .inl a' ∧ step' b = .inl b' ∧ R n a' b') {n : ℕ} {a : σ} {b : τ}
    (h : R n a b) : (visited step n a).map obs = (visited step' n b).map obs' ∧
      run step n a = run step' n b := by
  induction n generalizing a b with
  | zero => exact ⟨rfl, rfl⟩
  | succ n ih =>
    have hab := hobs n a b h
    rcases hstep n a b h with ⟨r, ha, hb⟩ | ⟨a', b', ha, hb, h'⟩
    · rw [visited_inr ha, visited_inr hb, run_inr ha, run_inr hb, map_singleton, hab]
      exact ⟨rfl, rfl⟩
    · obtain ⟨hvis, hrun⟩ := ih h'
      rw [visited_inl ha, visited_inl hb, run_inl ha, run_inl hb, map_cons, hab, hvis]
      exact ⟨rfl, hrun⟩

/-- Two interpreters do the same if and only if they do in every state that is visited. -/
theorem same_iff {f g : σ → σ ⊕ ρ} {s : σ} :
    (∀ n, visited f n s = visited g n s ∧ run f n s = run g n s) ↔
      ∀ n, ∀ t ∈ visited f n s, f t = g t := by
  constructor
  · intro h n
    induction n generalizing s with
    | zero => exact forall_mem_nil _
    | succ n ih =>
      cases hf : f s with
      | inr r =>
        rw [visited_inr hf]
        -- the other one returns the same, and at once
        obtain ⟨-, hrun⟩ := h 1
        rw [run_inr hf] at hrun
        cases hg : g s with
        | inr r' =>
          rw [run_inr hg] at hrun
          simp [hf, hg, Option.some_inj.1 hrun]
        | inl t =>
          rw [run_inl hg] at hrun
          cases hrun
      | inl t =>
        rw [visited_inl hf]
        have hgt : g s = .inl t := by
          cases hg : g s with
          | inr r =>
            have hrun := (h 1).2
            rw [run_inr hg, run_inl hf] at hrun
            cases hrun
          | inl t' =>
            have hvis := (h 2).1
            rw [visited_inl hf, visited_inl hg] at hvis
            have hhead := congrArg head? (cons_injective hvis)
            simp only [visited, List.head?_cons, Option.some_inj] at hhead
            rw [hhead]
        refine forall_mem_cons.2 ⟨hf.trans hgt.symm, ih fun m ↦ ?_⟩
        obtain ⟨hvis, hrun⟩ := h (m + 1)
        rw [visited_inl hf, visited_inl hgt] at hvis
        rw [run_inl hf, run_inl hgt] at hrun
        exact ⟨cons_injective hvis, hrun⟩
  · intro h n
    have hrel : (visited f n s).map id = (visited g n s).map id ∧ run f n s = run g n s :=
      run_eq_of_rel id id (R := fun n a b ↦ a = b ∧ ∀ t ∈ visited f n a, f t = g t)
        (fun _ _ _ hR ↦ hR.1) ?_ ⟨rfl, h n⟩
    · simpa using hrel
    · rintro n a _ ⟨rfl, hall⟩
      cases hf : f a with
      | inr r =>
        exact Or.inl ⟨r, rfl, (hall a mem_cons_self).symm.trans hf⟩
      | inl t =>
        rw [visited_inl hf] at hall
        obtain ⟨ha, hrest⟩ := forall_mem_cons.1 hall
        exact Or.inr ⟨t, t, rfl, ha.symm.trans hf, rfl, hrest⟩

end Interp
