import Mathlib

/-!
# Machines that can fault

Every subsystem in this development is a state that calls act on.  A call may be *illegal* — its
caller breaks the contract, and nothing is promised — it may be legal and *fault*, which is where
`BUG()` and a wild memory access end up, or it may return a new state.  `Machine` packages the
three, and `Machine.Reachable` is the states legal calls can lead to without faulting.

The rule for it is `Machine.Reachable.invariant`: a predicate that holds initially and that every
legal, non-faulting call preserves holds in every reachable state.  `Machine.Path` is for statements
about what happens from some point of a run on, and about runs whose calls are restricted further
than their callers promise.
-/

set_option autoImplicit false

universe u v w

/-- Callers often promise that a pair is on a list.  Every module decides this the same way. -/
instance Machine.lawfulBEqPair : LawfulBEq (ℕ × ℕ) := inferInstance

/-- A computation that does not fault has parts that do not fault. -/
theorem Machine.exists_of_bind {α : Type u} {β : Type u} {ε : Type v} {m : Except ε α}
    {f : α → Except ε β} {b : β} (h : m >>= f = .ok b) : ∃ a, m = .ok a ∧ f a = .ok b := by
  cases m with
  | error e => cases h
  | ok a => exact ⟨a, rfl, h⟩

/-- A state machine over states `σ`, whose calls are `α` and whose faults are `ε`. -/
structure Machine (σ : Type u) (α : Type v) (ε : Type w) where
  /-- The states a run may start in. -/
  init : σ → Prop
  /-- Whether the caller is entitled to make the call in this state. -/
  legal : σ → α → Prop
  /-- What the call does. -/
  exec : σ → α → Except ε σ

namespace Machine

variable {σ : Type u} {α : Type v} {ε : Type w} {M : Machine σ α ε}

/-- The states a run of legal calls can reach without faulting. -/
inductive Reachable (M : Machine σ α ε) : σ → Prop
  | init {s : σ} (h : M.init s) : Reachable M s
  | step {s t : σ} {a : α} (hs : Reachable M s) (hl : M.legal s a) (he : M.exec s a = .ok t) :
      Reachable M t

variable {s t : σ}

/-- **The invariant rule.**  What holds initially and is preserved by every legal call that does
not fault holds in every reachable state. -/
theorem Reachable.invariant {P : σ → Prop} (h0 : ∀ s, M.init s → P s)
    (hstep : ∀ s a t, P s → M.legal s a → M.exec s a = .ok t → P t) (h : Reachable M s) : P s := by
  induction h with
  | init h => exact h0 _ h
  | step _ hl he ih => exact hstep _ _ _ ih hl he

/-- The runs from `s` all of whose calls, besides being legal, satisfy `P` where they are made. -/
inductive Path (M : Machine σ α ε) (P : σ → α → Prop) (s : σ) : σ → Prop
  | refl : Path M P s s
  | step {t u : σ} {a : α} (ht : Path M P s t) (hl : M.legal t a) (hP : P t a)
      (he : M.exec t a = .ok u) : Path M P s u

theorem Path.reachable {P : σ → α → Prop} (h : Path M P s t) (hs : Reachable M s) :
    Reachable M t := by
  induction h with
  | refl => exact hs
  | step _ hl _ he ih => exact ih.step hl he

theorem Path.trans {P : σ → α → Prop} {u : σ} (h : Path M P s t) (h' : Path M P t u) :
    Path M P s u := by
  induction h' with
  | refl => exact h
  | step _ hl hP he ih => exact ih.step hl hP he

/-- Running a list of calls, for a machine whose contract can be checked: `none` as soon as a call
is illegal or faults. -/
def trace (M : Machine σ α ε) [∀ s a, Decidable (M.legal s a)] : σ → List α → Option σ
  | s, [] => some s
  | s, a :: as =>
    if M.legal s a then
      match M.exec s a with
      | .ok t => M.trace t as
      | .error _ => none
    else none

/-- A trace of calls that all satisfy `P` is a path. -/
theorem Path.of_trace [∀ s a, Decidable (M.legal s a)] {P : σ → α → Prop}
    {as : List α} (hP : ∀ s, ∀ a ∈ as, P s a) (h : M.trace s as = some t) : Path M P s t := by
  induction as generalizing s with
  | nil => cases h; exact .refl
  | cons a as ih =>
    rw [trace] at h
    split at h
    · rename_i hl
      split at h
      · rename_i s' he
        have hfirst : Path M P s s' := Path.refl.step hl (hP s a List.mem_cons_self) he
        exact hfirst.trans (ih (fun s b hb ↦ hP s b (List.mem_cons_of_mem a hb)) h)
      · cases h
    · cases h

/-- What a trace ends in is reachable. -/
theorem Reachable.trace [∀ s a, Decidable (M.legal s a)] {as : List α}
    (hs : Reachable M s) (h : M.trace s as = some t) : Reachable M t :=
  (Path.of_trace (P := fun _ _ ↦ True) (fun _ _ _ ↦ trivial) h).reachable hs

end Machine
