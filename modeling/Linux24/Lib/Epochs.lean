import Mathlib

/-!
# Writes that are replayed, and revoked

A redo log is a list of *epochs*.  An epoch writes values to keys, and revokes keys: what this epoch
or an earlier one has written to them is not to be replayed.  `Epochs.surviving` is the writes that
are left, and replaying them is `Epochs.apply`.

What a key has afterwards is said by `Epochs.last`, the last of a list of writes to it.  The result
about epochs is `Epochs.LastWritten.last_surviving`: of a key, what is left is what the last epoch
that wrote it has written last, unless this epoch or a later one has revoked the key; then there is
nothing left, by `Epochs.last_surviving_of_revoked`.
-/

set_option autoImplicit false

universe u v

namespace Epochs

open List Function

variable {κ : Type u} {ν : Type v} [DecidableEq κ]

/-! ## Lists of writes -/

/-- The writes are done, one after the other. -/
def apply (ws : List (κ × ν)) (m : κ → ν) : κ → ν :=
  ws.foldl (fun m w ↦ update m w.1 w.2) m

/-- What is written to a key last. -/
def last : List (κ × ν) → κ → Option ν
  | [], _ => none
  | w :: ws, k => (last ws k).or (if w.1 = k then some w.2 else none)

theorem apply_append (ws vs : List (κ × ν)) (m : κ → ν) :
    apply (ws ++ vs) m = apply vs (apply ws m) := foldl_append

theorem last_append (ws vs : List (κ × ν)) (k : κ) :
    last (ws ++ vs) k = (last vs k).or (last ws k) := by
  induction ws with
  | nil => simp [last]
  | cons w ws ih => rw [cons_append, last, last, ih, Option.or_assoc]

/-- **What a key has afterwards.** -/
theorem apply_eq (ws : List (κ × ν)) (m : κ → ν) (k : κ) :
    apply ws m k = (last ws k).getD (m k) := by
  induction ws generalizing m with
  | nil => rfl
  | cons w ws ih =>
    change apply ws (update m w.1 w.2) k = _
    rw [ih, last]
    cases last ws k with
    | some v => rfl
    | none => split <;> simp_all [eq_comm]

theorem last_eq_none_iff {ws : List (κ × ν)} {k : κ} : last ws k = none ↔ ∀ w ∈ ws, w.1 ≠ k := by
  induction ws with
  | nil => simp [last]
  | cons w ws ih => simp [last, ih, and_comm]

/-- Leaving out writes does not matter to a key if it is by the key that they are left out. -/
theorem last_filter (p : κ → Bool) (ws : List (κ × ν)) (k : κ) :
    last (ws.filter fun w ↦ p w.1) k = if p k then last ws k else none := by
  induction ws with
  | nil => simp [last]
  | cons w ws ih =>
    rw [filter_cons]
    by_cases hw : w.1 = k
    · split <;> simp_all [last]
    · split <;> simp_all [last]

/-- Other values are written to the same keys. -/
theorem last_map {μ : Type v} (f : ν → μ) (ws : List (κ × ν)) (k : κ) :
    last (ws.map fun w ↦ (w.1, f w.2)) k = (last ws k).map f := by
  induction ws with
  | nil => rfl
  | cons w ws ih =>
    rw [map_cons, last, last, ih]
    cases last ws k with
    | some v => rfl
    | none => split <;> rfl

/-- A key that is written once has what is written to it. -/
theorem last_of_nodup {ws : List (κ × ν)} (h : (ws.map Prod.fst).Nodup) {w : κ × ν} (hw : w ∈ ws) :
    last ws w.1 = some w.2 := by
  induction ws with
  | nil => cases hw
  | cons w' ws ih =>
    rw [map_cons, nodup_cons] at h
    rw [last]
    rcases mem_cons.1 hw with rfl | hw
    · have hnone : last ws w.1 = none :=
        last_eq_none_iff.2 fun v hv heq ↦ h.1 (heq ▸ mem_map_of_mem hv)
      rw [hnone, if_pos rfl]
      rfl
    · rw [ih h.2 hw]
      rfl

/-! ## Epochs -/

/-- What an epoch writes and what it revokes. -/
structure Epoch (κ : Type u) (ν : Type v) where
  writes : List (κ × ν)
  revoked : List κ

/-- The writes that neither their own epoch nor a later one revokes. -/
def surviving : List (Epoch κ ν) → List (κ × ν)
  | [] => []
  | e :: es => e.writes.filter (fun w ↦ decide (∀ e' ∈ e :: es, w.1 ∉ e'.revoked)) ++ surviving es

/-- In an epoch a key is written for the last time: the epochs from this one on, and what it is left
with. -/
structure LastWritten (es : List (Epoch κ ν)) (k : κ) (e : Epoch κ ν) (later : List (Epoch κ ν))
    (v : ν) : Prop where
  suffix : e :: later <:+ es
  eq : last e.writes k = some v
  none : ∀ e' ∈ later, last e'.writes k = none

variable {es later : List (Epoch κ ν)} {e x : Epoch κ ν} {k : κ} {v : ν}

theorem LastWritten.cons (h : LastWritten es k e later v) : LastWritten (x :: es) k e later v :=
  ⟨h.suffix.trans (suffix_cons x es), h.eq, h.none⟩

/-- A key that is written is written for the last time. -/
theorem exists_lastWritten (h : ∃ e ∈ es, last e.writes k ≠ none) :
    ∃ e later v, LastWritten es k e later v := by
  induction es with
  | nil => simp at h
  | cons x es ih =>
    by_cases hes : ∃ e ∈ es, last e.writes k ≠ none
    · obtain ⟨e, later, v, hlast⟩ := ih hes
      exact ⟨e, later, v, hlast.cons⟩
    · push Not at hes
      obtain ⟨e, he, hne⟩ := h
      rcases mem_cons.1 he with rfl | he
      · obtain ⟨v, hv⟩ := Option.ne_none_iff_exists'.1 hne
        exact ⟨e, es, v, suffix_rfl, hv, hes⟩
      · exact absurd (hes e he) hne

theorem last_surviving_cons (e : Epoch κ ν) (es : List (Epoch κ ν)) (k : κ) :
    last (surviving (e :: es)) k = (last (surviving es) k).or
      (if ∀ e' ∈ e :: es, k ∉ e'.revoked then last e.writes k else none) := by
  rw [surviving, last_append]
  have hfilter := last_filter (fun k ↦ decide (∀ e' ∈ e :: es, k ∉ e'.revoked)) e.writes k
  simp only [decide_eq_true_eq] at hfilter
  rw [hfilter]

theorem last_surviving_of_none (h : ∀ e ∈ es, last e.writes k = none) :
    last (surviving es) k = none := by
  induction es with
  | nil => rfl
  | cons x es ih =>
    obtain ⟨hx, hes⟩ := forall_mem_cons.1 h
    rw [last_surviving_cons, ih hes, hx]
    simp

/-- **What is written last is left**, if it is not revoked. -/
theorem LastWritten.last_surviving (h : LastWritten es k e later v)
    (hrev : ∀ e' ∈ e :: later, k ∉ e'.revoked) : last (surviving es) k = some v := by
  induction es with
  | nil => exact absurd (suffix_nil.1 h.suffix) (cons_ne_nil e later)
  | cons x es ih =>
    rw [last_surviving_cons]
    rcases suffix_cons_iff.1 h.suffix with heq | hsuffix
    · obtain ⟨rfl, rfl⟩ := cons.inj heq
      rw [last_surviving_of_none h.none, if_pos hrev, h.eq]
      rfl
    · rw [ih ⟨hsuffix, h.eq, h.none⟩]
      rfl

/-- **Nothing is left of a key** that is revoked since it has been written last. -/
theorem last_surviving_of_revoked
    (h : ∀ e later v, LastWritten es k e later v → ∃ e' ∈ e :: later, k ∈ e'.revoked) :
    last (surviving es) k = none := by
  induction es with
  | nil => rfl
  | cons x es ih =>
    rw [last_surviving_cons, ih fun e later v hlast ↦ h e later v hlast.cons, Option.none_or,
      ite_eq_right_iff]
    intro hrev
    -- if the key is written at all from here on, it is revoked after that
    by_contra hne
    have hwritten : ∃ e ∈ x :: es, last e.writes k ≠ none := ⟨x, mem_cons_self, hne⟩
    obtain ⟨e, later, v, hlast⟩ := exists_lastWritten hwritten
    obtain ⟨e', he', hk⟩ := h e later v hlast
    exact hrev e' (hlast.suffix.subset he') hk

end Epochs
