import Mathlib

/-!
# Circular buffers

A buffer of `N` entries, in which positions are taken modulo `N`, and the `n` entries from some
position on: its `window`.  A window can be taken apart anywhere (`window_add`), what does not go
beyond the end of the buffer can be read in one piece (`window_of_le`), and what is stored behind
the window, in one piece and without coming round to its beginning, prolongs it
(`window_store_append`).
-/

set_option autoImplicit false

universe u

namespace Circular

open List

variable {α : Type u} {N : ℕ}

/-- The `n` entries from `s` on. -/
def window (N : ℕ) (b : ℕ → α) (s n : ℕ) : List α := (range n).map fun i ↦ b ((s + i) % N)

/-- The entries from `e` on are overwritten. -/
def store (b : ℕ → α) (e : ℕ) (l : List α) : ℕ → α :=
  fun i ↦ if e ≤ i then (l[i - e]?).getD (b i) else b i

@[simp] theorem length_window (b : ℕ → α) (s n : ℕ) : (window N b s n).length = n := by
  simp [window]

@[simp] theorem window_zero (b : ℕ → α) (s : ℕ) : window N b s 0 = [] := rfl

theorem window_add (b : ℕ → α) (s m n : ℕ) :
    window N b s (m + n) = window N b s m ++ window N b ((s + m) % N) n := by
  rw [window, range_add, map_append, map_map]
  refine congrArg _ (map_congr_left fun i _ ↦ ?_)
  rw [Function.comp_apply, Nat.mod_add_mod, add_assoc]

variable {n s i : ℕ} {l : List α}

theorem window_of_le (b : ℕ → α) (h : s + n ≤ N) :
    window N b s n = (range n).map fun i ↦ b (s + i) := by
  refine map_congr_left fun i hi ↦ ?_
  have hin := mem_range.1 hi
  rw [Nat.mod_eq_of_lt (by omega)]

theorem store_of_lt (b : ℕ → α) {e : ℕ} (l : List α) (h : i < e) : store b e l i = b i :=
  if_neg (by omega)

theorem store_of_ge (b : ℕ → α) {e : ℕ} (l : List α) (h : e + l.length ≤ i) :
    store b e l i = b i := by
  rw [store, if_pos (by omega), getElem?_eq_none (by omega), Option.getD_none]

theorem store_add (b : ℕ → α) (e : ℕ) (h : i < l.length) :
    store b e l (e + i) = l[i] := by
  rw [store, if_pos (by omega), Nat.add_sub_cancel_left, getElem?_eq_getElem h, Option.getD_some]

/-- Nothing of the window is behind it, as long as both together fit in. -/
theorem mod_ne_of_lt {j : ℕ} (hi : i < n) (hj : n + j < N) :
    (s + i) % N ≠ (s + n + j) % N := by
  intro heq
  have hdvd : N ∣ (s + n + j) - (s + i) :=
    Nat.dvd_of_mod_eq_zero (Nat.sub_mod_eq_zero_of_mod_eq heq.symm)
  have := Nat.le_of_dvd (by omega) hdvd
  omega

/-- What is stored behind a window leaves it as it is. -/
theorem window_store (b : ℕ → α) (h : n + l.length ≤ N) (hend : (s + n) % N + l.length ≤ N) :
    window N (store b ((s + n) % N) l) s n = window N b s n := by
  refine map_congr_left fun i hi ↦ ?_
  have hin := mem_range.1 hi
  rcases lt_or_ge ((s + i) % N) ((s + n) % N) with hlt | hge
  · exact store_of_lt b l hlt
  · refine store_of_ge b l (Nat.le_of_not_lt fun hlt ↦ ?_)
    obtain ⟨j, hj⟩ := Nat.exists_eq_add_of_le hge
    refine mod_ne_of_lt (s := s) hin (show n + j < N by omega) ?_
    rw [hj, ← Nat.mod_add_mod (s + n), Nat.mod_eq_of_lt (a := (s + n) % N + j) (by omega)]

/-- **What is stored behind a window prolongs it.** -/
theorem window_store_append (b : ℕ → α) (h : n + l.length ≤ N) (hend : (s + n) % N + l.length ≤ N) :
    window N (store b ((s + n) % N) l) s (n + l.length) = window N b s n ++ l := by
  rw [window_add, window_store b h hend, window_of_le _ hend]
  refine congrArg _ (ext_getElem (by simp) fun i hi hi' ↦ ?_)
  rw [getElem_map, getElem_range, store_add]

end Circular
