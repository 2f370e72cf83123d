import Linux24.Kernel.Timer
import Linux24.Lib.Wheel

/-!
# When a timer on the wheel is due

A timer that is queued while the wheel stands at iteration `N` is meant to run in one particular
iteration, which `dueAt` computes from its `expires`.  This file has the invariant that makes the
wheel keep that appointment.

* `WheelInv N hand s due limbo` — every timer on a list of `tvecs[n]` is placed (`Wheel.Placed`)
  with respect to the iteration `due t` it is to run in, where `hand n` counts how often `tvecs[n]`
  has been cascaded.  `limbo` lists the timers that are between two lists.
* `WheelInv.internalAddTimer` — `internal_add_timer` puts a timer in its place.  The level is chosen
  from the difference `expires - timer_jiffies` and the list from the bits of `expires` itself, and
  these agree only because both clocks wrap together.
* `WheelInv.cascadeTimers` — cascading the list at the hand moves all of its timers to lower levels
  and none back to the list being emptied, and moves the hand.
* `WheelInv.startIteration` — the test `index == 1` stops the cascade at the right level: after it
  every hand is past the current iteration.
* `WheelInv.endIteration` — the clock advances and the timers collected meanwhile find their places.
-/

set_option autoImplicit false

namespace Linux24.Timer

open Wheel List Function

/-- How many iterations one list of `tvecs[n]` stands for. -/
def span : ℕ → ℕ
  | 0 => 1
  | n + 1 => 2 ^ (8 + 6 * n)

/-- The iteration in which a timer runs that is put on the wheel at iteration `N`. -/
def dueAt (N expires : ℕ) : ℕ :=
  let idx := sub32 expires (N % 4294967296)
  if idx < 2 ^ 31 then N + idx else N

/-- The number of cascades of `tvecs[n]` before iteration `N`, when those below level `k` have been
cascaded for `N` itself already. -/
def hand (N k n : ℕ) : ℕ :=
  if 0 < n ∧ n < k then N / span n + 1 else (N + span n - 1) / span n

theorem span_pos (n : ℕ) : 0 < span n := by
  cases n with
  | zero => exact one_pos
  | succ n => exact Nat.two_pow_pos _

/-- A list of `tvecs[n + 2]` stands for as long as all of `tvecs[n + 1]`. -/
theorem span_succ (n : ℕ) : span (n + 2) = span (n + 1) * 64 := by
  change 2 ^ (8 + 6 * (n + 1)) = 2 ^ (8 + 6 * n) * 2 ^ 6
  rw [← pow_add]
  rfl

theorem span_one_dvd (n : ℕ) : 256 ∣ span (n + 1) :=
  Nat.pow_dvd_pow 2 (Nat.le_add_right 8 _)

variable {n m k E t : ℕ}

/-- The levels share out the bits of a word, so the list of an iteration can be read off its low 32
bits. -/
theorem mod_div_span (hn : n < 5) (D : ℕ) :
    D % 4294967296 / span n % 64 = D / span n % 64 := by
  obtain ⟨q, hq⟩ : span n * 64 ∣ 4294967296 := by
    interval_cases n <;> decide
  rw [hq, mul_assoc, Nat.mod_mul_right_div_self, Nat.mod_mul_right_mod]

theorem hand_zero (N k : ℕ) : hand N k 0 = N := by simp [hand, span]

/-- Wherever the cascade has got to, the hands are around `N`. -/
theorem hand_bounds (N k n : ℕ) : N ≤ hand N k n * span n ∧ hand N k n ≤ N / span n + 1 := by
  have hpos := span_pos n
  unfold hand
  split
  · refine ⟨?_, le_rfl⟩
    have := Nat.lt_div_mul_add (a := N) hpos
    rw [add_mul, one_mul]
    exact this.le
  · constructor
    · have := Nat.lt_div_mul_add (a := N + span n - 1) hpos
      omega
    · rw [← Nat.add_div_right N hpos]
      exact Nat.div_le_div_right (Nat.sub_le _ _)

/-- A hand that is not at the start of a list need not move. -/
theorem ceil_div_of_not_dvd {N : ℕ} (hm : 0 < m) (h : ¬ m ∣ N) :
    (N + m - 1) / m = N / m + 1 := by
  have hlt := Nat.mod_lt N hm
  have hdiv := Nat.div_add_mod N m
  rw [Nat.div_eq_iff hm, add_mul, mul_comm (N / m) m]
  omega

theorem ceil_div_of_dvd {N : ℕ} (hm : 0 < m) (h : m ∣ N) : (N + m - 1) / m = N / m := by
  obtain ⟨k, rfl⟩ := h
  rw [Nat.mul_div_cancel_left k hm, Nat.div_eq_iff hm, mul_comm k m]
  omega

/-- When `N` is not at the start of a list of level `k`, the cascade can stop below `k`. -/
theorem hand_stop {N : ℕ} (hk : ∀ m, k ≤ m → ¬ span m ∣ N) (hn : n < 5) :
    hand N k n = hand N 5 n := by
  unfold hand
  rcases Nat.eq_zero_or_pos n with rfl | hpos
  · rfl
  · by_cases hnk : n < k
    · rw [if_pos ⟨hpos, hnk⟩, if_pos ⟨hpos, hn⟩]
    · rw [if_neg (fun h ↦ hnk h.2), if_pos ⟨hpos, hn⟩,
        ceil_div_of_not_dvd (span_pos n) (hk n (Nat.le_of_not_lt hnk))]

theorem hand_self {N : ℕ} (hd : span k ∣ N) : hand N k k = N / span k := by
  rw [hand, if_neg (by omega), ceil_div_of_dvd (span_pos k) hd]

/-- One cascade moves one hand. -/
theorem hand_step {N : ℕ} (hk : 0 < k) (hd : span k ∣ N) :
    hand N (k + 1) = update (hand N k) k (hand N k k + 1) := by
  funext n
  rcases eq_or_ne n k with rfl | hne
  · rw [update_self]
    simp only [hand, hk, Nat.lt_add_one, and_self, if_true, lt_irrefl, and_false, if_false]
    rw [ceil_div_of_dvd (span_pos n) hd]
  · rw [update_of_ne hne]
    have hiff : (0 < n ∧ n < k + 1) ↔ (0 < n ∧ n < k) := by omega
    simp only [hand, hiff]

/-- At the end of an iteration every hand is where the next one expects it. -/
theorem hand_next {N : ℕ} (hn : n < 5) (h0 : 0 < n) : hand N 5 n = hand (N + 1) 1 n := by
  have hpos := span_pos n
  unfold hand
  rw [if_pos ⟨h0, hn⟩, if_neg (by omega), ← Nat.add_div_right N hpos]
  congr 1
  omega

/-! ## The iteration a timer is due in -/

theorem dueAt_of_mod {N D : ℕ} (hN : N ≤ D) (hD : D < N + 2 ^ 31) (hE : D % 4294967296 = E) :
    dueAt N E = D := by
  have hidx : sub32 E (N % 4294967296) = D - N := by
    unfold sub32
    omega
  unfold dueAt
  rw [if_pos (by omega)]
  omega

/-- Below the top of the range of `expires - timer_jiffies`, the timer is on time. -/
theorem dueAt_of_lt {N : ℕ} (hE : E < 4294967296) (h : sub32 E (N % 4294967296) < 2 ^ 31) :
    dueAt N E = N + sub32 E (N % 4294967296) ∧ dueAt N E % 4294967296 = E := by
  have heq : dueAt N E = N + sub32 E (N % 4294967296) := if_pos h
  rw [heq]
  unfold sub32
  omega

theorem dueAt_of_le {N : ℕ} (h : 2 ^ 31 ≤ sub32 E (N % 4294967296)) : dueAt N E = N :=
  if_neg (not_lt.2 h)

/-! ## The invariant -/

/-- The timer may be on this list. -/
def Fits (N : ℕ) (hand : ℕ → ℕ) (s : State) (due : ℕ → ℕ) (t : ℕ) : Slot → Prop
  | .tv n i => n < 5 ∧ Placed (span n) (tvSize n) (hand n) i (due t) ∧
      (n ≠ 0 → due t % 4294967296 = s.expires t)
  | .queued => s.running = true ∧ due t = dueAt (N + 1) (s.expires t)

/-- The wheel at iteration `N`, with each timer to be run in iteration `due t`. -/
structure WheelInv (N : ℕ) (hand : ℕ → ℕ) (s : State) (due : ℕ → ℕ) (limbo : List ℕ) : Prop where
  /-- `timer_jiffies` counts the iterations. -/
  clock : s.timerJiffies = N % 4294967296
  /-- `tv1` is never cascaded; its hand is the clock. -/
  hand_zero : hand 0 = N
  /-- The hands are around `N`. -/
  hand_bounds : ∀ n, n < 5 → N ≤ hand n * span n ∧ hand n ≤ N / span n + 1
  /-- `tvecs[n]->index` counts the cascades. -/
  index : ∀ n, n < 5 → s.index n = hand n % tvSize n
  /-- `expires` is an `unsigned long`. -/
  expires_lt : ∀ t, s.expires t < 4294967296
  /-- Every timer is in its place. -/
  fits : ∀ l t, t ∈ s.vec l → Fits N hand s due t l
  /-- The pending timers are those on a list and those between two lists. -/
  pending : ∀ t, s.pending t = true ↔ (∃ l, t ∈ s.vec l) ∨ t ∈ limbo
  /-- No timer is twice on a list. -/
  nodup : ∀ l, (s.vec l).Nodup
  /-- No timer is on two lists. -/
  unique : ∀ l l' t, t ∈ s.vec l → t ∈ s.vec l' → l = l'

/-! ## Lists -/

theorem State.listAdd_pending (s : State) (l : Slot) (t : ℕ) :
    (s.listAdd l t).pending = update s.pending t true := rfl

theorem State.listAdd_vec (s : State) (l : Slot) (t : ℕ) :
    (s.listAdd l t).vec = update s.vec l (s.vec l ++ [t]) := rfl

theorem State.listDel_pending (s : State) (t : ℕ) :
    (s.listDel t).pending = update s.pending t false := rfl

theorem mem_listAdd {s : State} {l l' : Slot} {u : ℕ} :
    u ∈ (s.listAdd l t).vec l' ↔ u ∈ s.vec l' ∨ (l' = l ∧ u = t) := by
  unfold State.listAdd
  rcases eq_or_ne l' l with rfl | hne
  · simp
  · simp [hne]

variable {N : ℕ} {hand : ℕ → ℕ} {s : State} {due : ℕ → ℕ} {limbo : List ℕ}

section Wheel

variable (h : WheelInv N hand s due limbo)
include h

variable {t : ℕ}

theorem WheelInv.index_zero : s.index 0 = N % 256 := by
  rw [h.index 0 (by decide), h.hand_zero]
  rfl

theorem WheelInv.listAdd {l : Slot} (ht : ∀ l', t ∉ s.vec l') (hfit : Fits N hand s due t l) :
    WheelInv N hand (s.listAdd l t) due (limbo.erase t) where
  __ := h
  fits l' u hu := by
    have hsame : Fits N hand s due u l' := by
      rcases mem_listAdd.1 hu with hold | ⟨rfl, rfl⟩
      · exact h.fits l' u hold
      · exact hfit
    cases l' <;> exact hsame
  pending u := by
    rcases eq_or_ne u t with rfl | hne
    · refine ⟨fun _ ↦ Or.inl ⟨l, mem_listAdd.2 (Or.inr ⟨rfl, rfl⟩)⟩, fun _ ↦ ?_⟩
      rw [State.listAdd_pending, update_self]
    · have hp : (s.listAdd l t).pending u = s.pending u := by
        rw [State.listAdd_pending, update_of_ne hne]
      simp only [hp, h.pending u, mem_listAdd, hne, and_false, or_false, mem_erase_of_ne hne]
  nodup l' := by
    rcases eq_or_ne l' l with rfl | hne
    · rw [State.listAdd_vec, update_self]
      exact nodup_append_comm.1 (nodup_cons.2 ⟨ht l', h.nodup l'⟩)
    · rw [State.listAdd_vec, update_of_ne hne]
      exact h.nodup l'
  unique l₁ l₂ u h₁ h₂ := by
    rcases mem_listAdd.1 h₁ with h₁ | ⟨rfl, rfl⟩ <;> rcases mem_listAdd.1 h₂ with h₂ | ⟨hl, hu⟩
    · exact h.unique l₁ l₂ u h₁ h₂
    · exact absurd (hu ▸ h₁) (ht l₁)
    · exact absurd h₂ (ht l₂)
    · exact hl.symm

theorem WheelInv.mem_listDel {l : Slot} {u : ℕ} :
    u ∈ (s.listDel t).vec l ↔ u ≠ t ∧ u ∈ s.vec l :=
  (h.nodup l).mem_erase_iff

theorem WheelInv.listDel (ht : t ∉ limbo) :
    WheelInv N hand (s.listDel t) due limbo where
  __ := h
  fits l u hu := by
    have hsame := h.fits l u (h.mem_listDel.1 hu).2
    cases l <;> exact hsame
  pending u := by
    rcases eq_or_ne u t with rfl | hne
    · have hp : (s.listDel u).pending u = false := by
        rw [State.listDel_pending, update_self]
      simp [hp, h.mem_listDel, ht]
    · have hp : (s.listDel t).pending u = s.pending u := by
        rw [State.listDel_pending, update_of_ne hne]
      simp only [hp, h.pending u, h.mem_listDel, ne_eq, hne, not_false_eq_true, true_and]
  nodup l := (h.nodup l).erase t
  unique l₁ l₂ u h₁ h₂ :=
    h.unique l₁ l₂ u (h.mem_listDel.1 h₁).2 (h.mem_listDel.1 h₂).2

/-- What becomes of a timer that is on no list does not matter. -/
theorem WheelInv.setTimer {e : ℕ} (D : ℕ) (he : e < 4294967296) (ht : ∀ l, t ∉ s.vec l) :
    WheelInv N hand { s with expires := update s.expires t e } (update due t D)
      limbo where
  __ := h
  expires_lt u := by
    rcases eq_or_ne u t with rfl | hne
    · simpa using he
    · simpa [update_of_ne hne] using h.expires_lt u
  fits l u hu := by
    have hne : u ≠ t := fun heq ↦ ht l (heq ▸ hu)
    have hsame := h.fits l u hu
    cases l <;> simpa [Fits, update_of_ne hne] using hsame

/-! ## Putting a timer in its place -/

/-- Timers at level `n ≥ 1` are at least one list ahead, less than a turn ahead, and in the list
named by their `expires`. -/
theorem WheelInv.fits_level {n i : ℕ} (hn : n < 5) (hn0 : n ≠ 0)
    (hmod : due t % 4294967296 = s.expires t) (hlo : N + span n ≤ due t)
    (hhi : due t < N + 64 * span n) (hi : i = s.expires t / span n % 64) :
    Fits N hand s due t (.tv n i) := by
  have hsize : tvSize n = 64 := if_neg hn0
  obtain ⟨hN, hc⟩ := h.hand_bounds n hn
  refine ⟨hn, ?_, fun _ ↦ hmod⟩
  rw [hsize, hi, ← hmod, mod_div_span hn]
  exact Placed.of_ahead (span_pos n) hlo hhi hN hc

theorem WheelInv.fits_zero {i : ℕ} (hlo : N ≤ due t)
    (hhi : due t < N + 256) (hi : i = due t % 256) : Fits N hand s due t (.tv 0 i) := by
  refine ⟨by omega, ⟨?_, ?_, ?_⟩, absurd rfl⟩
  · rw [h.hand_zero]
    exact hlo.trans_eq (Nat.div_one _).symm
  · rw [h.hand_zero]
    exact (Nat.div_one (due t)).trans_lt hhi
  · rw [hi]
    exact congrArg (· % 256) (Nat.div_one (due t)).symm

/-- `internal_add_timer` puts the timer on a list it fits on, and while no handler is running, on a
list far enough ahead that the hand is not about to reach it. -/
theorem WheelInv.internalAddTimer_eq
    (hdue : due t = dueAt (if s.running then N + 1 else N) (s.expires t)) :
    ∃ l, s.internalAddTimer t = s.listAdd l t ∧ Fits N hand s due t l ∧
      ∀ n i, l = .tv n i → n ≠ 0 → N + span n ≤ due t := by
  unfold State.internalAddTimer
  dsimp only
  split
  · rename_i hrun
    rw [if_pos hrun] at hdue
    exact ⟨.queued, rfl, ⟨hrun, hdue⟩, fun n i hl ↦ nomatch hl⟩
  rename_i hrun
  rw [if_neg hrun] at hdue
  have hE := h.expires_lt t
  rw [h.clock]
  by_cases hidx : sub32 (s.expires t) (N % 4294967296) < 2 ^ 31
  · -- the timer is on time, and `idx` says how far ahead it is
    obtain ⟨hD, hmod⟩ := dueAt_of_lt hE hidx
    rw [← hdue] at hD hmod
    generalize hx : sub32 (s.expires t) (N % 4294967296) = idx at hidx hD
    have level : ∀ n i, n < 5 → n ≠ 0 → span n ≤ idx → idx < 64 * span n →
        i = s.expires t / span n % 64 → s.listAdd (.tv n i) t = s.listAdd (.tv n i) t ∧
        Fits N hand s due t (.tv n i) ∧
        ∀ m j, Slot.tv n i = .tv m j → m ≠ 0 → N + span m ≤ due t := by
      intro n i hn hn0 hlo hhi hi
      refine ⟨rfl, h.fits_level hn hn0 hmod (by omega) (by omega) hi, ?_⟩
      rintro m j heq -
      cases heq
      omega
    have hs1 : span 1 = 256 := rfl
    have hs2 : span 2 = 16384 := rfl
    have hs3 : span 3 = 1048576 := rfl
    have hs4 : span 4 = 67108864 := rfl
    split
    · refine ⟨_, rfl, h.fits_zero (by omega) (by omega) (by omega), ?_⟩
      rintro n i heq hn
      cases heq
      exact absurd rfl hn
    split
    · exact ⟨_, level 1 _ (by omega) (by omega) (by omega) (by omega) rfl⟩
    split
    · exact ⟨_, level 2 _ (by omega) (by omega) (by omega) (by omega) rfl⟩
    split
    · exact ⟨_, level 3 _ (by omega) (by omega) (by omega) (by omega) rfl⟩
    rw [if_neg (by omega), if_pos (by omega)]
    exact ⟨_, level 4 _ (by omega) (by omega) (by omega) (by omega) rfl⟩
  · -- `(signed long) idx < 0`: the timer goes where the clock is
    have hD : due t = N := by rw [hdue, dueAt_of_le (Nat.le_of_not_lt hidx)]
    rw [if_neg (by omega), if_neg (by omega), if_neg (by omega), if_neg (by omega),
      if_pos (by omega)]
    refine ⟨_, rfl, h.fits_zero (by omega) (by omega) ?_, ?_⟩
    · rw [h.index_zero, hD]
    · rintro n i heq hn
      cases heq
      exact absurd rfl hn

theorem WheelInv.internalAddTimer (ht : ∀ l, t ∉ s.vec l)
    (hdue : due t = dueAt (if s.running then N + 1 else N) (s.expires t)) :
    WheelInv N hand (s.internalAddTimer t) due (limbo.erase t) := by
  obtain ⟨l, heq, hfit, -⟩ := h.internalAddTimer_eq hdue
  rw [heq]
  exact h.listAdd ht hfit

/-! ## Cascading -/

omit h in
/-- Adding a pending timer changes nothing but the lists. -/
theorem State.listAdd_of_pending (l : Slot) (ht : s.pending t = true) :
    s.listAdd l t = { s with vec := (s.listAdd l t).vec } := by
  have hp : update s.pending t true = s.pending := by
    rw [← ht, update_eq_self]
  simp only [State.listAdd, hp]

omit h in
/-- Moving a pending timer changes nothing but the lists. -/
theorem State.listAdd_listDel (l : Slot) (ht : s.pending t = true) :
    (s.listDel t).listAdd l t = { s with vec := ((s.listDel t).listAdd l t).vec } := by
  have hp : update (update s.pending t false) t true = s.pending := by
    rw [update_idem, ← ht, update_eq_self]
  simp only [State.listAdd, State.listDel, hp]

/-- What the hand of level `n` finds when the clock reaches it is due before the hand moves
again. -/
theorem WheelInv.due_of_mem {n : ℕ} (hn : n < 5)
    (hN : hand n * span n = N) (ht : t ∈ s.vec (.tv n (s.index n))) :
    N ≤ due t ∧ due t < N + span n := by
  obtain ⟨-, hplaced, -⟩ := h.fits _ t ht
  rw [h.index n hn] at hplaced
  have hdiv := hplaced.div_eq
  have hlo := Nat.div_mul_le_self (due t) (span n)
  have hhi := Nat.lt_div_mul_add (a := due t) (span_pos n)
  rw [hdiv, hN] at hlo hhi
  exact ⟨hlo, hhi⟩

end Wheel

theorem span_le (hn : n < 5) : span n ≤ 2 ^ 26 := by
  interval_cases n <;> decide

/-- One timer of the list at the hand: it moves down, so the list gets shorter. -/
theorem WheelInv.cascade_one (h : WheelInv N hand s due []) (hrun : s.running = false)
    (hn : n < 5) (hn0 : n ≠ 0) (hN : hand n * span n = N) {rest : List ℕ}
    (hL : s.vec (.tv n (s.index n)) = t :: rest) :
    ∃ v, (s.listDel t).internalAddTimer t = { s with vec := v } ∧
      v (.tv n (s.index n)) = rest ∧ WheelInv N hand { s with vec := v } due [] := by
  have hmem : t ∈ s.vec (.tv n (s.index n)) := by rw [hL]; exact mem_cons_self
  obtain ⟨hlo, hhi⟩ := h.due_of_mem hn hN hmem
  have hspan := span_le hn
  have hdel : WheelInv N hand (s.listDel t) due [] := h.listDel not_mem_nil
  have hoff : ∀ l, t ∉ (s.listDel t).vec l := fun l hl ↦ (h.mem_listDel.1 hl).1 rfl
  have hmod := (h.fits _ t hmem).2.2 hn0
  have hdue : due t = dueAt (if (s.listDel t).running then N + 1 else N) (s.expires t) := by
    rw [if_neg (show ¬ (s.listDel t).running = true from hrun ▸ Bool.false_ne_true),
      dueAt_of_mod hlo (by omega) hmod]
  obtain ⟨l, heq, hfit, hahead⟩ := hdel.internalAddTimer_eq hdue
  have hadd := hdel.listAdd hoff hfit
  rw [State.listAdd_listDel l ((h.pending t).2 (Or.inl ⟨_, hmem⟩))] at heq hadd
  refine ⟨_, heq, ?_, hadd⟩
  -- the new list is at least `span n` ahead if it is at level `n`, and the timer is not
  have hne : Slot.tv n (s.index n) ≠ l := fun hl ↦ by
    have := hahead n _ hl.symm hn0
    omega
  rw [State.listAdd_vec, update_of_ne hne]
  change (s.vec (.tv n (s.index n))).erase t = rest
  rw [hL, erase_cons_head]

/-- The loop of `cascade_timers` empties the list at the hand. -/
theorem WheelInv.cascade_all (hn : n < 5) (hn0 : n ≠ 0) (hN : hand n * span n = N)
    (L : List ℕ) (s : State) (hrun : s.running = false) (h : WheelInv N hand s due [])
    (hL : s.vec (.tv n (s.index n)) = L) :
    ∃ v, L.foldl (fun s t ↦ (s.listDel t).internalAddTimer t) s = { s with vec := v } ∧
      v (.tv n (s.index n)) = [] ∧ WheelInv N hand { s with vec := v } due [] := by
  induction L generalizing s with
  | nil => exact ⟨s.vec, rfl, hL, h⟩
  | cons t rest ih =>
    obtain ⟨v, heq, hv, hinv⟩ := h.cascade_one hrun hn hn0 hN hL
    rw [foldl_cons, heq]
    exact ih { s with vec := v } hrun hinv hv

/-- **`cascade_timers` moves the hand of its level.** -/
theorem WheelInv.cascadeTimers (h : WheelInv N hand s due []) (hrun : s.running = false)
    (hn : n < 5) (hn0 : n ≠ 0) (hN : hand n * span n = N) :
    ∃ v, s.cascadeTimers n =
        { s with vec := v, index := update s.index n ((s.index n + 1) % 64) } ∧
      WheelInv N (update hand n (hand n + 1)) (s.cascadeTimers n) due [] := by
  obtain ⟨v, heq, hv, hinv⟩ := WheelInv.cascade_all hn hn0 hN _ s hrun h rfl
  have hvec : update v (.tv n (s.index n)) [] = v := by
    rw [← hv, update_eq_self]
  have hs : s.cascadeTimers n =
      { s with vec := v, index := update s.index n ((s.index n + 1) % 64) } := by
    simp only [State.cascadeTimers, heq, hvec]
  refine ⟨v, hs, ?_⟩
  rw [hs]
  have hsize : tvSize n = 64 := if_neg hn0
  refine ⟨h.clock, ?_, ?_, ?_, h.expires_lt, ?_, hinv.pending, hinv.nodup, hinv.unique⟩
  · rw [update_of_ne (Ne.symm hn0), h.hand_zero]
  · intro m hm
    rcases eq_or_ne m n with rfl | hne
    · rw [update_self, add_mul, hN]
      exact ⟨Nat.le_add_right _ _, Nat.add_le_add_right
        ((Nat.le_div_iff_mul_le (span_pos m)).2 hN.le) 1⟩
    · rw [update_of_ne hne]
      exact h.hand_bounds m hm
  · intro m hm
    rcases eq_or_ne m n with rfl | hne
    · simp only [update_self, h.index m hm, hsize, Nat.mod_add_mod]
    · simp only [update_of_ne hne, h.index m hm]
  · intro l t ht
    have hfit := hinv.fits l t ht
    cases l with
    | queued => exact hfit
    | tv m i =>
      rcases eq_or_ne m n with rfl | hne
      · refine ⟨hn, ?_, hfit.2.2⟩
        rw [update_self]
        refine hfit.2.1.advance fun hi ↦ ?_
        -- the list at the hand is empty by now
        have ht : t ∈ v (.tv m i) := ht
        rw [hi, ← h.index m hn, hv] at ht
        exact not_mem_nil ht
      · refine ⟨hfit.1, ?_, hfit.2.2⟩
        rw [update_of_ne hne]
        exact hfit.2.1

/-! ## One iteration of `run_timer_list` -/

theorem WheelInv.congr_hand {hand' : ℕ → ℕ} (h : WheelInv N hand s due limbo)
    (heq : ∀ n, n < 5 → hand n = hand' n) : WheelInv N hand' s due limbo where
  __ := h
  hand_zero := by rw [← heq 0 (by decide), h.hand_zero]
  hand_bounds n hn := by rw [← heq n hn]; exact h.hand_bounds n hn
  index n hn := by rw [← heq n hn]; exact h.index n hn
  fits l t ht := by
    have hfit := h.fits l t ht
    cases l with
    | queued => exact hfit
    | tv n i => exact ⟨hfit.1, heq n hfit.1 ▸ hfit.2.1, hfit.2.2⟩

theorem span_dvd_span (hk : k ≤ m) : span (k + 1) ∣ span (m + 1) :=
  Nat.pow_dvd_pow 2 (by omega)

/-- The test `tvecs[n]->index == 1` asks whether the next level has to be cascaded too. -/
theorem index_eq_one_iff (hd : span (k + 1) ∣ N) :
    (N / span (k + 1) % 64 + 1) % 64 = 1 ↔ span (k + 2) ∣ N := by
  obtain ⟨q, rfl⟩ := hd
  rw [Nat.mul_div_cancel_left q (span_pos (k + 1)), span_succ,
    Nat.mul_dvd_mul_iff_left (span_pos (k + 1))]
  omega

/-- The cascade from level `k + 1` on, when the clock is at the start of a list of that level. -/
theorem WheelInv.cascadeLoop (left k : ℕ) (hk : left + k = 3) (s : State)
    (hrun : s.running = false) (h : WheelInv N (Timer.hand N (k + 1)) s due [])
    (hd : span (k + 1) ∣ N) :
    ∃ v ix, State.cascadeLoop left (k + 1) s = { s with vec := v, index := ix } ∧
      WheelInv N (Timer.hand N 5) { s with vec := v, index := ix } due [] := by
  induction left generalizing k s with
  | zero =>
    obtain rfl : k = 3 := by omega
    obtain ⟨v, heq, hinv⟩ := h.cascadeTimers hrun (n := 4) (by omega) (by omega)
      (by rw [hand_self hd, Nat.div_mul_cancel hd])
    rw [← hand_step (by omega) hd, heq] at hinv
    exact ⟨v, _, heq, hinv⟩
  | succ left ih =>
    obtain ⟨v, heq, hinv⟩ := h.cascadeTimers hrun (n := k + 1) (by omega) (by omega)
      (by rw [hand_self hd, Nat.div_mul_cancel hd])
    have hindex : (s.cascadeTimers (k + 1)).index (k + 1) = (N / span (k + 1) % 64 + 1) % 64 := by
      rw [heq]
      simp only [update_self, h.index (k + 1) (by omega), hand_self hd]
      rfl
    rw [← hand_step (by omega) hd] at hinv
    change ∃ v ix, (if (s.cascadeTimers (k + 1)).index (k + 1) = 1
      then State.cascadeLoop left (k + 2) (s.cascadeTimers (k + 1))
      else s.cascadeTimers (k + 1)) = _ ∧ _
    rw [hindex]
    by_cases hone : (N / span (k + 1) % 64 + 1) % 64 = 1
    · rw [if_pos hone]
      obtain ⟨v', ix', heq', hinv'⟩ := ih (k + 1) (by omega) (s.cascadeTimers (k + 1))
        (by rw [heq]; exact hrun) hinv ((index_eq_one_iff hd).1 hone)
      rw [heq'] at *
      rw [heq] at hinv' ⊢
      exact ⟨v', ix', rfl, hinv'⟩
    · rw [if_neg hone, heq]
      rw [heq] at hinv
      have hstop : ∀ m, k + 2 ≤ m → ¬ span m ∣ N := by
        intro m hm hdvd
        obtain ⟨j, rfl⟩ := Nat.exists_eq_add_of_le' hm
        exact hone ((index_eq_one_iff hd).2
          ((span_dvd_span (m := j + k + 1) (by omega)).trans hdvd))
      exact ⟨v, _, rfl, hinv.congr_hand fun n hn ↦ hand_stop hstop hn⟩

/-- **The start of an iteration**: whether or not there is anything to cascade, all hands are past
`N` afterwards. -/
theorem WheelInv.startIteration (h : WheelInv N (Timer.hand N 1) s due [])
    (hrun : s.running = false) :
    ∃ v ix, s.startIteration = { s with vec := v, index := ix, running := true, pc := .again } ∧
      WheelInv N (Timer.hand N 5) s.startIteration due [] := by
  have hindex := h.index_zero
  have hcascade : ∃ v ix, (if s.index 0 = 0 then State.cascadeLoop (noofTvecs - 2) 1 s else s) =
      { s with vec := v, index := ix } ∧
      WheelInv N (hand N 5) { s with vec := v, index := ix } due [] := by
    split
    · rename_i h0
      exact WheelInv.cascadeLoop 3 0 rfl s hrun h (Nat.dvd_of_mod_eq_zero (hindex ▸ h0))
    · rename_i h0
      refine ⟨s.vec, s.index, rfl, h.congr_hand fun n hn ↦ hand_stop (fun m hm hdvd ↦ ?_) hn⟩
      obtain ⟨j, rfl⟩ := Nat.exists_eq_add_of_le' hm
      exact h0 (hindex ▸ Nat.mod_eq_zero_of_dvd ((span_one_dvd j).trans hdvd))
  obtain ⟨v, ix, heq, hinv⟩ := hcascade
  have hs : s.startIteration =
      { s with vec := v, index := ix, running := true, pc := .again } := by
    simp only [State.startIteration, heq]
  refine ⟨v, ix, hs, ?_⟩
  rw [hs]
  refine ⟨h.clock, hinv.hand_zero, hinv.hand_bounds, hinv.index, h.expires_lt, ?_, hinv.pending,
    hinv.nodup, hinv.unique⟩
  intro l t ht
  have hfit := hinv.fits l t ht
  cases l with
  | queued => exact ⟨rfl, hfit.2⟩
  | tv n i => exact hfit

/-- The timers collected while handlers were running find their places. -/
theorem WheelInv.addQueued (L : List ℕ) (s : State) (hrun : s.running = false)
    (h : WheelInv N hand s due L) (hnodup : L.Nodup) (hoff : ∀ t ∈ L, ∀ l, t ∉ s.vec l)
    (hdue : ∀ t ∈ L, due t = dueAt N (s.expires t)) :
    ∃ v, L.foldl State.internalAddTimer s = { s with vec := v } ∧
      WheelInv N hand { s with vec := v } due [] := by
  induction L generalizing s with
  | nil => exact ⟨s.vec, rfl, h⟩
  | cons t rest ih =>
    obtain ⟨htr, hrest⟩ := nodup_cons.1 hnodup
    have hd : due t = dueAt (if s.running then N + 1 else N) (s.expires t) := by
      rw [hrun]
      exact hdue t mem_cons_self
    obtain ⟨l, heq, hfit, -⟩ := h.internalAddTimer_eq hd
    have hadd := h.listAdd (hoff t mem_cons_self) hfit
    have hpend : s.pending t = true := (h.pending t).2 (Or.inr mem_cons_self)
    have hstep := State.listAdd_of_pending l hpend
    rw [erase_cons_head] at hadd
    rw [foldl_cons, heq]
    have hoff' : ∀ u ∈ rest, ∀ l', u ∉ (s.listAdd l t).vec l' := by
      intro u hu l' hmem
      rcases mem_listAdd.1 hmem with hold | ⟨-, rfl⟩
      · exact hoff u (mem_cons_of_mem t hu) l' hold
      · exact htr hu
    obtain ⟨v, heq', hinv⟩ := ih (s.listAdd l t) hrun hadd hrest hoff'
      fun u hu ↦ hdue u (mem_cons_of_mem t hu)
    rw [heq']
    rw [hstep] at hinv ⊢
    exact ⟨v, rfl, hinv⟩

/-- The state in which `run_timer_list` goes through `queued`. -/
def State.closed (s : State) : State :=
  { s with
    running := false
    timerJiffies := add32 s.timerJiffies 1
    index := update s.index 0 ((s.index 0 + 1) % 256)
    vec := update s.vec .queued []
    pc := .loop }

theorem State.mem_closed {l : Slot} :
    t ∈ s.closed.vec l ↔ l ≠ .queued ∧ t ∈ s.vec l := by
  rcases eq_or_ne l .queued with rfl | hne
  · simp [State.closed]
  · simp [State.closed, hne]

/-- The clock may advance when the list at the clock is empty. -/
theorem WheelInv.closed_fits (h : WheelInv N (Timer.hand N 5) s due [])
    (hempty : s.vec (.tv 0 (s.index 0)) = []) (l : Slot) (t : ℕ) (ht : t ∈ s.closed.vec l) :
    Fits (N + 1) (Timer.hand (N + 1) 1) s.closed due t l := by
  obtain ⟨hl, ht⟩ := State.mem_closed.1 ht
  have hfit := h.fits l t ht
  cases l with
  | queued => exact absurd rfl hl
  | tv n i =>
    refine ⟨hfit.1, ?_, hfit.2.2⟩
    rcases Nat.eq_zero_or_pos n with rfl | hpos
    · have hplaced := hfit.2.1
      rw [Timer.hand_zero]
      rw [h.hand_zero] at hplaced
      refine hplaced.advance fun hi ↦ ?_
      have hi : i = s.index 0 := by rw [hi, h.index 0 (by omega), h.hand_zero]
      rw [hi, hempty] at ht
      exact not_mem_nil ht
    · rw [← hand_next hfit.1 hpos]
      exact hfit.2.1

theorem WheelInv.closed (h : WheelInv N (Timer.hand N 5) s due [])
    (hempty : s.vec (.tv 0 (s.index 0)) = []) :
    WheelInv (N + 1) (Timer.hand (N + 1) 1) s.closed due (s.vec .queued) where
  clock := by
    change add32 s.timerJiffies 1 = _
    rw [h.clock]
    exact Nat.mod_add_mod N 4294967296 1
  hand_zero := Timer.hand_zero _ _
  hand_bounds n _ := Timer.hand_bounds _ _ n
  index n hn := by
    rcases Nat.eq_zero_or_pos n with rfl | hpos
    · rw [Timer.hand_zero]
      change update s.index 0 ((s.index 0 + 1) % 256) 0 = (N + 1) % 256
      rw [update_self, h.index_zero, Nat.mod_add_mod]
    · rw [← hand_next hn hpos, ← h.index n hn]
      exact update_of_ne (f := s.index) hpos.ne' _
  expires_lt := h.expires_lt
  fits := h.closed_fits hempty
  pending t := by
    change s.pending t = true ↔ _
    rw [h.pending t]
    constructor
    · rintro (⟨l, hl⟩ | hnil)
      · rcases eq_or_ne l .queued with rfl | hne
        · exact Or.inr hl
        · exact Or.inl ⟨l, State.mem_closed.2 ⟨hne, hl⟩⟩
      · cases hnil
    · rintro (⟨l, hl⟩ | hq)
      · exact Or.inl ⟨l, (State.mem_closed.1 hl).2⟩
      · exact Or.inl ⟨_, hq⟩
  nodup l := by
    rcases eq_or_ne l .queued with rfl | hne
    · simp [State.closed]
    · simpa [State.closed, hne] using h.nodup l
  unique l l' t hl hl' := h.unique l l' t (State.mem_closed.1 hl).2 (State.mem_closed.1 hl').2

/-- **The end of an iteration**, when the list at the clock is empty. -/
theorem WheelInv.endIteration (h : WheelInv N (Timer.hand N 5) s due [])
    (hempty : s.vec (.tv 0 (s.index 0)) = []) :
    ∃ v, s.endIteration = { s.closed with vec := v } ∧
      WheelInv (N + 1) (Timer.hand (N + 1) 1) s.endIteration due [] := by
  have hoff : ∀ t ∈ s.vec .queued, ∀ l, t ∉ s.closed.vec l := by
    intro t hq l hl
    obtain ⟨hne, hl⟩ := State.mem_closed.1 hl
    exact hne (h.unique l _ t hl hq)
  obtain ⟨v, heq, hfinal⟩ := WheelInv.addQueued _ s.closed rfl (h.closed hempty) (h.nodup _) hoff
    fun t ht ↦ (h.fits _ t ht).2
  have hs : s.endIteration = { s.closed with vec := v } := heq
  rw [hs]
  exact ⟨v, rfl, hfinal⟩

end Linux24.Timer
