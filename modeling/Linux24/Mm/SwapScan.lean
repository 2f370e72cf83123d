import Linux24.Mm.Swap
import Linux24.Lib.Tally

/-!
# One swap device

`SwapInfo.Sound` is what `scan_swap_map` relies on: no free slot is outside of the window from
`lowest_bit` to `highest_bit`, the window ends within the map, and the slot of the header is not
free.  `SwapInfo.Sound.scanSwapMap` says what the function does on such a device, whichever of its
three ways to `got_page` it takes: it returns a slot that was free and is not any more, or zero if
there was none.
-/

set_option autoImplicit false

namespace Linux24.Swap

open Function

/-! ## Searching a map -/

variable {a n : ℕ} {map : ℕ → ℕ}

theorem firstZero_some {o : ℕ} (h : firstZero map n a = some o) :
    map o = 0 ∧ a ≤ o ∧ o < a + n ∧ ∀ i, a ≤ i → i < o → map i ≠ 0 := by
  induction n generalizing a with
  | zero => simp [firstZero] at h
  | succ n ih =>
    rw [firstZero] at h
    split at h
    · rename_i h0
      cases h
      exact ⟨h0, le_rfl, by omega, fun i hi hi' ↦ by omega⟩
    · rename_i h0
      obtain ⟨ho, hle, hlt, hall⟩ := ih h
      refine ⟨ho, by omega, by omega, fun i hi hi' ↦ ?_⟩
      rcases eq_or_lt_of_le hi with rfl | hlt'
      · exact h0
      · exact hall i hlt' hi'

theorem firstZero_none (h : firstZero map n a = none) :
    ∀ i, a ≤ i → i < a + n → map i ≠ 0 := by
  induction n generalizing a with
  | zero => intro i hi hi'; omega
  | succ n ih =>
    rw [firstZero] at h
    split at h
    · simp at h
    · rename_i h0
      intro i hi hi'
      rcases eq_or_lt_of_le hi with rfl | hlt
      · exact h0
      · exact ih h i hlt (by omega)

theorem firstUsed_none (h : firstUsed map (n + 1) a = none) :
    map a = 0 := by
  rw [firstUsed] at h
  split at h
  · simp at h
  · rename_i h0
    exact not_not.1 h0

namespace SwapInfo

variable {p q : SwapInfo} {o : ℕ}

theorem findCluster_spec {fuel a : ℕ} (h : p.findCluster fuel a = some o) :
    p.swapMap o = 0 ∧ o ≤ p.highestBit := by
  induction fuel generalizing a with
  | zero => simp [findCluster] at h
  | succ fuel ih =>
    rw [findCluster] at h
    split at h
    · rename_i hle
      split at h
      · exact ih h
      · rename_i hnone
        cases h
        simp only [swapfileCluster] at hle
        exact ⟨firstUsed_none hnone, by omega⟩
    · simp at h

/-! ## The window -/

/-- No free slot is outside of the window. -/
structure Sound (p : SwapInfo) : Prop where
  window : ∀ o < p.max, p.swapMap o = 0 → p.lowestBit ≤ o ∧ o ≤ p.highestBit
  header : p.swapMap 0 = swapMapBad
  high : p.highestBit < p.max

/-- Only what guides the search is different. -/
def Refreshed (p q : SwapInfo) : Prop :=
  ∃ lowest highest next nr, q = { p with
    lowestBit := lowest
    highestBit := highest
    clusterNext := next
    clusterNr := nr }

theorem Refreshed.trans {r : SwapInfo} (h : p.Refreshed q) (h' : q.Refreshed r) :
    p.Refreshed r := by
  obtain ⟨_, _, _, _, rfl⟩ := h
  obtain ⟨_, _, _, _, rfl⟩ := h'
  exact ⟨_, _, _, _, rfl⟩

/-- The device with another counter for the slot. -/
def setSlot (p : SwapInfo) (o v : ℕ) : SwapInfo :=
  { p with swapMap := update p.swapMap o v }

/-- A slot is used for the first time: no slot besides it may be outside of the window. -/
theorem gotPage_spec (hwindow : ∀ i < p.max, p.swapMap i = 0 → i ≠ o →
      p.lowestBit ≤ i ∧ i ≤ p.highestBit)
    (hheader : p.swapMap 0 = swapMapBad) (hhigh : p.highestBit < p.max) (hne : o ≠ 0) :
    (p.gotPage o).Sound ∧ (p.setSlot o 1).Refreshed (p.gotPage o) := by
  refine ⟨⟨fun i hi h0 ↦ ?_, ?_, ?_⟩, ⟨_, _, _, _, rfl⟩⟩
  · rw [gotPage] at h0 hi ⊢
    dsimp only at h0 hi ⊢
    have hne : i ≠ o := by
      intro heq
      rw [heq] at h0
      simp at h0
    rw [update_of_ne hne] at h0
    obtain ⟨hlo, hhi⟩ := hwindow i hi h0 hne
    split_ifs <;> omega
  · show update p.swapMap o 1 0 = swapMapBad
    rw [update_of_ne hne.symm, hheader]
  · show (if _ then 0 else _) < p.max
    split_ifs <;> omega

/-- What a search does. -/
structure Scan (p : SwapInfo) (r : ℕ × SwapInfo) : Prop where
  sound : r.2.Sound
  some : r.1 ≠ 0 → r.1 < p.max ∧ p.swapMap r.1 = 0 ∧ (p.setSlot r.1 1).Refreshed r.2
  none : r.1 = 0 → (∀ o < p.max, p.swapMap o ≠ 0) ∧ p.Refreshed r.2

theorem Sound.ne_zero (h : p.Sound) (ho : p.swapMap o = 0) : o ≠ 0 := by
  rintro rfl
  rw [h.header] at ho
  cases ho

/-- A search that finds a slot. -/
theorem Sound.scan_of_gotPage (h : p.Sound) (hq : p.Refreshed q) (ho : o < p.max)
    (h0 : p.swapMap o = 0) (hhigh : q.highestBit = p.highestBit)
    (hlow : ∀ i < p.max, p.swapMap i = 0 → i ≠ o → q.lowestBit ≤ i) :
    p.Scan (o, q.gotPage o) := by
  obtain ⟨lowest, highest, next, nr, rfl⟩ := hq
  subst hhigh
  obtain ⟨hsound, hrefresh⟩ := gotPage_spec
    (fun i hi hz hne ↦ ⟨hlow i hi hz hne, (h.window i hi hz).2⟩) h.header h.high (h.ne_zero h0)
  refine ⟨hsound, fun _ ↦ ⟨ho, h0, ?_⟩, fun hzero ↦ absurd hzero (h.ne_zero h0)⟩
  exact Refreshed.trans ⟨_, _, _, _, rfl⟩ hrefresh

theorem Sound.scanFresh (h : p.Sound) : p.Scan p.scanFresh := by
  rw [SwapInfo.scanFresh]
  dsimp only
  split
  · rename_i o hfind
    obtain ⟨h0, hle⟩ := findCluster_spec hfind
    exact h.scan_of_gotPage ⟨_, _, _, _, rfl⟩ (lt_of_le_of_lt hle h.high) h0 rfl
      fun i hi hz _ ↦ (h.window i hi hz).1
  split
  · rename_i o hfind
    obtain ⟨h0, hle, hlt, hall⟩ := firstZero_some hfind
    have ho : o < p.max := lt_of_le_of_lt (show o ≤ p.highestBit by omega) h.high
    refine h.scan_of_gotPage ⟨_, _, _, _, rfl⟩ ho h0 rfl fun i hi hz hne ↦ ?_
    -- the slots below the one found, down to the window, are not free
    show o + 1 ≤ i
    by_contra hlt'
    exact hall i (h.window i hi hz).1 (by omega) hz
  · rename_i hfind
    have hall := firstZero_none hfind
    have hfull : ∀ o < p.max, p.swapMap o ≠ 0 := by
      intro o ho h0
      obtain ⟨hlo, hhi⟩ := h.window o ho h0
      exact hall o hlo (by omega) h0
    refine ⟨⟨fun o ho h0 ↦ absurd h0 (hfull o ho), h.header, ?_⟩, fun hne ↦ absurd rfl hne,
      fun _ ↦ ⟨hfull, ⟨_, _, _, _, rfl⟩⟩⟩
    exact Nat.zero_lt_of_lt h.high

theorem Refreshed.scan {r : ℕ × SwapInfo} (h : p.Refreshed q) (hr : q.Scan r) : p.Scan r := by
  obtain ⟨_, _, _, _, rfl⟩ := h
  refine ⟨hr.sound, fun hne ↦ ?_, fun h0 ↦ ?_⟩
  · obtain ⟨hlt, hz, hrefresh⟩ := hr.some hne
    exact ⟨hlt, hz, Refreshed.trans ⟨_, _, _, _, rfl⟩ hrefresh⟩
  · obtain ⟨hfull, hrefresh⟩ := hr.none h0
    exact ⟨hfull, Refreshed.trans ⟨_, _, _, _, rfl⟩ hrefresh⟩

/-- **The search for a slot.** -/
theorem Sound.scanSwapMap (h : p.Sound) : p.Scan p.scanSwapMap := by
  rw [SwapInfo.scanSwapMap]
  split
  · split
    · rename_i o hfind
      obtain ⟨h0, hle, hlt, -⟩ := firstZero_some hfind
      have ho : o < p.max := lt_of_le_of_lt (show o ≤ p.highestBit by omega) h.high
      exact h.scan_of_gotPage ⟨_, _, _, _, rfl⟩ ho h0 rfl fun i hi hz _ ↦ (h.window i hi hz).1
    · have hq : Sound { p with clusterNext := Nat.max p.clusterNext (p.highestBit + 1) } :=
        ⟨h.window, h.header, h.high⟩
      exact Refreshed.scan ⟨_, _, _, _, rfl⟩ hq.scanFresh
  · exact h.scanFresh

/-! ## Other counters -/

variable {v : ℕ}

theorem Sound.setSlot (h : p.Sound) (hbad : p.swapMap o ≠ swapMapBad) (hv : v ≠ 0) :
    (p.setSlot o v).Sound := by
  have hne : 0 ≠ o := by
    rintro rfl
    exact hbad h.header
  refine ⟨fun i hi h0 ↦ h.window i hi ?_, ?_, h.high⟩
  · rcases eq_or_ne i o with rfl | hio
    · simp [SwapInfo.setSlot, hv] at h0
    · simpa [SwapInfo.setSlot, hio] using h0
  · simpa [SwapInfo.setSlot, hne] using h.header

/-- A slot becomes free, and the window is widened for it. -/
theorem Sound.release (h : p.Sound) (hbad : p.swapMap o ≠ swapMapBad) (ho : o < p.max) :
    Sound { p.setSlot o 0 with
      lowestBit := if o < p.lowestBit then o else p.lowestBit
      highestBit := if p.highestBit < o then o else p.highestBit } := by
  have hne : 0 ≠ o := by
    rintro rfl
    exact hbad h.header
  refine ⟨fun i hi h0 ↦ ?_, ?_, ?_⟩
  · dsimp only
    rcases eq_or_ne i o with rfl | hio
    · split_ifs <;> omega
    · obtain ⟨hlo, hhi⟩ := h.window i hi (by simpa [SwapInfo.setSlot, hio] using h0)
      split_ifs <;> omega
  · simpa [SwapInfo.setSlot, hne] using h.header
  · have := h.high
    show (if p.highestBit < o then o else p.highestBit) < p.max
    split_ifs <;> omega

/-! ## Counting slots -/

/-- The number of free slots. -/
def freeSlots (p : SwapInfo) : ℕ := ((Finset.range p.max).filter fun o ↦ p.swapMap o = 0).card

/-- The number of slots in use. -/
def usedSlots (p : SwapInfo) : ℕ :=
  ((Finset.range p.max).filter fun o ↦ p.swapMap o ≠ 0 ∧ p.swapMap o ≠ swapMapBad).card

theorem freeSlots_setSlot (ho : o < p.max) (v : ℕ) :
    ((p.setSlot o v).freeSlots : ℤ) =
      p.freeSlots + ((if v = 0 then 1 else 0) - if p.swapMap o = 0 then 1 else 0) := by
  rw [freeSlots, freeSlots, Finset.natCast_card_filter, Finset.natCast_card_filter]
  exact Tally.sum_update (Finset.mem_range.2 ho) p.swapMap v fun c ↦ if c = 0 then 1 else 0

theorem usedSlots_setSlot (ho : o < p.max) (v : ℕ) :
    ((p.setSlot o v).usedSlots : ℤ) =
      p.usedSlots + ((if v ≠ 0 ∧ v ≠ swapMapBad then 1 else 0) -
        if p.swapMap o ≠ 0 ∧ p.swapMap o ≠ swapMapBad then 1 else 0) := by
  rw [usedSlots, usedSlots, Finset.natCast_card_filter, Finset.natCast_card_filter]
  exact Tally.sum_update (Finset.mem_range.2 ho) p.swapMap v
    fun c ↦ if c ≠ 0 ∧ c ≠ swapMapBad then 1 else 0

/-- What a device counts for in `nr_swap_pages`. -/
def balance (p : SwapInfo) : ℤ :=
  match p.flags with
  | .unused => 0
  | .used => -p.usedSlots
  | .writeok => p.freeSlots

/-- Whether it can be written to or is being removed, a device loses a free slot and gains one as
its map does. -/
theorem balance_setSlot (hflags : p.flags ≠ .unused) (ho : o < p.max)
    (hbad : p.swapMap o ≠ swapMapBad) (hv : v ≠ swapMapBad) :
    (p.setSlot o v).balance =
      p.balance + ((if v = 0 then 1 else 0) - if p.swapMap o = 0 then 1 else 0) := by
  have hfree := freeSlots_setSlot ho v
  have hused := usedSlots_setSlot ho v
  simp only [hbad, hv, ne_eq, not_false_eq_true, and_true] at hused
  cases h : p.flags with
  | unused => exact absurd h hflags
  | used =>
    simp only [balance, h, show (p.setSlot o v).flags = .used from h]
    rw [hused]
    split_ifs <;> ring
  | writeok =>
    simp only [balance, h, show (p.setSlot o v).flags = .writeok from h]
    exact hfree

theorem slots_setSlot (ho : o < p.max) (hbad : p.swapMap o ≠ swapMapBad)
    (hv : v ≠ swapMapBad) : ((p.setSlot o v).freeSlots : ℤ) + (p.setSlot o v).usedSlots =
      p.freeSlots + p.usedSlots := by
  rw [freeSlots_setSlot ho, usedSlots_setSlot ho]
  simp only [hbad, hv, ne_eq, not_false_eq_true, and_true]
  split_ifs <;> ring

/-! ## The part of a device that counts -/

/-- The two have the same slots. -/
structure Same (p q : SwapInfo) : Prop where
  flags : q.flags = p.flags
  swapMap : q.swapMap = p.swapMap
  pages : q.pages = p.pages
  max : q.max = p.max

theorem Same.refl (p : SwapInfo) : p.Same p := ⟨rfl, rfl, rfl, rfl⟩

theorem Same.trans {r : SwapInfo} (h : p.Same q) (h' : q.Same r) : p.Same r :=
  ⟨h'.flags.trans h.flags, h'.swapMap.trans h.swapMap, h'.pages.trans h.pages, h'.max.trans h.max⟩

theorem Refreshed.same (h : p.Refreshed q) : p.Same q := by
  obtain ⟨_, _, _, _, rfl⟩ := h
  exact ⟨rfl, rfl, rfl, rfl⟩

theorem Same.freeSlots_eq (h : p.Same q) : q.freeSlots = p.freeSlots := by
  rw [freeSlots, freeSlots, h.max, h.swapMap]

theorem Same.usedSlots_eq (h : p.Same q) : q.usedSlots = p.usedSlots := by
  rw [usedSlots, usedSlots, h.max, h.swapMap]

theorem Same.balance_eq (h : p.Same q) : q.balance = p.balance := by
  rw [balance, balance, h.flags, h.freeSlots_eq, h.usedSlots_eq]

end SwapInfo

end Linux24.Swap
