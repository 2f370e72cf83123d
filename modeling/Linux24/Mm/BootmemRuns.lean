import Linux24.Mm.Bootmem

/-!
# What the boot allocator hands out

`Bootmem.Granted` is what one allocation does: every byte of the range is in a page that was free
and is not any more, or in the rest of the last page of the previous allocation.  `World.Inv` says
that those two kinds of bytes have not been handed out before, and the two together are the
induction.

Bytes are counted from `node_boot_start` in this file, so that a page is a quotient.
-/

set_option autoImplicit false

namespace Linux24.Boot

open List

/-! ## Rounding up -/

variable {k x hi lo : ℕ}

theorem alignUp_two_pow (hk : k < 32) :
    alignUp x (2 ^ k) = add32 x (2 ^ k - 1) / 2 ^ k * 2 ^ k := by
  have hpow : 2 ^ k ≤ 2 ^ 31 := Nat.pow_le_pow_right (by norm_num) (by omega)
  have hpos : 0 < 2 ^ k := Nat.two_pow_pos k
  have hnot : not32 (2 ^ k - 1) = 4294967296 - 2 ^ k := by
    rw [not32]
    omega
  rw [alignUp, hnot]
  exact and_mask (add32_lt _ _) hk.le

theorem dvd_alignUp (hk : k < 32) : 2 ^ k ∣ alignUp x (2 ^ k) := by
  rw [alignUp_two_pow hk]
  exact Dvd.intro_left _ rfl

/-- Rounding up within a page. -/
theorem alignUp_bounds (hx : x < 4096) (hk : k ≤ 12) :
    x ≤ alignUp x (2 ^ k) ∧ alignUp x (2 ^ k) ≤ 4096 := by
  have hpow : 2 ^ k ≤ 2 ^ 12 := Nat.pow_le_pow_right (by norm_num) hk
  have hpos : 0 < 2 ^ k := Nat.two_pow_pos k
  have hdvd : 2 ^ k ∣ 4096 := pow_dvd_pow 2 hk
  rw [alignUp_two_pow (by omega), add32_of_lt (by omega)]
  constructor
  · have h := Nat.lt_div_mul_add hpos (a := x + (2 ^ k - 1))
    omega
  · obtain ⟨m, hm⟩ := hdvd
    have h : (x + (2 ^ k - 1)) / 2 ^ k ≤ m := by
      rw [Nat.div_le_iff_le_mul_add_pred hpos]
      omega
    calc (x + (2 ^ k - 1)) / 2 ^ k * 2 ^ k ≤ m * 2 ^ k := Nat.mul_le_mul_right _ h
      _ = 4096 := by rw [hm, mul_comm]

/-! ## The search -/

namespace Bootmem

variable {nd : Node} {b b' : Bootmem} {size start : ℕ}

/-- The pages from `start` on are free, `areasize` of them. -/
structure FreeAt (nd : Node) (b : Bootmem) (areasize start : ℕ) : Prop where
  lt : start < nd.eidx
  free : b.map start = false
  rest : ∀ j, start < j → j < start + areasize → j < nd.eidx ∧ b.map j = false

variable {areasize k i ret align goal : ℕ}

theorem FreeAt.all (h : b.FreeAt nd areasize start) {j : ℕ} (hj : start ≤ j)
    (hj' : j < start + areasize) : j < nd.eidx ∧ b.map j = false := by
  rcases eq_or_lt_of_le hj with rfl | hlt
  · exact ⟨h.lt, h.free⟩
  · exact h.rest j hlt hj'

theorem scan_spec {incr : ℕ} (fuel i : ℕ) (h : b.scan nd areasize incr fuel i = some start) :
    b.FreeAt nd areasize start ∧ ∃ m, start = i + m * incr := by
  induction fuel generalizing i with
  | zero => cases h
  | succ fuel ih =>
    rw [scan] at h
    split at h
    · rename_i hlt
      split at h
      · rename_i hfit
        cases h
        refine ⟨⟨hlt, hfit.1, fun j hj hj' ↦ ?_⟩, 0, by omega⟩
        have hall := all_eq_true.1 hfit.2 j (mem_range'_1.2 ⟨hj, by omega⟩)
        simpa using hall
      · obtain ⟨hfree, m, hm⟩ := ih _ h
        exact ⟨hfree, m + 1, by rw [hm]; ring⟩
    · cases h

/-! ## The alignment -/

/-- The pages that `alignOffset` skips lead to an aligned address. -/
theorem dvd_alignOffset (hk : 12 ≤ k) :
    2 ^ k ∣ nd.bootStart + alignOffset nd (2 ^ k) * 4096 := by
  have hdvd : 4096 ∣ 2 ^ k := pow_dvd_pow 2 hk
  have hpos : 0 < 2 ^ k := Nat.two_pow_pos k
  have hand : nd.bootStart &&& (2 ^ k - 1) = nd.bootStart % 2 ^ k :=
    Nat.and_two_pow_sub_one_eq_mod _ _
  have hstart : 4096 ∣ nd.bootStart := Dvd.intro_left _ rfl
  have hmod : 4096 ∣ nd.bootStart % 2 ^ k := (Nat.dvd_mod_iff hdvd).2 hstart
  have hdiv := Nat.div_add_mod nd.bootStart (2 ^ k)
  rw [alignOffset, hand]
  split
  · rw [Nat.div_mul_cancel (Nat.dvd_sub hdvd hmod)]
    have heq : nd.bootStart + (2 ^ k - nd.bootStart % 2 ^ k) =
        2 ^ k * (nd.bootStart / 2 ^ k) + 2 ^ k := by omega
    rw [heq]
    exact dvd_add (dvd_mul_right _ _) dvd_rfl
  · rename_i h0
    have h0 : nd.bootStart % 2 ^ k = 0 := by
      by_contra hne
      exact h0 ⟨hpos.ne', hne⟩
    rw [zero_mul, add_zero]
    exact Nat.dvd_of_mod_eq_zero h0

theorem increment_mul (hk : 12 ≤ k) : increment (2 ^ k) * 4096 = 2 ^ k := by
  have hdvd : 4096 ∣ 2 ^ k := pow_dvd_pow 2 hk
  have hpos : 2 ^ k / 4096 ≠ 0 :=
    (Nat.div_pos (Nat.le_of_dvd (Nat.two_pow_pos k) hdvd) (by norm_num)).ne'
  rw [increment, if_neg hpos, Nat.div_mul_cancel hdvd]

/-- The pages at which the search looks are aligned. -/
theorem dvd_of_scan {m : ℕ} (hk : k < 32)
    (hi : i = alignOffset nd (2 ^ k) ∨ ∃ x, i = alignUp x (2 ^ k) / 4096 + alignOffset nd (2 ^ k))
    (hstart : start = i + m * increment (2 ^ k)) : 2 ^ k ∣ start * 4096 + nd.bootStart := by
  rcases lt_or_ge k 12 with hlt | hge
  · have hpage : 2 ^ k ∣ 4096 := pow_dvd_pow 2 hlt.le
    exact dvd_add (hpage.mul_left _) (hpage.mul_left _)
  · have hdvd : 4096 ∣ 2 ^ k := pow_dvd_pow 2 hge
    obtain ⟨y, hy, hstart⟩ : ∃ y, 2 ^ k ∣ y * 4096 ∧
        start = y + alignOffset nd (2 ^ k) + m * increment (2 ^ k) := by
      rcases hi with rfl | ⟨x, rfl⟩
      · exact ⟨0, by simp, by omega⟩
      · refine ⟨_, ?_, hstart⟩
        rw [Nat.div_mul_cancel (hdvd.trans (dvd_alignUp hk))]
        exact dvd_alignUp hk
    have hsum : start * 4096 + nd.bootStart = y * 4096 +
        (nd.bootStart + alignOffset nd (2 ^ k) * 4096) + m * 2 ^ k := by
      have hm : m * 2 ^ k = m * increment (2 ^ k) * 4096 := by rw [mul_assoc, increment_mul hge]
      rw [hstart, hm]
      ring
    rw [hsum]
    exact dvd_add (dvd_add hy (dvd_alignOffset hge)) (dvd_mul_left _ _)

/-! ## One allocation -/

/-- What an allocation does to the bitmap, where the range starts at byte `rel`. -/
structure Granted (nd : Node) (b b' : Bootmem) (rel size : ℕ) : Prop where
  /-- The bytes are in pages that were free or in the rest of the last page. -/
  bytes : ∀ y, rel ≤ y → y < rel + size →
    (y / 4096 < nd.eidx ∧ b.map (y / 4096) = false ∧ b'.map (y / 4096) = true) ∨
      (b.lastOffset ≠ 0 ∧ y / 4096 = b.lastPos ∧ b.lastOffset ≤ y % 4096)
  /-- No page becomes free. -/
  map : ∀ i, b'.map i = false → b.map i = false
  offset : b'.lastOffset < 4096
  /-- If there is a rest now, it begins where the range ends. -/
  tail : b'.lastOffset ≠ 0 → b'.lastPos * 4096 + b'.lastOffset = rel + size ∧
    ((b'.lastPos < nd.eidx ∧ b.map b'.lastPos = false ∧ b'.map b'.lastPos = true) ∨
      (b.lastOffset ≠ 0 ∧ b'.lastPos = b.lastPos ∧ b.lastOffset ≤ b'.lastOffset))

theorem setBits_of_mem {lo hi : ℕ} {v : Bool} (h : lo ≤ i) (h' : i < hi) :
    (b.setBits lo hi v).map i = v := if_pos ⟨h, h'⟩

theorem map_of_setBits_true {lo hi : ℕ} (h : (b.setBits lo hi true).map i = false) :
    b.map i = false := by
  rw [setBits] at h
  dsimp only at h
  split at h
  · cases h
  · exact h

/-- The pages for `rest` bytes are taken, which are among the free ones. -/
theorem FreeAt.granted {rest : ℕ} (hfree : b.FreeAt nd areasize start)
    (hle : (rest + 4095) / 4096 ≤ areasize) :
    ∃ b', Bootmem.take { b with
      lastPos := sub32 (add32 start ((rest + 4095) / 4096)) 1
      lastOffset := rest % 4096 } start ((rest + 4095) / 4096) = .ok b' ∧
    b.Granted nd b' (start * 4096) rest := by
  set b₁ : Bootmem := { b with
    lastPos := sub32 (add32 start ((rest + 4095) / 4096)) 1
    lastOffset := rest % 4096 }
  have hnew : ∀ i, start ≤ i → i < start + (rest + 4095) / 4096 → i < nd.eidx ∧ b.map i = false ∧
      (b₁.setBits start (start + (rest + 4095) / 4096) true).map i = true := by
    intro i hi hi'
    have hall := hfree.all hi (hi'.trans_le (Nat.add_le_add_left hle start))
    exact ⟨hall.1, hall.2, setBits_of_mem hi hi'⟩
  have hnone : ¬ (range' start ((rest + 4095) / 4096)).any b₁.map = true := by
    intro hany
    obtain ⟨i, hi, hset⟩ := any_eq_true.1 hany
    have hi := mem_range'_1.1 hi
    exact Bool.false_ne_true ((hnew i hi.1 hi.2).2.1.symm.trans hset)
  refine ⟨_, if_neg hnone, fun y hy hy' ↦ Or.inl (hnew _ (by omega) (by omega)),
    fun i hi ↦ map_of_setBits_true hi, Nat.mod_lt _ (by norm_num), fun hne ↦ ?_⟩
  change rest % 4096 ≠ 0 at hne
  have heidx : nd.eidx ≤ 1048576 := (Nat.sub_le _ _).trans nd.lt
  have hlast := (hnew (start + (rest + 4095) / 4096 - 1) (by omega) (by omega))
  have hpos : (b₁.setBits start (start + (rest + 4095) / 4096) true).lastPos =
      start + (rest + 4095) / 4096 - 1 := by
    change sub32 (add32 start ((rest + 4095) / 4096)) 1 = _
    rw [add32_of_lt (by omega)]
    exact sub32_of_le (by omega) (by omega)
  rw [hpos]
  refine ⟨?_, Or.inl hlast⟩
  change _ + rest % 4096 = _
  omega

/-- A range that starts with a new page. -/
theorem allocFresh_spec (hwrap : size + 4095 < 4294967296)
    (hfree : b.FreeAt nd (add32 size 4095 / 4096) start) :
    ∃ b', b.allocFresh nd size start = .ok (start * 4096 + nd.bootStart, b') ∧
      b.Granted nd b' (start * 4096) size := by
  rw [add32_of_lt hwrap] at hfree
  obtain ⟨b', htake, hgrant⟩ := hfree.granted le_rfl
  refine ⟨b', ?_, hgrant⟩
  rw [allocFresh, add32_of_lt hwrap, htake]
  rfl

/-- A range that starts in the last page of the previous allocation. -/
theorem allocMerged_spec (hk : k ≤ 12) (hwrap : size + 4095 < 4294967296)
    (hoff : b.lastOffset < 4096) (hne : b.lastOffset ≠ 0) (hstart : b.lastPos + 1 = start)
    (hfree : b.FreeAt nd (add32 size 4095 / 4096) start) :
    ∃ b', b.allocMerged nd size (2 ^ k) start =
        .ok (b.lastPos * 4096 + alignUp b.lastOffset (2 ^ k) + nd.bootStart, b') ∧
      b.Granted nd b' (b.lastPos * 4096 + alignUp b.lastOffset (2 ^ k)) size := by
  rw [add32_of_lt hwrap] at hfree
  obtain ⟨hlo, hhi⟩ := alignUp_bounds hoff hk
  rw [allocMerged]
  set o := alignUp b.lastOffset (2 ^ k) with ho
  have hfit : b.lastPos * 4096 + o + nd.bootStart < 4294967296 := by
    have hlt := hfree.lt
    have hnd := nd.lt
    rw [Node.eidx] at hlt
    rw [Node.bootStart]
    omega
  dsimp only
  rw [if_neg (not_lt.2 hhi), add32_of_lt hfit]
  split
  · -- the whole range is in the last page
    refine ⟨_, rfl, fun y hy hy' ↦ Or.inr ⟨hne, by omega, by omega⟩, fun i hi ↦ hi,
      Nat.mod_lt _ (by norm_num), fun _ ↦ ⟨?_, Or.inr ⟨hne, rfl, ?_⟩⟩⟩
    · change b.lastPos * 4096 + (o + size) % 4096 = _
      omega
    · change b.lastOffset ≤ (o + size) % 4096
      omega
  · have hend : start * 4096 + (size - (4096 - o)) = b.lastPos * 4096 + o + size := by omega
    have hle : (size - (4096 - o) + 4095) / 4096 ≤ (size + 4095) / 4096 := by omega
    obtain ⟨b', htake, hrest⟩ := hfree.granted hle
    rw [add32_of_lt (show size - (4096 - o) + 4095 < 4294967296 by omega), htake]
    refine ⟨b', rfl, fun y hy hy' ↦ ?_, hrest.map, hrest.offset, fun hne' ↦ ?_⟩
    · by_cases hpage : y < start * 4096
      · exact Or.inr ⟨hne, by omega, by omega⟩
      · exact hrest.bytes y (not_lt.1 hpage) (hy'.trans_eq hend.symm)
    · rw [← hend]
      exact hrest.tail hne'

/-- From the label `found` on nothing goes wrong. -/
theorem found_spec (hk : k < 32) (hwrap : size + 4095 < 4294967296)
    (hoff : b.lastOffset < 4096) (hlast : b.lastOffset ≠ 0 → b.lastPos < nd.eidx)
    (hfree : b.FreeAt nd (add32 size 4095 / 4096) start)
    (hdvd : 2 ^ k ∣ start * 4096 + nd.bootStart) :
    ∃ rel b', b.found nd size (2 ^ k) start = .ok (rel + nd.bootStart, b') ∧
      2 ^ k ∣ rel + nd.bootStart ∧ b.Granted nd b' rel size := by
  rw [found, if_neg (not_le.2 hfree.lt)]
  split
  · rename_i hmerge
    obtain ⟨hle, hne, hstart⟩ := hmerge
    have hk12 : k ≤ 12 := (Nat.pow_le_pow_iff_right (by norm_num)).1 (hle.trans_eq (by norm_num))
    have heidx : nd.eidx ≤ 1048576 := (Nat.sub_le _ _).trans nd.lt
    rw [add32_of_lt (by omega)] at hstart
    obtain ⟨b', heq, hgrant⟩ := allocMerged_spec hk12 hwrap hoff hne hstart hfree
    have hpage : 2 ^ k ∣ 4096 := pow_dvd_pow 2 hk12
    exact ⟨_, b', heq, dvd_add (dvd_add (hpage.mul_left _) (dvd_alignUp hk))
      (hpage.mul_left _), hgrant⟩
  · obtain ⟨b', heq, hgrant⟩ := allocFresh_spec hwrap hfree
    exact ⟨_, b', heq, hdvd, hgrant⟩

/-- What a call comes to: it has found aligned pages that are free, or it has looked at every page
from `offset` on. -/
theorem allocBootmemCore_cases (goal : ℕ) (hk : k < 32) (hsize : 0 < size) :
    (∃ start, 2 ^ k ∣ start * 4096 + nd.bootStart ∧ b.FreeAt nd (add32 size 4095 / 4096) start ∧
      b.allocBootmemCore nd size (2 ^ k) goal =
        (b.found nd size (2 ^ k) start).map fun p ↦ (some p.1, p.2)) ∨
    b.scan nd (add32 size 4095 / 4096) (increment (2 ^ k)) nd.eidx (alignOffset nd (2 ^ k)) = none ∧
      b.allocBootmemCore nd size (2 ^ k) goal =
        if alignOffset nd (2 ^ k) = 0 then .ok (none, b) else .error .hang := by
  have hpow : ¬ 2 ^ k &&& (2 ^ k - 1) ≠ 0 := by simp
  rw [allocBootmemCore, if_neg hsize.ne', if_neg hpow]
  dsimp only
  split
  · rename_i start hscan
    obtain ⟨hfree, m, hm⟩ := scan_spec _ _ hscan
    refine Or.inl ⟨start, dvd_of_scan hk (Or.inr ⟨_, rfl⟩) hm, hfree, ?_⟩
    cases b.found nd size (2 ^ k) start <;> rfl
  rename_i hpref
  split
  · rename_i h0
    have hoff : alignOffset nd (2 ^ k) = 0 := (Nat.add_eq_zero_iff.1 h0).2
    exact Or.inr ⟨by rw [hoff, ← h0, hpref], by rw [if_pos hoff]; rfl⟩
  split
  · rename_i start hscan
    obtain ⟨hfree, m, hm⟩ := scan_spec _ _ hscan
    refine Or.inl ⟨start, dvd_of_scan hk (Or.inl rfl) hm, hfree, ?_⟩
    cases b.found nd size (2 ^ k) start <;> rfl
  · rename_i hscan
    exact Or.inr ⟨hscan, rfl⟩

/-- **An allocation**, and a call that fails changes nothing. -/
theorem allocBootmemCore_spec {r : Option ℕ} (hk : k < 32) (hsize : 0 < size)
    (hwrap : size + 4095 < 4294967296) (hoff : b.lastOffset < 4096)
    (hlast : b.lastOffset ≠ 0 → b.lastPos < nd.eidx)
    (h : b.allocBootmemCore nd size (2 ^ k) goal = .ok (r, b')) :
    (∃ rel, r = some (rel + nd.bootStart) ∧ 2 ^ k ∣ rel + nd.bootStart ∧
      b.Granted nd b' rel size) ∨ r = none ∧ b' = b := by
  rcases allocBootmemCore_cases goal hk hsize with ⟨start, hdvd, hfree, heq⟩ | ⟨-, heq⟩
  · obtain ⟨rel, b₂, hfound, hret, hgrant⟩ := found_spec hk hwrap hoff hlast hfree hdvd
    rw [heq, hfound] at h
    cases h
    exact Or.inl ⟨rel, rfl, hret, hgrant⟩
  · rw [heq] at h
    split at h <;> cases h
    exact Or.inr ⟨rfl, rfl⟩

/-! ## The end of the search -/

theorem FreeAt.mono {n : ℕ} (h : b.FreeAt nd areasize start) (hn : n ≤ areasize) :
    b.FreeAt nd n start :=
  ⟨h.lt, h.free, fun j hj hj' ↦ h.rest j hj (hj'.trans_le (Nat.add_le_add_left hn start))⟩

/-- A search that finds nothing has looked at every page that it can get to. -/
theorem scan_none {incr : ℕ} (fuel i m : ℕ) (hfuel : nd.eidx ≤ i + fuel) (hpos : 0 < incr)
    (h : b.scan nd areasize incr fuel i = none) : ¬ b.FreeAt nd areasize (i + m * incr) := by
  intro hfree
  have hlt := hfree.lt
  induction fuel generalizing i m with
  | zero => omega
  | succ fuel ih =>
    rw [scan, if_pos (by omega)] at h
    split at h
    · cases h
    rename_i hfit
    cases m with
    | zero =>
      rw [zero_mul] at hfree
      refine hfit ⟨hfree.free, all_eq_true.2 fun j hj ↦ ?_⟩
      have hj := mem_range'_1.1 hj
      simpa using hfree.rest j hj.1 (by omega)
    | succ m =>
      have hnext : i + (m + 1) * incr = i + incr + m * incr := by ring
      rw [hnext] at hfree hlt
      exact ih (i + incr) m (by omega) h hfree hlt

theorem alignOffset_eq_zero_iff : alignOffset nd (2 ^ k) = 0 ↔ 2 ^ k ∣ nd.bootStart := by
  constructor
  · intro h0
    rcases lt_or_ge k 12 with hlt | hge
    · exact (pow_dvd_pow 2 hlt.le).trans (Dvd.intro_left _ rfl)
    · have hdvd : 2 ^ k ∣ nd.bootStart + alignOffset nd (2 ^ k) * 4096 := dvd_alignOffset hge
      rwa [h0, zero_mul, add_zero] at hdvd
  · intro hdvd
    rw [alignOffset, Nat.and_two_pow_sub_one_eq_mod, Nat.mod_eq_zero_of_dvd hdvd]
    simp

/-- The pages at which the search looks are all that are aligned. -/
theorem exists_of_dvd (h : 2 ^ k ∣ start * 4096 + nd.bootStart) :
    ∃ m, start = alignOffset nd (2 ^ k) + m * increment (2 ^ k) := by
  rcases lt_or_ge k 12 with hlt | hge
  · have hsmall : 2 ^ k / 4096 = 0 := Nat.div_eq_of_lt (Nat.pow_lt_pow_right (by decide) hlt)
    have h0 : 2 ^ k ∣ nd.bootStart := (pow_dvd_pow 2 hlt.le).trans (Dvd.intro_left _ rfl)
    exact ⟨start, by rw [alignOffset_eq_zero_iff.2 h0, increment, if_pos hsmall]; omega⟩
  · have hoff : alignOffset nd (2 ^ k) * 4096 < 2 ^ k := by
      rw [alignOffset]
      split
      · rename_i hne
        omega
      · omega
    have hdvd : 2 ^ k ∣ nd.bootStart + alignOffset nd (2 ^ k) * 4096 := dvd_alignOffset hge
    have hle : alignOffset nd (2 ^ k) ≤ start := by
      by_contra hlt
      have hsub := Nat.dvd_sub hdvd h
      have := Nat.le_of_dvd (by omega) hsub
      omega
    obtain ⟨m, hm⟩ := Nat.dvd_sub h hdvd
    refine ⟨m, ?_⟩
    have hmul : m * increment (2 ^ k) * 4096 = 2 ^ k * m := by
      rw [mul_assoc, increment_mul hge, mul_comm]
    omega

theorem not_free_of_scan
    (h : b.scan nd areasize (increment (2 ^ k)) nd.eidx (alignOffset nd (2 ^ k)) = none)
    (hdvd : 2 ^ k ∣ start * 4096 + nd.bootStart) : ¬ b.FreeAt nd areasize start := by
  obtain ⟨m, rfl⟩ := exists_of_dvd hdvd
  have hpos : 0 < increment (2 ^ k) := by
    rw [increment]
    split <;> omega
  exact scan_none _ _ m (Nat.le_add_left _ _) hpos h

/-- There is room for `areasize` pages at an aligned address. -/
def Room (nd : Node) (b : Bootmem) (areasize align : ℕ) : Prop :=
  ∃ start, align ∣ start * 4096 + nd.bootStart ∧ b.FreeAt nd areasize start

/-- The call ends: it goes to `found` with aligned pages that are free, where it succeeds unless the
size wraps around, or it returns `NULL` and there are no such pages. -/
def Ends (nd : Node) (b : Bootmem) (size align goal : ℕ) : Prop :=
  (∃ start, align ∣ start * 4096 + nd.bootStart ∧ b.FreeAt nd (add32 size 4095 / 4096) start ∧
    b.allocBootmemCore nd size align goal =
      (b.found nd size align start).map (fun p ↦ (some p.1, p.2)) ∧
    (size + 4095 < 4294967296 → b.lastOffset < 4096 → (b.lastOffset ≠ 0 → b.lastPos < nd.eidx) →
      ∃ p, b.found nd size align start = .ok p)) ∨
  b.allocBootmemCore nd size align goal = .ok (none, b) ∧ ¬ b.Room nd ((size + 4095) / 4096) align

/-- **When `__alloc_bootmem_core` ends.**  If the node begins at an aligned address it always does;
otherwise it goes on for ever if there is no room. -/
theorem allocBootmemCore_ends_iff (hk : k < 32) (hsize : 0 < size) :
    b.Ends nd size (2 ^ k) goal ↔
      2 ^ k ∣ nd.bootStart ∨ b.Room nd (add32 size 4095 / 4096) (2 ^ k) := by
  rcases allocBootmemCore_cases goal hk hsize with ⟨start, hdvd, hfree, heq⟩ | ⟨hscan, heq⟩
  · refine ⟨fun _ ↦ Or.inr ⟨start, hdvd, hfree⟩,
      fun _ ↦ Or.inl ⟨start, hdvd, hfree, heq, fun hwrap hoff hlast ↦ ?_⟩⟩
    obtain ⟨rel, b', hfound, -⟩ := found_spec hk hwrap hoff hlast hfree hdvd
    exact ⟨_, hfound⟩
  constructor
  · rintro (⟨start, hdvd, hfree, -⟩ | ⟨hnone, -⟩)
    · exact absurd hfree (not_free_of_scan hscan hdvd)
    · rw [heq] at hnone
      split at hnone
      · rename_i h0
        exact Or.inl (alignOffset_eq_zero_iff.1 h0)
      · cases hnone
  · rintro (hstart | ⟨start, hdvd, hfree⟩)
    · rw [if_pos (alignOffset_eq_zero_iff.2 hstart)] at heq
      refine Or.inr ⟨heq, ?_⟩
      rintro ⟨start, hdvd, hfree⟩
      exact not_free_of_scan hscan hdvd (hfree.mono (Nat.div_le_div_right (Nat.mod_le _ _)))
    · exact absurd hfree (not_free_of_scan hscan hdvd)

theorem allocBootmemCore_ends_aligned :
    initBootmemCore.Ends ⟨0, 2, by decide, by decide⟩ 1 (2 ^ 13) 0 :=
  (allocBootmemCore_ends_iff (by decide) (by decide)).2 (Or.inl (by decide))

/-- A node that begins at page 1 and has no free page: the request is for an even page. -/
theorem allocBootmemCore_hangs :
    ¬ initBootmemCore.Ends ⟨1, 2, by decide, by decide⟩ 1 (2 ^ 13) 0 := by
  rintro (⟨start, -, hfree, -⟩ | ⟨hnone, -⟩)
  · cases hfree.free
  · cases hnone

end Bootmem

/-! ## Runs -/

/-- The byte is part of the range. -/
def Grant.Has (nd : Node) (g : Grant) (y : ℕ) : Prop :=
  g.ret ≤ y + nd.bootStart ∧ y + nd.bootStart < g.ret + g.size

/-- The record and the bitmap agree. -/
structure World.Inv (nd : Node) (w : World) : Prop where
  /-- A free page is memory, it is not reserved, and nothing in it has been handed out. -/
  free : ∀ i < nd.eidx, w.botm.map i = false →
    i ∈ w.ram ∧ i ∉ w.reserved ∧ ∀ g ∈ w.grants, ∀ y, g.Has nd y → y / 4096 ≠ i
  /-- The same for the rest of the last page, if there is one; the page is not free. -/
  tail : w.botm.lastOffset ≠ 0 → w.botm.lastPos < nd.eidx ∧ w.botm.map w.botm.lastPos = true ∧
    w.botm.lastPos ∈ w.ram ∧ w.botm.lastPos ∉ w.reserved ∧
    ∀ g ∈ w.grants, ∀ y, g.Has nd y → y / 4096 = w.botm.lastPos → y % 4096 < w.botm.lastOffset
  offset : w.botm.lastOffset < 4096
  /-- No byte has been handed out twice. -/
  apart : w.grants.Pairwise fun g g' ↦ ∀ y, g.Has nd y → ¬ g'.Has nd y
  /-- Every range is what it was supposed to be. -/
  grant : ∀ g ∈ w.grants, (nd.bootStart ≤ g.ret ∧ 0 < g.size) ∧ g.align ∣ g.ret ∧
    ∀ y, g.Has nd y → y / 4096 < nd.eidx ∧ y / 4096 ∈ w.ram ∧ y / 4096 ∉ g.reserved
  /-- While memory is being registered, nothing else has happened. -/
  registering : w.registering = true →
    w.grants = [] ∧ w.reserved = [] ∧ w.botm.lastOffset = 0

/-- What the callers have to see to: sizes do not wrap when they are rounded up to pages, and the
page in which the last allocation ended is not reserved afterwards. -/
def Careful (nd : Node) (w : World) : Call → Prop
  | .freeBootmemCore _ _ => True
  | .reserveBootmemCore addr size => ∀ lo hi b,
    w.botm.reserveBootmemCore nd addr size = .ok (lo, hi, b) → w.botm.lastOffset ≠ 0 →
      ¬ (lo ≤ w.botm.lastPos ∧ w.botm.lastPos < hi)
  | .allocBootmemCore size _ _ => size + 4095 < 4294967296

variable {nd : Node} {w w' : World}

theorem World.Inv.free_step (h : w.Inv nd) (hreg : w.registering = true) :
    World.Inv nd { w with
      botm := w.botm.setBits lo hi false
      ram := List.range' lo (hi - lo) ++ w.ram } := by
  obtain ⟨hgrants, hres, hoff⟩ := h.registering hreg
  refine ⟨fun i hi hmap ↦ ⟨?_, by simp [hres], by simp [hgrants]⟩, absurd hoff,
    h.offset, h.apart, by simp [hgrants], fun _ ↦ ⟨hgrants, hres, hoff⟩⟩
  rw [Bootmem.setBits] at hmap
  dsimp only at hmap
  split at hmap
  · rename_i hin
    exact mem_append_left _ (mem_range'_1.2 ⟨hin.1, by omega⟩)
  · exact mem_append_right _ (h.free i hi hmap).1

theorem World.Inv.reserve_step (h : w.Inv nd)
    (hlast : w.botm.lastOffset ≠ 0 → ¬ (lo ≤ w.botm.lastPos ∧ w.botm.lastPos < hi)) :
    World.Inv nd { w with
      botm := w.botm.setBits lo hi true
      reserved := List.range' lo (hi - lo) ++ w.reserved
      registering := false } := by
  have hmem : ∀ i, i ∈ range' lo (hi - lo) ↔ lo ≤ i ∧ i < hi := by
    intro i
    rw [mem_range'_1]
    omega
  refine ⟨fun i hi hmap ↦ ?_, fun hne ↦ ?_, h.offset, h.apart, h.grant, nofun⟩
  · rw [Bootmem.setBits] at hmap
    dsimp only at hmap
    split at hmap
    · cases hmap
    · rename_i hout
      obtain ⟨hram, hres, hbytes⟩ := h.free i hi hmap
      refine ⟨hram, fun hc ↦ ?_, hbytes⟩
      rcases mem_append.1 hc with hc | hc
      · exact hout ((hmem i).1 hc)
      · exact hres hc
  · obtain ⟨hlt, hmap, hram, hres, hbytes⟩ := h.tail hne
    refine ⟨hlt, ?_, hram, fun hc ↦ ?_, hbytes⟩
    · rw [Bootmem.setBits]
      dsimp only
      rw [hmap, ite_self]
    · rcases mem_append.1 hc with hc | hc
      · exact hlast hne ((hmem _).1 hc)
      · exact hres hc

/-- The bytes of a new range have not been handed out before. -/
theorem World.Inv.new_byte (h : w.Inv nd) {b : Bootmem} {rel size y : ℕ}
    (hb : w.botm.Granted nd b rel size) (hy : rel ≤ y) (hy' : y < rel + size) :
    (y / 4096 < nd.eidx ∧ y / 4096 ∈ w.ram ∧ y / 4096 ∉ w.reserved ∧ b.map (y / 4096) = true) ∧
      ∀ g ∈ w.grants, ¬ g.Has nd y := by
  rcases hb.bytes y hy hy' with ⟨hlt, hfree, hset⟩ | ⟨hne, hpage, hle⟩
  · obtain ⟨hram, hres, hbytes⟩ := h.free _ hlt hfree
    exact ⟨⟨hlt, hram, hres, hset⟩, fun g hg hc ↦ hbytes g hg y hc rfl⟩
  · obtain ⟨hlt, hmap, hram, hres, hbytes⟩ := h.tail hne
    rw [← hpage] at hlt hmap hram hres
    refine ⟨⟨hlt, hram, hres, ?_⟩, fun g hg hc ↦ absurd (hbytes g hg y hc hpage) hle.not_gt⟩
    by_contra hc
    exact absurd (hb.map _ (Bool.eq_false_iff.2 hc)) (by rw [hmap]; decide)

theorem World.Inv.alloc_step (h : w.Inv nd) {b : Bootmem} {rel size align : ℕ} (hsize : 0 < size)
    (hb : w.botm.Granted nd b rel size) (halign : align ∣ rel + nd.bootStart) :
    World.Inv nd { w with
      botm := b
      grants := ⟨rel + nd.bootStart, size, align, w.reserved⟩ :: w.grants
      registering := false } := by
  set g : Grant := ⟨rel + nd.bootStart, size, align, w.reserved⟩ with hg
  have hhas : ∀ y, g.Has nd y ↔ rel ≤ y ∧ y < rel + size := by
    intro y
    rw [Grant.Has, hg]
    dsimp only
    omega
  have hnew := fun y hy ↦ h.new_byte hb ((hhas y).1 hy).1 ((hhas y).1 hy).2
  refine ⟨fun i hi hmap ↦ ?_, fun hne ↦ ?_, hb.offset, pairwise_cons.2 ⟨?_, h.apart⟩,
    forall_mem_cons.2 ⟨⟨⟨Nat.le_add_left _ _, hsize⟩, halign, fun y hy ↦ ?_⟩, h.grant⟩, nofun⟩
  · obtain ⟨hram, hres, hbytes⟩ := h.free i hi (hb.map i hmap)
    refine ⟨hram, hres, forall_mem_cons.2 ⟨fun y hy hc ↦ ?_, hbytes⟩⟩
    have hset := (hnew y hy).1.2.2.2
    rw [hc] at hset
    exact absurd hmap (by rw [hset]; decide)
  · obtain ⟨hend, htail⟩ := hb.tail hne
    have hown : ∀ y, g.Has nd y → y / 4096 = b.lastPos → y % 4096 < b.lastOffset := by
      intro y hy hpage
      have hy := (hhas y).1 hy
      omega
    rcases htail with ⟨hlt, hfree, hset⟩ | ⟨hne', hpos, hle⟩
    · obtain ⟨hram, hres, hbytes⟩ := h.free _ hlt hfree
      exact ⟨hlt, hset, hram, hres, forall_mem_cons.2 ⟨hown, fun g' hg' y hy hc ↦
        absurd hc (hbytes g' hg' y hy)⟩⟩
    · obtain ⟨hlt, hmap, hram, hres, hbytes⟩ := h.tail hne'
      rw [← hpos] at hlt hmap hram hres hbytes
      refine ⟨hlt, ?_, hram, hres, forall_mem_cons.2 ⟨hown, fun g' hg' y hy hc ↦
        (hbytes g' hg' y hy hc).trans_le hle⟩⟩
      by_contra hc
      exact absurd (hb.map _ (Bool.eq_false_iff.2 hc)) (by rw [hmap]; decide)
  · exact fun g' hg' y hy ↦ (hnew y hy).2 g' hg'
  · obtain ⟨⟨hlt, hram, hres, -⟩, -⟩ := hnew y hy
    exact ⟨hlt, hram, hres⟩

theorem initial_inv : initial.Inv nd :=
  ⟨fun _ _ ↦ nofun, fun h ↦ absurd rfl h, by decide, List.Pairwise.nil, nofun,
    fun _ ↦ ⟨rfl, rfl, rfl⟩⟩

theorem freeBootmemCore_ok {b b' : Bootmem} {addr size : ℕ}
    (h : b.freeBootmemCore nd addr size = .ok (lo, hi, b')) : b' = b.setBits lo hi false := by
  rw [Bootmem.freeBootmemCore] at h
  repeat' split at h
  all_goals cases h
  rfl

theorem reserveBootmemCore_ok {b b' : Bootmem} {addr size : ℕ}
    (h : b.reserveBootmemCore nd addr size = .ok (lo, hi, b')) : b' = b.setBits lo hi true := by
  rw [Bootmem.reserveBootmemCore] at h
  repeat' split at h
  all_goals cases h
  rfl

/-- What every call keeps. -/
theorem World.Inv.step (h : w.Inv nd) {a : Call} (hl : Legal w a) (hc : Careful nd w a)
    (he : exec nd w a = .ok w') : w'.Inv nd := by
  cases a with
  | freeBootmemCore addr size =>
    obtain ⟨⟨lo, hi, b⟩, hfree, he⟩ := Machine.exists_of_bind he
    cases he
    rw [freeBootmemCore_ok hfree]
    exact h.free_step hl.1
  | reserveBootmemCore addr size =>
    obtain ⟨⟨lo, hi, b⟩, hres, he⟩ := Machine.exists_of_bind he
    cases he
    rw [reserveBootmemCore_ok hres]
    exact h.reserve_step (hc lo hi b hres)
  | allocBootmemCore size align goal =>
    obtain ⟨⟨hpos, -⟩, ⟨k, hk, rfl⟩, -⟩ := hl
    obtain ⟨⟨ret, b⟩, halloc, he⟩ := Machine.exists_of_bind he
    rcases Bootmem.allocBootmemCore_spec hk hpos hc h.offset (fun hne ↦ (h.tail hne).1) halloc
      with ⟨rel, rfl, hdvd, hgrant⟩ | ⟨rfl, rfl⟩
    · cases he
      exact h.alloc_step hpos hgrant hdvd
    · cases he
      exact ⟨h.free, h.tail, h.offset, h.apart, h.grant, nofun⟩

/-- What is promised about the ranges that have been handed out. -/
structure Sound (nd : Node) (w : World) : Prop where
  /-- They are disjoint. -/
  apart : w.grants.Pairwise fun g g' ↦ g.ret + g.size ≤ g'.ret ∨ g'.ret + g'.size ≤ g.ret
  /-- They are aligned, -/
  aligned : ∀ g ∈ w.grants, g.align ∣ g.ret
  /-- and they lie in memory that belongs to the node and that was not reserved before. -/
  inside : ∀ g ∈ w.grants, ∀ x, g.ret ≤ x → x < g.ret + g.size → ∃ i, x / 4096 = nd.startPfn + i ∧
    nd.startPfn + i < nd.lowPfn ∧ i ∈ w.ram ∧ i ∉ g.reserved

theorem World.Inv.sound (h : w.Inv nd) : Sound nd w := by
  refine ⟨h.apart.imp_of_mem fun {g g'} hg hg' hapart ↦ ?_, fun g hg ↦ (h.grant g hg).2.1,
    fun g hg x hx hx' ↦ ?_⟩
  · obtain ⟨⟨hlo, hpos⟩, -, -⟩ := h.grant g hg
    obtain ⟨⟨hlo', hpos'⟩, -, -⟩ := h.grant g' hg'
    by_contra hc
    -- overlapping ranges share the later of the two first bytes
    refine hapart (max g.ret g'.ret - nd.bootStart) ⟨?_, ?_⟩ ⟨?_, ?_⟩ <;> omega
  · obtain ⟨⟨hlo, -⟩, -, hbytes⟩ := h.grant g hg
    obtain ⟨hlt, hram, hres⟩ := hbytes (x - nd.bootStart) ⟨by omega, by omega⟩
    refine ⟨(x - nd.bootStart) / 4096, ?_, ?_, hram, hres⟩
    · rw [Node.bootStart] at hlo ⊢
      omega
    · rw [Node.eidx] at hlt
      omega

/-- **What the boot allocator hands out is disjoint, aligned, memory, and not reserved**, in every
run whose callers are careful. -/
theorem bootmem_sound (nd : Node) {w : World} (h : (machine nd).Path (Careful nd) initial w) :
    Sound nd w := by
  suffices hinv : w.Inv nd from hinv.sound
  induction h with
  | refl => exact initial_inv
  | step _ hl hP he ih => exact ih.step hl hP he

/-- The first 64 kilobytes. -/
def lowNode : Node := ⟨0, 16, by decide, by decide⟩

/-- Two ways not to be careful: a size that wraps when it is rounded up to pages, and reserving the
page in which the last allocation ended. -/
theorem bootmem_careless :
    (∃ w, (machine lowNode).Path (fun _ _ ↦ True) initial w ∧
      w.grants = [⟨0, 0xfffff001, 1, []⟩] ∧ ¬ Sound lowNode w) ∧
    ∃ w, (machine lowNode).Path (fun _ _ ↦ True) initial w ∧
      w.grants = [⟨100, 100, 4, [0]⟩, ⟨0, 100, 4, []⟩] ∧ ¬ Sound lowNode w := by
  have hwrap : (machine lowNode).trace initial [.freeBootmemCore 0 0x10000,
      .allocBootmemCore 0xfffff001 1 0] = some _ := rfl
  have htwice : (machine lowNode).trace initial [.freeBootmemCore 0 0x10000,
      .allocBootmemCore 100 4 0, .reserveBootmemCore 0 4096, .allocBootmemCore 100 4 0] =
      some _ := rfl
  refine ⟨⟨_, .of_trace (fun _ _ _ ↦ trivial) hwrap, rfl, fun h ↦ ?_⟩,
    _, .of_trace (fun _ _ _ ↦ trivial) htwice, rfl, fun h ↦ ?_⟩
  · obtain ⟨i, hi, hlt, -, -⟩ := h.inside _ mem_cons_self 0x10000 (by decide) (by decide)
    rw [← hi] at hlt
    exact absurd hlt (by decide)
  · obtain ⟨i, hi, -, -, hres⟩ := h.inside _ mem_cons_self 100 (by decide) (by decide)
    have hi : i = 0 := (hi.trans (zero_add i)).symm
    exact hres (by rw [hi]; decide)

/-- A careful caller gets two ranges from one page. -/
theorem bootmem_sound_lowNode : ∃ w, (machine lowNode).Path (Careful lowNode) initial w ∧
    w.grants = [⟨100, 100, 4, []⟩, ⟨0, 100, 4, []⟩] ∧ Sound lowNode w := by
  have htrace : (machine lowNode).trace initial [.freeBootmemCore 0 0x10000,
      .allocBootmemCore 100 4 0, .allocBootmemCore 100 4 0] = some _ := rfl
  have hpath := Machine.Path.of_trace (P := Careful lowNode) (fun s a ha ↦ ?_) htrace
  · exact ⟨_, hpath, rfl, bootmem_sound lowNode hpath⟩
  · simp only [mem_cons, not_mem_nil, or_false] at ha
    rcases ha with rfl | rfl | rfl
    · exact trivial
    · exact (by decide : 100 + 4095 < 4294967296)
    · exact (by decide : 100 + 4095 < 4294967296)

end Linux24.Boot
