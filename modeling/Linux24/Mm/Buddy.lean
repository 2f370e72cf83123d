import Linux24.Lib.Blocks
import Linux24.Mm.PageAlloc

/-!
# The invariant of the buddy allocator

The allocator keeps one bit per pair of buddies, and believes it.  What makes that right is
`BitsOk`: the bit of a pair is the exclusive or of "this one is on the free list" and "the other one
is", at every order but the last.  Together with `Exclusive` — never both — a set bit and a block in
hand mean that the buddy is on the list, which is what the merge loop concludes from it.

`ZoneInv z s rest` is the whole invariant.  It counts, for every page `q`, the listed blocks that
contain `q` and what `rest` says about blocks that are somewhere else: handed out, parked, or in the
hands of a loop that is in the middle of splitting or merging.  The count is never more than one,
and it is zero outside of the zone.  Because the count is a sum, every step of the code is
bookkeeping:

* listing the block in hand moves its indicator from `rest` to the lists (`ZoneInv.listAdd`);
* unlinking a block moves it back (`ZoneInv.listDel`);
* splitting and merging rewrite `rest` with `Blocks.ind_add_ind_buddy` (`ZoneInv.congr`).

Each of the three loops then has one specification, proved by induction along the loop:
`freeLoop_spec`, `expand_spec` and `rmqueueLoop_spec`.
-/

set_option autoImplicit false

open Blocks

namespace Linux24.PageAlloc

open List Function

/-! ## Sums over the free lists -/

/-- The sum of a weight over all listed blocks. -/
def total (f : ℕ → ℕ → ℕ) (fl : ℕ → List ℕ) : ℕ :=
  ∑ o ∈ Finset.range maxOrder, ((fl o).map (f o)).sum

/-- How many listed blocks contain `q`. -/
def count (fl : ℕ → List ℕ) (q : ℕ) : ℕ := total (fun o p ↦ ind p o q) fl

/-- How many pages are listed. -/
def listedPages (fl : ℕ → List ℕ) : ℕ := total (fun o _ ↦ 2 ^ o) fl

variable {o p a x : ℕ} {fl : ℕ → List ℕ}

theorem total_update (f : ℕ → ℕ → ℕ) (fl : ℕ → List ℕ) (ho : o < maxOrder) (l : List ℕ) :
    total f (update fl o l) + ((fl o).map (f o)).sum = total f fl + (l.map (f o)).sum := by
  have hmem : o ∈ Finset.range maxOrder := Finset.mem_range.2 ho
  rw [total, total, ← Finset.add_sum_erase _ _ hmem, ← Finset.add_sum_erase _ _ hmem]
  have hrest : ∑ o' ∈ (Finset.range maxOrder).erase o, ((update fl o l o').map (f o')).sum =
      ∑ o' ∈ (Finset.range maxOrder).erase o, ((fl o').map (f o')).sum :=
    Finset.sum_congr rfl fun o' ho' ↦ by
      rw [update_of_ne (Finset.ne_of_mem_erase ho')]
  rw [update_self]
  omega

theorem total_listAdd (f : ℕ → ℕ → ℕ) (s : State) (ho : o < maxOrder) (p : ℕ) :
    total f (s.listAdd o p).freeList = total f s.freeList + f o p := by
  have h := total_update f s.freeList ho (p :: s.freeList o)
  rw [map_cons, sum_cons] at h
  change total f (update s.freeList o (p :: s.freeList o)) = _
  omega

theorem sum_le_total (f : ℕ → ℕ → ℕ) (ho : o < maxOrder) : ((fl o).map (f o)).sum ≤ total f fl :=
  Finset.single_le_sum (f := fun o ↦ ((fl o).map (f o)).sum) (fun _ _ ↦ zero_le)
    (Finset.mem_range.2 ho)

theorem le_total {f : ℕ → ℕ → ℕ} (ho : o < maxOrder) (hp : p ∈ fl o) : f o p ≤ total f fl :=
  (single_le_sum (by simp) _ (mem_map_of_mem hp)).trans (sum_le_total f ho)

/-- Two different entries are both counted. -/
theorem add_le_total {f : ℕ → ℕ → ℕ} {o' p' : ℕ} (ho : o < maxOrder)
    (ho' : o' < maxOrder) (hp : p ∈ fl o) (hp' : p' ∈ fl o') (hne : ¬ (o = o' ∧ p = p')) :
    f o p + f o' p' ≤ total f fl := by
  have h := total_update f fl ho ((fl o).erase p)
  have hperm := ((perm_cons_erase hp).map (f o)).sum_eq
  rw [map_cons, sum_cons] at hperm
  have hp'' : p' ∈ update fl o ((fl o).erase p) o' := by
    by_cases hoo : o' = o
    · subst hoo
      rw [update_self]
      exact (mem_erase_of_ne fun h ↦ hne ⟨rfl, h.symm⟩).2 hp'
    · rwa [update_of_ne hoo]
  have := le_total (f := f) ho' hp''
  omega

theorem nodup_of_total_le (ho : o < maxOrder)
    (h : ∀ p ∈ fl o, ∃ g : ℕ → ℕ → ℕ, total g fl ≤ 1 ∧ g o p = 1) : (fl o).Nodup := by
  rw [nodup_iff_count_le_one]
  intro p
  by_contra hc
  have hp : p ∈ fl o := count_pos_iff.1 (by omega)
  obtain ⟨g, hg, hgp⟩ := h p hp
  have h1 : ((fl o).map (g o)).sum ≤ total g fl := sum_le_total g ho
  have hperm := ((perm_cons_erase hp).map (g o)).sum_eq
  have hp' : p ∈ (fl o).erase p := count_pos_iff.1 (by rw [count_erase_self]; omega)
  have h2 : g o p ≤ (((fl o).erase p).map (g o)).sum :=
    single_le_sum (by simp) _ (mem_map_of_mem hp')
  rw [map_cons, sum_cons] at hperm
  omega

/-! ## The bits -/

/-- The bit of a pair is the exclusive or of the two list memberships. -/
def BitsOk (fl : ℕ → List ℕ) (map : ℕ → ℕ → Bool) : Prop :=
  ∀ o < maxOrder - 1, ∀ p, 2 ^ o ∣ p →
    map o (p / 2 ^ (1 + o)) = (decide (p ∈ fl o) ^^ decide (p ^^^ 2 ^ o ∈ fl o))

/-- No two buddies are on the same list. -/
def Exclusive (fl : ℕ → List ℕ) : Prop :=
  ∀ o < maxOrder - 1, ∀ p, p ∈ fl o → p ^^^ 2 ^ o ∉ fl o

/-- `map` with the bit of order `a` at `k` flipped. -/
def toggle (map : ℕ → ℕ → Bool) (a k : ℕ) : ℕ → ℕ → Bool :=
  update map a (update (map a) k !map a k)

theorem toggle_self (map : ℕ → ℕ → Bool) (a k : ℕ) : toggle map a k a k = !map a k := by
  rw [toggle, update_self, update_self]

theorem toggle_of_ne (map : ℕ → ℕ → Bool) {k j : ℕ} (h : ¬ (o = a ∧ j = k)) :
    toggle map a k o j = map o j := by
  rw [toggle]
  by_cases ho : o = a
  · subst ho
    rw [update_self, update_of_ne fun hj ↦ h ⟨rfl, hj⟩]
  · rw [update_of_ne ho]

theorem pair_eq_iff (hp : 2 ^ a ∣ p) (hx : 2 ^ a ∣ x) :
    p / 2 ^ (1 + a) = x / 2 ^ (1 + a) ↔ p = x ∨ p = x ^^^ 2 ^ a := by
  rw [add_comm 1 a, div_two_pow_succ, div_two_pow_succ, half_eq_half_iff, ← xor_two_pow_div,
    Nat.div_left_inj hp hx, Nat.div_left_inj hp (dvd_xor_two_pow hx)]

/-- **The bits follow the lists.**  When exactly one block enters or leaves a list and the bit of
its pair is flipped, the bits stay right.  Every list operation of the allocator below the last
order is of this form. -/
theorem BitsOk.toggle {fl' : ℕ → List ℕ} {map : ℕ → ℕ → Bool} (h : BitsOk fl map) (hx : 2 ^ a ∣ x)
    (hmem : ∀ o < maxOrder - 1, ∀ p,
      p ∈ fl' o ↔ if o = a ∧ p = x then p ∉ fl o else p ∈ fl o) :
    BitsOk fl' (toggle map a (x / 2 ^ (1 + a))) := by
  intro o ho p hp
  by_cases hoa : o = a
  · subst hoa
    by_cases hpx : p = x
    · subst hpx
      rw [toggle_self, h o ho p hp]
      by_cases p ∈ fl o <;> by_cases p ^^^ 2 ^ o ∈ fl o <;> simp [*]
    · by_cases hpb : p = x ^^^ 2 ^ o
      · rw [(pair_eq_iff hp hx).2 (.inr hpb), toggle_self, ← (pair_eq_iff hp hx).2 (.inr hpb),
          h o ho p hp]
        by_cases p ∈ fl o <;> by_cases x ∈ fl o <;> simp [*]
      · have hbx : p ^^^ 2 ^ o ≠ x := fun hb ↦ hpb (by rw [← hb, xor_two_pow_xor])
        rw [toggle_of_ne _ fun hc ↦ ((pair_eq_iff hp hx).1 hc.2).elim hpx hpb, h o ho p hp]
        simp only [hmem o ho, true_and, hpx, hbx, if_false]
  · rw [toggle_of_ne _ fun hc ↦ hoa hc.1, h o ho p hp]
    simp only [hmem o ho, hoa, false_and, if_false]

/-! ## The primitive operations -/

theorem Zone.size_lt (z : Zone) : z.size < 4294967296 := by
  have h1 := z.le_maxMapnr
  have h2 := z.maxMapnr_lt
  omega

variable {z : Zone}

theorem badRange_of_lt (h : p < z.size) : badRange z p = false := by
  simp only [badRange, Bool.or_eq_false_iff, decide_eq_false_iff_not, Bool.not_eq_false']
  exact ⟨⟨by omega, by omega⟩, z.pageZone_of_mem _ (by omega) (by omega)⟩

/-- The bitmap `free_area_init_core` allocates is long enough for every page of the zone. -/
theorem index_lt_bitmapSize (ha : a < maxOrder - 1) (hp : p < z.size) :
    p / 2 ^ (1 + a) < 8 * bitmapSize z a := by
  have h1 : p / 2 ^ (1 + a) ≤ (z.size - 1) / 2 ^ (1 + a) := Nat.div_le_div_right (by omega)
  have h2 : (z.size - 1) / 2 ^ (a + 4) = (z.size - 1) / 2 ^ (1 + a) / 8 := by
    rw [Nat.div_div_eq_div_mul, show a + 4 = 1 + a + 3 by omega, pow_add]
    norm_num
  rw [bitmapSize, if_neg (by omega), longAlign]
  omega

namespace State

/-- The state with the bit of order `a` at `k` flipped. -/
def flip (s : State) (a k : ℕ) : State := { s with map := toggle s.map a k }

/-- The state with `x` taken off every list. -/
def unlink (s : State) (x : ℕ) : State := { s with freeList := fun o ↦ (s.freeList o).erase x }

variable {a : ℕ}

theorem changeBit_eq {z : Zone} {p : ℕ} (s : State) (ha : a < maxOrder - 1) (hp : p < z.size) :
    s.changeBit z a (p / 2 ^ (1 + a)) = .ok (s.flip a (p / 2 ^ (1 + a))) := by
  rw [changeBit, if_pos (index_lt_bitmapSize ha hp)]
  rfl

theorem listDel_eq {s : State} {x : ℕ} (ha : a < maxOrder) (hx : x ∈ s.freeList a) :
    s.listDel x = .ok (s.unlink x) := by
  rw [listDel, if_pos ⟨a, ha, hx⟩]
  rfl

theorem mem_listAdd {s : State} {x o p : ℕ} :
    p ∈ (s.listAdd a x).freeList o ↔ (o = a ∧ p = x) ∨ p ∈ s.freeList o := by
  change p ∈ update s.freeList a (x :: s.freeList a) o ↔ _
  by_cases h : o = a
  · subst h; simp
  · simp [h]

end State

/-! ## The invariant -/

/-- The invariant of a zone.  `rest q` counts the blocks around `q` that are not on a free list. -/
structure ZoneInv (z : Zone) (s : State) (rest : ℕ → ℕ) : Prop where
  /-- Listed blocks are aligned. -/
  aligned : ∀ o < maxOrder, ∀ p ∈ s.freeList o, 2 ^ o ∣ p
  /-- No page is in two blocks. -/
  tight : ∀ q, count s.freeList q + rest q ≤ 1
  /-- No block reaches out of the zone. -/
  inZone : ∀ q, z.size ≤ q → count s.freeList q + rest q = 0
  /-- The bits say what is listed. -/
  bits : BitsOk s.freeList s.map
  /-- Buddies are merged. -/
  exclusive : Exclusive s.freeList

namespace ZoneInv

variable {z : Zone} {s : State} {rest : ℕ → ℕ}

section Zone

variable (h : ZoneInv z s rest)
include h

theorem congr {rest' : ℕ → ℕ} (hr : ∀ q, rest' q = rest q) :
    ZoneInv z s rest' := by
  rwa [show rest' = rest from funext hr]

variable {q o p x : ℕ}

theorem lt_size (hq : 0 < rest q) : q < z.size := by
  by_contra hc
  have := h.inZone q (by omega)
  omega

theorem lt_size_of_mem (ho : o < maxOrder) (hp : p ∈ s.freeList o) : p < z.size := by
  by_contra hc
  have h0 := h.inZone p (by omega)
  have h1 : ind p o p ≤ count s.freeList p := le_total (f := fun o p' ↦ ind p' o p) ho hp
  rw [ind_self] at h1
  omega

/-- A page that is accounted for in `rest` is in no listed block. -/
theorem not_covers_of_mem (ho : o < maxOrder)
    (hp : p ∈ s.freeList o) (hq : 0 < rest q) : ¬ Covers p o q := by
  intro hc
  have h1 : ind p o q ≤ count s.freeList q := le_total (f := fun o p' ↦ ind p' o q) ho hp
  rw [ind_eq_one hc] at h1
  have := h.tight q
  omega

theorem notMem_of_rest (ho : o < maxOrder) (hq : 0 < rest q) :
    q ∉ s.freeList o :=
  fun hp ↦ h.not_covers_of_mem ho hp hq (covers_self q o)

theorem nodup (ho : o < maxOrder) : (s.freeList o).Nodup :=
  nodup_of_total_le ho fun p _ ↦ ⟨fun o p' ↦ ind p' o p, by
    have := h.tight p
    rw [count] at this
    omega, ind_self p o⟩

/-- A page is the start of at most one listed block. -/
theorem order_unique {o' : ℕ} (ho : o < maxOrder) (ho' : o' < maxOrder)
    (hp : p ∈ s.freeList o) (hp' : p ∈ s.freeList o') : o = o' := by
  by_contra hne
  have h1 : ind p o p + ind p o' p ≤ count s.freeList p :=
    add_le_total (f := fun o p' ↦ ind p' o p) ho ho' hp hp' fun hc ↦ hne hc.1
  have := h.tight p
  rw [ind_self, ind_self] at h1
  omega

theorem mem_unlink (ho : o < maxOrder) :
    p ∈ (s.unlink x).freeList o ↔ p ∈ s.freeList o ∧ p ≠ x :=
  (h.nodup ho).mem_erase_iff.trans and_comm

/-- Only one of the lists changes when a block is unlinked. -/
theorem total_unlink (f : ℕ → ℕ → ℕ) {a : ℕ} (ha : a < maxOrder)
    (hx : x ∈ s.freeList a) : total f (s.unlink x).freeList + f a x = total f s.freeList := by
  have heq : total f (s.unlink x).freeList =
      total f (update s.freeList a ((s.freeList a).erase x)) := by
    refine Finset.sum_congr rfl fun o ho ↦ ?_
    rw [Finset.mem_range] at ho
    by_cases hoa : o = a
    · subst hoa; rw [update_self]; rfl
    · rw [update_of_ne hoa]
      change (((s.freeList o).erase x).map _).sum = _
      rw [erase_of_not_mem fun hc ↦ hoa (h.order_unique ho ha hc hx)]
  have h1 := total_update f s.freeList ha ((s.freeList a).erase x)
  have h2 := ((perm_cons_erase hx).map (f a)).sum_eq
  rw [map_cons, sum_cons] at h2
  omega

/-- Taking `x` off its list, with its bit flipped below the last order. -/
theorem unlink {a : ℕ} (ha : a < maxOrder) (hx : x ∈ s.freeList a) {m : ℕ → ℕ → Bool}
    (hm : m = if a < maxOrder - 1 then toggle s.map a (x / 2 ^ (1 + a)) else s.map) :
    ZoneInv z { s.unlink x with map := m } fun q ↦ ind x a q + rest q := by
  have hcount : ∀ q, count (s.unlink x).freeList q + ind x a q = count s.freeList q :=
    fun q ↦ h.total_unlink (fun o p ↦ ind p o q) ha hx
  refine ⟨fun o ho p hp ↦ h.aligned o ho p ((h.mem_unlink ho).1 hp).1, fun q ↦ ?_, fun q hq ↦ ?_,
    ?_, fun o ho p hp hb ↦ ?_⟩
  · have h1 := h.tight q
    have h2 := hcount q
    change count (s.unlink x).freeList q + _ ≤ 1
    omega
  · have h1 := h.inZone q hq
    have h2 := hcount q
    change count (s.unlink x).freeList q + _ = 0
    omega
  · subst hm
    split
    · refine h.bits.toggle (h.aligned a ha x hx) fun o ho p ↦ ?_
      rw [h.mem_unlink (by omega)]
      by_cases hc : o = a ∧ p = x
      · simp [hc, hx]
      · rw [if_neg hc, and_iff_left_iff_imp]
        exact fun hp hpx ↦ hc ⟨h.order_unique (by omega) ha hp (hpx ▸ hx), hpx⟩
    · intro o ho p hp
      have hmem : ∀ p, p ∈ (s.unlink x).freeList o ↔ p ∈ s.freeList o := fun p ↦ by
        rw [h.mem_unlink (by omega), and_iff_left_iff_imp]
        exact fun hp hpx ↦ absurd (h.order_unique (by omega) ha hp (hpx ▸ hx)) (by omega)
      simp only [hmem]
      exact h.bits o ho p hp
  · exact h.exclusive o ho p ((h.mem_unlink (by omega)).1 hp).1
      ((h.mem_unlink (by omega)).1 hb).1

end Zone

/-- Putting the block in hand on its list, with its bit flipped below the last order. -/
theorem link {a x : ℕ} (h : ZoneInv z s fun q ↦ ind x a q + rest q) (ha : a < maxOrder)
    (hx : 2 ^ a ∣ x) (hb : a < maxOrder - 1 → x ^^^ 2 ^ a ∉ s.freeList a) {m : ℕ → ℕ → Bool}
    (hm : m = if a < maxOrder - 1 then toggle s.map a (x / 2 ^ (1 + a)) else s.map) :
    ZoneInv z { s.listAdd a x with map := m } rest := by
  have hcount : ∀ q, count (s.listAdd a x).freeList q = count s.freeList q + ind x a q :=
    fun q ↦ total_listAdd (fun o p ↦ ind p o q) s ha x
  have hxl : x ∉ s.freeList a := h.notMem_of_rest ha (by rw [ind_self]; omega)
  refine ⟨fun o ho p hp ↦ ?_, fun q ↦ ?_, fun q hq ↦ ?_, ?_, fun o ho p hp hb' ↦ ?_⟩
  · rcases State.mem_listAdd.1 hp with ⟨rfl, rfl⟩ | hp
    · exact hx
    · exact h.aligned o ho p hp
  · have h1 := h.tight q
    have h2 := hcount q
    change count (s.listAdd a x).freeList q + _ ≤ 1
    omega
  · have h1 := h.inZone q hq
    have h2 := hcount q
    change count (s.listAdd a x).freeList q + _ = 0
    omega
  · subst hm
    split
    · refine h.bits.toggle hx fun o ho p ↦ ?_
      rw [State.mem_listAdd]
      by_cases hc : o = a ∧ p = x
      · obtain ⟨rfl, rfl⟩ := hc
        simp [hxl]
      · simp [hc]
    · intro o ho p hp
      have hmem : ∀ p, p ∈ (s.listAdd a x).freeList o ↔ p ∈ s.freeList o := fun p ↦ by
        rw [State.mem_listAdd, or_iff_right_iff_imp]
        exact fun hc ↦ absurd hc.1 (by omega)
      simp only [hmem]
      exact h.bits o ho p hp
  · rcases State.mem_listAdd.1 hp with ⟨rfl, rfl⟩ | hp
    · rcases State.mem_listAdd.1 hb' with ⟨-, hc⟩ | hb'
      · exact not_covers_buddy p o (by rw [hc]; rfl)
      · exact hb ho hb'
    · rcases State.mem_listAdd.1 hb' with ⟨rfl, rfl⟩ | hb'
      · exact hb ho (by rwa [xor_two_pow_xor])
      · exact h.exclusive o ho p hp hb'

end ZoneInv

/-! ## The merge loop

`mask` is `~0 << area` throughout, written `4294967296 - 2 ^ area` below. -/

theorem mask_eq : ∀ o < maxOrder, shl32 4294967295 o = 4294967296 - 2 ^ o := by decide

theorem not_mask : ∀ o < maxOrder, not32 (4294967296 - 2 ^ o) = 2 ^ o - 1 := by decide

theorem neg_mask : ∀ o < maxOrder, neg32 (4294967296 - 2 ^ o) = 2 ^ o := by decide

theorem shl_mask : ∀ o < maxOrder, shl32 (4294967296 - 2 ^ o) 1 = 4294967296 - 2 ^ (o + 1) := by
  decide

/-- The loop condition fails at the last order only. -/
theorem mask_add_eq_zero :
    ∀ o < maxOrder, add32 (4294967296 - 2 ^ o) (2 ^ (maxOrder - 1)) = 0 ↔ o = maxOrder - 1 := by
  decide

theorem free_pages_sub_mask {n : ℕ} :
    ∀ o < maxOrder, n + 2 ^ o < 4294967296 → sub32 n (4294967296 - 2 ^ o) = n + 2 ^ o := by
  intro o ho hn
  have h2 : 0 < 2 ^ o := Nat.two_pow_pos o
  rw [sub32]
  omega

/-- The effect on the lists of giving the block `(p, o)` to the zone. -/
structure Gained (s s' : State) (p o : ℕ) : Prop where
  /-- The block's pages are listed now, and nothing else has changed. -/
  count : ∀ q, count s'.freeList q = count s.freeList q + ind p o q
  /-- As many pages more are listed as the block has. -/
  pages : listedPages s'.freeList = listedPages s.freeList + 2 ^ o
  /-- The counter is the caller's business. -/
  freePages : s'.freePages = s.freePages
  /-- So are the parked blocks. -/
  localPages : s'.localPages = s.localPages

theorem gained_link (s : State) (ha : a < maxOrder) (m : ℕ → ℕ → Bool) :
    Gained s { s.listAdd a x with map := m } x a :=
  ⟨fun q ↦ total_listAdd (fun o p ↦ ind p o q) s ha x, total_listAdd (fun o _ ↦ 2 ^ o) s ha x,
    rfl, rfl⟩

/-- **The merge loop** gives the block in hand to the zone: it does not fault, and the invariant
holds again without the block in hand. -/
theorem freeLoop_spec (left : ℕ) :
    ∀ {area mask x : ℕ} {s : State} {rest : ℕ → ℕ}, left = maxOrder - area → area < maxOrder →
      mask = 4294967296 - 2 ^ area → 2 ^ area ∣ x →
      (ZoneInv z s fun q ↦ ind x area q + rest q) →
      ∃ s', freeLoop z left area mask (x / 2 ^ (1 + area)) x s = .ok s' ∧
        ZoneInv z s' rest ∧ Gained s s' x area := by
  induction left with
  | zero => intro area mask x s rest hl ha; omega
  | succ left ih =>
    intro area mask x s rest hl ha hmask hx h
    have hcond := mask_add_eq_zero area ha
    have hneg := neg_mask area ha
    have hshl := shl_mask area ha
    rw [← hmask] at hcond hneg hshl
    rw [freeLoop]
    have hxz : x < z.size := h.lt_size (by rw [ind_self]; omega)
    by_cases htop : area = maxOrder - 1
    · -- the last order has no bitmap: the block is listed as it is
      rw [if_pos (hcond.2 htop)]
      refine ⟨_, rfl, ?_, gained_link s ha s.map⟩
      exact h.link ha hx (fun hc ↦ absurd htop (by omega)) (by rw [if_neg (by omega)])
    · have ha' : area < maxOrder - 1 := by omega
      have hxl : x ∉ s.freeList area := h.notMem_of_rest ha (by rw [ind_self]; omega)
      have hbit := h.bits area ha' x hx
      simp only [decide_eq_false hxl, Bool.false_bne] at hbit
      rw [if_neg fun hc ↦ htop (hcond.1 hc), State.changeBit_eq s ha' hxz]
      by_cases hb : x ^^^ 2 ^ area ∈ s.freeList area
      · -- the buddy is free: take it off its list and go on with the pair
        have hbz : x ^^^ 2 ^ area < z.size := h.lt_size_of_mem ha hb
        have hpair : (x ^^^ 2 ^ area) / 2 ^ (1 + area) = x / 2 ^ (1 + area) :=
          (pair_eq_iff (dvd_xor_two_pow hx) hx).2 (.inr rfl)
        have hxlt : x < 4294967296 := hxz.trans z.size_lt
        have hdel : (s.flip area (x / 2 ^ (1 + area))).listDel (x ^^^ 2 ^ area) =
            .ok ((s.flip area (x / 2 ^ (1 + area))).unlink (x ^^^ 2 ^ area)) :=
          State.listDel_eq ha hb
        simp only [hbit, decide_eq_true hb,
          hneg, badRange_of_lt hbz, badRange_of_lt hxz, hshl, hdel, Except.bind,
          and_mask hxlt (show area + 1 ≤ 32 by rw [maxOrder] at ha; omega)]
        set x' := x / 2 ^ (area + 1) * 2 ^ (area + 1) with hx'
        have hcov : Covers x (area + 1) x' := by
          rw [Covers, Nat.mul_div_cancel _ (Nat.two_pow_pos _)]
        have hinv := h.unlink ha hb
          (by rw [if_pos ha', hpair])
        have hind : ∀ q, ind x' (area + 1) q = ind (x ^^^ 2 ^ area) area q + ind x area q :=
          fun q ↦ by rw [ind_congr hcov, ← ind_add_ind_buddy, add_comm]
        have hidx : x / 2 ^ (1 + area) / 2 = x' / 2 ^ (1 + (area + 1)) := by
          rw [add_comm 1 area, add_comm 1 (area + 1), div_two_pow_succ _ (area + 1),
            Nat.mul_div_cancel _ (Nat.two_pow_pos _)]
        rw [hidx]
        have hinv₁ : ZoneInv z _ fun q ↦ ind x' (area + 1) q + rest q :=
          hinv.congr fun q ↦ by rw [hind, add_assoc]
        have hdvd : 2 ^ (area + 1) ∣ x' := dvd_mul_left _ _
        obtain ⟨s', hs', hinv', hg⟩ := ih (by omega) (by omega) rfl hdvd hinv₁
        refine ⟨s', hs', hinv', fun q ↦ ?_, ?_, hg.freePages, hg.localPages⟩
        · have h1 := hg.count q
          have h2 := h.total_unlink (fun o p ↦ ind p o q) ha hb
          have h3 := hind q
          change count s'.freeList q = count (s.unlink _).freeList q + _ at h1
          change count (s.unlink _).freeList q + _ = count s.freeList q at h2
          omega
        · have h1 := hg.pages
          have h2 := h.total_unlink (fun o _ ↦ 2 ^ o) ha hb
          change listedPages s'.freeList = listedPages (s.unlink _).freeList + _ at h1
          change listedPages (s.unlink _).freeList + _ = listedPages s.freeList at h2
          omega
      · -- the buddy is still allocated
        simp only [hbit, decide_eq_false hb]
        refine ⟨_, rfl, ?_, gained_link s ha (toggle s.map area (x / 2 ^ (1 + area)))⟩
        exact h.link ha hx (fun _ ↦ hb) (m := toggle s.map area (x / 2 ^ (1 + area)))
          (by rw [if_pos ha'])

/-! ## Counting pages -/

variable {s : State} {rest : ℕ → ℕ}

theorem ZoneInv.block_le_size (h : ZoneInv z s rest)
    (ho : o < maxOrder) (hp : p ∈ s.freeList o) : p + 2 ^ o ≤ z.size := by
  by_contra hc
  have hpos : 0 < 2 ^ o := Nat.two_pow_pos o
  -- the last page of the block would be outside
  obtain ⟨q, hq⟩ : ∃ q, q + 1 = p + 2 ^ o := ⟨p + 2 ^ o - 1, by omega⟩
  have hcov : Covers p o q := (covers_iff_of_dvd (h.aligned o ho p hp)).2 ⟨by omega, by omega⟩
  have h1 : ind p o q ≤ count s.freeList q := le_total (f := fun o p' ↦ ind p' o q) ho hp
  have h2 := h.inZone q (by omega)
  rw [ind_eq_one hcov] at h1
  omega

theorem sum_list_map {α : Type*} (n : ℕ) (g : α → ℕ → ℕ) (l : List α) :
    ∑ q ∈ Finset.range n, (l.map fun p ↦ g p q).sum =
      (l.map fun p ↦ ∑ q ∈ Finset.range n, g p q).sum := by
  induction l with
  | nil => simp
  | cons p l ih => simp [Finset.sum_add_distrib, ih]

/-- Summing `count` over the zone counts every listed page once. -/
theorem ZoneInv.sum_count (h : ZoneInv z s rest) :
    ∑ q ∈ Finset.range z.size, count s.freeList q = listedPages s.freeList := by
  simp only [count, total, listedPages]
  rw [Finset.sum_comm]
  refine Finset.sum_congr rfl fun o ho ↦ ?_
  rw [sum_list_map]
  refine congrArg sum (map_congr_left fun p hp ↦ ?_)
  rw [Finset.mem_range] at ho
  exact sum_ind (h.aligned o ho p hp) (h.block_le_size ho hp)

theorem ZoneInv.listedPages_le (h : ZoneInv z s rest) :
    listedPages s.freeList ≤ z.size := by
  have h1 : ∑ q ∈ Finset.range z.size, count s.freeList q ≤ ∑ _q ∈ Finset.range z.size, 1 :=
    Finset.sum_le_sum fun q _ ↦ by have := h.tight q; omega
  rwa [h.sum_count, Finset.sum_const, Finset.card_range, smul_eq_mul, mul_one] at h1

/-! ## Freeing and allocating -/

/-- The counter says how many pages are listed. -/
def CounterOk (s : State) : Prop := s.freePages = listedPages s.freeList

/-- **Giving a block back**: no fault, and the invariant and the counter hold again. -/
theorem freeToZone_spec (ho : o < maxOrder)
    (hx : 2 ^ o ∣ x) (h : ZoneInv z s fun q ↦ ind x o q + rest q) (hc : CounterOk s) :
    ∃ s', freeToZone z x o s = .ok s' ∧ ZoneInv z s' rest ∧ CounterOk s' ∧
      (∀ q, count s'.freeList q = count s.freeList q + ind x o q) ∧
      s'.localPages = s.localPages := by
  have hmis : x &&& (2 ^ o - 1) = 0 := by
    rw [Nat.and_two_pow_sub_one_eq_mod]; exact Nat.mod_eq_zero_of_dvd hx
  simp only [freeToZone, mask_eq o ho, not_mask o ho, hmis]
  obtain ⟨s', hs', hinv, hg⟩ := freeLoop_spec (maxOrder - o)
    (s := { s with freePages := sub32 s.freePages (4294967296 - 2 ^ o) }) rfl ho rfl hx
    ⟨h.aligned, h.tight, h.inZone, h.bits, h.exclusive⟩
  refine ⟨s', hs', hinv, ?_, hg.count, hg.localPages⟩
  have h1 := hg.pages
  have h2 := hinv.listedPages_le
  have h3 := z.size_lt
  have h4 := hg.freePages
  change listedPages s'.freeList = listedPages s.freeList + _ at h1
  rw [CounterOk] at hc ⊢
  rw [h4, hc, free_pages_sub_mask o ho (by omega), h1]

/-- **Splitting**: the block in hand shrinks from order `high` to order `low`, and what it loses is
listed. -/
theorem expand_spec {low : ℕ} (high : ℕ) :
    ∀ {x : ℕ} {s : State} {rest : ℕ → ℕ}, low ≤ high → high < maxOrder → 2 ^ high ∣ x →
      (ZoneInv z s fun q ↦ ind x high q + rest q) →
      ∃ y s', expand z low high (2 ^ high) x x s = .ok (y, s') ∧ 2 ^ low ∣ y ∧
        (ZoneInv z s' fun q ↦ ind y low q + rest q) ∧
        (∀ q, count s'.freeList q + ind y low q = count s.freeList q + ind x high q) ∧
        listedPages s'.freeList + 2 ^ low = listedPages s.freeList + 2 ^ high ∧
        s'.freePages = s.freePages ∧ s'.localPages = s.localPages := by
  induction high with
  | zero =>
    intro x s rest hl _ hx h
    obtain rfl : low = 0 := by omega
    have hxz : x < z.size := h.lt_size (by rw [ind_self]; omega)
    refine ⟨x, s, ?_, hx, h, fun q ↦ rfl, rfl, rfl, rfl⟩
    simp [expand, badRange_of_lt hxz]
  | succ high ih =>
    intro x s rest hl hh hx h
    have hxz : x < z.size := h.lt_size (by rw [ind_self]; omega)
    have hhigh : high < maxOrder := by omega
    by_cases hlt : low < high + 1
    · -- the lower half is listed and the loop goes on with the upper half
      have hx' : 2 ^ high ∣ x := (pow_dvd_pow 2 (Nat.le_succ high)).trans hx
      have hsize : 2 ^ (high + 1) / 2 = 2 ^ high := by rw [pow_succ]; omega
      have hsplit : ∀ q, ind x high q + (ind (x + 2 ^ high) high q + rest q) =
          ind x (high + 1) q + rest q := fun q ↦ by
        rw [add_two_pow_eq_xor hx, ← ind_add_ind_buddy]; omega
      have hbuddy : x ^^^ 2 ^ high ∉ s.freeList high :=
        h.notMem_of_rest hhigh (by
          rw [ind_eq_one ((covers_succ_iff _ _ _).2 (.inr (covers_self _ _)))]; omega)
      have hmark : markUsed z x high (s.listAdd high x) =
          .ok ((s.listAdd high x).flip high (x / 2 ^ (1 + high))) :=
        State.changeBit_eq _ (by omega) hxz
      have hlink := (h.congr hsplit).link hhigh hx' (fun _ ↦ hbuddy)
        (by rw [if_pos (by omega)])
      obtain ⟨y, s', hs', hy, hinv, hcount, hpages, hfp, hlp⟩ := ih
        (by omega) hhigh ((Nat.dvd_add_right hx').2 dvd_rfl) hlink
      have hg := gained_link s (x := x) hhigh (toggle s.map high (x / 2 ^ (1 + high)))
      refine ⟨y, s', ?_, hy, hinv, fun q ↦ ?_, ?_, hfp, hlp⟩
      · rw [expand, if_pos hlt, badRange_of_lt hxz, hmark, hsize]
        exact hs'
      · have h1 := hcount q
        have h2 := hg.count q
        have h3 := hsplit q
        omega
      · have h2 := hg.pages
        omega
    · obtain rfl : low = high + 1 := by omega
      refine ⟨x, s, ?_, hx, h, fun q ↦ rfl, rfl, rfl, rfl⟩
      simp [expand, badRange_of_lt hxz]

/-- The effect on the lists of taking the block `(y, o)` from the zone. -/
structure Taken (z : Zone) (s s' : State) (rest : ℕ → ℕ) (y o : ℕ) : Prop where
  /-- The block is aligned. -/
  aligned : 2 ^ o ∣ y
  /-- The invariant holds with the block in hand. -/
  inv : ZoneInv z s' fun q ↦ ind y o q + rest q
  /-- The counter is right. -/
  counter : CounterOk s'
  /-- The block's pages are not listed any more, and nothing else has changed. -/
  count : ∀ q, count s'.freeList q + ind y o q = count s.freeList q
  /-- No parked block is touched. -/
  localPages : s'.localPages = s.localPages

/-- **Allocating**: `rmqueue` finds nothing, or takes a block of the right order.  The only way to
stop it is a page whose flags are wrong. -/
theorem rmqueueLoop_spec {order : ℕ} (pg : PageStatus) (left : ℕ) :
    ∀ {currOrder : ℕ} {s : State} {rest : ℕ → ℕ}, left = maxOrder - currOrder →
      order ≤ currOrder → ZoneInv z s rest → CounterOk s →
      rmqueueLoop z pg order left currOrder s = .error .pageStatus ∨
      rmqueueLoop z pg order left currOrder s = .ok (none, s) ∨
      ∃ y s', rmqueueLoop z pg order left currOrder s = .ok (some y, s') ∧
        Taken z s s' rest y order := by
  induction left with
  | zero => intro currOrder s rest _ _ _ _; exact .inr (.inl rfl)
  | succ left ih =>
    intro cur s rest hl ho h hc
    have hcur : cur < maxOrder := by omega
    rw [rmqueueLoop]
    cases hfl : s.freeList cur with
    | nil =>
      exact ih (by omega) (by omega) h hc
    | cons x tl =>
      have hmem : x ∈ s.freeList cur := by rw [hfl]; exact mem_cons_self
      have hx : 2 ^ cur ∣ x := h.aligned cur hcur x hmem
      have hxz := h.lt_size_of_mem hcur hmem
      set m := if cur < maxOrder - 1 then toggle s.map cur (x / 2 ^ (1 + cur)) else s.map with hm
      have hmark : (if cur ≠ maxOrder - 1 then markUsed z x cur (s.unlink x) else .ok (s.unlink x))
          = .ok { s.unlink x with map := m } := by
        split
        · rw [hm, if_pos (by omega)]
          exact State.changeBit_eq _ (by omega) hxz
        · rw [hm, if_neg (by omega)]; rfl
      have hinv := h.unlink hcur hmem hm
      obtain ⟨y, s', hs', hy, hinv', hcount, hpages, hfp, hlp⟩ := expand_spec cur
        (s := { s.unlink x with map := m, freePages := sub32 (s.unlink x).freePages (2 ^ order) })
        ho hcur hx ⟨hinv.aligned, hinv.tight, hinv.inZone, hinv.bits, hinv.exclusive⟩
      have hyz : y < z.size := hinv'.lt_size (by rw [ind_self]; omega)
      simp only [badRange_of_lt hxz, Bool.false_eq_true, if_false, State.listDel_eq hcur hmem,
        Except.bind, hmark, hs', badRange_of_lt hyz]
      split
      · exact .inl rfl
      · refine .inr (.inr ⟨y, s', rfl, hy, hinv', ?_, fun q ↦ ?_, hlp⟩)
        · have h1 := h.total_unlink (fun o _ ↦ 2 ^ o) hcur hmem
          have h2 := h.listedPages_le
          have h3 := z.size_lt
          change listedPages (s.unlink x).freeList + _ = listedPages s.freeList at h1
          change listedPages s'.freeList + _ = listedPages (s.unlink x).freeList + _ at hpages
          change s'.freePages = sub32 s.freePages _ at hfp
          rw [CounterOk] at hc ⊢
          rw [hfp, sub32_of_le (by omega) (by omega)]
          omega
        · have h1 := h.total_unlink (fun o p ↦ ind p o q) hcur hmem
          have h2 := hcount q
          change count (s.unlink x).freeList q + _ = count s.freeList q at h1
          change count s'.freeList q + _ =
            count (s.unlink x).freeList q + _ at h2
          omega

end Linux24.PageAlloc
