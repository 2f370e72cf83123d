import Linux24.Lib.Calls
import Linux24.Net.Ipt

/-!
# The rules of a table

`Start` says where the rules of a blob start, as `IPT_ENTRY_ITERATE` finds them.  They lie one after
the other, so what belongs to one rule does not belong to another one.

The fields `comefrom` and `counters` of the rules change all the time: `mark_source_chains` uses
them for its own purposes, and so does `ipt_do_table`.  The bytes of these fields are `Volatile`,
and `Agree` says that two memories differ in such bytes only.  Then everything else about a rule is
the same in both, provided that its matches and its target are where they belong, behind the fixed
part of the rule and before the next rule.  `Layout` says that of a rule.
-/

set_option autoImplicit false

universe u v w

namespace Linux24.Ipt

open Bytes

/-! ## Where the rules are -/

/-- The offset that `IPT_ENTRY_ITERATE` comes to after so many rules. -/
def orbit (m : Mem) : ℕ → ℕ
  | 0 => 0
  | n + 1 => orbit m n + nextOffset m (orbit m n)

/-- A rule starts at the offset. -/
def Start (m : Mem) (size p : ℕ) : Prop := p < size ∧ ∃ n, orbit m n = p

section Rows

variable {m : Mem} {size p q : ℕ}

theorem orbit_mono (m : Mem) : Monotone (orbit m) :=
  monotone_nat_of_le_succ fun _ ↦ Nat.le_add_right _ _

/-- **Rules do not overlap.** -/
theorem Start.gap (hp : Start m size p) (hq : Start m size q) (h : p < q) :
    p + nextOffset m p ≤ q := by
  obtain ⟨-, n, rfl⟩ := hp
  obtain ⟨-, k, rfl⟩ := hq
  have hnk : n < k := by
    by_contra hc
    exact absurd (orbit_mono m (not_lt.1 hc)) (not_le.2 h)
  exact orbit_mono m (Nat.succ_le_of_lt hnk)

/-- The rules of a blob can be listed. -/
theorem Start.mem_list (h : Start m size p) {n : ℕ} (hn : size ≤ orbit m n) :
    p ∈ (List.range n).map (orbit m) := by
  obtain ⟨hlt, i, rfl⟩ := h
  refine List.mem_map.2 ⟨i, List.mem_range.2 ?_, rfl⟩
  by_contra hc
  exact absurd (hlt.trans_le (hn.trans (orbit_mono m (not_lt.1 hc)))) (lt_irrefl _)

end Rows

/-! ## Bytes that change -/

/-- The byte belongs to `comefrom` or `counters` of a rule. -/
def Volatile (m : Mem) (size x : ℕ) : Prop := ∃ p, Start m size p ∧ p + 92 ≤ x ∧ x < p + 112

/-- The second memory differs from the first one in such bytes only. -/
def Agree (m : Mem) (size : ℕ) (m' : Mem) : Prop := ∀ x, ¬ Volatile m size x → m' x = m x

/-- The target of the rule is behind its fixed part and before the next rule. -/
structure Layout (m : Mem) (size e : ℕ) : Prop where
  inside : e + nextOffset m e ≤ size
  first : sizeofEntry ≤ targetOffset m e
  header : targetOffset m e + sizeofTarget ≤ nextOffset m e
  target : targetOffset m e + elemSize m (getTarget m e) ≤ nextOffset m e

theorem Layout.bounds {m : Mem} {size e : ℕ} (h : Layout m size e) :
    112 ≤ targetOffset m e ∧ targetOffset m e + 32 ≤ nextOffset m e :=
  ⟨h.first, h.header⟩

theorem Layout.le_next {m : Mem} {size e : ℕ} (h : Layout m size e) : 144 ≤ nextOffset m e := by
  obtain ⟨hfirst, hheader⟩ := h.bounds
  omega

theorem Layout.congr {m m' : Mem} {size e : ℕ} (h : Layout m size e)
    (ho : targetOffset m' e = targetOffset m e) (hn : nextOffset m' e = nextOffset m e)
    (hsize : elemSize m' (getTarget m e) = elemSize m (getTarget m e)) : Layout m' size e := by
  have ht : getTarget m' e = getTarget m e := congrArg (e + ·) ho
  refine ⟨?_, ?_, ?_, ?_⟩
  · exact hn.symm ▸ h.inside
  · exact ho.symm ▸ h.first
  · rw [ho, hn]
    exact h.header
  · rw [ho, hn, ht, hsize]
    exact h.target

theorem unconditional_congr {m m' : Mem} {e : ℕ} (h : ∀ i < 84, m' (e + i) = m (e + i)) :
    unconditional m' e = unconditional m e := by
  unfold unconditional
  refine Bool.eq_iff_iff.2 ?_
  simp only [List.all_eq_true, List.mem_range, decide_eq_true_eq]
  refine forall_congr' fun i ↦ forall_congr' fun hi ↦ ?_
  rw [h i hi]

section Agreement

variable {m m' : Mem} {size e x : ℕ}

theorem Agree.refl (m : Mem) (size : ℕ) : Agree m size m := fun _ _ ↦ rfl

/-- A store to one of the fields that change. -/
theorem Agree.store (h : Agree m size m') (he : Start m size e) {a n v : ℕ} (ha : e + 92 ≤ a)
    (hn : a + n ≤ e + 112) : Agree m size (store m' a n v) := by
  intro x hx
  rw [store_of_outside, h x hx]
  by_contra hc
  exact hx ⟨e, he, by omega, by omega⟩

/-- All the rules have the layout. -/
def Laid (m : Mem) (size : ℕ) : Prop := ∀ e, Start m size e → Layout m size e

theorem Laid.le_next (h : Laid m size) (he : Start m size e) : 144 ≤ nextOffset m e :=
  (h e he).le_next

/-- What belongs to a rule does not change, its two fields apart. -/
theorem Laid.not_volatile (h : Laid m size) (he : Start m size e) (hx : e ≤ x)
    (hlt : x < e + nextOffset m e) (hfield : x < e + 92 ∨ e + 112 ≤ x) : ¬ Volatile m size x := by
  rintro ⟨p, hp, hge, hlt'⟩
  rcases lt_trichotomy p e with hpe | rfl | hpe
  · have hgap := hp.gap he hpe
    have hnext := h.le_next hp
    omega
  · omega
  · have hgap := he.gap hp hpe
    omega

section Fields

variable {q : ℕ} (h : Laid m size) (he : Start m size e) (hq : Start m size q)
include h he hq

/-- Two rules are the same, or they are far from each other. -/
theorem Laid.apart : q = e ∨ q + 144 ≤ e ∨ e + 144 ≤ q := by
  rcases lt_trichotomy q e with hqe | hqe | hqe
  · exact Or.inr (Or.inl ((Nat.add_le_add_left (h.le_next hq) q).trans (hq.gap he hqe)))
  · exact Or.inl hqe
  · exact Or.inr (Or.inr ((Nat.add_le_add_left (h.le_next he) e).trans (he.gap hq hqe)))

/-- What is written to the counters of a rule cannot be seen in `comefrom` of any. -/
theorem comefrom_store_counters {a n v : ℕ} (ha : e + 96 ≤ a) (hn : a + n ≤ e + 112) :
    comefrom (store m' a n v) q = comefrom m' q := by
  have hapart := h.apart he hq
  exact load_store_of_disjoint (by omega)

/-- What is written to `comefrom` of a rule can be seen there, and nowhere else. -/
theorem comefrom_store_comefrom (v : ℕ) : comefrom (store m' (e + 92) 4 v) q =
      if q = e then v % 2 ^ 32 else comefrom m' q := by
  split
  · rename_i heq
    rw [heq, comefrom, load_store_self, show (256 : ℕ) ^ 4 = 2 ^ 32 by norm_num]
  · have hapart := h.apart he hq
    exact load_store_of_disjoint (by omega)

end Fields

end Agreement

/-! ## The bytes of a rule -/

/-- The rule has the layout in the first memory, and the second memory differs from the first one in
`comefrom` and `counters` of the rule only, as far as the rule goes. -/
structure Same (m : Mem) (size e : ℕ) (m' : Mem) : Prop where
  layout : Layout m size e
  byte : ∀ x, e ≤ x → x < e + nextOffset m e → x < e + 92 ∨ e + 112 ≤ x → m' x = m x

theorem Agree.same {m m' : Mem} {size e : ℕ} (h : Agree m size m') (hl : Laid m size)
    (he : Start m size e) : Same m size e m' :=
  ⟨hl e he, fun x hx hlt hfield ↦ h x (hl.not_volatile he hx hlt hfield)⟩

section SameRule

variable {m m' : Mem} {size e : ℕ} (h : Same m size e m')

include h

variable {a : ℕ}

theorem Same.load_head {n : ℕ} (ha : a + n ≤ 92) : load m' (e + a) n = load m (e + a) n := by
  have hnext := h.layout.le_next
  exact load_congr fun x hx hlt ↦ h.byte x (by omega) (by omega) (by omega)

theorem Same.load_elem {n : ℕ} (ha : 112 ≤ a) (hn : a + n ≤ nextOffset m e) :
    load m' (e + a) n = load m (e + a) n :=
  load_congr fun x hx hlt ↦ h.byte x (by omega) (by omega) (by omega)

theorem Same.byte_head (ha : a < 92) : m' (e + a) = m (e + a) := by
  have hnext := h.layout.le_next
  exact h.byte _ (by omega) (by omega) (by omega)

theorem Same.byte_elem (ha : 112 ≤ a) (hn : a < nextOffset m e) :
    m' (e + a) = m (e + a) :=
  h.byte _ (by omega) (by omega) (by omega)

theorem Same.targetOffset_eq : targetOffset m' e = targetOffset m e :=
  h.load_head (by omega)

theorem Same.nextOffset_eq : nextOffset m' e = nextOffset m e :=
  h.load_head (by omega)

theorem Same.getTarget_eq : getTarget m' e = getTarget m e := by
  rw [getTarget, getTarget, h.targetOffset_eq]

theorem Same.unconditional_eq : unconditional m' e = unconditional m e :=
  unconditional_congr fun _ hi ↦ h.byte_head (by omega)

theorem Same.isStandard_eq : isStandard m' (getTarget m e) = isStandard m (getTarget m e) := by
  obtain ⟨hfirst, hheader⟩ := h.layout.bounds
  rw [isStandard, isStandard, getTarget, add_assoc, h.byte_elem (by omega) (by omega)]

theorem Same.layout_right : Layout m' size e := by
  obtain ⟨hfirst, hheader⟩ := h.layout.bounds
  exact h.layout.congr h.targetOffset_eq h.nextOffset_eq (h.load_elem hfirst (by omega))

theorem Same.verdict_eq (hfits : targetOffset m e + 36 ≤ nextOffset m e) :
    verdict m' (getTarget m e) = verdict m (getTarget m e) := by
  have hfirst := h.layout.bounds.1
  rw [verdict, verdict, getTarget, add_assoc, h.load_elem (by omega) (by omega)]

theorem Same.isEnd_eq (hstd : isStandard m (getTarget m e) = true →
    targetOffset m e + 36 ≤ nextOffset m e) : isEnd m' e = isEnd m e := by
  unfold isEnd
  rw [h.targetOffset_eq, h.getTarget_eq, h.isStandard_eq, h.unconditional_eq]
  cases hs : isStandard m (getTarget m e) with
  | false => simp
  | true => rw [h.verdict_eq (hstd hs)]

theorem Same.elemPtr_eq : elemPtr m' (getTarget m e) = elemPtr m (getTarget m e) := by
  obtain ⟨hfirst, hheader⟩ := h.layout.bounds
  rw [elemPtr, elemPtr, getTarget, add_assoc, h.load_elem (by omega) (by omega)]

theorem Same.elem_eq {i : ℕ} (hi : 112 ≤ i) (hhead : i + 32 ≤ nextOffset m e)
    (hn : i + elemSize m (e + i) ≤ nextOffset m e) :
    elemSize m' (e + i) = elemSize m (e + i) ∧ elemData m' (e + i) = elemData m (e + i) := by
  have hsize : elemSize m' (e + i) = elemSize m (e + i) :=
    h.load_elem hi (by omega)
  refine ⟨hsize, ?_⟩
  rw [elemData, hsize]
  refine List.map_congr_left fun j hj ↦ ?_
  rw [List.mem_range, sizeofTarget] at hj
  rw [add_assoc, add_assoc, h.byte_elem (by omega) (by omega)]

theorem Same.ipPacketMatch_eq (ip : IpHdr) (indev outdev : Fin 16 → Byte) (isfrag : Bool) :
    ipPacketMatch m' e ip indev outdev isfrag = ipPacketMatch m e ip indev outdev isfrag := by
  have hword : ∀ a, a + 4 ≤ 84 → load m' (e + a) 4 = load m (e + a) 4 := fun a ha ↦
    h.load_head (by omega)
  have hfw : ∀ b bit, fwinv m' e b bit = fwinv m e b bit := fun b bit ↦ by
    rw [fwinv, fwinv, h.byte_head (by omega)]
  have hdev : ∀ a c dev, a + 16 ≤ 84 → c + 16 ≤ 84 →
      ifaceDiffers m' (e + a) (e + c) dev = ifaceDiffers m (e + a) (e + c) dev := by
    intro a c dev ha hc
    unfold ifaceDiffers
    congr 1
    funext i
    rw [add_assoc, add_assoc, h.byte_head (by omega), h.byte_head (by omega)]
  simp only [ipPacketMatch, hfw, hword 8 (by omega), hword 0 (by omega), hword 12 (by omega),
    hword 4 (by omega), hdev 16 48 indev (by omega) (by omega),
    hdev 32 64 outdev (by omega) (by omega), h.load_head (show 80 + 2 ≤ 92 by omega),
    h.byte_head (show 82 < 92 by omega)]

end SameRule

end Linux24.Ipt
