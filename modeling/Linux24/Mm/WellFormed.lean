import Linux24.Mm.Lookup

/-!
# Well-formed address spaces

`Mm.WellFormed` is the representation invariant: the areas are page aligned, not empty, in order,
disjoint and below `TASK_SIZE`, the list and the tree agree, and `map_count` counts the areas.
`Mm.drift` compares a counter of the address space, `total_vm` or `locked_vm`, with the areas it is
supposed to count; it is an integer modulo `2 ^ 32`, as the counter is.  The code changes areas and
counters one after the other, and what it keeps is the drift.

The rest of the file is what the elementary changes do to an address space: linking an area in,
taking one out, and changing one in place.  They are stated for an area at a known position of the
list, so that the areas before and after it need not be looked at: `Laid.replace` does that.
-/

set_option autoImplicit false

namespace Linux24.Vm

open RedBlack Intervals Color List Function

/-! ## Accounts -/

/-- The two counters. -/
inductive Account
  /-- `total_vm`. -/
  | total
  /-- `locked_vm`. -/
  | locked
deriving DecidableEq, Repr

namespace Account

variable (k : Account)

/-- Whether areas with these flags are counted. -/
def counts (f : Flags) : Bool :=
  match k with
  | .total => true
  | .locked => f.has vmLocked

/-- The counter. -/
def counter (mm : Mm) : ℕ :=
  match k with
  | .total => mm.totalVm
  | .locked => mm.lockedVm

/-- What an area counts for: its length in pages. -/
def value (a : Vma) : ℕ := if k.counts a.vmFlags then (a.vmEnd - a.vmStart) / 4096 else 0

/-- What the counter should be. -/
def sum (l : List Vma) : ℕ := (l.map k.value).sum

@[simp] theorem sum_nil : k.sum [] = 0 := rfl

@[simp] theorem sum_cons (a : Vma) (l : List Vma) : k.sum (a :: l) = k.value a + k.sum l := rfl

@[simp] theorem sum_append (l r : List Vma) : k.sum (l ++ r) = k.sum l + k.sum r := by
  rw [sum, List.map_append, List.sum_append]
  rfl

theorem value_setEnd {a : Vma} {e : ℕ} (hs : 4096 ∣ a.vmStart) (he : 4096 ∣ a.vmEnd)
    (hle : a.vmStart ≤ a.vmEnd) (hle' : a.vmEnd ≤ e) :
    k.value { a with vmEnd := e } =
      k.value a + (if k.counts a.vmFlags then (e - a.vmEnd) / 4096 else 0) := by
  rw [value, value]
  dsimp only
  split
  · omega
  · rfl

theorem value_setStart {a : Vma} {s : ℕ} (hs : 4096 ∣ a.vmStart) (hs' : 4096 ∣ s)
    (hle : a.vmStart ≤ a.vmEnd) (hle' : s ≤ a.vmStart) :
    k.value { a with vmStart := s } =
      k.value a + (if k.counts a.vmFlags then (a.vmStart - s) / 4096 else 0) := by
  rw [value, value]
  dsimp only
  split
  · omega
  · rfl

theorem cast_counter_account (mm : Mm) (len : ℕ) (f : Flags) :
    (k.counter (mm.account len f) : ZMod 4294967296) =
      k.counter mm + (if k.counts f then pages len else 0 : ℕ) := by
  cases k with
  | total => exact cast_add32 _ _
  | locked =>
    by_cases h : locked.counts f = true
    · have hc : locked.counter (mm.account len f) = add32 mm.lockedVm (pages len) := if_pos h
      rw [hc, if_pos h, cast_add32]
      rfl
    · have hc : locked.counter (mm.account len f) = mm.lockedVm := if_neg h
      rw [hc, if_neg h, Nat.cast_zero, add_zero]
      rfl

theorem cast_counter_unaccount (mm : Mm) (len : ℕ) (f : Flags) :
    (k.counter (mm.unaccount len f) : ZMod 4294967296) =
      k.counter mm - (if k.counts f then pages len else 0 : ℕ) := by
  cases k with
  | total => exact cast_sub32 _ _
  | locked =>
    by_cases h : locked.counts f = true
    · have hc : locked.counter (mm.unaccount len f) = sub32 mm.lockedVm (pages len) := if_pos h
      rw [hc, if_pos h, cast_sub32]
      rfl
    · have hc : locked.counter (mm.unaccount len f) = mm.lockedVm := if_neg h
      rw [hc, if_neg h, Nat.cast_zero, sub_zero]
      rfl

end Account

namespace Mm

variable (mm : Mm)

/-- The representation invariant. -/
structure WellFormed : Prop extends mm.Linked where
  /-- `map_count` is the number of areas. -/
  count : mm.mapCount = mm.mmap.length
  /-- The areas are not empty, end at or below `TASK_SIZE`, and are page aligned. -/
  area : ∀ a ∈ mm.areas, a.vmStart < a.vmEnd ∧ a.vmEnd ≤ taskSize ∧
    a.vmStart % pageSize = 0 ∧ a.vmEnd % pageSize = 0
  /-- The areas are in order and disjoint. -/
  sorted : mm.areas.Pairwise (fun a b ↦ a.vmEnd ≤ b.vmStart)

/-- How far a counter is from what it should be. -/
def drift (k : Account) : ZMod 4294967296 := k.counter mm - k.sum mm.areas

variable {mm} {mm' : Mm} {addr x : ℕ} {l r : List ℕ}

theorem WellFormed.row (h : mm.WellFormed) : Row 0 mm.areas taskSize := by
  refine laid_iff.2 ⟨zero_le, fun a ha ↦ ?_, h.sorted⟩
  obtain ⟨hne, hle, hs, he⟩ := h.area a ha
  exact ⟨zero_le, hne, hle, Nat.dvd_of_mod_eq_zero hs, Nat.dvd_of_mod_eq_zero he⟩

theorem WellFormed.of_row (hl : mm.Linked) (hc : mm.mapCount = mm.mmap.length)
    (hr : Row 0 mm.areas taskSize) : mm.WellFormed := by
  obtain ⟨-, hall, hpair⟩ := laid_iff.1 hr
  refine ⟨hl, hc, fun a ha ↦ ?_, hpair⟩
  obtain ⟨-, hne, hle, hs, he⟩ := hall a ha
  exact ⟨hne, hle, Nat.mod_eq_zero_of_dvd hs, Nat.mod_eq_zero_of_dvd he⟩

theorem WellFormed.ordered (h : mm.WellFormed) : Ordered mm.vma mm.mmap := Ordered.of_row h.row

theorem WellFormed.nodup (h : mm.WellFormed) : mm.mmap.Nodup := h.ordered.nodup

/-- Being in step is a matter of four fields. -/
theorem Linked.congr (h : mm.Linked) (hlist : mm'.mmap = mm.mmap) (htree : mm'.mmRb = mm.mmRb)
    (hcache : ∀ x, mm'.mmapCache = some x → x ∈ mm.mmap) (htick : mm.tick ≤ mm'.tick) :
    mm'.Linked :=
  ⟨by rw [hlist, htree, h.inorder], by rw [htree]; exact h.balanced,
    by rw [hlist]; exact hcache, by rw [hlist]; exact fun x hx ↦ (h.old x hx).trans_le htick⟩

/-- An area that is about to be allocated is not in use. -/
theorem Linked.tick_notMem (h : mm.Linked) : mm.tick ∉ mm.mmap :=
  fun hm ↦ absurd (h.old _ hm) (lt_irrefl _)

/-- An allocation may fail, and it never gives an area that is in use. -/
theorem kmemCacheAlloc_cases (E : Env) (mm : Mm) :
    mm.kmemCacheAlloc E = (none, { mm with tick := mm.tick + 1 }) ∨
      mm.kmemCacheAlloc E = (some mm.tick, { mm with tick := mm.tick + 1 }) := by
  rw [kmemCacheAlloc]
  split
  · exact Or.inr rfl
  · exact Or.inl rfl

theorem WellFormed.withTick (h : mm.WellFormed) {t : ℕ} (ht : mm.tick ≤ t) :
    WellFormed { mm with tick := t } :=
  ⟨h.toLinked.congr rfl rfl h.cache ht, h.count, h.area, h.sorted⟩

/-! ## The areas after a change -/

variable {a : Vma}

theorem map_update {f : ℕ → Vma} (h : x ∉ l) :
    l.map (update f x a) = l.map f :=
  map_congr_left fun _ hy ↦ update_of_ne (ne_of_mem_of_not_mem hy h) _ _

theorem map_update_append {f : ℕ → Vma} (h : (l ++ x :: r).Nodup) :
    (l ++ x :: r).map (update f x a) = l.map f ++ a :: r.map f := by
  have hnd := nodup_middle.1 h
  obtain ⟨hl, hr⟩ := not_or.1 (fun hc ↦ (nodup_cons.1 hnd).1 (mem_append.2 hc))
  rw [map_append, map_cons, map_update hl, map_update hr, update_self]

/-! ## Linking in -/

/-- `vma_link` puts an area at the place that `find_vma_prepare` has found. -/
theorem Linked.vmaLink_eq {link : Path ℕ} (h : mm.Linked) (hnd : mm.mmap.Nodup)
    (hp : mm.Place link l r) (hx : x < mm.tick) : ∃ T,
    mm.vmaLink x l.getLast? link =
      { mm with mmap := l ++ x :: r, mmRb := T, mapCount := mm.mapCount + 1 } ∧
    Linked { mm with mmap := l ++ x :: r, mmRb := T, mapCount := mm.mapCount + 1 } := by
  have heq : mm.mmap = l ++ r := by
    rw [← h.inorder, ← hp.fill, inorder_fill, hp.before, hp.after, RbTree.inorder, append_nil]
  have hlist : mm.vmaLinkList x l.getLast? (rbParent link) = l ++ x :: r := by
    rcases eq_nil_or_concat l with rfl | ⟨l', p, rfl⟩
    · rw [rbParent_of_before_eq_nil hp.before, hp.after]
      cases r with
      | nil => rfl
      | cons y r =>
        change x :: Chain.startAt y mm.mmap = _
        rw [heq]
        exact congrArg (x :: ·) (Chain.startAt_append not_mem_nil)
    · rw [concat_eq_append, append_assoc] at heq
      rw [heq] at hnd
      have hp : p ∉ l' := fun hp ↦ disjoint_of_nodup_append hnd hp mem_cons_self
      rw [concat_eq_append, getLast?_concat, append_assoc, vmaLinkList, heq]
      exact Chain.insertAfter_append hp
  refine ⟨insertColor link (.node .red .nil x .nil), by rw [vmaLink, hlist], ?_⟩
  obtain ⟨n, hbal⟩ := h.balanced
  rw [← hp.fill] at hbal
  obtain ⟨c, m, hfits, hnil⟩ := exists_fits hbal
  cases hnil
  refine ⟨?_, balanced_insertColor (.red .nil .nil) hfits, fun y hy ↦ ?_, fun y hy ↦ ?_⟩
  · rw [inorder_insertColor, inorder_fill, hp.before, hp.after]
    simp [RbTree.inorder]
  · have hmem : y ∈ l ++ r := heq ▸ h.cache y hy
    exact Sublist.subset (Sublist.append_left (sublist_cons_self x r) l) hmem
  · rcases mem_append.1 hy with hy | hy
    · exact h.old y (heq ▸ mem_append_left r hy)
    rcases mem_cons.1 hy with rfl | hy
    · exact hx
    · exact h.old y (heq ▸ mem_append_right l hy)

/-- **`insert_vm_struct` does not `BUG()`** if there is room for the area, and links it in. -/
theorem Linked.insertVmStruct_eq {hi : ℕ} (h : mm.Linked) (heq : mm.mmap = l ++ r)
    (hrow : Row 0 ((l ++ x :: r).map mm.vma) hi) (hx : x < mm.tick) : ∃ T,
    mm.insertVmStruct x =
      .ok { mm with mmap := l ++ x :: r, mmRb := T, mapCount := mm.mapCount + 1 } ∧
    Linked { mm with mmap := l ++ x :: r, mmRb := T, mapCount := mm.mapCount + 1 } := by
  have ho : Ordered mm.vma (l ++ x :: r) := Ordered.of_row hrow
  have hsub : (l ++ r).Sublist (l ++ x :: r) :=
    Sublist.append_left (sublist_cons_self x r) l
  have ho' : Ordered mm.vma mm.mmap := by
    rw [heq]
    exact ⟨fun y hy ↦ ho.1 y (hsub.subset hy), ho.2.sublist hsub⟩
  have ha := ho.around
  have hafter := (pairwise_cons.1 (pairwise_append.1 ho.2).2.1).1
  have hc : mm.Cut (mm.vma x).vmStart l r :=
    ⟨heq, ha.before, fun y hy ↦ ha.ne.trans (ha.after y hy)⟩
  have hgap : ∀ y, r.head? = some y → (mm.vma x).vmEnd ≤ (mm.vma y).vmStart :=
    fun y hy ↦ hafter y (mem_of_head? hy)
  obtain ⟨link, hprep, hplace⟩ := h.findVmaPrepare_leaf ho' hc
    fun y hy ↦ ha.ne.trans_le (hgap y hy)
  obtain ⟨T, hlink, hlinked⟩ := h.vmaLink_eq ho'.nodup hplace hx
  refine ⟨T, ?_, hlinked⟩
  rw [insertVmStruct, hprep, ← hlink]
  cases hr : r.head? with
  | none => rfl
  | some y => exact if_neg (hgap y hr).not_gt

/-- An area that has not been in use so far is linked in where there is room for it. -/
theorem WellFormed.insertVmStruct_eq (h : mm.WellFormed) (heq : mm.mmap = l ++ r)
    (hx : x < mm.tick) (hrow : Row 0 (l.map mm.vma ++ mm.vma x :: r.map mm.vma) taskSize) :
    ∃ mm', mm.insertVmStruct x = .ok mm' ∧ mm'.WellFormed ∧ mm'.mmap = l ++ x :: r ∧
      mm'.vma = mm.vma ∧ mm'.tick = mm.tick ∧ ∀ k : Account, k.counter mm' = k.counter mm := by
  have hmap : (l ++ x :: r).map mm.vma = l.map mm.vma ++ mm.vma x :: r.map mm.vma := by
    rw [map_append, map_cons]
  rw [← hmap] at hrow
  obtain ⟨T, hins, hlinked⟩ := h.toLinked.insertVmStruct_eq heq hrow hx
  refine ⟨_, hins, .of_row hlinked ?_ hrow, rfl, rfl, rfl, fun k ↦ by cases k <;> rfl⟩
  rw [h.count, heq]
  simp only [length_append, length_cons]
  rfl

/-! ## Taking out -/

theorem Linked.vmaUnlink_eq {p : ℕ} (h : mm.Linked) (hnd : mm.mmap.Nodup)
    (heq : mm.mmap = l ++ p :: x :: r) : ∃ T c,
    mm.vmaUnlink x p = { mm with mmap := l ++ p :: r, mmRb := T, mmapCache := c } ∧
    Linked { mm with mmap := l ++ p :: r, mmRb := T, mmapCache := c } := by
  have heq' : mm.mmap = (l ++ [p]) ++ x :: r := by rw [heq, append_assoc]; rfl
  have hp : p ∉ l := by
    rw [heq] at hnd
    exact fun hp ↦ disjoint_of_nodup_append hnd hp mem_cons_self
  have hx : x ∉ l ++ [p] := by
    rw [heq'] at hnd
    exact fun hx ↦ disjoint_of_nodup_append hnd hx mem_cons_self
  have hupTo : Chain.upTo p mm.mmap = l ++ [p] := by rw [heq]; exact Chain.upTo_append hp
  have hafter : Chain.after x mm.mmap = r := by rw [heq']; exact Chain.after_append hx
  have herase : mm.mmap.erase x = l ++ p :: r := by
    rw [heq', erase_append_right _ hx, erase_cons_head, append_assoc]
    rfl
  obtain ⟨n, hbal⟩ := h.balanced
  obtain ⟨hin, hbal⟩ := remove_spec (x := x) (by rw [h.inorder, heq]; simp)
    (by rw [h.inorder]; exact hnd) hbal
  refine ⟨remove x mm.mmRb, _, by rw [vmaUnlink, hupTo, hafter, append_assoc]; rfl,
    by rw [← herase, ← h.inorder]; exact hin, hbal, fun y hy ↦ ?_,
    fun y hy ↦ h.old y (by rw [← herase] at hy; exact mem_of_mem_erase hy)⟩
  rw [← herase]
  split at hy
  · cases hy
    rw [herase]
    exact mem_append_right l mem_cons_self
  · rename_i hc
    exact (mem_erase_of_ne fun hyx ↦ hc (by rw [hy, hyx])).2 (h.cache y hy)

/-! ## Changing areas in place -/

theorem Linked.setVma (h : mm.Linked) (a : Vma) : (mm.setVma x a).Linked :=
  h.congr rfl rfl h.cache le_rfl

theorem WellFormed.areas_setVma (h : mm.WellFormed) (heq : mm.mmap = l ++ x :: r) :
    (mm.setVma x a).areas = l.map mm.vma ++ a :: r.map mm.vma := by
  have hnd := h.nodup
  rw [heq] at hnd
  change mm.mmap.map (update mm.vma x a) = _
  rw [heq, map_update_append hnd]

/-- An area is changed, within the space there is for it. -/
theorem WellFormed.setVma (h : mm.WellFormed) (heq : mm.mmap = l ++ x :: r)
    (hrow : Row 0 (l.map mm.vma ++ a :: r.map mm.vma) taskSize) : (mm.setVma x a).WellFormed := by
  refine .of_row (h.toLinked.setVma a) h.count ?_
  rw [h.areas_setVma heq]
  exact hrow

/-- What is left of a change that leaves the counters alone. -/
theorem drift_of_counter (k : Account) (hc : k.counter mm' = k.counter mm)
    (hs : k.sum mm'.areas = k.sum mm.areas) : mm'.drift k = mm.drift k := by
  rw [drift, drift, hc, hs]

/-- The call returns, the address space is well-formed, and the counters of `K` are as right as they
were. -/
abbrev Returns (mm : Mm) (K : Set Account) (r : Except Fault (ℕ × Mm)) : Prop :=
  ∃ ret mm', r = .ok (ret, mm') ∧ mm'.WellFormed ∧ ∀ k ∈ K, mm'.drift k = mm.drift k

theorem WellFormed.returns (h : mm.WellFormed) (K : Set Account) (e : ℕ) :
    mm.Returns K (.ok (e, mm)) :=
  ⟨e, mm, rfl, h, fun _ _ ↦ rfl⟩

theorem Returns.of_drift {K : Set Account} {r : Except Fault (ℕ × Mm)} (h : mm'.Returns K r)
    (hdrift : ∀ k, mm'.drift k = mm.drift k) : mm.Returns K r := by
  obtain ⟨ret, mm'', heq, hw, hdrift'⟩ := h
  exact ⟨ret, mm'', heq, hw, fun k hk ↦ (hdrift' k hk).trans (hdrift k)⟩

/-- The area `p` has taken over the range of the area `x` after it, which is gone. -/
structure Absorbed (mm mm' : Mm) (l : List ℕ) (p x : ℕ) (r : List ℕ) : Prop where
  wf : mm'.WellFormed
  list : mm'.mmap = l ++ p :: r
  vma : mm'.vma = update mm.vma p { mm.vma p with vmEnd := (mm.vma x).vmEnd }
  counter : ∀ k : Account, k.counter mm' = k.counter mm
  sum : ∀ k : Account, k.counts (mm.vma x).vmFlags = k.counts (mm.vma p).vmFlags →
    k.sum mm'.areas = k.sum mm.areas

/-- What `setEnd`, `__vma_unlink` and `map_count--` make of two areas that touch. -/
theorem WellFormed.absorb {p : ℕ} (h : mm.WellFormed) (heq : mm.mmap = l ++ p :: x :: r)
    (hadj : (mm.vma p).vmEnd = (mm.vma x).vmStart) : mm.Absorbed
      ((mm.setEnd p (mm.vma x).vmEnd).vmaUnlink x p).decMapCount l p x r := by
  obtain ⟨T, c, hunlink, hlinked⟩ :=
    (h.toLinked.setVma { mm.vma p with vmEnd := (mm.vma x).vmEnd }).vmaUnlink_eq
      h.nodup heq
  have hmap : (l ++ p :: r).map
      (update mm.vma p { mm.vma p with vmEnd := (mm.vma x).vmEnd }) =
      l.map mm.vma ++ { mm.vma p with vmEnd := (mm.vma x).vmEnd } :: r.map mm.vma := by
    have hnd := h.nodup
    rw [heq] at hnd
    exact map_update_append (hnd.sublist (by simp))
  have hrow := h.row
  rw [areas, heq, map_append] at hrow
  rw [setEnd, hunlink]
  refine ⟨.of_row (hlinked.congr rfl rfl hlinked.cache le_rfl) ?_ ?_, rfl, rfl,
    fun k ↦ by cases k <;> rfl, fun k hk ↦ ?_⟩
  · change mm.mapCount - 1 = (l ++ p :: r).length
    rw [h.count, heq]
    simp
  · change Row 0 ((l ++ p :: r).map (update mm.vma p _)) taskSize
    rw [hmap]
    refine Laid.replace [mm.vma p, mm.vma x] [_] hrow fun b e hb ↦ ?_
    obtain ⟨⟨hlo, hne, hs, -⟩, ⟨-, hne', -, he'⟩, hhi⟩ := hb
    exact ⟨⟨hlo, by rw [← hadj] at hne'; exact hne.trans hne', hs, he'⟩, hhi⟩
  · obtain ⟨-, hp, -, hdvd, hdvd'⟩ := hrow.of_mem (a := mm.vma p) (by simp)
    have hx := (hrow.of_mem (a := mm.vma x) (by simp)).2.1
    change k.sum ((l ++ p :: r).map (update mm.vma p _)) = _
    rw [hmap, areas, heq, map_append, map_cons, map_cons, Account.sum_append,
      Account.sum_append, Account.sum_cons, Account.sum_cons, Account.sum_cons,
      k.value_setEnd hdvd hdvd' hp.le (by rw [hadj]; exact hx.le), hadj, ← hk]
    have hv : k.value (mm.vma x) = if k.counts (mm.vma x).vmFlags then
      ((mm.vma x).vmEnd - (mm.vma x).vmStart) / 4096 else 0 := rfl
    rw [hv]
    ring

/-! ## `make_pages_present` -/

/-- The pages of an area can be touched. -/
theorem WellFormed.makePagesPresent_eq {end' : ℕ} (h : mm.WellFormed) (hx : x ∈ mm.mmap)
    (hs : (mm.vma x).vmStart ≤ addr) (hlt : addr < end') (he : end' ≤ (mm.vma x).vmEnd) :
    ∃ c, mm.makePagesPresent addr end' = .ok { mm with mmapCache := c } ∧
      WellFormed { mm with mmapCache := c } := by
  obtain ⟨l, r, hc⟩ := exists_cut h.ordered addr
  obtain ⟨c, hfind, hcache⟩ := h.toLinked.findVma_eq h.ordered hc
  rw [hc.head?_of_covers h.ordered hx hs (hlt.trans_le he)] at hfind
  refine ⟨c, ?_, ⟨h.toLinked.congr rfl rfl hcache le_rfl, h.count, h.area, h.sorted⟩⟩
  rw [makePagesPresent, hfind]
  exact if_neg (not_or.2 ⟨hlt.not_ge, he.not_gt⟩)

end Mm
end Linux24.Vm
