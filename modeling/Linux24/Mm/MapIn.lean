import Linux24.Mm.Unmap

/-!
# Mapping in

`do_mmap_pgoff` looks for a free range, clears the range if it was told to use one that is not free,
and then either extends an area that is there or links in a new one.  `do_brk` does the same with a
range it is given.

`Mm.Gap` is the situation after the range has been cleared: the areas are cut in two, and the range
lies between the two parts.  From there both ways of adding the range to the address space have the
same effect on the row of areas, up to where one area ends and the next one begins.
-/

set_option autoImplicit false

namespace Linux24.Vm

open RedBlack Intervals Color List Function

/-- The `mmap` method of the file does not move the area. -/
def Env.NoMove (E : Env) : Prop :=
  ∀ a b, E.fileMmap a = .ok b → b.vmStart = a.vmStart ∧ b.vmEnd = a.vmEnd

/-- The `get_unmapped_area` method of the file, if it has one, gives an error or a range of the user
address space. -/
def Env.AreaInside (E : Env) (len : ℕ) : Prop :=
  ∀ a, E.fileUnmappedArea = some a → a % pageSize = 0 → a + len ≤ taskSize

/-- The `mmap` method of the file does not change whether the area is counted. -/
def Env.KeepsCount (E : Env) (k : Account) : Prop :=
  ∀ a b, E.fileMmap a = .ok b → k.counts b.vmFlags = k.counts a.vmFlags

namespace Mm

variable {mm mm' : Mm} {addr len lo hi : ℕ} {l r : List ℕ}

/-- No area overlaps the range. -/
def Free (mm : Mm) (lo hi : ℕ) : Prop :=
  ∀ x ∈ mm.mmap, (mm.vma x).vmEnd ≤ lo ∨ hi ≤ (mm.vma x).vmStart

/-- A range is free if it ends before the first area that reaches beyond its start. -/
theorem Cut.free_of_head {x : ℕ} (hc : mm.Cut lo l (x :: r)) (ho : Ordered mm.vma mm.mmap)
    (hx : hi ≤ (mm.vma x).vmStart) : mm.Free lo hi := by
  intro y hy
  rw [hc.eq] at hy ho
  rcases mem_append.1 hy with hy | hy
  · exact Or.inl (hc.le y hy)
  rcases mem_cons.1 hy with rfl | hy
  · exact Or.inr hx
  · refine Or.inr (hx.trans (ho.around.ne.le.trans ?_))
    exact (pairwise_cons.1 (pairwise_append.1 ho.2).2.1).1 y hy

theorem Unmapped.free (h : mm.Unmapped mm' lo hi) : mm'.Free lo hi := by
  intro x hx
  have hmem : mm'.vma x ∈ mm'.areas := mem_map_of_mem hx
  rw [h.areas] at hmem
  obtain ⟨a, -, ha⟩ := mem_flatMap.1 hmem
  exact (Vma.of_mem_outside ha).2.1

/-! ## `get_unmapped_area` -/

theorem WellFormed.withCache (h : mm.WellFormed) {c : Option ℕ}
    (hc : ∀ x, c = some x → x ∈ mm.mmap) : WellFormed { mm with mmapCache := c } :=
  ⟨h.toLinked.congr rfl rfl hc le_rfl, h.count, h.area, h.sorted⟩

/-- The search gives a free range, or an error if there is none from `base` on. -/
def Found (mm : Mm) (base len a : ℕ) : Prop :=
  (a = err eNomem ∧ ∀ g, base ≤ g → g + len ≤ taskSize → ¬ mm.Free g (g + len)) ∨
    4096 ∣ a ∧ a + len ≤ taskSize ∧ mm.Free a (a + len)

/-- The search goes on at `base'` if no free range starts before it. -/
theorem Found.mono {base base' a : ℕ} (h : mm.Found base' len a)
    (hbase : ∀ g, base ≤ g → mm.Free g (g + len) → base' ≤ g) : mm.Found base len a :=
  h.imp_left fun ⟨ha, hnone⟩ ↦ ⟨ha, fun g hg hle hfree ↦ hnone g (hbase g hg hfree) hle hfree⟩

/-- The loop of `arch_get_unmapped_area` finds a free range, or there is none. -/
theorem WellFormed.unmappedLoop_spec (h : mm.WellFormed) (hlen : len ≤ taskSize)
    (chain : List ℕ) (heq : mm.mmap = l ++ chain) (hl : ∀ x ∈ l, (mm.vma x).vmEnd ≤ addr)
    (haddr : 4096 ∣ addr) : mm.Found addr len (mm.unmappedLoop len chain addr) := by
  have hsub : sub32 taskSize len = taskSize - len := sub32_of_le (by decide) hlen
  induction chain generalizing l addr with
  | nil =>
    rw [unmappedLoop]
    split
    · exact Or.inl ⟨rfl, fun g hg hle ↦ absurd hle (by omega)⟩
    · refine Or.inr ⟨haddr, by omega, fun x hx ↦ Or.inl (hl x ?_)⟩
      rwa [heq, append_nil] at hx
  | cons x chain ih =>
    have ho := h.ordered
    rw [heq] at ho
    have ha := ho.around
    rw [unmappedLoop]
    split
    · exact Or.inl ⟨rfl, fun g hg hle ↦ absurd hle (by omega)⟩
    rw [add32_of_le_taskSize (by omega)]
    split
    · rename_i hx
      refine Or.inr ⟨haddr, by omega, fun y hy ↦ ?_⟩
      rw [heq, mem_append, mem_cons] at hy
      rcases hy with hy | rfl | hy
      · exact Or.inl (hl y hy)
      · exact Or.inr hx
      · refine Or.inr (hx.trans (ha.ne.le.trans ?_))
        exact (pairwise_cons.1 (pairwise_append.1 ho.2).2.1).1 y hy
    · have hmem : x ∈ mm.mmap := by rw [heq]; simp
      have hend := h.area (mm.vma x) (mem_map_of_mem hmem)
      refine (ih (l := l ++ [x]) (by rw [heq]; simp) (fun y hy ↦ ?_)
        (Nat.dvd_of_mod_eq_zero hend.2.2.2)).mono fun g hg hfree ↦
          (hfree x hmem).resolve_right (by omega)
      rcases mem_append.1 hy with hy | hy
      · exact (ha.before y hy).trans ha.ne.le
      · rw [mem_singleton.1 hy]

theorem unmappedLoop_congr (hvma : mm'.vma = mm.vma) (chain : List ℕ) :
    mm'.unmappedLoop len chain addr = mm.unmappedLoop len chain addr := by
  induction chain generalizing addr with
  | nil => rfl
  | cons x chain ih => rw [unmappedLoop, unmappedLoop, hvma, ih]

theorem WellFormed.unmappedFromBase_spec (h : mm.WellFormed) (hlen : len ≤ taskSize) :
    ∃ a c, mm.unmappedFromBase len = (a, { mm with mmapCache := c }) ∧
      WellFormed { mm with mmapCache := c } ∧ mm.Found (pageAlign (taskSize / 3)) len a := by
  obtain ⟨l, r, hc⟩ := exists_cut h.ordered (pageAlign (taskSize / 3))
  obtain ⟨c, hfind, hcache⟩ := h.toLinked.findVma_eq h.ordered hc
  have hw := h.withCache hcache
  refine ⟨mm.unmappedLoop len r (pageAlign (taskSize / 3)), c, ?_, hw,
    h.unmappedLoop_spec hlen r hc.eq hc.le (dvd_pageAlign _)⟩
  have hcongr : unmappedLoop { mm with mmapCache := c } len r (pageAlign (taskSize / 3)) =
      mm.unmappedLoop len r (pageAlign (taskSize / 3)) := unmappedLoop_congr (by rfl) r
  rw [← hcongr, unmappedFromBase]
  simp only [hfind]
  cases r with
  | nil => rfl
  | cons x r =>
    have hnd := h.nodup
    rw [hc.eq] at hnd
    have hx : x ∉ l := fun hx ↦ disjoint_of_nodup_append hnd hx mem_cons_self
    have hafter : Chain.after x mm.mmap = r := by rw [hc.eq]; exact Chain.after_append hx
    simp [hafter]

/-- **`arch_get_unmapped_area` finds a free range, or there is none**, and it takes the one it is
asked for if it can. -/
theorem WellFormed.archGetUnmappedArea_spec (h : mm.WellFormed) (addr len : ℕ) :
    ∃ a c, mm.archGetUnmappedArea addr len = (a, { mm with mmapCache := c }) ∧
      WellFormed { mm with mmapCache := c } ∧ mm.Found (pageAlign (taskSize / 3)) len a ∧
      (addr ≠ 0 → pageAlign addr + len ≤ taskSize →
        mm.Free (pageAlign addr) (pageAlign addr + len) → a = pageAlign addr) := by
  rw [archGetUnmappedArea]
  split
  · exact ⟨_, mm.mmapCache, rfl, h, Or.inl ⟨rfl, fun g _ hle ↦ absurd hle (by omega)⟩,
      fun _ hle ↦ absurd hle (by omega)⟩
  rename_i hlen
  rw [not_lt] at hlen
  split
  · rename_i hzero
    obtain ⟨a, c, heq, hw, ha⟩ := h.unmappedFromBase_spec hlen
    exact ⟨a, c, heq, hw, ha, absurd hzero⟩
  obtain ⟨l, r, hc⟩ := exists_cut h.ordered (pageAlign addr)
  obtain ⟨c, hfind, hcache⟩ := h.toLinked.findVma_eq h.ordered hc
  have hw := h.withCache hcache
  have hsub : sub32 taskSize len = taskSize - len := sub32_of_le (by decide) hlen
  simp only [hfind, hsub]
  cases r with
  | nil =>
    simp only [List.head?_nil]
    split
    · refine ⟨_, c, rfl, hw, Or.inr ⟨dvd_pageAlign _, by omega, fun x hx ↦ Or.inl (hc.le x ?_)⟩,
        fun _ _ _ ↦ rfl⟩
      rwa [hc.eq, append_nil] at hx
    · obtain ⟨a, c', heq, hw', ha⟩ := hw.unmappedFromBase_spec hlen
      exact ⟨a, c', heq, hw', ha, fun _ hle ↦ absurd hle (by omega)⟩
  | cons x r =>
    simp only [List.head?_cons]
    split
    · rename_i hle
      obtain ⟨hle, hx⟩ := hle
      rw [add32_of_le_taskSize (by omega)] at hx
      refine ⟨_, c, rfl, hw, Or.inr ⟨dvd_pageAlign _, by omega, fun y hy ↦ ?_⟩, fun _ _ _ ↦ rfl⟩
      exact hc.free_of_head h.ordered hx y hy
    · rename_i hno
      obtain ⟨a, c', heq, hw', ha⟩ := hw.unmappedFromBase_spec hlen
      refine ⟨a, c', heq, hw', ha, fun _ hle hfree ↦ absurd ⟨by omega, ?_⟩ hno⟩
      rw [add32_of_le_taskSize hle]
      refine (hfree x ?_).resolve_left (hc.lt x mem_cons_self).not_ge
      rw [hc.eq]
      simp

/-! ## Clearing the range -/

/-- The range from `lo` to `hi` lies between the areas `l` and the areas `r`. -/
structure Gap (mm : Mm) (lo hi : ℕ) (l r : List ℕ) : Prop where
  wf : mm.WellFormed
  list : mm.mmap = l ++ r
  before : ∀ x ∈ l, (mm.vma x).vmEnd ≤ lo
  after : ∀ x ∈ r, hi ≤ (mm.vma x).vmStart
  dvd_lo : 4096 ∣ lo
  dvd_hi : 4096 ∣ hi
  lt : lo < hi
  le : hi ≤ taskSize

/-- A free range is such a gap. -/
theorem WellFormed.exists_gap (h : mm.WellFormed) (hfree : mm.Free lo hi) (hlo : 4096 ∣ lo)
    (hhi : 4096 ∣ hi) (hlt : lo < hi) (hle : hi ≤ taskSize) : ∃ l r, mm.Gap lo hi l r := by
  obtain ⟨l, r, hc⟩ := exists_cut h.ordered lo
  refine ⟨l, r, h, hc.eq, hc.le, fun x hx ↦ ?_, hlo, hhi, hlt, hle⟩
  exact (hfree x (by rw [hc.eq]; exact mem_append_right l hx)).resolve_left (hc.lt x hx).not_ge

theorem Gap.row (h : mm.Gap lo hi l r) {a : Vma} (hs : a.vmStart = lo) (he : a.vmEnd = hi) :
    Row 0 (l.map mm.vma ++ a :: r.map mm.vma) taskSize := by
  have hrow := h.wf.row
  rw [areas, h.list, map_append] at hrow
  refine hrow.insert ?_ ?_ ⟨⟨zero_le, ?_, ?_, ?_⟩, ?_⟩
  · exact forall_mem_map.2 fun x hx ↦ hs ▸ h.before x hx
  · exact forall_mem_map.2 fun x hx ↦ he ▸ h.after x hx
  · rw [hs, he]; exact h.lt
  · rw [hs]; exact h.dvd_lo
  · rw [he]; exact h.dvd_hi
  · rw [he]; exact h.le

theorem Gap.cut (h : mm.Gap lo hi l r) : mm.Cut lo l r := by
  refine ⟨h.list, h.before, fun x hx ↦ h.lt.trans_le ((h.after x hx).trans ?_)⟩
  exact (h.wf.ordered.1 x (by rw [h.list]; exact mem_append_right l hx)).le

/-- If the range is free, `find_vma_prepare` has the place for it. -/
theorem Gap.clearOldMaps_eq (h : mm.Gap lo (lo + len) l r) (E : Env) (fuel : ℕ) :
    ∃ link, clearOldMaps E lo len (fuel + 1) mm = .ok (some (l.getLast?, link), mm) ∧
      mm.Place link l r := by
  have hhead : ∀ x, r.head? = some x → lo + len ≤ (mm.vma x).vmStart :=
    fun x hx ↦ h.after x (mem_of_head? hx)
  have hadd : add32 lo len = lo + len := add32_of_le_taskSize h.le
  obtain ⟨link, hprep, hplace⟩ := h.wf.toLinked.findVmaPrepare_leaf h.wf.ordered h.cut
    fun x hx ↦ h.lt.trans_le (hhead x hx)
  refine ⟨link, ?_, hplace⟩
  rw [clearOldMaps, hprep]
  cases hr : r.head? with
  | none => rfl
  | some x => exact if_neg (by rw [hadd]; exact (hhead x hr).not_gt)

/-- What `munmap_back` leaves behind: the range is free, unless `do_munmap` has failed. -/
structure Cleared (mm mm' : Mm) (lo hi : ℕ) (o : Option (Option ℕ × Path ℕ)) : Prop where
  wf : mm'.WellFormed
  drift : ∀ k, mm'.drift k = mm.drift k
  tick : mm.tick ≤ mm'.tick
  gap : ∀ prev link, o = some (prev, link) →
    ∃ l r, mm'.Gap lo hi l r ∧ prev = l.getLast? ∧ mm'.Place link l r

/-- **`munmap_back` is gone through at most twice.** -/
theorem WellFormed.clearOldMaps_spec (h : mm.WellFormed) (hlo : 4096 ∣ lo) (hlen : 4096 ∣ len)
    (hpos : 0 < len) (hle : lo + len ≤ taskSize) (E : Env) (fuel : ℕ) :
    ∃ o mm', clearOldMaps E lo len (fuel + 2) mm = .ok (o, mm') ∧
      mm.Cleared mm' lo (lo + len) o := by
  have hdone : ∀ {mm' : Mm} (n : ℕ), mm'.WellFormed → mm'.Free lo (lo + len) →
      (∀ k, mm'.drift k = mm.drift k) → mm.tick ≤ mm'.tick →
      ∃ o, clearOldMaps E lo len (n + 1) mm' = .ok (o, mm') ∧ mm.Cleared mm' lo (lo + len) o := by
    intro mm' n hw hfree hdrift htick
    obtain ⟨l, r, hgap⟩ := hw.exists_gap hfree hlo (dvd_add hlo hlen)
      (Nat.lt_add_of_pos_right hpos) hle
    obtain ⟨link, heq, hplace⟩ := hgap.clearOldMaps_eq E n
    refine ⟨_, heq, hw, hdrift, htick, fun prev link' ho ↦ ?_⟩
    cases ho
    exact ⟨l, r, hgap, rfl, hplace⟩
  by_cases hfree : mm.Free lo (lo + len)
  · obtain ⟨o, heq, hspec⟩ := hdone (fuel + 1) h hfree (fun _ ↦ rfl) le_rfl
    exact ⟨o, mm, heq, hspec⟩
  -- otherwise the first area beyond `lo` is in the way, and `do_munmap` is called
  have hagain : clearOldMaps E lo len (fuel + 2) mm = mm.doMunmap E lo len >>= fun p ↦
      if p.1 ≠ 0 then .ok (none, p.2) else clearOldMaps E lo len (fuel + 1) p.2 := by
    have hadd : add32 lo len = lo + len := add32_of_le_taskSize hle
    obtain ⟨l, r, hc⟩ := exists_cut h.ordered lo
    cases r with
    | nil =>
      refine absurd (fun x hx ↦ Or.inl (hc.le x ?_)) hfree
      rwa [hc.eq, append_nil] at hx
    | cons x r =>
      have hx : (mm.vma x).vmStart < lo + len :=
        not_le.1 fun hx ↦ hfree (hc.free_of_head h.ordered hx)
      by_cases hs : (mm.vma x).vmStart ≤ lo
      · rw [clearOldMaps, h.toLinked.findVmaPrepare_inside h.ordered hc hs]
        exact if_pos (by rw [hadd]; exact hx)
      · obtain ⟨link, hprep, -⟩ := h.toLinked.findVmaPrepare_leaf h.ordered hc
          fun y hy ↦ by cases hy; exact not_le.1 hs
        rw [clearOldMaps, hprep]
        exact if_pos (by rw [hadd]; exact hx)
  rw [hagain]
  rcases h.doMunmap_spec E lo len with ⟨e, t, heq, he, ht⟩ | ⟨mm', heq, -, hspec⟩
  · refine ⟨none, _, (bind_ok heq _).trans (if_pos he), h.withTick ht, fun _ ↦ rfl, ht, ?_⟩
    exact fun _ _ ho ↦ by cases ho
  · rw [pageAlign_of_dvd hlen ((Nat.le_add_left len lo).trans hle)] at hspec
    obtain ⟨o, heq', hcleared⟩ := hdone fuel hspec.wf hspec.free hspec.drift hspec.tick
    exact ⟨o, mm', (bind_ok heq _).trans heq', hcleared⟩

/-! ## Filling the gap -/

/-- The range has become part of the areas, with these flags; the counters do not know it yet. -/
structure Filled (mm mm' : Mm) (lo hi : ℕ) (flags : Flags) : Prop where
  wf : mm'.WellFormed
  counter : ∀ k : Account, k.counter mm' = k.counter mm
  sum : ∀ k : Account, k.sum mm'.areas =
    k.sum mm.areas + (if k.counts flags then (hi - lo) / 4096 else 0)
  covers : ∃ x ∈ mm'.mmap, (mm'.vma x).vmStart ≤ lo ∧ hi ≤ (mm'.vma x).vmEnd

section Gap

variable {link : Path ℕ} {flags : Flags} (h : mm.Gap lo hi l r)
include h

theorem Gap.sum_areas (k : Account) :
    k.sum mm.areas = k.sum (l.map mm.vma) + k.sum (r.map mm.vma) := by
  rw [areas, h.list, map_append, Account.sum_append]

theorem Gap.vmaLink_filled (hp : mm.Place link l r) {a : Vma} (hs : a.vmStart = lo)
    (he : a.vmEnd = hi) : mm.Filled
      ((setVma { mm with tick := mm.tick + 1 } mm.tick a).vmaLink mm.tick l.getLast? link)
      lo hi a.vmFlags := by
  have hfresh := h.wf.toLinked.tick_notMem
  rw [h.list] at hfresh
  obtain ⟨hl, hr⟩ := not_or.1 (mt mem_append.2 hfresh)
  have hlinked : (setVma { mm with tick := mm.tick + 1 } mm.tick a).Linked :=
    h.wf.toLinked.congr rfl rfl h.wf.cache (Nat.le_succ _)
  obtain ⟨T, heq, hlinked'⟩ := hlinked.vmaLink_eq h.wf.nodup ⟨hp.fill, hp.before, hp.after⟩
    (Nat.lt_succ_self mm.tick)
  rw [heq]
  have hmap : (l ++ mm.tick :: r).map (update mm.vma mm.tick a) =
      l.map mm.vma ++ a :: r.map mm.vma := by
    rw [map_append, map_cons, map_update hl, map_update hr, update_self]
  have hvalue : ∀ k : Account, k.value a = if k.counts a.vmFlags then (hi - lo) / 4096 else 0 :=
    fun k ↦ by rw [Account.value, hs, he]
  refine ⟨.of_row hlinked' ?_ ?_, fun k ↦ by cases k <;> rfl, fun k ↦ ?_, mm.tick, by simp, ?_⟩
  · rw [h.wf.count, h.list]
    simp only [length_append, length_cons]
    rfl
  · change Row 0 ((l ++ mm.tick :: r).map (update mm.vma mm.tick a)) taskSize
    rw [hmap]
    exact h.row hs he
  · change k.sum ((l ++ mm.tick :: r).map (update mm.vma mm.tick a)) = _
    rw [hmap, h.sum_areas, Account.sum_append, Account.sum_cons, hvalue]
    ring
  · change (update mm.vma mm.tick a mm.tick).vmStart ≤ lo ∧
      hi ≤ (update mm.vma mm.tick a mm.tick).vmEnd
    rw [update_self, hs, he]
    exact ⟨le_rfl, le_rfl⟩

theorem Gap.setEnd_filled {l' : List ℕ} {p : ℕ} (hl : l = l' ++ [p])
    (hend : (mm.vma p).vmEnd = lo) : mm.Filled (mm.setEnd p hi) lo hi (mm.vma p).vmFlags := by
  subst hl
  have heq : mm.mmap = l' ++ p :: r := by rw [h.list, append_assoc]; rfl
  have hp := h.wf.area (mm.vma p) (mem_map_of_mem (by rw [heq]; simp))
  rw [pageSize] at hp
  have hrow := h.row (a := ⟨lo, hi, 0, 0, none⟩) rfl rfl
  rw [map_append, append_assoc] at hrow
  refine ⟨h.wf.setVma heq (Laid.replace [mm.vma p, ⟨lo, hi, 0, 0, none⟩] [_] hrow fun b e hb ↦ ?_),
    fun k ↦ by cases k <;> rfl, fun k ↦ ?_, p, by simp [setEnd, setVma, heq], ?_⟩
  · obtain ⟨⟨hlo, hne, hs, -⟩, ⟨-, hne', -, he⟩, hhi⟩ := hb
    exact ⟨⟨hlo, hne.trans (hend.trans_lt hne'), hs, he⟩, hhi⟩
  · rw [setEnd, h.wf.areas_setVma heq, areas, heq, map_append, map_cons,
      Account.sum_append, Account.sum_append, Account.sum_cons, Account.sum_cons,
      k.value_setEnd (by omega) (by omega) hp.1.le (by rw [hend]; exact h.lt.le), hend]
    ring
  · change (update mm.vma p _ p).vmStart ≤ lo ∧ hi ≤ (update mm.vma p _ p).vmEnd
    rw [update_self]
    exact ⟨hend ▸ hp.1.le, le_rfl⟩

theorem Gap.setStart_filled {r' : List ℕ} {n : ℕ} (hr : r = n :: r')
    (hstart : hi = (mm.vma n).vmStart) : mm.Filled (mm.setStart n lo) lo hi (mm.vma n).vmFlags := by
  subst hr
  have hn := h.wf.area (mm.vma n) (mem_map_of_mem (by rw [h.list]; simp))
  rw [pageSize] at hn
  have hrow := h.row (a := ⟨lo, hi, 0, 0, none⟩) rfl rfl
  refine ⟨h.wf.setVma h.list
      (Laid.replace [(⟨lo, hi, 0, 0, none⟩ : Vma), mm.vma n] [_] hrow fun b e hb ↦ ?_),
    fun k ↦ by cases k <;> rfl, fun k ↦ ?_, n, by simp [setStart, setVma, h.list], ?_⟩
  · obtain ⟨⟨hlo, hne, hs, -⟩, ⟨-, hne', -, he⟩, hhi⟩ := hb
    exact ⟨⟨hlo, (hne.trans_eq hstart).trans hne', hs, he⟩, hhi⟩
  · have hlt := h.lt
    rw [setStart, h.wf.areas_setVma h.list, areas, h.list, map_append, map_cons,
      Account.sum_append, Account.sum_append, Account.sum_cons, Account.sum_cons,
      k.value_setStart (by omega) h.dvd_lo hn.1.le (by omega), ← hstart]
    ring
  · change (update mm.vma n _ n).vmStart ≤ lo ∧ hi ≤ (update mm.vma n _ n).vmEnd
    rw [update_self]
    exact ⟨le_rfl, hstart ▸ hn.1.le⟩

theorem Gap.mergeNext_spec {r' : List ℕ} {n : ℕ} (hr : r = n :: r') (flags : Flags) :
    ∃ b mm', mm.mergeNext n lo hi flags = (b, mm') ∧ (b = false → mm' = mm) ∧
      (b = true → mm.Filled mm' lo hi flags) := by
  rw [mergeNext]
  split
  · rename_i hm
    have hflags := (decide_eq_true_iff.1 hm.1).2
    exact ⟨true, _, rfl, nofun, fun _ ↦ hflags ▸ h.setStart_filled hr hm.2⟩
  · exact ⟨false, mm, rfl, fun _ ↦ rfl, nofun⟩

/-- **`vma_merge` fills the gap by extending an area, or does nothing.** -/
theorem Gap.vmaMerge_spec (hp : mm.Place link l r) (hne : link ≠ []) (flags : Flags) :
    ∃ b mm', mm.vmaMerge l.getLast? (rbParent link) lo hi flags = .ok (b, mm') ∧
      (b = false → mm' = mm) ∧ (b = true → mm.Filled mm' lo hi flags) := by
  rcases eq_nil_or_concat l with rfl | ⟨l', p, rfl⟩
  · have hparent := rbParent_of_before_eq_nil hp.before
    rw [hp.after] at hparent
    cases r with
    | nil =>
      cases link with
      | nil => exact absurd rfl hne
      | cons f q => cases hparent
    | cons n r =>
      rw [hparent]
      obtain ⟨b, mm', heq, hspec⟩ := h.mergeNext_spec rfl flags
      exact ⟨b, mm', congrArg Except.ok heq, hspec⟩
  · rw [concat_eq_append] at h
    have heq : mm.mmap = l' ++ p :: r := by rw [h.list, append_assoc]; rfl
    have hnd := h.wf.nodup
    rw [heq] at hnd
    have hpl : p ∉ l' := fun hp ↦ disjoint_of_nodup_append hnd hp mem_cons_self
    have hnext : Chain.next p mm.mmap = r.head? := by rw [heq]; exact Chain.next_append hpl
    rw [concat_eq_append, getLast?_concat, vmaMerge]
    split
    · rename_i hm
      have hflags := (decide_eq_true_iff.1 hm.2).2
      have hfill := h.setEnd_filled rfl hm.1
      rw [hflags] at hfill
      have hnext' : Chain.next p (mm.setEnd p hi).mmap = r.head? := hnext
      dsimp only
      rw [hnext']
      cases r with
      | nil => exact ⟨true, _, rfl, nofun, fun _ ↦ hfill⟩
      | cons n r =>
        dsimp only [head?_cons]
        split
        · rename_i hn
          have habs := hfill.wf.absorb heq hn.1
          refine ⟨true, _, rfl, nofun, fun _ ↦ ⟨habs.wf, fun k ↦ ?_, fun k ↦ ?_, p, ?_, ?_⟩⟩
          · rw [habs.counter, hfill.counter]
          · have hp : ((mm.setEnd p hi).vma p).vmFlags = flags := by
              change (update mm.vma p _ p).vmFlags = flags
              rw [update_self, ← hflags]
            rw [habs.sum k (by rw [(decide_eq_true_iff.1 hn.2).2, hp]), hfill.sum]
          · rw [habs.list]
            simp
          · have hin : p ∈ (mm.setEnd p hi).mmap ∧ n ∈ (mm.setEnd p hi).mmap := by
              change p ∈ mm.mmap ∧ n ∈ mm.mmap
              rw [heq]
              simp
            have hne := (hfill.wf.ordered.1 n hin.2).le
            rw [habs.vma, update_self]
            refine ⟨?_, ?_⟩
            · change (update mm.vma p _ p).vmStart ≤ lo
              rw [update_self, ← hm.1]
              exact (h.wf.ordered.1 p hin.1).le
            · refine le_trans (le_of_eq ?_) hne
              rw [← hn.1]
              change hi = (update mm.vma p _ p).vmEnd
              rw [update_self]
        · exact ⟨true, _, rfl, nofun, fun _ ↦ hfill⟩
    · rw [hnext]
      cases r with
      | nil => exact ⟨false, mm, rfl, fun _ ↦ rfl, nofun⟩
      | cons n r =>
        obtain ⟨b, mm', heq, hspec⟩ := h.mergeNext_spec rfl flags
        exact ⟨b, mm', congrArg Except.ok heq, hspec⟩

end Gap

theorem WellFormed.account (h : mm.WellFormed) (len : ℕ) (flags : Flags) :
    (mm.account len flags).WellFormed :=
  ⟨h.toLinked.congr rfl rfl h.cache le_rfl, h.count, h.area, h.sorted⟩

/-- Once the range is part of the areas, the counters follow. -/
theorem Filled.mapped_spec {flags' : Flags} (h : mm.Filled mm' lo (lo + len) flags')
    (hpos : 0 < len) (hle : lo + len ≤ taskSize) (flags : Flags) :
    ∃ mm'', mm'.mapped lo len flags = .ok (lo, mm'') ∧ mm''.WellFormed ∧
      ∀ k : Account, k.counts flags' = k.counts flags → mm''.drift k = mm.drift k := by
  have hw := h.wf.account len flags
  have hdrift : ∀ k : Account, k.counts flags' = k.counts flags →
      (mm'.account len flags).drift k = mm.drift k := by
    intro k hk
    have hareas : (mm'.account len flags).areas = mm'.areas := rfl
    rw [drift, drift, k.cast_counter_account, hareas, h.counter, h.sum, Nat.cast_add,
      Nat.add_sub_cancel_left, hk, pages]
    ring
  have hadd : add32 lo len = lo + len := add32_of_le_taskSize hle
  rw [mapped]
  split
  · obtain ⟨x, hx, hs, he⟩ := h.covers
    obtain ⟨c, heq, hc⟩ := hw.makePagesPresent_eq hx hs (Nat.lt_add_of_pos_right hpos) he
    rw [hadd]
    exact ⟨_, bind_ok heq _, hc, hdrift⟩
  · exact ⟨_, rfl, hw, hdrift⟩

/-! ## `do_mmap_pgoff` -/

variable {E : Env}

theorem setupVma_spec (hm : E.NoMove) {file : Option File} {flags : Flags} {a b : Vma}
    (h : setupVma E file flags a = .ok b) : b.vmStart = a.vmStart ∧ b.vmEnd = a.vmEnd ∧
      ∀ k, E.KeepsCount k → k.counts b.vmFlags = k.counts a.vmFlags := by
  cases file with
  | some f =>
    rw [setupVma] at h
    split at h
    · cases h
    split at h
    · cases h
    · exact ⟨(hm _ _ h).1, (hm _ _ h).2, fun k hk ↦ (hk _ _ h).trans rfl⟩
  | none =>
    rw [setupVma.eq_2] at h
    split at h
    · split at h
      · cases h
        exact ⟨rfl, rfl, fun _ _ ↦ rfl⟩
      · cases h
    · cases h
      exact ⟨rfl, rfl, fun _ _ ↦ rfl⟩

/-- The end of `do_mmap_pgoff` links a new area in, or fails. -/
theorem Gap.newVma_spec (hm : E.NoMove) {link : Path ℕ}
    (h : mm.Gap lo (lo + len) l r) (hp : mm.Place link l r) (file : Option File)
    (flags vmFlags : Flags) (pgoff : ℕ) :
    mm.Returns {k | E.KeepsCount k}
      (mm.newVma E file lo len flags vmFlags pgoff l.getLast? link) := by
  have hadd : add32 lo len = lo + len := add32_of_le_taskSize h.le
  have hw := h.wf.withTick (Nat.le_succ mm.tick)
  rw [newVma]
  rcases mm.kmemCacheAlloc_cases E with halloc | halloc <;> rw [halloc]
  · exact ⟨_, _, rfl, hw, fun _ _ ↦ rfl⟩
  rw [hadd]
  cases hset : setupVma E file flags ⟨lo, lo + len, vmFlags, pgoff, none⟩ with
  | error e => exact ⟨_, _, rfl, hw, fun _ _ ↦ rfl⟩
  | ok a =>
    obtain ⟨hs, he, hflags⟩ := setupVma_spec hm hset
    have hpos : 0 < len := Nat.pos_of_lt_add_right h.lt
    obtain ⟨mm', heq, hw', hdrift⟩ :=
      (h.vmaLink_filled hp hs he).mapped_spec hpos h.le vmFlags
    exact ⟨lo, mm', (if_pos hs).trans heq, hw', fun k hk ↦ hdrift k (hflags k hk)⟩

/-- `do_mmap_pgoff` from `munmap_back` on. -/
theorem WellFormed.mmapRegion_spec (hm : E.NoMove) (h : mm.WellFormed) (hlo : 4096 ∣ lo)
    (hlen : 4096 ∣ len) (hpos : 0 < len) (hle : lo + len ≤ taskSize) (file : Option File)
    (flags vmFlags : Flags) (pgoff : ℕ) :
    mm.Returns {k | E.KeepsCount k} (mm.mmapRegion E file lo len flags vmFlags pgoff) := by
  obtain ⟨o, mm₁, hclear, hspec⟩ := h.clearOldMaps_spec hlo hlen hpos hle E mm.mmap.length
  rw [mmapRegion, bind_ok hclear]
  refine Returns.of_drift ?_ hspec.drift
  rcases o with _ | ⟨prev, link⟩
  · exact hspec.wf.returns _ _
  obtain ⟨l, r, hgap, rfl, hplace⟩ := hspec.gap prev link rfl
  have hadd : add32 lo len = lo + len := add32_of_le_taskSize hle
  have hnew := hgap.newVma_spec hm hplace file flags vmFlags pgoff
  dsimp only
  split
  · exact hspec.wf.returns _ _
  split
  · exact hspec.wf.returns _ _
  split
  · rename_i hcond
    obtain ⟨b, mm₂, hmerge, hno, hyes⟩ := hgap.vmaMerge_spec hplace hcond.2.2 vmFlags
    rw [hadd, bind_ok hmerge]
    cases b with
    | false =>
      rw [hno rfl]
      exact hnew
    | true =>
      obtain ⟨mm', heq, hw, hdrift⟩ := (hyes rfl).mapped_spec hpos hle vmFlags
      exact ⟨lo, mm', heq, hw, fun k _ ↦ hdrift k rfl⟩
  · exact hnew

/-- `get_unmapped_area` gives an error or a range of the user address space. -/
theorem WellFormed.getUnmappedArea_spec (h : mm.WellFormed) (hu : E.AreaInside len)
    (hlen : len ≤ taskSize) (file : Option File) (addr : ℕ) (flags : Flags) :
    ∃ a c, mm.getUnmappedArea E file addr len flags = (a, { mm with mmapCache := c }) ∧
      WellFormed { mm with mmapCache := c } ∧ (a % pageSize = 0 → a + len ≤ taskSize) := by
  have harch : ∃ a c, mm.archGetUnmappedArea addr len = (a, { mm with mmapCache := c }) ∧
      WellFormed { mm with mmapCache := c } ∧ (a % pageSize = 0 → a + len ≤ taskSize) := by
    obtain ⟨a, c, heq, hw, ha, -⟩ := h.archGetUnmappedArea_spec addr len
    refine ⟨a, c, heq, hw, fun halign ↦ ?_⟩
    rcases ha with ⟨rfl, -⟩ | ha
    · cases halign
    · exact ha.2.1
  rw [getUnmappedArea.eq_def]
  split
  · split
    · exact ⟨_, mm.mmapCache, rfl, h, fun halign ↦ absurd halign (by decide)⟩
    rename_i hle
    rw [sub32_of_le (by decide) hlen] at hle
    split
    · exact ⟨_, mm.mmapCache, rfl, h, fun halign ↦ absurd halign (by decide)⟩
    · exact ⟨_, mm.mmapCache, rfl, h, fun _ ↦ by omega⟩
  · split
    · rename_i a ha
      exact ⟨a, mm.mmapCache, rfl, h, hu a ha⟩
    · exact harch

/-- **`do_mmap_pgoff` keeps the address space well-formed**, and the counters right as far as the
`mmap` method lets it.  It never faults. -/
theorem WellFormed.doMmapPgoff_spec (h : mm.WellFormed) (hm : E.NoMove) (len : ℕ)
    (hu : E.AreaInside (pageAlign len)) (file : Option File) (addr : ℕ) (prot flags : Flags)
    (pgoff : ℕ) :
    mm.Returns {k | E.KeepsCount k} (mm.doMmapPgoff E file addr len prot flags pgoff) := by
  rw [doMmapPgoff]
  split
  · exact h.returns _ _
  dsimp only
  split
  · exact h.returns _ _
  rename_i hpos
  split
  · exact h.returns _ _
  rename_i hlen
  split
  · exact h.returns _ _
  split
  · exact h.returns _ _
  obtain ⟨a, c, hget, hw, ha⟩ := h.getUnmappedArea_spec hu (not_lt.1 hlen) file addr flags
  rw [hget]
  split
  · exact ⟨_, _, rfl, hw, fun _ _ ↦ rfl⟩
  rename_i halign
  rw [not_not] at halign
  split
  · exact ⟨_, _, rfl, hw, fun _ _ ↦ rfl⟩
  split
  · exact ⟨_, _, rfl, hw, fun _ _ ↦ rfl⟩
  · rename_i vmFlags _
    exact hw.mmapRegion_spec hm (Nat.dvd_of_mod_eq_zero halign) (dvd_pageAlign len)
      (Nat.pos_of_ne_zero hpos) (ha halign) file flags vmFlags pgoff

end Mm
end Linux24.Vm
