import Linux24.Mm.MapIn

/-!
# The break and the stack

`sys_brk` and `expand_stack` are the two ways in which an address space grows without `mmap`.
`sys_brk` moves the end of the heap: down with `do_munmap`, and up with `do_brk`, which is
`do_mmap_pgoff` for anonymous memory without most of its checks.  In particular nothing in `do_brk`
compares the range with `TASK_SIZE`, so that what is shown here about it takes the bound as an
assumption.
-/

set_option autoImplicit false

namespace Linux24.Vm
namespace Mm

open RedBlack Intervals List

variable {mm : Mm} {lo len : ℕ}

/-! ## `sys_brk` -/

/-- **`do_brk` keeps the address space well-formed** if the range ends at or below `TASK_SIZE`. -/
theorem WellFormed.doBrk_spec (h : mm.WellFormed) (E : Env) (hlo : 4096 ∣ lo)
    (hle : lo + pageAlign len ≤ taskSize) :
    mm.Returns Set.univ (mm.doBrk E lo len) := by
  rw [doBrk]
  split
  · exact h.returns _ _
  rename_i hpos
  split
  · exact h.returns _ _
  obtain ⟨o, mm₁, hclear, hspec⟩ := h.clearOldMaps_spec hlo (dvd_pageAlign len)
    (Nat.pos_of_ne_zero hpos) hle E mm.mmap.length
  rw [bind_ok hclear]
  refine Returns.of_drift ?_ hspec.drift
  rcases o with _ | ⟨prev, link⟩
  · exact hspec.wf.returns _ _
  obtain ⟨l, r, hgap, rfl, hplace⟩ := hspec.gap prev link rfl
  have hadd : add32 lo (pageAlign len) = lo + pageAlign len := add32_of_le_taskSize hle
  dsimp only
  rw [hadd]
  split
  · exact hspec.wf.returns _ _
  split
  · exact hspec.wf.returns _ _
  split
  · exact hspec.wf.returns _ _
  set flags := vmDataDefaultFlags ||| mm₁.defFlags
  have hnew : mm₁.Returns Set.univ
      (mm₁.newBrkVma E lo (pageAlign len) flags l.getLast? link) := by
    rw [newBrkVma]
    rcases mm₁.kmemCacheAlloc_cases E with halloc | halloc <;> rw [halloc]
    · exact ⟨_, _, rfl, hspec.wf.withTick (Nat.le_succ _), fun _ _ ↦ rfl⟩
    · obtain ⟨mm', heq, hw, hdrift⟩ :=
        (hgap.vmaLink_filled hplace (a := ⟨lo, lo + pageAlign len, flags, 0, none⟩) rfl
          rfl).mapped_spec (Nat.pos_of_ne_zero hpos) hle flags
      rw [hadd]
      exact ⟨lo, mm', heq, hw, fun k _ ↦ hdrift k rfl⟩
  split
  · rename_i hne
    obtain ⟨b, mm₂, hmerge, hno, hyes⟩ := hgap.vmaMerge_spec hplace hne flags
    rw [bind_ok hmerge]
    cases b with
    | false =>
      rw [hno rfl]
      exact hnew
    | true =>
      obtain ⟨mm', heq, hw, hdrift⟩ :=
        (hyes rfl).mapped_spec (Nat.pos_of_ne_zero hpos) hle flags
      exact ⟨lo, mm', heq, hw, fun k _ ↦ hdrift k rfl⟩
  · exact hnew

theorem WellFormed.withBrk (h : mm.WellFormed) (b : ℕ) : WellFormed { mm with brk := b } :=
  ⟨h.toLinked.congr rfl rfl h.cache le_rfl, h.count, h.area, h.sorted⟩

/-- `find_vma_intersection` changes the cache at most. -/
theorem WellFormed.findVmaIntersection_spec (h : mm.WellFormed) (start end' : ℕ) :
    ∃ b c, mm.findVmaIntersection start end' = (b, { mm with mmapCache := c }) ∧
      WellFormed { mm with mmapCache := c } := by
  obtain ⟨l, r, hc⟩ := exists_cut h.ordered start
  obtain ⟨c, hfind, hcache⟩ := h.toLinked.findVma_eq h.ordered hc
  rw [findVmaIntersection, hfind]
  cases r.head? with
  | none => exact ⟨false, c, rfl, h.withCache hcache⟩
  | some x => exact ⟨_, c, rfl, h.withCache hcache⟩

/-- **`sys_brk` keeps the address space well-formed** if the new break is at or below
`TASK_SIZE`. -/
theorem WellFormed.sysBrk_spec (h : mm.WellFormed) (E : Env) {brk : ℕ} (hbrk : brk ≤ taskSize) :
    ∃ mm', mm.sysBrk E brk = .ok mm' ∧ mm'.WellFormed ∧ ∀ k, mm'.drift k = mm.drift k := by
  have hdone : ∃ mm', (Except.ok mm : Except Fault Mm) = .ok mm' ∧ mm'.WellFormed ∧
      ∀ k, mm'.drift k = mm.drift k := ⟨mm, rfl, h, fun _ ↦ rfl⟩
  rw [sysBrk]
  split
  · exact hdone
  dsimp only
  split
  · exact ⟨_, rfl, h.withBrk brk, fun _ ↦ rfl⟩
  split
  · rcases h.doMunmap_spec E (pageAlign brk) (sub32 (pageAlign mm.brk) (pageAlign brk)) with
      ⟨e, t, heq, he, ht⟩ | ⟨mm', heq, -, hspec⟩
    · exact ⟨_, (bind_ok heq _).trans (congrArg Except.ok (if_neg he)), h.withTick ht, fun _ ↦ rfl⟩
    · exact ⟨_, (bind_ok heq _).trans (congrArg Except.ok (if_pos rfl)), hspec.wf.withBrk brk,
        hspec.drift⟩
  split
  · exact hdone
  obtain ⟨b, c, hint, hw⟩ :=
    h.findVmaIntersection_spec (pageAlign mm.brk) (add32 (pageAlign brk) pageSize)
  rw [hint]
  split
  · exact ⟨_, rfl, hw, fun _ ↦ rfl⟩
  split
  · exact ⟨_, rfl, hw, fun _ ↦ rfl⟩
  -- the old break is below the new one, and nothing wraps
  have hle :
      pageAlign mm.brk + pageAlign (sub32 (pageAlign brk) (pageAlign mm.brk)) ≤ taskSize := by
    have h1 : pageAlign brk ≤ taskSize := pageAlign_le hbrk (by decide)
    have h2 : pageAlign mm.brk ≤ pageAlign brk := by
      rw [taskSize] at hbrk
      rw [pageAlign, pageAlign, add32_of_lt (by omega), add32_of_lt (by omega)]
      omega
    have h3 : pageAlign brk < 4294967296 := h1.trans_lt (by decide)
    rw [sub32_of_le h3 h2, pageAlign_of_dvd (Nat.dvd_sub (dvd_pageAlign _) (dvd_pageAlign _))
      ((Nat.sub_le _ _).trans h1)]
    omega
  obtain ⟨ret, mm', heq, hw', hdrift⟩ := hw.doBrk_spec E (dvd_pageAlign _) hle
  rw [bind_ok heq]
  split
  · exact ⟨_, rfl, hw'.withBrk brk, fun k ↦ hdrift k trivial⟩
  · exact ⟨_, rfl, hw', fun k ↦ hdrift k trivial⟩

/-! ## `expand_stack` -/

end Mm
end Linux24.Vm
