import Linux24.Mm.VmaRuns

/-!
# What can be seen of an address space

Nobody outside `mm/` sees the areas themselves.  The rest of the kernel asks which area an address
belongs to, or where there is room; a program sees pages.  This file says what the calls do in these
terms.

The lookups are compared with a scan of the list, and the search for room is shown to miss none.
For the pages, `Mm.Maps` says that an address is mapped and what is behind it: the flags, the file
and the page of the file, which is `vm_pgoff` and the distance from `vm_start` in pages.  Areas may
be cut in two or trimmed without any page noticing, because `vm_pgoff` is moved along.
-/

set_option autoImplicit false

namespace Linux24.Vm

open RedBlack Intervals Color List

namespace Mm

variable {mm mm' : Mm}

/-! ## The lookups -/

/-- **The three lookups agree with a scan of the list**, whatever the cache holds.  If no area
covers the address, `find_vma_prepare` gives the place for an area that starts there. -/
theorem WellFormed.lookups_agree (h : mm.WellFormed) (addr : ℕ) : ∃ l r,
    (mm.mmap = l ++ r ∧ (∀ x ∈ l, (mm.vma x).vmEnd ≤ addr) ∧
      mm.mmap.find? (mm.reaches addr) = r.head?) ∧
    (mm.findVma addr).1 = r.head? ∧
    mm.findVmaPrev addr = .ok (r.head?, if r = [] then none else l.getLast?) ∧
    (∀ x ∈ mm.mmap, (mm.vma x).vmStart ≤ addr → addr < (mm.vma x).vmEnd →
      r.head? = some x ∧ mm.findVmaPrepare addr = .inside x) ∧
    ((∀ x ∈ mm.mmap, ¬ ((mm.vma x).vmStart ≤ addr ∧ addr < (mm.vma x).vmEnd)) →
      ∃ link, mm.findVmaPrepare addr = .leaf r.head? l.getLast? link ∧
        fill link .nil = mm.mmRb ∧
        (∀ n, (insertColor link (.node .red .nil n .nil)).inorder = l ++ n :: r) ∧
        ∀ n a, n ∉ mm.mmap → a.vmStart = addr → mm.Free addr a.vmEnd →
          ((insertColor link (.node .red .nil n .nil)).inorder.map
            (Function.update mm.vma n a)).Pairwise (fun a b ↦ a.vmEnd ≤ b.vmStart)) := by
  obtain ⟨l, r, hc⟩ := exists_cut h.ordered addr
  refine ⟨l, r, ⟨hc.eq, hc.le, hc.find?⟩, ?_, ?_, fun x hx hs he ↦ ?_, fun hout ↦ ?_⟩
  · obtain ⟨c, hfind, -⟩ := h.toLinked.findVma_eq h.ordered hc
    rw [hfind]
  · cases r with
    | nil => exact h.toLinked.findVmaPrev_nil hc
    | cons x r => exact h.toLinked.findVmaPrev_cons h.ordered hc
  · have hhead := hc.head?_of_covers h.ordered hx hs he
    obtain ⟨r', rfl⟩ := head?_eq_some_iff.1 hhead
    exact ⟨hhead, h.toLinked.findVmaPrepare_inside h.ordered hc hs⟩
  · obtain ⟨link, hprep, hplace⟩ := h.toLinked.findVmaPrepare_leaf h.ordered hc fun x hx ↦ by
      have hmem := mem_of_head? hx
      refine not_le.1 fun hs ↦ hout x ?_ ⟨hs, hc.lt x hmem⟩
      rw [hc.eq]
      exact mem_append_right l hmem
    have hin n : (insertColor link (.node .red .nil n .nil)).inorder = l ++ n :: r := by
      rw [inorder_insertColor, inorder_fill, hplace.before, hplace.after]
      simp [RbTree.inorder]
    refine ⟨link, hprep, hplace.fill, hin, fun n a hn hs hfree ↦ ?_⟩
    have hnd : (l ++ n :: r).Nodup := by
      rw [nodup_middle, ← hc.eq]
      exact nodup_cons.2 ⟨hn, h.nodup⟩
    have hsorted := h.sorted
    rw [areas, hc.eq, map_append] at hsorted
    obtain ⟨hl, hr, hlr⟩ := pairwise_append.1 hsorted
    rw [hin, map_update_append hnd]
    refine pairwise_append.2 ⟨hl, pairwise_cons.2 ⟨?_, hr⟩, fun b hb c hcr ↦ ?_⟩
    · refine forall_mem_map.2 fun x hx ↦ ?_
      refine (hfree x ?_).resolve_left (hc.lt x hx).not_ge
      rw [hc.eq]
      exact mem_append_right l hx
    · rcases mem_cons.1 hcr with rfl | hcr
      · obtain ⟨x, hx, rfl⟩ := mem_map.1 hb
        rw [hs]
        exact hc.le x hx
      · exact hlr b hb c hcr

/-- An address space with one area, of three pages. -/
def three : Mm := (blank.exec mapThree).toOption.getD blank

theorem three_wellFormed : three.WellFormed := by
  obtain ⟨mm, heq, hw⟩ := blank_empty.wellFormed.exec polite_mapThree trivial
  rw [three, heq]
  exact hw

/-- The lookups of an address inside the area. -/
theorem lookups_agree_three : ∃ l r, three.mmap = l ++ r ∧ (three.findVma 8192).1 = r.head? ∧
    r.head? = some 0 ∧ three.findVmaPrepare 8192 = .inside 0 := by
  obtain ⟨l, r, ⟨heq, -, -⟩, hfind, -, hin, -⟩ := three_wellFormed.lookups_agree 8192
  exact ⟨l, r, heq, hfind, hin 0 (by decide) (by decide) (by decide)⟩

/-! ## The search for room -/

/-- **`arch_get_unmapped_area` misses no room.**  It returns the beginning of a free range of the
user address space, or `-ENOMEM` if there is none at or above `TASK_UNMAPPED_BASE`; and if the range
that it is asked for is free, it is that one. -/
theorem WellFormed.archGetUnmappedArea_complete (h : mm.WellFormed) (addr len : ℕ) :
    ∃ a c, mm.archGetUnmappedArea addr len = (a, { mm with mmapCache := c }) ∧
      ((a = err eNomem ∧
          ∀ g, pageAlign (taskSize / 3) ≤ g → g + len ≤ taskSize → ¬ mm.Free g (g + len)) ∨
        4096 ∣ a ∧ a + len ≤ taskSize ∧ mm.Free a (a + len)) ∧
      (addr ≠ 0 → pageAlign addr + len ≤ taskSize →
        mm.Free (pageAlign addr) (pageAlign addr + len) → a = pageAlign addr) := by
  obtain ⟨a, c, heq, -, hfound, hhint⟩ := h.archGetUnmappedArea_spec addr len
  exact ⟨a, c, heq, hfound, hhint⟩

/-- A page just behind the area is taken. -/
theorem archGetUnmappedArea_complete_three : (three.archGetUnmappedArea 16000 4096).1 = 16384 := by
  obtain ⟨a, c, heq, -, hhint⟩ := three_wellFormed.archGetUnmappedArea_complete 16000 4096
  rw [heq]
  exact hhint (by decide) (by decide) (fun x hx ↦ by
    obtain rfl := mem_singleton.1 (show x ∈ [0] from hx)
    decide)

/-! ## Pages -/

/-- What is behind an address of an area: the flags, the file and the page of the file. -/
def page (a : Vma) (p : ℕ) : Flags × Option File × ℕ :=
  (a.vmFlags, a.vmFile, add32 a.vmPgoff (pages (p - a.vmStart)))

/-- The address is in the area, and this is behind it. -/
def Shows (a : Vma) (p : ℕ) (v : Flags × Option File × ℕ) : Prop :=
  (a.vmStart ≤ p ∧ p < a.vmEnd) ∧ page a p = v

/-- The address is mapped, and this is behind it. -/
def Maps (mm : Mm) (p : ℕ) (v : Flags × Option File × ℕ) : Prop := ∃ a ∈ mm.areas, Shows a p v

variable {a : Vma} {p lo hi : ℕ} {v : Flags × Option File × ℕ}

theorem page_above (ha : 4096 ∣ a.vmStart) (hhi : 4096 ∣ hi) (hle : hi ≤ taskSize)
    (hs : a.vmStart ≤ hi) (hp : hi ≤ p) : page (a.above hi) p = page a p := by
  have hsub : sub32 hi a.vmStart = hi - a.vmStart :=
    sub32_of_le (hle.trans_lt (by decide)) hs
  simp only [page, Vma.above, add32, pages]
  rw [Prod.mk.injEq, Prod.mk.injEq]
  exact ⟨rfl, rfl, by omega⟩

/-- What is left of an area shows what it did. -/
theorem exists_outside_shows (ha : Row 0 [a] taskSize) (hhi : 4096 ∣ hi) :
    (∃ b ∈ a.outside lo hi, Shows b p v) ↔ Shows a p v ∧ ¬ (lo ≤ p ∧ p < hi) := by
  obtain ⟨⟨-, -, hs, -⟩, hend⟩ := ha
  rw [Vma.outside]
  split
  · simp only [mem_singleton, exists_eq_left]
    exact ⟨fun h ↦ ⟨h, fun hp ↦ by have := h.1; omega⟩, And.left⟩
  have habove : hi < a.vmEnd → hi ≤ p → page (a.above hi) p = page a p :=
    fun h hp ↦ page_above hs hhi (h.le.trans hend) (by omega) hp
  constructor
  · rintro ⟨b, hb, ⟨hbs, hbe⟩, hv⟩
    rcases mem_append.1 hb with hb | hb
    · obtain ⟨-, hb⟩ := mem_ite_nil_right.1 hb
      obtain rfl := mem_singleton.1 hb
      have hle : lo ≤ a.vmEnd := by omega
      exact ⟨⟨⟨hbs, hbe.trans_le hle⟩, hv⟩, fun hp ↦ hp.1.not_gt hbe⟩
    · obtain ⟨hhi', hb⟩ := mem_ite_nil_right.1 hb
      obtain rfl := mem_singleton.1 hb
      rw [habove hhi' hbs] at hv
      have hle : a.vmStart ≤ hi := by omega
      exact ⟨⟨⟨hle.trans hbs, hbe⟩, hv⟩, fun hp ↦ hp.2.not_ge hbs⟩
  · rintro ⟨⟨⟨hps, hpe⟩, hv⟩, hp⟩
    by_cases hplo : p < lo
    · refine ⟨a.below lo, mem_append_left _ ?_, ⟨hps, hplo⟩, hv⟩
      rw [if_pos (hps.trans_lt hplo)]
      exact mem_singleton_self _
    · have hphi : hi ≤ p := by omega
      refine ⟨a.above hi, mem_append_right _ ?_, ⟨hphi, hpe⟩, ?_⟩
      · rw [if_pos (hphi.trans_lt hpe)]
        exact mem_singleton_self _
      · rw [habove (hphi.trans_lt hpe) hphi, hv]

/-- **`do_munmap` unmaps the pages of the range and no others**, and the others keep what is behind
them.  If it fails, all that has changed is the count of allocations. -/
theorem WellFormed.doMunmap_pages (h : mm.WellFormed) (E : Env) (addr len : ℕ) :
    (∃ e t, mm.doMunmap E addr len = .ok (e, { mm with tick := t }) ∧ e ≠ 0) ∨
      ∃ mm', mm.doMunmap E addr len = .ok (0, mm') ∧
        ∀ p v, mm'.Maps p v ↔ mm.Maps p v ∧ ¬ (addr ≤ p ∧ p < addr + pageAlign len) := by
  rcases h.doMunmap_spec E addr len with ⟨e, t, heq, he, -⟩ | ⟨mm', heq, harg, hspec⟩
  · exact Or.inl ⟨e, t, heq, he⟩
  refine Or.inr ⟨mm', heq, fun p v ↦ ?_⟩
  have hout : ∀ a ∈ mm.areas, ((∃ b ∈ a.outside addr (addr + pageAlign len), Shows b p v) ↔
      Shows a p v ∧ ¬ (addr ≤ p ∧ p < addr + pageAlign len)) := by
    intro a ha
    obtain ⟨hlo, hne, hle, hdvd⟩ := h.row.of_mem ha
    exact exists_outside_shows ⟨⟨hlo, hne, hdvd⟩, hle⟩ (dvd_add harg.1 (dvd_pageAlign len))
  rw [Maps, hspec.areas]
  constructor
  · rintro ⟨b, hb, hshow⟩
    obtain ⟨a, ha, hb⟩ := mem_flatMap.1 hb
    obtain ⟨hshow, hp⟩ := (hout a ha).1 ⟨b, hb, hshow⟩
    exact ⟨⟨a, ha, hshow⟩, hp⟩
  · rintro ⟨⟨a, ha, hshow⟩, hp⟩
    obtain ⟨b, hb, hshow⟩ := (hout a ha).2 ⟨hshow, hp⟩
    exact ⟨b, mem_flatMap.2 ⟨a, ha, hb⟩, hshow⟩

/-- The middle page is unmapped. -/
theorem doMunmap_pages_three : ∃ mm, three.doMunmap unlimited 8192 4096 = .ok (0, mm) ∧
    mm.bounds = [(4096, 8192), (12288, 16384)] ∧
    ∀ p v, mm.Maps p v ↔ three.Maps p v ∧ ¬ (8192 ≤ p ∧ p < 12288) := by
  have hrun : (three.doMunmap unlimited 8192 4096).toOption.map (fun r ↦ (r.1, r.2.bounds)) =
      some (0, [(4096, 8192), (12288, 16384)]) := by decide +kernel
  rcases three_wellFormed.doMunmap_pages unlimited 8192 4096 with ⟨e, t, heq, he⟩ | ⟨mm, heq, hmaps⟩
  · rw [heq] at hrun
    exact absurd (congrArg Prod.fst (Option.some.inj hrun)) he
  · rw [heq] at hrun
    exact ⟨mm, heq, congrArg Prod.snd (Option.some.inj hrun), hmaps⟩

end Mm
end Linux24.Vm
