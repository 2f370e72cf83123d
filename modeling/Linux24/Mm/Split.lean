import Linux24.Mm.MapIn
import Linux24.Mm.Mprotect

/-!
# Changing part of an area

`sys_mprotect` and `do_mlock` give the part of an area from `s` to `e` new flags.  Where that is not
the whole area, it is split in two or three.  `Mm.Recut` is what the splits have in common: the area
is replaced by its parts, the areas around it stay as they are, and what is counted changes for the
part with the new flags only.
-/

set_option autoImplicit false

namespace Linux24.Vm

open RedBlack Intervals Color List Function

/-- The area with other flags. -/
def Vma.withFlags (a : Vma) (f : Flags) : Vma := { a with vmFlags := f }

namespace Mm

/-- The area `x`, between the areas `l` and `r`, has been replaced by the areas `ids`, of which
those from `s` to `e` have the flags `f`. -/
structure Recut (mm mm' : Mm) (l : List ℕ) (x : ℕ) (r ids : List ℕ) (s e : ℕ) (f : Flags) :
    Prop where
  wf : mm'.WellFormed
  list : mm'.mmap = l ++ (ids ++ r)
  /-- The areas around it are as they were. -/
  same : ∀ y, y ∈ l ∨ y ∈ r → mm'.vma y = mm.vma y
  counter : ∀ k : Account, k.counter mm' = k.counter mm
  /-- The part is counted according to its new flags. -/
  sum : ∀ k : Account,
    k.sum mm'.areas + (if k.counts (mm.vma x).vmFlags then (e - s) / 4096 else 0) =
      k.sum mm.areas + (if k.counts f then (e - s) / 4096 else 0)
  /-- The part is in one of the areas. -/
  covers : ∃ y ∈ mm'.mmap, (mm'.vma y).vmStart ≤ s ∧ e ≤ (mm'.vma y).vmEnd

theorem ne_of_mem_or {x y : ℕ} {l r : List ℕ} (hy : y ∈ l ∨ y ∈ r) (hl : x ∉ l) (hr : x ∉ r) :
    y ≠ x :=
  hy.elim (fun hy ↦ ne_of_mem_of_not_mem hy hl) fun hy ↦ ne_of_mem_of_not_mem hy hr

section Split

variable {mm : Mm} {l r : List ℕ} {x s e : ℕ} {f : Flags} (h : mm.WellFormed)
  (heq : mm.mmap = l ++ x :: r)
include h heq

/-- The area that is to be split. -/
theorem WellFormed.row_of_list :
    Row 0 (l.map mm.vma ++ mm.vma x :: r.map mm.vma) taskSize := by
  have hrow := h.row
  rwa [areas, heq, map_append, map_cons] at hrow

theorem WellFormed.notMem_of_list : x ∉ l ∧ x ∉ r := by
  have hnd := h.nodup
  rw [heq, nodup_middle, nodup_cons] at hnd
  exact not_or.1 (mt mem_append.2 hnd.1)

omit h in
theorem mem_of_list : x ∈ mm.mmap := by
  rw [heq]
  exact mem_append_right l mem_cons_self

omit h heq in
theorem map_of_same {v : ℕ → Vma} (hv : ∀ y, y ∈ l ∨ y ∈ r → v y = mm.vma y) :
    l.map v = l.map mm.vma ∧ r.map v = r.map mm.vma :=
  ⟨map_congr_left fun y hy ↦ hv y (Or.inl hy), map_congr_left fun y hy ↦ hv y (Or.inr hy)⟩

/-- The area and areas that are not in use are changed, within the space there is. -/
theorem WellFormed.rewrite {v : ℕ → Vma} {t : ℕ} (hv : ∀ y, y ∈ l ∨ y ∈ r → v y = mm.vma y)
    (hrow : Row 0 (l.map mm.vma ++ v x :: r.map mm.vma) taskSize) (ht : mm.tick ≤ t) :
    WellFormed { mm with tick := t, vma := v } := by
  refine .of_row (h.toLinked.congr rfl rfl h.cache ht) h.count ?_
  change Row 0 (mm.mmap.map v) taskSize
  rw [heq, map_append, map_cons, (map_of_same hv).1, (map_of_same hv).2]
  exact hrow

omit h heq in
theorem WellFormed.insert_rewritten {v : ℕ → Vma} {t n : ℕ} {L R : List ℕ}
    (hw : WellFormed { mm with tick := t, vma := v }) (hlist : mm.mmap = L ++ R) (hn : n < t)
    (hrow : Row 0 ((L ++ n :: R).map v) taskSize) :
    ∃ mm', insertVmStruct { mm with tick := t, vma := v } n = .ok mm' ∧ mm'.WellFormed ∧
      mm'.mmap = L ++ n :: R ∧ mm'.vma = v ∧ mm'.tick = t ∧
      ∀ k : Account, k.counter mm' = k.counter mm := by
  rw [map_append] at hrow
  obtain ⟨mm', hins, hw', hlist', hvma, htick, hcounter⟩ := hw.insertVmStruct_eq hlist hn hrow
  exact ⟨mm', hins, hw', hlist', hvma, htick, fun k ↦ (hcounter k).trans (by cases k <;> rfl)⟩

omit h in
/-- Only the parts themselves need to be looked at. -/
theorem Recut.of_parts {mm' : Mm} {ids : List ℕ} (parts : List Vma) (hw : mm'.WellFormed)
    (hlist : mm'.mmap = l ++ (ids ++ r)) (hparts : ids.map mm'.vma = parts)
    (hsame : ∀ y, y ∈ l ∨ y ∈ r → mm'.vma y = mm.vma y)
    (hcounter : ∀ k : Account, k.counter mm' = k.counter mm)
    (hsum : ∀ k : Account,
      k.sum parts + (if k.counts (mm.vma x).vmFlags then (e - s) / 4096 else 0) =
        k.value (mm.vma x) + (if k.counts f then (e - s) / 4096 else 0))
    (hcov : ∃ a ∈ parts, a.vmStart ≤ s ∧ e ≤ a.vmEnd) : mm.Recut mm' l x r ids s e f := by
  subst hparts
  refine ⟨hw, hlist, hsame, hcounter, fun k ↦ ?_, ?_⟩
  · obtain ⟨hl, hr⟩ := map_of_same hsame
    have hk := hsum k
    rw [areas, areas, hlist, heq]
    simp only [map_append, map_cons, Account.sum_append, Account.sum_cons, hl, hr]
    omega
  · obtain ⟨a, ha, hspan⟩ := hcov
    obtain ⟨y, hy, rfl⟩ := mem_map.1 ha
    refine ⟨y, ?_, hspan⟩
    rw [hlist]
    exact mem_append_right l (mem_append_left r hy)

/-- The whole area gets new flags. -/
theorem WellFormed.recut_all (hs : s = (mm.vma x).vmStart) (he : e = (mm.vma x).vmEnd) :
    mm.Recut (mm.setVma x ((mm.vma x).withFlags f)) l x r [x] s e f := by
  have hnot := h.notMem_of_list heq
  have hx : update mm.vma x ((mm.vma x).withFlags f) x = (mm.vma x).withFlags f :=
    update_self _ _ _
  have hsame : ∀ y, y ∈ l ∨ y ∈ r →
      update mm.vma x ((mm.vma x).withFlags f) y = mm.vma y :=
    fun y hy ↦ update_of_ne (ne_of_mem_or hy hnot.1 hnot.2) _ _
  refine .of_parts heq [(mm.vma x).withFlags f] (h.rewrite heq hsame ?_ le_rfl) heq
    (congrArg (fun a ↦ [a]) hx) hsame (fun k ↦ by cases k <;> rfl) (fun k ↦ ?_)
    ⟨_, mem_singleton_self _, hs.ge, he.le⟩
  · rw [hx]
    exact Laid.replace [mm.vma x] [_] (h.row_of_list heq) fun _ _ hb ↦ hb
  · rw [hs, he]
    simp only [Account.sum_cons, Account.sum_nil, Account.value, Vma.withFlags]
    ring

/-- What is known of an area that has just been allocated. -/
theorem WellFormed.fresh : mm.tick ≠ x ∧ mm.tick ∉ l ∧ mm.tick ∉ r := by
  have hfresh := h.toLinked.tick_notMem
  rw [heq] at hfresh
  simp only [mem_append, mem_cons, not_or] at hfresh
  exact ⟨hfresh.2.1, hfresh.1, hfresh.2.2⟩

/-- The area keeps one of two parts, and the other one goes to a new area, which is linked in at its
place. -/
theorem WellFormed.two_parts (a b : Vma) {L R : List ℕ} (ids : List ℕ) (parts : List Vma)
    (hLR : l ++ x :: r = L ++ R) (hids : L ++ mm.tick :: R = l ++ (ids ++ r))
    (hparts : ids.map (update (update mm.vma mm.tick b) x a) = parts)
    (hrow : ∀ p q, Row p [mm.vma x] q → Row p parts q) (ha : ∀ p q, Row p parts q → Row p [a] q) :
    ∃ mm', ((Mm.setVma { mm with tick := mm.tick + 1 } mm.tick b).setVma x a).insertVmStruct
        mm.tick = .ok mm' ∧ mm'.WellFormed ∧ mm'.mmap = l ++ (ids ++ r) ∧ ids.map mm'.vma = parts ∧
      (∀ y, y ∈ l ∨ y ∈ r → mm'.vma y = mm.vma y) ∧
      ∀ k : Account, k.counter mm' = k.counter mm := by
  obtain ⟨hxl, hxr⟩ := h.notMem_of_list heq
  obtain ⟨-, hnl, hnr⟩ := h.fresh heq
  set v := update (update mm.vma mm.tick b) x a with hv
  have hsame : ∀ y, y ∈ l ∨ y ∈ r → v y = mm.vma y := by
    intro y hy
    rw [hv, update_of_ne (ne_of_mem_or hy hxl hxr), update_of_ne (ne_of_mem_or hy hnl hnr)]
  obtain ⟨hl, hr⟩ := map_of_same hsame
  have hrowp := Laid.replace [mm.vma x] parts (h.row_of_list heq) hrow
  have hw : WellFormed { mm with tick := mm.tick + 1, vma := v } := by
    refine h.rewrite heq hsame ?_ (Nat.le_succ _)
    rw [hv, update_self]
    exact Laid.replace parts [a] hrowp ha
  obtain ⟨mm', hins, hw', hlist, hvma, -, hcounter⟩ :=
    hw.insert_rewritten (heq.trans hLR) (Nat.lt_succ_self mm.tick) (by
      rw [hids, map_append, map_append, hl, hr, hparts]
      exact hrowp)
  exact ⟨mm', hins, hw', hlist.trans hids, by rw [hvma, hparts], by rw [hvma]; exact hsame,
    hcounter⟩

/-- Two parts, the first of them in a new area. -/
theorem WellFormed.splitStart_spec (E : Env) (hs : (mm.vma x).vmStart < e)
    (he : e < (mm.vma x).vmEnd) (hdvd : 4096 ∣ e) (f : Flags) :
    mm.splitStart E x e f = .ok (false, { mm with tick := mm.tick + 1 }) ∨
      ∃ mm', mm.splitStart E x e f = .ok (true, mm') ∧
        mm.Recut mm' l x r [mm.tick, x] (mm.vma x).vmStart e f := by
  rw [splitStart]
  rcases mm.kmemCacheAlloc_cases E with halloc | halloc <;> rw [halloc]
  · exact Or.inl rfl
  have hdvds := (h.row_of_list heq).of_mem (a := mm.vma x) (by simp)
  obtain ⟨mm', hins, hw, hlist, hparts, hsame, hcounter⟩ :=
    h.two_parts heq ((mm.vma x).above e) (((mm.vma x).below e).withFlags f)
      [mm.tick, x] [((mm.vma x).below e).withFlags f, (mm.vma x).above e] rfl rfl
      (by simp [update_of_ne (h.fresh heq).1])
      (fun p q hb ↦ ⟨⟨hb.1.1, hs, hb.1.2.2.1, hdvd⟩, ⟨le_rfl, he, hdvd, hb.1.2.2.2⟩, hb.2⟩)
      (fun p q hb ↦ ⟨⟨hb.1.1.trans hb.1.2.1.le, hb.2.1.2⟩, hb.2.2⟩)
  refine Or.inr ⟨mm', bind_ok hins _, .of_parts heq _ hw hlist hparts hsame hcounter (fun k ↦ ?_)
    ⟨((mm.vma x).below e).withFlags f, by simp, le_rfl, le_rfl⟩⟩
  simp only [Account.sum_cons, Account.sum_nil, Account.value, Vma.withFlags, Vma.below, Vma.above]
  split_ifs <;> omega

/-- Two parts, the second of them in a new area. -/
theorem WellFormed.splitEnd_spec (E : Env) (hs : (mm.vma x).vmStart < s)
    (he : s < (mm.vma x).vmEnd) (hdvd : 4096 ∣ s) (f : Flags) :
    mm.splitEnd E x s f = .ok (none, { mm with tick := mm.tick + 1 }) ∨
      ∃ mm', mm.splitEnd E x s f = .ok (some mm.tick, mm') ∧
        mm.Recut mm' l x r [x, mm.tick] s (mm.vma x).vmEnd f := by
  rw [splitEnd]
  rcases mm.kmemCacheAlloc_cases E with halloc | halloc <;> rw [halloc]
  · exact Or.inl rfl
  have hdvds := (h.row_of_list heq).of_mem (a := mm.vma x) (by simp)
  have hnx := (h.fresh heq).1
  obtain ⟨mm', hins, hw, hlist, hparts, hsame, hcounter⟩ :=
    h.two_parts heq ((mm.vma x).below s) (((mm.vma x).above s).withFlags f) (L := l ++ [x])
      (R := r) [x, mm.tick] [(mm.vma x).below s, ((mm.vma x).above s).withFlags f]
      (by simp) (by simp)
      (by simp [update_of_ne hnx])
      (fun p q hb ↦ ⟨⟨hb.1.1, hs, hb.1.2.2.1, hdvd⟩, ⟨le_rfl, he, hdvd, hb.1.2.2.2⟩, hb.2⟩)
      (fun p q hb ↦ ⟨hb.1, hb.2.1.1.trans (hb.2.1.2.1.le.trans hb.2.2)⟩)
  have hset : (Mm.setVma { mm with tick := mm.tick + 1 } mm.tick
      (((mm.vma x).above s).withFlags f)).setEnd x s = _ :=
    setEnd_eq (update_of_ne hnx.symm _ _)
  refine Or.inr ⟨mm', bind_ok ((congrArg (insertVmStruct · mm.tick) hset).trans hins) _,
    .of_parts heq _ hw hlist hparts hsame hcounter (fun k ↦ ?_)
    ⟨((mm.vma x).above s).withFlags f, by simp, le_rfl, le_rfl⟩⟩
  simp only [Account.sum_cons, Account.sum_nil, Account.value, Vma.withFlags, Vma.below, Vma.above]
  split_ifs <;> omega

/-- Three parts, the first and the last of them in new areas. -/
theorem WellFormed.splitMiddle_spec (E : Env) (hs : (mm.vma x).vmStart < s) (hse : s < e)
    (he : e < (mm.vma x).vmEnd) (hds : 4096 ∣ s) (hde : 4096 ∣ e) (f : Flags) :
    (∃ t, mm.splitMiddle E x s e f = .ok (none, { mm with tick := t }) ∧ mm.tick ≤ t) ∨
      ∃ mm', mm.splitMiddle E x s e f = .ok (some (mm.tick + 1), mm') ∧
        mm.Recut mm' l x r [mm.tick, x, mm.tick + 1] s e f := by
  rw [splitMiddle]
  rcases mm.kmemCacheAlloc_cases E with halloc | halloc <;> rw [halloc]
  · exact Or.inl ⟨mm.tick + 1, rfl, Nat.le_succ _⟩
  have hw₁ := h.withTick (Nat.le_succ mm.tick)
  dsimp only
  rcases kmemCacheAlloc_cases E { mm with tick := mm.tick + 1 } with halloc | halloc <;>
    rw [halloc]
  · exact Or.inl ⟨mm.tick + 1 + 1, rfl, by omega⟩
  refine Or.inr ?_
  have hrow := h.row_of_list heq
  have hdvds := hrow.of_mem (a := mm.vma x) (by simp)
  obtain ⟨hxl, hxr⟩ := h.notMem_of_list heq
  obtain ⟨hnx, hnl, hnr⟩ := h.fresh heq
  obtain ⟨hmx, hml, hmr⟩ : mm.tick + 1 ≠ x ∧ mm.tick + 1 ∉ l ∧ mm.tick + 1 ∉ r := hw₁.fresh heq
  have hmn : mm.tick + 1 ≠ mm.tick := Nat.succ_ne_self _
  set a := (mm.vma x).below s with ha
  set b := (((mm.vma x).above s).below e).withFlags f with hb
  set c := (mm.vma x).above e with hc
  set v := update (update (update mm.vma mm.tick a) (mm.tick + 1) c) x b
    with hv
  have hvx : v x = b := update_self _ _ _
  have hvn : v mm.tick = a := by
    rw [hv, update_of_ne hnx, update_of_ne hmn.symm, update_self]
  have hvm : v (mm.tick + 1) = c := by rw [hv, update_of_ne hmx, update_self]
  have hsame : ∀ y, y ∈ l ∨ y ∈ r → v y = mm.vma y := by
    intro y hy
    rw [hv, update_of_ne (ne_of_mem_or hy hxl hxr), update_of_ne (ne_of_mem_or hy hml hmr),
      update_of_ne (ne_of_mem_or hy hnl hnr)]
  obtain ⟨hl, hr⟩ := map_of_same hsame
  have hparts : Row 0 (l.map mm.vma ++ ([a, b, c] ++ r.map mm.vma)) taskSize := by
    refine Laid.replace [mm.vma x] _ hrow fun p q hp ↦ ?_
    exact ⟨⟨hp.1.1, hs, hp.1.2.2.1, hds⟩, ⟨le_rfl, hse, hds, hde⟩,
      ⟨le_rfl, he, hde, hp.1.2.2.2⟩, hp.2⟩
  have hw : WellFormed { mm with tick := mm.tick + 1 + 1, vma := v } := by
    refine h.rewrite heq hsame ?_ (by omega)
    rw [hvx]
    exact hparts.sublist (by simp)
  obtain ⟨mm₁, hins₁, hw₁, hlist₁, hvma₁, htick₁, hcounter₁⟩ :=
    hw.insert_rewritten (n := mm.tick) heq (by omega) (by
      rw [map_append, map_cons, map_cons, hl, hr, hvx, hvn]
      exact hparts.sublist (by simp))
  obtain ⟨mm₂, hins₂, hw₂, hlist₂, hvma₂, -, hcounter₂⟩ :=
    hw₁.insertVmStruct_eq (l := l ++ [mm.tick, x]) (r := r) (x := mm.tick + 1)
      (by rw [hlist₁]; simp) (by rw [htick₁]; omega) (by
      rw [hvma₁, map_append, map_cons, map_singleton, hl, hr, hvx, hvn, hvm, append_assoc]
      exact hparts)
  refine ⟨mm₂, (bind_ok hins₁ _).trans (bind_ok hins₂ _), .of_parts heq [a, b, c] hw₂
    (by rw [hlist₂]; simp) (by rw [hvma₂, hvma₁]; simp [hvx, hvn, hvm])
    (by rw [hvma₂, hvma₁]; exact hsame) (fun k ↦ (hcounter₂ k).trans (hcounter₁ k)) (fun k ↦ ?_)
    ⟨b, by simp, le_rfl, le_rfl⟩⟩
  simp only [ha, hb, hc, Account.sum_cons, Account.sum_nil, Account.value, Vma.withFlags, Vma.below,
    Vma.above]
  by_cases hk : k.counts (mm.vma x).vmFlags = true
  · rw [if_pos hk, if_pos hk, if_pos hk, if_pos hk]
    omega
  · rw [if_neg hk, if_neg hk, if_neg hk, if_neg hk]
    omega

end Split

end Mm
end Linux24.Vm
