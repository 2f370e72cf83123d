import Linux24.Lib.Intervals
import Linux24.Mm.Vma

/-!
# What the lookups find

An address cuts the areas of an address space in two: those that end at or before it, and those that
reach beyond it.  `Mm.Cut` says that the list is cut like that, and the lookups of `mm/mmap.c` are
specified by it: `find_vma` gives the first area of the second part, `find_vma_prev` also the last
one of the first part, and `find_vma_prepare` the place in the tree between the two.

The walks down the tree are right because the areas are in order along it, which is `Ordered`; that
the list and the tree are in step is `Mm.Linked`.
-/

set_option autoImplicit false

namespace Linux24.Vm

open RedBlack Intervals Color List

/-- The areas stand in a row: they are in the order of the list, not empty, page aligned and between
the two bounds, and no two of them overlap. -/
abbrev Row (lo : ℕ) (l : List Vma) (hi : ℕ) : Prop := Laid Vma.vmStart Vma.vmEnd 4096 lo l hi

/-- What the walks down the tree need: the areas are not empty, and they are in order. -/
def Ordered (vma : ℕ → Vma) (l : List ℕ) : Prop :=
  (∀ x ∈ l, (vma x).vmStart < (vma x).vmEnd) ∧
    l.Pairwise (fun x y ↦ (vma x).vmEnd ≤ (vma y).vmStart)

variable {vma : ℕ → Vma} {l r : List ℕ} {x addr : ℕ}

theorem Ordered.of_row {lo hi : ℕ} (h : Row lo (l.map vma) hi) :
    Ordered vma l := by
  have h' := laid_iff.1 (laid_map.1 h)
  exact ⟨fun x hx ↦ (h'.2.1 x hx).2.1, h'.2.2⟩

theorem Ordered.nodup (h : Ordered vma l) : l.Nodup := by
  refine Pairwise.imp_of_mem (fun {x y} hx _ hxy heq ↦ ?_) h.2
  rw [← heq] at hxy
  exact absurd hxy (h.1 x hx).not_ge

/-- The areas around one of them. -/
structure Around (vma : ℕ → Vma) (l : List ℕ) (x : ℕ) (r : List ℕ) : Prop where
  left : Ordered vma l
  right : Ordered vma r
  ne : (vma x).vmStart < (vma x).vmEnd
  before : ∀ y ∈ l, (vma y).vmEnd ≤ (vma x).vmStart
  after : ∀ y ∈ r, (vma x).vmEnd < (vma y).vmEnd

theorem Ordered.around (h : Ordered vma (l ++ x :: r)) :
    Around vma l x r := by
  obtain ⟨hne, hpair⟩ := h
  obtain ⟨hl, hr, hlr⟩ := pairwise_append.1 hpair
  obtain ⟨hxr, hr⟩ := pairwise_cons.1 hr
  obtain ⟨hnel, hner⟩ := forall_mem_append.1 hne
  obtain ⟨hnex, hner⟩ := forall_mem_cons.1 hner
  exact ⟨⟨hnel, hl⟩, ⟨hner, hr⟩, hnex, fun y hy ↦ hlr y hy x mem_cons_self,
    fun y hy ↦ (hxr y hy).trans_lt (hner y hy)⟩

/-- The address cuts the areas `m` in two. -/
structure Parts (vma : ℕ → Vma) (addr : ℕ) (m l r : List ℕ) : Prop where
  eq : m = l ++ r
  le : ∀ x ∈ l, (vma x).vmEnd ≤ addr
  lt : ∀ x ∈ r, addr < (vma x).vmEnd

/-- What an area says about where the cut is. -/
theorem Parts.node {m₁ m₂ : List ℕ} (h : Parts vma addr (m₁ ++ x :: m₂) l r)
    (ha : Around vma m₁ x m₂) :
    (addr < (vma x).vmEnd ∧ ∃ r₁, Parts vma addr m₁ l r₁ ∧ r = r₁ ++ x :: m₂ ∧
      ((vma x).vmStart ≤ addr → r₁ = [])) ∨
    (¬ addr < (vma x).vmEnd ∧ ∃ l₂, Parts vma addr m₂ l₂ r ∧ l = m₁ ++ x :: l₂) := by
  rcases append_eq_append_iff.1 h.eq with ⟨c, rfl, hc⟩ | ⟨c, rfl, rfl⟩
  · cases c with
    | nil =>
      obtain rfl : r = x :: m₂ := hc.symm
      exact Or.inl ⟨h.lt x mem_cons_self, [], ⟨by simp, h.le, by simp⟩, rfl, fun _ ↦ rfl⟩
    | cons y l₂ =>
      obtain ⟨rfl, rfl⟩ := cons_eq_cons.1 hc
      obtain ⟨-, hle⟩ := forall_mem_append.1 h.le
      obtain ⟨hx, hle⟩ := forall_mem_cons.1 hle
      exact Or.inr ⟨hx.not_gt, l₂, ⟨rfl, hle, h.lt⟩, rfl⟩
  · obtain ⟨hlt, hx⟩ := forall_mem_append.1 h.lt
    refine Or.inl ⟨hx x mem_cons_self, c, ⟨rfl, h.le, hlt⟩, rfl, fun hs ↦ ?_⟩
    exact eq_nil_iff_forall_not_mem.2 fun y hy ↦
      (hlt y hy).not_ge ((ha.before y (mem_append_right l hy)).trans hs)

theorem getLast?_or_some (m₁ m₂ : List ℕ) (p : Option ℕ) :
    (m₁ ++ x :: m₂).getLast?.or p = m₂.getLast?.or (some x) := by
  rw [getLast?_append_of_ne_nil _ (cons_ne_nil _ _), getLast?_cons]
  cases m₂.getLast? <;> rfl

namespace Mm

variable (mm : Mm)

/-- The areas, in the order of the list. -/
def areas : List Vma := mm.mmap.map mm.vma

/-- The list and the tree are in step. -/
structure Linked : Prop where
  /-- The tree holds the areas of the list in the same order. -/
  inorder : mm.mmRb.inorder = mm.mmap
  /-- The tree is a red-black tree. -/
  balanced : ∃ n, Balanced mm.mmRb black n
  /-- The cached area is one of the areas. -/
  cache : ∀ x, mm.mmapCache = some x → x ∈ mm.mmap
  /-- The areas have been allocated. -/
  old : ∀ x ∈ mm.mmap, x < mm.tick

/-- The area reaches beyond the address. -/
def reaches (addr x : ℕ) : Bool := decide (addr < (mm.vma x).vmEnd)

/-! ## The walks -/

section Walks

variable {mm} {addr x : ℕ} {l r : List ℕ}

theorem searchVma_eq (t : RbTree ℕ) (ht : Ordered mm.vma t.inorder)
    (h : Parts mm.vma addr t.inorder l r) (vma : Option ℕ) :
    mm.searchVma addr t vma = r.head?.or vma := by
  induction t generalizing l r vma with
  | nil =>
    rw [(append_eq_nil_iff.1 h.eq.symm).2]
    rfl
  | node c t₁ y t₂ ih₁ ih₂ =>
    have ha : Around mm.vma t₁.inorder y t₂.inorder := ht.around
    rw [searchVma]
    rcases h.node ha with ⟨hy, r₁, hp, rfl, hs⟩ | ⟨hy, l₂, hp, rfl⟩
    · rw [if_pos hy]
      split
      · rename_i hys
        rw [hs hys]
        rfl
      · rw [ih₁ ha.left hp, head?_append, Option.or_assoc]
        rfl
    · rw [if_neg hy, ih₂ ha.right hp]

theorem rightmost_eq (t : RbTree ℕ) : rightmost t = t.inorder.getLast? := by
  induction t using rightmost.induct with
  | case1 => rfl
  | case2 c l x => simp [rightmost, RbTree.inorder]
  | case3 c l x r hr ih =>
    have hne : r.inorder ≠ [] := by
      cases r with
      | nil => exact absurd rfl hr
      | node c' l' x' r' => simp [RbTree.inorder]
    rw [rightmost.eq_3 c l x r hr, ih, RbTree.inorder, getLast?_append_of_ne_nil _ (by simp),
      getLast?_cons, getLast?_eq_some_getLast hne, Option.getD_some]

/-- Without an area beyond the address, `find_vma_prev` comes back with what it had. -/
theorem searchVmaPrev_none (t : RbTree ℕ) (ht : ∀ y ∈ t.inorder, (mm.vma y).vmEnd ≤ addr)
    (last : Option ℕ) (found : Option (ℕ × RbTree ℕ × Option ℕ)) :
    mm.searchVmaPrev addr t last found = found := by
  induction t generalizing last with
  | nil => rfl
  | node c l x r ihl ihr =>
    rw [RbTree.inorder, forall_mem_append, forall_mem_cons] at ht
    rw [searchVmaPrev, if_neg ht.2.1.not_gt, ihr ht.2.2]

/-- With one, it comes back with the first of them and the means to find the area before it. -/
theorem searchVmaPrev_some (t : RbTree ℕ) (ht : Ordered mm.vma t.inorder)
    (h : Parts mm.vma addr t.inorder l (x :: r)) (last : Option ℕ)
    (found : Option (ℕ × RbTree ℕ × Option ℕ)) :
    ∃ s q, mm.searchVmaPrev addr t last found = some (x, s, q) ∧
      s.inorder.getLast?.or q = l.getLast?.or last := by
  induction t generalizing l r last found with
  | nil => exact absurd h.eq.symm (by simp [RbTree.inorder])
  | node c t₁ y t₂ ih₁ ih₂ =>
    have ha : Around mm.vma t₁.inorder y t₂.inorder := ht.around
    rw [searchVmaPrev]
    rcases h.node ha with ⟨hy, r₁, hp, heq, hs⟩ | ⟨hy, l₂, hp, rfl⟩
    · rw [if_pos hy]
      cases r₁ with
      | nil =>
        obtain ⟨rfl, -⟩ := cons_eq_cons.1 heq
        have hl : t₁.inorder = l := hp.eq.trans (append_nil l)
        refine ⟨t₁, last, ?_, by rw [hl]⟩
        rw [searchVmaPrev_none t₁ (hl ▸ hp.le), ite_self]
      | cons z r₁ =>
        obtain ⟨rfl, -⟩ := cons_eq_cons.1 heq
        rw [if_neg fun hys ↦ cons_ne_nil _ _ (hs hys)]
        exact ih₁ ha.left hp last _
    · rw [if_neg hy, getLast?_or_some]
      exact ih₂ ha.right hp (some y) found

/-- `find_vma_prepare` stops at an area that covers the address, or it goes down to the place for
the address. -/
theorem prepareFrom_spec (t : RbTree ℕ) (ht : Ordered mm.vma t.inorder)
    (h : Parts mm.vma addr t.inorder l r) (link : Path ℕ) (prev vma : Option ℕ) :
    (∃ x, r.head? = some x ∧ (mm.vma x).vmStart ≤ addr ∧
      mm.prepareFrom addr t link prev vma = .inside x) ∨
    (∀ x, r.head? = some x → addr < (mm.vma x).vmStart) ∧
      ∃ q, mm.prepareFrom addr t link prev vma = .leaf (r.head?.or vma) (l.getLast?.or prev) q ∧
        fill q .nil = fill link t ∧ q.before = link.before ++ l ∧ q.after = r ++ link.after := by
  induction t generalizing l r link prev vma with
  | nil =>
    obtain ⟨rfl, rfl⟩ := append_eq_nil_iff.1 h.eq.symm
    exact Or.inr ⟨by simp, link, rfl, rfl, (append_nil _).symm, rfl⟩
  | node c t₁ y t₂ ih₁ ih₂ =>
    have ha : Around mm.vma t₁.inorder y t₂.inorder := ht.around
    rw [prepareFrom]
    rcases h.node ha with ⟨hy, r₁, hp, rfl, hs⟩ | ⟨hy, l₂, hp, rfl⟩
    · rw [if_pos hy, head?_append]
      split
      · rename_i hys
        rw [hs hys]
        exact Or.inl ⟨y, rfl, hys, rfl⟩
      · rename_i hys
        rcases ih₁ ha.left hp (⟨.left, c, y, t₂⟩ :: link) prev (some y) with
          ⟨x, hx, hin⟩ | ⟨hout, q, hq, hfill, hbefore, hafter⟩
        · exact Or.inl ⟨x, by rw [hx]; rfl, hin⟩
        · refine Or.inr ⟨fun x hx ↦ ?_, q, ?_, hfill, hbefore, ?_⟩
          · rcases Option.or_eq_some_iff.1 hx with hx | ⟨-, ⟨⟩⟩
            · exact hout x hx
            · exact not_le.1 hys
          · rw [hq, Option.or_assoc]
            rfl
          · rw [hafter, append_assoc]
            rfl
    · rw [if_neg hy, getLast?_or_some]
      rcases ih₂ ha.right hp (⟨.right, c, y, t₁⟩ :: link) (some y) vma with
        hin | ⟨hout, q, hq, hfill, hbefore, hafter⟩
      · exact Or.inl hin
      · refine Or.inr ⟨hout, q, hq, hfill, hbefore.trans ?_, hafter⟩
        change link.before ++ (t₁.inorder ++ [y]) ++ _ = _
        simp

end Walks

/-! ## Cuts -/

/-- The address cuts the list of the areas in two. -/
structure Cut (addr : ℕ) (l r : List ℕ) : Prop where
  /-- The two parts. -/
  eq : mm.mmap = l ++ r
  /-- The areas of the first part end at or before the address. -/
  le : ∀ x ∈ l, (mm.vma x).vmEnd ≤ addr
  /-- The areas of the second part reach beyond it. -/
  lt : ∀ x ∈ r, addr < (mm.vma x).vmEnd

/-- `rb_link` is the place in the tree between the two parts of the list. -/
structure Place (link : Path ℕ) (l r : List ℕ) : Prop where
  /-- It is a place in the tree, -/
  fill : RedBlack.fill link .nil = mm.mmRb
  /-- after the areas of the first part -/
  before : link.before = l
  /-- and before those of the second part. -/
  after : link.after = r

variable {mm} {addr x : ℕ} {l r : List ℕ}

theorem exists_cut (ho : Ordered mm.vma mm.mmap) (addr : ℕ) : ∃ l r, mm.Cut addr l r := by
  suffices h : ∀ m, Ordered mm.vma m → ∃ l r, m = l ++ r ∧
      (∀ x ∈ l, (mm.vma x).vmEnd ≤ addr) ∧ ∀ x ∈ r, addr < (mm.vma x).vmEnd by
    obtain ⟨l, r, heq, hle, hlt⟩ := h _ ho
    exact ⟨l, r, heq, hle, hlt⟩
  intro m hm
  induction m with
  | nil => exact ⟨[], [], rfl, by simp, by simp⟩
  | cons x m ih =>
    have ha : Around mm.vma [] x m := Ordered.around hm
    by_cases hx : addr < (mm.vma x).vmEnd
    · exact ⟨[], x :: m, rfl, by simp, forall_mem_cons.2 ⟨hx, fun y hy ↦ hx.trans (ha.after y hy)⟩⟩
    · obtain ⟨l, r, rfl, hle, hlt⟩ := ih ha.right
      exact ⟨x :: l, r, rfl, forall_mem_cons.2 ⟨not_lt.1 hx, hle⟩, hlt⟩

theorem Cut.parts (hc : mm.Cut addr l r) : Parts mm.vma addr mm.mmap l r := ⟨hc.eq, hc.le, hc.lt⟩

theorem Cut.find? (hc : mm.Cut addr l r) : mm.mmap.find? (mm.reaches addr) = r.head? := by
  have hnone : l.find? (mm.reaches addr) = none :=
    find?_eq_none.2 fun y hy hr ↦ absurd (of_decide_eq_true hr) (hc.le y hy).not_gt
  rw [hc.eq, find?_append, hnone]
  cases r with
  | nil => rfl
  | cons x r => exact find?_cons_of_pos (decide_eq_true (hc.lt x mem_cons_self))

/-- An area that covers the address is the first of the second part. -/
theorem Cut.head?_of_covers (hc : mm.Cut addr l r) (ho : Ordered mm.vma mm.mmap)
    (hx : x ∈ mm.mmap) (hs : (mm.vma x).vmStart ≤ addr) (he : addr < (mm.vma x).vmEnd) :
    r.head? = some x := by
  obtain ⟨a, b, hab⟩ := append_of_mem hx
  have hp := hc.parts
  rw [hab] at hp ho
  rcases hp.node ho.around with ⟨-, r₁, -, rfl, hnil⟩ | ⟨hx, -⟩
  · rw [hnil hs]
    rfl
  · exact absurd he hx

/-- **`find_vma` finds the first area that reaches beyond the address.**  All it changes is the
cache. -/
theorem Linked.findVma_eq (h : mm.Linked) (ho : Ordered mm.vma mm.mmap) (hc : mm.Cut addr l r) :
    ∃ c, mm.findVma addr = (r.head?, { mm with mmapCache := c }) ∧
      ∀ x, c = some x → x ∈ mm.mmap := by
  have htree : ∃ c, mm.findVmaTree addr = (r.head?, { mm with mmapCache := c }) ∧
      ∀ x, c = some x → x ∈ mm.mmap := by
    rw [findVmaTree, searchVma_eq _ (h.inorder ▸ ho) (h.inorder ▸ hc.parts)]
    cases hr : r.head? with
    | none => exact ⟨mm.mmapCache, rfl, h.cache⟩
    | some x =>
      refine ⟨some x, rfl, fun y hy ↦ ?_⟩
      rw [hc.eq, ← Option.some.inj hy]
      exact mem_append_right l (mem_of_head? hr)
  rw [findVma]
  split
  · rename_i x hx
    split
    · rename_i hcov
      refine ⟨mm.mmapCache, ?_, h.cache⟩
      rw [hc.head?_of_covers ho (h.cache x hx) hcov.2 hcov.1]
    · exact htree
  · exact htree

/-- **`find_vma_prev` finds the last area of the first part, too**, and its check holds. -/
theorem Linked.findVmaPrev_cons (h : mm.Linked) (ho : Ordered mm.vma mm.mmap)
    (hc : mm.Cut addr l (x :: r)) : mm.findVmaPrev addr = .ok (some x, l.getLast?) := by
  obtain ⟨s, q, hsearch, hlast⟩ :=
    searchVmaPrev_some mm.mmRb (h.inorder ▸ ho) (h.inorder ▸ hc.parts) none none
  rw [Option.or_none, ← rightmost_eq] at hlast
  have hnext : l.getLast?.elim mm.mmap.head? (fun p ↦ Chain.next p mm.mmap) = some x := by
    rcases eq_nil_or_concat l with rfl | ⟨l', p, rfl⟩
    · rw [hc.eq]
      rfl
    · have hnd := ho.nodup
      rw [hc.eq, concat_eq_append, append_assoc] at hnd
      have hp : p ∉ l' := fun hp ↦ disjoint_of_nodup_append hnd hp mem_cons_self
      rw [hc.eq, concat_eq_append, getLast?_concat, append_assoc]
      exact Chain.next_append hp
  rw [findVmaPrev, hsearch]
  simp only [hlast, hnext, if_true]

theorem Linked.findVmaPrev_nil (h : mm.Linked) (hc : mm.Cut addr l []) :
    mm.findVmaPrev addr = .ok (none, none) := by
  rw [findVmaPrev, searchVmaPrev_none]
  rw [h.inorder, hc.eq, append_nil]
  exact hc.le

theorem Linked.findVmaPrepare_inside (h : mm.Linked) (ho : Ordered mm.vma mm.mmap)
    (hc : mm.Cut addr l (x :: r)) (hs : (mm.vma x).vmStart ≤ addr) :
    mm.findVmaPrepare addr = .inside x := by
  rcases prepareFrom_spec mm.mmRb (h.inorder ▸ ho) (h.inorder ▸ hc.parts) [] none none with
    ⟨_, ⟨⟩, -, hin⟩ | ⟨hout, -⟩
  · exact hin
  · exact absurd hs (hout x rfl).not_ge

/-- **`find_vma_prepare` finds the place for the address**, between the two parts. -/
theorem Linked.findVmaPrepare_leaf (h : mm.Linked) (ho : Ordered mm.vma mm.mmap)
    (hc : mm.Cut addr l r) (hs : ∀ x, r.head? = some x → addr < (mm.vma x).vmStart) :
    ∃ link, mm.findVmaPrepare addr = .leaf r.head? l.getLast? link ∧ mm.Place link l r := by
  rcases prepareFrom_spec mm.mmRb (h.inorder ▸ ho) (h.inorder ▸ hc.parts) [] none none with
    ⟨x, hx, hle, -⟩ | ⟨-, q, hq, hfill, hbefore, hafter⟩
  · exact absurd hle (hs x hx).not_ge
  · rw [Option.or_none, Option.or_none] at hq
    exact ⟨q, hq, hfill, hbefore, hafter.trans (append_nil r)⟩

/-- Without an area before the place, `rb_parent` is the first area. -/
theorem rbParent_of_before_eq_nil {link : Path ℕ} (h : link.before = []) :
    rbParent link = link.after.head? := by
  cases link with
  | nil => rfl
  | cons f p =>
    obtain ⟨d, c, y, s⟩ := f
    cases d with
    | left => rfl
    | right => exact absurd h (by simp [Path.before])

end Mm
end Linux24.Vm
