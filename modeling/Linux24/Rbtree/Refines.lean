import Linux24.Rbtree.Layout

/-!
# The code computes on trees

`rb_insert_color` and `rb_erase` refine `insertColor` and `erase`: run on a memory that holds a
balanced tree, they end, follow no `NULL` pointer on the way, and leave a memory that holds the tree
their counterpart computes.

Balance is what keeps them from faulting.  A red node has a parent, so `gparent` is there; and next
to a subtree that is one black node short there is one that has a black node to spare, so `other` is
there, even after a rotation has put another in its place.
-/

set_option autoImplicit false

namespace Linux24.Rbtree

open RedBlack List

variable {h : Heap} {p : Path ℕ} {t a b : RbTree ℕ} {d : Side} {c : Color} {x n : ℕ}

/-! ## Looking around -/

/-- The tree at a position, seen from its parent. -/
theorem fill_near (p : Path ℕ) (d : Side) (c : Color) (a b : RbTree ℕ) (x : ℕ) :
    fill p (branch d c a x b) = fill (⟨d, c, x, b⟩ :: p) a := rfl

theorem fill_far (p : Path ℕ) (d : Side) (c : Color) (a b : RbTree ℕ) (x : ℕ) :
    fill p (branch d c a x b) = fill (⟨d.flip, c, x, a⟩ :: p) b := by
  rw [← branch_flip]
  rfl

theorem Models.parent_eq (hm : Models h (fill p t)) (hx : t.root? = some x) :
    (h.node x).parent = parentOf p := by
  rcases t.nil_or_branch .left with rfl | ⟨c, l, y, r, rfl⟩
  · cases hx
  · cases hx
    rw [hm.node_eq, nodeOf_parent]

variable {f g : Frame ℕ} {fuel y z : ℕ} {q : Path ℕ} {l s : RbTree ℕ}

theorem Models.frame_eq (hm : Models h (fill (f :: p) t)) :
    h.node f.elem = nodeOf f.side (parentOf p) f.color t.root? f.sib.root? :=
  Models.node_eq hm

theorem Models.sib_ne (hm : Models h (fill (f :: p) t)) (hx : t.root? = some x) :
    f.sib.root? ≠ some x := fun hs ↦
  (Models.apart hm).left_right x (root?_mem hx) (root?_mem hs)

/-- The code finds out which child a node is by comparing it with the left one. -/
theorem side_test {parent near far : Ptr} (hne : far ≠ near) :
    (if (nodeOf d parent c near far).left = near then Side.left else Side.right) = d := by
  cases d with
  | left => exact if_pos rfl
  | right => exact if_neg hne

/-- The pointer to a tree leads to the root of it. -/
theorem Models.isRed (hm : Models h (fill p t)) : h.isRed t.root? = t.isRed :=
  (rep_fill.1 hm.rep).2.isRed

theorem Models.setColorIf (hm : Models h (fill p t)) :
    Models (h.setColorIf t.root? .black) (fill p t.blacken) := by
  rcases t.nil_or_branch .left with rfl | ⟨c, l, y, r, rfl⟩
  · exact hm
  · exact hm.setColor .black

theorem eq_red_of_ne (hc : c ≠ .black) : c = .red := by
  cases c with
  | red => rfl
  | black => exact absurd rfl hc

/-! ## `rb_insert_color` -/

/-- The loop ends at a node with a black parent. -/
theorem insertLoop_of_black (hm : Models h (fill (f :: p) t))
    (hx : t.root? = some x) (hf : f.color = .black) (fuel : ℕ) :
    insertLoop (fuel + 1) h x = .ok h := by
  rw [insertLoop, hm.parent_eq hx, parentOf_cons]
  dsimp only
  rw [if_neg]
  rw [hm.frame_eq, nodeOf_color, hf]
  decide

/-- A red uncle: three nodes change their colour. -/
theorem Models.recolor (hm : Models h (fill (f :: g :: p) t)) {u : ℕ} (hu : g.sib.root? = some u) :
    Models (((h.setColor u .black).setColor f.elem .black).setColor g.elem .red)
      (fill p (branch g.side .red (branch f.side .black t f.elem f.sib) g.elem g.sib.blacken)) := by
  rw [fill, fill, fill_far] at hm
  have h₁ := hm.setColorIf
  rw [hu, ← fill_far, fill_near] at h₁
  have h₂ := Models.setColor h₁ .black
  rw [← fill_near] at h₂
  exact h₂.setColor .red

/-- A node that is on the outside: one rotation. -/
theorem Models.rotate_outer (hm : Models h (fill (f :: g :: p) t)) (hside : f.side = g.side) :
    ∃ h', Rbtree.rotate g.side.flip ((h.setColor f.elem .black).setColor g.elem .red) g.elem =
        .ok h' ∧
      Models h' (fill p (branch g.side .black t f.elem
        (branch g.side .red f.sib g.elem g.sib))) := by
  have h₁ := Models.setColor hm .black
  rw [fill, hside] at h₁
  have h₂ := h₁.setColor .red
  rw [← branch_flip g.side, ← branch_flip g.side] at h₂
  obtain ⟨h', hrot, hm'⟩ := h₂.rotate
  rw [branch_flip, branch_flip] at hm'
  exact ⟨h', hrot, hm'⟩

/-- A node that is on the inside: a rotation takes it to the outside, and its parent in its
place. -/
theorem Models.rotate_inner {c : Color}
    (hm : Models h (fill (f :: g :: p) (branch g.side c a x b))) (hside : f.side = g.side.flip) :
    ∃ h', Rbtree.rotate g.side h f.elem = .ok h' ∧
      Models h' (fill (⟨g.side, c, x, b⟩ :: g :: p)
        (branch g.side f.color f.sib f.elem a)) := by
  rw [fill, hside, branch_flip] at hm
  exact hm.rotate

/-- An iteration at a node with a red parent, in terms of the tree. -/
theorem insertLoop_of_red (hm : Models h (fill (f :: g :: p) t))
    (hx : t.root? = some x) (hf : f.color = .red) (fuel : ℕ) :
    insertLoop (fuel + 1) h x =
      if g.sib.isRed then do
        let uncle ← deref g.sib.root?
        insertLoop fuel
          (((h.setColor uncle .black).setColor f.elem .black).setColor g.elem .red) g.elem
      else (do
        let (h, parent, node) ←
          if f.side = g.side.flip then do
            let h ← rotate g.side h f.elem
            pure (h, x, f.elem)
          else pure (h, f.elem, x)
        let h ← rotate g.side.flip ((h.setColor parent .black).setColor g.elem .red) g.elem
        insertLoop fuel h node) := by
  have hfn : h.node f.elem = nodeOf f.side (some g.elem) .red (some x) f.sib.root? := by
    rw [hm.frame_eq, hx, hf, parentOf_cons]
  have hmg : Models h (fill (g :: p) (branch f.side f.color t f.elem f.sib)) := hm
  have hfr : (branch f.side f.color t f.elem f.sib).root? = some f.elem := root?_branch _ _ _ _ _
  have hgn : h.node g.elem = nodeOf g.side (parentOf p) g.color (some f.elem) g.sib.root? := by
    rw [hmg.frame_eq, hfr]
  have huncle : h.isRed g.sib.root? = g.sib.isRed := by
    have hs := hmg
    rw [fill, fill_far] at hs
    exact hs.isRed
  have hinner : (h.node f.elem).child g.side.flip = some x ↔ f.side = g.side.flip := by
    rw [hfn]
    rcases eq_or_ne f.side g.side with hs | hs
    · rw [hs, nodeOf_far]
      exact ⟨fun hc ↦ absurd hc (hm.sib_ne hx), fun hc ↦ absurd hc.symm g.side.flip_ne⟩
    · rw [← Side.eq_flip_of_ne hs, nodeOf_near]
      exact ⟨fun _ ↦ rfl, fun _ ↦ rfl⟩
  rw [insertLoop, hm.parent_eq hx, parentOf_cons]
  dsimp only
  rw [if_pos (by rw [hfn, nodeOf_color]), show (h.node f.elem).parent = some g.elem by
    rw [hfn, nodeOf_parent]]
  change (if h.isRed ((h.node g.elem).child (if (h.node g.elem).left = some f.elem then Side.left
    else Side.right).flip) = true then _ else _) = _
  rw [show (if (h.node g.elem).left = some f.elem then Side.left else Side.right) = g.side by
    rw [hgn]; exact side_test (hmg.sib_ne hfr), hgn, nodeOf_far, huncle]
  simp [hinner]

/-- The loop ends in a tree that differs from what `insertColor` computes by the colour of the root
at most. -/
theorem insertLoop_refines (hm : Models h (fill p t)) (ht : Balanced t .red n)
    (hp : Fits p .black n) (hx : t.root? = some x) (hfuel : p.length + 2 ≤ fuel) :
    ∃ h' t', insertLoop fuel h x = .ok h' ∧ Models h' t' ∧ t'.blacken = insertColor p t := by
  induction p, t using insertColor.induct generalizing h n x fuel with
  | case1 t =>
    obtain ⟨fuel, rfl⟩ := Nat.exists_eq_add_of_le' hfuel
    refine ⟨h, t, ?_, hm, rfl⟩
    rw [← add_assoc, insertLoop, hm.parent_eq hx]
    rfl
  | case2 f t =>
    obtain ⟨fuel, rfl⟩ := Nat.exists_eq_add_of_le' hfuel
    have hf : f.color = .black := by
      cases hp with
      | red hs hp => cases hp
      | black hs hp => rfl
    exact ⟨h, _, insertLoop_of_black hm hx hf _, hm, rfl⟩
  | case3 f g p t hf =>
    obtain ⟨fuel, rfl⟩ := Nat.exists_eq_add_of_le' hfuel
    refine ⟨h, _, insertLoop_of_black hm hx hf _, hm, ?_⟩
    rw [insertColor, if_pos hf]
  | case4 f g p t hf hg ih =>
    obtain ⟨fuel, rfl⟩ := Nat.exists_eq_add_of_le' hfuel
    have hred := eq_red_of_ne hf
    obtain ⟨u, hu⟩ : ∃ u, g.sib.root? = some u := by
      rcases g.sib.nil_or_branch .left with hs | ⟨c, l, u, r, hs⟩
      · rw [hs] at hg
        cases hg
      · exact ⟨u, by rw [hs, root?_branch]⟩
    rw [← add_assoc, insertLoop_of_red hm hx hred, if_pos hg, hu, insertColor, if_pos hg]
    cases hp with
    | black hs hp => exact absurd rfl hf
    | red hs hp =>
      cases hp with
      | black hub hp =>
        obtain rfl := hub.eq_red hg
        exact ih (hm.recolor hu) (balanced_branch_red.2 ⟨rfl, ht.branch_black hs, hub.blacken_red⟩)
          hp (root?_branch _ _ _ _ _) (by rw [length_cons, length_cons]; omega)
  | case5 f g p t hf hg hside =>
    obtain ⟨fuel, rfl⟩ := Nat.exists_eq_add_of_le' hfuel
    obtain ⟨h', hrot, hm'⟩ := hm.rotate_outer hside
    have hend := insertLoop_of_black (f := ⟨g.side, .black, f.elem, _⟩) hm' hx rfl
      (fuel + (p.length + 2))
    rw [← add_assoc, insertLoop_of_red hm hx (eq_red_of_ne hf), if_neg hg,
      if_neg (hside ▸ g.side.flip_ne.symm)]
    refine ⟨h', _, ?_, hm', ?_⟩
    · change (rotate g.side.flip _ g.elem >>= fun h ↦ insertLoop _ h x) = _
      rw [hrot]
      exact hend
    · rw [insertColor, if_neg hf, if_neg hg, if_pos hside]
  | case6 f g p t hf hg hside c a y b hsplit =>
    obtain ⟨fuel, rfl⟩ := Nat.exists_eq_add_of_le' hfuel
    obtain rfl := eq_branch_of_split hsplit
    obtain rfl : y = x := by
      rw [root?_branch] at hx
      exact Option.some.inj hx
    have hflip := Side.eq_flip_of_ne hside
    obtain ⟨h₁, hrot₁, hm₁⟩ := hm.rotate_inner hflip
    obtain ⟨h₂, hrot₂, hm₂⟩ := hm₁.rotate_outer rfl
    have hend := insertLoop_of_black (f := ⟨g.side, .black, y, _⟩) hm₂ (root?_branch _ _ _ _ _) rfl
      (fuel + (p.length + 2))
    rw [← add_assoc, insertLoop_of_red hm hx (eq_red_of_ne hf), if_neg hg, if_pos hflip]
    refine ⟨h₂, _, ?_, hm₂, ?_⟩
    · rw [hrot₁]
      change (rotate g.side.flip ((h₁.setColor y .black).setColor g.elem .red) g.elem >>=
        fun h ↦ insertLoop _ h f.elem) = _
      rw [hrot₂]
      exact hend
    · rw [insertColor, if_neg hf, if_neg hg, if_neg hside, hsplit, eq_red_of_ne hf]
  | case7 f g p t hf hg hside hsplit =>
    rcases t.nil_or_branch g.side with rfl | ⟨c, a, y, b, rfl⟩
    · cases hx
    · rw [split_branch] at hsplit
      cases hsplit

theorem Models.blacken (hm : Models h t) : Models (h.setColorIf h.root .black) t.blacken := by
  rw [hm.root]
  exact Models.setColorIf (p := []) hm

theorem rbInsertColor_refines (hm : Models h (fill p t)) (ht : Balanced t .red n)
    (hp : Fits p .black n) (hx : t.root? = some x) (hfuel : p.length + 2 ≤ fuel) :
    ∃ h', rbInsertColor fuel h x = .ok h' ∧ Models h' (insertColor p t) := by
  obtain ⟨h', t', hloop, hm', heq⟩ := insertLoop_refines hm ht hp hx hfuel
  obtain ⟨r, hr⟩ : ∃ r, h'.root = some r := by
    rw [hm'.root]
    rcases t'.nil_or_branch .left with rfl | ⟨c, l, r, q, rfl⟩
    · -- the node that was inserted is in the tree
      have hin := (inorder_insertColor p t).symm.trans (congrArg RbTree.inorder heq).symm
      rw [inorder_fill] at hin
      have hmem : x ∈ p.before ++ t.inorder ++ p.after := by simp [root?_mem hx]
      rw [hin] at hmem
      cases hmem
    · exact ⟨r, root?_branch _ _ _ _ _⟩
  refine ⟨h'.setColor r .black, ?_, ?_⟩
  · rw [rbInsertColor, hloop]
    change (deref h'.root >>= fun root ↦ pure (h'.setColor root .black)) = _
    rw [hr]
    rfl
  · have hb := hm'.blacken
    rw [heq, hr] at hb
    exact hb

/-- The side of its parent a position is on. -/
def sideOf (p : Path ℕ) : Side := (p.head?.map Frame.side).getD .left

theorem Models.rbLinkNode (hm : Models h (fill p .nil)) (hx : x ∉ (fill p .nil).inorder) :
    Models (rbLinkNode h x (parentOf p) (sideOf p)) (fill p (branch .left .red .nil x .nil)) := by
  have hold := pieces_iff_models.2 hm
  have hnodup : (elems p ++ [x]).Nodup := by
    have hperm := perm_fill p .nil
    exact nodup_append'.2 ⟨hperm.nodup_iff.1 hm.nodup, nodup_singleton x,
      disjoint_singleton.2 fun hin ↦ hx (hperm.mem_iff.2 hin)⟩
  -- the new node, before it is linked
  have hnew : Pieces h p none [(x, h.node x)] [(some x, .nil), (some x, .nil)] :=
    ⟨hold.root, hold.path, by simp, by simp [Rep], hnodup⟩
  have hset : Pieces { h with node := Function.update h.node x ⟨parentOf p, .red, none, none⟩ } p
      none ((x, nodeOf .left (parentOf p) .red none none) :: _) _ :=
    hnew.setNode rfl (Function.update_self ..) fun _ hy ↦ Function.update_of_ne hy _ _
  replace hset := hset.setHole (some x)
  cases p with
  | nil | cons f p => exact hset.models rfl rfl

/-! ## `__rb_erase_color` -/

/-- The last step of the loop: rotations that use up a red child of `other`. -/
theorem eraseTurn_refines (hm : Models h (fill p (branch d c t y (branch d .black a z b))))
    (hred : a.isRed = true ∨ b.isRed = true) (up : RbTree ℕ → RbTree ℕ) :
    ∃ h', eraseTurn d h y z = .ok h' ∧
      Models (h'.setColorIf h'.root .black) (settle up p d c t y (branch d .black a z b)) := by
  -- `other` with its red child on the far side: the code from there on
  have last : ∀ {h₁ : Heap} {a' b' : RbTree ℕ} {w : ℕ},
      Models h₁ (fill p (branch d c t y (branch d .black a' w b'))) →
      ∃ h', (let h := h₁.setColor w (h₁.node y).color
        let h := h.setColor y .black
        let h := h.setColorIf ((h.node w).child d.flip) .black
        rotate d h y) = .ok h' ∧
        Models h' (fill p (branch d c (branch d .black t y a') w b'.blacken)) := by
    intro h₁ a' b' w hm₁
    have hy : (h₁.node y).color = c := by rw [hm₁.node_eq, nodeOf_color]
    rw [fill_far] at hm₁
    have h₂ := hm₁.setColor c
    rw [← fill_far] at h₂
    have h₃ := h₂.setColor .black
    rw [fill_far] at h₃
    have hw := h₃.node_eq
    rw [fill_far] at h₃
    have h₄ := h₃.setColorIf
    rw [← fill_far, ← fill_far] at h₄
    obtain ⟨h', hrot, hm'⟩ := h₄.rotate
    refine ⟨h', ?_, hm'⟩
    dsimp only
    rw [hy, hw, nodeOf_far, hrot]
  have hmo : Models h (fill (⟨d.flip, c, y, t⟩ :: p) (branch d .black a z b)) := by rwa [← fill_far]
  have hz := hmo.node_eq
  have hfar : h.isRed ((h.node z).child d.flip) = b.isRed := by
    rw [hz, nodeOf_far]
    rw [fill_far] at hmo
    exact hmo.isRed
  rw [settle, split_branch, eraseTurn, hfar]
  dsimp only
  by_cases hb : b.isRed = true
  · rw [if_pos hb, if_pos hb]
    obtain ⟨h', hcode, hm'⟩ := last hm
    exact ⟨h', hcode, hm'.blacken⟩
  · rw [if_neg hb, if_neg hb]
    have ha := hred.resolve_right hb
    rcases a.nil_or_branch d with rfl | ⟨c₀, a₁, w, a₂, rfl⟩
    · cases ha
    have h₁ : Models h (fill (⟨d, .black, z, b⟩ :: ⟨d.flip, c, y, t⟩ :: p) (branch d c₀ a₁ w a₂)) :=
      hmo
    have h₂ := h₁.setColor .black
    rw [← fill_near] at h₂
    have h₃ := h₂.setColor .red
    rw [← branch_flip d, ← branch_flip d .black] at h₃
    obtain ⟨h₄, hrot, hm₄⟩ := h₃.rotate
    rw [branch_flip, branch_flip, ← fill_far] at hm₄
    have hother : (h₄.node y).child d.flip = some w := by
      rw [hm₄.node_eq, nodeOf_far, root?_branch]
    obtain ⟨h', hcode, hm'⟩ := last hm₄
    rw [ha, split_branch, hz, nodeOf_near, root?_branch]
    refine ⟨h', ?_, ?_⟩
    · change (rotate d.flip ((h.setColor w .black).setColor z .red) z >>= _) = _
      rw [hrot]
      change (deref ((h₄.node y).child d.flip) >>= _) = _
      rw [hother]
      exact hcode
    · have hb' := hm'.blacken
      rwa [blacken_branch] at hb'

/-- The test for red children of `other`. -/
theorem Models.children_isRed (hm : Models h (fill p (branch d c a x b))) :
    (h.isRed (h.node x).left = false ∧ h.isRed (h.node x).right = false) ↔
      (a.isRed = false ∧ b.isRed = false) := by
  have hx := hm.node_eq
  have ha : h.isRed a.root? = a.isRed := (rep_branch.1 (rep_fill.1 hm.rep).2).2.1.isRed
  have hb : h.isRed b.root? = b.isRed := (rep_branch.1 (rep_fill.1 hm.rep).2).2.2.isRed
  cases d with
  | left => simp only [hx, nodeOf, ha, hb]
  | right => simp only [hx, nodeOf, ha, hb, and_comm]

/-- An iteration with a black `other`, if the next one does what it should. -/
theorem eraseStep_refines {loop : Heap → Ptr → Ptr → Except Fault (Heap × Ptr)}
    {up : RbTree ℕ → RbTree ℕ} (hm : Models h (fill p (branch d c t y (branch d .black a z b))))
    (hend : ∀ h₁ q par, h₁.isRed q = true → loop h₁ q par = .ok (h₁, q))
    (hloop : c = .black → a.isRed = false ∧ b.isRed = false → ∀ h₁,
      Models h₁ (fill p (branch d .black t y (branch d .red a z b))) →
      ∃ h' q, loop h₁ (some y) (parentOf p) = .ok (h', q) ∧
        Models (h'.setColorIf q .black) (up (branch d .black t y (branch d .red a z b)))) :
    ∃ h' q, eraseStep loop d h y z = .ok (h', q) ∧
      Models (h'.setColorIf q .black) (settle up p d c t y (branch d .black a z b)) := by
  have hmo : Models h (fill (⟨d.flip, c, y, t⟩ :: p) (branch d .black a z b)) := by rwa [← fill_far]
  rw [eraseStep]
  by_cases hab : a.isRed = false ∧ b.isRed = false
  · rw [if_pos (hmo.children_isRed.2 hab)]
    have h₁ := hmo.setColor .red
    rw [← fill_far] at h₁
    have hy : ((h.setColor z .red).node y).parent = parentOf p := by
      rw [h₁.node_eq, nodeOf_parent]
    have hsettle : settle up p d c t y (branch d .black a z b) =
        if c = .red then fill p (branch d .black t y (branch d .red a z b))
        else up (branch d .black t y (branch d .red a z b)) := by
      rw [settle, split_branch]
      dsimp only
      rw [hab.1, hab.2]
      rfl
    rw [hsettle]
    dsimp only
    rw [hy]
    cases c with
    | red =>
      have hyr : (h.setColor z .red).isRed (some y) = true := by
        have := h₁.isRed
        rwa [root?_branch, isRed_branch] at this
      exact ⟨_, _, hend _ _ _ hyr, h₁.setColor .black⟩
    | black => exact hloop rfl hab _ h₁
  · rw [if_neg fun h ↦ hab (hmo.children_isRed.1 h)]
    have hred : a.isRed = true ∨ b.isRed = true := by
      rcases Bool.eq_false_or_eq_true a.isRed with ha | ha
      · exact Or.inl ha
      · exact Or.inr (eq_true_of_ne_false fun hb ↦ hab ⟨ha, hb⟩)
    obtain ⟨h', hcode, hm'⟩ := eraseTurn_refines hm hred up
    refine ⟨h', h'.root, ?_, hm'⟩
    rw [hcode]
    rfl

/-- Whoever is at the end of the loop. -/
theorem eraseLoop_of_red {q : Ptr} (hq : h.isRed q = true) (par : Ptr) (fuel : ℕ) :
    eraseLoop (fuel + 1) h q par = .ok (h, q) := by
  rw [eraseLoop, if_neg]
  rw [hq]
  exact fun hc ↦ Bool.noConfusion hc.1

theorem rootOf_mem (f : Frame ℕ) (p : Path ℕ) (hole : Ptr) :
    ∃ r, rootOf (f :: p) hole = some r ∧ r ∈ elems (f :: p) := by
  induction p generalizing f hole with
  | nil => exact ⟨f.elem, rfl, mem_elems_cons.2 (Or.inl rfl)⟩
  | cons g p ih =>
    obtain ⟨r, hr, hmem⟩ := ih g (some f.elem)
    exact ⟨r, hr, mem_elems_cons.2 (Or.inr (Or.inr hmem))⟩

/-- What is below the root is not the root. -/
theorem Models.ne_root (hm : Models h (fill (f :: p) t)) : t.root? ≠ h.root := by
  obtain ⟨r, hr, hmem⟩ := rootOf_mem f p t.root?
  rw [hm.root, root?_fill, hr]
  intro heq
  have hnodup := (perm_fill (f :: p) t).nodup_iff.1 hm.nodup
  exact (disjoint_of_nodup_append hnodup) (root?_mem heq) hmem

theorem exists_branch_of_balanced (hb : Balanced t c (n + 1)) (d : Side) :
    ∃ a x b, t = branch d c a x b := by
  rcases t.nil_or_branch d with rfl | ⟨c', a, x, b, rfl⟩
  · cases hb
  · obtain rfl := hb.color_branch
    exact ⟨a, x, b, rfl⟩

/-- An iteration at a black node that is not the root, in terms of the tree. -/
theorem eraseLoop_of_black {cs : Color}
    (hm : Models h (fill (⟨d, c, y, branch d cs a z b⟩ :: p) t)) (ht : t.isRed = false) (fuel : ℕ) :
    eraseLoop (fuel + 1) h t.root? (some y) =
      if cs = .red then do
        let h ← rotate d ((h.setColor z .black).setColor y .red) y
        let other ← deref ((h.node y).child d.flip)
        eraseStep (eraseLoop fuel) d h y other
      else eraseStep (eraseLoop fuel) d h y z := by
  have hy : h.node y = nodeOf d (parentOf p) c t.root? (some z) := by
    rw [Models.node_eq hm, root?_branch]
  have hz : (h.node z).color = cs := by
    have hs : Models h (fill (⟨d.flip, c, y, t⟩ :: p) (branch d cs a z b)) := by
      rw [← fill_far]
      exact hm
    rw [hs.node_eq, nodeOf_color]
  have hne : some z ≠ t.root? := fun heq ↦ hm.sib_ne heq.symm (root?_branch _ _ _ _ _)
  rw [eraseLoop, if_pos ⟨hm.isRed.trans ht, hm.ne_root⟩]
  change (deref ((h.node y).child
    (if (h.node y).left = t.root? then Side.left else Side.right).flip) >>= _) = _
  rw [show (if (h.node y).left = t.root? then Side.left else Side.right) = d by
    rw [hy]; exact side_test hne, hy, nodeOf_far]
  change (if (h.node z).color = .red then _ else _) = _
  rw [hz]

/-- `__rb_erase_color` computes `eraseColor`, up to colouring the node it stops at. -/
theorem eraseLoop_refines (hm : Models h (fill p t)) (ht : Short t n) (hp : Fits p .black (n + 1))
    (hfuel : p.length + 2 ≤ fuel) :
    ∃ h' q, eraseLoop fuel h t.root? (parentOf p) = .ok (h', q) ∧
      Models (h'.setColorIf q .black) (eraseColor p t) := by
  induction p generalizing h t n fuel with
  | nil =>
    obtain ⟨fuel, rfl⟩ := Nat.exists_eq_add_of_le' hfuel
    refine ⟨h, t.root?, ?_, hm.setColorIf⟩
    rw [← add_assoc, eraseLoop, if_neg]
    exact fun hc ↦ hc.2 hm.root.symm
  | cons f p ih =>
    obtain ⟨fuel, rfl⟩ : ∃ k, fuel = k + 1 + 1 := ⟨fuel - 2, by omega⟩
    rw [length_cons] at hfuel
    rw [eraseColor]
    rw [Short] at ht
    by_cases hred : t.isRed = true
    · rw [if_pos hred]
      exact ⟨h, t.root?, eraseLoop_of_red (hm.isRed.trans hred) _ _, hm.setColorIf⟩
    rw [if_neg hred] at ht ⊢
    have hend : ∀ h₁ q par, Heap.isRed h₁ q = true → eraseLoop (fuel + 1) h₁ q par = .ok (h₁, q) :=
      fun _ _ _ hq ↦ eraseLoop_of_red hq _ _
    have hblack : t.isRed = false := eq_false_of_ne_true hred
    cases hp with
    | @red d y s _ _ hs hp =>
      obtain ⟨a, z, b, rfl⟩ := exists_branch_of_balanced hs d
      rw [parentOf_cons, eraseLoop_of_black hm hblack, split_branch]
      exact eraseStep_refines hm hend (by rintro ⟨⟩)
    | @black d y s _ _ cs _ hs hp =>
      obtain ⟨a, z, b, rfl⟩ := exists_branch_of_balanced hs d
      rw [parentOf_cons, eraseLoop_of_black hm hblack, split_branch]
      cases cs with
      | black =>
        refine eraseStep_refines hm hend fun _ hab h₁ hm₁ ↦ ?_
        obtain ⟨-, m, c₁, c₂, hm, ha, hb⟩ := hs.of_branch_black
        obtain rfl : n = m := Nat.succ.inj hm
        obtain rfl := ha.eq_black (Bool.eq_false_iff.1 hab.1)
        obtain rfl := hb.eq_black (Bool.eq_false_iff.1 hab.2)
        have hup : Balanced (branch d .black t y (branch d .red a z b)) .black (n + 1) :=
          ht.branch_black (balanced_branch_red.2 ⟨rfl, ha, hb⟩)
        have hrec := ih hm₁ hup.short hp (show p.length + 2 ≤ fuel + 1 by omega)
        rwa [root?_branch] at hrec
      | red =>
        obtain ⟨-, ha, -⟩ := balanced_branch_red.1 hs
        obtain ⟨a₁, w, a₂, rfl⟩ := exists_branch_of_balanced ha d
        rw [fill, fill_far] at hm
        have h₁ := hm.setColor .black
        rw [← fill_far] at h₁
        obtain ⟨h₂, hrot, hm₂⟩ := (h₁.setColor .red).rotate
        rw [fill_near] at hm₂
        have hother : (h₂.node y).child d.flip = some w := by
          rw [hm₂.node_eq, nodeOf_far, root?_branch]
        rw [hrot]
        change ∃ h' q, (deref ((h₂.node y).child d.flip) >>= _) = _ ∧ _
        rw [hother]
        exact eraseStep_refines hm₂ hend (by rintro ⟨⟩)

theorem rbEraseColor_refines (hm : Models h (fill p t)) (ht : Short t n)
    (hp : Fits p .black (n + 1)) (hfuel : p.length + 2 ≤ fuel) :
    ∃ h', rbEraseColor fuel h t.root? (parentOf p) = .ok h' ∧ Models h' (eraseColor p t) := by
  obtain ⟨h', q, hloop, hm'⟩ := eraseLoop_refines hm ht hp hfuel
  refine ⟨h'.setColorIf q .black, ?_, hm'⟩
  rw [rbEraseColor, hloop]
  rfl

/-! ## `rb_erase` -/

theorem shorten_refines (hm : Models h (fill p t)) (hp : Fits p c n)
    (hblack : c = .black → ∃ m c', n = m + 1 ∧ Balanced t c' m) (hfuel : p.length + 2 ≤ fuel) :
    ∃ h', (if c = .black then rbEraseColor fuel h t.root? (parentOf p) else pure h) = .ok h' ∧
      Models h' (shorten c p t) := by
  cases c with
  | red => exact ⟨h, rfl, hm⟩
  | black =>
    obtain ⟨m, c', rfl, ht⟩ := hblack rfl
    exact rbEraseColor_refines hm ht.short hp hfuel

/-- The node is not linked any more, and is as it was. -/
theorem Models.eraseOne (hm : Models h (fill p (branch d c a x .nil))) :
    Pieces (eraseOne h x a.root?) p a.root? [(x, nodeOf d (parentOf p) c a.root? none)]
      [(parentOf p, a)] := by
  rw [Rbtree.eraseOne, hm.node_eq, nodeOf_parent]
  exact ((hm.pieces.setParentIf (parentOf p)).replaceChild .left a.root?).sublist
    (.refl _) (sublist_append_left [_] [_])

theorem copyNode_of_ne {old node : ℕ} (hz : z ≠ node) :
    (copyNode h old node).node z = h.node z := by
  simp only [copyNode, Heap.setChild_of_ne hz, Heap.setColor_of_ne hz, Heap.setParent_of_ne hz]

theorem copyNode_self {old node : ℕ} (hne : old ≠ node) :
    (copyNode h old node).node node = h.node old := by
  simp only [copyNode, Heap.setChild_of_ne hne, Heap.setColor_of_ne hne, Heap.setParent_of_ne hne]
  simp [Heap.setChild, Heap.setColor, Heap.setParent]

theorem Pieces.copyNode {hole : Ptr} {v w : RbNode} {xs : List (ℕ × RbNode)}
    {ts : List (Ptr × RbTree ℕ)} (hp : Pieces h p hole ((y, w) :: (x, v) :: xs) ts) :
    Pieces (copyNode h x y) p hole ((y, v) :: (x, v) :: xs) ts := by
  have hne : x ≠ y := fun hc ↦ hp.notMem (mem_append_right _ (by simp [hc]))
  refine hp.setNode rfl ((copyNode_self hne).trans ?_) fun _ hz ↦ copyNode_of_ne hz
  exact hp.node _ (mem_cons_of_mem _ mem_cons_self)

theorem mem_elems_append :
    z ∈ elems (q ++ p) ↔ z ∈ elems q ∨ z ∈ elems p := by
  induction q with
  | nil => simp [elems]
  | cons f q ih => rw [cons_append, mem_elems_cons, mem_elems_cons]; tauto

/-- The successor leaves its place and takes that of the node to be erased. -/
theorem eraseTwo_refines {left : ℕ} {c' : Color}
    (hm : Models h (fill (q ++ ⟨.right, c, x, l⟩ :: p) (branch .right c' s y .nil)))
    (hleft : l.root? = some left) :
    ∃ h', eraseTwo h x y =
        .ok (h', s.root?, parentOf (q ++ ⟨.right, c, y, l⟩ :: p)) ∧
      Models h' (fill (q ++ ⟨.right, c, y, l⟩ :: p) s) := by
  have hap := hm.apart
  have hy := hm.node_eq
  have h₁ := hm.eraseOne
  -- the same tree, seen from the node to be erased
  have hx : Pieces (eraseOne h y s.root?) p (some x)
      [(x, nodeOf .right (parentOf p) c (fill q s).root? l.root?), (y, _)]
      [(some x, l), (some x, fill q s)] := pieces_frame.1 h₁.fold
  have h₂ := (hx.perm (.swap ..) .rfl).copyNode
  have h₃ := (h₂.perm (.swap ..) .rfl).replaceChild .left (some y)
  have h₄ := h₃.setParentIf (some y)
  have h₅ := (h₄.perm .rfl (.swap ..)).setParentIf (some y)
  -- the parent of the place the successor leaves, which may be the successor in its new place
  have hparent : (if parentOf (q ++ ⟨.right, c, x, l⟩ :: p) = some x then some y
      else parentOf (q ++ ⟨.right, c, x, l⟩ :: p)) = parentOf (q ++ ⟨.right, c, y, l⟩ :: p) := by
    cases q with
    | nil => exact if_pos rfl
    | cons g q =>
      refine if_neg fun hg ↦ ?_
      have hgx : g.elem = x := Option.some.inj hg
      have hx : x ∈ elems (q ++ ⟨.right, c, x, l⟩ :: p) :=
        mem_elems_append.2 (Or.inr (mem_elems_cons.2 (Or.inl rfl)))
      exact (nodup_cons.1 hap.path).1 (mem_append_right _ (hgx ▸ hx))
  rw [fill_append]
  refine ⟨_, ?_, (h₅.sublist (sublist_cons_self _ _) (.refl _)).models rfl rfl⟩
  have hright : (h.node y).right = s.root? := by rw [hy]; rfl
  have hp : (h.node y).parent = parentOf (q ++ ⟨.right, c, x, l⟩ :: p) := by
    rw [hy, nodeOf_parent]
  have hone : (h.setParentIf s.root? (parentOf (q ++ ⟨.right, c, x, l⟩ :: p))).replaceChild .left
      (parentOf (q ++ ⟨.right, c, x, l⟩ :: p)) y s.root? = eraseOne h y s.root? := by
    rw [eraseOne, hp]
  rw [eraseTwo, hright, hp, hone, h₁.node _ mem_cons_self, nodeOf_parent, hparent,
    h₂.node _ (mem_cons_of_mem _ mem_cons_self), nodeOf_parent,
    h₃.node _ mem_cons_self]
  have hx₄ := h₄.node _ mem_cons_self
  rw [hleft] at hx₄ ⊢
  exact congrArg (fun n : RbNode ↦ Except.ok (Heap.setParentIf _ n.right (some y), _, _)) hx₄

theorem leftmost_refines {parent : Ptr} {q' : Path ℕ} {c' : Color}
    (ht : Rep h parent t) (hx : t.root? = some x) (hmin : splitMin t q = some (q', c', y, s))
    (hfuel : q'.length + 1 ≤ fuel + q.length) : leftmost fuel h x = .ok y := by
  have hle : ∀ {t : RbTree ℕ} {q : Path ℕ}, splitMin t q = some (q', c', y, s) →
      q.length ≤ q'.length := by
    intro t q hmin
    induction t, q using splitMin.induct with
    | case1 => cases hmin
    | case2 => cases hmin; exact le_rfl
    | case3 c l x r q hl ih =>
      rw [splitMin.eq_3 _ _ _ _ _ hl] at hmin
      exact (Nat.le_succ _).trans (ih hmin)
  induction t, q using splitMin.induct generalizing parent x fuel with
  | case1 => cases hmin
  | case2 c z r q =>
    cases hmin
    cases hx
    obtain ⟨fuel, rfl⟩ : ∃ k, fuel = k + 1 := ⟨fuel - 1, by omega⟩
    rw [leftmost, ht.1]
    rfl
  | case3 c l z r q hl ih =>
    rw [splitMin.eq_3 _ _ _ _ _ hl] at hmin
    cases hx
    have hq := hle hmin
    rw [length_cons] at hq
    obtain ⟨fuel, rfl⟩ : ∃ k, fuel = k + 1 := ⟨fuel - 1, by omega⟩
    obtain ⟨x', hx'⟩ : ∃ x', l.root? = some x' := by
      rcases l.nil_or_branch .left with rfl | ⟨c, a, x', b, rfl⟩
      · exact absurd rfl hl
      · exact ⟨x', root?_branch _ _ _ _ _⟩
    have hrec : leftmost fuel h x' = .ok y :=
      ih ht.2.1 hx' hmin (by rw [length_cons]; omega)
    rw [leftmost, ht.1]
    rw [hx']
    exact hrec

theorem length_le_elems (p : Path ℕ) : p.length ≤ (elems p).length := by
  induction p with
  | nil => exact le_rfl
  | cons f p ih =>
    rw [elems, length_cons, length_cons, length_append]
    omega

/-- A path is no longer than the tree is large. -/
theorem length_le_fill (p : Path ℕ) (t : RbTree ℕ) : p.length ≤ (fill p t).inorder.length := by
  rw [(perm_fill p t).length_eq, length_append]
  exact (length_le_elems p).trans (Nat.le_add_left _ _)

theorem eraseOne_refines {r : RbTree ℕ} (hm : Models h (fill p (.node c l x r)))
    (hbal : Balanced (fill p (.node c l x r)) .black n) (hs : l = .nil ∧ s = r ∨ r = .nil ∧ s = l)
    (hfuel : (fill p (.node c l x r)).inorder.length + 2 ≤ fuel) :
    ∃ h', (if (h.node x).color = .black then
        rbEraseColor fuel (eraseOne h x s.root?) s.root? (h.node x).parent
      else pure (eraseOne h x s.root?)) = .ok h' ∧ Models h' (shorten c p s) := by
  have hlen := length_le_fill p (.node c l x r)
  obtain ⟨c₀, m, hp, ht⟩ := exists_fits hbal
  have hx := Models.node_eq (d := .left) hm
  have hm₁ : Models (eraseOne h x s.root?) (fill p s) := by
    rcases hs with ⟨rfl, rfl⟩ | ⟨rfl, rfl⟩
    · exact pieces_iff_models.1
        ((Models.eraseOne (d := .right) hm).sublist (nil_sublist _) (.refl _))
    · exact pieces_iff_models.1
        ((Models.eraseOne (d := .left) hm).sublist (nil_sublist _) (.refl _))
  obtain rfl : c = c₀ := Balanced.color_branch (d := .left) ht
  rw [hx]
  refine shorten_refines hm₁ hp ?_ (by omega)
  rintro rfl
  obtain ⟨-, m', c₁, c₂, rfl, hl, hr⟩ := Balanced.of_branch_black (d := .left) ht
  rcases hs with ⟨-, rfl⟩ | ⟨-, rfl⟩
  · exact ⟨m', c₂, rfl, hr⟩
  · exact ⟨m', c₁, rfl, hl⟩

theorem rbErase_refines {r : RbTree ℕ} (hm : Models h (fill p (.node c l x r)))
    (hbal : Balanced (fill p (.node c l x r)) .black n)
    (hfuel : (fill p (.node c l x r)).inorder.length + 2 ≤ fuel) :
    ∃ h', rbErase fuel h x = .ok h' ∧ Models h' (erase p (.node c l x r)) := by
  have hx : h.node x = ⟨parentOf p, c, r.root?, l.root?⟩ := Models.node_eq (d := .left) hm
  have hl : (h.node x).left = l.root? := by rw [hx]
  have hr : (h.node x).right = r.root? := by rw [hx]
  rw [rbErase, hl, hr]
  cases l with
  | nil => exact eraseOne_refines hm hbal (Or.inl ⟨rfl, rfl⟩) hfuel
  | node cl ll xl rl =>
    cases r with
    | nil => exact eraseOne_refines hm hbal (Or.inr ⟨rfl, rfl⟩) hfuel
    | node cr lr xr rr =>
      obtain ⟨q, c', y, s, hmin⟩ := splitMin_isSome (t := .node cr lr xr rr) (by simp) []
      -- the same tree, seen from the successor
      have hfill : fill (q ++ ⟨.right, c, x, .node cl ll xl rl⟩ :: p) (branch .right c' s y .nil) =
          fill p (.node c (.node cl ll xl rl) x (.node cr lr xr rr)) := by
        rw [fill_append]
        exact congrArg (fill (⟨.right, c, x, .node cl ll xl rl⟩ :: p)) (splitMin_spec hmin).1
      have hlen := length_le_fill (q ++ ⟨.right, c, x, .node cl ll xl rl⟩ :: p)
        (branch .right c' s y .nil)
      rw [hfill, length_append, length_cons] at hlen
      have hrep : Rep h (some x) (.node cr lr xr rr) := (rep_fill.1 hm.rep).2.2.2
      have hleft : leftmost fuel h xr = .ok y :=
        leftmost_refines hrep rfl hmin (by rw [length_nil]; omega)
      rw [← hfill] at hm hbal
      obtain ⟨h₁, htwo, hm₁⟩ := eraseTwo_refines hm rfl
      obtain ⟨c₀, m, hp, ht⟩ := exists_fits hbal
      obtain rfl : c' = c₀ := ht.color_branch
      have hcolor : (h.node y).color = c' := by rw [hm.node_eq, nodeOf_color]
      obtain ⟨h', hcode, hm'⟩ := shorten_refines hm₁ (hp.replace)
        (by
          rintro rfl
          obtain ⟨-, m', c₁, c₂, rfl, hs, -⟩ := ht.of_branch_black
          exact ⟨m', c₁, rfl, hs⟩)
        (show _ + 2 ≤ fuel by rw [length_append, length_cons]; omega)
      refine ⟨h', ?_, ?_⟩
      · change (leftmost fuel h xr >>= _) = _
        rw [hleft]
        change (eraseTwo h x y >>= _) = _
        rw [htwo]
        rw [hcolor]
        exact hcode
      · simp only [erase, hmin]
        exact hm'

end Linux24.Rbtree
