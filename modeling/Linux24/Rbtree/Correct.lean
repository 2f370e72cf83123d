import Linux24.Rbtree.Refines

/-!
# Red-black trees stay red-black trees

The two operations of `lib/rbtree.c` as its users see them.  A user has a tree in memory, finds a
place for a new node by following child pointers down to a `NULL` one, links the node there with
`rb_link_node` and calls `rb_insert_color`; or it has a node of the tree and calls `rb_erase`.
`rbtree_correct` says what they leave behind, for every tree, every place and every node.  That no
`NULL` pointer is followed and that the loops end is part of it: `.ok` says both.
-/

set_option autoImplicit false

namespace Linux24.Rbtree

open RedBlack

/-- Every node of a tree is at some position. -/
theorem exists_fill_of_mem {t : RbTree ℕ} {x : ℕ} (hx : x ∈ t.inorder) :
    ∃ p c l r, t = fill p (.node c l x r) := by
  induction t with
  | nil => cases hx
  | node c l y r ihl ihr =>
    rw [RbTree.inorder, List.mem_append, List.mem_cons] at hx
    rcases hx with hl | rfl | hr
    · obtain ⟨p, c', l', r', rfl⟩ := ihl hl
      exact ⟨p ++ [⟨.left, c, y, r⟩], c', l', r', by rw [fill_append]; rfl⟩
    · exact ⟨[], c, l, r, rfl⟩
    · obtain ⟨p, c', l', r', rfl⟩ := ihr hr
      exact ⟨p ++ [⟨.right, c, y, l⟩], c', l', r', by rw [fill_append]; rfl⟩

/-- **The operations of `lib/rbtree.c` are correct.**  On a memory that holds a red-black tree `t`:
linking a new node `x` at an empty position and calling `rb_insert_color`, and calling `rb_erase`
for a node of the tree, come to an end without following a `NULL` pointer, and leave a memory that
holds a red-black tree again, whose nodes in order are the old ones with `x` where it was linked,
respectively without `x`. -/
theorem rbtree_correct {h : Heap} {t : RbTree ℕ} (hm : Models h t) (ht : Valid t) {fuel : ℕ}
    (hfuel : t.inorder.length + 2 ≤ fuel) :
    (∀ p x, fill p .nil = t → x ∉ t.inorder →
      ∃ h' t', rbInsertColor fuel (rbLinkNode h x (parentOf p) (sideOf p)) x = .ok h' ∧
        Models h' t' ∧ Valid t' ∧ t.inorder = p.before ++ p.after ∧
        t'.inorder = p.before ++ x :: p.after) ∧
    ∀ x ∈ t.inorder,
      ∃ h' t', rbErase fuel h x = .ok h' ∧ Models h' t' ∧ Valid t' ∧
        t'.inorder = t.inorder.erase x := by
  obtain ⟨n, hbal⟩ := valid_iff.1 ht
  constructor
  · rintro p x rfl hx
    obtain ⟨c, m, hp, hnil⟩ := exists_fits hbal
    cases hnil
    have hnew : Balanced (branch .left .red .nil x .nil) .red 0 := .red .nil .nil
    have hlen := length_le_fill p .nil
    obtain ⟨h', hcode, hm'⟩ := rbInsertColor_refines (hm.rbLinkNode hx) hnew hp
      (root?_branch _ _ _ _ _) (show p.length + 2 ≤ fuel by omega)
    refine ⟨h', _, hcode, hm', valid_iff.2 (balanced_insertColor hnew hp), ?_, ?_⟩
    · rw [inorder_fill]
      simp [RbTree.inorder]
    · rw [inorder_insertColor, inorder_fill]
      simp [branch, RbTree.inorder]
  · intro x hx
    obtain ⟨p, c, l, r, rfl⟩ := exists_fill_of_mem hx
    obtain ⟨h', hcode, hm'⟩ := rbErase_refines hm hbal hfuel
    exact ⟨h', _, hcode, hm', valid_iff.2 (balanced_erase hbal), inorder_erase_eq hm.nodup⟩

/-- A root with a red child on each side, at the addresses 1, 0 and 2. -/
def threeNodes : Heap where
  node
    | 0 => ⟨some 1, .red, none, none⟩
    | 1 => ⟨none, .black, some 2, some 0⟩
    | _ => ⟨some 1, .red, none, none⟩
  root := some 1

theorem rbtree_correct_threeNodes :
    (∃ h' t', rbInsertColor 5 (rbLinkNode threeNodes 3 (some 2) .right) 3 = .ok h' ∧
      Models h' t' ∧ Valid t' ∧ t'.inorder = [0, 1, 2, 3]) ∧
    ∃ h' t', rbErase 5 threeNodes 1 = .ok h' ∧ Models h' t' ∧ Valid t' ∧ t'.inorder = [0, 2] := by
  have hm : Models threeNodes
      (.node .black (.node .red .nil 0 .nil) 1 (.node .red .nil 2 .nil)) :=
    ⟨rfl, ⟨rfl, ⟨rfl, trivial, trivial⟩, rfl, trivial, trivial⟩, by decide⟩
  have ht : Valid (.node .black (.node .red .nil 0 .nil) 1 (.node .red .nil 2 .nil) : RbTree ℕ) :=
    valid_iff.2 ⟨1, .black (.red .nil .nil) (.red .nil .nil)⟩
  obtain ⟨hins, hdel⟩ := rbtree_correct hm ht (show 3 + 2 ≤ 5 by decide)
  constructor
  · obtain ⟨h', t', hcode, hm', hv, -, hin⟩ := hins
      [⟨.right, .red, 2, .nil⟩, ⟨.right, .black, 1, .node .red .nil 0 .nil⟩] 3 rfl (by decide)
    exact ⟨h', t', hcode, hm', hv, hin⟩
  · exact hdel 1 (by decide)

end Linux24.Rbtree
