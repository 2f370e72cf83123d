import Mathlib

/-!
# Red-black trees, from the inside

Insertion and deletion as an imperative implementation does them: the tree has been changed at one
position, which breaks the balance there, and a loop repairs it on the way up to the root.  A
position is a `Path`, the list of what lies between it and the root, innermost first, and the two
loops recurse on it.

Everything comes in a left and in a right version.  `branch d c a x b` is the node whose subtree on
side `d` is `a` and whose other subtree is `b`, so that each case is stated and proved once.

* `Balanced t c n` — the red-black conditions, for a tree whose root has colour `c` and whose paths
  have `n` black nodes; `Fits p c n` says that `p` is balanced with such a tree at its end.
* `insertColor p t` repairs the tree that has the red node `t` at `p`, and `eraseColor p t` the one
  in which `t` at `p` is one black node short.  Both keep the order of the elements
  (`inorder_insertColor`, `inorder_eraseColor`) and restore the balance (`balanced_insertColor`,
  `balanced_eraseColor`).
* `erase p t` deletes the root of the tree `t` at `p`, replacing it by its successor if it has two
  children.
* `Valid` spells the conditions out without an index, path by path, and `valid_iff` says that they
  are the same.
-/

set_option autoImplicit false

universe u

namespace RedBlack

/-- The colour of a node. -/
inductive Color
  | red
  | black
deriving DecidableEq, Repr

/-- One of the two subtrees of a node. -/
inductive Side
  | left
  | right
deriving DecidableEq, Repr

/-- The other one. -/
def Side.flip : Side → Side
  | .left => .right
  | .right => .left

@[simp] theorem Side.flip_flip (d : Side) : d.flip.flip = d := by cases d <;> rfl

theorem Side.flip_ne (d : Side) : d.flip ≠ d := by cases d <;> decide

theorem Side.eq_flip_of_ne {d e : Side} (h : d ≠ e) : d = e.flip := by
  cases d <;> cases e <;> first | rfl | exact absurd rfl h

/-- Coloured binary trees. -/
inductive RbTree (α : Type u)
  | nil
  | node (c : Color) (l : RbTree α) (x : α) (r : RbTree α)
deriving DecidableEq, Repr

open Color

variable {α : Type u}

/-- The node with `a` on side `d` and `b` on the other side. -/
def branch (d : Side) (c : Color) (a : RbTree α) (x : α) (b : RbTree α) : RbTree α :=
  match d with
  | .left => .node c a x b
  | .right => .node c b x a

/-- A node between a position and the root: the position is on its side `side`, and `sib` is the
subtree on the other side. -/
structure Frame (α : Type u) where
  /-- Which subtree the position is in. -/
  side : Side
  /-- The colour of the node. -/
  color : Color
  /-- The element of the node. -/
  elem : α
  /-- The other subtree. -/
  sib : RbTree α
deriving DecidableEq, Repr

/-- A position, innermost node first. -/
abbrev Path (α : Type u) := List (Frame α)

/-- The tree with `t` at the position. -/
def fill : Path α → RbTree α → RbTree α
  | [], t => t
  | f :: p, t => fill p (branch f.side f.color t f.elem f.sib)

namespace RbTree

/-- The elements in order. -/
def inorder : RbTree α → List α
  | .nil => []
  | .node _ l x r => l.inorder ++ x :: r.inorder

/-- The element at the root. -/
def root? : RbTree α → Option α
  | .nil => none
  | .node _ _ x _ => some x

/-- Whether the root is a red node. -/
def isRed : RbTree α → Bool
  | .node red _ _ _ => true
  | _ => false

/-- The tree with its root coloured black. -/
def blacken : RbTree α → RbTree α
  | .nil => .nil
  | .node _ l x r => .node black l x r

/-- The root of a nonempty tree and its subtrees, the one on side `d` first. -/
def split (d : Side) : RbTree α → Option (Color × RbTree α × α × RbTree α)
  | .nil => none
  | .node c l x r =>
    match d with
    | .left => some (c, l, x, r)
    | .right => some (c, r, x, l)

end RbTree

/-! ## Branches -/

@[simp] theorem branch_flip (d : Side) (c : Color) (a b : RbTree α) (x : α) :
    branch d.flip c a x b = branch d c b x a := by cases d <;> rfl

@[simp] theorem split_branch (d : Side) (c : Color) (a b : RbTree α) (x : α) :
    (branch d c a x b).split d = some (c, a, x, b) := by cases d <;> rfl

@[simp] theorem blacken_branch (d : Side) (c : Color) (a b : RbTree α) (x : α) :
    (branch d c a x b).blacken = branch d black a x b := by cases d <;> rfl

@[simp] theorem root?_branch (d : Side) (c : Color) (a b : RbTree α) (x : α) :
    (branch d c a x b).root? = some x := by cases d <;> rfl

@[simp] theorem isRed_branch (d : Side) (c : Color) (a b : RbTree α) (x : α) :
    (branch d c a x b).isRed = decide (c = red) := by cases d <;> cases c <;> rfl

/-- Every tree is empty or a branch, on whichever side one looks. -/
theorem RbTree.nil_or_branch (d : Side) (t : RbTree α) :
    t = .nil ∨ ∃ c a x b, t = branch d c a x b := by
  cases t with
  | nil => exact Or.inl rfl
  | node c l x r =>
    cases d with
    | left => exact Or.inr ⟨c, l, x, r, rfl⟩
    | right => exact Or.inr ⟨c, r, x, l, rfl⟩

theorem eq_branch_of_split {d : Side} {t : RbTree α} {c : Color} {a b : RbTree α} {x : α}
    (h : t.split d = some (c, a, x, b)) : t = branch d c a x b := by
  rcases t.nil_or_branch d with rfl | ⟨c', a', x', b', rfl⟩
  · cases h
  · rw [split_branch] at h
    cases h
    rfl

/-! ## Order -/

/-- The elements before the position. -/
def Path.before : Path α → List α
  | [] => []
  | f :: p =>
    match f.side with
    | .left => Path.before p
    | .right => Path.before p ++ (f.sib.inorder ++ [f.elem])

/-- The elements after the position. -/
def Path.after : Path α → List α
  | [] => []
  | f :: p =>
    match f.side with
    | .left => f.elem :: f.sib.inorder ++ Path.after p
    | .right => Path.after p

theorem inorder_fill (p : Path α) (t : RbTree α) :
    (fill p t).inorder = p.before ++ t.inorder ++ p.after := by
  induction p generalizing t with
  | nil => simp [fill, Path.before, Path.after]
  | cons f p ih =>
    rw [fill, ih]
    obtain ⟨d, c, x, s⟩ := f
    cases d <;> simp [branch, RbTree.inorder, Path.before, Path.after]

/-- What is in order at a position is in order in the whole. -/
theorem inorder_fill_congr (p : Path α) {t t' : RbTree α} (h : t.inorder = t'.inorder) :
    (fill p t).inorder = (fill p t').inorder := by
  rw [inorder_fill, inorder_fill, h]

@[simp] theorem inorder_blacken (t : RbTree α) : t.blacken.inorder = t.inorder := by
  cases t <;> rfl

/-- The order does not depend on the colours, -/
theorem inorder_branch_color (d : Side) (c c' : Color) (a b : RbTree α) (x : α) :
    (branch d c a x b).inorder = (branch d c' a x b).inorder := by cases d <;> rfl

theorem inorder_branch_congr (d : Side) (c c' : Color) {a a' b b' : RbTree α} (x : α)
    (ha : a.inorder = a'.inorder) (hb : b.inorder = b'.inorder) :
    (branch d c a x b).inorder = (branch d c' a' x b').inorder := by
  cases d <;> simp [branch, RbTree.inorder, ha, hb]

/-- nor on which way round two nodes are. -/
theorem inorder_rotate (d : Side) (c₁ c₂ c₃ c₄ : Color) (s t u : RbTree α) (x y : α) :
    (branch d c₁ s x (branch d c₂ t y u)).inorder =
      (branch d c₃ (branch d c₄ s x t) y u).inorder := by
  cases d <;> simp [branch, RbTree.inorder]

/-! ## Repairing an insertion -/

/-- The tree after a red node has been put at the position: its parent may be red too.  With a red
uncle the two reds become black and the grandparent red; otherwise one or two rotations at the
grandparent finish the work.  A red root as parent does not occur in a balanced tree. -/
def insertColor : Path α → RbTree α → RbTree α
  | [], t => t.blacken
  | [f], t => (fill [f] t).blacken
  | f :: g :: p, t =>
    if f.color = black then (fill (f :: g :: p) t).blacken
    else if g.sib.isRed then
      insertColor p
        (branch g.side red (branch f.side black t f.elem f.sib) g.elem g.sib.blacken)
    else if f.side = g.side then
      (fill p (branch g.side black t f.elem (branch g.side red f.sib g.elem g.sib))).blacken
    else
      match t.split g.side with
      | some (_, a, x, b) =>
        (fill p (branch g.side black (branch g.side red f.sib f.elem a) x
          (branch g.side red b g.elem g.sib))).blacken
      | none => fill (f :: g :: p) t

theorem inorder_insertColor (p : Path α) (t : RbTree α) :
    (insertColor p t).inorder = (fill p t).inorder := by
  induction p, t using insertColor.induct with
  | case1 t => exact inorder_blacken t
  | case2 f t => exact inorder_blacken _
  | case3 f g p t hf =>
    rw [insertColor, if_pos hf, inorder_blacken]
  | case4 f g p t hf hg ih =>
    rw [insertColor, if_neg hf, if_pos hg, ih]
    exact inorder_fill_congr p (inorder_branch_congr _ _ _ _ (inorder_branch_color _ _ _ _ _ _)
      (inorder_blacken _))
  | case5 f g p t hf hg hside =>
    rw [insertColor, if_neg hf, if_neg hg, if_pos hside, inorder_blacken, fill, hside]
    have hrot := inorder_rotate g.side.flip g.color f.color black red g.sib f.sib t g.elem f.elem
    simp only [branch_flip] at hrot
    exact inorder_fill_congr p hrot.symm
  | case6 f g p t hf hg hside c a x b hsplit =>
    rw [insertColor, if_neg hf, if_neg hg, if_neg hside, hsplit, inorder_blacken, fill,
      Side.eq_flip_of_ne hside, branch_flip, eq_branch_of_split hsplit]
    refine inorder_fill_congr p ?_
    cases g.side <;> simp [branch, RbTree.inorder]
  | case7 f g p t hf hg hside hsplit =>
    rw [insertColor, if_neg hf, if_neg hg, if_neg hside, hsplit]

/-! ## Repairing a deletion -/

/-- The case of a black sibling `other`, with the short tree `t` and its parent `y` of colour `c` at
the position `p`.  If `other` has no red child, it becomes red, and `y` is short in its turn, which
is settled if `y` is red and otherwise left to `up`; if it has one, one or two rotations at `y`
finish the work. -/
def settle (up : RbTree α → RbTree α) (p : Path α) (d : Side) (c : Color) (t : RbTree α) (y : α)
    (other : RbTree α) : RbTree α :=
  match other.split d with
  | none => fill p (branch d c t y other)
  | some (_, a, z, b) =>
    if b.isRed then
      (fill p (branch d c (branch d black t y a) z b.blacken)).blacken
    else
      match a.isRed, a.split d with
      | true, some (_, a₁, w, a₂) =>
        (fill p (branch d c (branch d black t y a₁) w (branch d black a₂ z b))).blacken
      | _, _ =>
        if c = red then fill p (branch d black t y (branch d red a z b))
        else up (branch d black t y (branch d red a z b))

/-- The tree after the subtree at the position has become one black node short.  A red sibling is
rotated out of the way first. -/
def eraseColor : Path α → RbTree α → RbTree α
  | [], t => t.blacken
  | f :: p, t =>
    if t.isRed then fill (f :: p) t.blacken
    else
      match f.sib.split f.side with
      | some (red, a, z, b) =>
        settle id (⟨f.side, black, z, b⟩ :: p) f.side red t f.elem a
      | _ => settle (eraseColor p) p f.side f.color t f.elem f.sib

/-- `settle` keeps the order, if what it leaves undone does. -/
theorem inorder_settle {up : RbTree α → RbTree α} {p : Path α} (d : Side) (c : Color) (t : RbTree α)
    (y : α) (other : RbTree α) (hup : c ≠ red → ∀ t', (up t').inorder = (fill p t').inorder) :
    (settle up p d c t y other).inorder = (fill p (branch d c t y other)).inorder := by
  rcases other.nil_or_branch d with rfl | ⟨c', a, z, b, rfl⟩
  · rfl
  rw [settle, split_branch]
  dsimp only
  split
  · rw [inorder_blacken]
    refine inorder_fill_congr p ?_
    cases d <;> simp [branch, RbTree.inorder]
  split
  · rename_i a₀ a₁ w a₂ _ hsplit
    rw [eq_branch_of_split hsplit, inorder_blacken]
    refine inorder_fill_congr p ?_
    cases d <;> simp [branch, RbTree.inorder]
  · have hsame := inorder_fill_congr p (inorder_branch_congr d black c y (rfl : t.inorder = _)
      (inorder_branch_color d red c' a b z))
    split
    · exact hsame
    · rename_i hc
      rw [hup hc, hsame]

theorem inorder_eraseColor (p : Path α) (t : RbTree α) :
    (eraseColor p t).inorder = (fill p t).inorder := by
  induction p generalizing t with
  | nil => exact inorder_blacken t
  | cons f p ih =>
    rw [eraseColor]
    split
    · exact inorder_fill_congr _ (inorder_blacken t)
    split
    · rename_i a z b hsplit
      rw [inorder_settle _ _ _ _ _ fun h ↦ absurd rfl h, fill, fill, eq_branch_of_split hsplit]
      exact inorder_fill_congr p (inorder_rotate _ _ _ _ _ _ _ _ _ _).symm
    · exact inorder_settle _ _ _ _ _ fun _ ↦ ih

/-- The path to the first element of a tree, the colour of its node, the element, and the subtree
after it. -/
def splitMin : RbTree α → Path α → Option (Path α × Color × α × RbTree α)
  | .nil, _ => none
  | .node c .nil x r, p => some (p, c, x, r)
  | .node c l x r, p => splitMin l (⟨.left, c, x, r⟩ :: p)

/-- Repairing the tree after a node of colour `c` has been replaced by its only subtree. -/
def shorten (c : Color) (p : Path α) (t : RbTree α) : RbTree α :=
  if c = black then eraseColor p t else fill p t

/-- Deleting the root of the tree at the position. -/
def erase (p : Path α) : RbTree α → RbTree α
  | .nil => fill p .nil
  | .node c .nil _ r => shorten c p r
  | .node c l _ .nil => shorten c p l
  | .node c l x r =>
    match splitMin r [] with
    | none => fill p (.node c l x r)
    | some (q, c', y, s) => shorten c' (q ++ ⟨.right, c, y, l⟩ :: p) s

/-! ## Deletion and order -/

theorem fill_append (q p : Path α) (t : RbTree α) : fill (q ++ p) t = fill p (fill q t) := by
  induction q generalizing t with
  | nil => rfl
  | cons f q ih => exact ih _

theorem splitMin_isSome {t : RbTree α} (ht : t ≠ .nil) (p : Path α) :
    ∃ q c x r, splitMin t p = some (q, c, x, r) := by
  induction t, p using splitMin.induct with
  | case1 => exact absurd rfl ht
  | case2 c x r p => exact ⟨p, c, x, r, rfl⟩
  | case3 c l x r p hl ih =>
    obtain ⟨q, c', x', r', h⟩ := ih hl
    rw [splitMin.eq_3 _ _ _ _ _ hl]
    exact ⟨q, c', x', r', h⟩

/-- What `splitMin` finds is in the tree, and there is nothing before it. -/
theorem splitMin_spec {t r : RbTree α} {p q : Path α} {c : Color} {x : α}
    (h : splitMin t p = some (q, c, x, r)) :
    fill q (.node c .nil x r) = fill p t ∧ q.before = p.before := by
  induction t, p using splitMin.induct with
  | case1 => cases h
  | case2 => cases h; exact ⟨rfl, rfl⟩
  | case3 c l x r p hl ih =>
    rw [splitMin.eq_3 _ _ _ _ _ hl] at h
    exact ih h

theorem inorder_shorten (c : Color) (p : Path α) (t : RbTree α) :
    (shorten c p t).inorder = p.before ++ t.inorder ++ p.after := by
  rw [shorten]
  split
  · rw [inorder_eraseColor, inorder_fill]
  · rw [inorder_fill]

/-- Deletion takes out the element at the position and no other. -/
theorem inorder_erase (p : Path α) (c : Color) (l r : RbTree α) (x : α) :
    (erase p (.node c l x r)).inorder = p.before ++ (l.inorder ++ r.inorder) ++ p.after := by
  cases l with
  | nil => exact inorder_shorten c p r
  | node cl ll xl rl =>
    cases r with
    | nil =>
      change (shorten c p _).inorder = _
      rw [inorder_shorten]
      simp [RbTree.inorder]
    | node cr lr xr rr =>
      obtain ⟨q, c', y, s, h⟩ := splitMin_isSome (t := .node cr lr xr rr) (by simp) []
      have hfill := congrArg RbTree.inorder (splitMin_spec h).1
      have hbefore : Path.before q = [] := (splitMin_spec h).2
      rw [inorder_fill, fill] at hfill
      have hshort := inorder_shorten c' (q ++ ⟨.right, c, y, .node cl ll xl rl⟩ :: p) s
      rw [← inorder_fill, fill_append, fill] at hshort
      simp only [erase, h, hshort, ← hfill]
      simp [branch, RbTree.inorder, inorder_fill, hbefore]

/-! ## Balance -/

/-- The red-black conditions for a tree whose root has colour `c` and whose paths have `n` black
nodes.  The empty tree counts as black. -/
inductive Balanced : RbTree α → Color → ℕ → Prop
  | nil : Balanced .nil black 0
  | red {l r : RbTree α} {x : α} {n : ℕ} (hl : Balanced l black n) (hr : Balanced r black n) :
      Balanced (.node red l x r) red n
  | black {l r : RbTree α} {x : α} {c₁ c₂ : Color} {n : ℕ} (hl : Balanced l c₁ n)
      (hr : Balanced r c₂ n) : Balanced (.node black l x r) black (n + 1)

/-- The tree is balanced if the position holds a balanced tree with a root of colour `c` and `n`
black nodes on its paths. -/
inductive Fits : Path α → Color → ℕ → Prop
  | nil {n : ℕ} : Fits [] black n
  | red {d : Side} {x : α} {s : RbTree α} {p : Path α} {n : ℕ} (hs : Balanced s black n)
      (hp : Fits p red n) : Fits (⟨d, red, x, s⟩ :: p) black n
  | black {d : Side} {x : α} {s : RbTree α} {p : Path α} {c c' : Color} {n : ℕ}
      (hs : Balanced s c' n) (hp : Fits p black (n + 1)) : Fits (⟨d, black, x, s⟩ :: p) c n

variable {t a b : RbTree α} {p : Path α} {d : Side} {c : Color} {x : α} {n : ℕ}

theorem balanced_branch_red :
    Balanced (branch d red a x b) c n ↔ c = red ∧ Balanced a black n ∧ Balanced b black n := by
  constructor
  · intro h
    cases d <;> cases h with | red hl hr => exact ⟨rfl, by assumption, by assumption⟩
  · rintro ⟨rfl, ha, hb⟩
    cases d
    · exact .red ha hb
    · exact .red hb ha

theorem Balanced.branch_black {c₁ c₂ : Color} (ha : Balanced a c₁ n) (hb : Balanced b c₂ n) :
    Balanced (branch d Color.black a x b) Color.black (n + 1) := by
  cases d
  · exact .black ha hb
  · exact .black hb ha

theorem Balanced.of_branch_black (h : Balanced (branch d Color.black a x b) c n) :
    c = Color.black ∧ ∃ m c₁ c₂, n = m + 1 ∧ Balanced a c₁ m ∧ Balanced b c₂ m := by
  cases d <;> cases h with | black hl hr => exact ⟨rfl, _, _, _, rfl, by assumption, by assumption⟩

theorem Balanced.isRed (h : Balanced t c n) : t.isRed = decide (c = Color.red) := by
  cases h <;> rfl

theorem Balanced.eq_red (h : Balanced t c n) (hred : t.isRed = true) : c = Color.red := by
  simpa using h.isRed.symm.trans hred

theorem Balanced.eq_black (h : Balanced t c n) (hred : ¬ t.isRed = true) : c = Color.black := by
  cases c with
  | red => exact absurd h.isRed hred
  | black => rfl

/-- The index is the colour of the root. -/
theorem Balanced.color_branch {c' : Color} (h : Balanced (branch d c' a x b) c n) : c' = c := by
  cases c' with
  | red => exact (balanced_branch_red.1 h).1.symm
  | black => exact h.of_branch_black.1.symm

theorem Balanced.blacken (h : Balanced t Color.black n) : t.blacken = t := by
  cases h <;> rfl

/-- A balanced tree stays balanced when its root is coloured black. -/
theorem Balanced.blacken_red (h : Balanced t Color.red n) :
    Balanced t.blacken Color.black (n + 1) := by
  cases h with | red hl hr => exact .black hl hr

/-- A position for a red tree will take any. -/
theorem Fits.of_red (h : Fits p Color.red n) (c : Color) : Fits p c n := by
  cases h with | black hs hp => exact .black hs hp

theorem Fits.fill (h : Fits p c n) (ht : Balanced t c n) :
    ∃ m, Balanced (RedBlack.fill p t) Color.black m := by
  induction h generalizing t with
  | nil => exact ⟨_, ht⟩
  | red hs _ ih => exact ih (balanced_branch_red.2 ⟨rfl, ht, hs⟩)
  | black hs _ ih => exact ih (ht.branch_black hs)

/-- A balanced tree is balanced at every position. -/
theorem exists_fits (h : Balanced (fill p t) black n) :
    ∃ c m, Fits p c m ∧ Balanced t c m := by
  induction p generalizing t with
  | nil => exact ⟨_, _, .nil, h⟩
  | cons f p ih =>
    obtain ⟨c, m, hp, ht⟩ := ih h
    obtain ⟨d, cf, y, s⟩ := f
    cases cf with
    | red =>
      obtain ⟨rfl, hta, hs⟩ := balanced_branch_red.1 ht
      exact ⟨_, _, .red hs hp, hta⟩
    | black =>
      obtain ⟨rfl, m', c₁, c₂, rfl, hta, hs⟩ := ht.of_branch_black
      exact ⟨_, _, .black hs hp, hta⟩

/-- Only the colours matter. -/
theorem Fits.replace {q : Path α} {k : Color} {y : α} {s : RbTree α}
    (h : Fits (q ++ ⟨d, c, x, s⟩ :: p) k n) : Fits (q ++ ⟨d, c, y, s⟩ :: p) k n := by
  induction q generalizing k n with
  | nil =>
    cases h with
    | red hs hp => exact .red hs hp
    | black hs hp => exact .black hs hp
  | cons f q ih =>
    cases h with
    | red hs hp => exact .red hs (ih hp)
    | black hs hp => exact .black hs (ih hp)

/-- **Insertion restores the balance.** -/
theorem balanced_insertColor (ht : Balanced t red n) (hp : Fits p black n) :
    ∃ m, Balanced (insertColor p t) black m := by
  induction p, t using insertColor.induct generalizing n with
  | case1 t => exact ⟨_, ht.blacken_red⟩
  | case2 f t =>
    -- the parent is the root, and black
    cases hp with
    | red hs hp => cases hp
    | black hs hp =>
      obtain ⟨m, h⟩ := Fits.fill (Fits.black hs hp) ht
      rw [insertColor, h.blacken]
      exact ⟨m, h⟩
  | case3 f g p t hf =>
    cases hp with
    | red hs hp => cases hf
    | black hs hp =>
      obtain ⟨m, h⟩ := Fits.fill (Fits.black hs hp) ht
      rw [insertColor, h.blacken]
      exact ⟨m, h⟩
  | case4 f g p t hf hg ih =>
    rw [insertColor, if_pos hg]
    cases hp with
    | black hs hp => exact absurd rfl hf
    | red hs hp =>
      cases hp with
      | black hu hp =>
        obtain rfl := hu.eq_red hg
        exact ih (balanced_branch_red.2 ⟨rfl, ht.branch_black hs, hu.blacken_red⟩) hp
  | case5 f g p t hf hg hside =>
    rw [insertColor, if_neg hg, if_pos hside]
    cases hp with
    | black hs hp => exact absurd rfl hf
    | red hs hp =>
      cases hp with
      | black hu hp =>
        obtain rfl := hu.eq_black hg
        obtain ⟨m, h⟩ := hp.fill (ht.branch_black (balanced_branch_red.2 ⟨rfl, hs, hu⟩))
        rw [h.blacken]
        exact ⟨m, h⟩
  | case6 f g p t hf hg hside c a x b hsplit =>
    rw [insertColor, if_neg hg, if_neg hside, hsplit]
    obtain rfl := eq_branch_of_split hsplit
    cases hp with
    | black hs hp => exact absurd rfl hf
    | red hs hp =>
      cases hp with
      | black hu hp =>
        obtain rfl := hu.eq_black hg
        obtain rfl := ht.color_branch
        obtain ⟨-, ha, hb⟩ := balanced_branch_red.1 ht
        obtain ⟨m, h⟩ := hp.fill ((balanced_branch_red.2 ⟨rfl, hs, ha⟩).branch_black
          (balanced_branch_red.2 ⟨rfl, hb, hu⟩))
        dsimp only
        rw [h.blacken]
        exact ⟨m, h⟩
  | case7 f g p t hf hg hside hsplit =>
    rcases t.nil_or_branch g.side with rfl | ⟨c, a, x, b, rfl⟩
    · cases ht
    · rw [split_branch] at hsplit
      cases hsplit

/-- A tree that is one black node short of `n + 1`: if its root is red, colouring the root black
makes up for it. -/
def Short (t : RbTree α) (n : ℕ) : Prop :=
  if t.isRed then Balanced t.blacken black (n + 1) else Balanced t black n

theorem Balanced.short (h : Balanced t c n) : Short t n := by
  rw [Short, h.isRed]
  cases c with
  | red => exact h.blacken_red
  | black => exact h

/-- `settle` restores the balance, if what it leaves undone can be done. -/
theorem balanced_settle {up : RbTree α → RbTree α} {y : α} {other : RbTree α}
    (ht : Balanced t black n)
    (hother : Balanced other black (n + 1)) (hred : c = red → Fits p red (n + 1))
    (hblack : c = black → Fits p black (n + 2) ∧
      ∀ t', Balanced t' black (n + 1) → ∃ m, Balanced (up t') black m) :
    ∃ m, Balanced (settle up p d c t y other) black m := by
  rcases other.nil_or_branch d with rfl | ⟨co, a, z, b, rfl⟩
  · cases hother
  obtain rfl := hother.color_branch
  obtain ⟨-, m, ca, cb, hm, ha, hb⟩ := hother.of_branch_black
  obtain rfl : n = m := by omega
  -- a rotation leaves a tree that may take the place of the old parent
  have done : ∀ {s u : RbTree α} {w : α}, Balanced s black (n + 1) → Balanced u black (n + 1) →
      ∃ m, Balanced (fill p (branch d c s w u)).blacken black m := by
    intro s u w hs hu
    have hfill : ∃ m, Balanced (fill p (branch d c s w u)) black m := by
      cases c with
      | red => exact (hred rfl).fill (balanced_branch_red.2 ⟨rfl, hs, hu⟩)
      | black => exact (hblack rfl).1.fill (hs.branch_black hu)
    obtain ⟨m, h⟩ := hfill
    rw [h.blacken]
    exact ⟨m, h⟩
  rw [settle, split_branch]
  dsimp only
  split
  · rename_i hbr
    obtain rfl := hb.eq_red hbr
    exact done (ht.branch_black ha) hb.blacken_red
  rename_i hbr
  split
  · rename_i c₀ a₁ w a₂ har hsplit
    obtain rfl := eq_branch_of_split hsplit
    rw [isRed_branch, decide_eq_true_eq] at har
    subst har
    obtain ⟨-, ha₁, ha₂⟩ := balanced_branch_red.1 ha
    exact done (ht.branch_black ha₁) (ha₂.branch_black hb)
  · rename_i hab
    have har : ¬ a.isRed = true := by
      intro har
      rcases a.nil_or_branch d with rfl | ⟨c₀, a₁, w, a₂, rfl⟩
      · cases har
      · exact hab c₀ a₁ w a₂ har (split_branch _ _ _ _ _)
    obtain rfl := hb.eq_black hbr
    obtain rfl := ha.eq_black har
    have hnew : Balanced (branch d black t y (branch d red a z b)) black (n + 1) :=
      ht.branch_black (balanced_branch_red.2 ⟨rfl, ha, hb⟩)
    split
    · rename_i hc
      exact ((hred hc).of_red black).fill hnew
    · rename_i hc
      have hc : c = black := by
        cases c
        · exact absurd rfl hc
        · rfl
      exact (hblack hc).2 _ hnew

/-- **Deletion restores the balance.** -/
theorem balanced_eraseColor (ht : Short t n) (hp : Fits p black (n + 1)) :
    ∃ m, Balanced (eraseColor p t) black m := by
  induction p generalizing t n with
  | nil =>
    rw [eraseColor]
    rw [Short] at ht
    split at ht
    · exact ⟨_, ht⟩
    · rw [ht.blacken]
      exact ⟨_, ht⟩
  | cons f p ih =>
    rw [eraseColor]
    rw [Short] at ht
    split
    · rename_i hred
      rw [if_pos hred] at ht
      exact hp.fill ht
    rename_i hred
    rw [if_neg hred] at ht
    split
    · rename_i a z b hsplit
      -- only a black parent has a red sibling
      obtain ⟨d, cf, y, s⟩ := f
      obtain rfl : s = branch d red a z b := eq_branch_of_split hsplit
      cases hp with
      | red hs hp => exact absurd hs.color_branch (by decide)
      | black hs hp =>
        obtain ⟨-, ha, hb⟩ := balanced_branch_red.1 hs
        exact balanced_settle ht ha (fun _ ↦ .black hb hp) fun h ↦ absurd h (by decide)
    · rename_i hsib
      have hblack : ¬ f.sib.isRed = true := by
        intro hr
        rcases f.sib.nil_or_branch f.side with hs | ⟨c₀, a, z, b, hs⟩
        · rw [hs] at hr
          cases hr
        · rw [hs, isRed_branch, decide_eq_true_eq] at hr
          exact hsib a z b (by rw [hs, split_branch, hr])
      cases hp with
      | red hs hp => exact balanced_settle ht hs (fun _ ↦ hp) nofun
      | black hs hp =>
        obtain rfl := hs.eq_black hblack
        exact balanced_settle ht hs nofun fun _ ↦ ⟨hp, fun t' ht' ↦ ih ht'.short hp⟩

/-- Replacing a node with at most one child by that child. -/
theorem balanced_shorten (hp : Fits p c n) (hred : c = red → Balanced t black n)
    (hblack : c = black → ∃ m c', n = m + 1 ∧ Balanced t c' m) :
    ∃ m, Balanced (shorten c p t) black m := by
  cases c with
  | red => exact (hp.of_red black).fill (hred rfl)
  | black =>
    obtain ⟨m, c', rfl, ht⟩ := hblack rfl
    exact balanced_eraseColor ht.short hp

/-- **Deletion, in full.** -/
theorem balanced_erase {l r : RbTree α} (ht : Balanced (fill p (.node c l x r)) black n) :
    ∃ m, Balanced (erase p (.node c l x r)) black m := by
  -- whichever child is missing, the other one takes the place of the node
  have one : ∀ {q : Path α} {k : Color} {s u v : RbTree α} {y : α} {c₀ : Color} {j : ℕ},
      Fits q c₀ j → Balanced (branch .left k u y v) c₀ j → (s = u ∨ s = v) →
      ∃ m, Balanced (shorten k q s) black m := by
    intro q k s u v y c₀ j hq hb hs
    obtain rfl := hb.color_branch
    refine balanced_shorten hq ?_ ?_
    · rintro rfl
      obtain ⟨-, hu, hv⟩ := balanced_branch_red.1 hb
      rcases hs with rfl | rfl <;> assumption
    · rintro rfl
      obtain ⟨-, m, c₁, c₂, rfl, hu, hv⟩ := hb.of_branch_black
      rcases hs with rfl | rfl
      · exact ⟨m, c₁, rfl, hu⟩
      · exact ⟨m, c₂, rfl, hv⟩
  obtain ⟨c₀, j, hp, hnode⟩ := exists_fits ht
  cases l with
  | nil => exact one hp hnode (Or.inr rfl)
  | node cl ll xl rl =>
    cases r with
    | nil => exact one hp hnode (Or.inl rfl)
    | node cr lr xr rr =>
      obtain ⟨q, c', y, s, h⟩ := splitMin_isSome (t := .node cr lr xr rr) (by simp) []
      have hfill : fill (q ++ ⟨.right, c, x, .node cl ll xl rl⟩ :: p) (.node c' .nil y s) =
          fill p (.node c (.node cl ll xl rl) x (.node cr lr xr rr)) := by
        rw [fill_append, (splitMin_spec h).1]
        rfl
      rw [← hfill] at ht
      obtain ⟨c₁, j₁, hq, hmin⟩ := exists_fits ht
      simp only [erase, h]
      exact one hq.replace hmin (Or.inr rfl)

/-! ## Deleting an element -/

/-- Taking out the element at a position is taking it out of the list of elements. -/
theorem inorder_erase_eq [DecidableEq α] {l r : RbTree α}
    (hnodup : (fill p (.node c l x r)).inorder.Nodup) :
    (erase p (.node c l x r)).inorder = (fill p (.node c l x r)).inorder.erase x := by
  rw [inorder_fill, RbTree.inorder] at hnodup ⊢
  have hsplit : p.before ++ (l.inorder ++ x :: r.inorder) ++ p.after =
      (p.before ++ l.inorder) ++ x :: (r.inorder ++ p.after) := by simp
  rw [hsplit] at hnodup ⊢
  have hx : x ∉ p.before ++ l.inorder := fun hin ↦
    List.disjoint_of_nodup_append hnodup hin List.mem_cons_self
  rw [List.erase_append_right _ hx, inorder_erase]
  simp

/-- Where an element is. -/
def locate [DecidableEq α] (x : α) : RbTree α → Path α → Option (Path α × RbTree α)
  | .nil, _ => none
  | .node c l y r, p =>
    if y = x then some (p, .node c l y r)
    else (locate x l (⟨.left, c, y, r⟩ :: p)).or (locate x r (⟨.right, c, y, l⟩ :: p))

/-- The tree without an element. -/
def remove [DecidableEq α] (x : α) (t : RbTree α) : RbTree α :=
  match locate x t [] with
  | some (p, s) => erase p s
  | none => t

theorem fill_of_locate [DecidableEq α] {s : RbTree α} {q : Path α}
    (h : locate x t p = some (q, s)) : fill q s = fill p t ∧ ∃ c l r, s = .node c l x r := by
  induction t generalizing p with
  | nil => cases h
  | node c l y r ihl ihr =>
    rw [locate] at h
    split at h
    · rename_i hy
      cases h
      exact ⟨rfl, c, l, r, by rw [hy]⟩
    · rcases Option.or_eq_some_iff.1 h with h | ⟨-, h⟩
      · exact ihl h
      · exact ihr h

theorem locate_isSome [DecidableEq α] (hx : x ∈ t.inorder) (p : Path α) :
    (locate x t p).isSome = true := by
  induction t generalizing p with
  | nil => cases hx
  | node c l y r ihl ihr =>
    rw [locate]
    split
    · rfl
    rename_i hy
    rw [RbTree.inorder, List.mem_append, List.mem_cons] at hx
    rw [Option.isSome_or, Bool.or_eq_true]
    rcases hx with hl | rfl | hr
    · exact Or.inl (ihl hl _)
    · exact absurd rfl hy
    · exact Or.inr (ihr hr _)

/-- **Deleting an element deletes it**, and keeps the tree balanced. -/
theorem remove_spec [DecidableEq α] (hx : x ∈ t.inorder) (hnodup : t.inorder.Nodup)
    (hbal : Balanced t black n) :
    (remove x t).inorder = t.inorder.erase x ∧ ∃ m, Balanced (remove x t) black m := by
  obtain ⟨⟨q, s⟩, hloc⟩ := Option.isSome_iff_exists.1 (locate_isSome hx [])
  obtain ⟨hfill, c, l, r, rfl⟩ := fill_of_locate hloc
  have hfill : fill q (.node c l x r) = t := hfill
  rw [remove, hloc]
  rw [← hfill] at hbal hnodup ⊢
  exact ⟨inorder_erase_eq hnodup, balanced_erase hbal⟩

/-! ## The conditions, path by path -/

/-- The number of black nodes on each way from the root to a leaf. -/
def RbTree.blackCounts : RbTree α → List ℕ
  | .nil => [0]
  | .node c l _ r =>
    (l.blackCounts ++ r.blackCounts).map (· + if c = black then 1 else 0)

/-- No red node has a red child. -/
def RbTree.NoRedRed : RbTree α → Prop
  | .nil => True
  | .node c l _ r =>
    (c = red → l.isRed = false ∧ r.isRed = false) ∧ l.NoRedRed ∧ r.NoRedRed

/-- A black root, no red node with a red child, and as many black nodes on every way to a leaf. -/
def Valid (t : RbTree α) : Prop :=
  t.isRed = false ∧ t.NoRedRed ∧ ∃ n, ∀ k ∈ t.blackCounts, k = n

theorem RbTree.blackCounts_ne_nil (t : RbTree α) : t.blackCounts ≠ [] := by
  cases t with
  | nil => simp [RbTree.blackCounts]
  | node c l x r => simp [RbTree.blackCounts, l.blackCounts_ne_nil]

theorem Balanced.spelled_out (h : Balanced t c n) :
    t.NoRedRed ∧ ∀ k ∈ t.blackCounts, k = n := by
  induction h with
  | nil => simp [RbTree.NoRedRed, RbTree.blackCounts]
  | red hl hr ihl ihr =>
    refine ⟨⟨fun _ ↦ ⟨hl.isRed, hr.isRed⟩, ihl.1, ihr.1⟩, ?_⟩
    simpa [RbTree.blackCounts] using fun k hk ↦ hk.elim (ihl.2 k) (ihr.2 k)
  | black hl hr ihl ihr =>
    refine ⟨⟨nofun, ihl.1, ihr.1⟩, fun k hk ↦ ?_⟩
    obtain ⟨j, hj, rfl⟩ := List.mem_map.1 hk
    exact congrArg (· + 1) ((List.mem_append.1 hj).elim (ihl.2 j) (ihr.2 j))

theorem balanced_of_spelled_out (t : RbTree α) (n : ℕ) (hred : t.NoRedRed)
    (hcount : ∀ k ∈ t.blackCounts, k = n) :
    Balanced t (if t.isRed then red else black) n := by
  induction t generalizing n with
  | nil =>
    obtain rfl : 0 = n := hcount 0 (by simp [RbTree.blackCounts])
    exact .nil
  | node c l x r ihl ihr =>
    obtain ⟨hc, hl, hr⟩ := hred
    cases c with
    | red =>
      obtain ⟨hlr, hrr⟩ := hc rfl
      have hbl := ihl n hl fun k hk ↦ hcount k (by simp [RbTree.blackCounts, hk])
      have hbr := ihr n hr fun k hk ↦ hcount k (by simp [RbTree.blackCounts, hk])
      rw [hlr] at hbl
      rw [hrr] at hbr
      exact .red hbl hbr
    | black =>
      obtain ⟨k, hk⟩ := List.exists_mem_of_ne_nil _ l.blackCounts_ne_nil
      obtain rfl : k + 1 = n := hcount _ (by simp [RbTree.blackCounts, hk])
      have hbl := ihl k hl fun j hj ↦ Nat.succ.inj (hcount _ (by simp [RbTree.blackCounts, hj]))
      have hbr := ihr k hr fun j hj ↦ Nat.succ.inj (hcount _ (by simp [RbTree.blackCounts, hj]))
      exact .black hbl hbr

/-- The two ways of saying it agree. -/
theorem valid_iff : Valid t ↔ ∃ n, Balanced t black n := by
  constructor
  · rintro ⟨hroot, hred, n, hcount⟩
    have h := balanced_of_spelled_out t n hred hcount
    rw [hroot] at h
    exact ⟨n, h⟩
  · rintro ⟨n, h⟩
    exact ⟨h.isRed, h.spelled_out.1, n, h.spelled_out.2⟩

end RedBlack
