import Linux24.Lib.RedBlack

/-!
# The red-black trees of `lib/rbtree.c`

Nodes are linked to their parent and to their two children by pointers, and the operations below
are the C functions, statement by statement, on a memory of such nodes.  A pointer is `none` for
`NULL`, and following it is a `Fault`; the loops run on `fuel`, and running out of it is a `Fault`
too, so that a result is only ever the result of a loop that has ended.

`rb_insert_color` and `__rb_erase_color` have two halves each, and there are two rotations, which
differ in nothing but `rb_left` and `rb_right`.  They are one definition here, for a `Side`:
`__rb_rotate_left` is `rotate .left`, and the half of a loop in which `d` is `.left` is the one that
comes first in the source.
-/

set_option autoImplicit false

namespace Linux24.Rbtree

open RedBlack Function

/-- A pointer to a node. -/
abbrev Ptr := Option ℕ

/-- `rb_node_t`. -/
structure RbNode where
  /-- `rb_parent`. -/
  parent : Ptr
  /-- `rb_color`. -/
  color : Color
  /-- `rb_right`. -/
  right : Ptr
  /-- `rb_left`. -/
  left : Ptr
deriving DecidableEq, Repr

/-- The nodes in memory and the root of a tree of them. -/
structure Heap where
  /-- The nodes. -/
  node : ℕ → RbNode
  /-- `root->rb_node`. -/
  root : Ptr

/-- What can go wrong. -/
inductive Fault
  /-- A `NULL` pointer is followed. -/
  | null
  /-- A loop has not ended yet. -/
  | fuel
deriving DecidableEq, Repr

/-- `rb_left` or `rb_right`. -/
def RbNode.child (n : RbNode) : Side → Ptr
  | .left => n.left
  | .right => n.right

namespace Heap

/-- `n->rb_parent = p`. -/
def setParent (h : Heap) (n : ℕ) (p : Ptr) : Heap :=
  { h with node := update h.node n { h.node n with parent := p } }

/-- `n->rb_color = c`. -/
def setColor (h : Heap) (n : ℕ) (c : Color) : Heap :=
  { h with node := update h.node n { h.node n with color := c } }

/-- `n->rb_left = p` or `n->rb_right = p`. -/
def setChild (h : Heap) (n : ℕ) (d : Side) (p : Ptr) : Heap :=
  { h with
    node := update h.node n
      (match d with
      | .left => { h.node n with left := p }
      | .right => { h.node n with right := p }) }

/-- `if (n) n->rb_parent = p`. -/
def setParentIf (h : Heap) (n p : Ptr) : Heap :=
  match n with
  | some n => h.setParent n p
  | none => h

/-- `if (n) n->rb_color = c`. -/
def setColorIf (h : Heap) (n : Ptr) (c : Color) : Heap :=
  match n with
  | some n => h.setColor n c
  | none => h

/-- `n && n->rb_color == RB_RED`; its negation is `!n || n->rb_color == RB_BLACK`. -/
def isRed (h : Heap) (n : Ptr) : Bool :=
  match n with
  | some n => decide ((h.node n).color = .red)
  | none => false

/-- Let `parent`, or the root pointer if there is none, point to `new` where it pointed to `old`.
The side `d` is looked at first. -/
def replaceChild (h : Heap) (d : Side) (parent : Ptr) (old : ℕ) (new : Ptr) : Heap :=
  match parent with
  | some p =>
    if (h.node p).child d = some old then h.setChild p d new else h.setChild p d.flip new
  | none => { h with root := new }

end Heap

/-- Following a pointer. -/
def deref : Ptr → Except Fault ℕ
  | some n => .ok n
  | none => .error .null

/-- The rotation that takes `node` down on side `d`. -/
def rotate (d : Side) (h : Heap) (node : ℕ) : Except Fault Heap := do
  let right ← deref ((h.node node).child d.flip)
  let h := h.setChild node d.flip ((h.node right).child d)
  let h := h.setParentIf ((h.node right).child d) (some node)
  let h := h.setChild right d (some node)
  let h := h.setParent right (h.node node).parent
  let h := h.replaceChild d (h.node node).parent node (some right)
  return h.setParent node (some right)

def rbRotateLeft : Heap → ℕ → Except Fault Heap := rotate .left

def rbRotateRight : Heap → ℕ → Except Fault Heap := rotate .right

/-- `rb_link_node`, for the link on side `d` of the parent, or the root pointer. -/
def rbLinkNode (h : Heap) (node : ℕ) (parent : Ptr) (d : Side) : Heap :=
  let h : Heap := { h with node := update h.node node ⟨parent, .red, none, none⟩ }
  match parent with
  | some p => h.setChild p d (some node)
  | none => { h with root := some node }

/-- The loop of `rb_insert_color`. -/
def insertLoop : (fuel : ℕ) → Heap → ℕ → Except Fault Heap
  | 0, _, _ => .error .fuel
  | fuel + 1, h, node =>
    match (h.node node).parent with
    | none => .ok h
    | some parent =>
      if (h.node parent).color = .red then do
        let gparent ← deref (h.node parent).parent
        let d : Side := if (h.node gparent).left = some parent then .left else .right
        if h.isRed ((h.node gparent).child d.flip) then do
          let uncle ← deref ((h.node gparent).child d.flip)
          let h := ((h.setColor uncle .black).setColor parent .black).setColor gparent .red
          insertLoop fuel h gparent
        else do
          let (h, parent, node) ←
            if (h.node parent).child d.flip = some node then do
              let h ← rotate d h parent
              pure (h, node, parent)
            else pure (h, parent, node)
          let h := (h.setColor parent .black).setColor gparent .red
          let h ← rotate d.flip h gparent
          insertLoop fuel h node
      else .ok h

def rbInsertColor (fuel : ℕ) (h : Heap) (node : ℕ) : Except Fault Heap := do
  let h ← insertLoop fuel h node
  let root ← deref h.root
  return h.setColor root .black

/-- The part of an iteration of `__rb_erase_color` in which `other` has a red child: it ends the
loop. -/
def eraseTurn (d : Side) (h : Heap) (parent other : ℕ) : Except Fault Heap := do
  let (h, other) ←
    if h.isRed ((h.node other).child d.flip) then pure (h, other)
    else do
      let h := h.setColorIf ((h.node other).child d) .black
      let h := h.setColor other .red
      let h ← rotate d.flip h other
      let other ← deref ((h.node parent).child d.flip)
      pure (h, other)
  let h := h.setColor other (h.node parent).color
  let h := h.setColor parent .black
  let h := h.setColorIf ((h.node other).child d.flip) .black
  rotate d h parent

/-- The rest of an iteration of `__rb_erase_color`, once `other` is black; `loop` is the next
iteration. -/
def eraseStep (loop : Heap → Ptr → Ptr → Except Fault (Heap × Ptr)) (d : Side) (h : Heap)
    (parent other : ℕ) : Except Fault (Heap × Ptr) :=
  if h.isRed (h.node other).left = false ∧ h.isRed (h.node other).right = false then
    let h := h.setColor other .red
    loop h (some parent) (h.node parent).parent
  else do
    let h ← eraseTurn d h parent other
    pure (h, h.root)

/-- The loop of `__rb_erase_color`, with the value of `node` at its end. -/
def eraseLoop : (fuel : ℕ) → Heap → (node parent : Ptr) → Except Fault (Heap × Ptr)
  | 0, _, _, _ => .error .fuel
  | fuel + 1, h, node, parent =>
    if h.isRed node = false ∧ node ≠ h.root then do
      let parent ← deref parent
      let d : Side := if (h.node parent).left = node then .left else .right
      let other ← deref ((h.node parent).child d.flip)
      if (h.node other).color = .red then do
        let h := (h.setColor other .black).setColor parent .red
        let h ← rotate d h parent
        let other ← deref ((h.node parent).child d.flip)
        eraseStep (eraseLoop fuel) d h parent other
      else eraseStep (eraseLoop fuel) d h parent other
    else .ok (h, node)

def rbEraseColor (fuel : ℕ) (h : Heap) (node parent : Ptr) : Except Fault Heap := do
  let (h, node) ← eraseLoop fuel h node parent
  return h.setColorIf node .black

/-- `while ((left = node->rb_left)) node = left;`. -/
def leftmost : (fuel : ℕ) → Heap → ℕ → Except Fault ℕ
  | 0, _, _ => .error .fuel
  | fuel + 1, h, node =>
    match (h.node node).left with
    | some left => leftmost fuel h left
    | none => .ok node

/-- The assignments that give all the fields of `old` to `node`. -/
def copyNode (h : Heap) (old node : ℕ) : Heap :=
  let h := h.setParent node (h.node old).parent
  let h := h.setColor node (h.node old).color
  let h := h.setChild node .right (h.node old).right
  h.setChild node .left (h.node old).left

/-- The part of `rb_erase` for a node with two children: its successor `node` takes its place.
Returns the child and the parent of the place the successor leaves. -/
def eraseTwo (h : Heap) (old node : ℕ) : Except Fault (Heap × Ptr × Ptr) := do
  let child := (h.node node).right
  let parent := (h.node node).parent
  let h := h.setParentIf child parent
  let h := h.replaceChild .left parent node child
  let parent := if (h.node node).parent = some old then some node else parent
  let h := copyNode h old node
  let h := h.replaceChild .left (h.node old).parent old (some node)
  let left ← deref (h.node old).left
  let h := h.setParent left (some node)
  let h := h.setParentIf (h.node old).right (some node)
  return (h, child, parent)

/-- The part of `rb_erase` for a node with at most one child. -/
def eraseOne (h : Heap) (node : ℕ) (child : Ptr) : Heap :=
  let parent := (h.node node).parent
  let h := h.setParentIf child parent
  h.replaceChild .left parent node child

def rbErase (fuel : ℕ) (h : Heap) (node : ℕ) : Except Fault Heap := do
  match (h.node node).left, (h.node node).right with
  | none, child =>
    let parent := (h.node node).parent
    let color := (h.node node).color
    let h := eraseOne h node child
    if color = .black then rbEraseColor fuel h child parent else pure h
  | child, none =>
    let parent := (h.node node).parent
    let color := (h.node node).color
    let h := eraseOne h node child
    if color = .black then rbEraseColor fuel h child parent else pure h
  | some _, some right =>
    let next ← leftmost fuel h right
    let color := (h.node next).color
    let (h, child, parent) ← eraseTwo h node next
    if color = .black then rbEraseColor fuel h child parent else pure h

end Linux24.Rbtree
