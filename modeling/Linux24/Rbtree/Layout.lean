import Linux24.Rbtree.Code

/-!
# Trees in memory

`Models h t` says that the memory `h` holds the tree `t`, whose elements are the addresses of its
nodes: the root pointer points to its root, every node has the colour and the children it has in
`t`, and the parent pointer of every node points to its parent in `t`.

Three facts let the rest forget about pointers.  Where a node is in the tree says what is in memory
at its address (`Models.node_eq`); colouring a node colours it in the tree (`Models.setColor`); and
a rotation in memory is a rotation of the tree (`Models.rotate`).  In between, where the pointers do
not make a tree, the memory holds `Pieces` of one.
-/

set_option autoImplicit false

namespace Linux24.Rbtree

open RedBlack List Function

/-! ## Memory that holds a tree -/

/-- The node with parent, colour, child on side `d` and child on the other side. -/
def nodeOf (d : Side) (parent : Ptr) (c : Color) (near far : Ptr) : RbNode :=
  match d with
  | .left => ⟨parent, c, far, near⟩
  | .right => ⟨parent, c, near, far⟩

/-- The nodes of the tree are in memory, with this parent for its root. -/
def Rep (h : Heap) : Ptr → RbTree ℕ → Prop
  | _, .nil => True
  | parent, .node c l x r =>
    h.node x = ⟨parent, c, r.root?, l.root?⟩ ∧ Rep h (some x) l ∧ Rep h (some x) r

/-- The memory holds this tree. -/
structure Models (h : Heap) (t : RbTree ℕ) : Prop where
  /-- The root pointer points to the root. -/
  root : h.root = t.root?
  /-- The root has no parent, and the nodes are as in the tree. -/
  rep : Rep h none t
  /-- The nodes are distinct. -/
  nodup : t.inorder.Nodup

/-- The node at whose child the position is. -/
def parentOf (p : Path ℕ) : Ptr := p.head?.map Frame.elem

/-- The nodes between the position and the root are in memory, with `hole` as the pointer to what is
at the position. -/
def RepPath (h : Heap) : Path ℕ → Ptr → Prop
  | [], _ => True
  | f :: p, hole =>
    h.node f.elem = nodeOf f.side (parentOf p) f.color hole f.sib.root? ∧
      Rep h (some f.elem) f.sib ∧ RepPath h p (some f.elem)

/-- The root of the tree with `hole` at the position. -/
def rootOf : Path ℕ → Ptr → Ptr
  | [], hole => hole
  | f :: p, _ => rootOf p (some f.elem)

/-- The nodes not at the position. -/
def elems : Path ℕ → List ℕ
  | [] => []
  | f :: p => f.elem :: (f.sib.inorder ++ elems p)

variable {p : Path ℕ} {x : ℕ}

theorem mem_elems_cons {f : Frame ℕ} :
    x ∈ elems (f :: p) ↔ x = f.elem ∨ x ∈ f.sib.inorder ∨ x ∈ elems p := by
  simp [elems]

@[simp] theorem parentOf_cons (f : Frame ℕ) (p : Path ℕ) : parentOf (f :: p) = some f.elem := rfl

section NodeOf

variable {d : Side} {parent near far : Ptr} {c : Color}

@[simp] theorem nodeOf_parent : (nodeOf d parent c near far).parent = parent := by cases d <;> rfl

@[simp] theorem nodeOf_color : (nodeOf d parent c near far).color = c := by cases d <;> rfl

@[simp] theorem nodeOf_near : (nodeOf d parent c near far).child d = near := by cases d <;> rfl

@[simp] theorem nodeOf_far : (nodeOf d parent c near far).child d.flip = far := by cases d <;> rfl

end NodeOf

variable {parent : Ptr}

theorem rep_branch {h : Heap} {d : Side} {c : Color} {a b : RbTree ℕ} :
    Rep h parent (branch d c a x b) ↔
      h.node x = nodeOf d parent c a.root? b.root? ∧ Rep h (some x) a ∧ Rep h (some x) b := by
  cases d with
  | left => exact Iff.rfl
  | right => exact and_congr Iff.rfl And.comm

theorem rep_fill {h : Heap} {t : RbTree ℕ} :
    Rep h none (fill p t) ↔ RepPath h p t.root? ∧ Rep h (parentOf p) t := by
  induction p generalizing t with
  | nil => exact ⟨fun ht ↦ ⟨trivial, ht⟩, And.right⟩
  | cons f p ih =>
    rw [fill, ih, rep_branch, root?_branch, RepPath]
    tauto

theorem root?_fill (p : Path ℕ) (t : RbTree ℕ) : (fill p t).root? = rootOf p t.root? := by
  induction p generalizing t with
  | nil => rfl
  | cons f p ih => rw [fill, ih, root?_branch, rootOf]

theorem perm_branch (d : Side) (c : Color) (a b : RbTree ℕ) (x : ℕ) :
    (branch d c a x b).inorder.Perm (x :: (a.inorder ++ b.inorder)) := by
  cases d with
  | left => exact perm_middle
  | right => exact perm_middle.trans (perm_append_comm.cons x)

theorem perm_fill (p : Path ℕ) (t : RbTree ℕ) :
    (fill p t).inorder.Perm (t.inorder ++ elems p) := by
  induction p generalizing t with
  | nil => simp [fill, elems]
  | cons f p ih =>
    refine (ih _).trans (((perm_branch _ _ _ _ _).append_right _).trans ?_)
    simp only [elems, cons_append, append_assoc]
    exact perm_middle.symm

/-- What it takes for a node, with two subtrees, and the rest of the tree to be distinct. -/
structure Apart (p : Path ℕ) (a : RbTree ℕ) (x : ℕ) (b : RbTree ℕ) : Prop where
  left : a.inorder.Nodup
  right : b.inorder.Nodup
  path : (elems p).Nodup
  root_left : x ∉ a.inorder
  root_right : x ∉ b.inorder
  root_path : x ∉ elems p
  left_right : ∀ y ∈ a.inorder, y ∉ b.inorder
  left_path : ∀ y ∈ a.inorder, y ∉ elems p
  right_path : ∀ y ∈ b.inorder, y ∉ elems p

theorem apart_iff {d : Side} {c : Color} {a b : RbTree ℕ} :
    (fill p (branch d c a x b)).inorder.Nodup ↔ Apart p a x b := by
  rw [((perm_fill p _).trans ((perm_branch d c a b x).append_right _)).nodup_iff]
  simp only [cons_append, append_assoc, nodup_cons, mem_append, not_or,
    nodup_append', disjoint_left]
  constructor
  · rintro ⟨⟨h1, h2, h3⟩, h4, ⟨h5, h6, h7⟩, h8⟩
    exact ⟨h4, h5, h6, h1, h2, h3, fun y hy ↦ (h8 hy).1, fun y hy ↦ (h8 hy).2, fun y hy ↦ h7 hy⟩
  · intro h
    exact ⟨⟨h.root_left, h.root_right, h.root_path⟩, h.left, ⟨h.right, h.path,
      h.right_path⟩, fun _ hy ↦ ⟨h.left_right _ hy, h.left_path _ hy⟩⟩

/-! ## Changing one node -/

namespace Heap

variable {h : Heap} {m n : ℕ}

theorem setParent_self (p : Ptr) : (h.setParent n p).node n = { h.node n with parent := p } :=
  update_self _ _ _

theorem setParent_of_ne (hne : m ≠ n) (p : Ptr) : (h.setParent n p).node m = h.node m :=
  update_of_ne (f := h.node) hne _

theorem setColor_self (c : Color) : (h.setColor n c).node n = { h.node n with color := c } :=
  update_self _ _ _

theorem setColor_of_ne (hne : m ≠ n) (c : Color) : (h.setColor n c).node m = h.node m :=
  update_of_ne (f := h.node) hne _

theorem setChild_of_ne (hne : m ≠ n) (d : Side) (p : Ptr) :
    (h.setChild n d p).node m = h.node m :=
  update_of_ne (f := h.node) hne _

theorem setChild_far {d : Side} {parent near far : Ptr} {c : Color}
    (hn : h.node n = nodeOf d parent c near far) (p : Ptr) :
    (h.setChild n d.flip p).node n = nodeOf d parent c near p := by
  cases d <;> simp [setChild, hn, nodeOf, Side.flip]

theorem setChild_near {d : Side} {parent near far : Ptr} {c : Color}
    (hn : h.node n = nodeOf d parent c near far) (p : Ptr) :
    (h.setChild n d p).node n = nodeOf d parent c p far := by
  cases d <;> simp [setChild, hn, nodeOf]

end Heap

/-! ## What a change leaves alone -/

variable {h h' : Heap} {p : Path ℕ} {t a b : RbTree ℕ} {d : Side} {c : Color} {x : ℕ}

theorem Rep.congr (ht : Rep h parent t)
    (heq : ∀ y ∈ t.inorder, h'.node y = h.node y) : Rep h' parent t := by
  induction t generalizing parent with
  | nil => trivial
  | node c l x r ihl ihr =>
    obtain ⟨hx, hl, hr⟩ := ht
    refine ⟨?_, ihl hl fun y hy ↦ heq y ?_, ihr hr fun y hy ↦ heq y ?_⟩
    · rw [heq x (by simp [RbTree.inorder]), hx]
    · simp [RbTree.inorder, hy]
    · simp [RbTree.inorder, hy]

theorem RepPath.congr {hole : Ptr} (hp : RepPath h p hole)
    (heq : ∀ y ∈ elems p, h'.node y = h.node y) : RepPath h' p hole := by
  induction p generalizing hole with
  | nil => trivial
  | cons f p ih =>
    obtain ⟨hf, hs, hp⟩ := hp
    refine ⟨?_, hs.congr fun y hy ↦ heq y ?_, ih hp fun y hy ↦ heq y ?_⟩
    · rw [heq f.elem (mem_elems_cons.2 (Or.inl rfl)), hf]
    · exact mem_elems_cons.2 (Or.inr (Or.inl hy))
    · exact mem_elems_cons.2 (Or.inr (Or.inr hy))

variable {y : ℕ}

theorem root?_mem (hy : t.root? = some y) : y ∈ t.inorder := by
  cases t with
  | nil => cases hy
  | node c l x r =>
    cases hy
    simp [RbTree.inorder]

/-! ## Pieces of a tree -/

/-- The nodes of the pieces of a tree. -/
def nodes (p : Path ℕ) (xs : List (ℕ × RbNode)) (ts : List (Ptr × RbTree ℕ)) : List ℕ :=
  elems p ++ (xs.map Prod.fst ++ ts.flatMap fun t ↦ t.2.inorder)

/-- The memory holds the tree around the position and, apart from it, the nodes `xs`, with what is
in them, and the trees `ts`, with the parents of their roots. -/
structure Pieces (h : Heap) (p : Path ℕ) (hole : Ptr) (xs : List (ℕ × RbNode))
    (ts : List (Ptr × RbTree ℕ)) : Prop where
  root : h.root = rootOf p hole
  path : RepPath h p hole
  node : ∀ n ∈ xs, h.node n.1 = n.2
  rep : ∀ t ∈ ts, Rep h t.1 t.2
  nodup : (nodes p xs ts).Nodup

section Pieces

variable {hole near far : Ptr} {v : RbNode} {xs xs' : List (ℕ × RbNode)}
  {ts ts' : List (Ptr × RbTree ℕ)}

theorem pieces_iff_models : Pieces h p t.root? [] [(parentOf p, t)] ↔ Models h (fill p t) := by
  have hperm : (nodes p [] [(parentOf p, t)]).Perm (fill p t).inorder := by
    simpa [nodes] using perm_append_comm.trans (perm_fill p t).symm
  constructor
  · intro h
    refine ⟨h.root.trans (root?_fill p t).symm, rep_fill.2 ⟨h.path, ?_⟩, hperm.nodup_iff.1 h.nodup⟩
    exact h.rep _ mem_cons_self
  · rintro ⟨hroot, hrep, hnodup⟩
    obtain ⟨hp, ht⟩ := rep_fill.1 hrep
    exact ⟨hroot.trans (root?_fill p t), hp, by simp, by simpa using ht, hperm.nodup_iff.2 hnodup⟩

theorem Pieces.perm (hp : Pieces h p hole xs ts) (hxs : xs.Perm xs') (hts : ts.Perm ts') :
    Pieces h p hole xs' ts' where
  root := hp.root
  path := hp.path
  node n hn := hp.node n (hxs.mem_iff.2 hn)
  rep t ht := hp.rep t (hts.mem_iff.2 ht)
  nodup := (((hxs.map _).append (hts.flatMap_right _)).append_left _).nodup_iff.1 hp.nodup

/-- Pieces are left out. -/
theorem Pieces.sublist (hp : Pieces h p hole xs ts) (hxs : xs'.Sublist xs) (hts : ts'.Sublist ts) :
    Pieces h p hole xs' ts' where
  root := hp.root
  path := hp.path
  node n hn := hp.node n (hxs.subset hn)
  rep t ht := hp.rep t (hts.subset ht)
  nodup := hp.nodup.sublist (((hxs.map _).append (hts.flatMap _)).append_left _)

/-- A tree is taken apart, or put together. -/
theorem pieces_branch : Pieces h p hole xs ((parent, branch d c a x b) :: ts) ↔
    Pieces h p hole ((x, nodeOf d parent c a.root? b.root?) :: xs)
      ((some x, a) :: (some x, b) :: ts) := by
  have hperm : (nodes p xs ((parent, branch d c a x b) :: ts)).Perm
      (nodes p ((x, nodeOf d parent c a.root? b.root?) :: xs)
        ((some x, a) :: (some x, b) :: ts)) := by
    refine perm_iff_count.2 fun z ↦ ?_
    simp only [nodes, flatMap_cons, map_cons, count_append, count_cons,
      (perm_branch d c a b x).count_eq]
    omega
  constructor
  · rintro ⟨hroot, hp, hx, ht, hn⟩
    rw [forall_mem_cons, rep_branch] at ht
    exact ⟨hroot, hp, forall_mem_cons.2 ⟨ht.1.1, hx⟩, forall_mem_cons.2
      ⟨ht.1.2.1, forall_mem_cons.2 ⟨ht.1.2.2, ht.2⟩⟩, hperm.nodup_iff.1 hn⟩
  · rintro ⟨hroot, hp, hx, ht, hn⟩
    rw [forall_mem_cons] at hx
    rw [forall_mem_cons, forall_mem_cons] at ht
    exact ⟨hroot, hp, hx.2, forall_mem_cons.2 ⟨rep_branch.2 ⟨hx.1, ht.1, ht.2.1⟩, ht.2.2⟩,
      hperm.nodup_iff.2 hn⟩

/-- The node above the position, and its other subtree. -/
theorem pieces_frame {f : Frame ℕ} : Pieces h (f :: p) hole xs ts ↔
    Pieces h p (some f.elem) ((f.elem, nodeOf f.side (parentOf p) f.color hole f.sib.root?) :: xs)
      ((some f.elem, f.sib) :: ts) := by
  have hperm : (nodes (f :: p) xs ts).Perm
      (nodes p ((f.elem, nodeOf f.side (parentOf p) f.color hole f.sib.root?) :: xs)
        ((some f.elem, f.sib) :: ts)) := by
    refine perm_iff_count.2 fun z ↦ ?_
    simp only [nodes, elems, flatMap_cons, map_cons, count_append, count_cons]
    omega
  constructor
  · rintro ⟨hroot, ⟨hf, hs, hp⟩, hx, ht, hn⟩
    exact ⟨hroot, hp, forall_mem_cons.2 ⟨hf, hx⟩, forall_mem_cons.2 ⟨hs, ht⟩, hperm.nodup_iff.1 hn⟩
  · rintro ⟨hroot, hp, hx, ht, hn⟩
    rw [forall_mem_cons] at hx ht
    exact ⟨hroot, ⟨hx.1, ht.1, hp⟩, hx.2, ht.2, hperm.nodup_iff.2 hn⟩

theorem Pieces.notMem (hp : Pieces h p hole ((x, v) :: xs) ts) : x ∉ nodes p xs ts :=
  (nodup_cons.1 (nodup_middle.1 hp.nodup)).1

/-- The tree is seen from further up. -/
theorem Pieces.fold {q : Path ℕ}
    (hp : Pieces h (q ++ p) t.root? xs ((parentOf (q ++ p), t) :: ts)) :
    Pieces h p (fill q t).root? xs ((parentOf p, fill q t) :: ts) := by
  induction q generalizing t with
  | nil => exact hp
  | cons f q ih =>
    refine ih ?_
    rw [root?_branch]
    exact pieces_branch.2 ((pieces_frame.1 hp).perm .rfl (.swap ..))

/-- Only what is in one of the nodes changes. -/
theorem Pieces.setNode (hp : Pieces h p hole ((x, v) :: xs) ts) {v' : RbNode}
    (hroot : h'.root = h.root) (hx : h'.node x = v') (hother : ∀ y ≠ x, h'.node y = h.node y) :
    Pieces h' p hole ((x, v') :: xs) ts := by
  have heq : ∀ y ∈ nodes p xs ts, h'.node y = h.node y := fun y hy ↦
    hother y (ne_of_mem_of_not_mem hy hp.notMem)
  simp only [nodes, mem_append] at heq
  refine ⟨hroot.trans hp.root, hp.path.congr fun y hy ↦ heq y (Or.inl hy),
    forall_mem_cons.2 ⟨hx, fun n hn ↦ ?_⟩, fun t ht ↦ (hp.rep t ht).congr fun y hy ↦ ?_,
    hp.nodup⟩
  · exact (heq n.1 (Or.inr (Or.inl (mem_map_of_mem hn)))).trans
      (hp.node n (mem_cons_of_mem _ hn))
  · exact heq y (Or.inr (Or.inr (mem_flatMap.2 ⟨t, ht, hy⟩)))

theorem Pieces.setChild_near (hp : Pieces h p hole ((x, nodeOf d parent c near far) :: xs) ts)
    (q : Ptr) :
    Pieces (h.setChild x d q) p hole ((x, nodeOf d parent c q far) :: xs) ts :=
  hp.setNode rfl (Heap.setChild_near (hp.node _ mem_cons_self) q) fun _ hy ↦
    Heap.setChild_of_ne hy _ _

theorem Pieces.setChild_far (hp : Pieces h p hole ((x, nodeOf d parent c near far) :: xs) ts)
    (q : Ptr) :
    Pieces (h.setChild x d.flip q) p hole ((x, nodeOf d parent c near q) :: xs) ts :=
  hp.setNode rfl (Heap.setChild_far (hp.node _ mem_cons_self) q) fun _ hy ↦
    Heap.setChild_of_ne hy _ _

theorem Pieces.setParent (hp : Pieces h p hole ((x, nodeOf d parent c near far) :: xs) ts)
    (q : Ptr) :
    Pieces (h.setParent x q) p hole ((x, nodeOf d q c near far) :: xs) ts := by
  refine hp.setNode rfl ?_ fun _ hy ↦ Heap.setParent_of_ne hy _
  rw [Heap.setParent_self, hp.node _ mem_cons_self]
  cases d <;> rfl

theorem Pieces.setParentIf (hp : Pieces h p hole xs ((parent, t) :: ts)) (q : Ptr) :
    Pieces (h.setParentIf t.root? q) p hole xs ((q, t) :: ts) := by
  rcases t.nil_or_branch .left with rfl | ⟨c, l, x, r, rfl⟩
  · exact ⟨hp.root, hp.path, hp.node, forall_mem_cons.2 ⟨trivial,
      (forall_mem_cons.1 hp.rep).2⟩, hp.nodup⟩
  · exact pieces_branch.2 ((pieces_branch.1 hp).setParent q)

/-- Something else is put at the position. -/
theorem Pieces.setHole (hp : Pieces h p hole xs ts) (new : Ptr) :
    Pieces (match p with
      | [] => { h with root := new }
      | f :: _ => h.setChild f.elem f.side new) p new xs ts := by
  cases p with
  | nil =>
    refine ⟨rfl, trivial, hp.node, fun t ht ↦ (hp.rep t ht).congr fun _ _ ↦ rfl, hp.nodup⟩
  | cons f p => exact pieces_frame.2 ((pieces_frame.1 hp).setChild_near new)

/-- The node at the position is replaced, whichever side is looked at first. -/
theorem Pieces.replaceChild (hp : Pieces h p (some x) ((x, v) :: xs) ts) (d : Side) (new : Ptr) :
    Pieces (h.replaceChild d (parentOf p) x new) p new ((x, v) :: xs) ts := by
  have hset := hp.setHole new
  cases p with
  | nil => exact hset
  | cons f p =>
    have hsib : f.sib.root? ≠ some x := fun heq ↦ hp.notMem
      (mem_append_left _ (mem_elems_cons.2 (Or.inr (Or.inl (root?_mem heq)))))
    rw [parentOf_cons, Heap.replaceChild, hp.path.1]
    rcases eq_or_ne f.side d with rfl | hne
    · rw [nodeOf_near, if_pos rfl]
      exact hset
    · obtain rfl : d = f.side.flip := Side.eq_flip_of_ne hne.symm
      rw [nodeOf_far, if_neg hsib, Side.flip_flip]
      exact hset

end Pieces

/-! ## Reading, colouring and rotating -/

/-- A tree in memory, seen from a node. -/
theorem Models.pieces (hm : Models h (fill p (branch d c a x b))) : Pieces h p (some x)
    [(x, nodeOf d (parentOf p) c a.root? b.root?)] [(some x, a), (some x, b)] := by
  have hp := pieces_iff_models.2 hm
  rw [root?_branch] at hp
  exact pieces_branch.1 hp

theorem Pieces.models {near far : Ptr}
    (hp : Pieces h p (some x) [(x, nodeOf d (parentOf p) c near far)] [(some x, a), (some x, b)])
    (hnear : near = a.root?) (hfar : far = b.root?) : Models h (fill p (branch d c a x b)) := by
  subst hnear hfar
  have hb := pieces_branch.2 hp
  rw [← root?_branch d c a b x] at hb
  exact pieces_iff_models.1 hb

/-- Where a node is says what is in memory. -/
theorem Models.node_eq (hm : Models h (fill p (branch d c a x b))) :
    h.node x = nodeOf d (parentOf p) c a.root? b.root? := hm.pieces.node _ mem_cons_self

theorem Models.apart (hm : Models h (fill p (branch d c a x b))) : Apart p a x b :=
  apart_iff.1 hm.nodup

theorem Models.setColor (hm : Models h (fill p (branch d c a x b))) (c' : Color) :
    Models (h.setColor x c') (fill p (branch d c' a x b)) := by
  refine Pieces.models (hm.pieces.setNode rfl ?_ fun _ hy ↦ Heap.setColor_of_ne hy _) rfl rfl
  rw [Heap.setColor_self, hm.node_eq]
  cases d <;> rfl

/-- `isRed` looks at the root of the tree a pointer leads to. -/
theorem Rep.isRed (ht : Rep h parent t) : h.isRed t.root? = t.isRed := by
  cases t with
  | nil => rfl
  | node c l x r =>
    change decide ((h.node x).color = .red) = _
    rw [ht.1]
    cases c <;> rfl

/-- **A rotation in memory is a rotation of the tree**, at any position. -/
theorem Models.rotate {c' : Color} {e : RbTree ℕ}
    (hm : Models h (fill p (branch d c a x (branch d c' b y e)))) :
    ∃ h', Rbtree.rotate d h x = .ok h' ∧
      Models h' (fill p (branch d c' (branch d c a x b) y e)) := by
  have hx := hm.node_eq
  rw [root?_branch] at hx
  have hm₀ := hm.pieces
  rw [root?_branch] at hm₀
  have hp := pieces_branch.1 (hm₀.perm .rfl (.swap ..))
  have hy := hp.node _ mem_cons_self
  -- the statements of the rotation, one by one
  have h₁ := (hp.perm (.swap ..) .rfl).setChild_far b.root?
  have h₂ := h₁.setParentIf (some x)
  have h₃ := (h₂.perm (.swap ..) .rfl).setChild_near (some x)
  have h₄ := h₃.setParent (parentOf p)
  have h₅ := (h₄.perm (.swap ..) .rfl).replaceChild d (some y)
  have h₆ := h₅.setParent (some y)
  have h₇ := pieces_branch.2 (h₆.perm .rfl
    (perm_append_singleton (some x, a) [(some x, b), (some y, e)]))
  refine ⟨_, ?_, h₇.models (root?_branch ..).symm rfl⟩
  rw [Rbtree.rotate, hx, nodeOf_far]
  change Except.ok _ = _
  rw [hy, nodeOf_near, h₁.node _ (mem_cons_of_mem _ mem_cons_self), nodeOf_near,
    h₃.node _ (mem_cons_of_mem _ mem_cons_self), nodeOf_parent,
    h₄.node _ (mem_cons_of_mem _ mem_cons_self), nodeOf_parent]

end Linux24.Rbtree
