import Linux24.Net.Peer

/-!
# The tree of peers in memory

`At w p t` says that the memory holds a tree that has `t` at the position `p`.  Below the position
everything is as it should be, the heights included; on the way from there to the root they may be
out of date, as they are while `peer_avl_rebalance` is on its way.  `Holds stack p n` says that the
first `n` entries of a stack are the slots from the root to the position.

With that, what `peer_avl_rebalance` does with the slots on a stack is what `Avl.rebalance` does on
the way from the position to the root (`At.peerAvlRebalance`).
-/

set_option autoImplicit false

namespace Linux24.Peer

open RedBlack (Side)
open BinaryTree (nil node)
open Avl Function

/-! ## Trees in memory -/

/-- The pointer to a tree. -/
def ptr : BinaryTree ℕ → ℕ
  | nil => peerAvlEmpty
  | node x _ _ => x

/-- The nodes of the tree are in memory, with their heights. -/
def Rep (m : ℕ → InetPeer) : BinaryTree ℕ → Prop
  | nil => True
  | node x l r => x ≠ peerAvlEmpty ∧ (m x).avlLeft = ptr l ∧ (m x).avlRight = ptr r ∧
      (m x).avlHeight = max l.height r.height + 1 ∧ Rep m l ∧ Rep m r

/-- The nodes between the position and the root are in memory, with `hole` as the pointer to what is
at the position. -/
def RepPath (m : ℕ → InetPeer) : Path ℕ → ℕ → Prop
  | [], _ => True
  | f :: p, hole => f.elem ≠ peerAvlEmpty ∧ (m f.elem).child f.side = hole ∧
      (m f.elem).child f.side.flip = ptr f.sib ∧ Rep m f.sib ∧ RepPath m p f.elem

/-- The root of the tree with `hole` at the position. -/
def rootOf : Path ℕ → ℕ → ℕ
  | [], hole => hole
  | f :: p, _ => rootOf p f.elem

/-- The nodes not at the position. -/
def elems : Path ℕ → List ℕ
  | [] => []
  | f :: p => f.elem :: (inorder f.sib ++ elems p)

/-- The slot of the position. -/
def slotOf : Path ℕ → Slot
  | [] => .root
  | f :: _ => .child f.elem f.side

/-- `peer_fake_node` has its initial values. -/
def Fake (m : ℕ → InetPeer) : Prop :=
  (m peerAvlEmpty).avlLeft = peerAvlEmpty ∧ (m peerAvlEmpty).avlRight = peerAvlEmpty ∧
    (m peerAvlEmpty).avlHeight = 0

/-- The memory holds the tree with `t` at the position. -/
structure At (w : Pool) (p : Path ℕ) (t : BinaryTree ℕ) : Prop where
  root : w.root = rootOf p (ptr t)
  path : RepPath w.mem p (ptr t)
  rep : Rep w.mem t
  nodup : (elems p ++ inorder t).Nodup
  fake : Fake w.mem

/-- The entries of the stack are the slots from the root to the position. -/
def Holds (stack : Stack) : Path ℕ → ℕ → Prop
  | [], n => n = 1 ∧ stack 0 = .root
  | f :: p, n => ∃ m, n = m + 1 ∧ stack m = .child f.elem f.side ∧ Holds stack p m

variable {m m' : ℕ → InetPeer} {w w' : Pool} {p : Path ℕ} {t a b : BinaryTree ℕ} {d : Side} {x : ℕ}

theorem mem_elems_cons {f : Frame ℕ} : x ∈ elems (f :: p) ↔
    x = f.elem ∨ x ∈ inorder f.sib ∨ x ∈ elems p := by
  simp [elems]

theorem ptr_branch : ptr (branch d a x b) = x := by cases d <;> rfl

theorem rep_branch : Rep m (branch d a x b) ↔ x ≠ peerAvlEmpty ∧ (m x).child d = ptr a ∧
    (m x).child d.flip = ptr b ∧ (m x).avlHeight = max a.height b.height + 1 ∧ Rep m a ∧
    Rep m b := by
  cases d with
  | left => exact Iff.rfl
  | right =>
    rw [max_comm]
    exact ⟨fun ⟨h0, h1, h2, h3, h4, h5⟩ ↦ ⟨h0, h2, h1, h3, h5, h4⟩,
      fun ⟨h0, h1, h2, h3, h4, h5⟩ ↦ ⟨h0, h2, h1, h3, h5, h4⟩⟩

theorem perm_branch (d : Side) (a b : BinaryTree ℕ) (x : ℕ) :
    (inorder (branch d a x b)).Perm (x :: (inorder a ++ inorder b)) := by
  cases d with
  | left => exact List.perm_middle
  | right => exact List.perm_middle.trans (List.perm_append_comm.cons x)

theorem perm_frame (p : Path ℕ) (f : Frame ℕ) (l : List ℕ) :
    (elems p ++ f.elem :: (l ++ inorder f.sib)).Perm (elems (f :: p) ++ l) := by
  refine List.perm_middle.trans (List.Perm.cons _ ?_)
  rw [← List.append_assoc]
  exact List.perm_append_comm.trans (List.Perm.of_eq (List.append_assoc ..).symm)

theorem perm_fill (p : Path ℕ) (t : BinaryTree ℕ) :
    (inorder (fill p t)).Perm (elems p ++ inorder t) := by
  induction p generalizing t with
  | nil => rfl
  | cons f p ih =>
    refine (ih _).trans (((perm_branch ..).append_left _).trans ?_)
    exact perm_frame ..

/-- The height in a node, or in the fake node, is that of the tree. -/
theorem Rep.height (h : Rep m t) (hfake : Fake m) : (m (ptr t)).avlHeight = t.height := by
  cases t with
  | nil => exact hfake.2.2
  | node x l r => exact h.2.2.2.1

theorem Rep.ne_empty (h : Rep m t) : ∀ y ∈ inorder t, y ≠ peerAvlEmpty := by
  induction t with
  | nil => exact nofun
  | node x l r ihl ihr =>
    obtain ⟨hx, -, -, -, hl, hr⟩ := h
    intro y hy
    rcases List.mem_append.1 hy with hy | hy
    · exact ihl hl y hy
    · rcases List.mem_cons.1 hy with rfl | hy
      · exact hx
      · exact ihr hr y hy

variable {hole : ℕ}

theorem RepPath.ne_empty (h : RepPath m p hole) : ∀ y ∈ elems p, y ≠ peerAvlEmpty := by
  induction p generalizing hole with
  | nil => exact nofun
  | cons f p ih =>
    obtain ⟨hf, -, -, hs, hp⟩ := h
    intro y hy
    rcases mem_elems_cons.1 hy with rfl | hy | hy
    · exact hf
    · exact hs.ne_empty y hy
    · exact ih hp y hy

/-! ## What a change leaves alone -/

/-- The fields that make the tree are the same. -/
def SameLinks (n n' : InetPeer) : Prop :=
  n'.avlLeft = n.avlLeft ∧ n'.avlRight = n.avlRight ∧ n'.avlHeight = n.avlHeight

theorem Rep.sameLinks (h : Rep m t) (heq : ∀ y ∈ inorder t, SameLinks (m y) (m' y)) : Rep m' t := by
  induction t with
  | nil => trivial
  | node x l r ihl ihr =>
    obtain ⟨hx, hleft, hright, hheight, hl, hr⟩ := h
    obtain ⟨hxl, hxr, hxh⟩ := heq x (by simp [inorder])
    refine ⟨hx, hxl.trans hleft, hxr.trans hright, hxh.trans hheight, ihl hl fun y hy ↦ heq y ?_,
      ihr hr fun y hy ↦ heq y ?_⟩
    · simp [inorder, hy]
    · simp [inorder, hy]

theorem Rep.congr (h : Rep m t) (heq : ∀ y ∈ inorder t, m' y = m y) : Rep m' t :=
  h.sameLinks fun y hy ↦ by rw [heq y hy]; exact ⟨rfl, rfl, rfl⟩

theorem RepPath.congr (h : RepPath m p hole) (heq : ∀ y ∈ elems p, m' y = m y) :
    RepPath m' p hole := by
  induction p generalizing hole with
  | nil => trivial
  | cons f p ih =>
    obtain ⟨hf, hnear, hfar, hs, hp⟩ := h
    have hfm : m' f.elem = m f.elem := heq _ (mem_elems_cons.2 (Or.inl rfl))
    exact ⟨hf, hfm ▸ hnear, hfm ▸ hfar,
      hs.congr fun y hy ↦ heq y (mem_elems_cons.2 (Or.inr (Or.inl hy))),
      ih hp fun y hy ↦ heq y (mem_elems_cons.2 (Or.inr (Or.inr hy)))⟩

theorem Fake.congr (h : Fake m) (heq : m' peerAvlEmpty = m peerAvlEmpty) : Fake m' := by
  rw [Fake, heq]
  exact h

namespace Pool

variable {n y : ℕ}

theorem store_child (n : ℕ) (d : Side) (v : ℕ) : (w.store (.child n d) v).root = w.root ∧
    ((w.store (.child n d) v).mem n).child d = v ∧
    ((w.store (.child n d) v).mem n).child d.flip = (w.mem n).child d.flip := by
  cases d <;> simp [store, InetPeer.child, Side.flip]

theorem store_child_of_ne (hne : y ≠ n) (d : Side) (v : ℕ) :
    (w.store (.child n d) v).mem y = w.mem y := by
  cases d <;> exact update_of_ne hne _ _

/-- A slot that is not in the node. -/
theorem store_slotOf (hy : y ∉ elems p) (v : ℕ) : (w.store (slotOf p) v).mem y = w.mem y := by
  cases p with
  | nil => rfl
  | cons f p => exact store_child_of_ne (fun hc ↦ hy (mem_elems_cons.2 (Or.inl hc))) _ _

theorem setNode_self (n : ℕ) (d : Side) (near far h : ℕ) :
    ((w.setNode n d near far h).mem n).child d = near ∧
    ((w.setNode n d near far h).mem n).child d.flip = far ∧
    ((w.setNode n d near far h).mem n).avlHeight = h := by
  cases d <;> simp [setNode, InetPeer.child, Side.flip]

theorem setNode_of_ne (hne : y ≠ n) (d : Side) (near far h : ℕ) :
    (w.setNode n d near far h).mem y = w.mem y := update_of_ne hne _ _

end Pool

/-! ## The slot of a position -/

theorem load_slotOf (hroot : w.root = rootOf p x) (hpath : RepPath w.mem p x) :
    w.load (slotOf p) = x := by
  cases p with
  | nil => exact hroot
  | cons f p => exact hpath.2.1

/-- Writing a slot changes the pointer at the position, and nothing else on the way to the root. -/
theorem RepPath.store (hroot : w.root = rootOf p hole) (hpath : RepPath w.mem p hole)
    (hnodup : (elems p).Nodup) (v : ℕ) :
    (w.store (slotOf p) v).root = rootOf p v ∧ RepPath (w.store (slotOf p) v).mem p v := by
  cases p with
  | nil => exact ⟨rfl, trivial⟩
  | cons f p =>
    obtain ⟨hf, -, hfar, hs, hrest⟩ := hpath
    obtain ⟨hsroot, hnear, hfar'⟩ := Pool.store_child f.elem f.side v
    rw [elems, List.nodup_cons, List.mem_append, not_or] at hnodup
    refine ⟨hsroot.trans hroot, hf, hnear, hfar'.trans hfar, hs.congr fun y hy ↦ ?_,
      hrest.congr fun y hy ↦ ?_⟩
    · exact Pool.store_child_of_ne (ne_of_mem_of_not_mem hy hnodup.1.1) _ _
    · exact Pool.store_child_of_ne (ne_of_mem_of_not_mem hy hnodup.1.2) _ _

/-- **Writing a slot.**  When the memory holds a tree `t`, writing its pointer to the slot of the
position puts it there. -/
theorem At.store (hroot : w.root = rootOf p hole) (hpath : RepPath w.mem p hole)
    (hrep : Rep w.mem t) (hnodup : (elems p ++ inorder t).Nodup) (hfake : Fake w.mem) :
    At (w.store (slotOf p) (ptr t)) p t := by
  obtain ⟨hp, -, hdisj⟩ := List.nodup_append'.1 hnodup
  obtain ⟨hroot', hpath'⟩ := hpath.store hroot hp (ptr t)
  exact ⟨hroot', hpath', hrep.congr fun y hy ↦ Pool.store_slotOf (fun hc ↦ hdisj hc hy) _, hnodup,
    hfake.congr (Pool.store_slotOf (fun hc ↦ hpath.ne_empty _ hc rfl) _)⟩

/-! ## One step of the way up -/

/-- The memory holds a tree with the node `x` at the position, whose height may be wrong, and whose
subtrees, the one on side `d` first, are `a` and `b`. -/
structure AtNode (w : Pool) (p : Path ℕ) (d : Side) (a : BinaryTree ℕ) (x : ℕ) (b : BinaryTree ℕ) :
    Prop where
  root : w.root = rootOf p x
  path : RepPath w.mem p x
  ne_empty : x ≠ peerAvlEmpty
  near : (w.mem x).child d = ptr a
  far : (w.mem x).child d.flip = ptr b
  rep_near : Rep w.mem a
  rep_far : Rep w.mem b
  nodup : (elems p ++ (x :: (inorder a ++ inorder b))).Nodup
  fake : Fake w.mem

theorem At.atNode {f : Frame ℕ} (h : At w (f :: p) t) : AtNode w p f.side t f.elem f.sib := by
  obtain ⟨hroot, ⟨hf, hnear, hfar, hs, hpath⟩, hrep, hnodup, hfake⟩ := h
  refine ⟨hroot, hpath, hf, hnear, hfar, hrep, hs, ?_, hfake⟩
  exact (perm_frame p f _).nodup_iff.2 hnodup

theorem AtNode.flip (h : AtNode w p d a x b) : AtNode w p d.flip b x a := by
  obtain ⟨hroot, hpath, hne, hnear, hfar, ha, hb, hnodup, hfake⟩ := h
  refine ⟨hroot, hpath, hne, hfar, by rw [Side.flip_flip]; exact hnear, hb, ha, ?_, hfake⟩
  exact (List.Perm.nodup_iff ((List.perm_append_comm.cons x).append_left _)).1 hnodup

/-! ## Rotations -/

/-- The memory holds the tree around the position and, apart from it, the trees `ts`; the nodes `xs`
are those that can be overwritten. -/
structure Forest (w : Pool) (p : Path ℕ) (hole : ℕ) (xs : List ℕ) (ts : List (BinaryTree ℕ)) :
    Prop where
  root : w.root = rootOf p hole
  path : RepPath w.mem p hole
  ne_empty : ∀ x ∈ xs, x ≠ peerAvlEmpty
  rep : ∀ t ∈ ts, Rep w.mem t
  nodup : (elems p ++ (xs ++ ts.flatMap inorder)).Nodup
  fake : Fake w.mem

section Forests

variable {xs xs' : List ℕ} {ts ts' : List (BinaryTree ℕ)}

theorem perm_node (d : Side) (a b : BinaryTree ℕ) (x : ℕ) (xs : List ℕ)
    (ts : List (BinaryTree ℕ)) : (x :: xs ++ (a :: b :: ts).flatMap inorder).Perm
      (xs ++ (branch d a x b :: ts).flatMap inorder) := by
  refine (List.perm_middle.symm.trans (List.Perm.of_eq ?_)).trans
    (((perm_branch d a b x).symm.append_right (ts.flatMap inorder)).append_left xs)
  rw [List.flatMap_cons, List.flatMap_cons, List.cons_append, List.append_assoc]

theorem Forest.perm (h : Forest w p hole xs ts) (hxs : xs.Perm xs') (hts : ts.Perm ts') :
    Forest w p hole xs' ts' where
  __ := h
  ne_empty x hx := h.ne_empty x (hxs.mem_iff.2 hx)
  rep t ht := h.rep t (hts.mem_iff.2 ht)
  nodup := ((hxs.append (hts.flatMap_right _)).append_left _).nodup_iff.1 h.nodup

/-- A tree is taken apart. -/
theorem Forest.takeApart (h : Forest w p hole xs (branch d a x b :: ts)) :
    Forest w p hole (x :: xs) (a :: b :: ts) := by
  obtain ⟨hbranch, hts⟩ := List.forall_mem_cons.1 h.rep
  obtain ⟨hx, -, -, -, ha, hb⟩ := rep_branch.1 hbranch
  exact ⟨h.root, h.path, List.forall_mem_cons.2 ⟨hx, h.ne_empty⟩,
    List.forall_mem_cons.2 ⟨ha, List.forall_mem_cons.2 ⟨hb, hts⟩⟩,
    ((perm_node d a b x xs ts).append_left _).nodup_iff.2 h.nodup, h.fake⟩

/-- A node is made out of two trees. -/
theorem Forest.setNode (h : Forest w p hole (x :: xs) (a :: b :: ts)) (d : Side) {k : ℕ}
    (hk : k = max a.height b.height + 1) :
    Forest (w.setNode x d (ptr a) (ptr b) k) p hole xs (branch d a x b :: ts) := by
  obtain ⟨hx, hxs⟩ := List.forall_mem_cons.1 h.ne_empty
  obtain ⟨ha, hts⟩ := List.forall_mem_cons.1 h.rep
  obtain ⟨hb, hts⟩ := List.forall_mem_cons.1 hts
  have hnot : x ∉ elems p ++ (xs ++ (a :: b :: ts).flatMap inorder) :=
    (List.nodup_cons.1 (List.nodup_middle.1 h.nodup)).1
  simp only [List.flatMap_cons, List.mem_append, not_or] at hnot
  obtain ⟨hxp, -, hxa, hxb, hxt⟩ := hnot
  have hother : ∀ t, Rep w.mem t → x ∉ inorder t → Rep (w.setNode x d (ptr a) (ptr b) k).mem t :=
    fun t ht hxt ↦ ht.congr fun y hy ↦ Pool.setNode_of_ne (ne_of_mem_of_not_mem hy hxt) ..
  obtain ⟨hnear, hfar, hheight⟩ := Pool.setNode_self x d (ptr a) (ptr b) k
  refine ⟨h.root, h.path.congr fun y hy ↦ ?_, hxs, List.forall_mem_cons.2 ⟨?_, fun t ht ↦ ?_⟩,
    ((perm_node ..).append_left _).nodup_iff.1 h.nodup,
    h.fake.congr (Pool.setNode_of_ne hx.symm ..)⟩
  · exact Pool.setNode_of_ne (ne_of_mem_of_not_mem hy hxp) ..
  · exact rep_branch.2 ⟨hx, hnear, hfar, hheight.trans hk, hother a ha hxa, hother b hb hxb⟩
  · exact hother t (hts t ht) fun hc ↦ hxt (List.mem_flatMap.2 ⟨t, ht, hc⟩)

theorem Forest.at (h : Forest w p (ptr t) [] [t]) : At w p t :=
  ⟨h.root, h.path, h.rep t (List.mem_singleton_self t), by simpa using h.nodup, h.fake⟩

theorem Forest.store (h : Forest w p hole [] [t]) : At (w.store (slotOf p) (ptr t)) p t :=
  At.store h.root h.path (h.rep t (List.mem_singleton_self t)) (by simpa using h.nodup) h.fake

theorem AtNode.forest (h : AtNode w p d a x b) : Forest w p x [x] [a, b] :=
  ⟨h.root, h.path, by simpa using h.ne_empty, by simpa using ⟨h.rep_near, h.rep_far⟩,
    by simpa using h.nodup, h.fake⟩

end Forests

/-- **A rotation**, on the side that is too high by two. -/
theorem AtNode.liftNode (h : AtNode w p d a x b) (hbal : Balanced a)
    (hheight : a.height = b.height + 2) :
    At (w.liftNode d (slotOf p) x (ptr a) (ptr b) b.height) p (lift d a x b) := by
  obtain ⟨near, y, far, rfl⟩ := exists_branch d (show 0 < a.height by omega)
  obtain ⟨-, hynear, hyfar, -, hnear, hfar⟩ := rep_branch.1 h.rep_near
  obtain ⟨hle, hge, -, hbfar⟩ := (balanced_branch ..).1 hbal
  rw [height_branch] at hheight
  have hparts : Forest w p x [x, y] [far, b, near] :=
    h.forest.takeApart.perm (.swap ..) (List.perm_append_singleton ..).symm
  rw [ptr_branch, Pool.liftNode, hynear, hyfar, hnear.height h.fake, hfar.height h.fake, lift,
    split_branch]
  dsimp only
  split
  · have hright := hparts.setNode d (k := far.height + 1) (by omega)
    have hat := ((hright.perm .rfl (.swap ..)).setNode d (k := far.height + 1 + 1)
      (by rw [height_branch]; omega)).store
    rw [(Pool.setNode_self ..).2.2]
    simpa only [ptr_branch] using hat
  · rename_i hdouble
    obtain ⟨c, z, e, rfl⟩ := exists_branch d (show 0 < far.height by omega)
    obtain ⟨-, hzc, hze, -⟩ := rep_branch.1 hfar
    rw [height_branch] at hheight hle hge hdouble
    rw [ptr_branch, hzc, hze, split_branch]
    have hparts' : Forest w p x [x, y, z] [e, b, near, c] := hparts.takeApart.perm
      (List.perm_append_singleton ..).symm (List.perm_append_singleton ..).symm
    have hright := hparts'.setNode d (k := b.height + 1) (by omega)
    have hleft := (hright.perm .rfl (List.perm_append_singleton ..).symm).setNode d
      (k := b.height + 1) (by omega)
    have hat := (hleft.setNode d (k := b.height + 2)
      (by rw [height_branch, height_branch]; omega)).store
    simpa only [ptr_branch] using hat

theorem AtNode.rebalanceSlot_left (h : AtNode w p .left a x b) (ha : Balanced a) (hb : Balanced b)
    (hab : a.height ≤ b.height + 2) (hba : b.height ≤ a.height + 2) :
    At (w.rebalanceSlot (slotOf p)) p (balance .left a x b) := by
  have hnear : (w.mem x).avlLeft = ptr a := h.near
  have hfar : (w.mem x).avlRight = ptr b := h.far
  rw [Pool.rebalanceSlot, load_slotOf h.root h.path, hnear, hfar, h.rep_near.height h.fake,
    h.rep_far.height h.fake, balance]
  split
  · exact h.liftNode ha (by omega)
  split
  · exact h.flip.liftNode hb (by omega)
  · have hnode := h.forest.setNode .left
      (k := (if b.height < a.height then a.height else b.height) + 1) (by split <;> omega)
    rw [← hnear, ← hfar] at hnode
    exact hnode.at

/-- **One slot.** -/
theorem AtNode.rebalanceSlot (h : AtNode w p d a x b) (ha : Balanced a) (hb : Balanced b)
    (hab : a.height ≤ b.height + 2) (hba : b.height ≤ a.height + 2) :
    At (w.rebalanceSlot (slotOf p)) p (balance d a x b) := by
  cases d with
  | left => exact h.rebalanceSlot_left ha hb hab hba
  | right =>
    rw [← balance_flip]
    exact h.flip.rebalanceSlot_left hb ha hba hab

/-! ## Stacks -/

section Stacks

variable {stack stack' : Stack} {n : ℕ} {f f' : Frame ℕ} {q : Path ℕ}

theorem Holds.length (h : Holds stack p n) : n = p.length + 1 := by
  induction p generalizing n with
  | nil => exact h.1
  | cons f p ih =>
    obtain ⟨m, rfl, -, hrest⟩ := h
    rw [ih hrest, List.length_cons]

theorem Holds.top (h : Holds stack p n) : stack (n - 1) = slotOf p := by
  cases p with
  | nil =>
    obtain ⟨rfl, hroot⟩ := h
    exact hroot
  | cons f p =>
    obtain ⟨m, rfl, hm, -⟩ := h
    exact hm

theorem Holds.congr (h : Holds stack p n) (heq : ∀ i < n, stack' i = stack i) :
    Holds stack' p n := by
  induction p generalizing n with
  | nil =>
    obtain ⟨rfl, hroot⟩ := h
    exact ⟨rfl, (heq 0 one_pos).trans hroot⟩
  | cons f p ih =>
    obtain ⟨m, rfl, hm, hrest⟩ := h
    exact ⟨m, rfl, (heq m (Nat.lt_succ_self m)).trans hm,
      ih hrest fun i hi ↦ heq i (Nat.lt_succ_of_lt hi)⟩

theorem Holds.push (h : Holds stack p n) (f : Frame ℕ) :
    Holds (update stack n (.child f.elem f.side)) (f :: p) (n + 1) :=
  ⟨n, rfl, update_self .., h.congr fun _ hi ↦ update_of_ne hi.ne _ _⟩

/-- The entries further down the stack. -/
theorem Holds.of_append (h : Holds stack (q ++ p) n) : Holds stack p (p.length + 1) := by
  induction q generalizing n with
  | nil => exact h.length ▸ h
  | cons g q ih =>
    obtain ⟨m, rfl, -, hrest⟩ := h
    exact ih hrest

/-- The node is replaced by another one. -/
theorem Holds.patch (f' : Frame ℕ) (h : Holds stack (q ++ f :: p) n) :
    Holds (update stack (p.length + 1) (.child f'.elem f'.side)) (q ++ f' :: p) n := by
  induction q generalizing n with
  | nil =>
    obtain ⟨m, rfl, -, hrest⟩ := h
    rw [← hrest.length]
    exact hrest.push f'
  | cons g q ih =>
    rw [List.cons_append] at h
    obtain ⟨m, rfl, hm, hrest⟩ := h
    have hlen := hrest.length
    rw [List.length_append, List.length_cons] at hlen
    refine ⟨m, rfl, ?_, ih hrest⟩
    rw [update_of_ne (by omega)]
    exact hm

end Stacks

/-- **`peer_avl_rebalance`**, when the height at the position has changed by one at most. -/
theorem At.peerAvlRebalance {stack : Stack} {h n : ℕ} (hat : At w p t) (hstack : Holds stack p n)
    (hfits : Fits p h) (ht : Balanced t) (hle : t.height ≤ h + 1) (hge : h ≤ t.height + 1) :
    At (Pool.peerAvlRebalance stack (n - 1) w) [] (rebalance p t) := by
  induction p generalizing w t h n with
  | nil =>
    obtain ⟨rfl, -⟩ := hstack
    exact hat
  | cons f p ih =>
    obtain ⟨m, rfl, -, hrest⟩ := hstack
    obtain ⟨hbal, hfits', hle', hge'⟩ := hfits.step ht hle hge
    obtain ⟨hsib, hs, hs', -⟩ := hfits
    obtain ⟨k, rfl⟩ : ∃ k, m = k + 1 := ⟨p.length, hrest.length⟩
    have hslot := hat.atNode.rebalanceSlot ht hsib (by omega) (by omega)
    have htop : stack k = slotOf p := hrest.top
    rw [← htop] at hslot
    have hup := ih hslot hrest hfits' hbal hle' hge'
    exact hup

end Linux24.Peer
