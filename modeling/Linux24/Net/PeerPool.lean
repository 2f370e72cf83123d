import Linux24.Net.PeerLayout

/-!
# Searching, inserting and removing peers

`lookup` is `Avl.find` (`At.lookup`), and `lookup_rightempty` is `Avl.last` (`At.lookupRightempty`);
the stacks they leave hold the position that has been found.  So a peer is linked where its address
belongs (`At.linkToPool`), and when one is removed, and the last peer of its left subtree has taken
its place, the stack with the one entry that has been changed holds the position from which that one
has come (`At.remove`).  The checks before the `BUG()`s are facts about these positions.
-/

set_option autoImplicit false

namespace Linux24.Peer

open List

open RedBlack (Side)
open BinaryTree (nil node)
open Avl

variable {w : Pool} {p q : Path ℕ} {t a b l r : BinaryTree ℕ} {d : Side} {x n : ℕ} {stack : Stack}

/-! ## Addresses -/

namespace Pool

/-- The address of the peer at each place in memory, as a number. -/
def addr (w : Pool) (y : ℕ) : ℕ := (w.mem y).v4daddr.toNat

theorem store_addr (slot : Slot) (v : ℕ) : (w.store slot v).addr = w.addr := by
  funext y
  cases slot with
  | root => rfl
  | child n d =>
    by_cases hy : y = n
    · subst hy
      cases d <;> simp [addr, store]
    · rw [addr, store_child_of_ne hy]
      rfl

theorem setNode_addr (n : ℕ) (d : Side) (near far h : ℕ) :
    (w.setNode n d near far h).addr = w.addr := by
  funext y
  by_cases hy : y = n
  · subst hy
    cases d <;> simp [addr, setNode]
  · rw [addr, setNode_of_ne hy]
    rfl

theorem liftNode_addr (d : Side) (nodep : Slot) (node heavy light h : ℕ) :
    (w.liftNode d nodep node heavy light h).addr = w.addr := by
  rw [liftNode]
  split
  · rw [store_addr, setNode_addr, setNode_addr]
  · rw [store_addr, setNode_addr, setNode_addr, setNode_addr]

theorem rebalanceSlot_addr (nodep : Slot) : (w.rebalanceSlot nodep).addr = w.addr := by
  rw [rebalanceSlot]
  split
  · exact liftNode_addr ..
  split
  · exact liftNode_addr ..
  · funext y
    by_cases hy : y = w.load nodep
    · subst hy
      simp [addr]
    · simp [addr, Function.update_of_ne hy]

theorem peerAvlRebalance_addr (stack : Stack) (n : ℕ) (w : Pool) :
    (peerAvlRebalance stack n w).addr = w.addr := by
  induction n generalizing w with
  | zero => rfl
  | succ n ih => rw [peerAvlRebalance, ih, rebalanceSlot_addr]

end Pool

/-! ## Positions -/

theorem elems_append (q p : Path ℕ) : elems (q ++ p) = elems q ++ elems p := by
  induction q with
  | nil => rfl
  | cons f q ih => rw [cons_append, elems, elems, ih, cons_append, append_assoc]

theorem rootOf_append (q p : Path ℕ) (hole : ℕ) :
    rootOf (q ++ p) hole = rootOf p (rootOf q hole) := by
  induction q generalizing hole with
  | nil => rfl
  | cons f q ih => exact ih _

theorem repPath_append {m : ℕ → InetPeer} {hole : ℕ} :
    RepPath m (q ++ p) hole ↔ RepPath m q hole ∧ RepPath m p (rootOf q hole) := by
  induction q generalizing hole with
  | nil => exact (and_iff_right trivial).symm
  | cons f q ih =>
    rw [cons_append, RepPath, RepPath, ih]
    tauto

theorem At.down (h : At w p (branch d a x b)) : At w (⟨d, x, b⟩ :: p) a := by
  obtain ⟨hroot, hpath, hrep, hnodup, hfake⟩ := h
  obtain ⟨hx, hnear, hfar, -, ha, hb⟩ := rep_branch.1 hrep
  rw [ptr_branch] at hroot hpath
  refine ⟨hroot, ⟨hx, hnear, hfar, hb, hpath⟩, ha, ?_, hfake⟩
  refine (perm_frame p ⟨d, x, b⟩ _).nodup_iff.1 ?_
  exact ((perm_branch d a b x).append_left _).nodup_iff.1 hnodup

/-! ## `lookup` -/

theorem At.lookupLoop (h : At w p t) (hstack : Holds stack p n) (daddr : BitVec 32) {fuel : ℕ}
    (hfuel : t.height < fuel) : ∃ stack' n', w.lookupLoop daddr fuel (ptr t) stack n =
      some (ptr (find w.addr daddr.toNat t p).2, stack', n') ∧
      Holds stack' (find w.addr daddr.toNat t p).1 n' ∧
      At w (find w.addr daddr.toNat t p).1 (find w.addr daddr.toNat t p).2 := by
  induction t generalizing p stack n fuel with
  | nil =>
    obtain ⟨fuel, rfl⟩ := Nat.exists_eq_add_of_lt hfuel
    exact ⟨stack, n, rfl, hstack, h⟩
  | node x l r ihl ihr =>
    obtain ⟨fuel, rfl⟩ : ∃ k, fuel = k + 1 := ⟨fuel - 1, by omega⟩
    change max l.height r.height + 1 < fuel + 1 at hfuel
    have hx : x ≠ peerAvlEmpty := h.rep.1
    rw [Pool.lookupLoop, find, if_neg (show ptr (node x l r) ≠ peerAvlEmpty from hx)]
    have heq : daddr = (w.mem x).v4daddr ↔ daddr.toNat = w.addr x := BitVec.toNat_inj.symm
    have hlt : daddr < (w.mem x).v4daddr ↔ daddr.toNat < w.addr x := BitVec.lt_def
    change ∃ stack' n', (if daddr = (w.mem x).v4daddr then some (x, stack, n) else
      w.lookupLoop daddr fuel (w.load (if daddr < (w.mem x).v4daddr then .child x .left
        else .child x .right)) (Function.update stack n (if daddr < (w.mem x).v4daddr then
          .child x .left else .child x .right)) (n + 1)) = _ ∧ _
    simp only [heq, hlt]
    split
    · exact ⟨stack, n, rfl, hstack, h⟩
    split
    · have hload : w.load (.child x .left) = ptr l := h.rep.2.1
      rw [hload]
      exact ihl (At.down h) (hstack.push ⟨.left, x, r⟩) (by omega)
    · have hload : w.load (.child x .right) = ptr r := h.rep.2.2.1
      rw [hload]
      exact ihr (At.down h) (hstack.push ⟨.right, x, l⟩) (by omega)

/-- **`lookup`** in a tree that is not too deep. -/
theorem At.lookup (h : At w [] t) (hheight : t.height < 65536) (daddr : BitVec 32) : ∃ stack n,
    w.lookup daddr = some (ptr (find w.addr daddr.toNat t []).2, stack, n) ∧
      Holds stack (find w.addr daddr.toNat t []).1 n ∧
      At w (find w.addr daddr.toNat t []).1 (find w.addr daddr.toNat t []).2 := by
  rw [Pool.lookup, h.root]
  exact h.lookupLoop ⟨rfl, rfl⟩ daddr hheight

/-! ## `lookup_rightempty` -/

theorem At.rightemptyLoop (h : At w p (node x l r)) (hstack : Holds stack p n) {fuel : ℕ}
    (hfuel : r.height < fuel) : ∃ stack' n',
      w.rightemptyLoop fuel x stack n = some ((last x l r).2.1, stack', n') ∧
      Holds stack' ((last x l r).1 ++ p) n' ∧
      At w ((last x l r).1 ++ p) (node (last x l r).2.1 (last x l r).2.2 nil) := by
  induction r generalizing p stack n fuel x l with
  | nil =>
    obtain ⟨fuel, rfl⟩ : ∃ k, fuel = k + 1 := ⟨fuel - 1, by omega⟩
    exact ⟨stack, n, if_pos h.rep.2.2.1, hstack, h⟩
  | node y a b _ ih =>
    obtain ⟨fuel, rfl⟩ : ∃ k, fuel = k + 1 := ⟨fuel - 1, by omega⟩
    change max a.height b.height + 1 < fuel + 1 at hfuel
    have hright : (w.mem x).avlRight = y := h.rep.2.2.1
    have hdown := At.down (d := .right) h
    obtain ⟨stack', n', heq, hstack', hat⟩ := ih hdown (hstack.push ⟨.right, x, l⟩)
      (show b.height < fuel by omega)
    rw [last, append_assoc]
    refine ⟨stack', n', ?_, hstack', hat⟩
    rw [Pool.rightemptyLoop, hright, if_neg hdown.rep.1]
    exact heq

variable {y : ℕ}

/-- **`lookup_rightempty`** from a peer that has a left subtree. -/
theorem At.lookupRightempty (h : At w p (node x (node y l r) t)) (hstack : Holds stack p n)
    (hheight : r.height < 65536) : ∃ stack' n',
      w.lookupRightempty x stack n = some ((last y l r).2.1, stack', n') ∧
      Holds stack' ((last y l r).1 ++ ⟨.left, x, t⟩ :: p) n' ∧
      At w ((last y l r).1 ++ ⟨.left, x, t⟩ :: p) (node (last y l r).2.1 (last y l r).2.2 nil) := by
  have hleft : (w.mem x).avlLeft = y := h.rep.2.1
  rw [Pool.lookupRightempty, hleft]
  exact (At.down h).rightemptyLoop (hstack.push ⟨.left, x, t⟩) hheight

/-! ## `link_to_pool` -/

/-- **`link_to_pool`** where `lookup` has found nothing. -/
theorem At.linkToPool (h : At w p nil) (hstack : Holds stack p n)
    (hbal : Balanced (fill p nil)) (hy : y ≠ peerAvlEmpty) (hnew : y ∉ elems p) :
    At (w.linkToPool y stack n) [] (rebalance p (node y nil nil)) := by
  have hnodup : (elems p ++ [y]).Nodup := by
    have hp := h.nodup
    rw [inorder, append_nil] at hp
    exact nodup_append'.2 ⟨hp, nodup_singleton y, disjoint_singleton.2 hnew⟩
  have hforest : Forest w p peerAvlEmpty [y] [nil, nil] :=
    ⟨h.root, h.path, by simpa using hy, by simp [Rep], hnodup, h.fake⟩
  have hat := (hforest.setNode .left rfl).store
  rw [Pool.linkToPool, hstack.top]
  exact hat.peerAvlRebalance hstack ((balanced_fill p nil).1 hbal).2
    ⟨zero_le, zero_le, trivial, trivial⟩ le_rfl zero_le

/-! ## `unlink_from_pool` -/

/-- A peer without a left subtree is replaced by its right one. -/
theorem At.remove_of_nil (h : At w p (node x nil r)) (hstack : Holds stack p n)
    (hbal : Balanced (fill p (node x nil r))) :
    At (Pool.peerAvlRebalance stack (n - 1) (w.store (slotOf p) (ptr r))) [] (rebalance p r) := by
  obtain ⟨hroot, hpath, ⟨-, -, -, -, -, hr⟩, hnodup, hfake⟩ := h
  have hsub : (elems p ++ inorder r).Sublist (elems p ++ inorder (node x nil r)) :=
    (sublist_cons_self x (inorder r)).append_left _
  obtain ⟨⟨-, -, -, hr'⟩, hfits⟩ := (balanced_fill p _).1 hbal
  have hheight : (node x nil r).height = max 0 r.height + 1 := rfl
  exact (At.store hroot hpath hr (hnodup.sublist hsub) hfake).peerAvlRebalance hstack hfits hr'
    (by omega) (by omega)

/-- A peer takes the place of another one, from which the position is on the left. -/
theorem At.replace {s : BinaryTree ℕ} (h : At w (q ++ ⟨.left, x, s⟩ :: p) t)
    (hy : y ≠ peerAvlEmpty) (hnew : y ∉ elems (q ++ ⟨.left, x, s⟩ :: p) ++ inorder t) (k : ℕ) :
    At ((w.store (slotOf p) y).setNode y .left (w.mem x).avlLeft (w.mem x).avlRight k)
      (q ++ ⟨.left, y, s⟩ :: p) t := by
  obtain ⟨hroot, hpath, hrep, hnodup, hfake⟩ := h
  rw [rootOf_append] at hroot
  change w.root = rootOf p x at hroot
  obtain ⟨hq, -, hleft, hright, hs, hp⟩ := repPath_append.1 hpath
  rw [elems_append, elems] at hnodup hnew
  have hnodup' := hnodup
  simp only [nodup_append', nodup_cons, mem_append, mem_cons, not_or,
    disjoint_cons_right, disjoint_append_left, disjoint_append_right,
    disjoint_cons_left] at hnodup' hnew
  obtain ⟨⟨hqn, ⟨-, hsn, hpn, hsp⟩, -, hqs, hqp⟩, htn, hqt, -, hst, hpt⟩ := hnodup'
  obtain ⟨⟨hyq, -, hys, hyp⟩, hyt⟩ := hnew
  obtain ⟨hroot', hp'⟩ := hp.store hroot hpn y
  have hout : ∀ z, z ∉ elems p → z ≠ y → ((w.store (slotOf p) y).setNode y .left (w.mem x).avlLeft
      (w.mem x).avlRight k).mem z = w.mem z := fun z hz hzy ↦
    (Pool.setNode_of_ne hzy ..).trans (Pool.store_slotOf hz y)
  obtain ⟨hyl, hyr, -⟩ := Pool.setNode_self y .left (w.mem x).avlLeft
    (w.mem x).avlRight k
  refine ⟨?_, repPath_append.2 ⟨hq.congr fun z hz ↦ ?_, hy, hyl.trans hleft, hyr.trans hright,
    hs.congr fun z hz ↦ ?_, hp'.congr fun z hz ↦ ?_⟩, hrep.congr fun z hz ↦ ?_, ?_, ?_⟩
  · rw [rootOf_append]
    exact hroot'
  · exact hout z (hqp hz) (ne_of_mem_of_not_mem hz hyq)
  · exact hout z (hsp hz) (ne_of_mem_of_not_mem hz hys)
  · exact Pool.setNode_of_ne (ne_of_mem_of_not_mem hz hyp) ..
  · exact hout z (fun hc ↦ hpt hc hz) (ne_of_mem_of_not_mem hz hyt)
  · rw [elems_append, elems]
    simp only [nodup_append', nodup_cons, mem_append, not_or,
      disjoint_cons_right, disjoint_append_left, disjoint_append_right,
      disjoint_cons_left]
    exact ⟨⟨hqn, ⟨⟨hys, hyp⟩, hsn, hpn, hsp⟩, hyq, hqs, hqp⟩, htn, hqt, hyt, hst, hpt⟩
  · exact hfake.congr (hout _ (fun hc ↦ hp.ne_empty _ hc rfl) (Ne.symm hy))

/-- The last peer `v` of a left subtree is taken out, and takes the place of `x` above it. -/
theorem At.takePlace {v : ℕ} {s : BinaryTree ℕ}
    (h : At w (q ++ ⟨.left, x, s⟩ :: p) (node v t nil)) :
    At (((w.store (slotOf (q ++ ⟨.left, x, s⟩ :: p)) (ptr t)).store (slotOf p) v).setNode v .left
      (((w.store (slotOf (q ++ ⟨.left, x, s⟩ :: p)) (ptr t)).store (slotOf p) v).mem x).avlLeft
      (((w.store (slotOf (q ++ ⟨.left, x, s⟩ :: p)) (ptr t)).store (slotOf p) v).mem x).avlRight
      (((w.store (slotOf (q ++ ⟨.left, x, s⟩ :: p)) (ptr t)).store (slotOf p) v).mem x).avlHeight)
      (q ++ ⟨.left, v, s⟩ :: p) t := by
  obtain ⟨hroot, hpath, ⟨hv, -, -, -, ht, -⟩, hnodup, hfake⟩ := h
  rw [inorder, ← append_assoc, nodup_append'] at hnodup
  obtain ⟨hnodup, -, hdisj⟩ := hnodup
  have hout := At.store hroot hpath ht hnodup hfake
  have hx : x ∉ elems p := by
    rw [elems_append, elems] at hnodup
    simp only [nodup_append', nodup_cons, mem_append, not_or] at hnodup
    exact hnodup.1.2.1.1.2
  rw [Pool.store_slotOf hx]
  exact hout.replace hv (disjoint_singleton.1 hdisj) _

/-- What is left when a peer has been removed. -/
structure Removed (w w' : Pool) (p : Path ℕ) (l r : BinaryTree ℕ) : Prop where
  addr : w'.addr = w.addr
  tree : ∃ t, At w' [] t ∧ Balanced t ∧
    inorder t = before p ++ (inorder l ++ inorder r) ++ after p

/-- **The removal of a peer**, when `lookup` has found it. -/
theorem At.remove (h : At w p (node x l r)) (hstack : Holds stack p n)
    (hbal : Balanced (fill p (node x l r))) (hheight : (fill p (node x l r)).height < 65536) :
    ∃ w' depth, w.remove x stack n = .ok (w', depth) ∧
      depth ≤ (fill p (node x l r)).height ∧ Removed w w' p l r := by
  have hdepth := length_add_height_le p (node x l r)
  have hlen := hstack.length
  have hleft : (w.mem x).avlLeft = ptr l := h.rep.2.1
  have hright : (w.mem x).avlRight = ptr r := h.rep.2.2.1
  obtain ⟨hbal', hfits⟩ := (balanced_fill p _).1 hbal
  rw [Pool.remove, hleft, hright, hstack.top]
  cases l with
  | nil =>
    refine ⟨_, n, if_pos rfl, ?_, ?_, rebalance p r, h.remove_of_nil hstack hbal, ?_, ?_⟩
    · change p.length + (max 0 r.height + 1) ≤ _ at hdepth
      omega
    · rw [Pool.peerAvlRebalance_addr, Pool.store_addr]
    · obtain ⟨-, -, -, hr⟩ := hbal'
      have hnode : (node x nil r).height = max 0 r.height + 1 := rfl
      exact balanced_rebalance hfits hr (by omega) (by omega)
    · rw [inorder_rebalance, inorder_fill]
      rfl
  | node y a b =>
    have hroom : b.height < 65536 := by
      have hnode : (node x (node y a b) r).height =
        max (max a.height b.height + 1) r.height + 1 := rfl
      omega
    obtain ⟨stack', n', heq, hstack', hat⟩ := h.lookupRightempty hstack hroom
    have hdeep := length_add_height_le ((last y a b).1 ++ ⟨.left, x, r⟩ :: p)
      (node (last y a b).2.1 (last y a b).2.2 nil)
    have hlen' := hstack'.length
    have hsame : fill ((last y a b).1 ++ ⟨.left, x, r⟩ :: p)
        (node (last y a b).2.1 (last y a b).2.2 nil) = fill p (node x (node y a b) r) := by
      rw [fill_append, fill_last]
      rfl
    have hdel : stack' (n - 1) = slotOf p := by
      rw [hlen]
      exact (Holds.of_append (q := (last y a b).1 ++ [⟨.left, x, r⟩])
        (by rw [append_assoc]; exact hstack')).top
    have hentry : stack' (n - 1 + 1) = .child x .left := by
      rw [hlen]
      exact hstack'.of_append.top
    have hv : (w.mem (last y a b).2.1).avlLeft = ptr (last y a b).2.2 := hat.rep.2.1
    have hplace := hat.takePlace
    rw [if_neg (show ptr (node y a b) ≠ peerAvlEmpty from h.rep.2.2.2.2.1.1), heq]
    dsimp only
    rw [hstack'.top, load_slotOf hat.root hat.path, if_neg (fun hc ↦ hc rfl), hdel, hentry,
      if_neg (fun hc ↦ hc rfl), hv, hlen]
    obtain ⟨hfits', htl⟩ := fits_predecessor hbal
    refine ⟨_, n', rfl, ?_, ?_, rebalance (predecessor y a b r p) (last y a b).2.2, ?_,
      balanced_rebalance hfits' htl (by omega) le_rfl, ?_⟩
    · rw [hsame] at hdeep
      change _ + (max _ 0 + 1) ≤ _ at hdeep
      omega
    · rw [Pool.peerAvlRebalance_addr, Pool.setNode_addr, Pool.store_addr, Pool.store_addr]
    · exact hplace.peerAvlRebalance (hstack'.patch ⟨.left, (last y a b).2.1, r⟩) hfits' htl
        (by omega) le_rfl
    · rw [inorder_rebalance, inorder_predecessor]

end Linux24.Peer
