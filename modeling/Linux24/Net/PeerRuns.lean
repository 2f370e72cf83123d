import Linux24.Net.PeerPool
import Linux24.Lib.Machine

/-!
# The pool of peers, over time

Peers are looked up, created, referenced, released and removed, in any order; each step is one
section of the code with the lock of the pool held.  A world remembers which peers there should be:
a new one is there if there is none with its address yet, and one is gone when `unlink_from_pool`
finds that nobody else refers to it.

`World.Ok` is that these are the peers in the tree, which is in order and balanced.  How deep it can
be follows from that: 32 bits are not enough addresses for a tree of height 46, and fewer than `2 ^
27` peers are not enough for one of height 39, so that the stacks of `PEER_MAXDEPTH` entries are
large enough (`peer_tree`).
-/

set_option autoImplicit false

namespace Linux24.Peer

open BinaryTree (nil node)
open Avl

/-! ## Worlds -/

/-- The pool, the peers that should be in it, and how many entries the last call has pushed on its
stack. -/
structure World where
  pool : Pool
  live : Finset ℕ
  depth : ℕ

/-- What happens next. -/
inductive Action
  /-- `inet_getpeer` looks for the peer. -/
  | find (daddr : BitVec 32)
  /-- `inet_getpeer` creates one, at the address `n` in memory. -/
  | create (daddr : BitVec 32) (n : ℕ)
  /-- `cleanup_once` takes a reference to a peer that is not used. -/
  | grab (p : ℕ)
  /-- `inet_putpeer`. -/
  | put (p : ℕ)
  /-- `unlink_from_pool`. -/
  | unlink (p : ℕ)

namespace World

variable (w : World)

/-- There is a peer with the address. -/
def Known (daddr : BitVec 32) : Prop := ∃ y ∈ w.live, (w.pool.mem y).v4daddr = daddr

instance (daddr : BitVec 32) : Decidable (w.Known daddr) :=
  inferInstanceAs (Decidable (∃ y ∈ w.live, _))

/-- One section of the code. -/
def exec : Action → Except Fault World
  | .find daddr => (w.pool.inetGetpeerFind daddr).map fun r ↦ { w with pool := r.1, depth := r.2.2 }
  | .create daddr n => (w.pool.inetGetpeerCreate daddr n).map fun r ↦
      ⟨r.1, if w.Known daddr then w.live else insert n w.live, r.2.2⟩
  | .grab p => .ok ⟨w.pool.addRef p 1, w.live, 0⟩
  | .put p => .ok ⟨w.pool.addRef p (-1), w.live, 0⟩
  | .unlink p => (w.pool.unlinkFromPool p).map fun r ↦
      ⟨r.1, if (w.pool.mem p).refcnt = 1 then w.live.erase p else w.live, r.2.2⟩

/-- New memory is not in use, and what is released or removed is there. -/
def Legal : Action → Prop
  | .find _ => True
  | .create _ n => n ≠ peerAvlEmpty ∧ n ∉ w.live
  | .grab p => p ∈ w.live
  | .put p => p ∈ w.live
  | .unlink p => p ∈ w.live

/-- No peers yet. -/
def Fresh : Prop := w.pool.root = peerAvlEmpty ∧ Fake w.pool.mem ∧ w.live = ∅ ∧ w.depth = 0

end World

/-- Runs. -/
def machine : Machine World Action Fault where
  init := World.Fresh
  legal := World.Legal
  exec := World.exec

/-! ## Ordered trees -/

/-- The tree is ordered by the addresses. -/
def Ordered (addr : ℕ → ℕ) (t : BinaryTree ℕ) : Prop :=
  (inorder t).Pairwise fun x y ↦ addr x < addr y

variable {addr addr' : ℕ → ℕ} {t : BinaryTree ℕ} {w w' : World}

theorem Ordered.congr (h : Ordered addr t) (heq : ∀ y ∈ inorder t, addr' y = addr y) :
    Ordered addr' t := by
  refine List.Pairwise.imp_of_mem (fun hx hy hlt ↦ ?_) h
  rw [heq _ hx, heq _ hy]
  exact hlt

theorem Ordered.nodup_map (h : Ordered addr t) : ((inorder t).map addr).Nodup :=
  (List.pairwise_map.2 h).imp fun hlt ↦ hlt.ne

theorem Ordered.inj (h : Ordered addr t) {x y : ℕ} (hx : x ∈ inorder t) (hy : y ∈ inorder t)
    (heq : addr x = addr y) : x = y :=
  List.inj_on_of_nodup_map h.nodup_map hx hy heq

/-- There are not more peers than addresses. -/
theorem Ordered.numNodes_le {pool : Pool} (h : Ordered pool.addr t) : t.numNodes ≤ 2 ^ 32 := by
  have hsub : ((inorder t).map pool.addr).toFinset ⊆ Finset.range (2 ^ 32) := by
    intro k hk
    obtain ⟨y, -, rfl⟩ := List.mem_map.1 (List.mem_toFinset.1 hk)
    exact Finset.mem_range.2 (BitVec.isLt _)
  have hcard := Finset.card_le_card hsub
  rw [List.toFinset_card_of_nodup h.nodup_map, List.length_map, length_inorder,
    Finset.card_range] at hcard
  exact hcard

namespace World

/-- The tree in memory is the right one. -/
structure Holding (w : World) (t : BinaryTree ℕ) : Prop where
  tree : At w.pool [] t
  ordered : Ordered w.pool.addr t
  balanced : Balanced t
  live : ∀ y, y ∈ inorder t ↔ y ∈ w.live

section Holding

variable (h : w.Holding t)
include h

theorem Holding.height_lt : t.height < 46 := by
  refine height_lt_of_numNodes h.balanced ?_
  have := h.ordered.numNodes_le
  have hfib : Nat.fib (46 + 2) = 4807526976 := by norm_num
  omega

theorem Holding.numNodes : t.numNodes = w.live.card := by
  have hlive : (inorder t).toFinset = w.live := by
    ext y
    rw [List.mem_toFinset]
    exact h.live y
  have hnodup : (inorder t).Nodup := h.tree.nodup
  rw [← hlive, List.toFinset_card_of_nodup hnodup, length_inorder]

/-- **The stacks are large enough.** -/
theorem Holding.height_le (hcard : w.live.card < 2 ^ 27) :
    t.height + 1 ≤ peerMaxdepth := by
  have hlt : t.height < 39 := by
    refine height_lt_of_numNodes h.balanced ?_
    have hfib : Nat.fib (39 + 2) = 165580141 := by norm_num
    rw [h.numNodes]
    omega
  rw [peerMaxdepth]
  omega

/-! ## The steps -/

theorem Holding.addRef (p : ℕ) (k : ℤ) (depth : ℕ) :
    Holding ⟨w.pool.addRef p k, w.live, depth⟩ t := by
  have hlinks : ∀ y, SameLinks (w.pool.mem y) ((w.pool.addRef p k).mem y) ∧
      (w.pool.addRef p k).addr y = w.pool.addr y := by
    intro y
    by_cases hy : y = p
    · subst hy
      simp [SameLinks, Pool.addRef, Pool.addr]
    · simp [SameLinks, Pool.addRef, Pool.addr, Function.update_of_ne hy]
  obtain ⟨⟨hroot, -, hrep, hnodup, hfake⟩, hordered, hbal, hlive⟩ := h
  refine ⟨⟨hroot, trivial, hrep.sameLinks fun y _ ↦ (hlinks y).1, hnodup, ?_⟩,
    hordered.congr fun y _ ↦ (hlinks y).2, hbal, hlive⟩
  obtain ⟨hl, hr, hh⟩ := (hlinks peerAvlEmpty).1
  exact ⟨hl.trans hfake.1, hr.trans hfake.2.1, hh.trans hfake.2.2⟩

/-- What `lookup` finds: the peer with the address, if there is one, and the place where it
belongs. -/
theorem Holding.lookup (daddr : BitVec 32) : ∃ u stack n p focus,
    w.pool.lookup daddr = some (u, stack, n) ∧ u = ptr focus ∧ Holds stack p n ∧
      At w.pool p focus ∧ fill p focus = t ∧ n ≤ t.height + 1 ∧
      Between w.pool.addr daddr.toNat p ∧
      (focus = nil → ¬w.Known daddr) ∧
      (∀ x l r, focus = node x l r → (w.pool.mem x).v4daddr = daddr ∧ x ∈ w.live) := by
  obtain ⟨stack, n, heq, hstack, hat⟩ := h.tree.lookup (h.height_lt.trans (by decide)) daddr
  have hfill := fill_find w.pool.addr daddr.toNat t []
  refine ⟨_, stack, n, _, _, heq, rfl, hstack, hat, hfill, ?_, ?_, fun hnil ↦ ?_, fun x l r hx ↦ ?_⟩
  · have hlen := hstack.length
    have hdeep := length_add_height_le (find w.pool.addr daddr.toNat t []).1
      (find w.pool.addr daddr.toNat t []).2
    rw [hfill] at hdeep
    change _ ≤ t.height at hdeep
    omega
  · exact between_find _ _ h.ordered ⟨nofun, nofun⟩
  · rintro ⟨y, hy, haddr⟩
    refine key_ne_of_find_nil w.pool.addr daddr.toNat h.ordered hnil y ((h.live y).2 hy) ?_
    rw [Pool.addr, haddr]
  · refine ⟨BitVec.toNat_inj.1 (key_of_find w.pool.addr daddr.toNat hx), (h.live x).1 ?_⟩
    change fill _ _ = t at hfill
    rw [← hfill, hx, inorder_fill]
    simp [inorder]

theorem Holding.find (daddr : BitVec 32) : ∃ w', w.exec (.find daddr) = .ok w' ∧
    w'.Holding t ∧ w'.depth ≤ t.height + 1 := by
  obtain ⟨u, stack, n, p, focus, heq, -, -, -, -, hdepth, -⟩ := h.lookup daddr
  rw [exec, Pool.inetGetpeerFind, heq]
  dsimp only
  split
  · exact ⟨_, rfl, h.addRef u 1 n, hdepth⟩
  · exact ⟨_, rfl, ⟨h.tree, h.ordered, h.balanced, h.live⟩, hdepth⟩

variable {n : ℕ}

/-- A new node that is not in the tree yet. -/
theorem Holding.newPeer (daddr : BitVec 32) (hn : n ≠ peerAvlEmpty)
    (hnew : n ∉ w.live) : Holding ⟨w.pool.newPeer daddr n, w.live, w.depth⟩ t ∧
      (World.Known ⟨w.pool.newPeer daddr n, w.live, w.depth⟩ daddr ↔ w.Known daddr) := by
  have hmem : ∀ y ∈ w.live, (w.pool.newPeer daddr n).mem y = w.pool.mem y := fun y hy ↦
    Function.update_of_ne (ne_of_mem_of_not_mem hy hnew) _ _
  obtain ⟨⟨hroot, -, hrep, hnodup, hfake⟩, hordered, hbal, hlive⟩ := h
  refine ⟨⟨⟨hroot, trivial, hrep.congr fun y hy ↦ hmem y ((hlive y).1 hy), hnodup,
    hfake.congr (Function.update_of_ne (Ne.symm hn) _ _)⟩, hordered.congr fun y hy ↦ ?_, hbal,
    hlive⟩, ?_⟩
  · rw [Pool.addr, hmem y ((hlive y).1 hy)]
    rfl
  · refine exists_congr fun y ↦ and_congr_right fun hy ↦ ?_
    rw [hmem y hy]

omit h in
/-- The new node is linked where its address belongs. -/
theorem Holding.link {p : Path ℕ} {stack : Stack} {k : ℕ} (h : w.Holding (fill p nil))
    (hat : At w.pool p nil) (hstack : Holds stack p k)
    (hbetween : Between w.pool.addr (w.pool.addr n) p) (hn : n ≠ peerAvlEmpty) (hnew : n ∉ w.live)
    (total : ℤ) (depth : ℕ) :
    Holding ⟨{ w.pool.linkToPool n stack k with total := total }, insert n w.live, depth⟩
      (rebalance p (node n nil nil)) := by
  have helems : ∀ y, y ∈ elems p ↔ y ∈ w.live := fun y ↦ by
    rw [← h.live, (perm_fill p nil).mem_iff, inorder, List.append_nil]
  have hlink := hat.linkToPool hstack h.balanced hn fun hc ↦ hnew ((helems n).1 hc)
  have haddr : (w.pool.linkToPool n stack k).addr = w.pool.addr := by
    rw [Pool.linkToPool, Pool.peerAvlRebalance_addr, Pool.store_addr, Pool.setNode_addr]
  have horder : inorder (rebalance p (node n nil nil)) = before p ++ n :: after p := by
    rw [inorder_rebalance, inorder_fill, inorder, inorder, List.nil_append, List.append_assoc,
      List.singleton_append]
  have hsorted := h.ordered
  rw [Ordered, inorder_fill, inorder, List.append_nil, List.pairwise_append] at hsorted
  obtain ⟨hbefore, hafter, hacross⟩ := hsorted
  refine ⟨⟨hlink.root, trivial, hlink.rep, hlink.nodup, hlink.fake⟩, ?_, ?_, fun y ↦ ?_⟩
  · change Ordered (w.pool.linkToPool n stack k).addr _
    rw [haddr, Ordered, horder, List.pairwise_append, List.pairwise_cons]
    refine ⟨hbefore, ⟨hbetween.2, hafter⟩, fun y hy z hz ↦ ?_⟩
    rcases List.mem_cons.1 hz with rfl | hz
    · exact hbetween.1 y hy
    · exact hacross y hy z hz
  · exact balanced_rebalance ((balanced_fill p nil).1 h.balanced).2
      ⟨zero_le, zero_le, trivial, trivial⟩ le_rfl zero_le
  · rw [horder, List.perm_middle.mem_iff, List.mem_cons, Finset.mem_insert, ← h.live, inorder_fill,
      inorder, List.append_nil]

/-- `inet_getpeer` creates a peer, unless it is there in the meantime. -/
theorem Holding.create (daddr : BitVec 32) (hn : n ≠ peerAvlEmpty) (hnew : n ∉ w.live) :
    ∃ w' t', w.exec (.create daddr n) = .ok w' ∧ w'.Holding t' ∧ w'.depth ≤ t.height + 1 := by
  obtain ⟨hold, hknown⟩ := h.newPeer daddr hn hnew
  obtain ⟨u, stack, k, p, focus, heq, rfl, hstack, hat, rfl, hdepth, hbetween, hnil, hnode⟩ :=
    hold.lookup daddr
  rw [exec, Pool.inetGetpeerCreate, heq]
  dsimp only
  cases focus with
  | node x l r =>
    obtain ⟨haddr, hx⟩ := hnode x l r rfl
    rw [if_pos (show ptr (node x l r) ≠ peerAvlEmpty from hat.rep.1)]
    refine ⟨_, fill p (node x l r), rfl, ?_, hdepth⟩
    rw [if_pos (hknown.1 ⟨x, hx, haddr⟩)]
    exact hold.addRef x 1 k
  | nil =>
    have haddr : (w.pool.newPeer daddr n).addr n = daddr.toNat := by
      simp [Pool.addr, Pool.newPeer]
    rw [← haddr] at hbetween
    rw [if_neg fun hc ↦ hnil rfl (hknown.2 hc)]
    refine ⟨_, rebalance p (node n nil nil), rfl, ?_, hdepth⟩
    exact hold.link hat hstack hbetween hn hnew _ _

theorem Holding.unlink {p : ℕ} (hp : p ∈ w.live) :
    ∃ w' t', w.exec (.unlink p) = .ok w' ∧ w'.Holding t' ∧ w'.depth ≤ t.height + 1 := by
  rw [exec, Pool.unlinkFromPool]
  by_cases href : (w.pool.mem p).refcnt = 1
  · obtain ⟨u, stack, n, q, focus, heq, rfl, hstack, hat, rfl, -, -, hnil, hnode⟩ :=
      h.lookup (w.pool.mem p).v4daddr
    cases focus with
    | nil => exact absurd ⟨p, hp, rfl⟩ (hnil rfl)
    | node x l r =>
      obtain ⟨haddr, hx⟩ := hnode x l r rfl
      obtain rfl : x = p := h.ordered.inj ((h.live x).2 hx) ((h.live p).2 hp)
        (congrArg BitVec.toNat haddr)
      obtain ⟨pool, depth, hremove, hdepth, haddr', t', hat', hbal, horder⟩ :=
        hat.remove hstack h.balanced (h.height_lt.trans (by decide))
      have hsub : (inorder t').Sublist (inorder (fill q (node x l r))) := by
        rw [horder, inorder_fill]
        refine List.Sublist.append_right (List.Sublist.append_left ?_ _) _
        exact (List.sublist_cons_self x (inorder r)).append_left _
      have hperm : (inorder (fill q (node x l r))).Perm (x :: inorder t') := by
        rw [horder, inorder_fill]
        exact ((List.perm_middle.append_left _).trans List.perm_middle).append_right _
      have hgone : x ∉ inorder t' :=
        (List.nodup_cons.1 (hperm.nodup_iff.1 h.tree.nodup)).1
      rw [if_pos href, heq, if_pos href]
      dsimp only
      rw [if_neg (fun hc ↦ hc rfl), hremove]
      refine ⟨_, t', rfl, ⟨⟨hat'.root, hat'.path, hat'.rep, hat'.nodup, hat'.fake⟩, ?_, hbal,
        fun y ↦ ?_⟩, hdepth.trans (Nat.le_succ _)⟩
      · change Ordered pool.addr t'
        rw [haddr']
        exact h.ordered.sublist hsub
      · rw [Finset.mem_erase, ← h.live, hperm.mem_iff, List.mem_cons]
        exact ⟨fun hy ↦ ⟨ne_of_mem_of_not_mem hy hgone, Or.inr hy⟩, fun hy ↦ hy.2.resolve_left hy.1⟩
  · rw [if_neg href, if_neg href]
    exact ⟨_, t, rfl, h.addRef p (-1) 0, zero_le⟩

/-- **One step.** -/
theorem Holding.exec {action : Action} (hlegal : w.Legal action) :
    ∃ w' t', w.exec action = .ok w' ∧ w'.Holding t' ∧
      w'.depth ≤ t.height + 1 := by
  cases action with
  | find daddr =>
    obtain ⟨w', heq, hold, hdepth⟩ := h.find daddr
    exact ⟨w', t, heq, hold, hdepth⟩
  | create daddr n => exact h.create daddr hlegal.1 hlegal.2
  | grab p => exact ⟨_, t, rfl, h.addRef p 1 0, zero_le⟩
  | put p => exact ⟨_, t, rfl, h.addRef p (-1) 0, zero_le⟩
  | unlink p => exact h.unlink hlegal

end Holding

theorem Fresh.holding (h : w.Fresh) : w.Holding nil := by
  obtain ⟨hroot, hfake, hlive, -⟩ := h
  refine ⟨⟨hroot, trivial, trivial, List.nodup_nil, hfake⟩, List.Pairwise.nil, trivial, fun y ↦ ?_⟩
  rw [hlive]
  exact ⟨nofun, fun hy ↦ absurd hy (Finset.notMem_empty y)⟩

theorem holding_of_reachable (h : machine.Reachable w) : ∃ t, w.Holding t := by
  refine h.invariant (P := fun w ↦ ∃ t, w.Holding t) (fun w (hw : w.Fresh) ↦ ⟨_, hw.holding⟩)
    fun w action w' ⟨t, hold⟩ hlegal hexec ↦ ?_
  obtain ⟨w₁, t₁, heq, hold₁, -⟩ := hold.exec hlegal
  change w.exec action = .ok w' at hexec
  rw [heq] at hexec
  cases hexec
  exact ⟨t₁, hold₁⟩

/-- **The tree of peers.**  At all times the memory holds a tree, ordered by `v4daddr`, of the peers
that should be there, with their true heights, which fit into their fields and differ by at most one
between siblings.  Every step comes to its end without a `BUG()`, and with fewer than `2 ^ 27` peers
it pushes at most `PEER_MAXDEPTH` entries on its stack. -/
theorem peer_tree (h : machine.Reachable w) : ∃ t, At w.pool [] t ∧ Ordered w.pool.addr t ∧
    (∀ y, y ∈ inorder t ↔ y ∈ w.live) ∧ Balanced t ∧ t.height < 2 ^ 16 ∧
    ∀ action, w.Legal action → ∃ w', w.exec action = .ok w' ∧
      (w.live.card < 2 ^ 27 → w'.depth ≤ peerMaxdepth) := by
  obtain ⟨t, hold⟩ := holding_of_reachable h
  refine ⟨t, hold.tree, hold.ordered, hold.live, hold.balanced, hold.height_lt.trans (by decide),
    fun action hlegal ↦ ?_⟩
  obtain ⟨w', -, heq, -, hdepth⟩ := hold.exec hlegal
  exact ⟨w', heq, fun hcard ↦ hdepth.trans (hold.height_le hcard)⟩

/-- An empty pool. -/
def fresh : World := ⟨⟨fun _ ↦ ⟨0, 0, 0, 0, 0⟩, 0, 0⟩, ∅, 0⟩

/-- Three peers, of which the second one has become the root. -/
theorem peer_tree_rotated : ∃ w, machine.Reachable w ∧ w.pool.root = 20 ∧ w.pool.total = 3 ∧
    w.live = {30, 20, 10} ∧ ∃ t, At w.pool [] t ∧ Ordered w.pool.addr t ∧
      (∀ y, y ∈ inorder t ↔ y ∈ w.live) ∧ Balanced t := by
  have hinit : machine.Reachable fresh := .init ⟨rfl, ⟨rfl, rfl, rfl⟩, rfl, rfl⟩
  have h₁ := hinit.step (a := .create 1 10) (by exact ⟨by decide, by decide⟩) rfl
  have h₂ := h₁.step (a := .create 2 20) (by exact ⟨by decide, by decide⟩) rfl
  have h₃ := h₂.step (a := .create 3 30) (by exact ⟨by decide, by decide⟩) rfl
  obtain ⟨t, hat, hordered, hlive, hbal, -⟩ := peer_tree h₃
  exact ⟨_, h₃, rfl, rfl, rfl, t, hat, hordered, hlive, hbal⟩

end World
end Linux24.Peer
