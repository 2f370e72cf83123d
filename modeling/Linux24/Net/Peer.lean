import Linux24.Lib.Avl

/-!
# The tree of peers: `net/ipv4/inetpeer.c`

The peers are the nodes of a tree ordered by `v4daddr`, with the height of every subtree in the node
at its root.  There are no parent pointers: `lookup` writes the addresses of the pointers it has
followed on a stack, and whoever has changed the tree hands that stack to `peer_avl_rebalance`,
which goes back along it.  Such an address is a `Slot`: that of the root pointer, or of a field of a
node.

An address is a number, and 0 is that of `peer_fake_node`, which is at the end of every path.  The
two halves of `peer_avl_rebalance` differ in nothing but left and right, and are one definition,
`liftNode`, in which `d` is the side that is too high.  The loops run on fuel, and not to have ended
then is a fault as much as `BUG()` is.  A stack is a list of entries by their number; how many a
call has pushed on it is part of what the call returns.

What is left out is the list of peers that are not used: `unlink_from_pool` may be called for any
peer, and is told by the reference count whether to remove it.
-/

set_option autoImplicit false

namespace Linux24.Peer

open Function

open RedBlack (Side)

def peerMaxdepth : ℕ := 40

/-- `struct inet_peer`. -/
structure InetPeer where
  avlLeft : ℕ
  avlRight : ℕ
  refcnt : ℤ
  v4daddr : BitVec 32
  avlHeight : ℕ
deriving DecidableEq, Repr

/-- `avl_left` or `avl_right`. -/
def InetPeer.child (n : InetPeer) : Side → ℕ
  | .left => n.avlLeft
  | .right => n.avlRight

def peerAvlEmpty : ℕ := 0

/-- The address of a pointer to a node. -/
inductive Slot
  /-- `&peer_root`. -/
  | root
  /-- `&n->avl_left` or `&n->avl_right`. -/
  | child (n : ℕ) (d : Side)
deriving DecidableEq, Repr

/-- What does not happen. -/
inductive Fault
  /-- `BUG()`. -/
  | bug
  /-- A loop that does not end. -/
  | endless
deriving DecidableEq, Repr

/-- A stack of slots, entry by entry from the bottom. -/
abbrev Stack := ℕ → Slot

/-- The nodes in memory, `peer_root` and `peer_total`. -/
structure Pool where
  mem : ℕ → InetPeer
  root : ℕ
  total : ℤ

namespace Pool

variable (w : Pool)

/-- `*slot`. -/
def load : Slot → ℕ
  | .root => w.root
  | .child n d => (w.mem n).child d

/-- `*slot = v`. -/
def store (slot : Slot) (v : ℕ) : Pool :=
  match slot with
  | .root => { w with root := v }
  | .child n .left => { w with mem := update w.mem n { w.mem n with avlLeft := v } }
  | .child n .right => { w with mem := update w.mem n { w.mem n with avlRight := v } }

/-- The assignments to the two children, the one on side `d` first, and to `avl_height`. -/
def setNode (n : ℕ) (d : Side) (near far height : ℕ) : Pool :=
  { w with
    mem := update w.mem n
      (match d with
      | .left => { w.mem n with avlLeft := near, avlRight := far, avlHeight := height }
      | .right => { w.mem n with avlRight := near, avlLeft := far, avlHeight := height }) }

/-- `atomic_inc` or `atomic_dec` of `refcnt`. -/
def addRef (n : ℕ) (k : ℤ) : Pool :=
  { w with mem := update w.mem n { w.mem n with refcnt := (w.mem n).refcnt + k } }

/-! ## Searching -/

/-- The loop of `lookup`. -/
def lookupLoop (daddr : BitVec 32) : (fuel u : ℕ) → Stack → (stackptr : ℕ) → Option (ℕ × Stack × ℕ)
  | 0, _, _, _ => none
  | fuel + 1, u, stack, stackptr =>
    if u = peerAvlEmpty then some (u, stack, stackptr)
    else if daddr = (w.mem u).v4daddr then some (u, stack, stackptr)
    else
      let v := if daddr < (w.mem u).v4daddr then Slot.child u .left else Slot.child u .right
      lookupLoop daddr fuel (w.load v) (update stack stackptr v) (stackptr + 1)

/-- `lookup`: the node, or `peer_avl_empty`, and the stack. -/
def lookup (daddr : BitVec 32) : Option (ℕ × Stack × ℕ) :=
  w.lookupLoop daddr 65536 w.root (fun _ ↦ .root) 1

/-- The loop of `lookup_rightempty`. -/
def rightemptyLoop : (fuel u : ℕ) → Stack → (stackptr : ℕ) → Option (ℕ × Stack × ℕ)
  | 0, _, _, _ => none
  | fuel + 1, u, stack, stackptr =>
    if (w.mem u).avlRight = peerAvlEmpty then some (u, stack, stackptr)
    else
      rightemptyLoop fuel (w.mem u).avlRight (update stack stackptr (.child u .right))
        (stackptr + 1)

def lookupRightempty (start : ℕ) (stack : Stack) (stackptr : ℕ) : Option (ℕ × Stack × ℕ) :=
  w.rightemptyLoop 65536 (w.mem start).avlLeft (update stack stackptr (.child start .left))
    (stackptr + 1)

/-! ## Rebalancing -/

/-- The rotations in `peer_avl_rebalance` at `*nodep == node`, whose child on side `d` is `heavy`
and whose other child, of height `h`, is `light`. -/
def liftNode (d : Side) (nodep : Slot) (node heavy light h : ℕ) : Pool :=
  let near := (w.mem heavy).child d
  let far := (w.mem heavy).child d.flip
  let fh := (w.mem far).avlHeight
  if fh ≤ (w.mem near).avlHeight then
    let w := w.setNode node d far light (fh + 1)
    let w := w.setNode heavy d near node ((w.mem node).avlHeight + 1)
    w.store nodep heavy
  else
    let a := (w.mem far).child d
    let b := (w.mem far).child d.flip
    let w := w.setNode node d b light (h + 1)
    let w := w.setNode heavy d near a (h + 1)
    let w := w.setNode far d heavy node (h + 2)
    w.store nodep far

/-- What `peer_avl_rebalance` does at one slot. -/
def rebalanceSlot (nodep : Slot) : Pool :=
  let node := w.load nodep
  let l := (w.mem node).avlLeft
  let r := (w.mem node).avlRight
  let lh := (w.mem l).avlHeight
  let rh := (w.mem r).avlHeight
  if rh + 1 < lh then w.liftNode .left nodep node l r rh
  else if lh + 1 < rh then w.liftNode .right nodep node r l lh
  else
    { w with
      mem := update w.mem node
        { w.mem node with avlHeight := (if rh < lh then lh else rh) + 1 } }

def peerAvlRebalance (stack : Stack) : (stackend : ℕ) → Pool → Pool
  | 0, w => w
  | stackend + 1, w => peerAvlRebalance stack stackend (w.rebalanceSlot (stack stackend))

/-! ## The pool -/

def linkToPool (n : ℕ) (stack : Stack) (stackptr : ℕ) : Pool :=
  let w := w.setNode n .left peerAvlEmpty peerAvlEmpty 1
  let w := w.store (stack (stackptr - 1)) n
  peerAvlRebalance stack (stackptr - 1) w

/-- The removal in `unlink_from_pool`, when `lookup` has found `p`; with it the number of entries on
the stack. -/
def remove (p : ℕ) (stack : Stack) (stackptr : ℕ) : Except Fault (Pool × ℕ) :=
  let delp := stackptr - 1
  if (w.mem p).avlLeft = peerAvlEmpty then
    let w := w.store (stack delp) (w.mem p).avlRight
    .ok (peerAvlRebalance stack (stackptr - 1) w, stackptr)
  else
    match w.lookupRightempty p stack stackptr with
    | none => .error .endless
    | some (t, stack, stackptr) =>
      if w.load (stack (stackptr - 1)) ≠ t then .error .bug
      else
        let w := w.store (stack (stackptr - 1)) (w.mem t).avlLeft
        let w := w.store (stack delp) t
        let w := w.setNode t .left (w.mem p).avlLeft (w.mem p).avlRight (w.mem p).avlHeight
        if stack (delp + 1) ≠ .child p .left then .error .bug
        else
          let stack := update stack (delp + 1) (.child t .left)
          .ok (peerAvlRebalance stack (stackptr - 1) w, stackptr)

/-- `unlink_from_pool`: whether the peer is removed, and the number of entries on the stack. -/
def unlinkFromPool (p : ℕ) : Except Fault (Pool × Bool × ℕ) :=
  if (w.mem p).refcnt = 1 then
    match w.lookup (w.mem p).v4daddr with
    | none => .error .endless
    | some (u, stack, stackptr) =>
      if u ≠ p then .error .bug
      else
        match w.remove p stack stackptr with
        | .error fault => .error fault
        | .ok (w, depth) => .ok ({ w with total := w.total - 1 }, true, depth)
  -- `inet_putpeer`
  else .ok (w.addRef p (-1), false, 0)

/-- `inet_getpeer` up to the end of the first section: the peer, if it is there, with one more
reference. -/
def inetGetpeerFind (daddr : BitVec 32) : Except Fault (Pool × ℕ × ℕ) :=
  match w.lookup daddr with
  | none => .error .endless
  | some (p, _, stackptr) =>
    if p ≠ peerAvlEmpty then .ok (w.addRef p 1, p, stackptr) else .ok (w, p, stackptr)

/-- The initialisation of a new node in `inet_getpeer`. -/
def newPeer (daddr : BitVec 32) (n : ℕ) : Pool :=
  { w with mem := update w.mem n { w.mem n with v4daddr := daddr, refcnt := 1 } }

/-- `inet_getpeer` with the new node `n`, from its initialisation on: the peer, which is the new
node or another one that has appeared in the meantime, and the number of entries on the stack. -/
def inetGetpeerCreate (daddr : BitVec 32) (n : ℕ) : Except Fault (Pool × ℕ × ℕ) :=
  let w := w.newPeer daddr n
  match w.lookup daddr with
  | none => .error .endless
  | some (p, stack, stackptr) =>
    -- the label `out_free`
    if p ≠ peerAvlEmpty then .ok (w.addRef p 1, p, stackptr)
    else
      let w := w.linkToPool n stack stackptr
      .ok ({ w with total := w.total + 1 }, n, stackptr)

end Pool
end Linux24.Peer
