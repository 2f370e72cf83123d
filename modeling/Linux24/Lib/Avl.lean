import Linux24.Lib.RedBlack

/-!
# Height-balanced trees, from the inside

Insertion and removal as an imperative implementation does them: the tree is changed at one
position, and a loop goes from there up to the root and rotates where the heights of two siblings
differ by more than one.  A position is a `Path`, the nodes between it and the root, innermost
first, as for `RedBlack`; but it does not need to know the heights, which are those of the trees.

* `balance d a x b` is what the loop makes of the node `x` with `a` on its side `d`, and `rebalance
  p t` of the tree that has `t` at `p`.  It is balanced again if the height at `p` has changed by
  one at most (`balanced_rebalance`), and the order of the elements is as before
  (`inorder_rebalance`).
* `last x l r` is where the last element of a tree is.  It takes the place of the root when that is
  removed.
* `find key k t p` is the position of the key `k` in `t`.
* `fib_le_numNodes` is why such trees are not deep.
-/

set_option autoImplicit false

universe u v

namespace Avl

open RedBlack (Side)
open BinaryTree (nil node)

variable {α : Type u}

/-- The node with `a` on side `d` and `b` on the other side. -/
def branch (d : Side) (a : BinaryTree α) (x : α) (b : BinaryTree α) : BinaryTree α :=
  match d with
  | .left => node x a b
  | .right => node x b a

/-- The elements in order. -/
def inorder : BinaryTree α → List α
  | nil => []
  | node x l r => inorder l ++ x :: inorder r

/-- The heights of siblings differ by at most one. -/
def Balanced : BinaryTree α → Prop
  | nil => True
  | node _ l r => l.height ≤ r.height + 1 ∧ r.height ≤ l.height + 1 ∧ Balanced l ∧ Balanced r

/-- A nonempty tree, the subtree on side `d` first. -/
def split (d : Side) : BinaryTree α → Option (BinaryTree α × α × BinaryTree α)
  | nil => none
  | node x l r =>
    match d with
    | .left => some (l, x, r)
    | .right => some (r, x, l)

theorem split_branch (d : Side) (a : BinaryTree α) (x : α) (b : BinaryTree α) :
    split d (branch d a x b) = some (a, x, b) := by cases d <;> rfl

theorem branch_flip (d : Side) (a b : BinaryTree α) (x : α) :
    branch d.flip a x b = branch d b x a := by
  cases d <;> rfl

theorem height_branch (d : Side) (a b : BinaryTree α) (x : α) :
    (branch d a x b).height = max a.height b.height + 1 := by
  cases d with
  | left => rfl
  | right => exact congrArg (· + 1) (max_comm _ _)

theorem balanced_branch (d : Side) (a b : BinaryTree α) (x : α) : Balanced (branch d a x b) ↔
    a.height ≤ b.height + 1 ∧ b.height ≤ a.height + 1 ∧ Balanced a ∧ Balanced b := by
  cases d with
  | left => exact Iff.rfl
  | right => exact ⟨fun ⟨h, h', hb, ha⟩ ↦ ⟨h', h, ha, hb⟩, fun ⟨h, h', ha, hb⟩ ↦ ⟨h', h, hb, ha⟩⟩

variable {t : BinaryTree α}

theorem exists_branch (d : Side) (h : 0 < t.height) :
    ∃ a x b, t = branch d a x b := by
  cases t with
  | nil => exact absurd h (lt_irrefl 0)
  | node x l r =>
    cases d with
    | left => exact ⟨l, x, r, rfl⟩
    | right => exact ⟨r, x, l, rfl⟩

/-! ## Rotations -/

/-- The rotations that make the node `x` balanced, whose subtree on side `d` is too high. -/
def lift (d : Side) (heavy : BinaryTree α) (x : α) (light : BinaryTree α) : BinaryTree α :=
  match split d heavy with
  | none => branch d heavy x light
  | some (near, y, far) =>
    if far.height ≤ near.height then branch d near y (branch d far x light)
    else
      match split d far with
      | none => branch d heavy x light
      | some (a, z, b) => branch d (branch d near y a) z (branch d b x light)

/-- The node `x` with `a` on its side `d`, made balanced. -/
def balance (d : Side) (a : BinaryTree α) (x : α) (b : BinaryTree α) : BinaryTree α :=
  if b.height + 1 < a.height then lift d a x b
  else if a.height + 1 < b.height then lift d.flip b x a
  else branch d a x b

theorem balance_flip (d : Side) (a b : BinaryTree α) (x : α) :
    balance d.flip a x b = balance d b x a := by
  rw [balance, balance, Side.flip_flip, branch_flip]
  by_cases hab : a.height + 1 < b.height
  · rw [if_neg (by omega), if_pos hab, if_pos hab]
  · rw [if_neg hab, if_neg hab]

theorem inorder_lift (d : Side) (a b : BinaryTree α) (x : α) :
    inorder (lift d a x b) = inorder (branch d a x b) := by
  cases a with
  | nil => rfl
  | node y l r =>
    cases d with
    | left =>
      rw [lift, split]
      dsimp only
      split
      · simp [branch, inorder]
      · cases r <;> simp [split, branch, inorder]
    | right =>
      rw [lift, split]
      dsimp only
      split
      · simp [branch, inorder]
      · cases l <;> simp [split, branch, inorder]

theorem inorder_balance (d : Side) (a b : BinaryTree α) (x : α) :
    inorder (balance d a x b) = inorder (branch d a x b) := by
  rw [balance]
  split
  · exact inorder_lift d a b x
  split
  · rw [inorder_lift, branch_flip]
  · rfl

/-- The subtree that is too high is so by two. -/
theorem balanced_lift (d : Side) {a b : BinaryTree α} (x : α) (ha : Balanced a) (hb : Balanced b)
    (h : a.height = b.height + 2) : Balanced (lift d a x b) ∧
      a.height ≤ (lift d a x b).height ∧ (lift d a x b).height ≤ a.height + 1 := by
  obtain ⟨near, y, far, rfl⟩ := exists_branch d (show 0 < a.height by omega)
  obtain ⟨hle, hge, hnear, hfar⟩ := (balanced_branch ..).1 ha
  rw [height_branch] at h ⊢
  rw [lift, split_branch]
  dsimp only
  split
  · simp only [balanced_branch, height_branch]
    exact ⟨⟨by omega, by omega, hnear, by omega, by omega, hfar, hb⟩, by omega, by omega⟩
  · rename_i hdouble
    obtain ⟨c, z, e, rfl⟩ := exists_branch d (show 0 < far.height by omega)
    obtain ⟨hle', hge', hc, he⟩ := (balanced_branch ..).1 hfar
    rw [height_branch] at h hle hge hdouble ⊢
    rw [split_branch]
    simp only [balanced_branch, height_branch]
    exact ⟨⟨by omega, by omega, ⟨by omega, by omega, hnear, hc⟩, by omega, by omega, he, hb⟩,
      by omega, by omega⟩

/-- **One node.**  What is off by two at most becomes balanced. -/
theorem balanced_balance (d : Side) {a b : BinaryTree α} (x : α) (ha : Balanced a) (hb : Balanced b)
    (hab : a.height ≤ b.height + 2) (hba : b.height ≤ a.height + 2) :
    Balanced (balance d a x b) ∧ max a.height b.height ≤ (balance d a x b).height ∧
      (balance d a x b).height ≤ max a.height b.height + 1 := by
  rw [balance]
  split
  · obtain ⟨hbal, hle, hge⟩ := balanced_lift d x ha hb (by omega)
    exact ⟨hbal, by omega, by omega⟩
  split
  · obtain ⟨hbal, hle, hge⟩ := balanced_lift d.flip x hb ha (by omega)
    exact ⟨hbal, by omega, by omega⟩
  · rw [height_branch]
    exact ⟨(balanced_branch ..).2 ⟨by omega, by omega, ha, hb⟩, by omega, le_rfl⟩

theorem height_balance_of_le (d : Side) {a b : BinaryTree α} (x : α)
    (hab : a.height ≤ b.height + 1) (hba : b.height ≤ a.height + 1) :
    (balance d a x b).height = max a.height b.height + 1 := by
  rw [balance, if_neg (by omega), if_neg (by omega), height_branch]

/-! ## Positions -/

/-- A node between a position and the root: the position is on its side `side`, and `sib` is the
subtree on the other side. -/
structure Frame (α : Type u) where
  /-- Which subtree the position is in. -/
  side : Side
  /-- The element of the node. -/
  elem : α
  /-- The other subtree. -/
  sib : BinaryTree α

/-- A position, innermost node first. -/
abbrev Path (α : Type u) := List (Frame α)

/-- The tree with `t` at the position. -/
def fill : Path α → BinaryTree α → BinaryTree α
  | [], t => t
  | f :: p, t => fill p (branch f.side t f.elem f.sib)

/-- The tree with `t` at the position, every node on the way made balanced. -/
def rebalance : Path α → BinaryTree α → BinaryTree α
  | [], t => t
  | f :: p, t => rebalance p (balance f.side t f.elem f.sib)

/-- The elements in front of the position. -/
def before : Path α → List α
  | [] => []
  | f :: p =>
    before p ++ match f.side with
    | .left => []
    | .right => inorder f.sib ++ [f.elem]

/-- The elements behind the position. -/
def after : Path α → List α
  | [] => []
  | f :: p =>
    (match f.side with
    | .left => f.elem :: inorder f.sib
    | .right => []) ++ after p

/-- The tree is balanced if there is a balanced one of height `h` at the position. -/
def Fits : Path α → ℕ → Prop
  | [], _ => True
  | f :: p, h => Balanced f.sib ∧ h ≤ f.sib.height + 1 ∧ f.sib.height ≤ h + 1 ∧
      Fits p (max h f.sib.height + 1)

theorem fill_append (q p : Path α) (t : BinaryTree α) : fill (q ++ p) t = fill p (fill q t) := by
  induction q generalizing t with
  | nil => rfl
  | cons f q ih => exact ih _

theorem inorder_fill (p : Path α) (t : BinaryTree α) :
    inorder (fill p t) = before p ++ inorder t ++ after p := by
  induction p generalizing t with
  | nil => simp [fill, before, after]
  | cons f p ih =>
    rw [fill, ih, before, after]
    cases f.side <;> simp [branch, inorder]

theorem inorder_fill_congr (p : Path α) {t' : BinaryTree α} (h : inorder t = inorder t') :
    inorder (fill p t) = inorder (fill p t') := by
  rw [inorder_fill, inorder_fill, h]

theorem inorder_rebalance (p : Path α) (t : BinaryTree α) :
    inorder (rebalance p t) = inorder (fill p t) := by
  induction p generalizing t with
  | nil => rfl
  | cons f p ih =>
    rw [rebalance, ih]
    exact inorder_fill_congr p (inorder_balance ..)

theorem balanced_fill (p : Path α) (t : BinaryTree α) :
    Balanced (fill p t) ↔ Balanced t ∧ Fits p t.height := by
  induction p generalizing t with
  | nil => exact (and_iff_left trivial).symm
  | cons f p ih =>
    rw [fill, ih, balanced_branch, height_branch, Fits]
    tauto

/-- One step of the way up: the height of the node has changed by one at most, too. -/
theorem Fits.step {f : Frame α} {p : Path α} {h : ℕ} (hp : Fits (f :: p) h)
    (ht : Balanced t) (hle : t.height ≤ h + 1) (hge : h ≤ t.height + 1) :
    Balanced (balance f.side t f.elem f.sib) ∧ Fits p (max h f.sib.height + 1) ∧
      (balance f.side t f.elem f.sib).height ≤ max h f.sib.height + 1 + 1 ∧
      max h f.sib.height + 1 ≤ (balance f.side t f.elem f.sib).height + 1 := by
  obtain ⟨hsib, hs, hs', hrest⟩ := hp
  obtain ⟨hbal, hlow, hhigh⟩ := balanced_balance f.side f.elem ht hsib (by omega) (by omega)
  refine ⟨hbal, hrest, by omega, ?_⟩
  by_cases hone : t.height ≤ f.sib.height + 1 ∧ f.sib.height ≤ t.height + 1
  · rw [height_balance_of_le f.side f.elem hone.1 hone.2]
    omega
  · omega

/-- **The way up to the root.**  If the height at the position has changed by one at most, the tree
becomes balanced. -/
theorem balanced_rebalance {p : Path α} {h : ℕ} (hp : Fits p h) (ht : Balanced t)
    (hle : t.height ≤ h + 1) (hge : h ≤ t.height + 1) : Balanced (rebalance p t) := by
  induction p generalizing t h with
  | nil => exact ht
  | cons f p ih =>
    obtain ⟨hbal, hrest, hle', hge'⟩ := hp.step ht hle hge
    exact ih hrest hbal hle' hge'

theorem length_add_height_le (p : Path α) (t : BinaryTree α) :
    p.length + t.height ≤ (fill p t).height := by
  induction p generalizing t with
  | nil => exact (zero_add _).le
  | cons f p ih =>
    refine le_trans ?_ (ih _)
    rw [height_branch, List.length_cons]
    omega

/-! ## The last element -/

/-- Where the last element of the tree with root `x` is: the path to it, the element, and what is on
its left. -/
def last (x : α) (l : BinaryTree α) : BinaryTree α → Path α × α × BinaryTree α
  | nil => ([], x, l)
  | node y a b => ((last y a b).1 ++ [⟨.right, x, l⟩], (last y a b).2)

theorem fill_last (x : α) (l r : BinaryTree α) :
    fill (last x l r).1 (node (last x l r).2.1 (last x l r).2.2 nil) = node x l r := by
  induction r generalizing x l with
  | nil => rfl
  | node y a b _ ih =>
    rw [last, fill_append, ih]
    rfl

theorem after_append (q p : Path α) : after (q ++ p) = after q ++ after p := by
  induction q with
  | nil => rfl
  | cons f q ih => rw [List.cons_append, after, after, ih, List.append_assoc]

theorem after_last (x : α) (l r : BinaryTree α) : after (last x l r).1 = [] := by
  induction r generalizing x l with
  | nil => rfl
  | node y a b _ ih =>
    rw [last, after_append, ih]
    rfl

/-- Where the last element of a left subtree was, when it has taken the place of the root above it,
which is at `p` and has `s` on its right. -/
def predecessor (y : α) (l r s : BinaryTree α) (p : Path α) : Path α :=
  (last y l r).1 ++ ⟨.left, (last y l r).2.1, s⟩ :: p

/-- Without its root, a tree is the tree in which the last element of the left subtree has taken its
place. -/
theorem inorder_predecessor (y : α) (l r s : BinaryTree α) (p : Path α) :
    inorder (fill (predecessor y l r s p) (last y l r).2.2) =
      before p ++ (inorder (node y l r) ++ inorder s) ++ after p := by
  have hlast := congrArg inorder (fill_last y l r)
  rw [inorder_fill] at hlast
  rw [predecessor, fill_append, fill, inorder_fill p, ← hlast]
  change before p ++ (inorder (fill _ _) ++ _ :: inorder s) ++ after p = _
  rw [inorder_fill, after_last]
  simp [inorder]

/-- The last element of the left subtree of a balanced tree can be taken away. -/
theorem fits_predecessor {x y : α} {l r s : BinaryTree α} {p : Path α}
    (h : Balanced (fill p (node x (node y l r) s))) :
    Fits (predecessor y l r s p) ((last y l r).2.2.height + 1) ∧ Balanced (last y l r).2.2 := by
  have hfill : fill (predecessor y l r s p) (node (last y l r).2.1 (last y l r).2.2 nil) =
      fill p (node (last y l r).2.1 (node y l r) s) := by
    rw [predecessor, fill_append, fill_last]
    rfl
  have hbal : Balanced (fill p (node (last y l r).2.1 (node y l r) s)) := by
    rw [balanced_fill] at h ⊢
    exact h
  rw [← hfill, balanced_fill] at hbal
  obtain ⟨⟨-, -, hrest, -⟩, hfits⟩ := hbal
  refine ⟨?_, hrest⟩
  rw [BinaryTree.height, BinaryTree.height, Nat.max_zero] at hfits
  exact hfits

/-! ## Searching -/

section Search

variable {β : Type v} [LinearOrder β] (key : α → β) (k : β)

/-- The position of the key, in the tree at `p`, and what is there: the node that has it, or
nothing. -/
def find : BinaryTree α → Path α → Path α × BinaryTree α
  | nil, p => (p, nil)
  | node x l r, p =>
    if k = key x then (p, node x l r)
    else if k < key x then find l (⟨.left, x, r⟩ :: p)
    else find r (⟨.right, x, l⟩ :: p)

/-- The key belongs at the position. -/
def Between (p : Path α) : Prop := (∀ y ∈ before p, key y < k) ∧ ∀ y ∈ after p, k < key y

theorem fill_find (t : BinaryTree α) (p : Path α) :
    fill (find key k t p).1 (find key k t p).2 = fill p t := by
  induction t generalizing p with
  | nil => rfl
  | node x l r ihl ihr =>
    rw [find]
    split
    · rfl
    split
    · exact ihl _
    · exact ihr _

theorem key_of_find {t : BinaryTree α} {p : Path α} {x : α} {l r : BinaryTree α}
    (h : (find key k t p).2 = node x l r) : key x = k := by
  induction t generalizing p with
  | nil => cases h
  | node y a b iha ihb =>
    rw [find] at h
    split at h
    · rename_i heq
      cases h
      exact heq.symm
    split at h
    · exact iha h
    · exact ihb h

/-- **Searching an ordered tree.** -/
theorem between_find {t : BinaryTree α} {p : Path α}
    (h : (inorder (fill p t)).Pairwise fun x y ↦ key x < key y) (hp : Between key k p) :
    Between key k (find key k t p).1 := by
  induction t generalizing p with
  | nil => exact hp
  | node x l r ihl ihr =>
    rw [find]
    have hsorted := h
    rw [inorder_fill, List.append_assoc, List.pairwise_append, List.pairwise_append] at hsorted
    obtain ⟨-, ⟨htree, -, -⟩, -⟩ := hsorted
    rw [inorder, List.pairwise_append, List.pairwise_cons] at htree
    obtain ⟨-, ⟨hright, -⟩, hleft⟩ := htree
    split
    · exact hp
    rename_i hne
    split
    · rename_i hlt
      refine ihl h ⟨fun y hy ↦ hp.1 y (by simpa [before] using hy), fun y hy ↦ ?_⟩
      rcases List.mem_append.1 hy with hy | hy
      · rcases List.mem_cons.1 hy with rfl | hy
        · exact hlt
        · exact hlt.trans (hright y hy)
      · exact hp.2 y hy
    · rename_i hlt
      have hgt : key x < k := lt_of_le_of_ne (not_lt.1 hlt) (Ne.symm hne)
      refine ihr h ⟨fun y hy ↦ ?_, fun y hy ↦ hp.2 y (by simpa [after] using hy)⟩
      rcases List.mem_append.1 hy with hy | hy
      · exact hp.1 y hy
      · rcases List.mem_append.1 hy with hy | hy
        · exact (hleft y hy x List.mem_cons_self).trans hgt
        · rw [List.mem_singleton.1 hy]
          exact hgt

theorem key_ne_of_find_nil {t : BinaryTree α}
    (h : (inorder t).Pairwise fun x y ↦ key x < key y) (hnil : (find key k t []).2 = nil) (y : α)
    (hy : y ∈ inorder t) : key y ≠ k := by
  obtain ⟨hbefore, hafter⟩ := between_find key k (p := []) h ⟨nofun, nofun⟩
  have hfill := fill_find key k t []
  rw [hnil] at hfill
  change _ = t at hfill
  rw [← hfill, inorder_fill, inorder, List.append_nil] at hy
  rcases List.mem_append.1 hy with hy | hy
  · exact (hbefore y hy).ne
  · exact (hafter y hy).ne'

end Search

/-! ## Depth -/

/-- **Balanced trees are not deep.**  A tree of height `h` has at least as many nodes as the
Fibonacci numbers say. -/
theorem fib_le_numNodes (h : Balanced t) :
    Nat.fib (t.height + 2) ≤ t.numNodes + 1 := by
  induction t with
  | nil => exact le_rfl
  | node x l r ihl ihr =>
    obtain ⟨hlr, hrl, hl, hr⟩ := h
    have hfib : Nat.fib (max l.height r.height + 1 + 2) =
        Nat.fib (max l.height r.height + 1) + Nat.fib (max l.height r.height + 2) :=
      Nat.fib_add_two
    have hnodes : (node x l r).numNodes = l.numNodes + r.numNodes + 1 := rfl
    change Nat.fib (max l.height r.height + 1 + 2) ≤ _
    rcases le_total l.height r.height with hle | hle
    · have hmono : Nat.fib (max l.height r.height + 1) ≤ Nat.fib (l.height + 2) :=
        Nat.fib_mono (by omega)
      have hmax : Nat.fib (max l.height r.height + 2) = Nat.fib (r.height + 2) := by
        rw [max_eq_right hle]
      have := ihl hl
      have := ihr hr
      omega
    · have hmono : Nat.fib (max l.height r.height + 1) ≤ Nat.fib (r.height + 2) :=
        Nat.fib_mono (by omega)
      have hmax : Nat.fib (max l.height r.height + 2) = Nat.fib (l.height + 2) := by
        rw [max_eq_left hle]
      have := ihl hl
      have := ihr hr
      omega

/-- A tree with too few nodes for the height. -/
theorem height_lt_of_numNodes (h : Balanced t) {k : ℕ}
    (hk : t.numNodes + 1 < Nat.fib (k + 2)) : t.height < k := by
  refine Nat.lt_of_not_le fun hle ↦ ?_
  have hmono : Nat.fib (k + 2) ≤ Nat.fib (t.height + 2) := Nat.fib_mono (by omega)
  have := fib_le_numNodes h
  omega

theorem length_inorder (t : BinaryTree α) : (inorder t).length = t.numNodes := by
  induction t with
  | nil => rfl
  | node x l r ihl ihr =>
    rw [inorder, List.length_append, List.length_cons, ihl, ihr]
    rfl

end Avl
