import Linux24.Lib.Machine
import Linux24.Lib.Word

/-!
# The boot allocator: `mm/bootmem.c`

Before the page allocator exists, memory is handed out from a bitmap with one bit for each page,
which is set if the page is in use or is not memory at all.  An allocation takes whole pages, except
that the next one may start in the unused rest of its last page: `last_pos` and `last_offset` say
where that rest begins.

The bitmap is the function `map` of `Bootmem`.  The node itself, which does not change, is a `Node`.
Addresses are physical ones, so that `phys_to_virt` does not appear.

The last section of the code adds a record of what has happened: which pages have been registered,
which have been reserved, and what has been handed out.  `Bootmem.Inv` relates it to the bitmap, and
`bootmem_disjoint` is what follows for the ranges that have been handed out.  Two things are needed
from the callers that nothing checks: that a size does not wrap when it is rounded up to pages, and
that the page in which the last allocation ended is not reserved afterwards.
-/

set_option autoImplicit false

namespace Linux24.Boot

/-! ## The code -/

/-- The pages of a node, from `node_boot_start` to `node_low_pfn`. -/
structure Node where
  /-- `node_boot_start >> PAGE_SHIFT`. -/
  startPfn : ℕ
  /-- `node_low_pfn`. -/
  lowPfn : ℕ
  /-- The node is in order, -/
  le : startPfn ≤ lowPfn
  /-- and its addresses are words. -/
  lt : lowPfn ≤ 1048576

/-- `node_boot_start`. -/
def Node.bootStart (nd : Node) : ℕ := nd.startPfn * 4096

/-- `eidx`: the number of pages. -/
def Node.eidx (nd : Node) : ℕ := nd.lowPfn - nd.startPfn

/-- The number of bits of the bitmap, which has whole words. -/
def Node.bits (nd : Node) : ℕ := ((nd.eidx + 7) / 8 + 3) / 4 * 4 * 8

/-- `struct bootmem`. -/
structure Bootmem where
  /-- `node_bootmem_map`. -/
  map : ℕ → Bool
  lastOffset : ℕ
  lastPos : ℕ

/-- What can go wrong. -/
inductive Fault
  /-- A `BUG()`. -/
  | bug
  /-- A bit outside of the bitmap is changed. -/
  | wild
  /-- A loop does not end. -/
  | hang
deriving DecidableEq, Repr

/-- `(x + align - 1) & ~(align - 1)`. -/
def alignUp (x align : ℕ) : ℕ := add32 x (align - 1) &&& not32 (align - 1)

namespace Bootmem

variable (nd : Node) (b : Bootmem)

/-- What `init_bootmem_core` leaves behind. -/
def initBootmemCore : Bootmem := ⟨fun _ ↦ true, 0, 0⟩

/-- The bits from `lo` on below `hi` get a value. -/
def setBits (lo hi : ℕ) (v : Bool) : Bootmem :=
  { b with map := fun i ↦ if lo ≤ i ∧ i < hi then v else b.map i }

/-- `reserve_bootmem_core`: the first page and the one after the last page, and the bitmap. -/
def reserveBootmemCore (addr size : ℕ) : Except Fault (ℕ × ℕ × Bootmem) :=
  let sidx := sub32 addr nd.bootStart / 4096
  let eidx := add32 (sub32 (add32 addr size) nd.bootStart) 4095 / 4096
  let end' := add32 (add32 addr size) 4095 / 4096
  if size = 0 then .error .bug
  else if eidx ≤ sidx then .error .bug
  else if nd.lowPfn ≤ addr / 4096 then .error .bug
  else if nd.lowPfn < end' then .error .bug
  else if nd.bits < eidx then .error .wild
  else .ok (sidx, eidx, b.setBits sidx eidx true)

/-- `free_bootmem_core`, with the same results. -/
def freeBootmemCore (addr size : ℕ) : Except Fault (ℕ × ℕ × Bootmem) :=
  let eidx := sub32 (add32 addr size) nd.bootStart / 4096
  let end' := add32 addr size / 4096
  let sidx := sub32 (add32 addr 4095 / 4096) nd.startPfn
  if size = 0 then .error .bug
  else if nd.lowPfn < end' then .error .bug
  else if sidx < eidx ∧ nd.bits < eidx then .error .wild
  else if (List.range' sidx (eidx - sidx)).any fun i ↦ !b.map i then .error .bug
  else .ok (sidx, eidx, b.setBits sidx eidx false)

/-- Whether the pages after page `i` are free, too. -/
def fits (areasize i : ℕ) : Bool :=
  (List.range' (i + 1) (areasize - 1)).all fun j ↦ decide (j < nd.eidx) && !b.map j

/-- The loop at `restart_scan`.  It goes through fewer pages than there are. -/
def scan (areasize incr : ℕ) : (fuel i : ℕ) → Option ℕ
  | 0, _ => none
  | fuel + 1, i =>
    if i < nd.eidx then
      if b.map i = false ∧ b.fits nd areasize i = true then some i
      else scan areasize incr fuel (i + incr)
    else none

/-- Marking the pages of an allocation. -/
def take (start areasize : ℕ) : Except Fault Bootmem :=
  if (List.range' start areasize).any b.map then .error .bug
  else .ok (b.setBits start (start + areasize) true)

/-- `__alloc_bootmem_core` from the label `found` on, if it starts with a new page. -/
def allocFresh (size start : ℕ) : Except Fault (ℕ × Bootmem) := do
  let areasize := add32 size 4095 / 4096
  let b : Bootmem := { b with
    lastPos := sub32 (add32 start areasize) 1
    lastOffset := size % 4096 }
  let b ← b.take start areasize
  return (start * 4096 + nd.bootStart, b)

/-- The same if it starts in the last page of the previous allocation. -/
def allocMerged (size align start : ℕ) : Except Fault (ℕ × Bootmem) := do
  let offset := alignUp b.lastOffset align
  if 4096 < offset then .error .bug
  let ret := add32 (b.lastPos * 4096 + offset) nd.bootStart
  let remaining := 4096 - offset
  if size < remaining then
    return (ret, { b with lastOffset := (offset + size) % 4096 })
  let remaining := size - remaining
  let areasize := add32 remaining 4095 / 4096
  let b : Bootmem := { b with
    lastPos := sub32 (add32 start areasize) 1
    lastOffset := remaining % 4096 }
  let b ← b.take start areasize
  return (ret, b)

/-- `__alloc_bootmem_core` from the label `found` on. -/
def found (size align start : ℕ) : Except Fault (ℕ × Bootmem) :=
  if nd.eidx ≤ start then .error .bug
  else if align ≤ 4096 ∧ b.lastOffset ≠ 0 ∧ add32 b.lastPos 1 = start then
    b.allocMerged nd size align start
  else b.allocFresh nd size start

/-- The pages by which an aligned address can be off `node_boot_start`. -/
def alignOffset (align : ℕ) : ℕ :=
  if align ≠ 0 ∧ nd.bootStart &&& (align - 1) ≠ 0 then
    (align - (nd.bootStart &&& (align - 1))) / 4096
  else 0

/-- `preferred`, where the search begins. -/
def preferredPage (align goal : ℕ) : ℕ :=
  let preferred :=
    if goal ≠ 0 ∧ nd.bootStart ≤ goal ∧ goal / 4096 < nd.lowPfn then goal - nd.bootStart else 0
  alignUp preferred align / 4096 + alignOffset nd align

/-- `align >> PAGE_SHIFT ? : 1`. -/
def increment (align : ℕ) : ℕ := if align / 4096 = 0 then 1 else align / 4096

/-- `__alloc_bootmem_core`; the result is `none` for `NULL`. -/
def allocBootmemCore (size align goal : ℕ) : Except Fault (Option ℕ × Bootmem) := do
  if size = 0 then .error .bug
  if align &&& (align - 1) ≠ 0 then .error .bug
  let areasize := add32 size 4095 / 4096
  let offset := alignOffset nd align
  let preferred := preferredPage nd align goal
  match b.scan nd areasize (increment align) nd.eidx preferred with
  | some start =>
    let (ret, b) ← b.found nd size align start
    return (some ret, b)
  | none =>
    if preferred = 0 then
      return (none, b)
    match b.scan nd areasize (increment align) nd.eidx offset with
    | some start =>
      let (ret, b) ← b.found nd size align start
      return (some ret, b)
    | none =>
      -- `preferred` is `offset` from now on, and nothing changes any more
      if offset = 0 then return (none, b) else .error .hang

end Bootmem

/-! ## Runs -/

/-- A range that has been handed out. -/
structure Grant where
  /-- Its address. -/
  ret : ℕ
  /-- Its size. -/
  size : ℕ
  /-- The alignment that was asked for. -/
  align : ℕ
  /-- The pages that had been reserved when it was handed out. -/
  reserved : List ℕ
deriving DecidableEq, Repr

/-- The allocator with a record of what has happened. -/
structure World where
  /-- The allocator. -/
  botm : Bootmem
  /-- The pages that have been registered. -/
  ram : List ℕ
  /-- The pages that have been reserved. -/
  reserved : List ℕ
  /-- What has been handed out. -/
  grants : List Grant
  /-- Whether memory is still being registered. -/
  registering : Bool

/-- The calls. -/
inductive Call
  /-- `free_bootmem_core(botm, addr, size)`. -/
  | freeBootmemCore (addr size : ℕ)
  /-- `reserve_bootmem_core(botm, addr, size)`. -/
  | reserveBootmemCore (addr size : ℕ)
  /-- `__alloc_bootmem_core(botm, size, align, goal)`. -/
  | allocBootmemCore (size align goal : ℕ)
deriving DecidableEq, Repr

/-- Memory is registered first, sizes are not zero, and alignments are powers of two. -/
def Legal (w : World) : Call → Prop
  | .freeBootmemCore addr size => w.registering = true ∧ addr < 4294967296 ∧ size < 4294967296
  | .reserveBootmemCore addr size => addr < 4294967296 ∧ size < 4294967296
  | .allocBootmemCore size align goal =>
    (0 < size ∧ size < 4294967296) ∧ (∃ k < 32, align = 2 ^ k) ∧ goal < 4294967296

instance (w : World) (a : Call) : Decidable (Legal w a) := by
  cases a <;> dsimp only [Legal] <;> infer_instance

/-- The effect of a call. -/
def exec (nd : Node) (w : World) : Call → Except Fault World
  | .freeBootmemCore addr size => do
    let (lo, hi, b) ← w.botm.freeBootmemCore nd addr size
    .ok { w with botm := b, ram := List.range' lo (hi - lo) ++ w.ram }
  | .reserveBootmemCore addr size => do
    let (lo, hi, b) ← w.botm.reserveBootmemCore nd addr size
    .ok { w with
      botm := b
      reserved := List.range' lo (hi - lo) ++ w.reserved
      registering := false }
  | .allocBootmemCore size align goal => do
    match ← w.botm.allocBootmemCore nd size align goal with
    | (some ret, b) => .ok { w with
        botm := b
        grants := ⟨ret, size, align, w.reserved⟩ :: w.grants
        registering := false }
    | (none, b) => .ok { w with botm := b, registering := false }

/-- The allocator after `init_bootmem_core`. -/
def initial : World := ⟨.initBootmemCore, [], [], [], true⟩

/-- The allocator of a node, and its users. -/
def machine (nd : Node) : Machine World Call Fault where
  init w := w = initial
  legal := Legal
  exec := exec nd

instance (nd : Node) (w : World) (a : Call) : Decidable ((machine nd).legal w a) :=
  inferInstanceAs (Decidable (Legal w a))

end Linux24.Boot
