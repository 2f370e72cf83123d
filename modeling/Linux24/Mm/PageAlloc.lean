import Linux24.Lib.Machine
import Linux24.Lib.Word

/-!
# The buddy allocator of `mm/page_alloc.c`

A zone is an array of `struct page`s, and a *block* of order `o` is `2 ^ o` consecutive pages whose
first index — counted from `zone_pg_map` — is a multiple of `2 ^ o`.  Free blocks sit on one list
per order.  Besides the lists there is one bit per pair of neighbouring blocks and order, and that
bit is all `__free_pages_ok` ever looks at to decide whether the neighbour is free too.

This file is the code.  A page is named by its index `page - zone->zone_pg_map`.  What the code
would do on a broken state — `BUG()`, a bit outside its bitmap, unlinking a page that is on no list
— is a `Fault`; the list operations and the bit operations check what the machine would not, so that
"no fault" is the memory safety of the allocator and not only the absence of `BUG()`.

Two things around the allocator are inputs rather than state.  The flags of the `struct page` and of
`current` are changed by the rest of the kernel between any two calls, so each call is told what it
finds there (`PageStatus`, `Current`).
-/

set_option autoImplicit false

namespace Linux24.PageAlloc

def maxOrder : ℕ := 10

/-- The part of `struct pm_zone` that `free_area_init_core` fixes once and for all. -/
structure Zone where
  /-- `zone_start_mapnr`: the index of the zone's first page in `pg_map`. -/
  zoneStartMapnr : ℕ
  /-- The number of pages; any number will do. -/
  size : ℕ
  /-- `max_mapnr`, the length of `pg_map`. -/
  maxMapnr : ℕ
  /-- Whether `page_zone` of a `pg_map` entry is this zone. -/
  pageZone : ℕ → Bool
  /-- `free_area_init_core` skips empty zones. -/
  size_pos : 0 < size
  /-- The zone is a part of `pg_map`. -/
  le_maxMapnr : zoneStartMapnr + size ≤ maxMapnr
  /-- `max_mapnr` is an `unsigned long`. -/
  maxMapnr_lt : maxMapnr < 4294967296
  /-- `set_page_zone` has been run over the zone's pages. -/
  pageZone_of_mem : ∀ i, zoneStartMapnr ≤ i → i < zoneStartMapnr + size → pageZone i = true

/-- The part of the zone that changes, and the pages parked on `current->local_pages`. -/
structure State where
  freePages : ℕ
  /-- `free_areas[o].free_list`, first entry first. -/
  freeList : ℕ → List ℕ
  /-- `free_areas[o].map`, bit by bit. -/
  map : ℕ → ℕ → Bool
  /-- The blocks on some `local_pages`, with the order kept in `page->index`. -/
  localPages : List (ℕ × ℕ)

/-- What stops a call. -/
inductive Fault
  /-- `BAD_RANGE` held. -/
  | badRange
  /-- A block was freed at an index that is not a multiple of its size. -/
  | misaligned
  /-- The merge loop walked past the last free area. -/
  | areaOverrun
  /-- `VALID_PAGE` failed. -/
  | invalidPage
  /-- A bit outside the bitmap was touched. -/
  | bitmapRange
  /-- `list_del` on a page that is on no free list. -/
  | listCorrupt
  /-- One of the checks on the flags and fields of the `struct page`. -/
  | pageStatus
deriving DecidableEq, Repr

/-- What a call finds in the `struct page` it is about. -/
structure PageStatus where
  /-- `PageLRU`. -/
  lru : Bool
  /-- `page->buffers != NULL`. -/
  buffers : Bool
  /-- `page->mapping != NULL`. -/
  mapping : Bool
  /-- `PageLocked`. -/
  locked : Bool
  /-- `PageActive`. -/
  active : Bool

/-- What a call finds in `current`. -/
structure Current where
  /-- `current->flags & PF_FREE_PAGES`. -/
  pfFreePages : Bool
  nrLocalPages : ℕ
  /-- `in_interrupt()`. -/
  inInterrupt : Bool

/-! ## Bitmaps and lists -/

/-- `LONG_ALIGN`, with a `long` of four bytes. -/
def longAlign (x : ℕ) : ℕ := (x + 3) / 4 * 4

/-- The number of bytes `free_area_init_core` allocates for the bitmap of order `i`; the last order
has none. -/
def bitmapSize (z : Zone) (i : ℕ) : ℕ :=
  if i = maxOrder - 1 then 0 else longAlign ((z.size - 1) / 2 ^ (i + 4) + 1)

/-- What `free_area_init_core` leaves behind: no free page, all lists empty, all bits clear. -/
def freeAreaInit : State := ⟨0, fun _ ↦ [], fun _ _ ↦ false, []⟩

/-- The `BAD_RANGE` macro. -/
def badRange (z : Zone) (page : ℕ) : Bool :=
  decide (z.zoneStartMapnr + z.size ≤ z.zoneStartMapnr + page) ||
    decide (z.zoneStartMapnr + page < z.zoneStartMapnr) || !z.pageZone (z.zoneStartMapnr + page)

namespace State

/-- `list_add(&page->list, &free_areas[area].free_list)`. -/
def listAdd (s : State) (area page : ℕ) : State :=
  { s with freeList := Function.update s.freeList area (page :: s.freeList area) }

/-- `list_del(&page->list)`: the node does not say which list it is on, so every list is
searched. -/
def listDel (s : State) (page : ℕ) : Except Fault State :=
  if ∃ o < maxOrder, page ∈ s.freeList o then
    .ok { s with freeList := fun o ↦ (s.freeList o).erase page }
  else .error .listCorrupt

/-- `__change_bit(index, free_areas[area].map)`. -/
def changeBit (z : Zone) (area index : ℕ) (s : State) : Except Fault State :=
  if index < 8 * bitmapSize z area then
    .ok { s with
      map := Function.update s.map area (Function.update (s.map area) index !s.map area index) }
  else .error .bitmapRange

end State

/-! ## Freeing -/

/-- The merge loop of `__free_pages_ok`.  `left` is `MAX_ORDER - area`, so running out of it is the
`BUG()` on `area`. -/
def freeLoop (z : Zone) : (left area mask index pageIdx : ℕ) → State → Except Fault State
  | 0, area, mask, _, pageIdx, s =>
    if add32 mask (2 ^ (maxOrder - 1)) = 0 then .ok (s.listAdd area pageIdx)
    else .error .areaOverrun
  | left + 1, area, mask, index, pageIdx, s =>
    if add32 mask (2 ^ (maxOrder - 1)) = 0 then .ok (s.listAdd area pageIdx)
    else
      -- `__test_and_change_bit` returns the old value
      (s.changeBit z area index).bind fun s' ↦
        if !s.map area index then .ok (s'.listAdd area pageIdx)
        else if badRange z (pageIdx ^^^ neg32 mask) then .error .badRange
        else if badRange z pageIdx then .error .badRange
        else (s'.listDel (pageIdx ^^^ neg32 mask)).bind fun s'' ↦
          freeLoop z left (area + 1) (shl32 mask 1) (index / 2) (pageIdx &&& shl32 mask 1) s''

/-- The part of `__free_pages_ok` under `zone->lock`. -/
def freeToZone (z : Zone) (page order : ℕ) (s : State) : Except Fault State :=
  let mask := shl32 4294967295 order
  if page &&& not32 mask ≠ 0 then .error .misaligned
  else freeLoop z (maxOrder - order) order mask (page / 2 ^ (1 + order)) page
    { s with freePages := sub32 s.freePages mask }

/-- `__free_pages_ok(page, order)`.  `lru_cache_del` clears `PG_lru`, and `PG_active` with it. -/
def freePagesOk (z : Zone) (cur : Current) (pg : PageStatus) (page order : ℕ) (s : State) :
    Except Fault State :=
  if pg.lru && cur.inInterrupt then .error .pageStatus
  else if pg.buffers || pg.mapping then .error .pageStatus
  else if z.maxMapnr ≤ z.zoneStartMapnr + page then .error .invalidPage
  else if pg.locked || (pg.active && !pg.lru) then .error .pageStatus
  else if cur.pfFreePages && cur.nrLocalPages == 0 && !cur.inInterrupt then
    -- the `local_freelist` path: the zone never sees the block
    .ok { s with localPages := (page, order) :: s.localPages }
  else freeToZone z page order s

/-! ## Allocating -/

/-- The `MARK_USED` macro. -/
def markUsed (z : Zone) (index order : ℕ) (s : State) : Except Fault State :=
  s.changeBit z order (index / 2 ^ (1 + order))

/-- `expand`.  The free area walks down together with `high`, and `size` is `1 << high`. -/
def expand (z : Zone) (low : ℕ) :
    (high size index page : ℕ) → State → Except Fault (ℕ × State)
  | 0, _, _, page, s => if badRange z page then .error .badRange else .ok (page, s)
  | high + 1, size, index, page, s =>
    if low < high + 1 then
      if badRange z page then .error .badRange
      else (markUsed z index high (s.listAdd high page)).bind fun s' ↦
        expand z low high (size / 2) (index + size / 2) (page + size / 2) s'
    else if badRange z page then .error .badRange
    else .ok (page, s)

/-- The `do … while` loop of `rmqueue`.  `left` is `MAX_ORDER - curr_order`. -/
def rmqueueLoop (z : Zone) (pg : PageStatus) (order : ℕ) :
    (left currOrder : ℕ) → State → Except Fault (Option ℕ × State)
  | 0, _, s => .ok (none, s)
  | left + 1, currOrder, s =>
    match s.freeList currOrder with
    | [] => rmqueueLoop z pg order left (currOrder + 1) s
    | page :: _ =>
      if badRange z page then .error .badRange
      else (s.listDel page).bind fun s₁ ↦
        (if currOrder ≠ maxOrder - 1 then markUsed z page currOrder s₁ else .ok s₁).bind fun s₂ ↦
          (expand z order currOrder (2 ^ currOrder) page page
            { s₂ with freePages := sub32 s₂.freePages (2 ^ order) }).bind fun r ↦
            if badRange z r.1 then .error .badRange
            else if pg.lru || pg.active then .error .pageStatus
            else .ok (some r.1, r.2)

/-- `rmqueue(zone, order)`: the page it returns, if it finds one. -/
def rmqueue (z : Zone) (pg : PageStatus) (order : ℕ) (s : State) :
    Except Fault (Option ℕ × State) :=
  rmqueueLoop z pg order (maxOrder - order) order s

/-! ## Sequences of calls -/

/-- The zone together with what its users hold. -/
structure World where
  /-- The zone. -/
  zone : State
  /-- The blocks handed out and not given back. -/
  outstanding : List (ℕ × ℕ)
  /-- The pages the boot code has released. -/
  released : List ℕ

/-- A call into the allocator. -/
inductive Call
  /-- The boot code releases a page. -/
  | release (cur : Current) (pg : PageStatus) (page : ℕ)
  /-- `rmqueue`. -/
  | alloc (pg : PageStatus) (order : ℕ)
  /-- `__free_pages_ok`. -/
  | free (cur : Current) (pg : PageStatus) (page order : ℕ)
  /-- `balance_classzone` takes a block off `current->local_pages`, to hand it out or to free it. -/
  | takeLocal (page order : ℕ)

/-- What the callers promise: a page is released once, orders are below `MAX_ORDER`, and a block is
given back with the order it was handed out with. -/
def Legal (z : Zone) (w : World) : Call → Prop
  | .release _ _ page => page < z.size ∧ page ∉ w.released
  | .alloc _ order => order < maxOrder
  | .free _ _ page order => (page, order) ∈ w.outstanding
  | .takeLocal page order => (page, order) ∈ w.zone.localPages

instance (z : Zone) (w : World) (a : Call) : Decidable (Legal z w a) := by
  cases a <;> dsimp only [Legal] <;> infer_instance

/-- The effect of a call. -/
def exec (z : Zone) (w : World) : Call → Except Fault World
  | .release cur pg page =>
    (freePagesOk z cur pg page 0 w.zone).map fun s ↦
      { w with zone := s, released := page :: w.released }
  | .alloc pg order =>
    (rmqueue z pg order w.zone).map fun r ↦
      { w with zone := r.2, outstanding := (r.1.map fun p ↦ (p, order)).toList ++ w.outstanding }
  | .free cur pg page order =>
    (freePagesOk z cur pg page order w.zone).map fun s ↦
      { w with zone := s, outstanding := w.outstanding.erase (page, order) }
  | .takeLocal page order =>
    .ok { w with
      zone := { w.zone with localPages := w.zone.localPages.erase (page, order) }
      outstanding := (page, order) :: w.outstanding }

/-- The allocator and its users. -/
def machine (z : Zone) : Machine World Call Fault where
  init w := w = ⟨freeAreaInit, [], []⟩
  legal := Legal z
  exec := exec z

instance (z : Zone) (w : World) (a : Call) : Decidable ((machine z).legal w a) :=
  inferInstanceAs (Decidable (Legal z w a))

end Linux24.PageAlloc
