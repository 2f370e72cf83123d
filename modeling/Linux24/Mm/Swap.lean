import Linux24.Lib.Machine

/-!
# Swap space: `mm/swapfile.c`

A swap device has a map with a counter for each of its slots: how many references there are to the
page in it.  A slot is allocated when its counter is zero; a counter that reaches `SWAP_MAP_MAX`
stays there, and one of `SWAP_MAP_BAD` says that the slot is not to be used.  The free slots of a
device are searched only between `lowest_bit` and `highest_bit`.

The devices are on a list in the order of their priorities, and `swap_list.next` is where the search
for a slot begins.  `sys_swapoff` takes a device off the list, has its pages read in by
`try_to_unuse`, and puts the device back if that fails.  All the while slots of the device are
freed, and other devices are used, so that it is several steps here: its beginning, the one thing
that `try_to_unuse` does to a counter besides `swap_free` and `swap_duplicate`, and its two ends.
`sys_swapon` is one step, because nothing looks at a device before it is on the list.

`-1` for an index of a device is `none`.  What stands in memory in front of `swap_info`, which
`swap_info_get` reads when there is no device on the list, is an argument of the call.
-/

set_option autoImplicit false

namespace Linux24.Swap

open Function

/-! ## Devices -/

/-- `flags`: zero, `SWP_USED` and `SWP_WRITEOK`. -/
inductive Status
  | unused
  | used
  | writeok
deriving DecidableEq, Repr

def swapMapMax : ℕ := 0x7fff
def swapMapBad : ℕ := 0x8000
def swapfileCluster : ℕ := 256
def maxSwapfiles : ℕ := 32

/-- `struct swap_info_struct`. -/
structure SwapInfo where
  flags : Status
  swapFile : Option ℕ
  swapMap : ℕ → ℕ
  lowestBit : ℕ
  highestBit : ℕ
  clusterNext : ℕ
  clusterNr : ℕ
  prio : ℤ
  pages : ℤ
  max : ℕ
  next : Option ℕ

/-- The first of `n` slots from `a` on that is free. -/
def firstZero (map : ℕ → ℕ) : (n a : ℕ) → Option ℕ
  | 0, _ => none
  | n + 1, a => if map a = 0 then some a else firstZero map n (a + 1)

/-- The first of `n` slots from `a` on that is not free. -/
def firstUsed (map : ℕ → ℕ) : (n a : ℕ) → Option ℕ
  | 0, _ => none
  | n + 1, a => if map a ≠ 0 then some a else firstUsed map n (a + 1)

namespace SwapInfo

variable (si : SwapInfo)

/-- The label `check_next_cluster`.  The search moves on each time. -/
def findCluster : (fuel offset : ℕ) → Option ℕ
  | 0, _ => none
  | fuel + 1, offset =>
    if offset + swapfileCluster - 1 ≤ si.highestBit then
      match firstUsed si.swapMap swapfileCluster offset with
      | some nr => findCluster fuel (nr + 1)
      | none => some offset
    else none

/-- The label `got_page`. -/
def gotPage (offset : ℕ) : SwapInfo :=
  let lowest := if offset = si.lowestBit then si.lowestBit + 1 else si.lowestBit
  let highest := if offset = si.highestBit then si.highestBit - 1 else si.highestBit
  { si with
    lowestBit := if highest < lowest then si.max else lowest
    highestBit := if highest < lowest then 0 else highest
    swapMap := update si.swapMap offset 1
    clusterNext := offset + 1 }

/-- `scan_swap_map` once it starts a new cluster. -/
def scanFresh : ℕ × SwapInfo :=
  let si := { si with clusterNr := swapfileCluster }
  match si.findCluster (si.highestBit + 1) si.lowestBit with
  | some offset => (offset, si.gotPage offset)
  | none =>
    match firstZero si.swapMap (si.highestBit + 1 - si.lowestBit) si.lowestBit with
    | some offset => (offset, { si with lowestBit := offset + 1 }.gotPage offset)
    | none => (0, { si with lowestBit := si.max, highestBit := 0 })

/-- `scan_swap_map`; the result is zero if there is no free slot. -/
def scanSwapMap : ℕ × SwapInfo :=
  if si.clusterNr ≠ 0 then
    match firstZero si.swapMap (si.highestBit + 1 - si.clusterNext) si.clusterNext with
    | some offset => (offset, { si with clusterNr := si.clusterNr - 1 }.gotPage offset)
    | none => { si with clusterNext := Nat.max si.clusterNext (si.highestBit + 1) }.scanFresh
  else si.scanFresh

end SwapInfo

/-! ## All devices -/

/-- `swap_info`, `swap_list` and the counters. -/
structure State where
  /-- `swap_info`. -/
  info : ℕ → SwapInfo
  nrSwapfiles : ℕ
  head : Option ℕ
  next : Option ℕ
  nrSwapPages : ℤ
  totalSwapPages : ℤ
  leastPriority : ℤ

/-- What can go wrong. -/
inductive Fault
  /-- An array is used with an index outside of it. -/
  | wild
  /-- `BUG()`. -/
  | bug
  /-- A loop does not end. -/
  | hang
deriving DecidableEq, Repr

namespace State

variable (s : State)

/-- Changing a device. -/
def setInfo (i : ℕ) (p : SwapInfo) : State := { s with info := update s.info i p }

/-- Whether the search is at the end of the devices of one priority: `p` is the device it is at. -/
def endOfGroup (p : SwapInfo) : Bool :=
  match p.next with
  | none => true
  | some t => decide (p.prio ≠ (s.info t).prio)

/-- Looking for a slot in one device. -/
def tryDevice (type : ℕ) : ℕ × State :=
  if (s.info type).flags = .writeok then
    let (offset, p) := (s.info type).scanSwapMap
    (offset, s.setInfo type p)
  else (0, s)

/-- Where `get_swap_page` looks next: from the end of the devices of one priority it goes to the
beginning of the list, but only once. -/
def advance (p : SwapInfo) (wrapped : Bool) : Option (Option ℕ × Bool) :=
  if wrapped = false then
    if s.endOfGroup p then some (s.head, true) else some (p.next, false)
  else if p.next = none then none
  else some (p.next, true)

/-- The loop of `get_swap_page`. -/
def getLoop : (fuel : ℕ) → State → (type : Option ℕ) → (wrapped : Bool) →
    Except Fault (Option (ℕ × ℕ) × State)
  | 0, _, _, _ => .error .hang
  | _ + 1, _, none, _ => .error .wild
  | fuel + 1, s, some type, wrapped =>
    let p := s.info type
    let (offset, s) := s.tryDevice type
    if offset ≠ 0 then
      .ok (some (type, offset), { s with
        nrSwapPages := s.nrSwapPages - 1
        next := if s.endOfGroup p then s.head else p.next })
    else
      match s.advance p wrapped with
      | none => .ok (none, s)
      | some (type, wrapped) => getLoop fuel s type wrapped

/-- `get_swap_page`: the device and the slot, `none` if there is none. -/
def getSwapPage : Except Fault (Option (ℕ × ℕ) × State) :=
  if s.next = none then .ok (none, s)
  else if s.nrSwapPages ≤ 0 then .ok (none, s)
  else getLoop (3 * maxSwapfiles) s s.next false

/-- Whether `swap_info_get` finds the slot. -/
def valid (type offset : ℕ) : Bool :=
  decide (¬ (type = 0 ∧ offset = 0) ∧ type < s.nrSwapfiles ∧ (s.info type).flags ≠ .unused ∧
    offset < (s.info type).max ∧ (s.info type).swapMap offset ≠ 0)

/-- `swap_info_get` for a slot that it finds. -/
def swapInfoGet (type : ℕ) (junk : ℤ) : State :=
  let prio := s.next.elim junk fun n ↦ (s.info n).prio
  if prio < (s.info type).prio then { s with next := some type } else s

def swapEntryFree (type offset : ℕ) : State :=
  let p := s.info type
  let count := p.swapMap offset
  if count < swapMapMax then
    let p := { p with swapMap := update p.swapMap offset (count - 1) }
    if count - 1 = 0 then
      let p := { p with
        lowestBit := if offset < p.lowestBit then offset else p.lowestBit
        highestBit := if p.highestBit < offset then offset else p.highestBit }
      { s.setInfo type p with nrSwapPages := s.nrSwapPages + 1 }
    else s.setInfo type p
  else s

def swapFree (type offset : ℕ) (junk : ℤ) : State :=
  if s.valid type offset then (s.swapInfoGet type junk).swapEntryFree type offset else s

/-- `swap_duplicate`: whether it succeeded. -/
def swapDuplicate (type offset : ℕ) : Bool × State :=
  let p := s.info type
  let count := p.swapMap offset
  if type < s.nrSwapfiles ∧ offset < p.max ∧ count ≠ 0 then
    if count < swapMapMax - 1 then
      (true, s.setInfo type { p with swapMap := update p.swapMap offset (count + 1) })
    else if count ≤ swapMapMax then
      (true, s.setInfo type { p with swapMap := update p.swapMap offset swapMapMax })
    else (false, s)
  else (false, s)

/-! ## Devices come and go -/

/-- The search for the place of a device on the list: the device before it and the one after it. -/
def findPlace (prio : ℤ) : (fuel : ℕ) → (prev i : Option ℕ) → Except Fault (Option ℕ × Option ℕ)
  | 0, _, _ => .error .hang
  | _ + 1, prev, none => .ok (prev, none)
  | fuel + 1, prev, some i =>
    if (s.info i).prio ≤ prio then .ok (prev, some i)
    else findPlace prio fuel (some i) (s.info i).next

/-- Putting a device on the list. -/
def insertSwap (type : ℕ) : Except Fault State := do
  let (prev, i) ← s.findPlace (s.info type).prio (maxSwapfiles + 1) none s.head
  let s := s.setInfo type { s.info type with next := i }
  match prev with
  | none => .ok { s with head := some type, next := some type }
  | some q => .ok (s.setInfo q { s.info q with next := some type })

/-- The header of a swap device, in its two versions. -/
inductive Header
  /-- `SWAP-SPACE`: which pages are good. -/
  | v1 (good : ℕ → Bool)
  /-- `SWAPSPACE2`: `info.version`, `info.last_page` and `info.badpages`. -/
  | v2 (version lastPage : ℕ) (badpages : List ℕ)

/-- What a header says. -/
structure Area where
  lowestBit : ℕ
  highestBit : ℕ
  maxpages : ℕ
  nrGoodPages : ℤ
  swapMap : ℕ → ℕ

/-- The good pages of the first version; the last ten bytes of the page are the signature. -/
def goodPages (good : ℕ → Bool) : List ℕ :=
  (List.range' 1 32767).filter fun i ↦ good i && decide (i < 32688)

/-- The part of `sys_swapon` that reads the header; `none` for `-EINVAL`.  In the second version
`vmalloc` does not take a size of zero, and the map is written while the list of bad pages is being
checked. -/
def readHeader : Header → Except Fault (Option Area)
  | .v1 good =>
    let pages := goodPages good
    .ok (some {
      lowestBit := pages.head?.getD 0
      highestBit := pages.getLast?.getD 0
      maxpages := pages.getLast?.getD 0 + 1
      nrGoodPages := pages.length
      swapMap := fun i ↦ if i ∈ pages then 0 else swapMapBad })
  | .v2 version lastPage badpages =>
    -- `SWP_OFFSET(SWP_ENTRY(0,~0UL)) - 1`
    let maxpages := if lastPage < 16777214 then lastPage else 16777214
    let wrong (page : ℕ) : Bool := decide (page = 0 ∨ 2147483648 ≤ page ∨ lastPage ≤ page)
    if version ≠ 1 then .ok none
    else if 637 < badpages.length then .ok none
    else if maxpages = 0 then .error .bug
    else if badpages.any fun page ↦ !wrong page && decide (maxpages ≤ page) then .error .wild
    else if badpages.any wrong then .ok none
    else .ok (some {
      lowestBit := 1
      highestBit := maxpages - 1
      maxpages := maxpages
      nrGoodPages := (lastPage - badpages.length - 1 : ℤ).bmod 4294967296
      swapMap := fun i ↦ if i ∈ badpages then swapMapBad else 0 })

/-- The first entry of `swap_info` that is not in use. -/
def freeType : ℕ :=
  ((List.range s.nrSwapfiles).find? fun i ↦ decide ((s.info i).flags = .unused)).getD s.nrSwapfiles

/-- Whether the header and the file are all right.  `ok` is whether the file can be opened, has a
signature, and there is memory. -/
def acceptArea (type file swapfilesize : ℕ) (header : Header) (ok : Bool) :
    Except Fault (Option Area) :=
  if !ok || (List.range s.nrSwapfiles).any fun i ↦
      decide (i ≠ type ∧ (s.info i).swapFile = some file) then .ok none
  else
    match readHeader header with
    | .error e => .error e
    | .ok none => .ok none
    | .ok (some a) =>
      if swapfilesize ≠ 0 ∧ swapfilesize < a.maxpages then .ok none
      else if a.nrGoodPages = 0 then .ok none
      else .ok (some a)

/-- `sys_swapon`.  `prefer` is the priority, if one is asked for.  If it fails, the window may be
left as the header had it, but nothing looks at it before it is set again. -/
def sysSwapon (file : ℕ) (prefer : Option ℕ) (swapfilesize : ℕ) (header : Header) (ok : Bool) :
    Except Fault State :=
  let type := s.freeType
  if maxSwapfiles ≤ type then .ok s
  else
    let prio := prefer.elim (s.leastPriority - 1) fun prio ↦ (prio : ℤ)
    let p := { s.info type with
      clusterNr := 0
      next := none
      prio := prio }
    let s := { s with nrSwapfiles := if s.nrSwapfiles ≤ type then type + 1 else s.nrSwapfiles }
    match s.acceptArea type file swapfilesize header ok with
    | .error e => .error e
    | .ok none =>
      .ok (s.setInfo type { p with
        flags := .unused
        swapFile := none
        lowestBit := 0
        highestBit := 0 })
    | .ok (some a) =>
      let p := { p with
        flags := .writeok
        swapFile := some file
        lowestBit := a.lowestBit
        highestBit := a.highestBit
        max := a.maxpages
        pages := a.nrGoodPages
        swapMap := update a.swapMap 0 swapMapBad }
      { s.setInfo type p with
        leastPriority := if prefer.isNone then prio else s.leastPriority
        nrSwapPages := s.nrSwapPages + a.nrGoodPages
        totalSwapPages := s.totalSwapPages + a.nrGoodPages }.insertSwap type

/-- The search for the device in `sys_swapoff`. -/
def findFile (file : ℕ) : (fuel : ℕ) → (prev type : Option ℕ) →
    Except Fault (Option ℕ × Option ℕ)
  | 0, _, _ => .error .hang
  | _ + 1, prev, none => .ok (prev, none)
  | fuel + 1, prev, some type =>
    if (s.info type).flags = .writeok ∧ (s.info type).swapFile = some file then
      .ok (prev, some type)
    else findFile file fuel (some type) (s.info type).next

/-- `sys_swapoff` up to `try_to_unuse`. -/
def swapoffStart (file : ℕ) : Except Fault State := do
  match ← s.findFile file (maxSwapfiles + 1) none s.head with
  | (_, none) => .ok s
  | (prev, some type) =>
    let p := s.info type
    let s := match prev with
      | none => { s with head := p.next }
      | some q => s.setInfo q { s.info q with next := p.next }
    let s := if s.next = some type then { s with next := s.head } else s
    .ok { s.setInfo type { s.info type with flags := .used } with
      nrSwapPages := s.nrSwapPages - p.pages
      totalSwapPages := s.totalSwapPages - p.pages }

/-- What `try_to_unuse` does to a counter that is `SWAP_MAP_MAX`. -/
def resetOverflow (type offset : ℕ) : State :=
  let p := s.info type
  { s.setInfo type { p with swapMap := update p.swapMap offset 1 } with
    nrSwapPages := s.nrSwapPages + 1 }

/-- `sys_swapoff` after `try_to_unuse` has failed. -/
def swapoffFail (type : ℕ) : Except Fault State := do
  let s ← s.insertSwap type
  let p := s.info type
  .ok { s.setInfo type { p with flags := .writeok } with
    nrSwapPages := s.nrSwapPages + p.pages
    totalSwapPages := s.totalSwapPages + p.pages }

/-- `sys_swapoff` after `try_to_unuse` has succeeded. -/
def swapoffDone (type : ℕ) : State :=
  s.setInfo type { s.info type with flags := .unused, swapFile := none, max := 0 }

end State

end Linux24.Swap
