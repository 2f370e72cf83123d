import Linux24.Lib.Chain
import Linux24.Lib.RedBlack
import Linux24.Lib.Word

/-!
# Virtual memory areas: `include/linux/mm.h` and the lookups of `mm/mmap.c`

An address space is a set of areas, which are kept both in a list in the order of their addresses
and in a red-black tree.  This file has the data — areas, the address space, and what a call depends
on besides them — and the helpers that look areas up, link them in and take them out.

Areas live at addresses of their own, which are numbers here, and the list and the tree hold those
numbers: an area is changed in place, and the list and the tree see it.  The list is the list of the
areas one comes across when following `vm_next` from `mm->mmap`; the tree is that of `RedBlack`,
whose operations are what the functions of `lib/rbtree.c` compute.

What a call depends on is an `Env`: which allocations succeed, what the limits are, what the methods
of a file answer.  Nothing is assumed about it here.
-/

set_option autoImplicit false

namespace Linux24.Vm

open RedBlack

/-! ## Constants -/

def pageSize : ℕ := 4096

/-- `TASK_SIZE`, that is `PAGE_OFFSET`. -/
def taskSize : ℕ := 3221225472

def pageAlign (a : ℕ) : ℕ := add32 a 4095 / 4096 * 4096

/-- `a >> PAGE_SHIFT`. -/
def pages (a : ℕ) : ℕ := a / 4096

/-- The value of type `unsigned long` or `int` that stands for the error. -/
def err (e : ℕ) : ℕ := 4294967296 - e

def ePerm : ℕ := 1
def eAgain : ℕ := 11
def eNomem : ℕ := 12
def eAcces : ℕ := 13
def eNodev : ℕ := 19
def eInval : ℕ := 22

/-- `vm_flags`, `prot` and `flags`. -/
abbrev Flags := BitVec 32

/-- `VM_READ`, `VM_WRITE` and `VM_EXEC`, the `PROT_` values of the same names. -/
def vmRead : Flags := 0x1
def vmWrite : Flags := 0x2
def vmExec : Flags := 0x4
def vmShared : Flags := 0x8
def vmMayRead : Flags := 0x10
def vmMayWrite : Flags := 0x20
def vmMayExec : Flags := 0x40
def vmMayShare : Flags := 0x80
/-- `VM_GROWSDOWN`, and `MAP_GROWSDOWN`. -/
def vmGrowsDown : Flags := 0x100
def vmGrowsUp : Flags := 0x200
/-- `VM_DENYWRITE`, and `MAP_DENYWRITE`. -/
def vmDenyWrite : Flags := 0x800
/-- `VM_EXECUTABLE`, and `MAP_EXECUTABLE`. -/
def vmExecutable : Flags := 0x1000
def vmLocked : Flags := 0x2000

/-- Whether one of these flags is set. -/
def Flags.has (f g : Flags) : Bool := decide (f &&& g ≠ 0)

/-! ## Areas and address spaces -/

/-- What the code looks at in a `struct file`. -/
structure File where
  /-- Which file it is. -/
  id : ℕ
  /-- `f_mode & FMODE_READ`. -/
  fModeRead : Bool
  /-- `f_mode & FMODE_WRITE`. -/
  fModeWrite : Bool
  /-- `f_op && f_op->mmap`. -/
  hasMmap : Bool
  /-- `IS_APPEND(f_dentry->d_inode)`. -/
  isAppend : Bool
deriving DecidableEq, Repr

/-- `struct vm_area`. -/
structure Vma where
  vmStart : ℕ
  /-- `vm_end`, the first address after the area. -/
  vmEnd : ℕ
  vmFlags : Flags
  vmPgoff : ℕ
  vmFile : Option File
deriving DecidableEq, Repr

/-- `struct mm_struct`, and the areas it has been given so far. -/
structure Mm where
  /-- The areas. -/
  vma : ℕ → Vma
  /-- How many allocations of areas have been tried; each has a number of its own. -/
  tick : ℕ
  /-- The list of the areas, from `mmap` along `vm_next`. -/
  mmap : List ℕ
  mmRb : RbTree ℕ
  mmapCache : Option ℕ
  mapCount : ℕ
  totalVm : ℕ
  lockedVm : ℕ
  defFlags : Flags
  endCode : ℕ
  startData : ℕ
  brk : ℕ

/-- What can go wrong. -/
inductive Fault
  /-- A `BUG()`. -/
  | bug
  /-- A `NULL` pointer or a variable that has not been set is used. -/
  | wild
  /-- A loop does not end. -/
  | hang
deriving DecidableEq, Repr

theorem bind_ok {α β : Type} {m : Except Fault α} {a : α} (h : m = .ok a)
    (f : α → Except Fault β) : m >>= f = f a := by
  rw [h]
  rfl

/-- What a call depends on. -/
structure Env where
  /-- Whether an allocation of an area succeeds, by its number. -/
  alloc : ℕ → Bool
  /-- The answer of `vm_enough_memory`. -/
  enough : Bool
  /-- The answer of the `vm_enough_memory` that `sys_brk` asks itself. -/
  enoughBrk : Bool
  /-- `current->rlim[RLIMIT_AS].rlim_cur`. -/
  rlimAs : ℕ
  /-- `current->rlim[RLIMIT_MEMLOCK].rlim_cur`. -/
  rlimMemlock : ℕ
  /-- `current->rlim[RLIMIT_DATA].rlim_cur`. -/
  rlimData : ℕ
  /-- `current->rlim[RLIMIT_STACK].rlim_cur`. -/
  rlimStack : ℕ
  maxMapCount : ℤ
  /-- `capable(CAP_IPC_LOCK)`. -/
  capIpcLock : Bool
  /-- The answer of `f_op->get_unmapped_area`, for a file that has it. -/
  fileUnmappedArea : Option ℕ
  /-- What `f_op->mmap` makes of the area, or its error. -/
  fileMmap : Vma → Except ℕ Vma
  /-- The file that `shmem_zero_setup` gives the area, or its error. -/
  shmemFile : Except ℕ File
  /-- The error of `deny_write_access`, zero if there is none. -/
  denyWriteAccess : ℕ
  /-- `locks_verify_locked`. -/
  mandatoryLock : Bool

namespace Mm

variable (E : Env) (mm : Mm)

/-- Changing an area in place. -/
def setVma (x : ℕ) (a : Vma) : Mm := { mm with vma := Function.update mm.vma x a }

/-- `kmem_cache_alloc(vm_area_cachep, …)`. -/
def kmemCacheAlloc : Option ℕ × Mm :=
  (if E.alloc mm.tick then some mm.tick else none, { mm with tick := mm.tick + 1 })

def canVmaMerge (x : ℕ) (flags : Flags) : Bool :=
  decide ((mm.vma x).vmFile = none ∧ (mm.vma x).vmFlags = flags)

/-! ## Looking areas up -/

/-- The walk of `find_vma` down the tree. -/
def searchVma (addr : ℕ) : RbTree ℕ → Option ℕ → Option ℕ
  | .nil, vma => vma
  | .node _ l x r, vma =>
    if addr < (mm.vma x).vmEnd then
      if (mm.vma x).vmStart ≤ addr then some x else searchVma addr l (some x)
    else searchVma addr r vma

/-- `find_vma` after a miss of the cache. -/
def findVmaTree (addr : ℕ) : Option ℕ × Mm :=
  match mm.searchVma addr mm.mmRb none with
  | some x => (some x, { mm with mmapCache := some x })
  | none => (none, mm)

def findVma (addr : ℕ) : Option ℕ × Mm :=
  match mm.mmapCache with
  | some x =>
    if addr < (mm.vma x).vmEnd ∧ (mm.vma x).vmStart ≤ addr then (some x, mm)
    else mm.findVmaTree addr
  | none => mm.findVmaTree addr

/-- The walk of `find_vma_prev` down the tree.  The result is the area, its `rb_left`, and the value
of `rb_prev`. -/
def searchVmaPrev (addr : ℕ) : RbTree ℕ → (rbLastRight : Option ℕ) →
    Option (ℕ × RbTree ℕ × Option ℕ) → Option (ℕ × RbTree ℕ × Option ℕ)
  | .nil, _, found => found
  | .node _ l x r, rbLastRight, found =>
    if addr < (mm.vma x).vmEnd then
      if (mm.vma x).vmStart ≤ addr then some (x, l, rbLastRight)
      else searchVmaPrev addr l rbLastRight (some (x, l, rbLastRight))
    else searchVmaPrev addr r (some x) found

/-- `while (rb_prev->rb_right) rb_prev = rb_prev->rb_right;`, for a tree that is not empty. -/
def rightmost : RbTree ℕ → Option ℕ
  | .nil => none
  | .node _ _ x .nil => some x
  | .node _ _ _ r => rightmost r

/-- `find_vma_prev`: the area, and the one before it if there is an area. -/
def findVmaPrev (addr : ℕ) : Except Fault (Option ℕ × Option ℕ) :=
  match mm.searchVmaPrev addr mm.mmRb none none with
  | some (x, l, rbPrev) =>
    let prev := (rightmost l).or rbPrev
    let next := prev.elim mm.mmap.head? (fun p ↦ Chain.next p mm.mmap)
    if next = some x then .ok (some x, prev) else .error .bug
  | none => .ok (none, none)

/-- The results of `find_vma_prepare`. -/
inductive Prepared
  /-- The area `vma` covers the address; nothing else has been set. -/
  | inside (vma : ℕ)
  /-- No area covers the address; `link` is `rb_link`, and its innermost node is `rb_parent`. -/
  | leaf (vma prev : Option ℕ) (link : Path ℕ)

/-- The walk of `find_vma_prepare` down the tree. -/
def prepareFrom (addr : ℕ) : RbTree ℕ → (link : Path ℕ) → (prev vma : Option ℕ) → Prepared
  | .nil, link, prev, vma => .leaf vma prev link
  | .node c l x r, link, prev, vma =>
    if addr < (mm.vma x).vmEnd then
      if (mm.vma x).vmStart ≤ addr then .inside x
      else prepareFrom addr l (⟨.left, c, x, r⟩ :: link) prev (some x)
    else prepareFrom addr r (⟨.right, c, x, l⟩ :: link) (some x) vma

def findVmaPrepare (addr : ℕ) : Prepared := mm.prepareFrom addr mm.mmRb [] none none

def rbParent (link : Path ℕ) : Option ℕ := link.head?.map Frame.elem

/-! ## Linking areas in and out -/

/-- `__vma_link_list`.  Without an area before it, the new area is put in front of `rb_parent`. -/
def vmaLinkList (x : ℕ) (prev rbParent : Option ℕ) : List ℕ :=
  match prev with
  | some p => Chain.insertAfter p x mm.mmap
  | none =>
    match rbParent with
    | some q => x :: Chain.startAt q mm.mmap
    | none => [x]

/-- `vma_link`: `__vma_link_list`, `__vma_link_rb` and `mm->map_count++`. -/
def vmaLink (x : ℕ) (prev : Option ℕ) (link : Path ℕ) : Mm :=
  { mm with
    mmap := mm.vmaLinkList x prev (rbParent link)
    mmRb := insertColor link (.node .red .nil x .nil)
    mapCount := mm.mapCount + 1 }

/-- `__insert_vm_struct` and `insert_vm_struct`. -/
def insertVmStruct (x : ℕ) : Except Fault Mm :=
  match mm.findVmaPrepare (mm.vma x).vmStart with
  | .inside y =>
    -- `prev` and `rb_link` have not been set
    if (mm.vma y).vmStart < (mm.vma x).vmEnd then .error .bug else .error .wild
  | .leaf (some y) prev link =>
    if (mm.vma y).vmStart < (mm.vma x).vmEnd then .error .bug else .ok (mm.vmaLink x prev link)
  | .leaf none prev link => .ok (mm.vmaLink x prev link)

/-- `__vma_unlink(mm, vma, prev)`. -/
def vmaUnlink (x prev : ℕ) : Mm :=
  { mm with
    mmap := Chain.upTo prev mm.mmap ++ Chain.after x mm.mmap
    mmRb := remove x mm.mmRb
    mmapCache := if mm.mmapCache = some x then some prev else mm.mmapCache }

/-- `mm->map_count--`. -/
def decMapCount : Mm := { mm with mapCount := mm.mapCount - 1 }

/-- `prev->vm_end = e`. -/
def setEnd (x e : ℕ) : Mm := mm.setVma x { mm.vma x with vmEnd := e }

/-- `vma->vm_start = s`. -/
def setStart (x s : ℕ) : Mm := mm.setVma x { mm.vma x with vmStart := s }

/-- The part of `vma_merge` at the label `merge_next`. -/
def mergeNext (x addr end' : ℕ) (flags : Flags) : Bool × Mm :=
  if mm.canVmaMerge x flags = true ∧ end' = (mm.vma x).vmStart then (true, mm.setStart x addr)
  else (false, mm)

def vmaMerge (prev rbParent : Option ℕ) (addr end' : ℕ) (flags : Flags) :
    Except Fault (Bool × Mm) :=
  match prev with
  | none =>
    match rbParent with
    | none => .error .wild
    | some q => .ok (mm.mergeNext q addr end' flags)
  | some p =>
    if (mm.vma p).vmEnd = addr ∧ mm.canVmaMerge p flags = true then
      let mm := mm.setEnd p end'
      match Chain.next p mm.mmap with
      | some n =>
        if (mm.vma p).vmEnd = (mm.vma n).vmStart ∧ mm.canVmaMerge n flags = true then
          .ok (true, ((mm.setEnd p (mm.vma n).vmEnd).vmaUnlink n p).decMapCount)
        else .ok (true, mm)
      | none => .ok (true, mm)
    else
      match Chain.next p mm.mmap with
      | some n => .ok (mm.mergeNext n addr end' flags)
      | none => .ok (false, mm)

/-- `make_pages_present`, as far as the areas are concerned: the pages of an area are touched. -/
def makePagesPresent (addr end' : ℕ) : Except Fault Mm :=
  match mm.findVma addr with
  | (none, _) => .error .wild
  | (some x, mm) =>
    if end' ≤ addr ∨ (mm.vma x).vmEnd < end' then .error .bug else .ok mm

/-- `mm->total_vm += len >> PAGE_SHIFT`, and the same for `locked_vm` if the flags say so. -/
def account (len : ℕ) (flags : Flags) : Mm :=
  { mm with
    totalVm := add32 mm.totalVm (pages len)
    lockedVm := if flags.has vmLocked then add32 mm.lockedVm (pages len) else mm.lockedVm }

/-- `mm->total_vm -= len >> PAGE_SHIFT`, and the same for `locked_vm` if the flags say so. -/
def unaccount (len : ℕ) (flags : Flags) : Mm :=
  { mm with
    totalVm := sub32 mm.totalVm (pages len)
    lockedVm := if flags.has vmLocked then sub32 mm.lockedVm (pages len) else mm.lockedVm }

end Mm
end Linux24.Vm
