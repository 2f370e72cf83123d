import Linux24.Mm.Vma

/-!
# Mapping and unmapping: `mm/mmap.c`

`do_mmap_pgoff`, `do_munmap`, `do_brk` and `sys_brk`, with what they are made of, and `expand_stack`
of `include/linux/mm.h`.

Only the areas and the counters of the address space are followed.  What the code does besides — the
page tables, the lists of areas of a file and its reference and write counts, the `vopen` and
`vclose` methods — has no influence on them.  The loop at `munmap_back` runs on fuel.  Error values
are those of the source, as `unsigned long` or `int`.
-/

set_option autoImplicit false

namespace Linux24.Vm

open RedBlack

def mapShared : Flags := 0x1
def mapPrivate : Flags := 0x2
def mapType : Flags := 0xf
def mapFixed : Flags := 0x10
def mapNoreserve : Flags := 0x4000

namespace Mm

variable (E : Env) (mm : Mm)

/-! ## `do_munmap` -/

/-- `unmap_fixup`.  The area has been taken off the list and out of the tree; what remains of it is
put back.  Returns what is left of `extra`. -/
def unmapFixup (area addr len : ℕ) (extra : Option ℕ) : Except Fault (Option ℕ × Mm) := do
  let end' := add32 addr len
  let a := mm.vma area
  let mm := mm.unaccount len a.vmFlags
  if addr = a.vmStart ∧ end' = a.vmEnd then .ok (extra, mm)
  else if end' = a.vmEnd then do
    let mm ← (mm.setEnd area addr).insertVmStruct area
    .ok (extra, mm)
  else if addr = a.vmStart then do
    let mm := mm.setVma area { a with
      vmPgoff := add32 a.vmPgoff (pages (sub32 end' a.vmStart))
      vmStart := end' }
    let mm ← mm.insertVmStruct area
    .ok (extra, mm)
  else
    match extra with
    | none => .error .wild
    | some mpnt => do
      let mm := mm.setVma mpnt { a with
        vmStart := end'
        vmPgoff := add32 a.vmPgoff (pages (sub32 end' a.vmStart)) }
      let mm := mm.setEnd area addr
      let mm ← mm.insertVmStruct mpnt
      let mm ← mm.insertVmStruct area
      .ok (none, mm)

/-- The first loop of `do_munmap`: the areas that start below `end'` are taken off the list, which
is `front` up to there, and out of the tree, and put on the list `free`. -/
def detach (front : List ℕ) (end' : ℕ) : (mm : Mm) → List ℕ → (free : List ℕ) → List ℕ × Mm
  | mm, [], free => (free, { mm with mmap := front })
  | mm, x :: rest, free =>
    if (mm.vma x).vmStart < end' then
      detach front end' { mm with mmRb := remove x mm.mmRb } rest (x :: free)
    else (free, { mm with mmap := front ++ x :: rest })

/-- The second loop of `do_munmap`. -/
def release (addr len : ℕ) : (mm : Mm) → (free : List ℕ) → (extra : Option ℕ) → Except Fault Mm
  | mm, [], _ => .ok mm
  | mm, x :: free, extra => do
    let st := if addr < (mm.vma x).vmStart then (mm.vma x).vmStart else addr
    let end' := add32 addr len
    let end' := if (mm.vma x).vmEnd < end' then (mm.vma x).vmEnd else end'
    -- `zap_page_range`
    if end' ≤ st then
      .error .bug
    let (extra, mm) ← mm.decMapCount.unmapFixup x st (sub32 end' st) extra
    release addr len mm free extra

/-- `do_munmap` once it has the area that it may need: the two loops.  The first one starts at the
area after `prev`. -/
def unmapAreas (addr len : ℕ) (prev : Option ℕ) (extra : ℕ) : Except Fault Mm :=
  let (front, chain) :=
    prev.elim ([], mm.mmap) (fun p ↦ (Chain.upTo p mm.mmap, Chain.after p mm.mmap))
  let (free, mm) := detach front (add32 addr len) mm chain []
  release addr len { mm with mmapCache := none } free (some extra)

def doMunmap (addr len : ℕ) : Except Fault (ℕ × Mm) := do
  if addr % pageSize ≠ 0 ∨ taskSize < addr ∨ sub32 taskSize addr < len then
    return (err eInval, mm)
  let len := pageAlign len
  if len = 0 then
    return (err eInval, mm)
  match ← mm.findVmaPrev addr with
  | (none, _) => return (0, mm)
  | (some mpnt, prev) =>
    let a := mm.vma mpnt
    if add32 addr len ≤ a.vmStart then
      return (0, mm)
    if (a.vmStart < addr ∧ add32 addr len < a.vmEnd) ∧ E.maxMapCount ≤ (mm.mapCount : ℤ) then
      return (err eNomem, mm)
    match mm.kmemCacheAlloc E with
    | (none, mm) => return (err eNomem, mm)
    | (some extra, mm) =>
      let mm ← mm.unmapAreas addr len prev extra
      return (0, mm)

/-! ## `get_unmapped_area` -/

/-- The loop of `arch_get_unmapped_area`, along the list. -/
def unmappedLoop (len : ℕ) : (chain : List ℕ) → (addr : ℕ) → ℕ
  | [], addr => if sub32 taskSize len < addr then err eNomem else addr
  | x :: chain, addr =>
    if sub32 taskSize len < addr then err eNomem
    else if add32 addr len ≤ (mm.vma x).vmStart then addr
    else unmappedLoop len chain (mm.vma x).vmEnd

/-- The search of `arch_get_unmapped_area` from `TASK_UNMAPPED_BASE` on. -/
def unmappedFromBase (len : ℕ) : ℕ × Mm :=
  let base := pageAlign (taskSize / 3)
  match mm.findVma base with
  | (some x, mm) => (mm.unmappedLoop len (x :: Chain.after x mm.mmap) base, mm)
  | (none, mm) => (mm.unmappedLoop len [] base, mm)

def archGetUnmappedArea (addr len : ℕ) : ℕ × Mm :=
  if taskSize < len then (err eNomem, mm)
  else if addr = 0 then mm.unmappedFromBase len
  else
    let addr := pageAlign addr
    match mm.findVma addr with
    | (some x, mm) =>
      if addr ≤ sub32 taskSize len ∧ add32 addr len ≤ (mm.vma x).vmStart then (addr, mm)
      else mm.unmappedFromBase len
    | (none, mm) =>
      if addr ≤ sub32 taskSize len then (addr, mm) else mm.unmappedFromBase len

def getUnmappedArea (file : Option File) (addr len : ℕ) (flags : Flags) : ℕ × Mm :=
  if flags.has mapFixed then
    if sub32 taskSize len < addr then (err eNomem, mm)
    else if addr % pageSize ≠ 0 then (err eInval, mm)
    else (addr, mm)
  else
    match file, E.fileUnmappedArea with
    | some _, some a => (a, mm)
    | _, _ => mm.archGetUnmappedArea addr len

/-! ## `do_mmap_pgoff` -/

/-- The loop at `munmap_back`: `none` if `do_munmap` fails, and otherwise the values of `prev` and
`rb_link`. -/
def clearOldMaps (addr len : ℕ) : (fuel : ℕ) → Mm → Except Fault (Option (Option ℕ × Path ℕ) × Mm)
  | 0, _ => .error .hang
  | fuel + 1, mm =>
    let again : Except Fault (Option (Option ℕ × Path ℕ) × Mm) := do
      let (r, mm) ← mm.doMunmap E addr len
      if r ≠ 0 then .ok (none, mm) else clearOldMaps addr len fuel mm
    match mm.findVmaPrepare addr with
    | .inside x => if (mm.vma x).vmStart < add32 addr len then again else .error .wild
    | .leaf (some x) prev link =>
      if (mm.vma x).vmStart < add32 addr len then again else .ok (some (prev, link), mm)
    | .leaf none prev link => .ok (some (prev, link), mm)

/-- `calc_vm_flags`: the flags have the same values in `prot`, `flags` and `vm_flags`. -/
def calcVmFlags (prot flags : Flags) : Flags :=
  prot &&& (vmRead ||| vmWrite ||| vmExec) |||
    flags &&& (vmGrowsDown ||| vmDenyWrite ||| vmExecutable)

/-- The checks of `do_mmap_pgoff` against the file and the type of the mapping. -/
def mapTypeFlags (file : Option File) (prot flags vmFlags : Flags) : Except ℕ Flags :=
  match file with
  | some f =>
    if flags &&& mapType = mapShared then
      if prot.has vmWrite ∧ f.fModeWrite = false then .error (err eAcces)
      else if f.isAppend ∧ f.fModeWrite then .error (err eAcces)
      else if E.mandatoryLock then .error (err eAgain)
      else if f.fModeRead = false then .error (err eAcces)
      else
        let vmFlags := vmFlags ||| (vmShared ||| vmMayShare)
        .ok (if f.fModeWrite then vmFlags else vmFlags &&& ~~~(vmMayWrite ||| vmShared))
    else if flags &&& mapType = mapPrivate then
      if f.fModeRead = false then .error (err eAcces) else .ok vmFlags
    else .error (err eInval)
  | none =>
    let vmFlags := vmFlags ||| (vmShared ||| vmMayShare)
    if flags &&& mapType = mapPrivate then .ok (vmFlags &&& ~~~(vmShared ||| vmMayShare))
    else if flags &&& mapType = mapShared then .ok vmFlags
    else .error (err eInval)

/-- What becomes of the new area before it is linked in: the `mmap` method of the file, or
`shmem_zero_setup`. -/
def setupVma (file : Option File) (flags : Flags) (a : Vma) : Except ℕ Vma :=
  match file with
  | some f =>
    if a.vmFlags.has (vmGrowsDown ||| vmGrowsUp) then .error (err eInval)
    else if a.vmFlags.has vmDenyWrite ∧ E.denyWriteAccess ≠ 0 then .error E.denyWriteAccess
    else E.fileMmap { a with vmFile := some f }
  | none =>
    if flags.has mapShared then
      match E.shmemFile with
      | .ok f => .ok { a with vmFile := some f }
      | .error e => .error e
    else .ok a

/-- The label `out` of `do_mmap_pgoff` and of `do_brk`. -/
def mapped (addr len : ℕ) (vmFlags : Flags) : Except Fault (ℕ × Mm) := do
  let mm := mm.account len vmFlags
  if vmFlags.has vmLocked then
    let mm ← mm.makePagesPresent addr (add32 addr len)
    return (addr, mm)
  return (addr, mm)

/-- `do_mmap_pgoff` from the allocation of the area on. -/
def newVma (file : Option File) (addr len : ℕ) (flags vmFlags : Flags) (pgoff : ℕ)
    (prev : Option ℕ) (link : Path ℕ) : Except Fault (ℕ × Mm) :=
  match mm.kmemCacheAlloc E with
  | (none, mm) => .ok (err eNomem, mm)
  | (some x, mm) =>
    match setupVma E file flags ⟨addr, add32 addr len, vmFlags, pgoff, none⟩ with
    | .error e => .ok (e, mm)
    | .ok a =>
      let mm := mm.setVma x a
      if a.vmStart = addr then (mm.vmaLink x prev link).mapped addr len vmFlags
      else
        -- the driver has moved the area
        match mm.findVmaPrepare a.vmStart with
        | .inside y => if (mm.vma y).vmStart < a.vmEnd then .error .bug else .error .wild
        | .leaf (some y) prev link =>
          if (mm.vma y).vmStart < a.vmEnd then .error .bug
          else (mm.vmaLink x prev link).mapped a.vmStart len vmFlags
        | .leaf none prev link => (mm.vmaLink x prev link).mapped a.vmStart len vmFlags

/-- `do_mmap_pgoff` from the label `munmap_back` on. -/
def mmapRegion (file : Option File) (addr len : ℕ) (flags vmFlags : Flags) (pgoff : ℕ) :
    Except Fault (ℕ × Mm) := do
  match ← clearOldMaps E addr len (mm.mmap.length + 2) mm with
  | (none, mm) => return (err eNomem, mm)
  | (some (prev, link), mm) =>
    if E.rlimAs < add32 (shl32 mm.totalVm 12) len then
      return (err eNomem, mm)
    if vmFlags &&& (vmShared ||| vmWrite) = vmWrite ∧ flags.has mapNoreserve = false ∧
        E.enough = false then
      return (err eNomem, mm)
    if file = none ∧ vmFlags.has vmShared = false ∧ link ≠ [] then
      match ← mm.vmaMerge prev (rbParent link) addr (add32 addr len) vmFlags with
      | (true, mm) => mm.mapped addr len vmFlags
      | (false, mm) => mm.newVma E file addr len flags vmFlags pgoff prev link
    else mm.newVma E file addr len flags vmFlags pgoff prev link

def doMmapPgoff (file : Option File) (addr len : ℕ) (prot flags : Flags) (pgoff : ℕ) :
    Except Fault (ℕ × Mm) :=
  if file.any (fun f ↦ !f.hasMmap) then .ok (err eNodev, mm)
  else
    let len := pageAlign len
    if len = 0 then .ok (addr, mm)
    else if taskSize < len then .ok (err eInval, mm)
    else if add32 pgoff (pages len) < pgoff then .ok (err eInval, mm)
    else if E.maxMapCount < (mm.mapCount : ℤ) then .ok (err eNomem, mm)
    else
      let (addr, mm) := mm.getUnmappedArea E file addr len flags
      if addr % pageSize ≠ 0 then .ok (addr, mm)
      else
        let vmFlags := calcVmFlags prot flags ||| mm.defFlags |||
          (vmMayRead ||| vmMayWrite ||| vmMayExec)
        if vmFlags.has vmLocked ∧ E.rlimMemlock < add32 (shl32 mm.lockedVm 12) len then
          .ok (err eAgain, mm)
        else
          match mapTypeFlags E file prot flags vmFlags with
          | .error e => .ok (e, mm)
          | .ok vmFlags => mm.mmapRegion E file addr len flags vmFlags pgoff

/-! ## `sys_brk` -/

def vmDataDefaultFlags : Flags := vmRead ||| vmWrite ||| vmExec ||| vmMayRead ||| vmMayWrite |||
  vmMayExec

/-- `do_brk` from the allocation of the area on. -/
def newBrkVma (addr len : ℕ) (flags : Flags) (prev : Option ℕ) (link : Path ℕ) :
    Except Fault (ℕ × Mm) :=
  match mm.kmemCacheAlloc E with
  | (none, mm) => .ok (err eNomem, mm)
  | (some x, mm) =>
    let mm := mm.setVma x ⟨addr, add32 addr len, flags, 0, none⟩
    (mm.vmaLink x prev link).mapped addr len flags

def doBrk (addr len : ℕ) : Except Fault (ℕ × Mm) := do
  let len := pageAlign len
  if len = 0 then
    return (addr, mm)
  if mm.defFlags.has vmLocked ∧ E.rlimMemlock < add32 (shl32 mm.lockedVm 12) len then
    return (err eAgain, mm)
  match ← clearOldMaps E addr len (mm.mmap.length + 2) mm with
  | (none, mm) => return (err eNomem, mm)
  | (some (prev, link), mm) =>
    if E.rlimAs < add32 (shl32 mm.totalVm 12) len then
      return (err eNomem, mm)
    if E.maxMapCount < (mm.mapCount : ℤ) then
      return (err eNomem, mm)
    if E.enough = false then
      return (err eNomem, mm)
    let flags := vmDataDefaultFlags ||| mm.defFlags
    if link ≠ [] then
      match ← mm.vmaMerge prev (rbParent link) addr (add32 addr len) flags with
      | (true, mm) => mm.mapped addr len flags
      | (false, mm) => mm.newBrkVma E addr len flags prev link
    else mm.newBrkVma E addr len flags prev link

/-- `find_vma_intersection(mm, start, end) != NULL`. -/
def findVmaIntersection (start end' : ℕ) : Bool × Mm :=
  match mm.findVma start with
  | (some x, mm) => (decide ((mm.vma x).vmStart < end'), mm)
  | (none, mm) => (false, mm)

/-- `sys_brk`, which returns `mm->brk`. -/
def sysBrk (brk : ℕ) : Except Fault Mm := do
  if brk < mm.endCode then
    return mm
  let newbrk := pageAlign brk
  let oldbrk := pageAlign mm.brk
  if oldbrk = newbrk then
    return { mm with brk := brk }
  if brk ≤ mm.brk then
    let (r, mm) ← mm.doMunmap E newbrk (sub32 oldbrk newbrk)
    return if r = 0 then { mm with brk := brk } else mm
  if E.rlimData < 4294967295 ∧ E.rlimData < sub32 brk mm.startData then
    return mm
  let (hit, mm) := mm.findVmaIntersection oldbrk (add32 newbrk pageSize)
  if hit then
    return mm
  if E.enoughBrk = false then
    return mm
  let (r, mm) ← mm.doBrk E oldbrk (sub32 newbrk oldbrk)
  return if r = oldbrk then { mm with brk := brk } else mm

/-! ## `expand_stack` -/

end Mm
end Linux24.Vm
