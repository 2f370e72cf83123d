import Linux24.Mm.Mmap

/-!
# Changing part of an area: `mm/mprotect.c` and `mm/mlock.c`

`sys_mprotect` and `do_mlock` walk along the areas of a range and give each of them new flags.  An
area of which only a part is in the range is split first: at its start, at its end, or in the
middle, which takes one or two new areas.  The three ways of splitting are the same in both files up
to the error for want of memory; `sys_mprotect` also merges areas where it can, and keeps track of
the area before the current one for that.
-/

set_option autoImplicit false

namespace Linux24.Vm
namespace Mm

variable (E : Env) (mm : Mm)

/-! ## Splitting an area -/

/-- The part of the area before `end'` becomes a new area, with the new flags.  The result says
whether there was memory for it. -/
def splitStart (x end' : ℕ) (newflags : Flags) : Except Fault (Bool × Mm) :=
  match mm.kmemCacheAlloc E with
  | (none, mm) => .ok (false, mm)
  | (some n, mm) => do
    let a := mm.vma x
    let mm := mm.setVma n { a with vmEnd := end', vmFlags := newflags }
    let mm := mm.setVma x { a with
      vmPgoff := add32 a.vmPgoff (pages (sub32 end' a.vmStart))
      vmStart := end' }
    let mm ← mm.insertVmStruct n
    .ok (true, mm)

/-- The part of the area from `start` on becomes a new area, with the new flags; the result is that
area. -/
def splitEnd (x start : ℕ) (newflags : Flags) : Except Fault (Option ℕ × Mm) :=
  match mm.kmemCacheAlloc E with
  | (none, mm) => .ok (none, mm)
  | (some n, mm) => do
    let a := mm.vma x
    let mm := mm.setVma n { a with
      vmStart := start
      vmPgoff := add32 a.vmPgoff (pages (sub32 start a.vmStart))
      vmFlags := newflags }
    let mm := mm.setEnd x start
    let mm ← mm.insertVmStruct n
    .ok (some n, mm)

/-- The parts of the area before `start` and from `end'` on become new areas; the area gets the new
flags.  The result is the second of the new areas. -/
def splitMiddle (x start end' : ℕ) (newflags : Flags) : Except Fault (Option ℕ × Mm) :=
  match mm.kmemCacheAlloc E with
  | (none, mm) => .ok (none, mm)
  | (some left, mm) =>
    match mm.kmemCacheAlloc E with
    | (none, mm) => .ok (none, mm)
    | (some right, mm) => do
      let a := mm.vma x
      let mm := mm.setVma left { a with vmEnd := start }
      let mm := mm.setVma right { a with
        vmStart := end'
        vmPgoff := add32 a.vmPgoff (pages (sub32 end' a.vmStart)) }
      let mm := mm.setVma x { a with
        vmPgoff := add32 a.vmPgoff (pages (sub32 start a.vmStart))
        vmStart := start
        vmEnd := end'
        vmFlags := newflags }
      let mm ← mm.insertVmStruct left
      let mm ← mm.insertVmStruct right
      .ok (some right, mm)

/-! ## `sys_mprotect` -/

/-- Whether the area before an area can take over its range, or the start of it. -/
def mprotectCanMerge (x : ℕ) (prev : Option ℕ) (newflags : Flags) : Option ℕ :=
  match prev with
  | some p =>
    if (mm.vma p).vmEnd = (mm.vma x).vmStart ∧ mm.canVmaMerge p newflags = true ∧
        (mm.vma x).vmFile = none ∧ (mm.vma x).vmFlags.has vmShared = false then some p
    else none
  | none => none

def mprotectFixupAll (x : ℕ) (prev : Option ℕ) (newflags : Flags) : ℕ × Option ℕ × Mm :=
  match mm.mprotectCanMerge x prev newflags with
  | some p => (0, prev, ((mm.setEnd p (mm.vma x).vmEnd).vmaUnlink x p).decMapCount)
  | none => (0, some x, mm.setVma x { mm.vma x with vmFlags := newflags })

def mprotectFixupStart (x : ℕ) (prev : Option ℕ) (end' : ℕ) (newflags : Flags) :
    Except Fault (ℕ × Option ℕ × Mm) :=
  match mm.mprotectCanMerge x prev newflags with
  | some p => .ok (0, some x, (mm.setEnd p end').setStart x end')
  | none => do
    let (done, mm) ← mm.splitStart E x end' newflags
    .ok (if done then 0 else err eNomem, some x, mm)

def mprotectFixupEnd (x : ℕ) (prev : Option ℕ) (start : ℕ) (newflags : Flags) :
    Except Fault (ℕ × Option ℕ × Mm) := do
  match ← mm.splitEnd E x start newflags with
  | (some n, mm) => .ok (0, some n, mm)
  | (none, mm) => .ok (err eNomem, prev, mm)

def mprotectFixupMiddle (x : ℕ) (prev : Option ℕ) (start end' : ℕ) (newflags : Flags) :
    Except Fault (ℕ × Option ℕ × Mm) := do
  match ← mm.splitMiddle E x start end' newflags with
  | (some right, mm) => .ok (0, some right, mm)
  | (none, mm) => .ok (err eNomem, prev, mm)

/-- The four ways of `mprotect_fixup` to give the range the new flags. -/
def mprotectSplit (x : ℕ) (prev : Option ℕ) (start end' : ℕ) (newflags : Flags) :
    Except Fault (ℕ × Option ℕ × Mm) :=
  let a := mm.vma x
  if start = a.vmStart then
    if end' = a.vmEnd then .ok (mm.mprotectFixupAll x prev newflags)
    else mm.mprotectFixupStart E x prev end' newflags
  else if end' = a.vmEnd then mm.mprotectFixupEnd E x prev start newflags
  else mm.mprotectFixupMiddle E x prev start end' newflags

/-- `change_protection`, which has no part in the areas. -/
def changeProtection (start end' : ℕ) : Except Fault Unit :=
  if end' ≤ start then .error .bug else .ok ()

/-- `mprotect_fixup`: the error, the value of `*pprev`, and the address space. -/
def mprotectFixup (x : ℕ) (prev : Option ℕ) (start end' : ℕ) (newflags : Flags) :
    Except Fault (ℕ × Option ℕ × Mm) := do
  if newflags = (mm.vma x).vmFlags then
    return (0, some x, mm)
  let (error, prev, mm) ← mm.mprotectSplit E x prev start end' newflags
  if error ≠ 0 then
    return (error, prev, mm)
  changeProtection start end'
  return (0, prev, mm)

/-- The end of `sys_mprotect`: the last area of the range and the one after it may be merged. -/
def mprotectMergeNext (prev next : Option ℕ) : Except Fault (ℕ × Mm) :=
  match next with
  | none => .ok (0, mm)
  | some n =>
    match prev with
    | none => .error .wild
    | some p =>
      if (mm.vma p).vmEnd = (mm.vma n).vmStart ∧ mm.canVmaMerge n (mm.vma p).vmFlags = true ∧
          (mm.vma p).vmFile = none ∧ (mm.vma p).vmFlags.has vmShared = false then
        .ok (0, ((mm.setEnd p (mm.vma n).vmEnd).vmaUnlink n p).decMapCount)
      else .ok (0, mm)

/-- `PROT_READ | PROT_WRITE | PROT_EXEC`. -/
def protMask : Flags := vmRead ||| vmWrite ||| vmExec

/-- The loop of `sys_mprotect`. -/
def mprotectLoop (prot : Flags) (end' : ℕ) : (fuel : ℕ) → Mm → (x : ℕ) → (prev : Option ℕ) →
    (nstart : ℕ) → Except Fault (ℕ × Mm)
  | 0, _, _, _, _ => .error .hang
  | fuel + 1, mm, x, prev, nstart => do
    let a := mm.vma x
    let newflags := prot ||| (a.vmFlags &&& ~~~protMask)
    if (newflags &&& ~~~(newflags >>> 4)) &&& 0xf ≠ 0 then
      return (err eAcces, mm)
    if end' < a.vmEnd then
      let (e, _, mm) ← mm.mprotectFixup E x prev nstart end' newflags
      return (e, mm)
    let next := Chain.next x mm.mmap
    let (e, prev, mm) ← mm.mprotectFixup E x prev nstart a.vmEnd newflags
    if e ≠ 0 then
      return (e, mm)
    if a.vmEnd = end' then
      mm.mprotectMergeNext prev next
    else
      match next with
      | none => return (err eNomem, mm)
      | some y =>
        if (mm.vma y).vmStart ≠ a.vmEnd then
          return (err eNomem, mm)
        mprotectLoop prot end' fuel mm y prev a.vmEnd

def sysMprotect (start len : ℕ) (prot : Flags) : Except Fault (ℕ × Mm) := do
  if start % pageSize ≠ 0 then
    return (err eInval, mm)
  let end' := add32 start (pageAlign len)
  if end' < start then
    return (err eInval, mm)
  if prot &&& ~~~protMask ≠ 0 then
    return (err eInval, mm)
  if end' = start then
    return (0, mm)
  match ← mm.findVmaPrev start with
  | (none, _) => return (err eNomem, mm)
  | (some x, prev) =>
    if start < (mm.vma x).vmStart then
      return (err eNomem, mm)
    mprotectLoop E prot end' (mm.mmap.length + 1) mm x prev start

/-! ## `do_mlock` -/

/-- `mlock_fixup_all`, `mlock_fixup_start`, `mlock_fixup_end` and `mlock_fixup_middle`, as
`mlock_fixup` chooses among them: whether there was memory for it. -/
def mlockSplit (x start end' : ℕ) (newflags : Flags) : Except Fault (Bool × Mm) :=
  let a := mm.vma x
  if start = a.vmStart then
    if end' = a.vmEnd then .ok (true, mm.setVma x { a with vmFlags := newflags })
    else mm.splitStart E x end' newflags
  else if end' = a.vmEnd then do
    let (n, mm) ← mm.splitEnd E x start newflags
    .ok (n.isSome, mm)
  else do
    let (n, mm) ← mm.splitMiddle E x start end' newflags
    .ok (n.isSome, mm)

def mlockFixup (x start end' : ℕ) (newflags : Flags) : Except Fault (ℕ × Mm) := do
  if newflags = (mm.vma x).vmFlags then
    return (0, mm)
  let (done, mm) ← mm.mlockSplit E x start end' newflags
  if done = false then
    return (err eAgain, mm)
  let n := pages (sub32 end' start)
  if newflags.has vmLocked then
    let mm ← mm.makePagesPresent start end'
    return (0, { mm with lockedVm := add32 mm.lockedVm n })
  else
    return (0, { mm with lockedVm := sub32 mm.lockedVm n })

/-- `vma->vm_flags | VM_LOCKED`, or the flags without `VM_LOCKED`. -/
def lockFlags (on : Bool) (flags : Flags) : Flags :=
  if on then flags ||| vmLocked else flags &&& ~~~vmLocked

/-- The loop of `do_mlock`. -/
def mlockLoop (on : Bool) (end' : ℕ) : (fuel : ℕ) → Mm → (x nstart : ℕ) → Except Fault (ℕ × Mm)
  | 0, _, _, _ => .error .hang
  | fuel + 1, mm, x, nstart => do
    let a := mm.vma x
    let newflags := lockFlags on a.vmFlags
    if end' ≤ a.vmEnd then
      mm.mlockFixup E x nstart end' newflags
    else
      let next := Chain.next x mm.mmap
      let (e, mm) ← mm.mlockFixup E x nstart a.vmEnd newflags
      if e ≠ 0 then
        return (e, mm)
      match next with
      | none => return (err eNomem, mm)
      | some y =>
        if (mm.vma y).vmStart ≠ a.vmEnd then
          return (err eNomem, mm)
        mlockLoop on end' fuel mm y a.vmEnd

def doMlock (start len : ℕ) (on : Bool) : Except Fault (ℕ × Mm) :=
  if on = true ∧ E.capIpcLock = false then .ok (err ePerm, mm)
  else
    let end' := add32 start (pageAlign len)
    if end' < start then .ok (err eInval, mm)
    else if end' = start then .ok (0, mm)
    else
      match mm.findVma start with
      | (none, mm) => .ok (err eNomem, mm)
      | (some x, mm) =>
        if start < (mm.vma x).vmStart then .ok (err eNomem, mm)
        else mlockLoop E on end' (mm.mmap.length + 1) mm x start

end Mm
end Linux24.Vm
