import Linux24.Lib.Machine

/-!
# File locks: `fs/locks.c`

All locks of a file, of three kinds, are on one list that starts at `inode->i_flock`.  The
structures are numbered, `State.lock` is what is in them, and the list of a file is the list of
their numbers, so that a structure can be changed through any pointer to it.  A structure is never
used again after it has been freed.

A caller that has to wait puts its own structure on `blocked_list`, with `fl_next` set to the lock
that is in its way; that is a pair here.  The block list of a lock is those of the pairs that have
it.  Everything runs under the kernel lock, so that a call is one step up to where it sleeps, and
one step from there to where it sleeps again.

This file has what is common, `posix_lock_file` and `locks_remove_posix`.  The callbacks
`fl_insert`, `fl_remove` and `fl_notify` and the field `fl_u`, which are for network file systems,
are left out, and so is `file_lock_list`, which is only read for `/proc/locks`.
-/

set_option autoImplicit false

namespace Linux24.Locks

open Function

/-! ## Locks -/

/-- `F_RDLCK`, `F_WRLCK` and `F_UNLCK`. -/
inductive LockType
  | rdlck
  | wrlck
  | unlck
deriving DecidableEq, Repr

/-- `FL_POSIX`, `FL_FLOCK` and `FL_LEASE`. -/
inductive Kind
  | posix
  | flock
  | lease
deriving DecidableEq, Repr

/-- `struct file_lock`. -/
structure FileLock where
  flOwner : ℕ
  flPid : ℕ
  flFile : ℕ
  flFlags : Kind
  /-- `fl_type` without `F_INPROGRESS`. -/
  flType : LockType
  /-- `F_INPROGRESS`. -/
  inProgress : Bool
  flStart : ℤ
  flEnd : ℤ
  flBreakTime : ℕ
  /-- `LOCK_MAND`, with `LOCK_READ` and `LOCK_WRITE`; the rest of `fl_type` is then `F_RDLCK`. -/
  mand : Option (Bool × Bool) := none
deriving DecidableEq, Repr

def offsetMax : ℤ := 9223372036854775807

/-- Arithmetic on `loff_t` wraps around. -/
def loff (x : ℤ) : ℤ := (x + 9223372036854775808) % 18446744073709551616 - 9223372036854775808

namespace FileLock

/-- What `locks_same_owner` compares. -/
def who (fl : FileLock) : ℕ × ℕ := (fl.flOwner, fl.flPid)

def locksOverlap (fl₁ fl₂ : FileLock) : Bool :=
  decide (fl₂.flStart ≤ fl₁.flEnd ∧ fl₁.flStart ≤ fl₂.flEnd)

def locksSameOwner (fl₁ fl₂ : FileLock) : Bool := decide (fl₁.who = fl₂.who)

def locksConflict (caller sys : FileLock) : Bool :=
  match caller.flType with
  | .rdlck => decide (sys.flType = .wrlck)
  | .wrlck => true
  | .unlck => false

def posixLocksConflict (caller sys : FileLock) : Bool :=
  if sys.flFlags ≠ .posix ∨ caller.locksSameOwner sys then false
  else if !caller.locksOverlap sys then false
  else caller.locksConflict sys

def locksCopyLock (new fl : FileLock) : FileLock := { fl with flBreakTime := new.flBreakTime }

end FileLock

/-! ## Blocking -/

/-- All locks. -/
structure State where
  /-- What is in the structures. -/
  lock : ℕ → FileLock
  /-- `i_flock` of each file. -/
  iFlock : ℕ → List ℕ
  /-- `blocked_list`: the structure of the waiter and its `fl_next`. -/
  blockedList : List (ℕ × ℕ)
  /-- The structures from here on have not been used. -/
  tick : ℕ

/-- What can go wrong. -/
inductive Fault
  /-- A loop does not end. -/
  | hang
deriving DecidableEq, Repr

/-- The errors of the calls, `-ERESTARTSYS` for a signal. -/
inductive Errno
  | eagain
  | edeadlk
  | enolck
  | erestartsys
  | einval
  | eacces
  | enomem
deriving DecidableEq, Repr

/-- A call has come to an end, or it sleeps. -/
inductive Outcome
  | returned (error : Option Errno)
  | sleeps
deriving DecidableEq, Repr

namespace State

variable (s : State)

/-- Writing to a structure. -/
def setLock (i : ℕ) (fl : FileLock) : State := { s with lock := update s.lock i fl }

def locksDeleteBlock (waiter : ℕ) : State :=
  { s with blockedList := s.blockedList.filter fun e ↦ decide (e.1 ≠ waiter) }

def locksInsertBlock (blocker waiter : ℕ) : State :=
  let s := s.locksDeleteBlock waiter
  { s with blockedList := (waiter, blocker) :: s.blockedList }

/-- `locks_wake_up_blocks` without waiting. -/
def locksWakeUpBlocks (blocker : ℕ) : State :=
  { s with blockedList := s.blockedList.filter fun e ↦ decide (e.2 ≠ blocker) }

/-- The loop of `posix_locks_deadlock`, with the owner that is looked for on `blocked_list`. -/
def deadlockLoop (caller : ℕ × ℕ) : (fuel : ℕ) → (blocked : ℕ × ℕ) → Except Fault Bool
  | 0, _ => .error .hang
  | fuel + 1, blocked =>
    if caller = blocked then .ok true
    else
      match s.blockedList.find? fun e ↦ decide ((s.lock e.1).who = blocked) with
      | none => .ok false
      | some e => deadlockLoop caller fuel (s.lock e.2).who

/-- `posix_locks_deadlock`.  If it looks at more owners than there are on the list, it goes
round. -/
def posixLocksDeadlock (callerFl blockFl : ℕ) : Except Fault Bool :=
  s.deadlockLoop (s.lock callerFl).who (s.blockedList.length + 1) (s.lock blockFl).who

end State

/-! ## `posix_lock_file` -/

/-- The local variables of `posix_lock_file` while it goes through the locks of the caller. -/
structure Work where
  st : State
  caller : ℕ
  left : Option ℕ
  right : Option ℕ
  added : Bool

/-- How one round of the loop ends. -/
inductive Round
  /-- The label `next_lock`. -/
  | next (w : Work)
  /-- `locks_delete_lock(before, 0)` and `continue`. -/
  | delete (w : Work)
  /-- `break`. -/
  | stop (w : Work)

namespace Work

variable (w : Work)

/-- Both locks become what they cover together. -/
def merge (fl : ℕ) : Work :=
  let c := w.st.lock w.caller
  let f := w.st.lock fl
  let start := if c.flStart < f.flStart then c.flStart else f.flStart
  let stop := if f.flEnd < c.flEnd then c.flEnd else f.flEnd
  let st := w.st.setLock fl { f with flStart := start, flEnd := stop }
  { w with st := st.setLock w.caller { c with flStart := start, flEnd := stop } }

/-- The old lock becomes the new one. -/
def replace (fl : ℕ) : Work :=
  let c := w.st.lock w.caller
  let f := w.st.lock fl
  let st := w.st.locksWakeUpBlocks fl
  let f := { f with flStart := c.flStart, flEnd := c.flEnd, flType := c.flType }
  { w with st := st.setLock fl f, caller := fl, added := true }

/-- `locks_delete_lock`, apart from the list of the file. -/
def drop (fl : ℕ) : Work := { w with st := w.st.locksWakeUpBlocks fl }

/-- A lock of the same type. -/
def roundSame (fl : ℕ) : Round :=
  let c := w.st.lock w.caller
  let f := w.st.lock fl
  if f.flEnd < loff (c.flStart - 1) then .next w
  else if loff (c.flEnd + 1) < f.flStart then .stop w
  else if w.added then .delete ((w.merge fl).drop fl)
  else .next { w.merge fl with caller := fl, added := true }

/-- A lock of another type. -/
def roundOther (fl : ℕ) : Round :=
  let c := w.st.lock w.caller
  let f := w.st.lock fl
  if f.flEnd < c.flStart then .next w
  else if c.flEnd < f.flStart then .stop w
  else
    let w := { w with
      added := if c.flType = .unlck then true else w.added
      left := if f.flStart < c.flStart then some fl else w.left }
    if c.flEnd < f.flEnd then .stop { w with right := some fl }
    else if c.flStart ≤ f.flStart then
      if w.added then .delete (w.drop fl) else .next (w.replace fl)
    else .next w

/-- One round of the loop. -/
def round (fl : ℕ) : Round :=
  if (w.st.lock w.caller).flType = (w.st.lock fl).flType then w.roundSame fl else w.roundOther fl

end Work

/-- The loop over the locks of the caller.  `pre` is the list up to `before`, and what is returned
is the list up to `before` and from there on. -/
def scanLocks : (rest pre : List ℕ) → Work → List ℕ × List ℕ × Work
  | [], pre, w => (pre, [], w)
  | fl :: rest, pre, w =>
    if (w.st.lock w.caller).locksSameOwner (w.st.lock fl) then
      match w.round fl with
      | .next w => scanLocks rest (pre ++ [fl]) w
      | .delete w => scanLocks rest pre w
      | .stop w => (pre, fl :: rest, w)
    else (pre, fl :: rest, w)

namespace Work

variable (w : Work)

/-- The new lock, if no old one has become it: the locks that are inserted at `before`. -/
def insertNew (newFl : ℕ) : List ℕ × Work :=
  let new := (w.st.lock newFl).locksCopyLock (w.st.lock w.caller)
  if w.added then ([], w) else ([newFl], { w with st := w.st.setLock newFl new })

/-- A lock that the new one breaks in two. -/
def splitRight (newFl2 : ℕ) (mid : List ℕ) : List ℕ × Work :=
  match w.right with
  | none => (mid, w)
  | some r =>
    let new := (w.st.lock newFl2).locksCopyLock (w.st.lock r)
    if w.left = some r then
      (newFl2 :: mid, { w with st := w.st.setLock newFl2 new, left := some newFl2 })
    else (mid, w)

/-- Cutting off the beginning of the lock on the right. -/
def trimRight : State :=
  match w.right with
  | none => w.st
  | some r =>
    let start := loff ((w.st.lock w.caller).flEnd + 1)
    (w.st.setLock r { w.st.lock r with flStart := start }).locksWakeUpBlocks r

/-- Cutting off the end of the lock on the left. -/
def trimLeft : State :=
  match w.left with
  | none => w.st
  | some l =>
    let stop := loff ((w.st.lock w.caller).flStart - 1)
    (w.st.setLock l { w.st.lock l with flEnd := stop }).locksWakeUpBlocks l

/-- What `posix_lock_file` does after the loop. -/
def finish (newFl newFl2 : ℕ) (pre rest : List ℕ) : List ℕ × State :=
  if w.added = false ∧ (w.st.lock w.caller).flType = .unlck then (pre ++ rest, w.st)
  else
    let (mid, w) := w.insertNew newFl
    let (mid, w) := w.splitRight newFl2 mid
    let w := { w with st := w.trimRight }
    (pre ++ mid ++ rest, w.trimLeft)

end Work

namespace State

variable (s : State)

/-- The first lock that is in the way of the caller. -/
def blocking (inode caller : ℕ) : Option ℕ :=
  (s.iFlock inode).find? fun fl ↦ (s.lock caller).posixLocksConflict (s.lock fl)

/-- The locks that come before those of the caller are skipped. -/
def skips (caller fl : ℕ) : Bool :=
  !(decide ((s.lock fl).flFlags = .posix) && (s.lock caller).locksSameOwner (s.lock fl))

/-- `posix_lock_file` from where no lock is in the way.  The two structures it may need come after
that of the caller. -/
def applyLock (inode caller : ℕ) : State :=
  let pre := (s.iFlock inode).takeWhile (s.skips caller)
  let rest := (s.iFlock inode).dropWhile (s.skips caller)
  let (pre, rest, w) := scanLocks rest pre
    { st := s, caller := caller, left := none, right := none, added := false }
  let (list, s) := w.finish (caller + 1) (caller + 2) pre rest
  { s with iFlock := update s.iFlock inode list }

/-- `posix_lock_file` from the label `repeat` on. -/
def posixRepeat (inode caller : ℕ) (wait : Bool) : Except Fault (Outcome × State) :=
  if (s.lock caller).flType = .unlck then .ok (.returned none, s.applyLock inode caller)
  else
    match s.blocking inode caller with
    | none => .ok (.returned none, s.applyLock inode caller)
    | some fl =>
      if wait = false then .ok (.returned (some .eagain), s)
      else
        match s.posixLocksDeadlock caller fl with
        | .error e => .error e
        | .ok true => .ok (.returned (some .edeadlk), s)
        | .ok false => .ok (.sleeps, s.locksInsertBlock fl caller)

/-- What is asked for. -/
structure Request where
  owner : ℕ
  pid : ℕ
  file : ℕ
  type : LockType
  start : ℤ
  stop : ℤ

/-- The structure with the request in it. -/
def Request.fileLock (r : Request) : FileLock where
  flOwner := r.owner
  flPid := r.pid
  flFile := r.file
  flFlags := .posix
  flType := r.type
  inProgress := false
  flStart := r.start
  flEnd := r.stop
  flBreakTime := 0

/-- `posix_lock_file`.  The structure of the caller is `s.tick`, and `memory` is whether there is
memory for two more. -/
def posixLockFile (inode : ℕ) (r : Request) (wait memory : Bool) : Except Fault (Outcome × State) :=
  let caller := s.tick
  let s := { s.setLock caller r.fileLock with tick := caller + 3 }
  if memory then s.posixRepeat inode caller wait else .ok (.returned (some .enolck), s)

/-- `posix_lock_file` after `locks_block_on` has slept. -/
def posixWake (inode caller : ℕ) (signal : Bool) : Except Fault (Outcome × State) :=
  let s := s.locksDeleteBlock caller
  if signal then .ok (.returned (some .erestartsys), s) else s.posixRepeat inode caller true

/-- The locks `locks_remove_posix` is to remove: the process is not compared. -/
def isPosixOf (owner fl : ℕ) : Bool :=
  decide ((s.lock fl).flFlags = .posix ∧ (s.lock fl).flOwner = owner)

/-- `locks_remove_posix`, for a file that is closed. -/
def locksRemovePosix (inode owner : ℕ) : State :=
  let woken := ((s.iFlock inode).filter (s.isPosixOf owner)).foldl locksWakeUpBlocks s
  let kept := (s.iFlock inode).filter fun fl ↦ !s.isPosixOf owner fl
  { woken with iFlock := update s.iFlock inode kept }

end State

end Linux24.Locks
