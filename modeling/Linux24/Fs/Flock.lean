import Linux24.Fs.Locks

/-!
# Locks on whole files, and leases: the rest of `fs/locks.c`

`flock_lock_file` keeps its locks at the head of the list of the file, `fcntl_setlease` keeps leases
there, and POSIX locks come after whatever is there.  Each of the loops below ends at the first
entry of another kind.

A caller of `flock_lock_file` can sleep in two places.  One is `locks_block_on`, as in
`posix_lock_file`.  The other is where it changes the type of a lock it has: the old lock is taken
off the list, and those who wait for it are woken up and given the processor until all of them have
gone.  `FlockOutcome` says which.

The time is a number of ticks that does not wrap around.  What `fcntl_setlease` asks about the
process and the file, and whether there is memory, are parameters.
-/

set_option autoImplicit false

namespace Linux24.Locks

/-- What `flock_translate_cmd` returns; `LOCK_MAND` comes with `LOCK_READ` and `LOCK_WRITE`. -/
inductive FlockType
  | lock (type : LockType)
  | mand (read write : Bool)
deriving DecidableEq, Repr

def FileLock.flockLocksConflict (caller sys : FileLock) : Bool :=
  if sys.flFlags ≠ .flock ∨ caller.flFile = sys.flFile then false
  else if caller.mand ≠ none ∨ sys.mand ≠ none then false
  else caller.locksConflict sys

namespace State

variable (s : State)

/-- Changing the list of a file. -/
def setList (inode : ℕ) (l : List ℕ) : State :=
  { s with iFlock := Function.update s.iFlock inode l }

/-- The locks that the loops of `flock_lock_file` go through. -/
def flocks (inode : ℕ) : List ℕ :=
  (s.iFlock inode).takeWhile fun fl ↦ decide ((s.lock fl).flFlags = .flock)

/-- The leases that the loops over leases go through. -/
def leases (inode : ℕ) : List ℕ :=
  (s.iFlock inode).takeWhile fun fl ↦ decide ((s.lock fl).flFlags = .lease)

/-- Somebody waits for the lock. -/
def isBlocking (fl : ℕ) : Bool := s.blockedList.any fun e ↦ decide (e.2 = fl)

/-! ## `flock_lock_file` -/

/-- Where `flock_lock_file` has come to. -/
inductive FlockOutcome
  | returned (error : Option Errno)
  /-- It sleeps in `locks_block_on`. -/
  | blocks
  /-- It sleeps in `locks_wake_up_blocks`, with the lock that it has taken off the list. -/
  | drains (old : ℕ)
deriving DecidableEq, Repr

/-- `flock_lock_file` from the label `repeat` on. -/
def flockRepeat (inode newFl : ℕ) (wait : Bool) : FlockOutcome × State :=
  match (s.flocks inode).find? fun fl ↦ (s.lock newFl).flockLocksConflict (s.lock fl) with
  | some fl =>
    if wait then (.blocks, s.locksInsertBlock fl newFl) else (.returned (some .eagain), s)
  | none => (.returned none, s.setList inode (newFl :: s.iFlock inode))

/-- The lock of the file `file` that the search of `flock_lock_file` finds. -/
def flockOf (inode file : ℕ) : Option ℕ :=
  (s.flocks inode).find? fun fl ↦ decide ((s.lock fl).flFile = file)

/-- `flock_lock_file` from the label `search` on, for a lock. -/
def flockSearch (inode newFl : ℕ) (wait : Bool) : (fuel : ℕ) → State →
    Except Fault (FlockOutcome × State)
  | 0, _ => .error .hang
  | fuel + 1, s =>
    match s.flockOf inode (s.lock newFl).flFile with
    | none => .ok (s.flockRepeat inode newFl wait)
    | some fl =>
      if (s.lock newFl).flType = (s.lock fl).flType ∧ (s.lock newFl).mand = (s.lock fl).mand then
        .ok (.returned none, s)
      else
        let s := s.setList inode ((s.iFlock inode).erase fl)
        if s.isBlocking fl then .ok (.drains fl, s) else flockSearch inode newFl wait fuel s

/-- `flock_lock_file` from the label `search` on, with steps enough to delete every lock. -/
def flockFrom (inode newFl : ℕ) (wait : Bool) : Except Fault (FlockOutcome × State) :=
  flockSearch inode newFl wait ((s.iFlock inode).length + 1) s

/-- `flock_lock_file` for `F_UNLCK`. -/
def flockUnlock (inode file : ℕ) : State :=
  match s.flockOf inode file with
  | none => s
  | some fl =>
    if (s.lock fl).flType = .unlck then s
    else (s.setList inode ((s.iFlock inode).erase fl)).locksWakeUpBlocks fl

def flockMakeLock (file pid : ℕ) (type : FlockType) : FileLock where
  flOwner := 0
  flPid := pid
  flFile := file
  flFlags := .flock
  flType := match type with
    | .lock type => type
    | .mand _ _ => .rdlck
  mand := match type with
    | .lock _ => none
    | .mand read write => some (read, write)
  inProgress := false
  flStart := 0
  flEnd := offsetMax
  flBreakTime := 0

/-- `flock_lock_file`.  The new structure is `s.tick`. -/
def flockLockFile (inode file pid : ℕ) (type : FlockType) (wait memory : Bool) :
    Except Fault (FlockOutcome × State) :=
  if type = .lock .unlck then .ok (.returned none, s.flockUnlock inode file)
  else if memory = false then .ok (.returned (some .enolck), s)
  else
    let newFl := s.tick
    let s := { s.setLock newFl (flockMakeLock file pid type) with tick := newFl + 1 }
    s.flockFrom inode newFl wait

/-- `flock_lock_file` after `locks_block_on` has slept. -/
def flockWake (inode newFl : ℕ) (signal : Bool) : FlockOutcome × State :=
  let s := s.locksDeleteBlock newFl
  if signal then (.returned (some .erestartsys), s) else s.flockRepeat inode newFl true

/-- `flock_lock_file` when it has the processor again in `locks_wake_up_blocks`. -/
def flockDrain (inode newFl old : ℕ) (wait : Bool) : Except Fault (FlockOutcome × State) :=
  if s.isBlocking old then .ok (.drains old, s) else s.flockFrom inode newFl wait

/-! ## Leases -/

/-- What `lease_modify` does to the structure: the type is changed, and nobody waits any more. -/
def leaseAssign (fl : ℕ) (type : LockType) : State :=
  (s.setLock fl { s.lock fl with flType := type, inProgress := false }).locksWakeUpBlocks fl

/-- `lease_modify`, for a type that there is. -/
def leaseModify (inode fl : ℕ) (type : LockType) : State :=
  let s := s.leaseAssign fl type
  if type = .unlck then s.setList inode ((s.iFlock inode).erase fl) else s

/-- The loop of `time_out_leases`: what becomes of the list from `before` on. -/
def timeOutLoop (now : ℕ) : List ℕ → State → List ℕ × State
  | [], s => ([], s)
  | fl :: rest, s =>
    let f := s.lock fl
    if f.flFlags = .lease ∧ f.inProgress = true then
      if f.flBreakTime = 0 ∨ now < f.flBreakTime then
        let (rest, s) := timeOutLoop now rest s
        (fl :: rest, s)
      else
        let (rest, s) := timeOutLoop now rest (s.leaseAssign fl f.flType)
        (if f.flType = .unlck then rest else fl :: rest, s)
    else (fl :: rest, s)

def timeOutLeases (inode now : ℕ) : State :=
  let (list, s) := timeOutLoop now (s.iFlock inode) s
  s.setList inode list

/-- What `fcntl_setlease` is called with, and what it asks. -/
structure LeaseRequest where
  file : ℕ
  owner : ℕ
  pid : ℕ
  /-- The type, if there is one with this number. -/
  arg : Option LockType
  /-- The file is the caller's, or the caller has `CAP_LEASE`. -/
  allowed : Bool
  /-- `S_ISREG`. -/
  regular : Bool
  /-- `d_count` or `i_count` is greater than one. -/
  shared : Bool
  /-- `leases_enable`. -/
  enabled : Bool
  /-- Whether there is memory for the lease. -/
  memory : Bool
  /-- Whether `fasync_helper` succeeds. -/
  fasync : Bool

/-- `lease_alloc`, for a type that there is. -/
def leaseAlloc (file owner pid : ℕ) (type : LockType) : FileLock where
  flOwner := owner
  flPid := pid
  flFile := file
  flFlags := .lease
  flType := type
  inProgress := false
  flStart := 0
  flEnd := offsetMax
  flBreakTime := 0

/-- The end of `fcntl_setlease`: a new lease, after the leases there are. -/
def leaseInsert (inode : ℕ) (r : LeaseRequest) (type : LockType) : Option Errno × State :=
  if type = .unlck then (none, s)
  else if r.enabled = false then (some .einval, s)
  else if r.memory = false then (some .enomem, s)
  else if r.fasync = false then (some .enomem, s)
  else
    let fl := s.tick
    let before := s.leases inode
    let after := (s.iFlock inode).drop before.length
    let s := { s.setLock fl (leaseAlloc r.file r.owner r.pid type) with tick := fl + 1 }
    (none, s.setList inode (before ++ fl :: after))

/-- The lease of the file that `fcntl_setlease` finds: the last one. -/
def leaseOf (inode file : ℕ) : Option ℕ :=
  (s.leases inode).reverse.find? fun fl ↦ decide ((s.lock fl).flFile = file)

/-- How many leases of others are being revoked for writing, and how many are not. -/
def leaseCounts (inode file : ℕ) : ℕ × ℕ :=
  let others := (s.leases inode).filter fun fl ↦ decide ((s.lock fl).flFile ≠ file)
  let revoked (fl : ℕ) : Bool :=
    decide ((s.lock fl).flType = .unlck ∧ (s.lock fl).inProgress = true)
  (others.countP revoked, others.countP fun fl ↦ !revoked fl)

def fcntlSetlease (inode now : ℕ) (r : LeaseRequest) : Option Errno × State :=
  if r.allowed = false then (some .eacces, s)
  else if r.regular = false then (some .einval, s)
  else
    let s := s.timeOutLeases inode now
    if r.arg = some .wrlck ∧ r.shared = true then (some .eagain, s)
    else
      let (wrleases, rdleases) := s.leaseCounts inode r.file
      if (r.arg = some .rdlck ∧ 0 < wrleases) ∨ (r.arg = some .wrlck ∧ 0 < rdleases + wrleases) then
        (some .eagain, s)
      else
        match s.leaseOf inode r.file, r.arg with
        | some _, none => (some .einval, s)
        | some fl, some type => (none, s.leaseModify inode fl type)
        | none, none =>
          (some (if r.enabled = true ∧ r.memory = false then .enomem else .einval), s)
        | none, some type => s.leaseInsert inode r type

/-- What `__get_lease` makes of a lease. -/
structure Future where
  type : LockType
  inProgress : Bool
deriving DecidableEq, Repr

/-- The variable `future` of `__get_lease`, from the first lease. -/
def future (write : Bool) (flock : FileLock) : Option Future :=
  if write then some ⟨.unlck, true⟩
  else if flock.inProgress then some ⟨flock.flType, true⟩
  else if flock.flType = .wrlck then some ⟨.rdlck, true⟩
  else none

/-- A lease that is not yet what it is to become is told so. -/
def breakLease (f : Future) (breakTime fl : ℕ) (s : State) : State :=
  if (s.lock fl).flType = f.type ∧ (s.lock fl).inProgress = f.inProgress then s
  else s.setLock fl { s.lock fl with
    flType := f.type
    inProgress := f.inProgress
    flBreakTime := breakTime }

/-- `__get_lease` up to where it sleeps.  The caller's structure is `s.tick`, and `breakTime` is
`lease_break_time` in ticks. -/
def getLease (inode owner now breakTime : ℕ) (write nonblock memory : Bool) : Outcome × State :=
  let newFl := s.tick
  let s := { s.timeOutLeases inode now with tick := newFl + 1 }
  match s.leases inode with
  | [] => (.returned none, s)
  | flock :: rest =>
    match future write (s.lock flock) with
    | none => (.returned none, s)
    | some f =>
      let mine := (flock :: rest).any fun fl ↦ decide ((s.lock fl).flOwner = owner)
      if memory = false ∧ mine = false ∧ nonblock = false then (.returned (some .enomem), s)
      else
        let time := if breakTime = 0 then 0 else now + breakTime
        let s := (flock :: rest).foldl (fun s fl ↦ breakLease f time fl s) s
        if mine = true ∨ nonblock = true then (.returned (some .eagain), s)
        else (.sleeps, s.locksInsertBlock flock newFl)

/-- `__get_lease` after `locks_block_on_timeout` has slept: `signal` is whether there is one, and
`timeout` whether the time is over. -/
def leaseWake (inode newFl now : ℕ) (signal timeout : Bool) : Outcome × State :=
  let s := s.locksDeleteBlock newFl
  if signal then (.returned (some .erestartsys), s)
  else
    let s := if timeout then s.timeOutLeases inode now else s
    match (s.leases inode).find? fun fl ↦ (s.lock fl).inProgress with
    | none => (.returned none, s)
    | some flock => (.sleeps, s.locksInsertBlock flock newFl)

/-- `locks_remove_flock`, for a file that is closed: the locks and leases of the file. -/
def locksRemoveFlock (inode file : ℕ) : State :=
  let gone (fl : ℕ) : Bool := decide ((s.lock fl).flFile = file ∧ (s.lock fl).flFlags ≠ .posix)
  let woken := ((s.iFlock inode).filter gone).foldl locksWakeUpBlocks s
  woken.setList inode ((s.iFlock inode).filter fun fl ↦ !gone fl)

end State

end Linux24.Locks
