import Linux24.Ipc.Sem

/-!
# Semaphore sets: the rest of `ipc/sem.c`

A set of semaphores has a queue of operations that could not be done yet, and an undo array for each
process that has asked for one.  Everything is done under the lock of the set, so that a call is one
step up to where it sleeps, and one step from there on.

Who has to look at the queue after a change is `update_queue`, in one pass from the front.  What it
does with an operation that has become possible depends on whether it decreases a semaphore: if it
does, its process is woken up to try again, and the pass ends; if not, the operation is done on the
spot.

A process has at most one undo array for the set and waits for at most one operation at a time, so
that both go by the number of the process, which is also its `pid`.  Removing a set is left out, and
so are the commands of `semctl` that only read.
-/

set_option autoImplicit false

namespace Linux24.Ipc

open Function

def eIntr : ℤ := 4
def e2Big : ℤ := 7
def eNomem : ℤ := 12
def eAcces : ℤ := 13
def eFault : ℤ := 14
def eInval : ℤ := 22
def eFbig : ℤ := 27
def semopmFast : ℕ := 64

/-- `struct sem_queue`, with what the sleeping `sys_semop` keeps besides it. -/
structure SemQueue where
  /-- The process: `sleeper`, `pid` and, if one of the operations needs it, `undo`. -/
  sleeper : ℕ
  sops : List Sembuf
  /-- `alter`: whether one of the operations decreases a semaphore. -/
  alter : Bool
  /-- The variable `alter` of `sys_semop`: whether one of the operations changes a semaphore. -/
  changes : Bool
  status : ℤ

/-- `struct sem_array`. -/
structure SemSet where
  /-- `sem_nsems`. -/
  nsems : ℕ
  semBase : ℕ → Sem
  /-- The undo array of each process that has one. -/
  undo : ℕ → Option (ℕ → ℤ)
  /-- `sem_pending`. -/
  pending : List SemQueue
  semOtime : ℕ
  semCtime : ℕ

/-- What a call depends on besides the set. -/
structure SemEnv where
  /-- `sc_semopm`. -/
  semopm : ℕ
  /-- Whether there is memory for the operations. -/
  memory : Bool
  /-- Whether there is memory for an undo array. -/
  undoMemory : Bool
  /-- Whether `copy_from_user` succeeds. -/
  copied : Bool
  /-- Whether `ipcperms` allows it. -/
  allowed : Bool
  /-- `CURRENT_TIME`. -/
  now : ℕ

/-- A call has come to an end, or it sleeps. -/
inductive Outcome
  | returned (error : ℤ)
  | sleeps
deriving DecidableEq, Repr

namespace SemSet

/-! ## `try_atomic_semop` and `update_queue` -/

/-- The part of the set that `try_atomic_semop` works on, for a process. -/
def array (s : SemSet) (p : ℕ) : SemArray := ⟨s.semBase, (s.undo p).getD fun _ ↦ 0, s.semOtime⟩

/-- Writing it back. -/
def setArray (s : SemSet) (p : ℕ) (a : SemArray) : SemSet :=
  { s with
    semBase := a.semBase
    undo := update s.undo p ((s.undo p).map fun _ ↦ a.semadj)
    semOtime := a.semOtime }

/-- `try_atomic_semop`, for a process. -/
def tryAtomicSemop (s : SemSet) (p : ℕ) (sops : List Sembuf) (doUndo : Bool) (now : ℕ) :
    ℤ × SemSet :=
  let (result, a) := (s.array p).tryAtomicSemop sops (BitVec.ofNat 32 p) doUndo now
  (result, s.setArray p a)

/-- The loop of `update_queue`: what is left of the queue, and the processes that have been taken
off it with their `status`. -/
def updateLoop (now : ℕ) : List SemQueue → SemSet → List SemQueue × List (ℕ × ℤ) × SemSet
  | [], s => ([], [], s)
  | q :: rest, s =>
    if q.status = 1 then
      let (left, woken, s) := updateLoop now rest s
      (q :: left, woken, s)
    else
      let (error, s) := s.tryAtomicSemop q.sleeper q.sops q.alter now
      if error = 0 ∧ q.alter = true then ({ q with status := 1 } :: rest, [], s)
      else
        let (left, woken, s) := updateLoop now rest s
        if error ≤ 0 then (left, (q.sleeper, error) :: woken, s) else (q :: left, woken, s)

/-- `update_queue`, with the processes that have been taken off the queue. -/
def updateQueue (s : SemSet) (now : ℕ) : List (ℕ × ℤ) × SemSet :=
  let (left, woken, s) := updateLoop now s.pending s
  (woken, { s with pending := left })

/-- `if (alter) update_queue(sma)`. -/
def updateIf (s : SemSet) (changes : Bool) (now : ℕ) : List (ℕ × ℤ) × SemSet :=
  if changes then s.updateQueue now else ([], s)

/-! ## `sys_semop` -/

/-- `decrease`. -/
def decreases (sops : List Sembuf) : Bool := sops.any fun sop ↦ decide (sop.semOp < 0)

/-- `alter`. -/
def alters (sops : List Sembuf) : Bool := sops.any fun sop ↦ decide (sop.semOp ≠ 0)

def allocUndo (s : SemSet) (p : ℕ) : SemSet :=
  { s with undo := update s.undo p (some fun _ ↦ 0) }

/-- `append_to_queue` or `prepend_to_queue`. -/
def enqueue (s : SemSet) (p : ℕ) (sops : List Sembuf) : SemSet :=
  let q : SemQueue := ⟨p, sops, decreases sops, alters sops, -eIntr⟩
  { s with pending := if alters sops then s.pending ++ [q] else q :: s.pending }

/-- `remove_from_queue`. -/
def dequeue (s : SemSet) (p : ℕ) : SemSet :=
  { s with pending := s.pending.filter fun q ↦ decide (q.sleeper ≠ p) }

/-- `sys_semop` from where there is an undo array if one is needed. -/
def semopFrom (s : SemSet) (p : ℕ) (sops : List Sembuf) (now : ℕ) :
    Outcome × List (ℕ × ℤ) × SemSet :=
  let (error, s) := s.tryAtomicSemop p sops false now
  if error ≤ 0 then (.returned error, s.updateIf (alters sops) now)
  else (.sleeps, [], s.enqueue p sops)

/-- `sys_semop` up to where it sleeps. -/
def sysSemop (s : SemSet) (E : SemEnv) (p : ℕ) (sops : List Sembuf) :
    Outcome × List (ℕ × ℤ) × SemSet :=
  if sops.length < 1 then (.returned (-eInval), [], s)
  else if E.semopm < sops.length then (.returned (-e2Big), [], s)
  else if semopmFast < sops.length ∧ E.memory = false then (.returned (-eNomem), [], s)
  else if E.copied = false then (.returned (-eFault), [], s)
  else if sops.any fun sop ↦ decide (s.nsems ≤ sop.semNum) then (.returned (-eFbig), [], s)
  else if E.allowed = false then (.returned (-eAcces), [], s)
  else if sops.any Sembuf.undo ∧ (s.undo p).isNone then
    if E.undoMemory = false then (.returned (-eNomem), [], s)
    else (s.allocUndo p).semopFrom p sops E.now
  else s.semopFrom p sops E.now

/-- `queue.status = -EINTR`, where the queue is that of the process. -/
def again (p : ℕ) (q : SemQueue) : SemQueue :=
  if q.sleeper = p then { q with status := -eIntr } else q

/-- `sys_semop` after it has slept, for an operation that is on the queue. -/
def semopWake (s : SemSet) (q : SemQueue) (now : ℕ) : Outcome × List (ℕ × ℤ) × SemSet :=
  if q.status = 1 then
    let (error, s) := s.tryAtomicSemop q.sleeper q.sops false now
    if error ≤ 0 then (.returned error, (s.dequeue q.sleeper).updateIf q.changes now)
    else (.sleeps, [], { s with pending := s.pending.map (again q.sleeper) })
  else (.returned q.status, (s.dequeue q.sleeper).updateIf q.changes now)

/-! ## `semctl` and `sem_exit` -/

/-- `semctl` with `SETVAL`, by the process `p`. -/
def semctlSetval (s : SemSet) (allowed : Bool) (p semnum : ℕ) (val : ℤ) (now : ℕ) :
    ℤ × List (ℕ × ℤ) × SemSet :=
  if allowed = false then (-eAcces, [], s)
  else if s.nsems ≤ semnum then (-eInval, [], s)
  else if semvmx < val ∨ val < 0 then (-eRange, [], s)
  else
    let s := { s with
      undo := fun r ↦ (s.undo r).map fun semadj ↦ update semadj semnum 0
      semBase := update s.semBase semnum ⟨val, BitVec.ofNat 32 p⟩
      semCtime := now }
    (0, s.updateQueue now)

/-- `semctl` with `SETALL`.  `semIo` is what has been copied from the user. -/
def semctlSetall (s : SemSet) (E : SemEnv) (semIo : ℕ → BitVec 16) : ℤ × List (ℕ × ℤ) × SemSet :=
  if E.allowed = false then (-eAcces, [], s)
  else if 256 < s.nsems ∧ E.memory = false then (-eNomem, [], s)
  else if E.copied = false then (-eFault, [], s)
  else if ∃ i < s.nsems, semvmx < (semIo i).toNat then (-eRange, [], s)
  else
    let s := { s with
      semBase := fun i ↦
        if i < s.nsems then { s.semBase i with semval := (semIo i).toNat } else s.semBase i
      undo := fun r ↦ (s.undo r).map fun (semadj : ℕ → ℤ) i ↦ if i < s.nsems then 0 else semadj i
      semCtime := E.now }
    (0, s.updateQueue E.now)

/-- The value of a semaphore once an adjustment has been made at the exit of a process. -/
def adjusted (semval semadj : ℤ) : ℤ :=
  let v := toInt (semval + semadj)
  if v < 0 then 0 else v

/-- `sem_exit`, as far as this set is concerned. -/
def semExit (s : SemSet) (p : ℕ) (now : ℕ) : List (ℕ × ℤ) × SemSet :=
  let s := s.dequeue p
  match s.undo p with
  | none => ([], s)
  | some semadj =>
    let s := { s with
      undo := update s.undo p none
      semBase := fun i ↦
        if i < s.nsems then ⟨adjusted (s.semBase i).semval (semadj i), BitVec.ofNat 32 p⟩
        else s.semBase i
      semOtime := now }
    s.updateQueue now

end SemSet

end Linux24.Ipc
