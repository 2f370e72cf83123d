import Mathlib

/-!
# System V semaphores: `try_atomic_semop` of `ipc/sem.c`

A `semop` is a list of operations that take effect together or not at all.  The code applies them
one after the other, directly on the semaphores and on the undo array of the process, and takes them
back from the last one to the first if it cannot go on.

`undoOp_tryOp` is why that works: whatever became of an operation, the iteration of the loop at
`undo` takes back what the iteration of the loop above it has done.  That is not as plain as it
looks, because an operation can be given up at four points, at one of which nothing has been done
yet and at another one half of it; `semop_atomic` is what it comes to for a list of operations.

What the values are kept in matters here: `semval` is an `int` and `semadj` a `short`, and every
assignment says which.
-/

set_option autoImplicit false

namespace Linux24.Ipc

open Function

/-! ## The code -/

/-- A value that is stored in an `int`. -/
def toInt (z : ℤ) : ℤ := Int.bmod z 4294967296

/-- A value that is stored in a `short`. -/
def toShort (z : ℤ) : ℤ := Int.bmod z 65536

def semvmx : ℤ := 32767
def semaem : ℤ := semvmx
def semUndo : BitVec 16 := 0x1000
def ipcNowait : BitVec 16 := 0x800
def eAgain : ℤ := 11
def eRange : ℤ := 34

/-- `struct sembuf`. -/
structure Sembuf where
  semNum : ℕ
  semOp : ℤ
  semFlg : BitVec 16
  /-- `sem_op` is a `short`. -/
  isShort : -32768 ≤ semOp ∧ semOp ≤ 32767

/-- Whether the operation is to be undone when the process exits. -/
def Sembuf.undo (sop : Sembuf) : Bool := decide (sop.semFlg &&& semUndo ≠ 0)

/-- Whether the process would rather not wait. -/
def Sembuf.nowait (sop : Sembuf) : Bool := decide (sop.semFlg &&& ipcNowait ≠ 0)

/-- `sop->sem_flg &= ~SEM_UNDO`. -/
def Sembuf.clearUndo (sop : Sembuf) : Sembuf := { sop with semFlg := sop.semFlg &&& ~~~semUndo }

/-- `struct sem`. -/
structure Sem where
  semval : ℤ
  sempid : BitVec 32
deriving DecidableEq, Repr

/-- What `try_atomic_semop` works on: the semaphores, and the undo array of the process. -/
structure SemArray where
  semBase : ℕ → Sem
  semadj : ℕ → ℤ
  semOtime : ℕ

/-- Why the loop is left. -/
inductive Stop
  /-- The label `would_block`. -/
  | wouldBlock
  /-- The label `out_of_range`. -/
  | outOfRange
deriving DecidableEq, Repr

namespace SemArray

/-- `curr->sempid = (curr->sempid << 16) | pid; curr->semval += sem_op`. -/
def apply (s : SemArray) (sop : Sembuf) (pid : BitVec 32) : SemArray :=
  let curr := s.semBase sop.semNum
  let sem : Sem := ⟨toInt (curr.semval + sop.semOp), curr.sempid <<< 16 ||| pid⟩
  { s with semBase := update s.semBase sop.semNum sem }

/-- An iteration of the loop: whether the loop is left, the operation, of which a flag may have been
cleared, and the semaphores. -/
def tryOp (s : SemArray) (sop : Sembuf) (pid : BitVec 32) : Option Stop × Sembuf × SemArray :=
  if sop.semOp = 0 ∧ (s.semBase sop.semNum).semval ≠ 0 then (some .wouldBlock, sop, s)
  else
    let s := s.apply sop pid
    let undo := s.semadj sop.semNum - sop.semOp
    if sop.undo = true ∧ (undo < -semaem - 1 ∨ semaem < undo) then
      (some .outOfRange, sop.clearUndo, s)
    else
      let s := if sop.undo then
        { s with semadj := update s.semadj sop.semNum (toShort undo) } else s
      if (s.semBase sop.semNum).semval < 0 then (some .wouldBlock, sop, s)
      else if semvmx < (s.semBase sop.semNum).semval then (some .outOfRange, sop, s)
      else (none, sop, s)

/-- The loop.  The operations before the current one are `done`, the last one first. -/
def semopLoop (pid : BitVec 32) : (todo done : List Sembuf) → SemArray →
    Option Stop × List Sembuf × SemArray
  | [], done, s => (none, done, s)
  | sop :: todo, done, s =>
    match s.tryOp sop pid with
    | (none, sop, s) => semopLoop pid todo (sop :: done) s
    | (some stop, sop, s) => (some stop, sop :: done, s)

/-- An iteration of the loop at the label `undo`. -/
def undoOp (s : SemArray) (sop : Sembuf) : SemArray :=
  let curr := s.semBase sop.semNum
  { s with
    semBase := update s.semBase sop.semNum
      ⟨toInt (curr.semval - sop.semOp), curr.sempid.sshiftRight 16⟩
    semadj := if sop.undo then
      update s.semadj sop.semNum (toShort (s.semadj sop.semNum + sop.semOp))
      else s.semadj }

/-- The value of `result` for the operation at which the loop was left. -/
def result (stop : Stop) (done : List Sembuf) : ℤ :=
  match stop with
  | .outOfRange => -eRange
  | .wouldBlock => if done.head?.any Sembuf.nowait then -eAgain else 1

/-- `try_atomic_semop`.  `now` is `CURRENT_TIME`. -/
def tryAtomicSemop (s : SemArray) (sops : List Sembuf) (pid : BitVec 32) (doUndo : Bool)
    (now : ℕ) : ℤ × SemArray :=
  match semopLoop pid sops [] s with
  | (some stop, done, s) => (result stop done, done.foldl undoOp s)
  | (none, done, s) =>
    if doUndo then (0, done.foldl undoOp s) else (0, { s with semOtime := now })

/-! ## Ranges -/

/-- The values are in range, in an array of `n` semaphores. -/
structure InRange (s : SemArray) (n : ℕ) : Prop where
  semval : ∀ i < n, 0 ≤ (s.semBase i).semval ∧ (s.semBase i).semval ≤ semvmx
  semadj : ∀ i < n, -semaem - 1 ≤ s.semadj i ∧ s.semadj i ≤ semaem

end SemArray

theorem toInt_of_range {z : ℤ} (h : -65536 ≤ z) (h' : z ≤ 65536) : toInt z = z := by
  rw [toInt, Int.bmod]
  omega

theorem toShort_of_range {z : ℤ} (h : -semaem - 1 ≤ z) (h' : z ≤ semaem) : toShort z = z := by
  rw [semaem, semvmx] at h h'
  rw [toShort, Int.bmod]
  omega

theorem toInt_toInt (z : ℤ) : toInt (toInt z) = toInt z := Int.bmod_bmod

theorem toShort_toShort (z : ℤ) : toShort (toShort z) = toShort z := Int.bmod_bmod

theorem toInt_add_sub (v k : ℤ) : toInt (toInt (v + k) - k) = toInt v := by
  rw [toInt, toInt, Int.bmod_sub_bmod, add_sub_cancel_right, toInt]

theorem toShort_sub_add (v k : ℤ) : toShort (toShort (v - k) + k) = toShort v := by
  rw [toShort, toShort, Int.bmod_add_bmod, sub_add_cancel, toShort]

theorem Sembuf.undo_clearUndo (sop : Sembuf) : sop.clearUndo.undo = false := by
  have h : sop.semFlg &&& ~~~semUndo &&& semUndo = 0 := by
    rw [BitVec.and_assoc, BitVec.and_comm (~~~semUndo)]
    exact BitVec.and_zero
  rw [Sembuf.undo, Sembuf.clearUndo, h]
  rfl

namespace SemArray

variable {s s' : SemArray} {n : ℕ} {sop : Sembuf} {pid : BitVec 32}

/-! ## Taking back one operation -/

/-- The same values.  Who changed a semaphore last, and when, is not compared. -/
structure Agree (s s' : SemArray) : Prop where
  semval : ∀ i, (s.semBase i).semval = (s'.semBase i).semval
  semadj : ∀ i, s.semadj i = s'.semadj i

theorem Agree.refl (s : SemArray) : s.Agree s := ⟨fun _ ↦ rfl, fun _ ↦ rfl⟩

theorem Agree.trans {s₁ s₂ s₃ : SemArray} (h : s₁.Agree s₂) (h' : s₂.Agree s₃) : s₁.Agree s₃ :=
  ⟨fun i ↦ (h.semval i).trans (h'.semval i), fun i ↦ (h.semadj i).trans (h'.semadj i)⟩

theorem undoOp_semval (s : SemArray) (sop : Sembuf) (i : ℕ) : ((s.undoOp sop).semBase i).semval =
    if i = sop.semNum then toInt ((s.semBase sop.semNum).semval - sop.semOp)
    else (s.semBase i).semval := by
  by_cases hi : i = sop.semNum
  · subst hi
    simp [undoOp]
  · simp [undoOp, hi]

theorem undoOp_semadj (s : SemArray) (sop : Sembuf) (i : ℕ) : (s.undoOp sop).semadj i =
    if sop.undo = true ∧ i = sop.semNum then toShort (s.semadj sop.semNum + sop.semOp)
    else s.semadj i := by
  by_cases hu : sop.undo = true <;> by_cases hi : i = sop.semNum <;>
    simp [undoOp, hu, hi]

theorem Agree.undoOp (h : s.Agree s') (sop : Sembuf) : (s.undoOp sop).Agree (s'.undoOp sop) := by
  refine ⟨fun i ↦ ?_, fun i ↦ ?_⟩
  · rw [undoOp_semval, undoOp_semval, h.semval, h.semval]
  · rw [undoOp_semadj, undoOp_semadj, h.semadj, h.semadj]

theorem Agree.foldl_undoOp (h : s.Agree s') (done : List Sembuf) :
    (done.foldl SemArray.undoOp s).Agree (done.foldl SemArray.undoOp s') := by
  induction done generalizing s s' with
  | nil => exact h
  | cons sop done ih => exact ih (h.undoOp sop)

theorem apply_semval (s : SemArray) (sop : Sembuf) (pid : BitVec 32) (i : ℕ) :
    ((s.apply sop pid).semBase i).semval =
      if i = sop.semNum then toInt ((s.semBase sop.semNum).semval + sop.semOp)
      else (s.semBase i).semval := by
  by_cases hi : i = sop.semNum
  · subst hi
    simp [apply]
  · simp [apply, hi]

/-- The values of semaphore `i` fit their types. -/
def Fits (s : SemArray) (i : ℕ) : Prop :=
  toInt (s.semBase i).semval = (s.semBase i).semval ∧ toShort (s.semadj i) = s.semadj i

/-- The semaphore and, if it is to be, the undo array after an operation. -/
structure Done (s : SemArray) (sop : Sembuf) (s' : SemArray) : Prop where
  semval : ∀ i, (s'.semBase i).semval =
    if i = sop.semNum then toInt ((s.semBase i).semval + sop.semOp) else (s.semBase i).semval
  semadj : ∀ i, s'.semadj i =
    if sop.undo = true ∧ i = sop.semNum then toShort (s.semadj i - sop.semOp) else s.semadj i

theorem Done.fits {i : ℕ} (h : s.Done sop s') (hf : s.Fits i) : s'.Fits i := by
  rw [Fits, h.semval, h.semadj]
  refine ⟨?_, ?_⟩
  · split
    · exact toInt_toInt _
    · exact hf.1
  · split
    · exact toShort_toShort _
    · exact hf.2

/-- An iteration of the loop at `undo` takes back an operation. -/
theorem Done.undoOp_agree (h : s.Done sop s') (hf : s.Fits sop.semNum) :
    (s'.undoOp sop).Agree s := by
  refine ⟨fun i ↦ ?_, fun i ↦ ?_⟩
  · rw [undoOp_semval, h.semval, h.semval, if_pos rfl]
    split
    · rename_i hi
      rw [hi, toInt_add_sub, hf.1]
    · rfl
  · rw [undoOp_semadj, h.semadj, h.semadj]
    split
    · rename_i hi
      rw [if_pos ⟨hi.1, rfl⟩, hi.2, toShort_sub_add, hf.2]
    · rfl

/-- **An iteration of the loop does the operation that it leaves behind.**  The operation differs
from the one it was given only in the flag that is cleared, and not at all if the loop goes on; the
value is then in range. -/
theorem tryOp_done {stop : Option Stop} {sop' : Sembuf} (hf : s.Fits sop.semNum)
    (heq : s.tryOp sop pid = (stop, sop', s')) :
    s.Done sop' s' ∧ sop'.semNum = sop.semNum ∧
      (sop'.undo = true → toShort (s.semadj sop'.semNum - sop'.semOp) =
        s.semadj sop'.semNum - sop'.semOp) ∧
      (stop = none → sop' = sop ∧ 0 ≤ (s'.semBase sop.semNum).semval ∧
        (s'.semBase sop.semNum).semval ≤ semvmx) := by
  have hval : ∀ i, ((s.apply sop pid).semBase i).semval =
      if i = sop.semNum then toInt ((s.semBase i).semval + sop.semOp)
      else (s.semBase i).semval := by
    intro i
    rw [apply_semval]
    split
    · rename_i hi
      rw [hi]
    · rfl
  rw [tryOp] at heq
  split at heq
  · -- nothing has been done, which is the same as an operation with `sem_op` zero
    rename_i hzero
    cases heq
    refine ⟨⟨fun i ↦ ?_, fun i ↦ ?_⟩, rfl, fun _ ↦ ?_, by rintro ⟨⟩⟩
    · rw [hzero.1, add_zero]
      split
      · rename_i hi
        rw [hi, hf.1]
      · rfl
    · rw [hzero.1, sub_zero]
      split
      · rename_i hi
        rw [hi.2, hf.2]
      · rfl
    · rw [hzero.1, sub_zero, hf.2]
  dsimp only at heq
  split at heq
  · cases heq
    refine ⟨⟨hval, fun i ↦ ?_⟩, rfl, fun hu ↦ ?_, by rintro ⟨⟩⟩
    · rw [if_neg (by simp [sop.undo_clearUndo])]
      rfl
    · simp [sop.undo_clearUndo] at hu
  rename_i hrange
  have hshort : sop.undo = true → toShort (s.semadj sop.semNum - sop.semOp) =
      s.semadj sop.semNum - sop.semOp := by
    intro hu
    have hin := not_or.1 fun hc ↦ hrange ⟨hu, hc⟩
    exact toShort_of_range (not_lt.1 hin.1) (not_lt.1 hin.2)
  -- from here on the undo array has been changed, if it is to be
  set adj : ℕ → ℤ := update (s.apply sop pid).semadj sop.semNum
    (toShort ((s.apply sop pid).semadj sop.semNum - sop.semOp))
  set s₁ : SemArray := if sop.undo = true then { s.apply sop pid with semadj := adj }
    else s.apply sop pid with hs₁
  have hdone : s.Done sop s₁ := by
    refine ⟨fun i ↦ ?_, fun i ↦ ?_⟩
    · rw [← hval i, hs₁]
      split <;> rfl
    · rw [hs₁]
      by_cases hu : sop.undo = true
      · rw [if_pos hu]
        by_cases hi : i = sop.semNum
        · rw [if_pos ⟨hu, hi⟩, hi]
          exact update_self _ _ _
        · rw [if_neg fun hc ↦ hi hc.2]
          exact update_of_ne hi _ _
      · rw [if_neg hu, if_neg fun hc ↦ hu hc.1]
        rfl
  clear_value s₁
  split at heq
  · cases heq
    exact ⟨hdone, rfl, hshort, by rintro ⟨⟩⟩
  rename_i hneg
  split at heq
  · cases heq
    exact ⟨hdone, rfl, hshort, by rintro ⟨⟩⟩
  rename_i hmax
  cases heq
  exact ⟨hdone, rfl, hshort, fun _ ↦ ⟨rfl, not_lt.1 hneg, not_lt.1 hmax⟩⟩

/-! ## In range -/

theorem InRange.fits {i : ℕ} (h : s.InRange n) (hi : i < n) : s.Fits i := by
  obtain ⟨hv, hv'⟩ := h.semval i hi
  rw [semvmx] at hv'
  exact ⟨toInt_of_range (by omega) (by omega), toShort_of_range (h.semadj i hi).1 (h.semadj i hi).2⟩

/-- An operation has been done: on the semaphore, and if it says so on the undo array. -/
structure Changed (s : SemArray) (sop : Sembuf) (s' : SemArray) : Prop where
  semval : ∀ i, (s'.semBase i).semval =
    (s.semBase i).semval + if i = sop.semNum then sop.semOp else 0
  semadj : ∀ i, s'.semadj i =
    s.semadj i - if sop.undo = true ∧ i = sop.semNum then sop.semOp else 0

/-- With values in range nothing wraps around. -/
theorem Done.changed (hd : s.Done sop s') (h : s.InRange n) (hn : sop.semNum < n)
    (hshort : sop.undo = true → toShort (s.semadj sop.semNum - sop.semOp) =
      s.semadj sop.semNum - sop.semOp) : s.Changed sop s' := by
  obtain ⟨hlo, hhi⟩ := sop.isShort
  obtain ⟨hv, hv'⟩ := h.semval _ hn
  rw [semvmx] at hv'
  refine ⟨fun i ↦ ?_, fun i ↦ ?_⟩
  · rw [hd.semval]
    split
    · rename_i hi
      rw [hi]
      exact toInt_of_range (by omega) (by omega)
    · exact (add_zero _).symm
  · rw [hd.semadj]
    split
    · rename_i hi
      rw [hi.2]
      exact hshort hi.1
    · exact (sub_zero _).symm

theorem Done.inRange (hd : s.Done sop s') (h : s.InRange n)
    (hval : 0 ≤ (s'.semBase sop.semNum).semval ∧ (s'.semBase sop.semNum).semval ≤ semvmx) :
    s'.InRange n := by
  refine ⟨fun i hi ↦ ?_, fun i hi ↦ ?_⟩
  · by_cases hin : i = sop.semNum
    · rwa [hin]
    · rw [hd.semval, if_neg hin]
      exact h.semval i hi
  · rw [hd.semadj]
    split
    · rw [semaem, semvmx, toShort, Int.bmod]
      omega
    · exact h.semadj i hi

/-! ## The whole list -/

/-- What the operations add to semaphore `i`. -/
def opSum (sops : List Sembuf) (i : ℕ) : ℤ :=
  (sops.map fun sop ↦ if sop.semNum = i then sop.semOp else 0).sum

/-- What those of them with `SEM_UNDO` add. -/
def undoSum (sops : List Sembuf) (i : ℕ) : ℤ :=
  (sops.map fun sop ↦ if sop.undo = true ∧ sop.semNum = i then sop.semOp else 0).sum

/-- What the loop does, started with some operations already done: it does the others, or it leaves
behind what can be taken back. -/
theorem semopLoop_spec (pid : BitVec 32) (todo done : List Sembuf) {s₀ : SemArray} (h : s.InRange n)
    (hn : ∀ sop ∈ todo, sop.semNum < n) (hdone : (done.foldl undoOp s).Agree s₀) :
    (((semopLoop pid todo done s).2.1.foldl undoOp (semopLoop pid todo done s).2.2).Agree s₀) ∧
      ((semopLoop pid todo done s).1 = none → ∀ k ≤ todo.length, ∃ t : SemArray, t.InRange n ∧
        (∀ i, (t.semBase i).semval = (s.semBase i).semval + opSum (todo.take k) i) ∧
        (∀ i, t.semadj i = s.semadj i - undoSum (todo.take k) i) ∧
        (k = todo.length → t = (semopLoop pid todo done s).2.2)) := by
  induction todo generalizing done s with
  | nil =>
    refine ⟨hdone, fun _ k hk ↦ ⟨s, h, fun i ↦ ?_, fun i ↦ ?_, fun _ ↦ rfl⟩⟩
    · simp [opSum]
    · simp [undoSum]
  | cons sop todo ih =>
    obtain ⟨hnum, htodo⟩ := List.forall_mem_cons.1 hn
    rcases heq : s.tryOp sop pid with ⟨stop, sop', s'⟩
    obtain ⟨hd, hsame, hshort, hnext⟩ := tryOp_done (h.fits hnum) heq
    have hchanged := hd.changed h (hsame ▸ hnum) hshort
    have hundo : ((sop' :: done).foldl undoOp s').Agree s₀ :=
      ((hd.undoOp_agree (hsame ▸ h.fits hnum)).foldl_undoOp done).trans hdone
    rw [semopLoop, heq]
    cases stop with
    | some stop => exact ⟨hundo, nofun⟩
    | none =>
      obtain ⟨rfl, hval⟩ := hnext rfl
      obtain ⟨hagree, hall⟩ := ih (sop' :: done) (hd.inRange h hval) htodo hundo
      refine ⟨hagree, fun hnone k hk ↦ ?_⟩
      cases k with
      | zero => exact ⟨s, h, fun i ↦ by simp [opSum], fun i ↦ by simp [undoSum], nofun⟩
      | succ k =>
        obtain ⟨t, ht, hval, hadj, hlast⟩ := hall hnone k (Nat.le_of_succ_le_succ hk)
        refine ⟨t, ht, fun i ↦ ?_, fun i ↦ ?_, fun hk ↦ hlast (Nat.succ.inj hk)⟩
        · rw [hval, hchanged.semval, List.take_succ_cons, opSum, opSum, List.map_cons,
            List.sum_cons, add_assoc]
          simp [eq_comm]
        · rw [hadj, hchanged.semadj, List.take_succ_cons, undoSum, undoSum, List.map_cons,
            List.sum_cons, sub_sub]
          simp only [eq_comm]

theorem result_ne_zero (stop : Stop) (done : List Sembuf) : result stop done ≠ 0 := by
  cases stop with
  | outOfRange => exact (by decide : -eRange ≠ 0)
  | wouldBlock =>
    rw [result]
    split <;> decide

/-- **`try_atomic_semop` is all or nothing.**  If it returns zero and was not told to undo what it
does, every semaphore has changed by the sum of the operations on it, and every entry of the undo
array by the negated sum of those with `SEM_UNDO`, with all values in range all along.  Otherwise
all of them are what they were. -/
theorem semop_atomic {sops : List Sembuf} {doUndo : Bool} {now : ℕ} {ret : ℤ} (h : s.InRange n)
    (hn : ∀ sop ∈ sops, sop.semNum < n)
    (heq : s.tryAtomicSemop sops pid doUndo now = (ret, s')) :
    (ret = 0 → doUndo = false →
      (∀ i, (s'.semBase i).semval = (s.semBase i).semval + opSum sops i ∧
        s'.semadj i = s.semadj i - undoSum sops i) ∧
      ∀ k ≤ sops.length, ∀ i < n,
        (0 ≤ (s.semBase i).semval + opSum (sops.take k) i ∧
          (s.semBase i).semval + opSum (sops.take k) i ≤ semvmx) ∧
        -semaem - 1 ≤ s.semadj i - undoSum (sops.take k) i ∧
          s.semadj i - undoSum (sops.take k) i ≤ semaem) ∧
    (ret ≠ 0 ∨ doUndo = true →
      ∀ i, (s'.semBase i).semval = (s.semBase i).semval ∧ s'.semadj i = s.semadj i) := by
  obtain ⟨hundo, hall⟩ := semopLoop_spec pid sops [] h hn (Agree.refl s)
  rw [tryAtomicSemop] at heq
  rcases hloop : semopLoop pid sops [] s with ⟨stop, done, t⟩
  rw [hloop] at hundo hall heq
  cases stop with
  | some stop =>
    cases heq
    refine ⟨fun hret ↦ absurd hret (result_ne_zero stop done), fun _ i ↦ ?_⟩
    exact ⟨hundo.semval i, hundo.semadj i⟩
  | none =>
    cases doUndo with
    | true =>
      cases heq
      exact ⟨fun _ ↦ nofun, fun _ i ↦ ⟨hundo.semval i, hundo.semadj i⟩⟩
    | false =>
      cases heq
      refine ⟨fun _ _ ↦ ⟨fun i ↦ ?_, fun k hk i hi ↦ ?_⟩, fun hc ↦ ?_⟩
      · obtain ⟨t', -, hval, hadj, hlast⟩ := hall rfl sops.length le_rfl
        rw [List.take_length, hlast rfl] at hval hadj
        exact ⟨hval i, hadj i⟩
      · obtain ⟨t', hin, hval, hadj, -⟩ := hall rfl k hk
        rw [← hval, ← hadj]
        exact ⟨hin.semval i hi, hin.semadj i hi⟩
      · exact absurd hc (by simp)

/-- Two semaphores with the values one and zero. -/
def pair : SemArray := ⟨fun i ↦ ⟨if i = 0 then 1 else 0, 0⟩, fun _ ↦ 0, 0⟩

theorem pair_inRange : pair.InRange 2 := by
  refine ⟨fun i _ ↦ ?_, fun i _ ↦ (by decide : -semaem - 1 ≤ 0 ∧ 0 ≤ semaem)⟩
  simp only [pair]
  split <;> decide

/-- The first semaphore is taken. -/
def take : Sembuf := ⟨0, -1, semUndo, by decide⟩

/-- It can be taken once.  For the second time one would have to wait, and nothing is done. -/
theorem semop_atomic_pair :
    ((pair.tryAtomicSemop [take] 7 false 0).1 = 0 ∧ ∀ i,
      ((pair.tryAtomicSemop [take] 7 false 0).2.semBase i).semval =
        (pair.semBase i).semval + opSum [take] i ∧
      (pair.tryAtomicSemop [take] 7 false 0).2.semadj i = pair.semadj i - undoSum [take] i) ∧
    (pair.tryAtomicSemop [take, take] 7 false 0).1 = 1 ∧ ∀ i,
      ((pair.tryAtomicSemop [take, take] 7 false 0).2.semBase i).semval = (pair.semBase i).semval ∧
      (pair.tryAtomicSemop [take, take] 7 false 0).2.semadj i = pair.semadj i := by
  have hone : (pair.tryAtomicSemop [take] 7 false 0).1 = 0 := by decide
  have htwo : (pair.tryAtomicSemop [take, take] 7 false 0).1 = 1 := by decide
  refine ⟨⟨hone, ?_⟩, htwo, ?_⟩
  · exact ((semop_atomic pair_inRange (by simp [take]) Prod.mk.eta.symm).1 hone rfl).1
  · exact (semop_atomic pair_inRange (by simp [take]) Prod.mk.eta.symm).2
      (Or.inl (by rw [htwo]; decide))

end SemArray
end Linux24.Ipc
