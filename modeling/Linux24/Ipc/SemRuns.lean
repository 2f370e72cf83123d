import Linux24.Ipc.SemQueue
import Linux24.Lib.Machine

/-!
# Runs of semaphore operations

Any number of processes call `semop` and `semctl`, sleep, are woken up or interrupted, and exit, in
any order.

`try_atomic_semop` checks the range of a value whenever it changes it, and so do `SETVAL` and
`SETALL`.  What is done at the exit of a process is not checked: the undo array says by how much the
process has changed a value, but it has changed since then, and while `sem_exit` does not let it
become negative, it may become greater than `SEMVMX`.  `semval_inRange_iff` says that nothing else
can go wrong: a call leaves the values in range if and only if it is not the exit of a process whose
adjustments lead out of it.  Once a value is too large, `update_queue` does not bring it back.
-/

set_option autoImplicit false

namespace Linux24.Ipc

open List Function

/-! ## Values that fit their types

At the exit of a process a value can leave the range, so that here it is only known to be an `int`;
that is enough for an operation to be taken back. -/

namespace SemArray

variable {s s' t : SemArray} {sop sop' : Sembuf} {pid : BitVec 32} {stop : Option Stop}

/-- The values fit their types. -/
structure Stored (s : SemArray) : Prop where
  semval : ∀ i, toInt (s.semBase i).semval = (s.semBase i).semval
  semadj : ∀ i, toShort (s.semadj i) = s.semadj i

theorem Stored.fits (hs : s.Stored) (i : ℕ) : s.Fits i := ⟨hs.semval i, hs.semadj i⟩

theorem Done.stored (h : s.Done sop s') (hs : s.Stored) : s'.Stored :=
  ⟨fun i ↦ (h.fits (hs.fits i)).1, fun i ↦ (h.fits (hs.fits i)).2⟩

theorem Done.agree_of_zero (h : s.Done sop s') (hs : s.Stored) (hzero : sop.semOp = 0) :
    s'.Agree s := by
  refine ⟨fun i ↦ ?_, fun i ↦ ?_⟩
  · rw [h.semval, hzero, add_zero, hs.semval, ite_self]
  · rw [h.semadj, hzero, sub_zero, hs.semadj, ite_self]

/-- Whether the loop goes on depends on the values alone. -/
theorem Agree.tryOp (h : s.Agree t) (sop : Sembuf) (pid : BitVec 32) :
    (s.tryOp sop pid).1 = (t.tryOp sop pid).1 ∧ (s.tryOp sop pid).2.1 = (t.tryOp sop pid).2.1 ∧
      (s.tryOp sop pid).2.2.Agree (t.tryOp sop pid).2.2 := by
  have happly : (s.apply sop pid).Agree (t.apply sop pid) := by
    refine ⟨fun i ↦ ?_, h.semadj⟩
    rw [apply_semval, apply_semval, h.semval, h.semval]
  rw [SemArray.tryOp, SemArray.tryOp, h.semval]
  split
  · exact ⟨rfl, rfl, h⟩
  dsimp only
  rw [happly.semadj]
  split
  · exact ⟨rfl, rfl, happly⟩
  set s₁ : SemArray := if sop.undo = true then _ else s.apply sop pid
  set t₁ : SemArray := if sop.undo = true then _ else t.apply sop pid
  have hagree : s₁.Agree t₁ := by
    by_cases hu : sop.undo = true
    · simp only [s₁, t₁, if_pos hu]
      refine ⟨happly.semval, fun i ↦ ?_⟩
      dsimp only
      rw [update_apply, update_apply, happly.semadj]
    · simp only [s₁, t₁, if_neg hu]
      exact happly
  clear_value s₁ t₁
  rw [hagree.semval]
  split
  · exact ⟨rfl, rfl, hagree⟩
  split
  · exact ⟨rfl, rfl, hagree⟩
  · exact ⟨rfl, rfl, hagree⟩

/-- The operations have been done one after the other, with the values in range all along. -/
inductive Ran : List Sembuf → SemArray → SemArray → Prop
  | nil (s : SemArray) : Ran [] s s
  | cons {sop : Sembuf} {sops : List Sembuf} {s s' t : SemArray} (hdone : s.Done sop s')
      (hlo : 0 ≤ (s'.semBase sop.semNum).semval) (hhi : (s'.semBase sop.semNum).semval ≤ semvmx)
      (hrest : Ran sops s' t) : Ran (sop :: sops) s t

theorem Ran.stored {sops : List Sembuf} (h : Ran sops s t) (hs : s.Stored) : t.Stored := by
  induction h with
  | nil => exact hs
  | cons hdone _ _ _ ih => exact ih (hdone.stored hs)

/-- A value that is in range stays in range. -/
theorem Ran.inRange {sops : List Sembuf} (h : Ran sops s t) {i : ℕ}
    (hi : 0 ≤ (s.semBase i).semval ∧ (s.semBase i).semval ≤ semvmx) :
    0 ≤ (t.semBase i).semval ∧ (t.semBase i).semval ≤ semvmx := by
  induction h with
  | nil => exact hi
  | @cons sop _ _ _ _ hdone hlo hhi _ ih =>
    refine ih ?_
    by_cases hin : i = sop.semNum
    · rw [hin]
      exact ⟨hlo, hhi⟩
    · rw [hdone.semval, if_neg hin]
      exact hi

/-- Without a decrease, a value that is too large stays what it is. -/
theorem Ran.semval_of_large {sops : List Sembuf} (h : Ran sops s t) {i : ℕ}
    (hops : ∀ sop ∈ sops, 0 ≤ sop.semOp)
    (hlarge : semvmx < (s.semBase i).semval ∧ (s.semBase i).semval ≤ 65534) :
    (t.semBase i).semval = (s.semBase i).semval := by
  induction h with
  | nil => rfl
  | @cons sop _ s _ _ hdone hlo hhi _ ih =>
    obtain ⟨hop, hrest⟩ := forall_mem_cons.1 hops
    by_cases hin : i = sop.semNum
    · subst hin
      -- the sum is larger still, and does not wrap around
      have hmax : sop.semOp ≤ 32767 := sop.isShort.2
      rw [hdone.semval, toInt, Int.bmod] at hhi
      omega
    · have hsame := hdone.semval i
      rw [if_neg hin] at hsame
      rw [ih hrest (by rwa [hsame]), hsame]

theorem Ran.agree_of_zero {sops : List Sembuf} (h : Ran sops s t) (hs : s.Stored)
    (hzero : ∀ sop ∈ sops, sop.semOp = 0) : t.Agree s := by
  induction h with
  | nil => exact Agree.refl _
  | cons hdone _ _ _ ih =>
    obtain ⟨hop, hrest⟩ := forall_mem_cons.1 hzero
    exact (ih (hdone.stored hs) hrest).trans (hdone.agree_of_zero hs hop)

/-- What the loop leaves behind can be taken back, and if it comes to the end, everything is
done. -/
theorem semopLoop_done (pid : BitVec 32) (todo done : List Sembuf) {s₀ : SemArray} (hs : s.Stored)
    (hdone : (done.foldl undoOp s).Agree s₀) :
    ((semopLoop pid todo done s).2.1.foldl undoOp (semopLoop pid todo done s).2.2).Agree s₀ ∧
      ((semopLoop pid todo done s).1 = none → Ran todo s (semopLoop pid todo done s).2.2) := by
  induction todo generalizing done s with
  | nil => exact ⟨hdone, fun _ ↦ .nil s⟩
  | cons sop todo ih =>
    rcases heq : s.tryOp sop pid with ⟨stop, sop', s'⟩
    obtain ⟨hchanged, -, -, hnext⟩ := tryOp_done (hs.fits _) heq
    have hundo : ((sop' :: done).foldl undoOp s').Agree s₀ :=
      ((hchanged.undoOp_agree (hs.fits _)).foldl_undoOp done).trans hdone
    rw [semopLoop, heq]
    cases stop with
    | some stop => exact ⟨hundo, by rintro ⟨⟩⟩
    | none =>
      obtain ⟨rfl, hlo, hhi⟩ := hnext rfl
      obtain ⟨hagree, hran⟩ := ih (sop' :: done) (hchanged.stored hs) hundo
      exact ⟨hagree, fun hnone ↦ .cons hchanged hlo hhi (hran hnone)⟩

theorem Agree.semopLoop (h : s.Agree t) (pid : BitVec 32) (todo done : List Sembuf) :
    (SemArray.semopLoop pid todo done s).1 = (SemArray.semopLoop pid todo done t).1 ∧
      (SemArray.semopLoop pid todo done s).2.1 = (SemArray.semopLoop pid todo done t).2.1 := by
  induction todo generalizing done s t with
  | nil => exact ⟨rfl, rfl⟩
  | cons sop todo ih =>
    obtain ⟨hstop, hsop, hagree⟩ := h.tryOp sop pid
    rcases heq : s.tryOp sop pid with ⟨stop, sop', s'⟩
    rcases heq' : t.tryOp sop pid with ⟨stop', sop'', t'⟩
    rw [heq, heq'] at hstop hsop hagree
    cases hstop
    cases hsop
    rw [semopLoop, semopLoop, heq, heq']
    cases stop with
    | some stop => exact ⟨rfl, rfl⟩
    | none => exact ih hagree (sop' :: done)

/-- What `try_atomic_semop` returns is the same whether or not it is told to undo, and depends on
the values alone. -/
theorem Agree.tryAtomicSemop_fst (h : s.Agree t) (sops : List Sembuf) (pid : BitVec 32)
    (doUndo doUndo' : Bool) (now now' : ℕ) : (s.tryAtomicSemop sops pid doUndo now).1 =
      (t.tryAtomicSemop sops pid doUndo' now').1 := by
  obtain ⟨hstop, hdone⟩ := h.semopLoop pid sops []
  rw [tryAtomicSemop, tryAtomicSemop]
  rcases heq : SemArray.semopLoop pid sops [] s with ⟨stop, done, s'⟩
  rcases heq' : SemArray.semopLoop pid sops [] t with ⟨stop', done', t'⟩
  rw [heq, heq'] at hstop hdone
  cases hstop
  cases hdone
  cases stop with
  | some stop => rfl
  | none => cases doUndo <;> cases doUndo' <;> rfl

/-- **`try_atomic_semop` is all or nothing**, also for values out of range. -/
theorem tryAtomicSemop_done {sops : List Sembuf} {doUndo : Bool} {now : ℕ} {ret : ℤ} (hs : s.Stored)
    (heq : s.tryAtomicSemop sops pid doUndo now = (ret, t)) :
    (t.Agree s ∧ (ret ≠ 0 ∨ doUndo = true)) ∨
      (ret = 0 ∧ doUndo = false ∧ ∃ a, Ran sops s a ∧ t.Agree a) := by
  obtain ⟨hundo, hran⟩ := semopLoop_done pid sops [] hs (Agree.refl s)
  rw [tryAtomicSemop] at heq
  rcases hloop : semopLoop pid sops [] s with ⟨stop, done, s'⟩
  rw [hloop] at hundo hran heq
  cases stop with
  | some stop =>
    cases heq
    exact Or.inl ⟨hundo, Or.inl (result_ne_zero stop done)⟩
  | none =>
    cases doUndo with
    | true =>
      cases heq
      exact Or.inl ⟨hundo, Or.inr rfl⟩
    | false =>
      cases heq
      exact Or.inr ⟨rfl, rfl, s', hran rfl, fun _ ↦ rfl, fun _ ↦ rfl⟩

end SemArray

/-! ## Sets of semaphores -/

namespace SemSet

variable {s t u : SemSet} {p : ℕ} {sops : List Sembuf} {now : ℕ}

/-- The value of a semaphore. -/
def val (s : SemSet) (i : ℕ) : ℤ := (s.semBase i).semval

/-- The values fit their types. -/
structure Stored (s : SemSet) : Prop where
  val : ∀ i, toInt (s.val i) = s.val i
  undo : ∀ p semadj, s.undo p = some semadj → ∀ i, toShort (semadj i) = semadj i

/-- The same values. -/
structure Same (s t : SemSet) : Prop where
  val : ∀ i, t.val i = s.val i
  undo : t.undo = s.undo

theorem Same.refl (s : SemSet) : s.Same s := ⟨fun _ ↦ rfl, rfl⟩

theorem Same.trans (h : s.Same t) (h' : t.Same u) : s.Same u :=
  ⟨fun i ↦ (h'.val i).trans (h.val i), h'.undo.trans h.undo⟩

theorem Same.stored (h : s.Same t) (hs : s.Stored) : t.Stored :=
  ⟨fun i ↦ by rw [h.val, hs.val], by rw [h.undo]; exact hs.undo⟩

theorem Same.array (h : s.Same t) (p : ℕ) : (t.array p).Agree (s.array p) := by
  refine ⟨h.val, fun i ↦ ?_⟩
  rw [SemSet.array, SemSet.array, h.undo]

theorem Stored.array (hs : s.Stored) (p : ℕ) : (s.array p).Stored := by
  refine ⟨hs.val, fun i ↦ ?_⟩
  rw [SemSet.array]
  cases hun : s.undo p with
  | none => rfl
  | some semadj => exact hs.undo p semadj hun i

/-- What `try_atomic_semop` would return. -/
def verdict (s : SemSet) (p : ℕ) (sops : List Sembuf) : ℤ := (s.tryAtomicSemop p sops true 0).1

theorem verdict_eq (s : SemSet) (p : ℕ) (sops : List Sembuf) (doUndo : Bool) (now : ℕ) :
    (s.tryAtomicSemop p sops doUndo now).1 = s.verdict p sops :=
  (SemArray.Agree.refl (s.array p)).tryAtomicSemop_fst sops _ doUndo true now 0

theorem Same.verdict (h : s.Same t) (p : ℕ) (sops : List Sembuf) :
    t.verdict p sops = s.verdict p sops :=
  (h.array p).tryAtomicSemop_fst sops _ true true 0 0

/-- The operations of a process have been done, and have left behind `a`. -/
structure Performed (s t : SemSet) (p : ℕ) (sops : List Sembuf) (a : SemArray) : Prop where
  ran : SemArray.Ran sops (s.array p) a
  val : ∀ i, t.val i = (a.semBase i).semval
  undo : t.undo = update s.undo p ((s.undo p).map fun _ ↦ a.semadj)

theorem Performed.stored {a : SemArray} (h : s.Performed t p sops a) (hs : s.Stored) :
    t.Stored := by
  have ha : a.Stored := h.ran.stored (hs.array p)
  refine ⟨fun i ↦ by rw [h.val, ha.semval], fun r semadj hr ↦ ?_⟩
  rw [h.undo] at hr
  by_cases hrp : r = p
  · subst hrp
    rw [update_self] at hr
    obtain ⟨_, _, rfl⟩ := Option.map_eq_some_iff.1 hr
    exact ha.semadj
  · rw [update_of_ne hrp] at hr
    exact hs.undo r semadj hr

theorem Performed.same {a : SemArray} (h : s.Performed t p sops a) (hs : s.Stored)
    (hzero : ∀ sop ∈ sops, sop.semOp = 0) : s.Same t := by
  have hagree := h.ran.agree_of_zero (hs.array p) hzero
  refine ⟨fun i ↦ (h.val i).trans (hagree.semval i), ?_⟩
  have hadj : a.semadj = (s.array p).semadj := funext hagree.semadj
  rw [h.undo, hadj, array]
  refine update_eq_self_iff.2 ?_
  cases s.undo p <;> rfl

/-- What is not a value has not changed. -/
structure Kept (s t : SemSet) : Prop where
  nsems : t.nsems = s.nsems
  pending : t.pending = s.pending

/-- **`try_atomic_semop`, for a process of a set.** -/
theorem tryAtomicSemop_spec {doUndo : Bool} {ret : ℤ} (hs : s.Stored)
    (heq : s.tryAtomicSemop p sops doUndo now = (ret, t)) : s.Kept t ∧
      ((s.Same t ∧ (ret ≠ 0 ∨ doUndo = true)) ∨
        (ret = 0 ∧ doUndo = false ∧ ∃ a, s.Performed t p sops a)) := by
  rcases hrun : (s.array p).tryAtomicSemop sops (BitVec.ofNat 32 p) doUndo now with ⟨r, a⟩
  rw [tryAtomicSemop, hrun] at heq
  cases heq
  refine ⟨⟨rfl, rfl⟩, ?_⟩
  rcases SemArray.tryAtomicSemop_done (hs.array p) hrun with
    ⟨hagree, hwhy⟩ | ⟨hret, hundo, b, hran, hagree⟩
  · have hadj : a.semadj = (s.array p).semadj := funext hagree.semadj
    refine Or.inl ⟨⟨hagree.semval, ?_⟩, hwhy⟩
    refine update_eq_self_iff.2 ?_
    rw [hadj, array]
    cases s.undo p <;> rfl
  · have hadj : a.semadj = b.semadj := funext hagree.semadj
    refine Or.inr ⟨hret, hundo, b, hran, hagree.semval, ?_⟩
    rw [← hadj]
    rfl

/-! ### One pass of `update_queue` -/

/-- What survives a pass: it has to survive when an operation without a decrease is done. -/
theorem updateLoop_preserves (now : ℕ) {P : SemSet → Prop} (hsame : ∀ s t, P s → s.Same t → P t)
    (l : List SemQueue) (hdone : ∀ q ∈ l, q.alter = false → ∀ s t a, s.Stored → P s →
      s.Performed t q.sleeper q.sops a → P t) (s : SemSet) (hs : s.Stored) (h : P s) :
    (updateLoop now l s).2.2.Stored ∧ P (updateLoop now l s).2.2 := by
  induction l generalizing s with
  | nil => exact ⟨hs, h⟩
  | cons q l ih =>
    have hrest := ih fun r hr ↦ hdone r (mem_cons_of_mem q hr)
    rw [updateLoop]
    split
    · exact hrest s hs h
    rcases htry : s.tryAtomicSemop q.sleeper q.sops q.alter now with ⟨error, t⟩
    obtain ⟨ht, hP⟩ : t.Stored ∧ P t := by
      rcases (tryAtomicSemop_spec hs htry).2 with ⟨hst, -⟩ | ⟨-, halter, a, hperf⟩
      · exact ⟨hst.stored hs, hsame s t h hst⟩
      · exact ⟨hperf.stored hs, hdone q mem_cons_self halter s t a hs h hperf⟩
    dsimp only
    split
    · exact ⟨ht, hP⟩
    split
    · exact hrest t ht hP
    · exact hrest t ht hP

/-- The operations on the queue stay there in their order, or are taken off it; only the `status`
changes of one that has a decrease. -/
theorem updateLoop_left (l : List SemQueue) (s : SemSet) :
    ((updateLoop now l s).1.map SemQueue.sleeper).Sublist (l.map SemQueue.sleeper) ∧
      ∀ q ∈ (updateLoop now l s).1, ∃ q₀ ∈ l,
        q = q₀ ∨ q₀.alter = true ∧ q = { q₀ with status := 1 } := by
  induction l generalizing s with
  | nil => exact ⟨.refl _, forall_mem_nil _⟩
  | cons q l ih =>
    have hrest : ∀ s, ∀ r ∈ (updateLoop now l s).1,
        ∃ q₀ ∈ q :: l, r = q₀ ∨ q₀.alter = true ∧ r = { q₀ with status := 1 } := by
      intro s r hr
      obtain ⟨q₀, hq₀, hor⟩ := (ih s).2 r hr
      exact ⟨q₀, mem_cons_of_mem q hq₀, hor⟩
    have hq : ∃ q₀ ∈ q :: l, q = q₀ ∨ q₀.alter = true ∧ q = { q₀ with status := 1 } :=
      ⟨q, mem_cons_self, Or.inl rfl⟩
    rw [updateLoop]
    split
    · exact ⟨(ih s).1.cons_cons _, forall_mem_cons.2 ⟨hq, hrest s⟩⟩
    dsimp only
    split
    · rename_i hdone
      refine ⟨.refl _, forall_mem_cons.2 ⟨⟨q, mem_cons_self, Or.inr ⟨hdone.2, rfl⟩⟩, ?_⟩⟩
      exact fun r hr ↦ ⟨r, mem_cons_of_mem q hr, Or.inl rfl⟩
    split
    · exact ⟨(ih _).1.cons _, hrest _⟩
    · exact ⟨(ih _).1.cons_cons _, forall_mem_cons.2 ⟨hq, hrest _⟩⟩

theorem updateLoop_nsems (l : List SemQueue) (s : SemSet) :
    (updateLoop now l s).2.2.nsems = s.nsems := by
  induction l generalizing s with
  | nil => rfl
  | cons q l ih =>
    rw [updateLoop]
    split
    · exact ih s
    dsimp only
    split
    · rfl
    split
    · exact ih _
    · exact ih _

theorem updateQueue_nsems (s : SemSet) (now : ℕ) : (s.updateQueue now).2.nsems = s.nsems :=
  updateLoop_nsems s.pending s

/-! ## What holds in every state -/

/-- The set is as it should be. -/
structure Ok (s : SemSet) : Prop where
  stored : s.Stored
  /-- A process waits for one operation at a time. -/
  nodup : (s.pending.map SemQueue.sleeper).Nodup
  /-- `alter` says whether there is a decrease. -/
  alter : ∀ q ∈ s.pending, q.alter = false → ∀ sop ∈ q.sops, 0 ≤ sop.semOp

/-- The values are in range. -/
def InRange (s : SemSet) : Prop := ∀ i < s.nsems, 0 ≤ s.val i ∧ s.val i ≤ semvmx

/-- A change of the values that leaves the queue alone. -/
theorem Ok.withValues (h : s.Ok) (ht : t.Stored) (hpending : t.pending = s.pending) : t.Ok :=
  ⟨ht, by rw [hpending]; exact h.nodup, by rw [hpending]; exact h.alter⟩

theorem Ok.updateQueue (h : s.Ok) (now : ℕ) : (s.updateQueue now).2.Ok := by
  have hst := (updateLoop_preserves now (fun _ _ _ _ ↦ trivial)
    s.pending (fun _ _ _ _ _ _ _ _ _ ↦ trivial) s h.stored trivial).1
  refine ⟨⟨hst.val, hst.undo⟩, h.nodup.sublist (updateLoop_left _ _).1, fun q hq ↦ ?_⟩
  obtain ⟨q₀, hq₀, rfl | ⟨-, rfl⟩⟩ := (updateLoop_left _ _).2 q hq
  · exact h.alter q hq₀
  · exact h.alter q₀ hq₀

theorem InRange.updateQueue (hr : s.InRange) (h : s.Ok) (now : ℕ) :
    (s.updateQueue now).2.InRange := by
  have hall := (updateLoop_preserves now
    (P := fun t ↦ ∀ i < s.nsems, 0 ≤ t.val i ∧ t.val i ≤ semvmx) ?_ s.pending ?_ s h.stored hr).2
  · intro i hi
    exact hall i (s.updateQueue_nsems now ▸ hi)
  · intro t u ht hsame i hi
    rw [hsame.val]
    exact ht i hi
  · intro q _ _ t u a _ ht hperf i hi
    rw [hperf.val]
    exact hperf.ran.inRange (ht i hi)

/-- A value that is too large is not brought back by a pass. -/
theorem Ok.val_updateQueue (h : s.Ok) (now : ℕ) {i : ℕ}
    (hlarge : semvmx < s.val i ∧ s.val i ≤ 65534) : (s.updateQueue now).2.val i = s.val i := by
  refine (updateLoop_preserves now (P := fun t ↦ t.val i = s.val i) ?_ s.pending ?_ s
    h.stored rfl).2
  · intro t u ht hsame
    rw [hsame.val, ht]
  · intro q hq halter t u a _ ht hperf
    have hval : ((t.array q.sleeper).semBase i).semval = s.val i := ht
    rw [hperf.val, hperf.ran.semval_of_large (h.alter q hq halter) (by rwa [hval]), hval]

theorem Ok.updateIf (h : s.Ok) (changes : Bool) (now : ℕ) : (s.updateIf changes now).2.Ok := by
  rw [SemSet.updateIf]
  split
  · exact h.updateQueue now
  · exact h

theorem InRange.updateIf (hr : s.InRange) (h : s.Ok) (changes : Bool) (now : ℕ) :
    (s.updateIf changes now).2.InRange := by
  rw [SemSet.updateIf]
  split
  · exact hr.updateQueue h now
  · exact hr

theorem InRange.dequeue (hr : s.InRange) (p : ℕ) : (s.dequeue p).InRange := hr

theorem Ok.dequeue (h : s.Ok) (p : ℕ) : (s.dequeue p).Ok :=
  ⟨⟨h.stored.val, h.stored.undo⟩, h.nodup.sublist (filter_sublist.map _),
    fun q hq ↦ h.alter q (mem_of_mem_filter hq)⟩

/-- `try_atomic_semop` keeps what holds. -/
theorem Ok.tryAtomicSemop {doUndo : Bool} {ret : ℤ} (h : s.Ok)
    (heq : s.tryAtomicSemop p sops doUndo now = (ret, t)) : t.Ok ∧ (s.InRange → t.InRange) := by
  obtain ⟨hkept, hor⟩ := tryAtomicSemop_spec h.stored heq
  rcases hor with ⟨hsame, -⟩ | ⟨-, -, a, hperf⟩
  · refine ⟨h.withValues (hsame.stored h.stored) hkept.pending, fun hr i hi ↦ ?_⟩
    rw [hsame.val]
    exact hr i (hkept.nsems ▸ hi)
  · refine ⟨h.withValues (hperf.stored h.stored) hkept.pending, fun hr i hi ↦ ?_⟩
    rw [hperf.val]
    exact hperf.ran.inRange (hr i (hkept.nsems ▸ hi))

theorem nonneg_of_decreases (hd : decreases sops = false) : ∀ sop ∈ sops, 0 ≤ sop.semOp := by
  intro sop hsop
  by_contra hneg
  refine absurd (any_eq_false.1 hd sop hsop) (not_not.2 (decide_eq_true ?_))
  omega

theorem Ok.enqueue (h : s.Ok) (hp : ∀ q ∈ s.pending, q.sleeper ≠ p) (sops : List Sembuf) :
    (s.enqueue p sops).Ok := by
  set q : SemQueue := ⟨p, sops, decreases sops, alters sops, -eIntr⟩
  have hperm : (s.enqueue p sops).pending.Perm (q :: s.pending) := by
    rw [SemSet.enqueue]
    split
    · exact perm_append_singleton q s.pending
    · exact List.Perm.refl _
  refine ⟨⟨h.stored.val, h.stored.undo⟩, ?_, fun r hr ↦ ?_⟩
  · rw [(hperm.map _).nodup_iff, map_cons, nodup_cons]
    refine ⟨fun hmem ↦ ?_, h.nodup⟩
    obtain ⟨r, hr, heq⟩ := mem_map.1 hmem
    exact hp r hr heq
  · rcases mem_cons.1 (hperm.mem_iff.1 hr) with rfl | hr
    · exact nonneg_of_decreases
    · exact h.alter r hr

theorem Ok.semopFrom (h : s.Ok) (hp : ∀ q ∈ s.pending, q.sleeper ≠ p) (sops : List Sembuf)
    (now : ℕ) : (s.semopFrom p sops now).2.2.Ok ∧
      (s.InRange → (s.semopFrom p sops now).2.2.InRange) := by
  rw [SemSet.semopFrom]
  rcases heq : s.tryAtomicSemop p sops false now with ⟨error, t⟩
  obtain ⟨ht, hrange⟩ := h.tryAtomicSemop heq
  dsimp only
  split
  · exact ⟨ht.updateIf _ now, fun hr ↦ (hrange hr).updateIf ht _ now⟩
  · have hpending : t.pending = s.pending := (tryAtomicSemop_spec h.stored heq).1.pending
    exact ⟨ht.enqueue (by rwa [hpending]) sops, fun hr ↦ hrange hr⟩

theorem Ok.allocUndo (h : s.Ok) (p : ℕ) : (s.allocUndo p).Ok := by
  refine h.withValues ⟨h.stored.val, fun r semadj hr i ↦ ?_⟩ rfl
  by_cases hrp : r = p
  · subst hrp
    have heq : (s.allocUndo r).undo r = some fun _ ↦ 0 := update_self _ _ _
    cases heq.symm.trans hr
    rfl
  · have heq : (s.allocUndo p).undo r = s.undo r := update_of_ne hrp _ _
    exact h.stored.undo r semadj (heq ▸ hr) i

/-- What `sys_semop` does up to where it sleeps: nothing, or the part after its checks. -/
theorem sysSemop_cases (s : SemSet) (E : SemEnv) (p : ℕ) (sops : List Sembuf) :
    (∃ e, s.sysSemop E p sops = (.returned (-e), [], s)) ∨
      (s.sysSemop E p sops = s.semopFrom p sops E.now) ∨
      ((s.undo p).isNone ∧ s.sysSemop E p sops = (s.allocUndo p).semopFrom p sops E.now) := by
  rw [sysSemop]
  split_ifs with h1 h2 h3 h4 h5 h6 h7 h8
  · exact Or.inl ⟨_, rfl⟩
  · exact Or.inl ⟨_, rfl⟩
  · exact Or.inl ⟨_, rfl⟩
  · exact Or.inl ⟨_, rfl⟩
  · exact Or.inl ⟨_, rfl⟩
  · exact Or.inl ⟨_, rfl⟩
  · exact Or.inl ⟨_, rfl⟩
  · exact Or.inr (Or.inr ⟨h7.2, rfl⟩)
  · exact Or.inr (Or.inl rfl)

theorem Ok.sysSemop (h : s.Ok) (hp : ∀ q ∈ s.pending, q.sleeper ≠ p) (E : SemEnv)
    (sops : List Sembuf) : (s.sysSemop E p sops).2.2.Ok ∧
      (s.InRange → (s.sysSemop E p sops).2.2.InRange) := by
  rcases s.sysSemop_cases E p sops with ⟨e, heq⟩ | heq | ⟨-, heq⟩ <;> rw [heq]
  · exact ⟨h, fun hr ↦ hr⟩
  · exact h.semopFrom hp sops E.now
  · exact (h.allocUndo p).semopFrom hp sops E.now

theorem again_sleeper (p : ℕ) (q : SemQueue) : (again p q).sleeper = q.sleeper := by
  rw [again]
  split <;> rfl

/-- What `sys_semop` does after it has slept. -/
theorem semopWake_cases (s : SemSet) (q : SemQueue) (now : ℕ) :
    (q.status ≠ 1 ∧ s.semopWake q now =
      (.returned q.status, (s.dequeue q.sleeper).updateIf q.changes now)) ∨
    ∃ error t, q.status = 1 ∧ s.tryAtomicSemop q.sleeper q.sops false now = (error, t) ∧
      ((error ≤ 0 ∧ s.semopWake q now =
          (.returned error, (t.dequeue q.sleeper).updateIf q.changes now)) ∨
        (0 < error ∧ s.semopWake q now =
          (.sleeps, [], { t with pending := t.pending.map (again q.sleeper) }))) := by
  rw [semopWake]
  split
  · rename_i hstatus
    rcases htry : s.tryAtomicSemop q.sleeper q.sops false now with ⟨error, t⟩
    refine Or.inr ⟨error, t, hstatus, rfl, ?_⟩
    dsimp only
    split
    · rename_i herror
      exact Or.inl ⟨herror, rfl⟩
    · rename_i herror
      exact Or.inr ⟨not_le.1 herror, rfl⟩
  · rename_i hstatus
    exact Or.inl ⟨hstatus, rfl⟩

theorem Ok.again (h : s.Ok) (p : ℕ) :
    Ok { s with pending := s.pending.map (SemSet.again p) } := by
  refine ⟨⟨h.stored.val, h.stored.undo⟩, ?_, fun q hq ↦ ?_⟩
  · have hmap : s.pending.map (SemQueue.sleeper ∘ SemSet.again p) =
        s.pending.map SemQueue.sleeper := map_congr_left fun q _ ↦ again_sleeper p q
    rw [map_map, hmap]
    exact h.nodup
  · obtain ⟨r, hr, rfl⟩ := mem_map.1 hq
    have halter := h.alter r hr
    rw [SemSet.again]
    split
    · exact halter
    · exact halter

theorem Ok.semopWake (h : s.Ok) (q : SemQueue) (now : ℕ) : (s.semopWake q now).2.2.Ok ∧
    (s.InRange → (s.semopWake q now).2.2.InRange) := by
  rcases s.semopWake_cases q now with ⟨-, heq⟩ | ⟨error, t, -, htry, ⟨-, heq⟩ | ⟨-, heq⟩⟩ <;>
    rw [heq]
  · have hd := h.dequeue q.sleeper
    exact ⟨hd.updateIf _ now, fun hr ↦ (hr.dequeue _).updateIf hd _ now⟩
  · obtain ⟨ht, hrange⟩ := h.tryAtomicSemop htry
    have hd := ht.dequeue q.sleeper
    exact ⟨hd.updateIf _ now, fun hr ↦ ((hrange hr).dequeue _).updateIf hd _ now⟩
  · obtain ⟨ht, hrange⟩ := h.tryAtomicSemop htry
    exact ⟨ht.again q.sleeper, hrange⟩

/-- The undo arrays are changed entry by entry. -/
theorem stored_map {f : (ℕ → ℤ) → ℕ → ℤ} (hs : s.Stored)
    (hf : ∀ semadj : ℕ → ℤ, (∀ i, toShort (semadj i) = semadj i) → ∀ i, toShort (f semadj i) =
      f semadj i) (p : ℕ) (semadj : ℕ → ℤ) (hp : (s.undo p).map f = some semadj) (i : ℕ) :
    toShort (semadj i) = semadj i := by
  obtain ⟨old, hold, rfl⟩ := Option.map_eq_some_iff.1 hp
  exact hf old (hs.undo p old hold) i

theorem toInt_of_inRange {z : ℤ} (h : 0 ≤ z) (h' : z ≤ semvmx) : toInt z = z := by
  rw [semvmx] at h'
  exact toInt_of_range (by omega) (by omega)

/-- Nothing has been done, or the values have been written and a pass has been made. -/
def Rewritten (s u : SemSet) : Prop :=
  u = s ∨ ∃ (t : SemSet) (now : ℕ), t.Ok ∧ t.pending = s.pending ∧ (s.InRange → t.InRange) ∧
    u = (t.updateQueue now).2

theorem Ok.of_rewritten (h : s.Ok) (hu : s.Rewritten u) : u.Ok ∧ (s.InRange → u.InRange) := by
  rcases hu with rfl | ⟨t, now, ht, -, hrange, rfl⟩
  · exact ⟨h, fun hr ↦ hr⟩
  · exact ⟨ht.updateQueue now, fun hr ↦ (hrange hr).updateQueue ht now⟩

theorem Ok.semctlSetval_rewritten (h : s.Ok) (allowed : Bool) (p semnum : ℕ) (v : ℤ) (now : ℕ) :
    s.Rewritten (s.semctlSetval allowed p semnum v now).2.2 := by
  rw [semctlSetval]
  split
  · exact Or.inl rfl
  split
  · exact Or.inl rfl
  split
  · exact Or.inl rfl
  rename_i hv
  obtain ⟨hle, hge⟩ := not_or.1 hv
  rw [not_lt] at hle hge
  set t : SemSet := { s with
    undo := fun r ↦ (s.undo r).map fun semadj ↦ update semadj semnum 0
    semBase := update s.semBase semnum ⟨v, BitVec.ofNat 32 p⟩
    semCtime := now }
  have hval : ∀ i, t.val i = if i = semnum then v else s.val i := by
    intro i
    show (update s.semBase semnum _ i).semval = _
    rw [update_apply]
    split <;> rfl
  have ht : t.Ok := by
    refine h.withValues ⟨fun i ↦ ?_, stored_map h.stored fun semadj hadj i ↦ ?_⟩ rfl
    · rw [hval]
      split
      · exact toInt_of_inRange hge hle
      · exact h.stored.val i
    · by_cases hi : i = semnum
      · rw [hi, update_self]
        rfl
      · rw [update_of_ne hi]
        exact hadj i
  refine Or.inr ⟨t, now, ht, rfl, fun hr i hi ↦ ?_, rfl⟩
  rw [hval]
  split
  · exact ⟨hge, hle⟩
  · exact hr i hi

theorem Ok.semctlSetall_rewritten (h : s.Ok) (E : SemEnv) (semIo : ℕ → BitVec 16) :
    s.Rewritten (s.semctlSetall E semIo).2.2 := by
  rw [semctlSetall]
  split
  · exact Or.inl rfl
  split
  · exact Or.inl rfl
  split
  · exact Or.inl rfl
  split
  · exact Or.inl rfl
  rename_i hrange
  simp only [not_exists, not_and, not_lt] at hrange
  set t : SemSet := { s with
    semBase := fun i ↦
      if i < s.nsems then { s.semBase i with semval := (semIo i).toNat } else s.semBase i
    undo := fun r ↦ (s.undo r).map fun (semadj : ℕ → ℤ) i ↦ if i < s.nsems then 0 else semadj i
    semCtime := E.now }
  have hval : ∀ i, t.val i = if i < s.nsems then ((semIo i).toNat : ℤ) else s.val i := by
    intro i
    show Sem.semval (if i < s.nsems then { s.semBase i with semval := (semIo i).toNat }
      else s.semBase i) = _
    split <;> rfl
  have ht : t.Ok := by
    refine h.withValues ⟨fun i ↦ ?_, stored_map h.stored fun semadj hadj i ↦ ?_⟩ rfl
    · rw [hval]
      split
      · rename_i hi
        exact toInt_of_inRange (Int.natCast_nonneg _) (hrange i hi)
      · exact h.stored.val i
    · split
      · rfl
      · exact hadj i
  refine Or.inr ⟨t, E.now, ht, rfl, fun _ i hi ↦ ?_, rfl⟩
  rw [hval, if_pos hi]
  exact ⟨Int.natCast_nonneg _, hrange i hi⟩

/-- The adjustments of the process do not lead to a value that is too large. -/
def Bearable (s : SemSet) (p : ℕ) : Prop :=
  ∀ semadj ∈ s.undo p, ∀ i < s.nsems, s.val i + semadj i ≤ semvmx

instance (s : SemSet) (p : ℕ) : Decidable (s.Bearable p) :=
  inferInstanceAs (Decidable (∀ semadj ∈ s.undo p, _))

theorem toShort_bounds (z : ℤ) : -32768 ≤ toShort z ∧ toShort z ≤ 32767 := by
  rw [toShort, Int.bmod]
  omega

theorem toInt_adjusted (v a : ℤ) : toInt (adjusted v a) = adjusted v a := by
  rw [adjusted]
  split
  · rfl
  · exact toInt_toInt _

/-- What an adjustment makes of a value in range. -/
theorem adjusted_eq {v a : ℤ} (hv : 0 ≤ v ∧ v ≤ semvmx) (ha : toShort a = a) :
    adjusted v a = max 0 (v + a) := by
  have hbounds := toShort_bounds a
  rw [semvmx] at hv
  rw [adjusted, toInt_of_range (by omega) (by omega)]
  split <;> omega

/-- `sem_exit` once the adjustments have been made. -/
def adjust (s : SemSet) (p : ℕ) (semadj : ℕ → ℤ) (now : ℕ) : SemSet :=
  { s with
    undo := update s.undo p none
    semBase := fun i ↦
      if i < s.nsems then ⟨adjusted (s.semBase i).semval (semadj i), BitVec.ofNat 32 p⟩
      else s.semBase i
    semOtime := now }

theorem semExit_none (hp : s.undo p = none) : s.semExit p now = ([], s.dequeue p) := by
  have hp' : (s.dequeue p).undo p = none := hp
  rw [semExit, hp']

theorem semExit_some {semadj : ℕ → ℤ} (hp : s.undo p = some semadj) :
    s.semExit p now = ((s.dequeue p).adjust p semadj now).updateQueue now := by
  have hp' : (s.dequeue p).undo p = some semadj := hp
  rw [semExit, hp']
  rfl

theorem val_adjust (s : SemSet) (p : ℕ) (semadj : ℕ → ℤ) (now i : ℕ) :
    (s.adjust p semadj now).val i =
      if i < s.nsems then adjusted (s.val i) (semadj i) else s.val i := by
  show Sem.semval (if i < s.nsems then _ else s.semBase i) = _
  split <;> rfl

theorem Ok.adjust (h : s.Ok) (p : ℕ) (semadj : ℕ → ℤ) (now : ℕ) : (s.adjust p semadj now).Ok := by
  refine h.withValues ⟨fun i ↦ ?_, fun r old hr ↦ ?_⟩ rfl
  · rw [val_adjust]
    split
    · exact toInt_adjusted _ _
    · exact h.stored.val i
  · have hrp : r ≠ p := by
      rintro rfl
      have hnone : (s.adjust r semadj now).undo r = none := update_self _ _ _
      cases hnone.symm.trans hr
    have heq : (s.adjust p semadj now).undo r = s.undo r := update_of_ne hrp _ _
    exact h.stored.undo r old (heq ▸ hr)

theorem Ok.semExit (h : s.Ok) (p now : ℕ) : (s.semExit p now).2.Ok := by
  cases hp : s.undo p with
  | none =>
    rw [semExit_none hp]
    exact h.dequeue p
  | some semadj =>
    rw [semExit_some hp]
    exact ((h.dequeue p).adjust p semadj now).updateQueue now

/-- **The exit of a process** leaves the values in range if and only if its adjustments do. -/
theorem Ok.semExit_inRange (h : s.Ok) (hr : s.InRange) (p now : ℕ) :
    (s.semExit p now).2.InRange ↔ s.Bearable p := by
  cases hp : s.undo p with
  | none =>
    rw [semExit_none hp]
    refine ⟨fun _ semadj hsome ↦ ?_, fun _ ↦ hr.dequeue p⟩
    cases hp.symm.trans hsome
  | some semadj =>
    rw [semExit_some hp]
    have hshort := h.stored.undo p semadj hp
    have ht := (h.dequeue p).adjust p semadj now
    have hval : ∀ i < s.nsems, ((s.dequeue p).adjust p semadj now).val i =
        max 0 (s.val i + semadj i) := by
      intro i hi
      rw [val_adjust]
      exact (if_pos hi).trans (adjusted_eq (hr i hi) (hshort i))
    constructor
    · intro hin old hold i hi
      cases hp.symm.trans hold
      by_contra hlarge
      have hbounds := toShort_bounds (semadj i)
      rw [hshort] at hbounds
      have hv := hr i hi
      rw [semvmx] at hlarge hv
      -- the value stays what it has become
      have hkept := ht.val_updateQueue now (by rw [hval i hi, semvmx]; omega)
      have hle := (hin i (by rw [updateQueue_nsems]; exact hi)).2
      rw [hkept, hval i hi, semvmx] at hle
      omega
    · intro hb
      refine InRange.updateQueue (fun i hi ↦ ?_) ht now
      have hle := hb semadj hp i hi
      rw [hval i hi]
      rw [semvmx] at hle ⊢
      omega

end SemSet

/-! ## The machine -/

/-- The calls. -/
inductive SemCall
  | semop (E : SemEnv) (p : ℕ) (sops : List Sembuf)
  /-- A process that sleeps in `sys_semop` goes on. -/
  | wake (p now : ℕ)
  | setval (allowed : Bool) (p semnum : ℕ) (val : ℤ) (now : ℕ)
  | setall (E : SemEnv) (semIo : ℕ → BitVec 16)
  | exit (p now : ℕ)

/-- A set, and the processes that `update_queue` has taken off the queue and that have not gone on
yet, with their `status`. -/
structure SemWorld where
  set : SemSet
  woken : List (ℕ × ℤ)

namespace SemWorld

/-- The processes that sleep in `sys_semop`. -/
def asleep (w : SemWorld) : List ℕ := w.set.pending.map SemQueue.sleeper ++ w.woken.map Prod.fst

/-- What a call does up to where it sleeps or returns. -/
def perform (w : SemWorld) : SemCall → SemWorld
  | .semop E p sops =>
    let (_, woken, set) := w.set.sysSemop E p sops
    ⟨set, woken ++ w.woken⟩
  | .wake p now =>
    match w.set.pending.find? fun q ↦ decide (q.sleeper = p) with
    | some q =>
      let (_, woken, set) := w.set.semopWake q now
      ⟨set, woken ++ w.woken⟩
    | none => { w with woken := w.woken.filter fun e ↦ decide (e.1 ≠ p) }
  | .setval allowed p semnum val now =>
    let (_, woken, set) := w.set.semctlSetval allowed p semnum val now
    ⟨set, woken ++ w.woken⟩
  | .setall E semIo =>
    let (_, woken, set) := w.set.semctlSetall E semIo
    ⟨set, woken ++ w.woken⟩
  | .exit p now =>
    let (woken, set) := w.set.semExit p now
    ⟨set, woken ++ w.woken⟩

/-- When a call can be made: a process that sleeps can only go on. -/
def Legal (w : SemWorld) : SemCall → Prop
  | .semop _ p _ => p ∉ w.asleep
  | .wake p _ => p ∈ w.asleep
  | .setval _ _ _ _ _ => True
  | .setall _ _ => True
  | .exit p _ => p ∉ w.asleep

instance (w : SemWorld) (a : SemCall) : Decidable (w.Legal a) := by
  cases a <;> dsimp only [Legal] <;> infer_instance

/-- The machine of a set.  `newary` clears everything. -/
def machine : Machine SemWorld SemCall Empty where
  init w := (∀ i, w.set.semBase i = ⟨0, 0⟩) ∧ (∀ p, w.set.undo p = none) ∧ w.set.pending = [] ∧
    w.woken = []
  legal := Legal
  exec w a := .ok (w.perform a)

instance (w : SemWorld) (a : SemCall) : Decidable (machine.legal w a) :=
  inferInstanceAs (Decidable (w.Legal a))

/-- The call is not the exit of a process whose adjustments lead to a value that is too large. -/
def Bearable (w : SemWorld) : SemCall → Prop
  | .exit p _ => w.set.Bearable p
  | _ => True

variable {w w' : SemWorld} {a : SemCall}

theorem ne_sleeper_of_notMem {p : ℕ} (hp : p ∉ w.asleep) : ∀ q ∈ w.set.pending, q.sleeper ≠ p := by
  rintro q hq rfl
  exact hp (mem_append_left _ (mem_map_of_mem hq))

/-- **One step.** -/
theorem perform_ok (h : w.set.Ok) (hl : w.Legal a) : (w.perform a).set.Ok ∧
    (w.set.InRange → ((w.perform a).set.InRange ↔ w.Bearable a)) := by
  have hall : ∀ {s : SemSet}, s.Ok ∧ (w.set.InRange → s.InRange) →
      s.Ok ∧ (w.set.InRange → (s.InRange ↔ True)) :=
    fun hs ↦ ⟨hs.1, fun hr ↦ iff_true_intro (hs.2 hr)⟩
  cases a with
  | semop E p sops => exact hall (h.sysSemop (ne_sleeper_of_notMem hl) E sops)
  | wake p now =>
    refine hall ?_
    rw [perform]
    split
    · exact h.semopWake _ now
    · exact ⟨h, fun hr ↦ hr⟩
  | setval allowed p semnum v now =>
    exact hall (h.of_rewritten (h.semctlSetval_rewritten allowed p semnum v now))
  | setall E semIo => exact hall (h.of_rewritten (h.semctlSetall_rewritten E semIo))
  | exit p now => exact ⟨h.semExit p now, fun hr ↦ h.semExit_inRange hr p now⟩

/-! ## Every run -/

theorem init_ok (h : machine.init w) : w.set.Ok ∧ w.set.InRange := by
  obtain ⟨hbase, hundo, hpending, -⟩ := h
  have hval : ∀ i, w.set.val i = 0 := fun i ↦ congrArg Sem.semval (hbase i)
  refine ⟨⟨⟨fun i ↦ by rw [hval]; rfl, fun p semadj hp ↦ ?_⟩, ?_, ?_⟩, fun i _ ↦ ?_⟩
  · cases (hundo p).symm.trans hp
  · rw [hpending]
    exact nodup_nil
  · rw [hpending]
    exact forall_mem_nil _
  · rw [hval]
    exact ⟨le_rfl, by decide⟩

theorem ok_of_path {P : SemWorld → SemCall → Prop} {w₀ : SemWorld} (h0 : machine.init w₀)
    (hp : Machine.Path machine P w₀ w) : w.set.Ok := by
  induction hp with
  | refl => exact (init_ok h0).1
  | step _ hl _ he ih =>
    cases he
    exact (perform_ok ih hl).1

theorem inRange_of_path {w₀ : SemWorld} (h0 : machine.init w₀)
    (hp : Machine.Path machine Bearable w₀ w) : w.set.InRange := by
  induction hp with
  | refl => exact (init_ok h0).2
  | step hp hl hb he ih =>
    cases he
    exact ((perform_ok (ok_of_path h0 hp) hl).2 ih).2 hb

/-- **The values are in range** after a call, if those before it have kept them there, if and only
if it is not the exit of a process whose adjustments lead to a value greater than `SEMVMX`. -/
theorem semval_inRange_iff {w₀ : SemWorld} (h0 : machine.init w₀)
    (hp : Machine.Path machine Bearable w₀ w) (hl : machine.legal w a)
    (he : machine.exec w a = .ok w') : w'.set.InRange ↔ w.Bearable a := by
  cases he
  exact (perform_ok (ok_of_path h0 hp) hl).2 (inRange_of_path h0 hp)

/-- A new set of `n` semaphores. -/
def start (n : ℕ) : SemWorld where
  set := ⟨n, fun _ ↦ ⟨0, 0⟩, fun _ ↦ none, [], 0, 0⟩
  woken := []

theorem start_init (n : ℕ) : machine.init (start n) := ⟨fun _ ↦ rfl, fun _ ↦ rfl, rfl, rfl⟩

/-- Nothing stands in the way of a call. -/
def plainEnv : SemEnv := ⟨32, true, true, true, true, 0⟩

/-- Process 1 takes the semaphore and exits, and gives back what it has taken. -/
theorem semval_inRange_iff_exit : ∃ w', machine.trace (start 1)
      [.semop plainEnv 1 [⟨0, 1, 0, by decide⟩], .semop plainEnv 1 [⟨0, -1, semUndo, by decide⟩],
        .exit 1 0] = some w' ∧ w'.set.val 0 = 1 ∧ w'.set.InRange := by
  have htrace : machine.trace (start 1)
      [.semop plainEnv 1 [⟨0, 1, 0, by decide⟩], .semop plainEnv 1 [⟨0, -1, semUndo, by decide⟩]] =
        some _ := rfl
  have hpath : Machine.Path machine Bearable (start 1) _ :=
    Machine.Path.of_trace (by simp [Bearable]) htrace
  refine ⟨_, rfl, by decide, ?_⟩
  exact (semval_inRange_iff (start_init 1) hpath (by decide) rfl).2
    (by show SemSet.Bearable _ _; decide)

/-- Process 1 takes the semaphore, process 2 gives it its greatest value, and process 1 exits. -/
theorem semval_out_of_range : ∃ w, machine.Reachable w ∧ w.set.val 0 = 32768 ∧ ¬ w.set.InRange := by
  have htrace : machine.trace (start 1)
      [.semop plainEnv 1 [⟨0, 1, 0, by decide⟩], .semop plainEnv 1 [⟨0, -1, semUndo, by decide⟩],
        .semop plainEnv 2 [⟨0, 32767, 0, by decide⟩], .exit 1 0] = some _ := rfl
  have hval : ∀ {w : SemWorld}, w.set.nsems = 1 → w.set.val 0 = 32768 → ¬ w.set.InRange :=
    fun hn hv hr ↦ absurd (hr 0 (by omega)).2 (by rw [hv]; decide)
  exact ⟨_, (Machine.Reachable.init (start_init 1)).trace htrace, by decide, hval rfl (by decide)⟩

end SemWorld

end Linux24.Ipc
