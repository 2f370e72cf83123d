import Linux24.Kernel.Setuid

/-!
# Setting capabilities: `kernel/capability.c`

`sys_capset` may set the capabilities of one task, of a process group or of all tasks.  What may be
raised is what the caller is permitted.  But it looks at one task only: with a negative `pid` that
is the caller itself, and what the caller can inherit need not be permitted to it.
-/

set_option autoImplicit false

namespace Linux24.Capability

open Setuid

/-! ## The code -/

def linuxCapabilityVersion : BitVec 32 := 0x19980330

def capSetpcap : ℕ := 8

def eSrch : ℤ := 3

def eFault : ℤ := 14

def eInval : ℤ := 22

/-- The sets of a task, and `struct __user_cap_data_struct`. -/
structure Caps where
  effective : BitVec 32
  permitted : BitVec 32
  inheritable : BitVec 32
deriving DecidableEq

structure TaskStruct where
  pid : ℤ
  pgrp : ℤ
  cap : Caps

/-- What a call finds in user memory; `none` is for what cannot be read.  `writable` is whether the
version can be written. -/
structure Request where
  version : Option (BitVec 32)
  writable : Bool
  pid : Option ℤ
  data : Option Caps

structure World (n : ℕ) where
  task : Fin n → TaskStruct
  current : Fin n

def capIssubset (a set : BitVec 32) : Bool := a &&& ~~~set = 0

def capCombine (a b : BitVec 32) : BitVec 32 := a ||| b

/-- `get_user` and `copy_from_user`. -/
def getUser {α : Type} (a : Option α) : Except ℤ α := a.elim (.error eFault) .ok

def check (ok : Bool) (error : ℤ) : Except ℤ Unit := if ok then .ok () else .error error

namespace World

variable {n : ℕ} (w : World n)

def caller : TaskStruct := w.task w.current

def findTaskByPid (pid : ℤ) : Except ℤ (Fin n) :=
  ((List.finRange n).find? fun i ↦ (w.task i).pid = pid).elim (.error eSrch) .ok

/-- The task that is looked at. -/
def target (pid : ℤ) : Except ℤ (Fin n) :=
  if pid > 0 ∧ pid ≠ w.caller.pid then w.findTaskByPid pid else .ok w.current

/-- The tests of `cap_set_all` and `cap_set_pg`. -/
def inGroup (pid : ℤ) (i : Fin n) : Bool :=
  if pid = -1 then i ≠ w.current ∧ (w.task i).pid ≠ 1 else (w.task i).pgrp = -pid

/-- Whose sets are set when `target` has been looked at. -/
def reaches (pid : ℤ) (target i : Fin n) : Bool :=
  if pid < 0 then w.inGroup pid i else i = target

def setCaps (pid : ℤ) (target : Fin n) (new : Caps) : World n :=
  { w with task := fun i ↦
      if w.reaches pid target i then { w.task i with cap := new } else w.task i }

/-- The error that is returned is negative. -/
def sysCapset (r : Request) : Except ℤ (World n) := do
  let version ← getUser r.version
  check (version = linuxCapabilityVersion) (if r.writable then eInval else eFault)
  let pid ← getUser r.pid
  check (pid = 0 ∨ capRaised w.caller.cap.effective capSetpcap) ePerm
  let new ← getUser r.data
  let target ← w.target pid
  let old := (w.task target).cap
  let permitted := w.caller.cap.permitted
  check (capIssubset new.inheritable (capCombine old.inheritable permitted)) ePerm
  check (capIssubset new.permitted (capCombine old.permitted permitted)) ePerm
  check (capIssubset new.effective new.permitted) ePerm
  return w.setCaps pid target new

/-! ## The rules -/

/-- The capabilities of `new` that are not in `old` are in `allowed`. -/
def Raises (old new allowed : BitVec 32) : Prop :=
  ∀ c, capRaised new c → capRaised old c ∨ capRaised allowed c

/-- The restrictions that are stated before `sys_capset`, for each task whose sets have changed. -/
def Obeys (w' : World n) : Prop :=
  ∀ i, (w'.task i).cap ≠ (w.task i).cap →
    Raises (w.task i).cap.inheritable (w'.task i).cap.inheritable w.caller.cap.permitted ∧
    Raises (w.task i).cap.permitted (w'.task i).cap.permitted w.caller.cap.permitted ∧
    Raises 0 (w'.task i).cap.effective (w'.task i).cap.permitted

end World

open World

theorem raises_iff {old new allowed : BitVec 32} :
    capIssubset new (capCombine old allowed) ↔ Raises old new allowed := by
  rw [capIssubset, decide_eq_true_eq, BitVec.eq_of_getLsbD_eq_iff]
  refine ⟨fun h c hc ↦ ?_, fun h c hlt ↦ ?_⟩
  · simp_all [capCombine, capRaised, BitVec.lt_of_getLsbD hc, or_iff_not_imp_left]
  · have := h c
    simp_all [capCombine, capRaised, or_iff_not_imp_left]

theorem of_getUser {α : Type} {o : Option α} {a : α} (h : getUser o = .ok a) : o = some a := by
  cases o <;> cases h
  rfl

theorem of_check {ok : Bool} {e : ℤ} {u : Unit} (h : check ok e = .ok u) : ok := by
  cases ok
  · cases h
  · rfl

variable {n : ℕ} {w w' : World n} {r : Request}

/-- What a call that succeeds has made sure of. -/
theorem sysCapset_spec (h : w.sysCapset r = .ok w') : ∃ pid new target, r.pid = some pid ∧
    r.data = some new ∧ w.target pid = .ok target ∧
    Raises (w.task target).cap.inheritable new.inheritable w.caller.cap.permitted ∧
    Raises (w.task target).cap.permitted new.permitted w.caller.cap.permitted ∧
    Raises 0 new.effective new.permitted ∧ w.setCaps pid target new = w' := by
  obtain ⟨_, -, h⟩ := Machine.exists_of_bind h
  obtain ⟨_, -, h⟩ := Machine.exists_of_bind h
  obtain ⟨pid, hpid, h⟩ := Machine.exists_of_bind h
  obtain ⟨_, -, h⟩ := Machine.exists_of_bind h
  obtain ⟨new, hnew, h⟩ := Machine.exists_of_bind h
  obtain ⟨target, htarget, h⟩ := Machine.exists_of_bind h
  obtain ⟨_, hinh, h⟩ := Machine.exists_of_bind h
  obtain ⟨_, hperm, h⟩ := Machine.exists_of_bind h
  obtain ⟨_, heff, h⟩ := Machine.exists_of_bind h
  refine ⟨pid, new, target, of_getUser hpid, of_getUser hnew, htarget,
    raises_iff.1 (of_check hinh), raises_iff.1 (of_check hperm), raises_iff.1 ?_, by cases h; rfl⟩
  rw [capCombine, BitVec.ofNat_eq_ofNat, BitVec.zero_or]
  exact of_check heff

/-- **When `sys_capset` obeys its rules**: for one task always, and for several if each of them can
inherit already what is to be inherited and is not permitted to the caller. -/
theorem sysCapset_obeys_iff (h : w.sysCapset r = .ok w') : w.Obeys w' ↔
    ∀ pid ∈ r.pid, ∀ new ∈ r.data, pid < 0 → ∀ i, w.inGroup pid i →
      Raises (w.task i).cap.inheritable new.inheritable w.caller.cap.permitted := by
  obtain ⟨pid, new, target, hpid, hdata, htarget, hinh, hperm, heff, rfl⟩ := sysCapset_spec h
  rw [hpid, hdata]
  have hnew {i} (hi : w.reaches pid target i) : ((w.setCaps pid target new).task i).cap = new := by
    simp [setCaps, hi]
  constructor
  · rintro hobeys _ ⟨⟩ _ ⟨⟩ hneg i hi
    have hi : w.reaches pid target i := by rwa [reaches, if_pos hneg]
    by_cases heq : new = (w.task i).cap
    · exact fun c hc ↦ Or.inl (heq ▸ hc)
    · simpa [hnew hi] using (hobeys i ((hnew hi).symm ▸ heq)).1
  · intro hcond i hne
    by_cases hi : w.reaches pid target i
    · rw [hnew hi]
      rw [reaches] at hi
      split_ifs at hi with hneg
      · rw [World.target, if_neg (by omega)] at htarget
        cases htarget
        exact ⟨hcond pid rfl new rfl hneg i hi, fun c hc ↦ Or.inr ((hperm c hc).elim id id), heff⟩
      · rw [of_decide_eq_true hi]
        exact ⟨hinh, hperm, heff⟩
    · exact absurd (by simp [setCaps, hi]) hne

/-- A task, and another that can inherit what is not permitted to it. -/
def two : World 2 := ⟨![⟨2, 2, ⟨0, 0, 0⟩⟩, ⟨3, 3, ⟨256, 256, 1⟩⟩], .last 1⟩

/-- What is permitted to the caller is passed on to the other task. -/
theorem sysCapset_obeys_permitted : two.Obeys (two.setCaps (-1) (.last 1) ⟨256, 256, 256⟩) :=
  (sysCapset_obeys_iff (r := ⟨some linuxCapabilityVersion, true, some (-1), some ⟨256, 256, 256⟩⟩)
    rfl).2 (by
      rintro _ ⟨⟩ _ ⟨⟩ - i - c hc
      exact Or.inr hc)

/-- The other task gets to inherit capability 0, which is not permitted to the caller. -/
theorem sysCapset_raises : ∃ w', two.sysCapset
    ⟨some linuxCapabilityVersion, true, some (-1), some ⟨0, 0, 1⟩⟩ = .ok w' ∧ ¬ two.Obeys w' :=
  ⟨_, rfl, fun h ↦ absurd ((h 0 (by decide)).1 0 rfl) (by decide)⟩

/-! ## Runs -/

/-- Tasks that set capabilities, each when it is running. -/
def machine (n : ℕ) : Machine (World n) (Fin n × Request) ℤ where
  init _ := True
  legal _ _ := True
  exec w c := { w with current := c.1 }.sysCapset c.2

/-- What is in the sets of `c` is in those of some task. -/
structure Covers (t : Fin n → TaskStruct) (c : Caps) : Prop where
  permitted : ∀ i, capRaised c.permitted i → ∃ j, capRaised (t j).cap.permitted i
  inheritable : ∀ i, capRaised c.inheritable i →
    ∃ j, capRaised (t j).cap.inheritable i ∨ capRaised (t j).cap.permitted i
  effective : (∀ j, Raises 0 (t j).cap.effective (t j).cap.permitted) →
    Raises 0 c.effective c.permitted

theorem covers_self (t : Fin n → TaskStruct) (i : Fin n) : Covers t (t i).cap :=
  ⟨fun _ h ↦ ⟨i, h⟩, fun _ h ↦ ⟨i, .inl h⟩, fun h ↦ h i⟩

theorem Covers.trans {t t' : Fin n → TaskStruct} {c : Caps} (h' : Covers t' c)
    (h : ∀ i, Covers t (t' i).cap) : Covers t c where
  permitted i hi := by
    obtain ⟨j, hj⟩ := h'.permitted i hi
    exact (h j).permitted i hj
  inheritable i hi := by
    obtain ⟨j, hj | hj⟩ := h'.inheritable i hi
    · exact (h j).inheritable i hj
    · exact ((h j).permitted i hj).imp fun _ ↦ .inr
  effective h0 := h'.effective fun j ↦ (h j).effective h0

theorem covers_sysCapset (h : w.sysCapset r = .ok w') (i : Fin n) :
    Covers w.task (w'.task i).cap := by
  obtain ⟨pid, new, target, -, -, -, hinh, hperm, heff, rfl⟩ := sysCapset_spec h
  change Covers w.task (ite _ _ _ : TaskStruct).cap
  split
  · exact ⟨fun c hc ↦ (hperm c hc).elim (⟨_, ·⟩) (⟨_, ·⟩),
      fun c hc ↦ (hinh c hc).elim (⟨_, .inl ·⟩) (⟨_, .inr ·⟩), fun _ ↦ heff⟩
  · exact covers_self w.task i

/-- **Capabilities are not created**: what a task has after a run, some task had before it. -/
theorem run_covers (hp : (machine n).Path (fun _ _ ↦ True) w w') (i : Fin n) :
    Covers w.task (w'.task i).cap := by
  induction hp generalizing i with
  | refl => exact covers_self w.task i
  | step _ _ _ he ih => exact (covers_sysCapset he i).trans ih

/-- A capability is passed on. -/
theorem run_covers_two :
    ∃ w', (machine 2).Path (fun _ _ ↦ True) two w' ∧ Covers two.task (w'.task 0).cap := by
  have h : (machine 2).Path (fun _ _ ↦ True) two _ := .step (a := (.last 1,
    ⟨some linuxCapabilityVersion, true, some (-1), some ⟨256, 256, 256⟩⟩)) .refl trivial trivial rfl
  exact ⟨_, h, run_covers h 0⟩

end Linux24.Capability
