import Linux24.Fs.Locks

/-!
# From `struct flock` to `struct file_lock`: `fs/locks.c`

`fcntl` takes a range relative to the start of the file, to the position in it or to its end.
`flock_to_posix_lock` computes the range in `off_t`, which has 32 bits, and looks for an overflow in
the sign of the sums; `flock64_to_posix_lock` does the same in `loff_t`.  But a position or a size
is a `loff_t` too, and in the first of the two it is cut off before anything is looked at.
`flockToPosixLock_converts_iff` says that this is the only thing that goes wrong.
-/

set_option autoImplicit false

namespace Linux24.Locks

/-- `EINVAL` and `EOVERFLOW`. -/
inductive Refusal
  | eInval
  | eOverflow
deriving DecidableEq, Repr

/-- `struct flock`, and `struct flock64`. -/
structure Flock where
  lType : ℤ
  lWhence : ℤ
  lStart : ℤ
  lLen : ℤ

/-- The open file, and the process that calls. -/
structure Caller where
  file : ℕ
  fPos : ℤ
  iSize : ℤ
  files : ℕ
  pid : ℕ

/-- Arithmetic on `off_t` wraps around. -/
def off (x : ℤ) : ℤ := (x + 2147483648) % 4294967296 - 2147483648

/-- What `l_start` is relative to. -/
def Caller.base (p : Caller) (lWhence : ℤ) : Except Refusal ℤ :=
  if lWhence = 0 then .ok 0
  else if lWhence = 1 then .ok p.fPos
  else if lWhence = 2 then .ok p.iSize
  else .error .eInval

def assignType (type : ℤ) : Except Refusal LockType :=
  if type = 0 then .ok .rdlck
  else if type = 1 then .ok .wrlck
  else if type = 2 then .ok .unlck
  else .error .eInval

/-- The two conversions, in a type that `wrap` says how to store into. -/
def toPosixLock (wrap : ℤ → ℤ) (p : Caller) (fl : FileLock) (l : Flock) :
    Except Refusal FileLock := do
  let base ← p.base l.lWhence
  let start := wrap (wrap base + l.lStart)
  if start < 0 ∨ l.lLen < 0 then .error .eInval
  let stop := wrap (start + l.lLen - 1)
  if 0 < l.lLen ∧ stop < 0 then .error .eOverflow
  let type ← assignType l.lType
  return { fl with
    flOwner := p.files, flPid := p.pid, flFile := p.file, flFlags := .posix, flType := type
    inProgress := false, mand := none, flStart := start
    flEnd := if l.lLen = 0 then offsetMax else stop }

def flockToPosixLock : Caller → FileLock → Flock → Except Refusal FileLock := toPosixLock off

def flock64ToPosixLock : Caller → FileLock → Flock → Except Refusal FileLock := toPosixLock loff

/-- The sums are not negative, and the type is one that there is. -/
structure Flock.Accepted (l : Flock) (wrap : ℤ → ℤ) (base : ℤ) : Prop where
  start : 0 ≤ wrap (wrap base + l.lStart)
  len : 0 ≤ l.lLen
  stop : 0 < l.lLen → 0 ≤ wrap (wrap (wrap base + l.lStart) + l.lLen - 1)
  type : 0 ≤ l.lType ∧ l.lType ≤ 2

/-- Nothing overflows in the 32 bits that are left of the first byte. -/
structure Flock.Fits (l : Flock) (base : ℤ) : Prop where
  start : (base + l.lStart) % 4294967296 < 2147483648
  len : 0 ≤ l.lLen
  stop : (base + l.lStart) % 4294967296 + l.lLen ≤ 2147483648
  type : 0 ≤ l.lType ∧ l.lType ≤ 2

variable {wrap : ℤ → ℤ} {p : Caller} {fl fl' : FileLock} {l : Flock} {base : ℤ}

theorem Flock.accepted_off_iff (hlen : l.lLen ≤ 2147483647) :
    l.Accepted off base ↔ l.Fits base := by
  have hstart : off (off base + l.lStart) = off (base + l.lStart) := by
    rw [off, off, off]
    omega
  constructor
  · rintro ⟨h₁, h₂, h₃, h₄⟩
    rw [hstart, off] at h₁ h₃
    rw [off] at h₃
    exact ⟨by omega, h₂, by omega, h₄⟩
  · rintro ⟨h₁, h₂, h₃, h₄⟩
    refine ⟨?_, h₂, fun hpos ↦ ?_, h₄⟩
    · rw [hstart, off]
      omega
    · rw [hstart, off, off]
      omega

theorem exists_assignType (type : ℤ) : (∃ t, assignType type = .ok t) ↔ 0 ≤ type ∧ type ≤ 2 := by
  rw [assignType]
  split_ifs <;> simp <;> omega

theorem exists_toPosixLock (fl : FileLock) (hbase : p.base l.lWhence = .ok base)
    (h : l.Accepted wrap base) : ∃ fl', toPosixLock wrap p fl l = .ok fl' := by
  obtain ⟨type, htype⟩ := (exists_assignType l.lType).2 h.type
  have hstart := h.start
  have hlen := h.len
  have hstop := h.stop
  rw [toPosixLock, hbase]
  dsimp only [bind, Except.bind]
  rw [if_neg (by omega), if_neg (by omega), htype]
  exact ⟨_, rfl⟩

theorem toPosixLock_ok (hok : toPosixLock wrap p fl l = .ok fl') :
    ∃ base type, p.base l.lWhence = .ok base ∧ l.Accepted wrap base ∧
      assignType l.lType = .ok type ∧ fl' = { fl with
        flOwner := p.files, flPid := p.pid, flFile := p.file, flFlags := .posix, flType := type
        inProgress := false, mand := none, flStart := wrap (wrap base + l.lStart)
        flEnd := if l.lLen = 0 then offsetMax
          else wrap (wrap (wrap base + l.lStart) + l.lLen - 1) } := by
  obtain ⟨base, hbase, hok⟩ := Machine.exists_of_bind hok
  dsimp only at hok
  split at hok
  · cases hok
  split at hok
  · cases hok
  obtain ⟨type, htype, hok⟩ := Machine.exists_of_bind hok
  cases hok
  exact ⟨base, type, hbase, ⟨by omega, by omega, by omega, (exists_assignType _).1 ⟨type, htype⟩⟩,
    htype, rfl⟩

/-- What is accepted is the range that was asked for, and `flock64_to_posix_lock` agrees. -/
def Converts (p : Caller) (fl : FileLock) (l : Flock) : Prop :=
  ∀ fl', flockToPosixLock p fl l = .ok fl' → ∃ base, p.base l.lWhence = .ok base ∧
    fl'.flStart = base + l.lStart ∧
    (fl'.flEnd = if l.lLen = 0 then offsetMax else base + l.lStart + l.lLen - 1) ∧
    ∀ fl'', flock64ToPosixLock p fl l = .ok fl'' → fl'' = fl'

/-- **When the conversion is exact**: unless the first byte has no `off_t` and what is left of it
does. -/
theorem flockToPosixLock_converts_iff (hlen : l.lLen ≤ 2147483647) :
    Converts p fl l ↔ ∀ base, p.base l.lWhence = .ok base → l.Fits base →
      0 ≤ base + l.lStart ∧ base + l.lStart ≤ 2147483647 := by
  constructor
  · intro h base hbase hfits
    have hacc := (Flock.accepted_off_iff hlen).2 hfits
    obtain ⟨fl', hok⟩ := exists_toPosixLock fl hbase hacc
    obtain ⟨base', hbase', hstart, -⟩ := h fl' hok
    obtain ⟨_, type, hbase'', -, -, rfl⟩ := toPosixLock_ok hok
    cases hbase.symm.trans hbase'
    cases hbase.symm.trans hbase''
    have hpos := hacc.start
    dsimp only at hstart
    rw [hstart] at hpos
    rw [off] at hstart
    omega
  · intro h fl' hok
    obtain ⟨base, type, hbase, hacc, htype, rfl⟩ := toPosixLock_ok hok
    have hin := h base hbase ((Flock.accepted_off_iff hlen).1 hacc)
    have hfirst : off (off base + l.lStart) = base + l.lStart ∧
        loff (loff base + l.lStart) = base + l.lStart := by
      rw [off, off, loff, loff]
      omega
    have hlast : (if l.lLen = 0 then offsetMax else off (base + l.lStart + l.lLen - 1)) =
        (if l.lLen = 0 then offsetMax else base + l.lStart + l.lLen - 1) ∧
        (if l.lLen = 0 then offsetMax else loff (base + l.lStart + l.lLen - 1)) =
          if l.lLen = 0 then offsetMax else base + l.lStart + l.lLen - 1 := by
      have hlen := hacc.len
      have hstop := hacc.stop
      rw [off] at hstop ⊢
      rw [loff]
      split <;> omega
    refine ⟨base, hbase, hfirst.1, ?_, fun fl'' hok' ↦ ?_⟩
    · rw [hfirst.1, hlast.1]
    · obtain ⟨_, type', hbase', -, htype', rfl⟩ := toPosixLock_ok hok'
      cases hbase.symm.trans hbase'
      cases htype.symm.trans htype'
      rw [hfirst.1, hfirst.2, hlast.1, hlast.2]

/-- A write lock on the byte at the position, which is 1. -/
theorem flockToPosixLock_converts_one :
    Converts ⟨1, 1, 0, 1, 1⟩ ⟨0, 0, 0, .posix, .rdlck, false, 0, 0, 0, none⟩ ⟨1, 1, 0, 1⟩ := by
  refine (flockToPosixLock_converts_iff (by decide)).2 fun base hbase _ ↦ ?_
  cases hbase
  decide

/-- The position is `4294967296`, and the first byte of the file is locked. -/
theorem flockToPosixLock_cut_off :
    ¬ Converts ⟨1, 4294967296, 0, 1, 1⟩ ⟨0, 0, 0, .posix, .rdlck, false, 0, 0, 0, none⟩
      ⟨1, 1, 0, 1⟩ := by
  intro h
  obtain ⟨base, hbase, hstart, -⟩ := h _ rfl
  cases hbase
  cases hstart

end Linux24.Locks
