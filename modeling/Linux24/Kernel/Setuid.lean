import Linux24.Lib.Machine

/-!
# Giving up root: `kernel/sys.c`

A process that has been root has its capabilities taken away as its user ids change.
`cap_emulate_setxuid` does so by comparing the ids before and after: all is lost with the last id
that is 0, and what is effective is lost with the effective id.  `sys_setfsuid` does the same for
`CAP_FS_MASK` and `fsuid`, the id that counts for files.

But the other three calls change `fsuid` as well, since they set it to the effective id, and they do
not look at what it was.  A process that has given up its effective id and got back `fsuid` alone
has the capabilities for files; if it then sets its effective id to what it is, `fsuid` is lost and
the capabilities are not.  Apart from this, nothing is kept (`setuid_drops`).
-/

set_option autoImplicit false

namespace Linux24.Setuid

/-! ## The code -/

def capSetuid : ℕ := 7

def capFsMask : BitVec 32 := 0x1f

def ePerm : ℤ := 1

def eAgain : ℤ := 11

/-- `(uid_t) -1`, for an id that is to be left as it is. -/
def noUid : BitVec 32 := -1

/-- `cap_raised`. -/
def capRaised (c : BitVec 32) (flag : ℕ) : Bool := c.getLsbD flag

/-- What the calls use of `current`, with `mm->dumpable` and the global `securebits`. -/
structure TaskStruct where
  uid : BitVec 32
  euid : BitVec 32
  suid : BitVec 32
  fsuid : BitVec 32
  capPermitted : BitVec 32
  capEffective : BitVec 32
  keepCapabilities : Bool
  dumpable : Bool
  securebits : BitVec 32
deriving DecidableEq

/-- A call, and whether `alloc_uid` gets memory in it. -/
inductive Call
  | setuid (mem : Bool) (uid : BitVec 32)
  | setreuid (mem : Bool) (ruid euid : BitVec 32)
  | setresuid (mem : Bool) (ruid euid suid : BitVec 32)
  | setfsuid (uid : BitVec 32)

namespace TaskStruct

variable (t : TaskStruct)

def capable (cap : ℕ) : Bool := capRaised t.capEffective cap

/-- `issecure(SECURE_NO_SETUID_FIXUP)`. -/
def noSetuidFixup : Bool := t.securebits.getLsbD 2

def capEmulateSetxuid (oldRuid oldEuid oldSuid : BitVec 32) : TaskStruct :=
  let t := if (oldRuid = 0 ∨ oldEuid = 0 ∨ oldSuid = 0) ∧
      (t.uid ≠ 0 ∧ t.euid ≠ 0 ∧ t.suid ≠ 0) ∧ ¬ t.keepCapabilities then
    { t with capPermitted := 0, capEffective := 0 } else t
  let t := if oldEuid = 0 ∧ t.euid ≠ 0 then { t with capEffective := 0 } else t
  if oldEuid ≠ 0 ∧ t.euid = 0 then { t with capEffective := t.capPermitted } else t

/-- What the three calls end with: the change of the ids is made up for. -/
def fixup (old : TaskStruct) : TaskStruct :=
  if t.noSetuidFixup then t else t.capEmulateSetxuid old.uid old.euid old.suid

/-- `set_user`, which fails if there is no memory. -/
def setUser (mem : Bool) (newRuid : BitVec 32) (dumpclear : Bool) : Option TaskStruct :=
  if mem then some { t with uid := newRuid, dumpable := t.dumpable && !dumpclear } else none

/-- `set_user` where the real id changes. -/
def changeUser (mem : Bool) (newRuid : BitVec 32) (dumpclear : Bool) : Option TaskStruct :=
  if newRuid ≠ t.uid then t.setUser mem newRuid dumpclear else some t

/-- The new effective and saved ids. -/
def setEuid (euid suid : BitVec 32) : TaskStruct :=
  { t with euid, suid, fsuid := euid, dumpable := t.dumpable && decide (euid = t.euid) }

def sysSetreuid (mem : Bool) (ruid euid : BitVec 32) : TaskStruct × ℤ :=
  let newRuid := if ruid ≠ noUid then ruid else t.uid
  let newEuid := if euid ≠ noUid then euid else t.euid
  if ruid ≠ noUid ∧ t.uid ≠ ruid ∧ t.euid ≠ ruid ∧ ¬ t.capable capSetuid then (t, -ePerm)
  else if euid ≠ noUid ∧ t.uid ≠ euid ∧ t.euid ≠ euid ∧ t.suid ≠ euid ∧ ¬ t.capable capSetuid then
    (t, -ePerm)
  else
    match t.changeUser mem newRuid (newEuid ≠ t.euid) with
    | none => (t, -eAgain)
    | some u =>
      let suid := if ruid ≠ noUid ∨ euid ≠ noUid ∧ euid ≠ t.uid then newEuid else u.suid
      ((u.setEuid newEuid suid).fixup t, 0)

def sysSetuid (mem : Bool) (uid : BitVec 32) : TaskStruct × ℤ :=
  if t.capable capSetuid then
    match t.changeUser mem uid (t.euid ≠ uid) with
    | none => (t, -eAgain)
    | some u => ((u.setEuid uid uid).fixup t, 0)
  else if uid ≠ t.uid ∧ uid ≠ t.suid then (t, -ePerm)
  else ((t.setEuid uid t.suid).fixup t, 0)

/-- Whether a process without `CAP_SETUID` may not have the id. -/
def foreign (id : BitVec 32) : Prop := id ≠ noUid ∧ id ≠ t.uid ∧ id ≠ t.euid ∧ id ≠ t.suid

instance (id : BitVec 32) : Decidable (t.foreign id) := inferInstanceAs (Decidable (_ ∧ _))

def sysSetresuid (mem : Bool) (ruid euid suid : BitVec 32) : TaskStruct × ℤ :=
  if ¬ t.capable capSetuid ∧ (t.foreign ruid ∨ t.foreign euid ∨ t.foreign suid) then (t, -ePerm)
  else
    -- `euid` may be -1 in the second argument of `set_user`
    match t.changeUser mem (if ruid ≠ noUid then ruid else t.uid) (euid ≠ t.euid) with
    | none => (t, -eAgain)
    | some u =>
      ((u.setEuid (if euid ≠ noUid then euid else u.euid)
        (if suid ≠ noUid then suid else u.suid)).fixup t, 0)

/-- What is effective after `fsuid` has changed. -/
def fsuidCaps (oldFsuid : BitVec 32) : BitVec 32 :=
  if t.noSetuidFixup then t.capEffective
  else if oldFsuid = 0 ∧ t.fsuid ≠ 0 then t.capEffective &&& ~~~capFsMask
  else if oldFsuid ≠ 0 ∧ t.fsuid = 0 then t.capEffective ||| (t.capPermitted &&& capFsMask)
  else t.capEffective

def sysSetfsuid (uid : BitVec 32) : TaskStruct × ℤ :=
  let u := if uid = t.uid ∨ uid = t.euid ∨ uid = t.suid ∨ uid = t.fsuid ∨ t.capable capSetuid then
    { t with fsuid := uid, dumpable := t.dumpable && decide (uid = t.fsuid) } else t
  ({ u with capEffective := u.fsuidCaps t.fsuid }, t.fsuid.toInt)

def exec : Call → TaskStruct
  | .setuid mem uid => (t.sysSetuid mem uid).1
  | .setreuid mem ruid euid => (t.sysSetreuid mem ruid euid).1
  | .setresuid mem ruid euid suid => (t.sysSetresuid mem ruid euid suid).1
  | .setfsuid uid => (t.sysSetfsuid uid).1

end TaskStruct

/-- A process that starts as root, with the fix-up on and without `keep_capabilities`. -/
def machine : Machine TaskStruct Call Empty where
  init t := t.uid = 0 ∧ t.euid = 0 ∧ t.suid = 0 ∧ t.fsuid = 0 ∧ t.capEffective = t.capPermitted ∧
    t.keepCapabilities = false ∧ t.noSetuidFixup = false
  legal _ _ := True
  exec t c := .ok (t.exec c)

/-! ## What is lost -/

namespace TaskStruct

variable {t u : TaskStruct} {c : Call}

/-- What holds in every run. -/
structure Inv (t : TaskStruct) : Prop where
  keep : t.keepCapabilities = false
  noFixup : t.noSetuidFixup = false
  permitted : t.capPermitted ≠ 0 → t.uid = 0 ∨ t.euid = 0 ∨ t.suid = 0
  effective : ∀ cap, capRaised t.capEffective cap → ¬ capRaised capFsMask cap → t.euid = 0

/-- The capabilities for files go with the effective id or with `fsuid`. -/
def Guarded (t : TaskStruct) : Prop :=
  ∀ cap, capRaised t.capEffective cap → capRaised capFsMask cap → t.euid = 0 ∨ t.fsuid = 0

/-- The process is root, or has no capabilities for files. -/
def Clean (t : TaskStruct) : Prop := t.euid = 0 ∨ t.capEffective &&& capFsMask = 0

/-- The calls that set `fsuid` to the effective id are made in a clean state. -/
def Careful (t : TaskStruct) : Call → Prop
  | .setfsuid _ => True
  | _ => t.Clean

theorem Clean.euid_eq_zero (h : Clean t) {cap : ℕ} (hcap : capRaised t.capEffective cap)
    (hfs : capRaised capFsMask cap) : t.euid = 0 := by
  refine h.resolve_right fun h0 ↦ ?_
  have hbit : (t.capEffective &&& capFsMask).getLsbD cap = true := by
    rw [BitVec.getLsbD_and]
    exact Bool.and_eq_true_iff.2 ⟨hcap, hfs⟩
  simp [h0] at hbit

/-- What a call leaves alone before it adapts the capabilities. -/
structure Changes (t u : TaskStruct) : Prop where
  keep : u.keepCapabilities = t.keepCapabilities
  noFixup : u.noSetuidFixup = t.noSetuidFixup
  capPermitted : u.capPermitted = t.capPermitted
  capEffective : u.capEffective = t.capEffective

theorem changeUser_changes {mem dump : Bool} {id : BitVec 32}
    (h : t.changeUser mem id dump = some u) (euid suid : BitVec 32) :
    Changes t (u.setEuid euid suid) := by
  rw [changeUser, setUser] at h
  split_ifs at h <;> cases h <;> exact ⟨rfl, rfl, rfl, rfl⟩

/-- A call fails and does nothing, or changes ids, or only `fsuid`. -/
theorem exec_cases (t : TaskStruct) (c : Call) : t.exec c = t ∨
    (∃ u, Changes t u ∧ (Careful t c → t.Clean) ∧ t.exec c = u.fixup t) ∨
    ∃ u, Changes t u ∧ u.uid = t.uid ∧ u.euid = t.euid ∧ u.suid = t.suid ∧
      t.exec c = { u with capEffective := u.fsuidCaps t.fsuid } := by
  cases c with
  | setuid mem uid =>
    rw [exec, sysSetuid]
    split_ifs
    · split
      · exact .inl rfl
      · exact .inr (.inl ⟨_, changeUser_changes ‹_› uid uid, id, rfl⟩)
    · exact .inl rfl
    · exact .inr (.inl ⟨t.setEuid uid t.suid, ⟨rfl, rfl, rfl, rfl⟩, id, rfl⟩)
  | setreuid mem ruid euid =>
    rw [exec, sysSetreuid]
    split
    · exact .inl rfl
    split
    · exact .inl rfl
    split
    · exact .inl rfl
    · exact .inr (.inl ⟨_, changeUser_changes ‹_› _ _, id, rfl⟩)
  | setresuid mem ruid euid suid =>
    rw [exec, sysSetresuid]
    split
    · exact .inl rfl
    split
    · exact .inl rfl
    · exact .inr (.inl ⟨_, changeUser_changes ‹_› _ _, id, rfl⟩)
  | setfsuid uid =>
    refine .inr (.inr ⟨_, ?_, ?_, ?_, ?_, rfl⟩) <;> split_ifs
    all_goals first | rfl | exact ⟨rfl, rfl, rfl, rfl⟩

theorem fsuidCaps_raised {old : BitVec 32} {cap : ℕ} (hf : u.noSetuidFixup = false)
    (h : capRaised (u.fsuidCaps old) cap) :
    capRaised u.capEffective cap ∧ (capRaised capFsMask cap → old = 0 → u.fsuid = 0) ∨
      capRaised capFsMask cap ∧ u.fsuid = 0 := by
  rw [fsuidCaps] at h
  split_ifs at h <;> simp [capRaised] at h ⊢ <;> grind

/-- What the fix-up leaves. -/
theorem Inv.fixup_eq (h : Inv t) (hu : Changes t u) :
    ∃ p e, u.fixup t = { u with capPermitted := p, capEffective := e } ∧
      (p ≠ 0 → u.uid = 0 ∨ u.euid = 0 ∨ u.suid = 0) ∧
      (e = 0 ∨ u.euid = 0 ∨ e = t.capEffective ∧ t.euid ≠ 0) := by
  have hperm := h.permitted
  have hkeep := hu.keep.trans h.keep
  rw [← hu.capPermitted] at hperm
  rw [fixup, if_neg (by rw [hu.noFixup, h.noFixup]; simp), capEmulateSetxuid, ← hu.capEffective]
  split_ifs <;> exact ⟨_, _, rfl, by grind⟩

theorem Inv.exec (h : Inv t) (c : Call) : Inv (t.exec c) := by
  rcases t.exec_cases c with heq | ⟨u, hu, -, heq⟩ | ⟨u, hu, hr, he, hs, heq⟩
  · rwa [heq]
  · obtain ⟨p, e, hfix, hp, he⟩ := h.fixup_eq hu
    rw [heq, hfix]
    refine ⟨hu.keep.trans h.keep, hu.noFixup.trans h.noFixup, hp, fun cap hcap hfs ↦ ?_⟩
    rcases he with rfl | he | ⟨rfl, hne⟩
    · simp [capRaised] at hcap
    · exact he
    · exact absurd (h.effective cap hcap hfs) hne
  · have hfix := hu.noFixup.trans h.noFixup
    rw [heq]
    refine ⟨hu.keep.trans h.keep, hfix, ?_, fun cap hcap hfs ↦ ?_⟩
    · simpa only [hr, he, hs, hu.capPermitted] using h.permitted
    · obtain ⟨hcap, -⟩ | ⟨hcap, -⟩ := fsuidCaps_raised hfix hcap
      · exact he.trans (h.effective cap (hu.capEffective ▸ hcap) hfs)
      · exact absurd hcap hfs

theorem Guarded.exec (hg : Guarded t) (h : Inv t) (hc : Careful t c) : Guarded (t.exec c) := by
  rcases t.exec_cases c with heq | ⟨u, hu, hclean, heq⟩ | ⟨u, hu, -, he, -, heq⟩
  · rwa [heq]
  · obtain ⟨p, e, hfix, -, he⟩ := h.fixup_eq hu
    rw [heq, hfix]
    intro cap hcap hfs
    rcases he with rfl | he | ⟨rfl, hne⟩
    · simp [capRaised] at hcap
    · exact .inl he
    · exact absurd ((hclean hc).euid_eq_zero hcap hfs) hne
  · rw [heq]
    intro cap hcap hfs
    obtain ⟨hcap, hold⟩ | ⟨-, hf⟩ := fsuidCaps_raised (hu.noFixup.trans h.noFixup) hcap
    · exact (hg cap (hu.capEffective ▸ hcap) hfs).imp he.trans (hold hfs)
    · exact .inr hf

end TaskStruct

open TaskStruct

instance (t : TaskStruct) (c : Call) : Decidable (machine.legal t c) := .isTrue trivial

theorem inv_init {t : TaskStruct} (h : machine.init t) : Inv t ∧ Guarded t :=
  ⟨⟨h.2.2.2.2.2.1, h.2.2.2.2.2.2, fun _ ↦ .inl h.1, fun _ _ _ ↦ h.2.1⟩, fun _ _ _ ↦ .inl h.2.1⟩

/-- **Giving up root.**  Without an id that is 0 nothing is permitted, and without an effective id
that is 0 nothing outside `CAP_FS_MASK` is effective.  And if the calls are careful, what is
effective in `CAP_FS_MASK` needs an effective id or an `fsuid` that is 0. -/
theorem setuid_drops {s t : TaskStruct} (hs : machine.init s)
    (ht : machine.Path (fun _ _ ↦ True) s t) :
    (t.capPermitted ≠ 0 → t.uid = 0 ∨ t.euid = 0 ∨ t.suid = 0) ∧
    (∀ cap, capRaised t.capEffective cap → ¬ capRaised capFsMask cap → t.euid = 0) ∧
    (machine.Path Careful s t → ∀ cap, capRaised t.capEffective cap → capRaised capFsMask cap →
      t.euid = 0 ∨ t.fsuid = 0) := by
  have hinv : Inv t := (ht.reachable (.init hs)).invariant (fun s hs ↦ (inv_init hs).1)
    fun s c u h _ he ↦ by
      cases he
      exact h.exec c
  refine ⟨hinv.permitted, hinv.effective, fun hpath ↦ ?_⟩
  suffices h : Inv t ∧ Guarded t from h.2
  clear ht hinv
  induction hpath with
  | refl => exact inv_init hs
  | step _ _ hc he ih =>
    cases he
    exact ⟨ih.1.exec _, ih.2.exec ih.1 hc⟩

/-- Root with all capabilities. -/
def root : TaskStruct := ⟨0, 0, 0, 0, -1, -1, false, true, 0⟩

theorem init_root : machine.init root := by simp [machine, root, noSetuidFixup]

/-- The effective id is given up, and `fsuid` is got back. -/
def fileServer : TaskStruct := ⟨0, 1000, 1000, 0, -1, 0x1f, false, false, 0⟩

/-- The capabilities for files come back with `fsuid`. -/
theorem setuid_drops_fileServer : machine.Path Careful root fileServer ∧
    fileServer.capEffective = capFsMask ∧
    ∀ cap, capRaised capFsMask cap → fileServer.euid = 0 ∨ fileServer.fsuid = 0 := by
  have hpath : ∀ P, P root (.setreuid true noUid 1000) →
      P ⟨0, 1000, 1000, 1000, -1, 0, false, false, 0⟩ (.setfsuid 0) →
      machine.Path P root fileServer :=
    fun P h h' ↦ .step (.step .refl trivial h rfl) trivial h' (by decide)
  have hcareful := hpath Careful (.inl rfl) trivial
  exact ⟨hcareful, rfl, fun cap h ↦
    (setuid_drops init_root (hpath _ trivial trivial)).2.2 hcareful cap h h⟩

/-- They stay when the effective id is set once more. -/
theorem setuid_keeps : ∃ t, machine.Reachable t ∧ capRaised t.capEffective 0 ∧
    capRaised capFsMask 0 ∧ t.euid ≠ 0 ∧ t.fsuid ≠ 0 := by
  have htrace : machine.trace root [.setreuid true noUid 1000, .setfsuid 0, .setuid true 1000] =
      some ⟨0, 1000, 1000, 1000, -1, 0x1f, false, false, 0⟩ := by decide
  exact ⟨_, (Machine.Reachable.init init_root).trace htrace, by decide⟩

end Linux24.Setuid
