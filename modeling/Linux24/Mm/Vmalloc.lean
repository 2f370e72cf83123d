import Linux24.Lib.Intervals
import Linux24.Lib.Machine
import Linux24.Lib.Word

/-!
# The kernel's own address space: `mm/vmalloc.c`

`get_vm_area` puts an area, with an unused page after it, into the first gap of `vmlist` that is
large enough, and `vfree` takes it out again.  The list is kept in the order of the addresses.

The bound at the end of the region is looked at only when an area of the list is passed, and with a
difference that can wrap.  So what `vmalloc_inside_iff` says is exactly as much as can be said: the
areas stay where they belong if and only if nobody asks for more than the whole region.
-/

set_option autoImplicit false

namespace Linux24.Vmalloc

open Intervals

/-! ## The code -/

/-- `VMALLOC_START` and `VMALLOC_END`, which depend on how much memory there is. -/
structure Region where
  vmallocStart : ℕ
  vmallocEnd : ℕ
  /-- The region is not empty, -/
  le : vmallocStart ≤ vmallocEnd
  /-- and its end is an address. -/
  lt : vmallocEnd < 4294967296

/-- `struct vm_struct`. -/
structure VmStruct where
  flags : ℕ
  addr : ℕ
  /-- `size`, with the page that is left unused. -/
  size : ℕ
deriving DecidableEq, Repr

/-- The first address after an area. -/
def VmStruct.end' (a : VmStruct) : ℕ := a.addr + a.size

/-- The loop of `get_vm_area`, from the current entry of the list on: the new list, unless there is
no room. -/
def insertArea (R : Region) (size flags : ℕ) : (addr : ℕ) → List VmStruct → Option (List VmStruct)
  | addr, [] => some [⟨flags, addr, size⟩]
  | addr, tmp :: rest =>
    if add32 size addr < addr then none
    else if add32 size addr ≤ tmp.addr then some (⟨flags, addr, size⟩ :: tmp :: rest)
    else
      let addr := add32 tmp.size tmp.addr
      if sub32 R.vmallocEnd size < addr then none
      else (insertArea R size flags addr rest).map (tmp :: ·)

/-- `get_vm_area`; `alloc` is whether `kmalloc` succeeds. -/
def getVmArea (R : Region) (size flags : ℕ) (alloc : Bool) (vmlist : List VmStruct) :
    List VmStruct :=
  let size := add32 size 4096
  if alloc = false ∨ size = 0 then vmlist
  else (insertArea R size flags R.vmallocStart vmlist).getD vmlist

def vfree (addr : ℕ) (vmlist : List VmStruct) : List VmStruct :=
  if addr = 0 ∨ addr % 4096 ≠ 0 then vmlist else vmlist.eraseP fun a ↦ decide (a.addr = addr)

/-! ## Runs -/

/-- The calls. -/
inductive Call
  /-- `get_vm_area(size, flags)`. -/
  | getVmArea (size flags : ℕ) (alloc : Bool)
  /-- `vfree(addr)`. -/
  | vfree (addr : ℕ)
deriving DecidableEq, Repr

/-- Sizes are multiples of a page that fit into a word. -/
def Legal : Call → Prop
  | .getVmArea size _ _ => size < 4294967296 ∧ 4096 ∣ size
  | .vfree _ => True

instance (a : Call) : Decidable (Legal a) := by
  cases a <;> dsimp only [Legal] <;> infer_instance

/-- The effect of a call. -/
def exec (R : Region) (vmlist : List VmStruct) : Call → Except Empty (List VmStruct)
  | .getVmArea size flags alloc => .ok (getVmArea R size flags alloc vmlist)
  | .vfree addr => .ok (vfree addr vmlist)

/-- `vmlist` and its users. -/
def machine (R : Region) : Machine (List VmStruct) Call Empty where
  init l := l = []
  legal _ := Legal
  exec := exec R

/-- The sizes that are asked for are among these. -/
def Call.sizeIn (S : Set ℕ) : Call → Prop
  | .getVmArea size _ _ => size ∈ S
  | .vfree _ => True

/-- What `vmlist` is supposed to be. -/
structure Good (R : Region) (vmlist : List VmStruct) : Prop where
  /-- The areas are in the order of their addresses, and disjoint. -/
  sorted : vmlist.Pairwise fun a b ↦ a.end' ≤ b.addr
  /-- They are not empty, and they lie in the region. -/
  inside : ∀ a ∈ vmlist, R.vmallocStart ≤ a.addr ∧ a.addr < a.end' ∧ a.end' ≤ R.vmallocEnd

/-! ## The areas stay where they belong -/

variable {R : Region} {size : ℕ}

variable {l : List VmStruct}

theorem good_iff : Good R l ↔
    Laid VmStruct.addr VmStruct.end' 1 R.vmallocStart l R.vmallocEnd := by
  rw [laid_iff]
  constructor
  · intro h
    refine ⟨R.le, fun a ha ↦ ?_, h.sorted⟩
    obtain ⟨hs, hne, he⟩ := h.inside a ha
    exact ⟨hs, hne, he, one_dvd _, one_dvd _⟩
  · rintro ⟨-, hall, hpair⟩
    refine ⟨hpair, fun a ha ↦ ?_⟩
    obtain ⟨hs, hne, he, -, -⟩ := hall a ha
    exact ⟨hs, hne, he⟩

/-- The loop of `get_vm_area` puts the area into a gap, if there is room for it before the end of
the region where the loop starts. -/
theorem laid_insertArea {flags addr : ℕ} {l' : List VmStruct} (hpos : 0 < size)
    (hl : Laid VmStruct.addr VmStruct.end' 1 addr l R.vmallocEnd)
    (hroom : addr + size ≤ R.vmallocEnd) (heq : insertArea R size flags addr l = some l') :
    Laid VmStruct.addr VmStruct.end' 1 addr l' R.vmallocEnd := by
  have hend := R.lt
  induction l generalizing addr l' with
  | nil =>
    cases heq
    exact ⟨⟨le_rfl, Nat.lt_add_of_pos_right hpos, one_dvd _, one_dvd _⟩, hroom⟩
  | cons tmp rest ih =>
    obtain ⟨⟨hle, hne, -, -⟩, hrest⟩ := hl
    have hadd : add32 size addr = addr + size := by
      rw [add32_of_lt (by omega)]
      omega
    rw [insertArea, hadd] at heq
    split at heq
    · cases heq
    split at heq
    · rename_i hfit
      cases heq
      exact ⟨⟨le_rfl, Nat.lt_add_of_pos_right hpos, one_dvd _, one_dvd _⟩,
        ⟨hfit, hne, one_dvd _, one_dvd _⟩, hrest⟩
    · have hnext : add32 tmp.size tmp.addr = tmp.end' := by
        have htmp : tmp.end' ≤ R.vmallocEnd := hrest.le
        rw [VmStruct.end'] at htmp ⊢
        rw [add32_of_lt (by omega)]
        omega
      have hsub : sub32 R.vmallocEnd size = R.vmallocEnd - size := sub32_of_le hend (by omega)
      dsimp only at heq
      rw [hnext] at heq
      split at heq
      · cases heq
      · obtain ⟨l'', hins, rfl⟩ := Option.map_eq_some_iff.1 heq
        exact ⟨⟨hle, hne, one_dvd _, one_dvd _⟩, ih hrest (by omega) hins⟩

theorem Good.getVmArea {flags : ℕ} {alloc : Bool} (h : Good R l)
    (hsize : add32 size 4096 ≤ R.vmallocEnd - R.vmallocStart) :
    Good R (Vmalloc.getVmArea R size flags alloc l) := by
  rw [Vmalloc.getVmArea]
  split
  · exact h
  rename_i hpos
  have hle := R.le
  cases hins : insertArea R (add32 size 4096) flags R.vmallocStart l with
  | none => exact h
  | some l' =>
    refine good_iff.2 (laid_insertArea (Nat.pos_of_ne_zero fun h0 ↦ hpos (Or.inr h0))
      (good_iff.1 h) (by omega) hins)

theorem Good.vfree (h : Good R l) (addr : ℕ) :
    Good R (Vmalloc.vfree addr l) := by
  rw [Vmalloc.vfree]
  split
  · exact h
  · exact good_iff.2 ((good_iff.1 h).sublist (List.eraseP_sublist ..))

/-- A run without too large a request. -/
theorem good_of_path {S : Set ℕ} (hS : ∀ s ∈ S, add32 s 4096 ≤ R.vmallocEnd - R.vmallocStart)
    (h : (machine R).Path (fun _ a ↦ a.sizeIn S) [] l) : Good R l := by
  induction h with
  | refl => exact ⟨List.Pairwise.nil, by simp⟩
  | @step _ _ a _ _ hP he ih =>
    cases a with
    | getVmArea size flags alloc =>
      cases he
      exact ih.getVmArea (hS size hP)
    | vfree addr =>
      cases he
      exact ih.vfree addr

/-- **The areas stay in order, disjoint and inside the region if and only if no request is larger
than the region**, whatever the order of the calls: a request that is finds the list empty once, and
nothing is checked then. -/
theorem vmalloc_inside_iff (R : Region) (S : Set ℕ) (hS : ∀ s ∈ S, s < 4294967296 ∧ 4096 ∣ s) :
    (∀ l, (machine R).Path (fun _ a ↦ a.sizeIn S) [] l → Good R l) ↔
      ∀ s ∈ S, add32 s 4096 ≤ R.vmallocEnd - R.vmallocStart := by
  refine ⟨fun h s hs ↦ ?_, fun h l hl ↦ good_of_path h hl⟩
  by_contra hlarge
  have hne : add32 s 4096 ≠ 0 := fun h0 ↦ hlarge (h0 ▸ zero_le)
  have hstep : (machine R).Path (fun _ a ↦ a.sizeIn S) []
      [⟨0, R.vmallocStart, add32 s 4096⟩] := by
    refine Machine.Path.refl.step (a := .getVmArea s 0 true) (hS s hs) hs ?_
    change Except.ok (getVmArea R s 0 true []) = _
    rw [getVmArea]
    exact congrArg Except.ok (if_neg (by simp [hne]))
  have hend := ((h _ hstep).inside _ List.mem_cons_self).2.2
  rw [VmStruct.end'] at hend
  dsimp only at hend
  omega

/-- The region of a machine with 896 megabytes of memory and `CONFIG_HIGHMEM`. -/
def highmemRegion : Region := ⟨0xf8800000, 0xfdffe000, by decide, by decide⟩

/-- The first request on such a machine gets 88 megabytes, which is more than there are. -/
theorem vmalloc_outside : ∃ l, (machine highmemRegion).Path (fun _ _ ↦ True) [] l ∧
    l = [⟨2, 0xf8800000, 0x5801000⟩] ∧ ¬ Good highmemRegion l := by
  have hlegal : Legal (.getVmArea 0x5800000 2 true) := by decide
  refine ⟨_, Machine.Path.refl.step (a := .getVmArea 0x5800000 2 true) hlegal trivial rfl,
    by decide, fun h ↦ ?_⟩
  exact absurd (h.inside _ List.mem_cons_self).2.2 (by decide)

theorem vmalloc_inside_iff_highmemRegion : ∃ l,
    (machine highmemRegion).Path (fun _ a ↦ a.sizeIn {0x1000, 0x2000}) [] l ∧
    l = [⟨2, 0xf8800000, 0x3000⟩, ⟨2, 0xf8803000, 0x2000⟩] ∧ Good highmemRegion l := by
  have hsizes : ∀ s ∈ ({0x1000, 0x2000} : Set ℕ), s < 4294967296 ∧ 4096 ∣ s := by
    rintro s (rfl | rfl) <;> decide
  have hfit : ∀ s ∈ ({0x1000, 0x2000} : Set ℕ),
      add32 s 4096 ≤ highmemRegion.vmallocEnd - highmemRegion.vmallocStart := by
    rintro s (rfl | rfl) <;> decide
  have hlegal : Legal (.getVmArea 0x2000 2 true) ∧ Legal (.getVmArea 0x1000 2 true) := by decide
  have hfirst : (machine highmemRegion).Path (fun _ a ↦ a.sizeIn {0x1000, 0x2000}) [] _ :=
    Machine.Path.refl.step (a := .getVmArea 0x2000 2 true) hlegal.1 (Or.inr rfl) rfl
  have hpath := hfirst.step (a := Call.getVmArea 0x1000 2 true) hlegal.2 (Or.inl rfl) rfl
  exact ⟨_, hpath, by decide, (vmalloc_inside_iff highmemRegion _ hsizes).2 hfit _ hpath⟩

end Linux24.Vmalloc
