import Linux24.Mm.SwapScan

/-!
# What the calls do to swap space

The machine of swap space, and for each of its calls what it does.  A call either leaves all slots
as they are (`State.Quiet`), changes the counter of one (`State.Changed`), or changes one device as
a whole (`State.Moved`).  None of this depends on the list of the devices being in order, or even on
its being a list.

The machine records next to the state how many references to each slot there ought to be, which
slots have been at `SWAP_MAP_MAX`, and how often `try_to_unuse` has given up on such a slot.
-/

set_option autoImplicit false

namespace Linux24.Swap

open Finset Function

/-! ## The calls -/

/-- The calls.  `sys_swapoff` is several of them, as its description in the model says. -/
inductive Call
  | sysSwapon (file : ℕ) (prefer : Option ℕ) (swapfilesize : ℕ) (header : State.Header) (ok : Bool)
  | getSwapPage
  | swapDuplicate (type offset : ℕ)
  | swapFree (type offset : ℕ) (junk : ℤ)
  | swapoffStart (file : ℕ)
  | resetOverflow (type offset : ℕ)
  | swapoffFail (type : ℕ)
  | swapoffDone (type : ℕ)

/-- The state and a record. -/
structure World where
  st : State
  /-- Allocations and successful duplications minus frees, for each slot. -/
  refs : ℕ → ℕ → ℕ
  /-- Whether the counter of the slot has been `SWAP_MAP_MAX`. -/
  saturated : ℕ → ℕ → Bool
  /-- How often `try_to_unuse` has reset a counter. -/
  resets : ℕ

/-- Changing an entry of the record. -/
def setAt {α : Type} (f : ℕ → ℕ → α) (type offset : ℕ) (v : α) : ℕ → ℕ → α :=
  fun t o ↦ if t = type ∧ o = offset then v else f t o

namespace World

/-- The record after `get_swap_page`. -/
def got (w : World) : Option (ℕ × ℕ) × State → World
  | (none, st) => { w with st := st }
  | (some (type, offset), st) =>
    { w with st := st, refs := setAt w.refs type offset (w.refs type offset + 1) }

/-- The record after `swap_duplicate`. -/
def duplicated (w : World) (type offset : ℕ) : Bool × State → World
  | (false, st) => { w with st := st }
  | (true, st) => { w with
      st := st
      refs := setAt w.refs type offset (w.refs type offset + 1)
      saturated := setAt w.saturated type offset
        (w.saturated type offset || decide ((st.info type).swapMap offset = swapMapMax)) }

/-- What a call does. -/
def exec (w : World) : Call → Except Fault World
  | .sysSwapon file prefer size header ok => do
    let st ← w.st.sysSwapon file prefer size header ok
    return { w with st := st }
  | .getSwapPage => do
    let r ← w.st.getSwapPage
    return w.got r
  | .swapDuplicate type offset => .ok (w.duplicated type offset (w.st.swapDuplicate type offset))
  | .swapFree type offset junk => .ok { w with
      st := w.st.swapFree type offset junk
      refs := setAt w.refs type offset (w.refs type offset - 1) }
  | .swapoffStart file => do
    let st ← w.st.swapoffStart file
    return { w with st := st }
  | .resetOverflow type offset => .ok { w with
      st := w.st.resetOverflow type offset
      resets := w.resets + 1 }
  | .swapoffFail type => do
    let st ← w.st.swapoffFail type
    return { w with st := st }
  | .swapoffDone type => .ok { w with
      st := w.st.swapoffDone type
      refs := update w.refs type fun _ ↦ 0
      saturated := update w.saturated type fun _ ↦ false }

end World

/-- A header that says what it should: the list of bad pages has no page twice, and the last page
can be named by an entry. -/
def State.Header.WellFormed : State.Header → Prop
  | .v1 _ => True
  | .v2 _ lastPage badpages => 1 ≤ lastPage ∧ lastPage ≤ 16777214 ∧ badpages.Nodup

instance (header : State.Header) : Decidable header.WellFormed :=
  match header with
  | .v1 _ => inferInstanceAs (Decidable True)
  | .v2 _ _ _ => inferInstanceAs (Decidable (_ ∧ _ ∧ _))

/-- When a call can be made.  The last three are parts of a `sys_swapoff` that is under way; it only
ends well when `find_next_to_unuse` has found no slot in use. -/
def Legal (w : World) : Call → Prop
  | .sysSwapon _ _ _ header _ => header.WellFormed
  | .resetOverflow type offset => (w.st.info type).flags = .used ∧ offset < (w.st.info type).max ∧
    (w.st.info type).swapMap offset = swapMapMax
  | .swapoffFail type => (w.st.info type).flags = .used
  | .swapoffDone type => (w.st.info type).flags = .used ∧
    ∀ o < (w.st.info type).max,
      (w.st.info type).swapMap o = 0 ∨ (w.st.info type).swapMap o = swapMapBad
  | _ => True

instance (w : World) (a : Call) : Decidable (Legal w a) := by
  cases a <;> dsimp only [Legal] <;> infer_instance

/-- No device has been added. -/
def initial : World where
  st := {
    info := fun _ ↦ {
      flags := .unused
      swapFile := none
      swapMap := fun _ ↦ 0
      lowestBit := 0
      highestBit := 0
      clusterNext := 0
      clusterNr := 0
      prio := 0
      pages := 0
      max := 0
      next := none }
    nrSwapfiles := 0
    head := none
    next := none
    nrSwapPages := 0
    totalSwapPages := 0
    leastPriority := 0 }
  refs := fun _ _ ↦ 0
  saturated := fun _ _ ↦ false
  resets := 0

/-- Swap space, from when the system starts. -/
def machine : Machine World Call Fault where
  init w := w = initial
  legal := Legal
  exec := World.exec

instance (w : World) (a : Call) : Decidable (machine.legal w a) :=
  inferInstanceAs (Decidable (Legal w a))

/-! ## A new device -/

namespace State

theorem zero_notMem_goodPages (good : ℕ → Bool) : 0 ∉ goodPages good := by
  intro h
  have := List.mem_range'_1.1 (List.mem_of_mem_filter h)
  omega

theorem goodPages_pairwise (good : ℕ → Bool) : (goodPages good).Pairwise (· < ·) :=
  (List.pairwise_lt_range' _).sublist List.filter_sublist

theorem goodPages_bounds {good : ℕ → Bool} {i : ℕ} (h : i ∈ goodPages good) :
    (goodPages good).head?.getD 0 ≤ i ∧ i ≤ (goodPages good).getLast?.getD 0 := by
  have hpw := goodPages_pairwise good
  generalize goodPages good = l at *
  constructor
  · match l with
    | [] => simp at h
    | a :: l =>
      rcases List.mem_cons.1 h with rfl | hi
      · exact le_rfl
      · exact (List.rel_of_pairwise_cons hpw hi).le
  · rcases List.eq_nil_or_concat l with rfl | ⟨l, z, rfl⟩
    · simp at h
    · rw [List.concat_eq_append] at *
      simp only [List.getLast?_append, List.getLast?_singleton, Option.some_or, Option.getD_some]
      rcases List.mem_append.1 h with hi | hi
      · exact ((List.pairwise_append.1 hpw).2.2 i hi z (by simp)).le
      · exact (List.mem_singleton.1 hi).le

variable {p : SwapInfo} {header : Header} {s'' : State} {o t v file : ℕ} {r : Option (ℕ × ℕ)}

/-- A map as a header describes it: `good` are the free slots. -/
theorem mount_spec (good : Finset ℕ)
    (hmap : ∀ o < p.max, p.swapMap o = if o ∈ good then 0 else swapMapBad)
    (hgood : ∀ o ∈ good, o < p.max ∧ p.lowestBit ≤ o ∧ o ≤ p.highestBit) (h0 : 0 ∉ good)
    (hhigh : p.highestBit < p.max) :
    p.Sound ∧ p.freeSlots = good.card ∧ p.usedSlots = 0 := by
  have hbad : swapMapBad ≠ 0 := by decide
  have hiff : ∀ o < p.max, (p.swapMap o = 0 ↔ o ∈ good) := by
    intro o ho
    rw [hmap o ho]
    split_ifs with hmem <;> simp [hmem, hbad]
  refine ⟨⟨fun o ho hz ↦ (hgood o ((hiff o ho).1 hz)).2, ?_, hhigh⟩, ?_, ?_⟩
  · rw [hmap 0 (Nat.zero_lt_of_lt hhigh), if_neg h0]
  · rw [SwapInfo.freeSlots]
    congr 1
    ext o
    rw [mem_filter, mem_range]
    exact ⟨fun h ↦ (hiff o h.1).1 h.2, fun h ↦ ⟨(hgood o h).1, (hiff o (hgood o h).1).2 h⟩⟩
  · rw [SwapInfo.usedSlots, card_eq_zero, filter_eq_empty_iff]
    intro o ho
    rw [hmap o (mem_range.1 ho)]
    split_ifs <;> simp

section Header

variable {a : Area} (hmap : p.swapMap = update a.swapMap 0 swapMapBad)
  (hlow : p.lowestBit = a.lowestBit) (hhigh : p.highestBit = a.highestBit)
  (hmax : p.max = a.maxpages)
include hmap hlow hhigh hmax

/-- What a header of the second version describes. -/
theorem readHeader_v2 {version lastPage : ℕ} {badpages : List ℕ}
    (h : readHeader (.v2 version lastPage badpages) = .ok (some a)) :
    p.Sound ∧ p.freeSlots + badpages.toFinset.card + 1 = min lastPage 16777214 ∧
      p.usedSlots = 0 ∧ a.lowestBit = 1 ∧
      a.nrGoodPages = (lastPage - badpages.length - 1 : ℤ).bmod 4294967296 := by
  have hpages : (if lastPage < 16777214 then lastPage else 16777214) = min lastPage 16777214 := by
    split_ifs <;> omega
  simp only [readHeader, hpages] at h
  split at h
  · simp at h
  split at h
  · simp at h
  split at h
  · simp at h
  split at h
  · simp at h
  rename_i hwild
  split at h
  · simp at h
  rename_i hwrong
  simp only [List.any_eq_true, decide_eq_true_eq, not_exists, not_and, not_or, not_le] at hwrong
  have hlt : ∀ page ∈ badpages, page < min lastPage 16777214 := by
    intro page hpage
    by_contra hge
    exact hwild (List.any_eq_true.2 ⟨page, hpage, by simpa using ⟨hwrong page hpage, by omega⟩⟩)
  cases h
  obtain ⟨hsound, hfree, hused⟩ := mount_spec
    (range (min lastPage 16777214) \ insert 0 badpages.toFinset)
    (fun o ho ↦ by
      rw [hmap, update_apply]
      split_ifs <;> simp_all)
    (fun o ho ↦ by
      simp only [mem_sdiff, mem_range, mem_insert, List.mem_toFinset, not_or] at ho
      rw [hlow, hhigh, hmax]
      dsimp only
      omega)
    (by simp)
    (by rw [hhigh, hmax]; dsimp only; omega)
  refine ⟨hsound, ?_, hused, rfl, rfl⟩
  have hsub : insert 0 badpages.toFinset ⊆ range (min lastPage 16777214) := by
    intro o ho
    rw [mem_insert, List.mem_toFinset] at ho
    rw [mem_range]
    rcases ho with rfl | ho
    · omega
    · exact hlt o ho
  have h0 : 0 ∉ badpages.toFinset := by
    rw [List.mem_toFinset]
    exact fun h0 ↦ (hwrong 0 h0).1 rfl
  have hcard := card_sdiff_add_card_eq_card hsub
  rw [card_insert_of_notMem h0, card_range] at hcard
  omega

/-- **What a header describes.** -/
theorem readHeader_spec (hwf : header.WellFormed) (h : readHeader header = .ok (some a)) :
    p.Sound ∧ (p.freeSlots : ℤ) = a.nrGoodPages ∧ p.usedSlots = 0 := by
  cases header with
  | v1 good =>
    simp only [readHeader, Except.ok.injEq, Option.some.injEq] at h
    subst h
    obtain ⟨hsound, hfree, hused⟩ := mount_spec (goodPages good).toFinset
      (fun o _ ↦ by
        rw [hmap]
        rcases eq_or_ne o 0 with rfl | h0
        · simp [zero_notMem_goodPages]
        · simp [h0])
      (fun o ho ↦ by
        have hb := goodPages_bounds (List.mem_toFinset.1 ho)
        rw [hlow, hhigh, hmax]
        exact ⟨Nat.lt_succ_of_le hb.2, hb⟩)
      (by simp [zero_notMem_goodPages])
      (by rw [hhigh, hmax]; exact Nat.lt_succ_self _)
    refine ⟨hsound, ?_, hused⟩
    rw [hfree, List.toFinset_card_of_nodup ((goodPages_pairwise good).imp ne_of_lt)]
  | v2 version lastPage badpages =>
    obtain ⟨hpos, hle, hnodup⟩ := hwf
    obtain ⟨hsound, hfree, hused, -, hgood⟩ := readHeader_v2 hmap hlow hhigh hmax h
    rw [List.toFinset_card_of_nodup hnodup] at hfree
    refine ⟨hsound, ?_, hused⟩
    rw [hgood, Int.bmod_eq_of_le (by omega) (by omega)]
    omega

end Header

/-- The checks of `sys_swapon` on the page with the header, where `last_page` has 32 bits. -/
def Header.Passes : Header → Prop
  | .v1 good => goodPages good ≠ []
  | .v2 version lastPage badpages => version = 1 ∧ badpages.length ≤ 637 ∧
    (∀ page ∈ badpages, page ≠ 0 ∧ page < 2147483648 ∧ page < lastPage) ∧
    lastPage ≠ 0 ∧ lastPage < 4294967296 ∧ lastPage ≠ badpages.length + 1

/-- No bad page is behind the last slot that an entry can name, and a page is named twice as often
as there are pages behind that slot. -/
def Header.Fits : Header → Prop
  | .v1 _ => True
  | .v2 _ lastPage badpages => (∀ page ∈ badpages, page < 16777214) ∧
    lastPage + badpages.toFinset.card = min lastPage 16777214 + badpages.length

/-- The device `p` when the area is added to it. -/
def Area.mount (a : Area) (p : SwapInfo) : SwapInfo :=
  { p with
    lowestBit := a.lowestBit
    highestBit := a.highestBit
    max := a.maxpages
    pages := a.nrGoodPages
    swapMap := update a.swapMap 0 swapMapBad }

theorem Header.Passes.exists_readHeader {version lastPage : ℕ} {badpages : List ℕ}
    (h : (Header.v2 version lastPage badpages).Passes) :
    (∃ a, readHeader (.v2 version lastPage badpages) = .ok (some a)) ↔
      ∀ page ∈ badpages, page < 16777214 := by
  obtain ⟨rfl, hlen, hpage, h0, -, -⟩ := h
  have hmax : (if lastPage < 16777214 then lastPage else 16777214) ≠ 0 := by
    split_ifs <;> omega
  have hwrong : ∀ page ∈ badpages,
      decide (page = 0 ∨ 2147483648 ≤ page ∨ lastPage ≤ page) = false := by
    intro page hmem
    simpa only [decide_eq_false_iff_not, not_or, not_le] using hpage page hmem
  have hwild : (badpages.any fun page ↦
      !decide (page = 0 ∨ 2147483648 ≤ page ∨ lastPage ≤ page) &&
        decide ((if lastPage < 16777214 then lastPage else 16777214) ≤ page)) = true ↔
      ¬∀ page ∈ badpages, page < 16777214 := by
    simp only [List.any_eq_true, not_forall, exists_prop]
    refine exists_congr fun page ↦ and_congr_right fun hmem ↦ ?_
    have := (hpage page hmem).2.2
    rw [hwrong page hmem, Bool.not_false, Bool.true_and, decide_eq_true_eq]
    split_ifs <;> omega
  have hnone : ¬(badpages.any fun page ↦
      decide (page = 0 ∨ 2147483648 ≤ page ∨ lastPage ≤ page)) = true := by
    rw [List.any_eq_true]
    rintro ⟨page, hmem, htrue⟩
    rw [hwrong page hmem] at htrue
    cases htrue
  simp only [readHeader, not_lt.2 hlen, hmax, hnone]
  by_cases hlt : ∀ page ∈ badpages, page < 16777214
  · rw [if_neg (fun h ↦ hwild.1 h hlt)]
    exact iff_of_true ⟨_, rfl⟩ hlt
  · rw [if_pos (hwild.2 hlt)]
    exact iff_of_false (fun ⟨_, h⟩ ↦ by cases h) hlt

/-- **What a header that passes the checks does to a device.**  All writes are inside the map, and
the window and the count fit the map, when the header fits. -/
theorem Header.Passes.mount_iff (h : header.Passes) (p : SwapInfo) :
    (∃ a, readHeader header = .ok (some a) ∧ (a.mount p).pages = (a.mount p).freeSlots ∧
      1 ≤ (a.mount p).lowestBit ∧ (a.mount p).highestBit < (a.mount p).max) ↔ header.Fits := by
  cases header with
  | v1 good =>
    refine iff_of_true ⟨_, rfl, ?_⟩ trivial
    obtain ⟨hsound, hfree, -⟩ := readHeader_spec (p := Area.mount _ p) rfl rfl rfl rfl
      (show (Header.v1 good).WellFormed from trivial) rfl
    refine ⟨hfree.symm, ?_, hsound.3⟩
    obtain ⟨o, l, ho⟩ := List.exists_cons_of_ne_nil h
    have hne : o ≠ 0 := fun h0 ↦ zero_notMem_goodPages good (by simp [ho, h0])
    simpa [Area.mount, ho] using Nat.one_le_iff_ne_zero.2 hne
  | v2 version lastPage badpages =>
    have hmem := h.exists_readHeader
    obtain ⟨-, hlen, -, -, hlast, -⟩ := h
    have count : ∀ {a}, readHeader (.v2 version lastPage badpages) = .ok (some a) →
        ((a.mount p).pages = (a.mount p).freeSlots ↔
          lastPage + badpages.toFinset.card = min lastPage 16777214 + badpages.length) := by
      intro a ha
      obtain ⟨-, hfree, -, -, hgood⟩ := readHeader_v2 (p := a.mount p) rfl rfl rfl rfl ha
      rw [show (a.mount p).pages = a.nrGoodPages from rfl, hgood]
      rw [Int.bmod_def]
      split_ifs <;> omega
    constructor
    · rintro ⟨a, ha, hpages, -⟩
      exact ⟨hmem.1 ⟨a, ha⟩, (count ha).1 hpages⟩
    · rintro ⟨hlt, heq⟩
      obtain ⟨a, ha⟩ := hmem.2 hlt
      obtain ⟨hsound, -, -, hlow, -⟩ := readHeader_v2 (p := a.mount p) rfl rfl rfl rfl ha
      exact ⟨a, ha, (count ha).2 heq, hlow.ge, hsound.3⟩

theorem mount_iff_four : (Header.v2 1 4 [2]).Passes ∧
    ∃ a, readHeader (.v2 1 4 [2]) = .ok (some a) ∧
      (a.mount (initial.st.info 0)).pages = (a.mount (initial.st.info 0)).freeSlots := by
  have h : (Header.v2 1 4 [2]).Passes := by simp [Header.Passes]
  obtain ⟨a, ha, hpages, -⟩ := (h.mount_iff (initial.st.info 0)).2 (by simp [Header.Fits])
  exact ⟨h, a, ha, hpages⟩

/-- A page that is named twice is counted twice; and a bad page that is behind the last slot an
entry can name is written behind the end of the map. -/
theorem sysSwapon_twice :
    (initial.st.sysSwapon 1 none 0 (.v2 1 5 [1, 1]) true).toOption.map (fun s ↦
      ((s.info 0).flags, (s.info 0).pages, (s.info 0).freeSlots)) = some (.writeok, 2, 3) ∧
    readHeader (.v2 1 16777216 [16777215]) = .error .wild := by
  refine ⟨by decide +kernel, ?_⟩
  simp [readHeader]

/-! ## What the calls do to the slots -/

variable {s s' : State}

/-- No slot is different. -/
structure Quiet (s s' : State) : Prop where
  same : ∀ i, (s.info i).Same (s'.info i)
  sound : (∀ i, (s.info i).flags ≠ .unused → (s.info i).Sound) →
    ∀ i, (s.info i).flags ≠ .unused → (s'.info i).Sound
  nrSwapfiles : s'.nrSwapfiles = s.nrSwapfiles

/-- The counter of one slot is `v`. -/
structure Changed (s s' : State) (type offset v : ℕ) : Prop where
  flags : (s.info type).flags ≠ .unused
  lt : offset < (s.info type).max
  bad : (s.info type).swapMap offset ≠ swapMapBad
  value : v ≠ swapMapBad
  self : ((s.info type).setSlot offset v).Same (s'.info type)
  other : ∀ i ≠ type, (s.info i).Same (s'.info i)
  sound : (∀ i, (s.info i).flags ≠ .unused → (s.info i).Sound) →
    ∀ i, (s.info i).flags ≠ .unused → (s'.info i).Sound
  nrSwapfiles : s'.nrSwapfiles = s.nrSwapfiles

theorem Quiet.refl (s : State) : s.Quiet s := ⟨fun _ ↦ .refl _, id, rfl⟩

theorem Quiet.all_sound (h : s.Quiet s')
    (hs : ∀ i, (s.info i).flags ≠ .unused → (s.info i).Sound) (i : ℕ)
    (hi : (s'.info i).flags ≠ .unused) : (s'.info i).Sound := by
  rw [(h.same i).flags] at hi
  exact h.sound hs i hi

theorem Quiet.trans (h : s.Quiet s') (h' : s'.Quiet s'') : s.Quiet s'' := by
  refine ⟨fun i ↦ (h.same i).trans (h'.same i), fun hs i hi ↦ ?_,
    h'.nrSwapfiles.trans h.nrSwapfiles⟩
  exact h'.sound (h.all_sound hs) i (by rwa [(h.same i).flags])

theorem Quiet.changed (h : s.Quiet s') (h' : s'.Changed s'' t o v) :
    s.Changed s'' t o v := by
  obtain ⟨hflags, hmap, hpages, hmax⟩ := h.same t
  refine ⟨?_, ?_, ?_, h'.value, ?_, fun i hi ↦ ?_, fun hs i hi ↦ ?_,
    h'.nrSwapfiles.trans h.nrSwapfiles⟩
  · exact hflags ▸ h'.flags
  · exact hmax ▸ h'.lt
  · exact hmap ▸ h'.bad
  · obtain ⟨hf, hm, hp, hx⟩ := h'.self
    refine ⟨hf.trans hflags, hm.trans ?_, hp.trans hpages, hx.trans hmax⟩
    show update (s'.info t).swapMap o v = update (s.info t).swapMap o v
    rw [hmap]
  · exact (h.same i).trans (h'.other i hi)
  · exact h'.sound (h.all_sound hs) i (by rwa [(h.same i).flags])

/-- One device is different, but has the same slots. -/
theorem quiet_setInfo (hsame : (s.info t).Same p)
    (hsound : (s.info t).flags ≠ .unused → (s.info t).Sound → p.Sound) :
    s.Quiet (s.setInfo t p) := by
  refine ⟨fun i ↦ ?_, fun hs i hi ↦ ?_, rfl⟩
  · rcases eq_or_ne i t with rfl | hne
    · simpa [setInfo] using hsame
    · simpa [setInfo, hne] using SwapInfo.Same.refl _
  · rcases eq_or_ne i t with rfl | hne
    · simpa [setInfo] using hsound hi (hs i hi)
    · simpa [setInfo, hne] using hs i hi

theorem changed_setInfo (hflags : (s.info t).flags ≠ .unused)
    (hlt : o < (s.info t).max) (hbad : (s.info t).swapMap o ≠ swapMapBad) (hv : v ≠ swapMapBad)
    (hsame : ((s.info t).setSlot o v).Same p) (hsound : (s.info t).Sound → p.Sound) :
    s.Changed (s.setInfo t p) t o v := by
  refine ⟨hflags, hlt, hbad, hv, ?_, fun i hi ↦ ?_, fun hs i hi ↦ ?_, rfl⟩
  · simpa [setInfo] using hsame
  · simpa [setInfo, hi] using SwapInfo.Same.refl _
  · rcases eq_or_ne i t with rfl | hne
    · simpa [setInfo] using hsound (hs i hi)
    · simpa [setInfo, hne] using hs i hi

/-- The rest of the state does not matter. -/
theorem Changed.congr (h : s.Changed s' t o v) (hinfo : s''.info = s'.info)
    (hn : s''.nrSwapfiles = s'.nrSwapfiles) : s.Changed s'' t o v :=
  ⟨h.flags, h.lt, h.bad, h.value, hinfo ▸ h.self, hinfo ▸ h.other, hinfo ▸ h.sound,
    hn.trans h.nrSwapfiles⟩

theorem Quiet.congr (h : s.Quiet s') (hinfo : s''.info = s'.info)
    (hn : s''.nrSwapfiles = s'.nrSwapfiles) : s.Quiet s'' :=
  ⟨hinfo ▸ h.same, hinfo ▸ h.sound, hn.trans h.nrSwapfiles⟩

theorem tryDevice_spec (hs : ∀ i, (s.info i).flags ≠ .unused → (s.info i).Sound)
    (h : s.tryDevice t = (o, s')) : s'.nrSwapPages = s.nrSwapPages ∧ (o = 0 → s.Quiet s') ∧
    (o ≠ 0 → (s.info t).flags = .writeok ∧ (s.info t).swapMap o = 0 ∧ s.Changed s' t o 1) := by
  rw [tryDevice] at h
  split at h
  · rename_i hflags
    have hused : (s.info t).flags ≠ .unused := by simp [hflags]
    have hscan := (hs t hused).scanSwapMap
    obtain ⟨rfl, rfl⟩ := h
    refine ⟨rfl, fun h0 ↦ ?_, fun hne ↦ ?_⟩
    · exact quiet_setInfo (hscan.none h0).2.same fun _ _ ↦ hscan.sound
    · obtain ⟨hlt, h0, hrefresh⟩ := hscan.some hne
      refine ⟨hflags, h0, changed_setInfo hused hlt ?_ (by decide) hrefresh.same
        fun _ ↦ hscan.sound⟩
      exact h0.trans_ne (by decide)
  · obtain ⟨rfl, rfl⟩ := h
    exact ⟨rfl, fun _ ↦ .refl s, absurd rfl⟩

/-- What `get_swap_page` does to the slots. -/
def Got (s s' : State) : Option (ℕ × ℕ) → Prop
  | none => s.Quiet s' ∧ s'.nrSwapPages = s.nrSwapPages
  | some (t, o) => (s.info t).flags = .writeok ∧ (s.info t).swapMap o = 0 ∧ s.Changed s' t o 1 ∧
    s'.nrSwapPages = s.nrSwapPages - 1

theorem Quiet.got (h : s.Quiet s')
    (hnr : s'.nrSwapPages = s.nrSwapPages) (h' : s'.Got s'' r) : s.Got s'' r := by
  match r with
  | none => exact ⟨h.trans h'.1, h'.2.trans hnr⟩
  | some (t, o) =>
    obtain ⟨hflags, h0, hchanged, hnr'⟩ := h'
    exact ⟨(h.same t).flags ▸ hflags, (h.same t).swapMap ▸ h0, h.changed hchanged, hnr ▸ hnr'⟩

theorem getLoop_spec {fuel : ℕ} {type : Option ℕ} {wrapped : Bool}
    (hs : ∀ i, (s.info i).flags ≠ .unused → (s.info i).Sound)
    (h : getLoop fuel s type wrapped = .ok (r, s')) : s.Got s' r := by
  induction fuel generalizing s type wrapped with
  | zero => simp [getLoop] at h
  | succ fuel ih =>
    match type with
    | none => simp [getLoop] at h
    | some t =>
      rw [getLoop] at h
      rcases htry : s.tryDevice t with ⟨o, s₁⟩
      rw [htry] at h
      dsimp only at h
      obtain ⟨hnr, hnone, hsome⟩ := tryDevice_spec hs htry
      split at h
      · rename_i hne
        obtain ⟨hflags, h0, hchanged⟩ := hsome hne
        obtain ⟨rfl, rfl⟩ := h
        exact ⟨hflags, h0, hchanged.congr rfl rfl, by rw [← hnr]⟩
      · rename_i h0
        have hquiet := hnone (not_not.1 h0)
        refine hquiet.got hnr ?_
        split at h
        · obtain ⟨rfl, rfl⟩ := h
          exact ⟨.refl _, rfl⟩
        · exact ih (hquiet.all_sound hs) h

theorem getSwapPage_spec (hs : ∀ i, (s.info i).flags ≠ .unused → (s.info i).Sound)
    (h : s.getSwapPage = .ok (r, s')) : s.Got s' r := by
  rw [getSwapPage] at h
  split at h
  · obtain ⟨rfl, rfl⟩ := h
    exact ⟨.refl s, rfl⟩
  split at h
  · obtain ⟨rfl, rfl⟩ := h
    exact ⟨.refl s, rfl⟩
  · exact getLoop_spec hs h

theorem swapInfoGet_info (type : ℕ) (junk : ℤ) : (s.swapInfoGet type junk).info = s.info := by
  rw [swapInfoGet]
  split <;> rfl

theorem swapInfoGet_counts (type : ℕ) (junk : ℤ) :
    (s.swapInfoGet type junk).nrSwapfiles = s.nrSwapfiles ∧
      (s.swapInfoGet type junk).nrSwapPages = s.nrSwapPages := by
  rw [swapInfoGet]
  split <;> exact ⟨rfl, rfl⟩

theorem swapEntryFree_spec (hflags : (s.info t).flags ≠ .unused)
    (hlt : o < (s.info t).max) (hmax : (s.info t).swapMap o < swapMapMax) :
    s.Changed (s.swapEntryFree t o) t o ((s.info t).swapMap o - 1) ∧
      (s.swapEntryFree t o).nrSwapPages =
        s.nrSwapPages + if (s.info t).swapMap o - 1 = 0 then 1 else 0 := by
  have hbad : (s.info t).swapMap o ≠ swapMapBad := (hmax.trans (by decide)).ne
  have hval : (s.info t).swapMap o - 1 ≠ swapMapBad :=
    ((Nat.sub_le _ _).trans_lt (hmax.trans (by decide))).ne
  rw [swapEntryFree]
  rw [if_pos hmax]
  split
  · rename_i h0
    rw [h0] at hval ⊢
    have hchanged := changed_setInfo (p := { (s.info t).setSlot o 0 with
      lowestBit := if o < (s.info t).lowestBit then o else (s.info t).lowestBit
      highestBit := if (s.info t).highestBit < o then o else (s.info t).highestBit })
      hflags hlt hbad hval ⟨rfl, rfl, rfl, rfl⟩ fun hs ↦ hs.release hbad hlt
    exact ⟨hchanged.congr rfl rfl, rfl⟩
  · rename_i h0
    exact ⟨changed_setInfo hflags hlt hbad hval (.refl _) fun hs ↦ hs.setSlot hbad h0,
      (add_zero _).symm⟩

theorem swapFree_spec (t o : ℕ) (junk : ℤ) :
    (¬ (s.valid t o ∧ (s.info t).swapMap o < swapMapMax) ∧ s.Quiet (s.swapFree t o junk) ∧
      (s.swapFree t o junk).nrSwapPages = s.nrSwapPages) ∨
    ((s.info t).swapMap o ≠ 0 ∧ (s.info t).swapMap o < swapMapMax ∧
      s.Changed (s.swapFree t o junk) t o ((s.info t).swapMap o - 1) ∧
      (s.swapFree t o junk).nrSwapPages =
        s.nrSwapPages + if (s.info t).swapMap o - 1 = 0 then 1 else 0) := by
  obtain ⟨hn, hnr⟩ := swapInfoGet_counts t junk
  have hinfo := swapInfoGet_info (s := s) t junk
  have hquiet : s.Quiet (s.swapInfoGet t junk) := (Quiet.refl s).congr hinfo hn
  rw [swapFree]
  split
  · rename_i hvalid
    have hv := hvalid
    simp only [valid, decide_eq_true_eq] at hv
    obtain ⟨-, -, hflags, hlt, hne⟩ := hv
    by_cases hmax : (s.info t).swapMap o < swapMapMax
    · right
      have hspec := swapEntryFree_spec
        (by rwa [hinfo]) (by rwa [hinfo]) (by rwa [hinfo])
      rw [hinfo, hnr] at hspec
      exact ⟨hne, hmax, hquiet.changed hspec.1, hspec.2⟩
    · left
      have heq : (s.swapInfoGet t junk).swapEntryFree t o = s.swapInfoGet t junk := by
        rw [swapEntryFree]
        rw [hinfo, if_neg hmax]
      rw [heq]
      exact ⟨fun h ↦ hmax h.2, hquiet, hnr⟩
  · rename_i hvalid
    exact Or.inl ⟨fun h ↦ hvalid h.1, .refl s, rfl⟩

theorem swapDuplicate_spec (hunused : ∀ i, (s.info i).flags = .unused → (s.info i).max = 0)
    (t o : ℕ) : s.swapDuplicate t o = (false, s) ∨
    ∃ s' v, s.swapDuplicate t o = (true, s') ∧ (s.info t).swapMap o ≠ 0 ∧
      (s.info t).swapMap o ≤ swapMapMax ∧
      (v = (s.info t).swapMap o + 1 ∧ v < swapMapMax ∨ v = swapMapMax) ∧
      s.Changed s' t o v ∧ s'.nrSwapPages = s.nrSwapPages := by
  rw [swapDuplicate]
  split
  · rename_i h
    obtain ⟨-, hlt, hne⟩ := h
    have hflags : (s.info t).flags ≠ .unused := by
      intro h0
      rw [hunused t h0] at hlt
      cases hlt
    have hchanged : ∀ v, (s.info t).swapMap o ≤ swapMapMax → v ≤ swapMapMax → v ≠ 0 →
        s.Changed (s.setInfo t ((s.info t).setSlot o v)) t o v := by
      intro v hle hv hv0
      have hbad : (s.info t).swapMap o ≠ swapMapBad := (hle.trans_lt (by decide)).ne
      exact changed_setInfo hflags hlt hbad (hv.trans_lt (by decide)).ne (.refl _)
        fun hs ↦ hs.setSlot hbad hv0
    split
    · have hle : (s.info t).swapMap o + 1 < swapMapMax := by omega
      exact Or.inr ⟨_, _, rfl, hne, by omega, Or.inl ⟨rfl, hle⟩,
        hchanged _ (by omega) (by omega) (by omega), rfl⟩
    split
    · rename_i hle
      exact Or.inr ⟨_, _, rfl, hne, hle, Or.inr rfl, hchanged _ hle le_rfl (by decide), rfl⟩
    · exact Or.inl rfl
  · exact Or.inl rfl

/-! ## What the calls do to the devices -/

/-- The devices are the same, but for their places on the list. -/
def Relinked (s s' : State) : Prop :=
  (∀ i, ∃ n, s'.info i = { s.info i with next := n }) ∧ s'.nrSwapfiles = s.nrSwapfiles ∧
    s'.nrSwapPages = s.nrSwapPages

theorem relinked_setInfo (t : ℕ) (n : Option ℕ) :
    s.Relinked (s.setInfo t { s.info t with next := n }) := by
  refine ⟨fun i ↦ ?_, rfl, rfl⟩
  rcases eq_or_ne i t with rfl | hne
  · exact ⟨n, by simp [setInfo]⟩
  · exact ⟨(s.info i).next, by simp [setInfo, hne]⟩

theorem Relinked.trans (h : s.Relinked s') (h' : s'.Relinked s'') :
    s.Relinked s'' := by
  refine ⟨fun i ↦ ?_, h'.2.1.trans h.2.1, h'.2.2.trans h.2.2⟩
  obtain ⟨n, hn⟩ := h.1 i
  obtain ⟨n', hn'⟩ := h'.1 i
  exact ⟨n', by rw [hn', hn]⟩

theorem insertSwap_spec (h : s.insertSwap t = .ok s') : s.Relinked s' := by
  obtain ⟨⟨prev, i⟩, -, h⟩ := Machine.exists_of_bind h
  cases prev with
  | none =>
    cases h
    exact relinked_setInfo t i
  | some q =>
    cases h
    exact (relinked_setInfo t i).trans (relinked_setInfo q (some t))

/-- One device is different from what it was, up to the places on the list. -/
structure Moved (s s' : State) (t : ℕ) (p : SwapInfo) : Prop where
  self : ∃ n, s'.info t = { p with next := n }
  other : ∀ i ≠ t, ∃ n, s'.info i = { s.info i with next := n }

theorem Relinked.moved {s₁ : State} (hinfo : s₁.info = update s.info t p)
    (h : s₁.Relinked s') : s.Moved s' t p := by
  constructor
  · simpa [hinfo] using h.1 t
  · intro i hi
    simpa [hinfo, hi] using h.1 i

theorem moved_setInfo {s₁ : State} (hinfo : s₁.info = s.info) :
    s.Moved (s₁.setInfo t p) t p := by
  constructor
  · exact ⟨p.next, by simp [setInfo]⟩
  · intro i hi
    exact ⟨(s.info i).next, by simp [setInfo, hi, hinfo]⟩

theorem findFile_spec {fuel : ℕ} {prev type prev' : Option ℕ}
    (h : s.findFile file fuel prev type = .ok (prev', some t)) : (s.info t).flags = .writeok := by
  induction fuel generalizing prev type with
  | zero => simp [findFile] at h
  | succ fuel ih =>
    match type with
    | none => simp [findFile] at h
    | some i =>
      rw [findFile] at h
      split at h
      · rename_i hi
        simp only [Except.ok.injEq, Prod.mk.injEq, Option.some.injEq] at h
        exact h.2 ▸ hi.1
      · exact ih h

/-- What `sys_swapoff` does to the list, once it has found the device. -/
theorem swapoffStart_found {prev : Option ℕ}
    (hfind : s.findFile file (maxSwapfiles + 1) none s.head = .ok (prev, some t)) :
    ∃ s', s.swapoffStart file = .ok s' ∧
      (∀ i, s'.info i = { s.info i with
        next := if prev = some i then (s.info t).next else (s.info i).next
        flags := if i = t then .used else (s.info i).flags }) ∧
      s'.head = (if prev = none then (s.info t).next else s.head) ∧
      s'.next = (if s.next = some t then s'.head else s.next) ∧
      s'.nrSwapfiles = s.nrSwapfiles ∧ s'.nrSwapPages = s.nrSwapPages - (s.info t).pages := by
  have hstep : ∀ u : State, (if u.next = some t then { u with next := u.head } else u) =
      { u with next := if u.next = some t then u.head else u.next } := by
    intro u
    split <;> rfl
  rw [swapoffStart, hfind]
  simp only [bind, Except.bind, hstep]
  cases prev with
  | none =>
    refine ⟨_, rfl, fun i ↦ ?_, rfl, rfl, rfl, rfl⟩
    rcases eq_or_ne i t with rfl | hne
    · simp [setInfo]
    · simp [setInfo, hne]
  | some q =>
    refine ⟨_, rfl, fun i ↦ ?_, rfl, rfl, rfl, rfl⟩
    rcases eq_or_ne i t with rfl | hne <;> rcases eq_or_ne i q with rfl | hq
    · simp [setInfo]
    · simp [setInfo, hq]
    · simp [setInfo, hne]
    · simp [setInfo, hne, hq, hq.symm]

theorem swapoffStart_spec (h : s.swapoffStart file = .ok s') : s' = s ∨
    ∃ t, (s.info t).flags = .writeok ∧ s.Moved s' t { s.info t with flags := .used } ∧
      s'.nrSwapfiles = s.nrSwapfiles ∧ s'.nrSwapPages = s.nrSwapPages - (s.info t).pages := by
  obtain ⟨⟨prev, type⟩, hfind, hrest⟩ := Machine.exists_of_bind h
  cases type with
  | none =>
    cases hrest
    exact Or.inl rfl
  | some t =>
    obtain ⟨s₁, hs₁, hinfo, -, -, hn, hnr⟩ := swapoffStart_found hfind
    cases h.symm.trans hs₁
    refine Or.inr ⟨t, findFile_spec hfind, ⟨?_, fun i hi ↦ ?_⟩, hn, hnr⟩
    · exact ⟨_, by rw [hinfo, if_pos rfl]⟩
    · exact ⟨_, by rw [hinfo, if_neg hi]⟩

theorem swapoffFail_spec (h : s.swapoffFail t = .ok s') :
    s.Moved s' t { s.info t with flags := .writeok } ∧ s'.nrSwapfiles = s.nrSwapfiles ∧
      s'.nrSwapPages = s.nrSwapPages + (s.info t).pages := by
  obtain ⟨s₁, hins, h⟩ := Machine.exists_of_bind h
  cases h
  have hs₁ := insertSwap_spec hins
  obtain ⟨n, hn⟩ := hs₁.1 t
  refine ⟨⟨⟨n, by simp [setInfo, hn]⟩, fun i hi ↦ ?_⟩, hs₁.2.1, ?_⟩
  · simpa [setInfo, hi] using hs₁.1 i
  · rw [hs₁.2.2, hn]

theorem freeType_spec (habove : ∀ i, s.nrSwapfiles ≤ i → (s.info i).flags = .unused) :
    s.freeType ≤ s.nrSwapfiles ∧ (s.info s.freeType).flags = .unused := by
  rw [freeType]
  cases hfind : (List.range s.nrSwapfiles).find? fun i ↦ decide ((s.info i).flags = .unused) with
  | none => exact ⟨le_rfl, habove _ le_rfl⟩
  | some i =>
    have hmem := List.mem_range.1 (List.mem_of_find?_eq_some hfind)
    have hflags := List.find?_some hfind
    exact ⟨hmem.le, by simpa using hflags⟩

theorem acceptArea_spec {type size : ℕ} {ok : Bool} {a : Area}
    (h : s.acceptArea type file size header ok = .ok (some a)) :
    readHeader header = .ok (some a) := by
  rw [acceptArea] at h
  split at h
  · simp at h
  split at h
  · simp at h
  · simp at h
  · rename_i hread
    split at h
    · simp at h
    split at h
    · simp at h
    · rw [hread, h]

/-- **Adding a device**: nothing happens, or the device is as the header has it, or it failed. -/
theorem sysSwapon_spec {size : ℕ} {prefer : Option ℕ} {ok : Bool}
    (h : s.sysSwapon file prefer size header ok = .ok s') : s' = s ∨
    (s.freeType < maxSwapfiles ∧ s'.nrSwapfiles = max s.nrSwapfiles (s.freeType + 1) ∧
      ∃ p, s.Moved s' s.freeType p ∧
        ((p.flags = .unused ∧ p.max = (s.info s.freeType).max ∧ s'.nrSwapPages = s.nrSwapPages) ∨
          (p.flags = .writeok ∧ ∃ a, readHeader header = .ok (some a) ∧
            p.swapMap = update a.swapMap 0 swapMapBad ∧ p.lowestBit = a.lowestBit ∧
            p.highestBit = a.highestBit ∧ p.max = a.maxpages ∧ p.pages = a.nrGoodPages ∧
            s'.nrSwapPages = s.nrSwapPages + a.nrGoodPages))) := by
  rw [sysSwapon] at h
  dsimp only at h
  split at h
  · simp only [Except.ok.injEq] at h
    exact Or.inl h.symm
  · rename_i hlt
    right
    have hn : (if s.nrSwapfiles ≤ s.freeType then s.freeType + 1 else s.nrSwapfiles) =
        max s.nrSwapfiles (s.freeType + 1) := by
      split_ifs <;> omega
    refine ⟨not_le.1 hlt, ?_⟩
    split at h
    · simp at h
    · cases h
      exact ⟨hn, _, moved_setInfo rfl, Or.inl ⟨rfl, rfl, rfl⟩⟩
    · rename_i a haccept
      have hlink := insertSwap_spec h
      exact ⟨hlink.2.1.trans hn, _, hlink.moved rfl, Or.inr ⟨rfl, a, acceptArea_spec haccept, rfl,
        rfl, rfl, rfl, rfl, hlink.2.2⟩⟩

end State

end Linux24.Swap
