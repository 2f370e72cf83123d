import Linux24.Mm.SwapRuns

/-!
# The swap slots over a run

`nr_swap_pages` is meant to be the number of free slots of the devices that can be written to; while
a device is being removed all of its pages have been subtracted, so that it counts for minus the
slots that are still in use.  `State.Inv` keeps the sum of the two with a correction, the number of
times `try_to_unuse` has given up on a counter that was `SWAP_MAP_MAX`: there `nr_swap_pages` is
incremented, and when the one reference that is left goes, it is incremented again.

`World.Faithful` compares the counters with the references that there ought to be.  They agree below
`SWAP_MAP_MAX`, and a counter that has been there stays there, so that a slot whose counter is zero
is not referenced.
-/

set_option autoImplicit false

namespace Linux24.Swap

open Finset Function

namespace State

variable {s s' : State} {d d' : ℤ}

/-! ## Accounting -/

/-- The counter is off by `d`, and no free slot is outside of a window. -/
structure Inv (s : State) (d : ℤ) : Prop where
  sound : ∀ i, (s.info i).flags ≠ .unused → (s.info i).Sound
  pages : ∀ i, (s.info i).flags ≠ .unused →
    (s.info i).pages = (s.info i).freeSlots + (s.info i).usedSlots
  unused : ∀ i, (s.info i).flags = .unused → (s.info i).max = 0
  above : ∀ i, s.nrSwapfiles ≤ i → (s.info i).flags = .unused
  le : s.nrSwapfiles ≤ maxSwapfiles
  count : s.nrSwapPages = ∑ i ∈ range maxSwapfiles, (s.info i).balance + d

section Slots

variable (h : s.Inv d)
include h

theorem Inv.lt {i : ℕ} (hi : (s.info i).flags ≠ .unused) : i < s.nrSwapfiles := by
  by_contra hge
  exact hi (h.above i (not_lt.1 hge))

theorem Inv.quiet (hq : s.Quiet s') (hnr : s'.nrSwapPages = s.nrSwapPages) :
    s'.Inv d := by
  have hflags : ∀ i, (s'.info i).flags = (s.info i).flags := fun i ↦ (hq.same i).flags
  refine ⟨fun i hi ↦ ?_, fun i hi ↦ ?_, fun i hi ↦ ?_, fun i hi ↦ ?_, ?_, ?_⟩
  · rw [hflags] at hi
    exact hq.sound h.sound i hi
  · rw [hflags] at hi
    rw [(hq.same i).pages, (hq.same i).freeSlots_eq, (hq.same i).usedSlots_eq]
    exact h.pages i hi
  · rw [hflags] at hi
    exact (hq.same i).max.trans (h.unused i hi)
  · rw [hq.nrSwapfiles] at hi
    exact (hflags i).trans (h.above i hi)
  · exact hq.nrSwapfiles ▸ h.le
  · rw [hnr, h.count, sum_congr rfl fun i _ ↦ (hq.same i).balance_eq.symm]

variable {t : ℕ}

omit h in
theorem sum_balance (ht : t < maxSwapfiles)
    (hother : ∀ i ≠ t, (s'.info i).balance = (s.info i).balance) :
    ∑ i ∈ range maxSwapfiles, (s'.info i).balance =
      ∑ i ∈ range maxSwapfiles, (s.info i).balance +
        ((s'.info t).balance - (s.info t).balance) := by
  rw [← Tally.sum_update (mem_range.2 ht) s.info (s'.info t) SwapInfo.balance]
  refine sum_congr rfl fun i _ ↦ ?_
  rcases eq_or_ne i t with rfl | hne
  · rw [update_self]
  · rw [update_of_ne hne, hother i hne]

/-- **One slot changes.**  The counter has to go with whether the slot is free. -/
theorem Inv.changed {o v : ℕ} (hc : s.Changed s' t o v) (hnr : s'.nrSwapPages = s.nrSwapPages +
      ((if v = 0 then 1 else 0) - if (s.info t).swapMap o = 0 then 1 else 0) + (d' - d)) :
    s'.Inv d' := by
  have hflags : ∀ i, (s'.info i).flags = (s.info i).flags := by
    intro i
    rcases eq_or_ne i t with rfl | hne
    · exact hc.self.flags
    · exact (hc.other i hne).flags
  have hlt := (h.lt hc.flags).trans_le h.le
  refine ⟨fun i hi ↦ ?_, fun i hi ↦ ?_, fun i hi ↦ ?_, fun i hi ↦ ?_, ?_, ?_⟩
  · rw [hflags] at hi
    exact hc.sound h.sound i hi
  · rw [hflags] at hi
    rcases eq_or_ne i t with rfl | hne
    · rw [hc.self.pages, hc.self.freeSlots_eq, hc.self.usedSlots_eq,
        SwapInfo.slots_setSlot hc.lt hc.bad hc.value]
      exact h.pages i hi
    · rw [(hc.other i hne).pages, (hc.other i hne).freeSlots_eq, (hc.other i hne).usedSlots_eq]
      exact h.pages i hi
  · rw [hflags] at hi
    rcases eq_or_ne i t with rfl | hne
    · exact absurd hi hc.flags
    · exact (hc.other i hne).max.trans (h.unused i hi)
  · rw [hc.nrSwapfiles] at hi
    exact (hflags i).trans (h.above i hi)
  · exact hc.nrSwapfiles ▸ h.le
  · rw [sum_balance hlt fun i hi ↦ (hc.other i hi).balance_eq, hc.self.balance_eq,
      SwapInfo.balance_setSlot hc.flags hc.lt hc.bad hc.value, hnr, h.count]
    ring

omit h in
theorem same_next (p : SwapInfo) (n : Option ℕ) :
    p.Same { p with next := n } :=
  ⟨rfl, rfl, rfl, rfl⟩

/-- **One device changes.** -/
theorem Inv.moved {p : SwapInfo} (hm : s.Moved s' t p)
    (ht : t < s'.nrSwapfiles) (hle : s'.nrSwapfiles ≤ maxSwapfiles)
    (hge : s.nrSwapfiles ≤ s'.nrSwapfiles)
    (hdev : p.flags ≠ .unused → p.Sound ∧ p.pages = p.freeSlots + p.usedSlots)
    (hunused : p.flags = .unused → p.max = 0)
    (hnr : s'.nrSwapPages = s.nrSwapPages + (p.balance - (s.info t).balance)) : s'.Inv d := by
  obtain ⟨⟨n, hself⟩, hother⟩ := hm
  have hcase : ∀ i, ∃ (q : SwapInfo) (n : Option ℕ), s'.info i = { q with next := n } ∧
      (q.flags ≠ .unused → q.Sound ∧ q.pages = q.freeSlots + q.usedSlots) ∧
      (q.flags = .unused → q.max = 0) ∧ (s'.nrSwapfiles ≤ i → q.flags = .unused) := by
    intro i
    rcases eq_or_ne i t with rfl | hne
    · exact ⟨p, n, hself, hdev, hunused, fun hi ↦ absurd ht (not_lt.2 hi)⟩
    · obtain ⟨n', hn'⟩ := hother i hne
      exact ⟨_, n', hn', fun hi ↦ ⟨h.sound i hi, h.pages i hi⟩, h.unused i,
        fun hi ↦ h.above i (hge.trans hi)⟩
  refine ⟨fun i hi ↦ ?_, fun i hi ↦ ?_, fun i hi ↦ ?_, fun i hi ↦ ?_, hle, ?_⟩
  · obtain ⟨q, n', hq, hdev', -, -⟩ := hcase i
    rw [hq] at hi ⊢
    obtain ⟨⟨hwindow, hheader, hhigh⟩, -⟩ := hdev' hi
    exact ⟨hwindow, hheader, hhigh⟩
  · obtain ⟨q, n', hq, hdev', -, -⟩ := hcase i
    rw [hq] at hi ⊢
    exact (hdev' hi).2
  · obtain ⟨q, n', hq, -, hunused', -⟩ := hcase i
    rw [hq] at hi ⊢
    exact hunused' hi
  · obtain ⟨q, n', hq, -, -, habove⟩ := hcase i
    rw [hq]
    exact habove hi
  · have hbal : ∀ i ≠ t, (s'.info i).balance = (s.info i).balance := by
      intro i hi
      obtain ⟨n', hn'⟩ := hother i hi
      rw [hn', (same_next (s.info i) n').balance_eq]
    rw [sum_balance (ht.trans_le hle) hbal, hself, (same_next p n).balance_eq, hnr, h.count]
    ring

/-! ## The calls keep it -/

theorem Inv.sysSwapon {file size : ℕ} {prefer : Option ℕ} {header : Header} {ok : Bool}
    (hwf : header.WellFormed)
    (hon : s.sysSwapon file prefer size header ok = .ok s') : s'.Inv d := by
  obtain rfl | ⟨hlt, hn, p, hm, hcase⟩ := sysSwapon_spec hon
  · exact h
  obtain ⟨hle, hfree⟩ := freeType_spec h.above
  have hbal : (s.info s.freeType).balance = 0 := by rw [SwapInfo.balance, hfree]
  have hle' : s'.nrSwapfiles ≤ maxSwapfiles := hn ▸ max_le h.le hlt
  refine h.moved hm (by rw [hn]; omega) hle' (by rw [hn]; omega) (fun hp ↦ ?_) (fun hp ↦ ?_) ?_
  · rcases hcase with ⟨hun, -⟩ | ⟨-, a, hread, hmap, hlo, hhi, hmax, hpages, -⟩
    · exact absurd hun hp
    · obtain ⟨hsound, hfree, hused⟩ := readHeader_spec hmap hlo hhi hmax hwf hread
      exact ⟨hsound, by rw [hpages, ← hfree, hused]; simp⟩
  · rcases hcase with ⟨-, hmax, -⟩ | ⟨hok, -⟩
    · exact hmax.trans (h.unused _ hfree)
    · simp [hok] at hp
  · rw [hbal, sub_zero]
    rcases hcase with ⟨hun, -, hnr⟩ | ⟨hok, a, hread, hmap, hlo, hhi, hmax, -, hnr⟩
    · simp [hnr, SwapInfo.balance, hun]
    · obtain ⟨-, hfree, -⟩ := readHeader_spec hmap hlo hhi hmax hwf hread
      simp only [SwapInfo.balance, hok]
      rw [hfree, hnr]

theorem Inv.got {r : Option (ℕ × ℕ)} (hgot : s.Got s' r) : s'.Inv d := by
  match r with
  | none => exact h.quiet hgot.1 hgot.2
  | some (t, o) =>
    obtain ⟨-, h0, hchanged, hnr⟩ := hgot
    refine h.changed hchanged ?_
    rw [hnr, h0, if_neg one_ne_zero, if_pos rfl]
    ring

theorem Inv.swapDuplicate (t o : ℕ) : (s.swapDuplicate t o).2.Inv d := by
  rcases swapDuplicate_spec h.unused t o with heq | ⟨s', v, heq, hne, -, hv, hchanged, hnr⟩
  · rw [heq]
    exact h
  · rw [heq]
    have hv0 : v ≠ 0 := by
      rcases hv with ⟨rfl, -⟩ | rfl
      · omega
      · decide
    refine h.changed hchanged ?_
    rw [hnr, if_neg hv0, if_neg hne]
    ring

theorem Inv.swapFree (t o : ℕ) (junk : ℤ) : (s.swapFree t o junk).Inv d := by
  rcases swapFree_spec t o junk with ⟨-, hquiet, hnr⟩ | ⟨hne, -, hchanged, hnr⟩
  · exact h.quiet hquiet hnr
  · refine h.changed hchanged ?_
    rw [hnr, if_neg hne]
    ring

/-- A device is taken off the list or is put back on it. -/
theorem Inv.setFlags {flags : Status} (ht : (s.info t).flags ≠ .unused)
    (hflags : flags ≠ .unused) (hm : s.Moved s' t { s.info t with flags := flags })
    (hn : s'.nrSwapfiles = s.nrSwapfiles) (hnr : s'.nrSwapPages = s.nrSwapPages +
      (SwapInfo.balance { s.info t with flags := flags } - (s.info t).balance)) : s'.Inv d := by
  have hs := h.sound t ht
  exact h.moved hm (hn ▸ h.lt ht) (hn ▸ h.le) hn.ge
    (fun _ ↦ ⟨⟨hs.window, hs.header, hs.high⟩, h.pages t ht⟩) (fun hp ↦ absurd hp hflags) hnr

theorem Inv.swapoffStart {file : ℕ} (hoff : s.swapoffStart file = .ok s') :
    s'.Inv d := by
  obtain rfl | ⟨t, hflags, hm, hn, hnr⟩ := swapoffStart_spec hoff
  · exact h
  have hused : (s.info t).flags ≠ .unused := by simp [hflags]
  refine h.setFlags hused (by decide) hm hn ?_
  rw [hnr, h.pages t hused]
  simp only [SwapInfo.balance, hflags]
  show _ = _ + (-((s.info t).usedSlots : ℤ) - _)
  ring

theorem Inv.swapoffFail (hflags : (s.info t).flags = .used)
    (hoff : s.swapoffFail t = .ok s') : s'.Inv d := by
  obtain ⟨hm, hn, hnr⟩ := swapoffFail_spec hoff
  have hused : (s.info t).flags ≠ .unused := by simp [hflags]
  refine h.setFlags hused (by decide) hm hn ?_
  rw [hnr, h.pages t hused]
  simp only [SwapInfo.balance, hflags]
  show _ = _ + (((s.info t).freeSlots : ℤ) - _)
  ring

theorem Inv.resetOverflow {o : ℕ} (hflags : (s.info t).flags = .used)
    (hlt : o < (s.info t).max) (hmax : (s.info t).swapMap o = swapMapMax) :
    (s.resetOverflow t o).Inv (d + 1) := by
  have hbad : (s.info t).swapMap o ≠ swapMapBad := hmax.trans_ne (by decide)
  have hchanged := changed_setInfo
    (by simp [hflags]) hlt hbad (by decide)
    (.refl _) fun hs ↦ hs.setSlot hbad one_ne_zero
  refine h.changed (hchanged.congr rfl rfl) ?_
  show s.nrSwapPages + 1 = _
  rw [hmax, if_neg one_ne_zero, if_neg (by decide)]
  ring

theorem Inv.swapoffDone (hflags : (s.info t).flags = .used)
    (hall : ∀ o < (s.info t).max, (s.info t).swapMap o = 0 ∨ (s.info t).swapMap o = swapMapBad) :
    (s.swapoffDone t).Inv d := by
  have hused : (s.info t).flags ≠ .unused := by simp [hflags]
  have hnone : (s.info t).usedSlots = 0 := by
    rw [SwapInfo.usedSlots, card_eq_zero, filter_eq_empty_iff]
    intro o ho
    rcases hall o (mem_range.1 ho) with h0 | h0 <;> simp [h0]
  refine h.moved (moved_setInfo rfl) (h.lt hused) h.le le_rfl (fun hp ↦ ?_) (fun _ ↦ rfl) ?_
  · simp at hp
  · simp [State.swapoffDone, setInfo, SwapInfo.balance, hflags, hnone]

end Slots

end State

variable {α : Type}

theorem bind_return {β : Type} {m : Except Fault α} {f : α → β} {y : β}
    (h : (do let x ← m; return f x) = .ok y) : ∃ x, m = .ok x ∧ f x = y := by
  match m with
  | .error e => simp at h
  | .ok x => exact ⟨x, rfl, by simpa [bind, Except.bind, pure, Except.pure] using h⟩

namespace World

variable {w w' : World} {a : Call}

theorem duplicated_st (w : World) (t o : ℕ) (r : Bool × State) :
    (w.duplicated t o r).st = r.2 ∧ (w.duplicated t o r).resets = w.resets := by
  match r with
  | (false, _) => exact ⟨rfl, rfl⟩
  | (true, _) => exact ⟨rfl, rfl⟩

theorem inv_step (h : w.st.Inv w.resets) (hl : Legal w a) (he : w.exec a = .ok w') :
    w'.st.Inv w'.resets := by
  match a with
  | .sysSwapon file prefer size header ok =>
    obtain ⟨s', hon, rfl⟩ := bind_return he
    exact h.sysSwapon hl hon
  | .getSwapPage =>
    obtain ⟨⟨r, s'⟩, hget, rfl⟩ := bind_return he
    have hgot := State.getSwapPage_spec h.sound hget
    match r with
    | none => exact h.got hgot
    | some (t, o) => exact h.got hgot
  | .swapDuplicate t o =>
    simp only [exec, Except.ok.injEq] at he
    obtain ⟨hst, hresets⟩ := w.duplicated_st t o (w.st.swapDuplicate t o)
    rw [← he, hst, hresets]
    exact h.swapDuplicate t o
  | .swapFree t o junk =>
    cases he
    exact h.swapFree t o junk
  | .swapoffStart file =>
    obtain ⟨s', hoff, rfl⟩ := bind_return he
    exact h.swapoffStart hoff
  | .resetOverflow t o =>
    cases he
    obtain ⟨hflags, hlt, hmax⟩ := hl
    simpa using h.resetOverflow hflags hlt hmax
  | .swapoffFail t =>
    obtain ⟨s', hoff, rfl⟩ := bind_return he
    exact h.swapoffFail hl hoff
  | .swapoffDone t =>
    cases he
    exact h.swapoffDone hl.1 hl.2

theorem inv_of_reachable (h : machine.Reachable w) : w.st.Inv w.resets := by
  refine Machine.Reachable.invariant (P := fun w ↦ w.st.Inv w.resets) ?_ ?_ h
  · rintro w rfl
    exact ⟨fun i hi ↦ absurd rfl hi, fun i hi ↦ absurd rfl hi, fun _ _ ↦ rfl, fun _ _ ↦ rfl,
      by decide, by simp [initial, SwapInfo.balance]⟩
  · intro w a w' hinv hl he
    exact inv_step hinv hl he

end World

/-- What `nr_swap_pages` and the windows are for. -/
structure State.Accounted (s : State) : Prop where
  /-- The free slots of the devices that can be written to minus the slots in use of those that are
  being removed. -/
  count : s.nrSwapPages =
    ∑ i ∈ range maxSwapfiles with (s.info i).flags = .writeok, ((s.info i).freeSlots : ℤ) -
      ∑ i ∈ range maxSwapfiles with (s.info i).flags = .used, ((s.info i).usedSlots : ℤ)
  /-- A free slot is in the window. -/
  window : ∀ i < maxSwapfiles, (s.info i).flags = .writeok → ∀ o < (s.info i).max,
    (s.info i).swapMap o = 0 → (s.info i).lowestBit ≤ o ∧ o ≤ (s.info i).highestBit

theorem State.sum_balance_eq (s : State) : ∑ i ∈ range maxSwapfiles, (s.info i).balance =
    ∑ i ∈ range maxSwapfiles with (s.info i).flags = .writeok, ((s.info i).freeSlots : ℤ) -
      ∑ i ∈ range maxSwapfiles with (s.info i).flags = .used, ((s.info i).usedSlots : ℤ) := by
  rw [sum_filter, sum_filter, ← sum_sub_distrib]
  refine sum_congr rfl fun i _ ↦ ?_
  cases h : (s.info i).flags <;> simp [SwapInfo.balance, h]

theorem State.Inv.accounted_iff {s : State} {d : ℤ} (h : s.Inv d) : s.Accounted ↔ d = 0 := by
  have hcount := h.count
  rw [s.sum_balance_eq] at hcount
  constructor
  · intro hacc
    have := hacc.count
    omega
  · rintro rfl
    refine ⟨by rw [hcount, add_zero], fun i _ hi ↦ (h.sound i ?_).window⟩
    simp [hi]

/-- **Swap accounting.**  In every state of every run `nr_swap_pages` is right and no free slot is
outside of its window, if and only if `try_to_unuse` has not reset a counter in the run. -/
theorem swap_accounted_iff {w : World} (h : machine.Reachable w) :
    w.st.Accounted ↔ w.resets = 0 := by
  rw [(World.inv_of_reachable h).accounted_iff]
  exact Int.natCast_eq_zero

/-- A device has been added, and a slot of it handed out. -/
theorem swap_accounted_iff_first : ∃ w, machine.Reachable w ∧ w.st.nrSwapPages = 1 ∧
    w.resets = 0 ∧ w.st.Accounted := by
  have h : machine.trace initial
      [.sysSwapon 0 none 0 (.v2 1 3 []) true, .getSwapPage] = some _ := rfl
  have hreach := (Machine.Reachable.init rfl).trace h
  exact ⟨_, hreach, rfl, rfl, (swap_accounted_iff hreach).2 rfl⟩

/-- A device with one slot, which has been handed out and duplicated `n` times. -/
structure Busy (w : World) (n : ℕ) : Prop where
  flags : (w.st.info 0).flags = .writeok
  file : (w.st.info 0).swapFile = some 0
  max : (w.st.info 0).max = 2
  map : (w.st.info 0).swapMap 1 = n + 1
  head : w.st.head = some 0
  nrSwapfiles : w.st.nrSwapfiles = 1
  resets : w.resets = 0

theorem Busy.duplicate {w : World} {n : ℕ} (h : Busy w n) (hn : n + 1 < swapMapMax) :
    ∃ w', w.exec (.swapDuplicate 0 1) = .ok w' ∧ Busy w' (n + 1) := by
  have hdup : w.st.swapDuplicate 0 1 =
      (true, w.st.setInfo 0 ((w.st.info 0).setSlot 1 (n + 2))) := by
    rw [State.swapDuplicate, if_pos ⟨h.nrSwapfiles ▸ by decide, h.max ▸ by decide, by simp [h.map]⟩,
      h.map]
    split
    · rfl
    · have heq : swapMapMax = n + 2 := by omega
      rw [if_pos hn.le, heq]
      rfl
  refine ⟨_, rfl, ?_⟩
  rw [hdup]
  exact ⟨h.flags, h.file, h.max, rfl, h.head, h.nrSwapfiles, h.resets⟩

theorem exists_busy (n : ℕ) (hn : n < swapMapMax) : ∃ w, machine.Reachable w ∧ Busy w n := by
  induction n with
  | zero =>
    have h : machine.trace initial
        [.sysSwapon 0 none 0 (.v2 1 2 []) true, .getSwapPage] = some _ := rfl
    exact ⟨_, (Machine.Reachable.init rfl).trace h, rfl, rfl, rfl, rfl, rfl, rfl, rfl⟩
  | succ n ih =>
    obtain ⟨w, hw, hbusy⟩ := ih (by omega)
    obtain ⟨w', he, hbusy'⟩ := hbusy.duplicate hn
    exact ⟨w', hw.step (a := .swapDuplicate 0 1) trivial he, hbusy'⟩

/-- A slot that is at `SWAP_MAP_MAX` when its device is removed is counted twice. -/
theorem swap_overflow_miscounted : ∃ w, machine.Reachable w ∧ ¬ w.st.Accounted := by
  obtain ⟨w, hw, hbusy⟩ := exists_busy 32766 (by decide)
  obtain ⟨hflags, hfile, hmax, hmap, hhead, -, hresets⟩ := hbusy
  have hfind : w.st.findFile 0 (maxSwapfiles + 1) none w.st.head = .ok (none, some 0) := by
    rw [hhead, State.findFile, if_pos ⟨hflags, hfile⟩]
  obtain ⟨s, hoff, hinfo⟩ : ∃ s, w.st.swapoffStart 0 = .ok s ∧
      s.info 0 = { w.st.info 0 with flags := .used } := by
    rw [State.swapoffStart, hfind]
    refine ⟨_, rfl, ?_⟩
    split_ifs <;> rfl
  have hstart : machine.Reachable { w with st := s } := by
    refine hw.step (a := .swapoffStart 0) trivial ?_
    show (do let st ← w.st.swapoffStart 0; return { w with st := st } : Except Fault World) = _
    rw [hoff]
    rfl
  have hlegal : machine.legal { w with st := s } (.resetOverflow 0 1) := by
    show (s.info 0).flags = .used ∧ 1 < (s.info 0).max ∧ (s.info 0).swapMap 1 = swapMapMax
    rw [hinfo]
    exact ⟨rfl, hmax ▸ (by decide), hmap⟩
  have hreset := hstart.step hlegal rfl
  refine ⟨_, hreset, fun hacc ↦ ?_⟩
  have hzero := (World.inv_of_reachable hreset).accounted_iff.1 hacc
  simp [hresets] at hzero

/-! ## References -/

theorem setAt_self (f : ℕ → ℕ → α) (t o : ℕ) (v : α) : setAt f t o v t o = v :=
  if_pos ⟨rfl, rfl⟩

theorem setAt_of_ne (f : ℕ → ℕ → α) {t o t' o' : ℕ} (v : α) (h : ¬ (t' = t ∧ o' = o)) :
    setAt f t o v t' o' = f t' o' := if_neg h

namespace World

variable {w w' : World} {a : Call} {s' : State}

/-- The counters are the numbers of references, as far as they go. -/
structure Faithful (w : World) : Prop where
  refs : ∀ t o, o < (w.st.info t).max → (w.st.info t).swapMap o < swapMapMax →
    w.refs t o = (w.st.info t).swapMap o
  bad : ∀ t o, o < (w.st.info t).max → (w.st.info t).swapMap o = swapMapBad → w.refs t o = 0
  outside : ∀ t o, (w.st.info t).max ≤ o → w.refs t o = 0
  saturated : ∀ t o, w.saturated t o = true →
    o < (w.st.info t).max ∧ (w.st.info t).swapMap o = swapMapMax

section Faithful

variable (h : w.Faithful)
include h

theorem Faithful.quiet (hq : w.st.Quiet s') : Faithful { w with st := s' } := by
  refine ⟨fun t o ↦ ?_, fun t o ↦ ?_, fun t o ↦ ?_, fun t o ↦ ?_⟩ <;>
    simp only [(hq.same t).max, (hq.same t).swapMap]
  · exact h.refs t o
  · exact h.bad t o
  · exact h.outside t o
  · exact h.saturated t o

variable {o t : ℕ}

/-- The counter of a slot changes, and the number of references to it. -/
theorem Faithful.changed {v r : ℕ} (w' : World) (hc : w.st.Changed w'.st t o v)
    (hrefs : w'.refs = setAt w.refs t o r) (hr : v < swapMapMax → r = v)
    (hsat : ∀ t' o', ¬ (t' = t ∧ o' = o) → w'.saturated t' o' = w.saturated t' o')
    (hsat' : w'.saturated t o = true → v = swapMapMax) : w'.Faithful := by
  have hmax : ∀ i, (w'.st.info i).max = (w.st.info i).max := by
    intro i
    rcases eq_or_ne i t with rfl | hne
    · exact hc.self.max
    · exact (hc.other i hne).max
  have hself : (w'.st.info t).swapMap o = v := by
    rw [hc.self.swapMap]
    exact update_self _ _ _
  have hother : ∀ t' o', ¬ (t' = t ∧ o' = o) →
      (w'.st.info t').swapMap o' = (w.st.info t').swapMap o' := by
    intro t' o' hne
    rcases eq_or_ne t' t with rfl | hne'
    · rw [hc.self.swapMap]
      exact update_of_ne (fun heq ↦ hne ⟨rfl, heq⟩) _ _
    · rw [(hc.other t' hne').swapMap]
  refine ⟨fun t' o' ho hlt ↦ ?_, fun t' o' ho hb ↦ ?_, fun t' o' ho ↦ ?_, fun t' o' hs ↦ ?_⟩ <;>
    rw [hmax] at *
  all_goals by_cases heq : t' = t ∧ o' = o
  · obtain ⟨rfl, rfl⟩ := heq
    rw [hself] at hlt ⊢
    rw [hrefs, setAt_self, hr hlt]
  · rw [hother _ _ heq] at hlt ⊢
    rw [hrefs, setAt_of_ne _ _ heq, h.refs t' o' ho hlt]
  · obtain ⟨rfl, rfl⟩ := heq
    exact absurd (hself.symm.trans hb) hc.value
  · rw [hother _ _ heq] at hb
    rw [hrefs, setAt_of_ne _ _ heq, h.bad t' o' ho hb]
  · obtain ⟨rfl, rfl⟩ := heq
    exact absurd hc.lt (not_lt.2 ho)
  · rw [hrefs, setAt_of_ne _ _ heq, h.outside t' o' ho]
  · obtain ⟨rfl, rfl⟩ := heq
    exact ⟨hc.lt, hself.trans (hsat' hs)⟩
  · rw [hsat _ _ heq] at hs
    rw [hother _ _ heq]
    exact h.saturated t' o' hs

theorem Faithful.moved {p : SwapInfo} (hm : w.st.Moved s' t p)
    (hrefs : ∀ o < p.max, p.swapMap o < swapMapMax → w.refs t o = p.swapMap o)
    (hbad : ∀ o < p.max, p.swapMap o = swapMapBad → w.refs t o = 0)
    (houtside : ∀ o, p.max ≤ o → w.refs t o = 0)
    (hsat : ∀ o, w.saturated t o = true → o < p.max ∧ p.swapMap o = swapMapMax) :
    Faithful { w with st := s' } := by
  obtain ⟨⟨n, hself⟩, hother⟩ := hm
  refine ⟨fun i ↦ ?_, fun i ↦ ?_, fun i ↦ ?_, fun i ↦ ?_⟩
  all_goals
    rcases eq_or_ne i t with rfl | hne
  · rw [hself]
    exact hrefs
  · obtain ⟨n', hn'⟩ := hother i hne
    rw [hn']
    exact h.refs i
  · rw [hself]
    exact hbad
  · obtain ⟨n', hn'⟩ := hother i hne
    rw [hn']
    exact h.bad i
  · rw [hself]
    exact houtside
  · obtain ⟨n', hn'⟩ := hother i hne
    rw [hn']
    exact h.outside i
  · rw [hself]
    exact hsat
  · obtain ⟨n', hn'⟩ := hother i hne
    rw [hn']
    exact h.saturated i

/-- The calls that the users of swap space make: only a reference that there is can be freed.  A
counter that `try_to_unuse` resets does not count the references any more. -/
def Live (w : World) : Call → Prop
  | .swapFree t o _ => 0 < w.refs t o
  | .resetOverflow _ _ => False
  | _ => True

theorem Faithful.got {r : Option (ℕ × ℕ)} (hgot : w.st.Got s' r) :
    (w.got (r, s')).Faithful := by
  match r with
  | none => exact h.quiet hgot.1
  | some (t, o) =>
    obtain ⟨-, h0, hchanged, -⟩ := hgot
    have hrefs : w.refs t o = 0 := by
      rw [h.refs t o hchanged.lt (by rw [h0]; decide), h0]
    refine h.changed (w.got (some (t, o), s')) hchanged rfl (fun _ ↦ ?_) (fun _ _ _ ↦ rfl)
      fun hs ↦ ?_
    · rw [hrefs]
    · exact absurd (h0.symm.trans (h.saturated t o hs).2) (by decide)

theorem Faithful.swapDuplicate
    (hunused : ∀ i, (w.st.info i).flags = .unused → (w.st.info i).max = 0) (t o : ℕ) :
    (w.duplicated t o (w.st.swapDuplicate t o)).Faithful := by
  rcases State.swapDuplicate_spec hunused t o with heq | ⟨s', v, heq, -, -, hv, hchanged, -⟩
  · rw [heq]
    exact h
  · rw [heq]
    have hself : (s'.info t).swapMap o = v := by
      rw [hchanged.self.swapMap]
      exact update_self _ _ _
    refine h.changed (w.duplicated t o (true, s')) hchanged rfl (fun hlt ↦ ?_)
      (fun t' o' hne' ↦ setAt_of_ne _ _ hne') fun hs ↦ ?_
    · rcases hv with ⟨rfl, -⟩ | rfl
      · rw [h.refs t o hchanged.lt (by omega)]
      · exact absurd hlt (lt_irrefl _)
    · simp only [duplicated, setAt_self, hself, Bool.or_eq_true, decide_eq_true_eq] at hs
      rcases hs with hs | hs
      · -- a counter at `SWAP_MAP_MAX` stays there
        have hmax := (h.saturated t o hs).2
        rcases hv with ⟨rfl, hlt⟩ | rfl
        · omega
        · rfl
      · exact hs

/-- A reference to a slot whose counter is not exact. -/
theorem Faithful.forget {r : ℕ} (hlt : o < (w.st.info t).max)
    (hmax : swapMapMax ≤ (w.st.info t).swapMap o) (hbad : (w.st.info t).swapMap o ≠ swapMapBad) :
    Faithful { w with refs := setAt w.refs t o r } := by
  refine ⟨fun t' o' ho hm ↦ ?_, fun t' o' ho hb ↦ ?_, fun t' o' ho ↦ ?_, h.saturated⟩
  all_goals by_cases heq : t' = t ∧ o' = o
  · obtain ⟨rfl, rfl⟩ := heq
    exact absurd hm (not_lt.2 hmax)
  · exact (setAt_of_ne _ _ heq).trans (h.refs t' o' ho hm)
  · obtain ⟨rfl, rfl⟩ := heq
    exact absurd hb hbad
  · exact (setAt_of_ne _ _ heq).trans (h.bad t' o' ho hb)
  · obtain ⟨rfl, rfl⟩ := heq
    exact absurd hlt (not_lt.2 ho)
  · exact (setAt_of_ne _ _ heq).trans (h.outside t' o' ho)

/-- An entry that is referenced is one that `swap_info_get` finds. -/
theorem Faithful.valid {d : ℤ} (hinv : w.st.Inv d)
    (hlive : 0 < w.refs t o) : o < (w.st.info t).max ∧ (w.st.info t).swapMap o ≠ swapMapBad ∧
      ((w.st.info t).swapMap o < swapMapMax → w.st.valid t o) := by
  have hlt : o < (w.st.info t).max := by
    by_contra hge
    exact hlive.ne' (h.outside t o (not_lt.1 hge))
  have hbad : (w.st.info t).swapMap o ≠ swapMapBad := fun hb ↦ hlive.ne' (h.bad t o hlt hb)
  have hflags : (w.st.info t).flags ≠ .unused := by
    intro hun
    rw [hinv.unused t hun] at hlt
    exact Nat.not_lt_zero o hlt
  refine ⟨hlt, hbad, fun hmax ↦ ?_⟩
  rw [State.valid, decide_eq_true_eq]
  refine ⟨fun h00 ↦ ?_, hinv.lt hflags, hflags, hlt, fun h0 ↦ ?_⟩
  · rw [h00.2] at hbad
    exact hbad (hinv.sound t hflags).header
  · rw [h.refs t o hlt hmax, h0] at hlive
    exact lt_irrefl 0 hlive

theorem Faithful.swapFree {d : ℤ} (hinv : w.st.Inv d)
    (hlive : 0 < w.refs t o) (junk : ℤ) : Faithful { w with
      st := w.st.swapFree t o junk
      refs := setAt w.refs t o (w.refs t o - 1) } := by
  obtain ⟨hlt, hbad, hvalid⟩ := h.valid hinv hlive
  rcases State.swapFree_spec t o junk with ⟨hno, hquiet, -⟩ | ⟨-, hmax, hchanged, -⟩
  · have hmax : swapMapMax ≤ (w.st.info t).swapMap o := by
      by_contra hmax
      exact hno ⟨hvalid (not_le.1 hmax), not_le.1 hmax⟩
    exact (h.forget hlt hmax hbad).quiet hquiet
  · refine h.changed { w with
      st := w.st.swapFree t o junk
      refs := setAt w.refs t o (w.refs t o - 1) } hchanged rfl (fun _ ↦ ?_) (fun _ _ _ ↦ rfl)
      fun hs ↦ ?_
    · rw [h.refs t o hlt hmax]
    · exact absurd (h.saturated t o hs).2 hmax.ne

theorem Faithful.sysSwapon {file size : ℕ} {prefer : Option ℕ} {header : State.Header} {ok : Bool}
    {d : ℤ} (hinv : w.st.Inv d) (hwf : header.WellFormed)
    (hon : w.st.sysSwapon file prefer size header ok = .ok s') : Faithful { w with st := s' } := by
  obtain rfl | ⟨-, -, p, hm, hcase⟩ := State.sysSwapon_spec hon
  · exact h
  obtain ⟨-, hfree⟩ := State.freeType_spec hinv.above
  have hmax := hinv.unused _ hfree
  have hrefs : ∀ o, w.refs w.st.freeType o = 0 := fun o ↦ h.outside _ o (hmax ▸ zero_le)
  have hempty : ∀ o < p.max, p.swapMap o = 0 ∨ p.swapMap o = swapMapBad := by
    intro o ho
    rcases hcase with ⟨-, hzero, -⟩ | ⟨-, a, hread, hmap, hlo, hhi, hpmax, -, -⟩
    · rw [hzero, hmax] at ho
      cases ho
    · obtain ⟨-, -, hused⟩ := State.readHeader_spec hmap hlo hhi hpmax hwf hread
      rw [SwapInfo.usedSlots, card_eq_zero, filter_eq_empty_iff] at hused
      by_contra hno
      exact hused (mem_range.2 ho) (not_or.1 hno)
  refine h.moved hm (fun o ho hlt ↦ ?_) (fun o _ _ ↦ hrefs o) (fun o _ ↦ hrefs o) fun o hs ↦ ?_
  · rcases hempty o ho with h0 | hb
    · rw [hrefs, h0]
    · rw [hb] at hlt
      exact absurd hlt (by decide)
  · have hlt := (h.saturated _ o hs).1
    rw [hmax] at hlt
    cases hlt

theorem Faithful.setFlags {flags : Status}
    (hm : w.st.Moved s' t { w.st.info t with flags := flags }) : Faithful { w with st := s' } :=
  h.moved hm (h.refs t) (h.bad t) (h.outside t) (h.saturated t)

theorem Faithful.swapoffDone (t : ℕ) : Faithful { w with
      st := w.st.swapoffDone t
      refs := update w.refs t fun _ ↦ 0
      saturated := update w.saturated t fun _ ↦ false } := by
  refine ⟨fun i ↦ ?_, fun i ↦ ?_, fun i ↦ ?_, fun i ↦ ?_⟩
  all_goals rcases eq_or_ne i t with rfl | hne
  · simp [State.swapoffDone, State.setInfo]
  · simpa [State.swapoffDone, State.setInfo, hne] using h.refs i
  · simp
  · simpa [State.swapoffDone, State.setInfo, hne] using h.bad i
  · simp
  · simpa [State.swapoffDone, State.setInfo, hne] using h.outside i
  · simp
  · simpa [State.swapoffDone, State.setInfo, hne] using h.saturated i

theorem faithful_step {d : ℤ} (hinv : w.st.Inv d) (hl : Legal w a)
    (hlive : Live w a) (he : w.exec a = .ok w') : w'.Faithful := by
  match a with
  | .sysSwapon file prefer size header ok =>
    obtain ⟨s', hon, rfl⟩ := bind_return he
    exact h.sysSwapon hinv hl hon
  | .getSwapPage =>
    obtain ⟨⟨r, s'⟩, hget, rfl⟩ := bind_return he
    exact h.got (State.getSwapPage_spec hinv.sound hget)
  | .swapDuplicate t o =>
    simp only [exec, Except.ok.injEq] at he
    exact he ▸ h.swapDuplicate hinv.unused t o
  | .swapFree t o junk =>
    simp only [exec, Except.ok.injEq] at he
    exact he ▸ h.swapFree hinv hlive junk
  | .swapoffStart file =>
    obtain ⟨s', hoff, rfl⟩ := bind_return he
    obtain rfl | ⟨t, -, hm, -⟩ := State.swapoffStart_spec hoff
    · exact h
    · exact h.setFlags hm
  | .resetOverflow t o => exact absurd hlive id
  | .swapoffFail t =>
    obtain ⟨s', hoff, rfl⟩ := bind_return he
    exact h.setFlags (State.swapoffFail_spec hoff).1
  | .swapoffDone t =>
    simp only [exec, Except.ok.injEq] at he
    exact he ▸ h.swapoffDone t

end Faithful

theorem faithful_of_path (h : machine.Path Live initial w) : w.Faithful := by
  induction h with
  | refl =>
    exact ⟨fun _ _ ho ↦ absurd ho (Nat.not_lt_zero _), fun _ _ ho ↦ absurd ho (Nat.not_lt_zero _),
      fun _ _ _ ↦ rfl, fun _ _ hs ↦ absurd hs Bool.false_ne_true⟩
  | step hpath hl hlive he ih =>
    exact faithful_step ih (inv_of_reachable (hpath.reachable (.init rfl))) hl hlive he

end World

/-- **A slot is not handed out while it is referenced.**  In every run in which references are freed
that there are, a slot that `get_swap_page` returns has no references, and its counter has not been
`SWAP_MAP_MAX`; and `scan_swap_map` only finds nothing when there is nothing. -/
theorem getSwapPage_unreferenced {w : World} (h : machine.Path World.Live initial w) :
    (∀ t o s', w.st.getSwapPage = .ok (some (t, o), s') →
      w.refs t o = 0 ∧ w.saturated t o = false) ∧
    ∀ i, (w.st.info i).flags ≠ .unused → (w.st.info i).scanSwapMap.1 = 0 →
      ∀ o < (w.st.info i).max, (w.st.info i).swapMap o ≠ 0 := by
  have hinv := World.inv_of_reachable (h.reachable (.init rfl))
  have hfaith := World.faithful_of_path h
  constructor
  · intro t o s' hget
    obtain ⟨-, h0, hchanged, -⟩ := State.getSwapPage_spec hinv.sound hget
    have hlt : (w.st.info t).swapMap o < swapMapMax := h0 ▸ by decide
    refine ⟨(hfaith.refs t o hchanged.lt hlt).trans h0, ?_⟩
    rw [Bool.eq_false_iff]
    exact fun hs ↦ hlt.ne (hfaith.saturated t o hs).2
  · intro i hi h0
    exact ((hinv.sound i hi).scanSwapMap.none h0).1

/-- With one of two slots handed out, the other one is next. -/
theorem getSwapPage_unreferenced_second : ∃ w s', machine.Path World.Live initial w ∧
    w.refs 0 1 = 1 ∧ w.st.getSwapPage = .ok (some (0, 2), s') ∧ w.refs 0 2 = 0 ∧
    w.saturated 0 2 = false := by
  have h : machine.trace initial
      [.sysSwapon 0 none 0 (.v2 1 3 []) true, .getSwapPage] = some _ := rfl
  have hlive : ∀ w, ∀ a ∈ [Call.sysSwapon 0 none 0 (.v2 1 3 []) true, .getSwapPage],
      World.Live w a := by
    intro w a ha
    simp only [List.mem_cons, List.not_mem_nil, or_false] at ha
    rcases ha with rfl | rfl <;> trivial
  have hpath := Machine.Path.of_trace hlive h
  refine ⟨_, _, hpath, rfl, rfl, ?_⟩
  exact (getSwapPage_unreferenced hpath).1 0 2 _ rfl

end Linux24.Swap
