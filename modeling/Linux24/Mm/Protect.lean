import Linux24.Mm.Split

/-!
# `sys_mprotect` and `do_mlock`

Both walk along the areas of a range.  What one step of the walk does to an area is in `Split`, and
`sys_mprotect` may also let the area before take over the range, or the start of it.  The walks read
the successor of an area before they change it; what makes them right is that a step leaves the
areas after the current one alone, and for `sys_mprotect` also that its `prev` is always the last of
the areas that have been dealt with.
-/

set_option autoImplicit false

namespace Linux24.Vm

open RedBlack Intervals Color List

namespace Mm

variable {mm mm' : Mm} {l r : List ℕ} {x s e : ℕ} {f : Flags}

variable {ids : List ℕ}

/-- A change of flags that does not change what is counted. -/
theorem Recut.drift_eq {k : Account} (h : mm.Recut mm' l x r ids s e f)
    (hk : k.counts f = k.counts (mm.vma x).vmFlags) : mm'.drift k = mm.drift k := by
  have hsum := h.sum k
  rw [hk] at hsum
  exact drift_of_counter k (h.counter k) (Nat.add_right_cancel hsum)

/-- Where the loops go on after an area. -/
theorem WellFormed.dvd_end_and_next (h : mm.WellFormed) (heq : mm.mmap = l ++ x :: r) :
    4096 ∣ (mm.vma x).vmEnd ∧ Chain.next x mm.mmap = r.head? := by
  have hx := h.area _ (mem_map_of_mem (mem_of_list heq))
  refine ⟨Nat.dvd_of_mod_eq_zero hx.2.2.2, ?_⟩
  rw [heq]
  exact Chain.next_append (h.notMem_of_list heq).1

/-! ## One step of `sys_mprotect` -/

theorem of_mprotectCanMerge {p : ℕ} {prev : Option ℕ}
    (h : mm.mprotectCanMerge x prev f = some p) :
    prev = some p ∧ (mm.vma p).vmEnd = (mm.vma x).vmStart ∧ (mm.vma p).vmFlags = f := by
  rw [mprotectCanMerge.eq_def] at h
  split at h
  · split at h
    · rename_i hc
      cases h
      exact ⟨rfl, hc.1, (decide_eq_true_iff.1 hc.2.1).2⟩
    · cases h
  · cases h

/-- What a step of `sys_mprotect` leaves behind: the areas up to the current one have become `l'`,
and `prev` is the last of them. -/
structure Stepped (mm mm' : Mm) (prev : Option ℕ) (r : List ℕ) : Prop where
  list : ∃ l', mm'.mmap = l' ++ r ∧ prev = l'.getLast? ∧ l' ≠ []
  same : ∀ y ∈ r, mm'.vma y = mm.vma y

theorem Recut.stepped {n : ℕ} (h : mm.Recut mm' l x r ids s e f)
    (hn : ids.getLast? = some n) : mm.Stepped mm' (some n) r := by
  have hne : ids ≠ [] := by
    rintro rfl
    cases hn
  refine ⟨⟨l ++ ids, by rw [h.list, append_assoc], ?_, by simp [hne]⟩,
    fun y hy ↦ h.same y (Or.inr hy)⟩
  rw [getLast?_append_of_ne_nil _ hne, hn]

/-- The boundary between two areas that touch is moved. -/
theorem WellFormed.moveBoundary {p : ℕ} (h : mm.WellFormed) (heq : mm.mmap = l ++ p :: x :: r)
    (hadj : (mm.vma p).vmEnd = (mm.vma x).vmStart) (hs : (mm.vma x).vmStart < e)
    (he : e < (mm.vma x).vmEnd) (hdvd : 4096 ∣ e) :
    ((mm.setEnd p e).setStart x e).WellFormed ∧ ∀ k : Account,
      k.counts (mm.vma p).vmFlags = k.counts (mm.vma x).vmFlags →
      ((mm.setEnd p e).setStart x e).drift k = mm.drift k := by
  have hnot := h.notMem_of_list heq
  have heq' : mm.mmap = (l ++ [p]) ++ x :: r := by rw [heq]; simp
  have hnot' := h.notMem_of_list heq'
  simp only [mem_append, mem_cons, not_mem_nil, or_false, not_or] at hnot hnot'
  obtain ⟨hpl, hpx, hpr⟩ := hnot
  obtain ⟨⟨hxl, hxp⟩, hxr⟩ := hnot'
  have hvma : ((mm.setEnd p e).setStart x e).vma = Function.update (Function.update mm.vma p
      { mm.vma p with vmEnd := e }) x { mm.vma x with vmStart := e } := by
    change Function.update (Function.update mm.vma p _) x
      { Function.update mm.vma p { mm.vma p with vmEnd := e } x with vmStart := e } = _
    rw [Function.update_of_ne hxp]
  have hareas : ((mm.setEnd p e).setStart x e).areas = l.map mm.vma ++
      { mm.vma p with vmEnd := e } :: { mm.vma x with vmStart := e } :: r.map mm.vma := by
    rw [areas, hvma]
    change mm.mmap.map _ = _
    rw [heq, map_append, map_cons, map_cons, map_update hxl, map_update hpl,
      map_update hxr, map_update hpr, Function.update_self, Function.update_of_ne hpx,
      Function.update_self]
  have hrow := h.row
  rw [areas, heq, map_append] at hrow
  have hp := hrow.of_mem (a := mm.vma p) (by simp)
  refine ⟨.of_row (h.toLinked.congr rfl rfl h.cache le_rfl) h.count ?_, fun k hk ↦ ?_⟩
  · rw [hareas]
    refine Laid.replace [mm.vma p, mm.vma x] [_, _] hrow fun b c hb ↦ ?_
    obtain ⟨⟨hlo, hne, hsp, -⟩, ⟨-, -, -, hex⟩, hhi⟩ := hb
    exact ⟨⟨hlo, hne.trans (hadj.trans_lt hs), hsp, hdvd⟩, ⟨le_rfl, he, hdvd, hex⟩, hhi⟩
  · refine drift_of_counter k (by cases k <;> rfl) ?_
    rw [hareas, areas, heq, map_append, map_cons, map_cons]
    simp only [Account.sum_append, Account.sum_cons, Account.value, hk]
    split
    · omega
    · rfl

theorem WellFormed.mprotectFixupAll_spec (h : mm.WellFormed) (heq : mm.mmap = l ++ x :: r)
    (hk : ∀ k : Account, k.counts f = k.counts (mm.vma x).vmFlags) :
    ∃ prev mm', mm.mprotectFixupAll x l.getLast? f = (0, prev, mm') ∧ mm'.WellFormed ∧
      (∀ k, mm'.drift k = mm.drift k) ∧ mm.Stepped mm' prev r := by
  rw [mprotectFixupAll.eq_def]
  split
  · rename_i p hp
    obtain ⟨hlast, hadj, hflags⟩ := of_mprotectCanMerge hp
    obtain ⟨l', rfl⟩ := getLast?_eq_some_iff.1 hlast
    rw [append_assoc] at heq
    have habs := h.absorb heq hadj
    refine ⟨_, _, rfl, habs.wf, fun k ↦ ?_, ⟨l' ++ [p], ?_, rfl, by simp⟩, fun y hy ↦ ?_⟩
    · exact drift_of_counter k (habs.counter k) (habs.sum k (by rw [hflags, hk]))
    · rw [habs.list, append_assoc]
      rfl
    · refine Function.update_of_ne (fun hyp ↦ ?_) _ _
      exact (h.notMem_of_list heq).2 (hyp ▸ mem_cons_of_mem x hy)
  · have hrecut := h.recut_all heq (f := f) rfl rfl
    exact ⟨_, _, rfl, hrecut.wf, fun k ↦ hrecut.drift_eq (hk k), hrecut.stepped rfl⟩

/-- There is no `BUG()` in `change_protection` for a range that is not empty. -/
theorem mprotectFixup_of_lt (hse : s < e) (E : Env) (prev : Option ℕ) :
    mm.mprotectFixup E x prev s e f =
      if f = (mm.vma x).vmFlags then .ok (0, some x, mm) else mm.mprotectSplit E x prev s e f := by
  rw [mprotectFixup, changeProtection, if_neg (not_le.2 hse)]
  split
  · rfl
  rcases mm.mprotectSplit E x prev s e f with _ | ⟨er, prev', mm'⟩
  · rfl
  · by_cases her : er = 0
    · rw [her]
      rfl
    · change (if er ≠ 0 then _ else _) = _
      rw [if_pos her]
      rfl

/-- **One step of `sys_mprotect`.**  It may fail for want of memory; otherwise the part of the area
from `s` to `e` has the new flags. -/
theorem WellFormed.mprotectFixup_spec (h : mm.WellFormed) (heq : mm.mmap = l ++ x :: r) (E : Env)
    (hs : (mm.vma x).vmStart ≤ s) (hse : s < e) (he : e ≤ (mm.vma x).vmEnd) (hds : 4096 ∣ s)
    (hde : 4096 ∣ e) (hk : ∀ k : Account, k.counts f = k.counts (mm.vma x).vmFlags) :
    ∃ er prev mm', mm.mprotectFixup E x l.getLast? s e f = .ok (er, prev, mm') ∧
      mm'.WellFormed ∧ (∀ k, mm'.drift k = mm.drift k) ∧
      (er = 0 → e = (mm.vma x).vmEnd → mm.Stepped mm' prev r) := by
  have hfail : ∀ (prev : Option ℕ) (t : ℕ), mm.tick ≤ t → ∃ er prev' mm',
      (Except.ok (err eNomem, prev, { mm with tick := t }) : Except Fault (ℕ × Option ℕ × Mm)) =
        .ok (er, prev', mm') ∧ mm'.WellFormed ∧ (∀ k, mm'.drift k = mm.drift k) ∧
      (er = 0 → e = (mm.vma x).vmEnd → mm.Stepped mm' prev' r) :=
    fun prev t ht ↦ ⟨_, _, _, rfl, h.withTick ht, fun _ ↦ rfl, fun hc ↦ absurd hc (by decide)⟩
  rw [mprotectFixup_of_lt hse, mprotectSplit]
  split
  · refine ⟨0, some x, mm, rfl, h, fun _ ↦ rfl, fun _ _ ↦ ⟨⟨l ++ [x], ?_, ?_, ?_⟩, fun _ _ ↦ rfl⟩⟩
    · rw [heq]
      simp
    · rw [getLast?_concat]
    · simp
  split
  · rename_i hs'
    split
    · obtain ⟨prev, mm', heq', hw, hdrift, hstep⟩ := h.mprotectFixupAll_spec heq hk
      exact ⟨0, prev, mm', congrArg Except.ok heq', hw, hdrift, fun _ _ ↦ hstep⟩
    · rename_i he'
      have he'' : e < (mm.vma x).vmEnd := lt_of_le_of_ne he he'
      rw [mprotectFixupStart.eq_def]
      split
      · rename_i p hp
        obtain ⟨hlast, hadj, hflags⟩ := of_mprotectCanMerge hp
        obtain ⟨l', rfl⟩ := getLast?_eq_some_iff.1 hlast
        rw [append_assoc] at heq
        obtain ⟨hw, hdrift⟩ := h.moveBoundary heq hadj (hs' ▸ hse) he'' hde
        exact ⟨0, _, _, rfl, hw, fun k ↦ hdrift k (by rw [hflags, hk]),
          fun _ hc ↦ absurd hc he''.ne⟩
      · rcases h.splitStart_spec heq E (hs' ▸ hse) he'' hde f with hsplit | ⟨mm', hsplit, hrecut⟩
        · rw [bind_ok hsplit]
          exact hfail _ _ (Nat.le_succ _)
        · rw [bind_ok hsplit]
          exact ⟨0, _, _, rfl, hrecut.wf, fun k ↦ hrecut.drift_eq (hk k),
            fun _ hc ↦ absurd hc he''.ne⟩
  · rename_i hs'
    have hs'' : (mm.vma x).vmStart < s := lt_of_le_of_ne hs (Ne.symm hs')
    split
    · rename_i he'
      rw [mprotectFixupEnd]
      rcases h.splitEnd_spec heq E hs'' (he' ▸ hse) hds f with hsplit | ⟨mm', hsplit, hrecut⟩
      · rw [bind_ok hsplit]
        exact hfail _ _ (Nat.le_succ _)
      · rw [bind_ok hsplit]
        exact ⟨0, _, _, rfl, hrecut.wf, fun k ↦ hrecut.drift_eq (hk k), fun _ _ ↦
          hrecut.stepped rfl⟩
    · rename_i he'
      have he'' : e < (mm.vma x).vmEnd := lt_of_le_of_ne he he'
      rw [mprotectFixupMiddle]
      rcases h.splitMiddle_spec heq E hs'' hse he'' hds hde f with
        ⟨t, hsplit, ht⟩ | ⟨mm', hsplit, hrecut⟩
      · rw [bind_ok hsplit]
        exact hfail _ _ ht
      · rw [bind_ok hsplit]
        exact ⟨0, _, _, rfl, hrecut.wf, fun k ↦ hrecut.drift_eq (hk k),
          fun _ hc ↦ absurd hc he''.ne⟩

/-! ## `sys_mprotect` -/

/-- Flags outside a mask are not affected by replacing the flags of the mask. -/
theorem and_of_subset {p f m g : Flags} (hp : p &&& ~~~m = 0) (hg : g &&& m = 0) :
    (p ||| (f &&& ~~~m)) &&& g = f &&& g := by
  ext i hi
  have hpi := congrArg (fun b : Flags ↦ b[i]) hp
  have hgi := congrArg (fun b : Flags ↦ b[i]) hg
  simp only [BitVec.getElem_and, BitVec.getElem_not, BitVec.getElem_or] at hpi hgi ⊢
  cases hm : m[i] <;> simp_all

theorem counts_newflags {prot : Flags} (hprot : prot &&& ~~~protMask = 0) (k : Account)
    (flags : Flags) : k.counts (prot ||| (flags &&& ~~~protMask)) = k.counts flags := by
  cases k with
  | total => rfl
  | locked =>
    change Flags.has _ _ = Flags.has _ _
    rw [Flags.has, Flags.has, and_of_subset hprot (by decide)]

theorem WellFormed.mprotectMergeNext_spec {prev : Option ℕ} (h : mm.WellFormed)
    (heq : mm.mmap = l ++ r) (hprev : prev = l.getLast?) (hl : l ≠ []) :
    mm.Returns Set.univ (mm.mprotectMergeNext prev r.head?) := by
  cases r with
  | nil => exact h.returns _ 0
  | cons n r =>
    obtain ⟨l', p, rfl⟩ := (eq_nil_or_concat l).resolve_left hl
    rw [concat_eq_append, getLast?_concat] at hprev
    rw [concat_eq_append, append_assoc] at heq
    rw [hprev, head?_cons, mprotectMergeNext]
    split
    · rename_i hc
      have habs := h.absorb heq hc.1
      refine ⟨0, _, rfl, habs.wf, fun k _ ↦ drift_of_counter k (habs.counter k) (habs.sum k ?_)⟩
      rw [(decide_eq_true_iff.1 hc.2.1).2]
    · exact h.returns _ 0

/-- **The loop of `sys_mprotect`**, from one area on to the next. -/
theorem WellFormed.mprotectLoop_spec (E : Env) {prot : Flags} (hprot : prot &&& ~~~protMask = 0)
    (hde : 4096 ∣ e) (fuel : ℕ) (h : mm.WellFormed) (heq : mm.mmap = l ++ x :: r)
    (hfuel : r.length < fuel) (hs : (mm.vma x).vmStart ≤ s) (hsx : s < (mm.vma x).vmEnd)
    (hse : s < e) (hds : 4096 ∣ s) :
    mm.Returns Set.univ (mprotectLoop E prot e fuel mm x l.getLast? s) := by
  induction fuel generalizing mm l x r s with
  | zero => cases hfuel
  | succ fuel ih =>
    have hk := fun k ↦ counts_newflags hprot k (mm.vma x).vmFlags
    obtain ⟨hdx, hnext⟩ := h.dvd_end_and_next heq
    rw [mprotectLoop]
    split
    · exact h.returns _ _
    split
    · rename_i he
      obtain ⟨er, prev, mm', hfix, hw, hdrift, -⟩ :=
        h.mprotectFixup_spec heq E hs hse he.le hds hde hk
      exact ⟨er, mm', bind_ok hfix _, hw, fun k _ ↦ hdrift k⟩
    rename_i he
    obtain ⟨er, prev, mm', hfix, hw, hdrift, hstep⟩ :=
      h.mprotectFixup_spec heq E hs hsx le_rfl hds hdx hk
    rw [bind_ok hfix]
    dsimp only
    split
    · exact (hw.returns _ er).of_drift hdrift
    rename_i her
    rw [not_not] at her
    obtain ⟨l', hlist, hprev, hne⟩ := (hstep her rfl).list
    rw [hnext]
    split
    · exact (hw.mprotectMergeNext_spec hlist hprev hne).of_drift hdrift
    rename_i hend
    cases r with
    | nil => exact (hw.returns _ _).of_drift hdrift
    | cons y r =>
      dsimp only [head?_cons]
      split
      · exact (hw.returns _ _).of_drift hdrift
      rename_i hy
      rw [not_not] at hy
      have hyne := hw.ordered.1 y (mem_of_list hlist)
      rw [hprev]
      exact (ih hw hlist (Nat.lt_of_succ_lt_succ hfuel) hy.le (hy ▸ hyne)
        (lt_of_le_of_ne (not_lt.1 he) hend) hdx).of_drift hdrift

/-- The end of the pages that a call is about, if it does not wrap. -/
theorem dvd_add32_pageAlign {start len : ℕ} (h : ¬ add32 start (pageAlign len) < start)
    (hds : 4096 ∣ start) : 4096 ∣ add32 start (pageAlign len) := by
  have hlt : pageAlign len < 4294967296 := by
    rw [pageAlign, add32]
    omega
  have hadd : add32 start (pageAlign len) = start + pageAlign len := by
    rw [add32] at h ⊢
    omega
  rw [hadd]
  exact dvd_add hds (dvd_pageAlign len)

/-- **`sys_mprotect` keeps the address space well-formed and the counters right.**  It never
faults. -/
theorem WellFormed.sysMprotect_spec (h : mm.WellFormed) (E : Env) (start len : ℕ) (prot : Flags) :
    mm.Returns Set.univ (mm.sysMprotect E start len prot) := by
  rw [sysMprotect]
  split
  · exact h.returns _ _
  rename_i hstart
  rw [not_not] at hstart
  dsimp only
  split
  · exact h.returns _ _
  rename_i hend
  split
  · exact h.returns _ _
  rename_i hprot
  rw [not_not] at hprot
  split
  · exact h.returns _ _
  rename_i hne
  have hds : 4096 ∣ start := Nat.dvd_of_mod_eq_zero hstart
  obtain ⟨l, r, hc⟩ := exists_cut h.ordered start
  cases r with
  | nil =>
    rw [bind_ok (h.toLinked.findVmaPrev_nil hc)]
    exact h.returns _ _
  | cons x r =>
    rw [bind_ok (h.toLinked.findVmaPrev_cons h.ordered hc)]
    dsimp only
    split
    · exact h.returns _ _
    · rename_i hx
      refine WellFormed.mprotectLoop_spec E hprot (dvd_add32_pageAlign hend hds) _ h hc.eq ?_
        (not_lt.1 hx) (hc.lt x mem_cons_self) (lt_of_le_of_ne (not_lt.1 hend) (Ne.symm hne))
        hds
      rw [hc.eq, length_append, length_cons]
      omega

/-! ## `do_mlock` -/

theorem has_vmLocked (f : Flags) : f.has vmLocked = f.getLsbD 13 := by
  have hpow : vmLocked = BitVec.twoPow 32 13 := by decide
  rw [Flags.has, hpow, BitVec.and_twoPow]
  cases f.getLsbD 13 <;> decide

theorem has_lockFlags (on : Bool) (f : Flags) : (lockFlags on f).has vmLocked = on := by
  have hL : vmLocked.getLsbD 13 = true := by decide
  rw [has_vmLocked, lockFlags]
  cases on <;> simp [hL]

/-- The flags change only if they did not have the value. -/
theorem eq_lockFlags {on : Bool} {f : Flags} (h : f.has vmLocked = on) : lockFlags on f = f := by
  rw [has_vmLocked] at h
  have hL : ∀ i, vmLocked.getLsbD i = decide (i = 13) := by
    intro i
    have hpow : vmLocked = BitVec.twoPow 32 13 := by decide
    rw [hpow]
    simp [eq_comm]
  refine BitVec.eq_of_getLsbD_eq fun i hi ↦ ?_
  by_cases h13 : i = 13
  · subst h13
    cases on <;> simp only [lockFlags, if_true, Bool.false_eq_true, if_false, BitVec.getLsbD_and,
      BitVec.getLsbD_or, h, Bool.false_and, Bool.true_or]
  · cases on <;> simp only [lockFlags, if_true, Bool.false_eq_true, if_false, BitVec.getLsbD_and,
      BitVec.getLsbD_or, BitVec.getLsbD_not, hL, h13, hi, decide_true, decide_false, Bool.not_false,
      Bool.and_true, Bool.or_false]

/-- The counters after `mlock_fixup`. -/
theorem Recut.drift_of_lockFlags {on : Bool} {mm'' : Mm}
    (h : mm.Recut mm' l x r ids s e (lockFlags on (mm.vma x).vmFlags))
    (hne : lockFlags on (mm.vma x).vmFlags ≠ (mm.vma x).vmFlags)
    (hareas : mm''.areas = mm'.areas) (htotal : mm''.totalVm = mm'.totalVm)
    (hlocked : mm''.lockedVm = if on then add32 mm'.lockedVm ((e - s) / 4096)
      else sub32 mm'.lockedVm ((e - s) / 4096)) (k : Account) : mm''.drift k = mm.drift k := by
  have hsum := h.sum k
  rw [drift, drift, hareas]
  cases k with
  | total =>
    have hc : Account.total.counter mm'' = Account.total.counter mm :=
      htotal.trans (h.counter .total)
    rw [hc, Nat.add_right_cancel hsum]
  | locked =>
    have hcm : mm'.lockedVm = mm.lockedVm := h.counter .locked
    have hold : Account.locked.counts (mm.vma x).vmFlags = !on := by
      have hno := mt eq_lockFlags hne
      change Flags.has _ _ = !on
      cases on <;> simpa using hno
    have hnew : Account.locked.counts (lockFlags on (mm.vma x).vmFlags) = on := has_lockFlags _ _
    rw [hold, hnew] at hsum
    change (mm''.lockedVm : ZMod 4294967296) - _ = mm.lockedVm - _
    rw [hlocked, hcm]
    cases on with
    | false =>
      simp only [Bool.not_false, if_true, Bool.false_eq_true, if_false, add_zero] at hsum ⊢
      rw [cast_sub32, ← hsum, Nat.cast_add]
      ring
    | true =>
      simp only [Bool.not_true, if_true, Bool.false_eq_true, if_false, add_zero] at hsum ⊢
      rw [cast_add32, hsum, Nat.cast_add]
      ring

theorem WellFormed.withLockedVm (h : mm.WellFormed) (n : ℕ) :
    WellFormed { mm with lockedVm := n } :=
  ⟨h.toLinked.congr rfl rfl h.cache le_rfl, h.count, h.area, h.sorted⟩

section Step

variable (h : mm.WellFormed) (heq : mm.mmap = l ++ x :: r) (E : Env)
  (hs : (mm.vma x).vmStart ≤ s) (hse : s < e) (he : e ≤ (mm.vma x).vmEnd) (hds : 4096 ∣ s)
  (hde : 4096 ∣ e)
include h heq hs hse he hds hde

/-- `mlock_fixup_all`, `mlock_fixup_start`, `mlock_fixup_end` and `mlock_fixup_middle`. -/
theorem WellFormed.mlockSplit_spec (f : Flags) :
    (∃ t, mm.mlockSplit E x s e f = .ok (false, { mm with tick := t }) ∧ mm.tick ≤ t) ∨
      ∃ mm' ids, mm.mlockSplit E x s e f = .ok (true, mm') ∧ mm.Recut mm' l x r ids s e f := by
  rw [mlockSplit]
  split
  · rename_i hs'
    split
    · rename_i he'
      exact Or.inr ⟨_, _, rfl, h.recut_all heq hs' he'⟩
    · rename_i he'
      rcases h.splitStart_spec heq E (hs' ▸ hse) (lt_of_le_of_ne he he') hde f with
        hsplit | ⟨mm', hsplit, hrecut⟩
      · exact Or.inl ⟨_, hsplit, Nat.le_succ _⟩
      · exact Or.inr ⟨mm', _, hsplit, hs' ▸ hrecut⟩
  · rename_i hs'
    have hs'' : (mm.vma x).vmStart < s := lt_of_le_of_ne hs (Ne.symm hs')
    split
    · rename_i he'
      rcases h.splitEnd_spec heq E hs'' (he' ▸ hse) hds f with hsplit | ⟨mm', hsplit, hrecut⟩
      · exact Or.inl ⟨_, bind_ok hsplit _, Nat.le_succ _⟩
      · exact Or.inr ⟨mm', _, bind_ok hsplit _, he' ▸ hrecut⟩
    · rename_i he'
      rcases h.splitMiddle_spec heq E hs'' hse (lt_of_le_of_ne he he') hds hde f with
        ⟨t, hsplit, ht⟩ | ⟨mm', hsplit, hrecut⟩
      · exact Or.inl ⟨t, bind_ok hsplit _, ht⟩
      · exact Or.inr ⟨mm', _, bind_ok hsplit _, hrecut⟩

/-- **One step of `do_mlock`.**  The areas after the current one stay on the list. -/
theorem WellFormed.mlockFixup_spec (on : Bool) :
    ∃ er mm', mm.mlockFixup E x s e (lockFlags on (mm.vma x).vmFlags) = .ok (er, mm') ∧
      mm'.WellFormed ∧ (∀ k, mm'.drift k = mm.drift k) ∧ ∃ l', mm'.mmap = l' ++ r := by
  have hlist : ∃ l', mm.mmap = l' ++ r := ⟨l ++ [x], by rw [heq]; simp⟩
  rw [mlockFixup]
  split
  · exact ⟨0, mm, rfl, h, fun _ ↦ rfl, hlist⟩
  rename_i hne
  rcases h.mlockSplit_spec heq E hs hse he hds hde (lockFlags on (mm.vma x).vmFlags) with
    ⟨t, hsplit, ht⟩ | ⟨mm₁, ids, hsplit, hrecut⟩
  · rw [bind_ok hsplit]
    exact ⟨_, _, rfl, h.withTick ht, fun _ ↦ rfl, hlist⟩
  have hlist₁ : ∃ l', mm₁.mmap = l' ++ r := ⟨l ++ ids, by rw [hrecut.list, append_assoc]⟩
  have hx := h.area _ (mem_map_of_mem (mem_of_list heq))
  have hsub : pages (sub32 e s) = (e - s) / 4096 := by
    have hle := he.trans hx.2.1
    rw [taskSize] at hle
    rw [sub32_of_le (by omega) hse.le, pages]
  rw [bind_ok hsplit]
  dsimp only
  rw [hsub, has_lockFlags]
  cases on with
  | false =>
    exact ⟨_, _, rfl, hrecut.wf.withLockedVm _, hrecut.drift_of_lockFlags hne rfl rfl rfl, hlist₁⟩
  | true =>
    obtain ⟨y, hy, hys, hye⟩ := hrecut.covers
    obtain ⟨c, hpresent, hw⟩ := hrecut.wf.makePagesPresent_eq hy hys hse hye
    rw [bind_ok hpresent]
    exact ⟨_, _, rfl, hw.withLockedVm _, hrecut.drift_of_lockFlags hne rfl rfl rfl, hlist₁⟩

end Step

/-- **The loop of `do_mlock`**, from one area on to the next. -/
theorem WellFormed.mlockLoop_spec (E : Env) (on : Bool) (hde : 4096 ∣ e) (fuel : ℕ)
    (h : mm.WellFormed) (heq : mm.mmap = l ++ x :: r) (hfuel : r.length < fuel)
    (hs : (mm.vma x).vmStart ≤ s) (hsx : s < (mm.vma x).vmEnd) (hse : s < e) (hds : 4096 ∣ s) :
    mm.Returns Set.univ (mlockLoop E on e fuel mm x s) := by
  induction fuel generalizing mm l x r s with
  | zero => cases hfuel
  | succ fuel ih =>
    obtain ⟨hdx, hnext⟩ := h.dvd_end_and_next heq
    rw [mlockLoop]
    split
    · rename_i he
      obtain ⟨er, mm', hfix, hw, hdrift, -⟩ := h.mlockFixup_spec heq E hs hse he hds hde on
      exact ⟨er, mm', hfix, hw, fun k _ ↦ hdrift k⟩
    rename_i he
    rw [not_le] at he
    obtain ⟨er, mm', hfix, hw, hdrift, l', hlist⟩ :=
      h.mlockFixup_spec heq E hs hsx le_rfl hds hdx on
    rw [hnext, bind_ok hfix]
    dsimp only
    split
    · exact (hw.returns _ er).of_drift hdrift
    cases r with
    | nil => exact (hw.returns _ _).of_drift hdrift
    | cons y r =>
      dsimp only [head?_cons]
      split
      · exact (hw.returns _ _).of_drift hdrift
      rename_i hy
      rw [not_not] at hy
      have hyne := hw.ordered.1 y (mem_of_list hlist)
      exact (ih hw hlist (Nat.lt_of_succ_lt_succ hfuel) hy.le (hy ▸ hyne) he hdx).of_drift hdrift

/-- **`do_mlock` keeps the address space well-formed and the counters right**, if it is given the
start of a page.  It never faults. -/
theorem WellFormed.doMlock_spec (h : mm.WellFormed) (E : Env) {start : ℕ} (hds : 4096 ∣ start)
    (len : ℕ) (on : Bool) :
    mm.Returns Set.univ (mm.doMlock E start len on) := by
  rw [doMlock]
  split
  · exact h.returns _ _
  dsimp only
  split
  · exact h.returns _ _
  rename_i hend
  split
  · exact h.returns _ _
  rename_i hne
  obtain ⟨l, r, hc⟩ := exists_cut h.ordered start
  obtain ⟨c, hfind, hcache⟩ := h.toLinked.findVma_eq h.ordered hc
  have hw := h.withCache hcache
  rw [hfind]
  cases r with
  | nil => exact ⟨_, _, rfl, hw, fun _ _ ↦ rfl⟩
  | cons x r =>
    dsimp only [head?_cons]
    split
    · exact ⟨_, _, rfl, hw, fun _ _ ↦ rfl⟩
    · rename_i hx
      refine WellFormed.mlockLoop_spec E on (dvd_add32_pageAlign hend hds) _ hw hc.eq ?_
        (not_lt.1 hx) (hc.lt x mem_cons_self) (lt_of_le_of_ne (not_lt.1 hend) (Ne.symm hne))
        hds
      rw [hc.eq, length_append, length_cons]
      omega

end Mm
end Linux24.Vm
