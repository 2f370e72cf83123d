import Linux24.Fs.Locks

/-!
# The loop of `posix_lock_file`

The loop goes through the locks of the caller, merging, replacing and deleting them, and keeps
pointers to those it has to cut when it is done.  What it can do to any list at all, sorted or not,
is `Frame`: locks go, and only the lock that has become the new one is different.  In particular
that lock covers nothing but the range that was asked for and what locks of the same type covered
before.
-/

set_option autoImplicit false

namespace Linux24.Locks

open List Function

/-! ## Offsets -/

theorem loff_eq {x : ℤ} (h : -1 ≤ x) (h' : x ≤ offsetMax) : loff x = x := by
  rw [offsetMax] at h'
  rw [loff]
  omega

/-- One more than the largest offset is a negative one. -/
theorem loff_max : loff (offsetMax + 1) < 0 := by decide

/-- The byte is in the range of the lock. -/
def FileLock.Covers (fl : FileLock) (b : ℤ) : Prop := fl.flStart ≤ b ∧ b ≤ fl.flEnd

instance (fl : FileLock) (b : ℤ) : Decidable (fl.Covers b) := inferInstanceAs (Decidable (_ ∧ _))

/-- The range of the lock is one of offsets; it may be empty. -/
structure FileLock.Bounded (fl : FileLock) : Prop where
  start_nonneg : 0 ≤ fl.flStart
  start_le : fl.flStart ≤ offsetMax
  end_ge : -1 ≤ fl.flEnd
  end_le : fl.flEnd ≤ offsetMax

/-! ## Before the loop -/

/-- The state in which the caller, whose structure is `c`, comes to the list `l`, of which it is
going to skip `base`. -/
structure Setup (s : State) (c : ℕ) (l base : List ℕ) : Prop where
  nodup : l.Nodup
  notMem : ∀ x ∈ l, x ≠ c ∧ x ≠ c + 1 ∧ x ≠ c + 2
  bounded : ∀ x ∈ l, (s.lock x).Bounded
  type : ∀ x ∈ l, (s.lock x).flFlags = .posix → (s.lock x).flType ≠ .unlck
  subset : base ⊆ l
  posix : ∀ x ∈ l, x ∉ base → (s.lock x).flFlags = .posix
  flags : (s.lock c).flFlags = .posix
  start_nonneg : 0 ≤ (s.lock c).flStart
  start_le_end : (s.lock c).flStart ≤ (s.lock c).flEnd
  end_le : (s.lock c).flEnd ≤ offsetMax

/-- The structure is the same but for its range and type. -/
def FileLock.Like (fl fl' : FileLock) : Prop :=
  fl' = { fl with flStart := fl'.flStart, flEnd := fl'.flEnd, flType := fl'.flType }

theorem FileLock.Like.refl (fl : FileLock) : fl.Like fl := rfl

theorem FileLock.Like.trans {a b c : FileLock} (h : a.Like b) (h' : b.Like c) : a.Like c := by
  rw [Like] at *
  rw [h'] at *
  rw [h]

theorem FileLock.Like.who {a b : FileLock} (h : a.Like b) : b.who = a.who := by
  rw [h]
  rfl

/-! ## During the loop -/

/-- The caller `c` has come to `rest` and has left `pre` behind, from the list `l` in the state `s`,
of which it has skipped `base`. -/
structure Frame (s : State) (c : ℕ) (l base pre rest : List ℕ) (w : Work) : Prop where
  iFlock : w.st.iFlock = s.iFlock
  tick : w.st.tick = s.tick
  like : ∀ x, (s.lock x).Like (w.st.lock x)
  far : ∀ x, x ≠ c → x ∉ l → w.st.lock x = s.lock x
  same : ∀ x ∈ pre ++ rest, x ≠ w.caller → w.st.lock x = s.lock x
  sub : (pre ++ rest).Sublist l
  front : base <+: pre
  /-- The locks of others stay. -/
  others : ∀ x ∈ l, (s.lock x).who ≠ (s.lock c).who → x ∈ pre ++ rest
  blocked : w.st.blockedList.Sublist s.blockedList
  /-- A lock that is gone has nobody waiting for it. -/
  gone : ∀ x ∈ l, x ∈ pre ++ rest ∨ ∀ e ∈ w.st.blockedList, e.2 ≠ x
  caller : w.caller = c ∨ w.caller ∈ pre ∧ w.caller ∉ base
  who : (s.lock w.caller).who = (s.lock c).who
  type : (w.st.lock w.caller).flType = (s.lock c).flType
  start_nonneg : 0 ≤ (w.st.lock w.caller).flStart
  start_le : (w.st.lock w.caller).flStart ≤ (s.lock c).flStart
  end_ge : (s.lock c).flEnd ≤ (w.st.lock w.caller).flEnd
  end_le : (w.st.lock w.caller).flEnd ≤ offsetMax
  /-- The new lock covers what was asked for and what was covered before. -/
  covers : ∀ b, (w.st.lock w.caller).Covers b → (s.lock c).Covers b ∨ ∃ y ∈ l,
    (s.lock y).who = (s.lock c).who ∧ (s.lock y).flType = (s.lock c).flType ∧ (s.lock y).Covers b
  added : w.added = true → (s.lock c).flType ≠ .unlck → w.caller ∈ pre
  notAdded : w.added = false → w.caller = c
  unlck : (s.lock c).flType = .unlck → w.caller = c

/-- The pointer to the lock on the left. -/
def LeftOk (s : State) (c : ℕ) (base pre : List ℕ) (w : Work) : Prop :=
  ∀ x, w.left = some x → (x ∈ pre ∧ x ∉ base) ∧ x ≠ w.caller ∧ (s.lock x).who = (s.lock c).who ∧
    (w.st.lock w.caller).flStart ≤ (s.lock x).flEnd

/-- The loop has been left with a pointer to the lock on the right. -/
structure RightOk (s : State) (c : ℕ) (rest : List ℕ) (w : Work) (r : ℕ) : Prop where
  head : ∃ tail, rest = r :: tail
  who : (s.lock r).who = (s.lock c).who
  start_le : (s.lock r).flStart ≤ (w.st.lock w.caller).flEnd
  lt_end : (w.st.lock w.caller).flEnd < (s.lock r).flEnd

/-- What `Frame` says of the new lock. -/
structure Ranged (s : State) (c : ℕ) (l : List ℕ) (new : FileLock) : Prop where
  type : new.flType = (s.lock c).flType
  start_nonneg : 0 ≤ new.flStart
  start_le : new.flStart ≤ (s.lock c).flStart
  end_ge : (s.lock c).flEnd ≤ new.flEnd
  end_le : new.flEnd ≤ offsetMax
  covers : ∀ b, new.Covers b → (s.lock c).Covers b ∨ ∃ y ∈ l,
    (s.lock y).who = (s.lock c).who ∧ (s.lock y).flType = (s.lock c).flType ∧ (s.lock y).Covers b

section

variable {s : State} {c fl : ℕ} {l base pre rest : List ℕ} {w : Work}

theorem Setup.frame (h : Setup s c l pre) (hl : l = pre ++ rest) :
    Frame s c l pre pre rest
      { st := s, caller := c, left := none, right := none, added := false } where
  iFlock := rfl
  tick := rfl
  like _ := rfl
  far _ _ _ := rfl
  same _ _ _ := rfl
  sub := hl ▸ List.Sublist.refl _
  front := prefix_rfl
  others _ hx _ := hl ▸ hx
  blocked := List.Sublist.refl _
  gone _ hx := Or.inl (hl ▸ hx)
  caller := Or.inl rfl
  who := rfl
  type := rfl
  start_nonneg := h.start_nonneg
  start_le := le_rfl
  end_ge := le_rfl
  end_le := h.end_le
  covers _ hb := Or.inl hb
  added := by simp
  notAdded _ := rfl
  unlck _ := rfl

theorem Frame.shift (h : Frame s c l base pre (fl :: rest) w) :
    Frame s c l base (pre ++ [fl]) rest w := by
  have happ : pre ++ [fl] ++ rest = pre ++ fl :: rest := by simp
  exact { h with
    same := happ ▸ h.same
    sub := happ ▸ h.sub
    front := h.front.trans (prefix_append _ _)
    others := happ ▸ h.others
    gone := happ ▸ h.gone
    caller := h.caller.imp_right fun hc ↦ ⟨mem_append_left _ hc.1, hc.2⟩
    added := fun ha ht ↦ mem_append_left _ (h.added ha ht) }

theorem Frame.head_ne (hs : Setup s c l base) (h : Frame s c l base pre (fl :: rest) w) :
    fl ∈ l ∧ fl ≠ w.caller ∧ fl ∉ pre ++ rest ∧ w.st.lock fl = s.lock fl := by
  have hmem : fl ∈ l := h.sub.subset (by simp)
  have hnodup := hs.nodup.sublist h.sub
  have hnot : fl ∉ pre ++ rest := (nodup_cons.1 (perm_middle.nodup_iff.1 hnodup)).1
  have hne : fl ≠ w.caller := by
    intro heq
    rcases h.caller with hc | hc
    · exact (hs.notMem fl hmem).1 (heq.trans hc)
    · exact hnot (mem_append_left _ (heq ▸ hc.1))
  exact ⟨hmem, hne, hnot, h.same fl (by simp) hne⟩

theorem Frame.drop (h : Frame s c l base pre (fl :: rest) w)
    (hwho : (s.lock fl).who = (s.lock c).who) :
    Frame s c l base pre rest (w.drop fl) := by
  have hsub : (pre ++ rest).Sublist (pre ++ fl :: rest) :=
    Sublist.append_left (sublist_cons_self fl rest) pre
  refine { h with
    same := fun x hx ↦ h.same x (hsub.subset hx)
    sub := hsub.trans h.sub
    others := fun x hx hne ↦ ?_
    blocked := filter_sublist.trans h.blocked
    gone := fun x hx ↦ ?_ }
  · have hxfl : x ≠ fl := by
      rintro rfl
      exact hne hwho
    simpa [hxfl] using h.others x hx hne
  rcases h.gone x hx with hmem | hno
  · rcases eq_or_ne x fl with rfl | hne
    · right
      intro e he
      simpa using of_mem_filter he
    · left
      simpa [hne] using hmem
  · exact Or.inr fun e he ↦ hno e (mem_of_mem_filter he)

/-! ### Merging -/

theorem merge_of_ne {x : ℕ} (h : x ≠ fl) (h' : x ≠ w.caller) :
    (w.merge fl).st.lock x = w.st.lock x := by
  simp [Work.merge, State.setLock, h, h']

theorem merge_caller (w : Work) (fl : ℕ) : (w.merge fl).st.lock w.caller = { w.st.lock w.caller with
    flStart := min (w.st.lock w.caller).flStart (w.st.lock fl).flStart
    flEnd := max (w.st.lock w.caller).flEnd (w.st.lock fl).flEnd } := by
  simp only [Work.merge, State.setLock, update_self]
  congr 1 <;> split_ifs <;> omega

theorem merge_fl (hne : fl ≠ w.caller) : (w.merge fl).st.lock fl = { w.st.lock fl with
    flStart := min (w.st.lock w.caller).flStart (w.st.lock fl).flStart
    flEnd := max (w.st.lock w.caller).flEnd (w.st.lock fl).flEnd } := by
  simp only [Work.merge, State.setLock, update_of_ne hne, update_self]
  congr 1 <;> split_ifs <;> omega

/-- Two ranges that overlap or are next to each other. -/
theorem covers_of_merge {a z a' z' b : ℤ} (h : a - 1 ≤ z') (h' : a' ≤ z + 1)
    (hb : min a a' ≤ b ∧ b ≤ max z z') : (a ≤ b ∧ b ≤ z) ∨ (a' ≤ b ∧ b ≤ z') := by
  omega

section Round

variable (hs : Setup s c l base) (h : Frame s c l base pre (fl :: rest) w)
include hs h

theorem Frame.merge_like (x : ℕ) :
    (s.lock x).Like ((w.merge fl).st.lock x) := by
  obtain ⟨-, hne, -, -⟩ := h.head_ne hs
  refine (h.like x).trans ?_
  by_cases hx : x = fl
  · subst hx
    rw [merge_fl hne]
    rfl
  by_cases hx' : x = w.caller
  · rw [hx', merge_caller w fl]
    rfl
  · rw [merge_of_ne hx hx']
    exact .refl _

/-- The lock `fl` becomes the new one. -/
theorem Frame.become {st : State} (hwho : (s.lock fl).who = (s.lock c).who)
    (hunlck : (s.lock c).flType ≠ .unlck) (hadded : w.added = false)
    (hiFlock : st.iFlock = w.st.iFlock) (htick : st.tick = w.st.tick)
    (hlike : ∀ x, (s.lock x).Like (st.lock x))
    (hkeep : ∀ x, x ≠ fl → x ≠ w.caller → st.lock x = w.st.lock x)
    (hblocked : st.blockedList.Sublist w.st.blockedList) (hnew : Ranged s c l (st.lock fl)) :
    Frame s c l base (pre ++ [fl]) rest { w with st := st, caller := fl, added := true } := by
  obtain ⟨hmem, -, hnot, -⟩ := h.head_ne hs
  have hc := h.notAdded hadded
  refine { hnew, h.shift with
    iFlock := hiFlock.trans h.iFlock
    tick := htick.trans h.tick
    like := hlike
    far := fun x hx hx' ↦ ?_
    same := fun x hx hx' ↦ ?_
    blocked := hblocked.trans h.blocked
    gone := fun x hx ↦ (h.shift.gone x hx).imp_right fun hno e he ↦ hno e (hblocked.subset he)
    caller := Or.inr ⟨by simp, fun hb ↦ hnot (mem_append_left _ (h.front.subset hb))⟩
    who := hwho
    added := fun _ _ ↦ by simp
    notAdded := by simp
    unlck := fun hun ↦ absurd hun hunlck }
  · exact (hkeep x (ne_of_mem_of_not_mem hmem hx').symm (hc ▸ hx)).trans (h.far x hx hx')
  · have hxc : x ≠ w.caller := by
      rw [hc]
      exact (hs.notMem x (h.shift.sub.subset hx)).1
    exact (hkeep x hx' hxc).trans (h.shift.same x hx hxc)

section Merging

variable (hwho : (s.lock fl).who = (s.lock c).who)
    (htype : (w.st.lock w.caller).flType = (w.st.lock fl).flType)
    (hlo : (w.st.lock w.caller).flStart - 1 ≤ (w.st.lock fl).flEnd)
    (hhi : (w.st.lock fl).flStart ≤ (w.st.lock w.caller).flEnd + 1)
include hwho htype hlo hhi

/-- The locks are merged: where they are, and what they cover. -/
theorem Frame.merge_ranged {new : FileLock} (hnew : new.flType = (s.lock c).flType) :
    Ranged s c l { new with
      flStart := min (w.st.lock w.caller).flStart (w.st.lock fl).flStart
      flEnd := max (w.st.lock w.caller).flEnd (w.st.lock fl).flEnd } := by
  obtain ⟨hmem, -, -, hfl⟩ := h.head_ne hs
  have hbound := hs.bounded fl hmem
  rw [hfl] at htype hlo hhi ⊢
  refine ⟨hnew, le_min h.start_nonneg hbound.start_nonneg, (min_le_left _ _).trans h.start_le,
    h.end_ge.trans (le_max_left _ _), max_le h.end_le hbound.end_le, fun b hb ↦ ?_⟩
  rcases covers_of_merge hlo hhi hb with hb | hb
  · exact h.covers b hb
  · exact Or.inr ⟨fl, hmem, hwho, by rw [← htype, h.type], hb⟩

theorem Frame.merge_delete : Frame s c l base pre rest ((w.merge fl).drop fl) := by
  obtain ⟨hmem, -, hnot, -⟩ := h.head_ne hs
  have hnew : Ranged s c l ((w.merge fl).st.lock w.caller) :=
    merge_caller w fl ▸ h.merge_ranged hs hwho htype hlo hhi h.type
  refine { hnew, h.drop hwho with
    like := h.merge_like hs
    far := fun x hx hx' ↦ ?_
    same := fun x hx hx' ↦ ?_ }
  · refine (merge_of_ne (ne_of_mem_of_not_mem hmem hx').symm fun heq ↦ ?_).trans (h.far x hx hx')
    rcases h.caller with hc | hc
    · exact hx (heq.trans hc)
    · exact hx' (h.sub.subset (mem_append_left _ (heq ▸ hc.1)))
  · have hkeep : (w.merge fl).st.lock x = w.st.lock x :=
      merge_of_ne (ne_of_mem_of_not_mem hx hnot) hx'
    refine hkeep.trans (h.same x ?_ hx')
    rcases mem_append.1 hx with hx | hx <;> simp [hx]

theorem Frame.merge_next (hadded : w.added = false) :
    Frame s c l base (pre ++ [fl]) rest { w.merge fl with caller := fl, added := true } := by
  obtain ⟨hmem, hne, hnot, hfl⟩ := h.head_ne hs
  have hnew := h.merge_ranged hs hwho htype hlo hhi (htype.symm.trans h.type)
  refine h.become hs hwho (fun hun ↦ ?_) hadded rfl rfl (h.merge_like hs)
    (fun x hx hx' ↦ merge_of_ne hx hx') (Sublist.refl _) (merge_fl hne ▸ hnew)
  rw [h.type, hfl, hun] at htype
  have hposix := hs.posix fl hmem fun hb ↦ hnot (mem_append_left _ (h.front.subset hb))
  exact hs.type fl hmem hposix htype.symm

end Merging

/-! ### Replacing -/

omit hs h in
theorem replace_of_ne {x : ℕ} (h : x ≠ fl) : (w.replace fl).st.lock x = w.st.lock x := by
  simp [Work.replace, State.setLock, State.locksWakeUpBlocks, h]

omit hs h in
theorem replace_fl (w : Work) (fl : ℕ) : (w.replace fl).st.lock fl = { w.st.lock fl with
    flStart := (w.st.lock w.caller).flStart
    flEnd := (w.st.lock w.caller).flEnd
    flType := (w.st.lock w.caller).flType } := by
  simp [Work.replace, State.setLock]

theorem Frame.replace_next
    (hwho : (s.lock fl).who = (s.lock c).who) (hunlck : (s.lock c).flType ≠ .unlck)
    (hadded : w.added = false) : Frame s c l base (pre ++ [fl]) rest (w.replace fl) := by
  have hnew : Ranged s c l ((w.replace fl).st.lock fl) := by
    rw [replace_fl]
    exact { h with }
  refine h.become hs hwho hunlck hadded rfl rfl (fun x ↦ (h.like x).trans ?_)
    (fun x hx _ ↦ replace_of_ne hx) filter_sublist hnew
  rcases eq_or_ne x fl with rfl | hx
  · exact (replace_fl w x).symm ▸ rfl
  · exact (replace_of_ne hx).symm ▸ .refl _

/-! ### One round -/

/-- How the round ends. -/
inductive RoundOk (s : State) (c fl : ℕ) (l base pre rest : List ℕ) : Round → Prop
  | next {w : Work} (h : Frame s c l base (pre ++ [fl]) rest w)
      (hl : LeftOk s c base (pre ++ [fl]) w)
      (hr : w.right = none) : RoundOk s c fl l base pre rest (.next w)
  | delete {w : Work} (h : Frame s c l base pre rest w) (hl : LeftOk s c base pre w)
      (hr : w.right = none) :
      RoundOk s c fl l base pre rest (.delete w)
  | stop {w : Work} (h : Frame s c l base pre (fl :: rest) w) (hl : LeftOk s c base pre w)
      (hr : w.right = none) : RoundOk s c fl l base pre rest (.stop w)
  /-- The lock goes on behind the new one. -/
  | right {w : Work} (h : Frame s c l base pre (fl :: rest) w) (hl : LeftOk s c base pre w)
      (hr : RightOk s c (fl :: rest) w fl) (heq : w.right = some fl) :
      RoundOk s c fl l base pre rest (.stop w)
  /-- The lock begins before the new one and goes on behind it. -/
  | both {w : Work} (h : Frame s c l base pre (fl :: rest) w)
      (hl : (w.st.lock w.caller).flStart ≤ (s.lock fl).flEnd)
      (hr : RightOk s c (fl :: rest) w fl) (heq : w.right = some fl) (heq' : w.left = some fl) :
      RoundOk s c fl l base pre rest (.stop w)

omit hs h in
/-- The pointer stays right when the new lock starts further to the left. -/
theorem LeftOk.mono {pre' : List ℕ} {w' : Work} (h : LeftOk s c base pre w) (hsub : pre ⊆ pre')
    (hleft : w'.left = w.left) (hcaller : w'.caller = w.caller ∨ w'.caller ∉ pre)
    (hstart : (w'.st.lock w'.caller).flStart ≤ (w.st.lock w.caller).flStart) :
    LeftOk s c base pre' w' := by
  intro x hx
  obtain ⟨⟨hpre, hbase⟩, hxc, hxwho, hend⟩ := h x (hleft ▸ hx)
  refine ⟨⟨hsub hpre, hbase⟩, ?_, hxwho, hstart.trans hend⟩
  rcases hcaller with heq | hnot
  · rwa [heq]
  · exact ne_of_mem_of_not_mem hpre hnot

/-- If the range ends with the last byte, one more is negative. -/
theorem Frame.start_le_of_loff
    (hhi : (w.st.lock fl).flStart ≤ loff ((w.st.lock w.caller).flEnd + 1)) :
    (w.st.lock fl).flStart ≤ (w.st.lock w.caller).flEnd + 1 := by
  obtain ⟨hmem, -, -, hfl⟩ := h.head_ne hs
  rcases h.end_le.eq_or_lt with heq | hlt
  · rw [heq, hfl] at hhi
    exact absurd (hhi.trans_lt loff_max) (not_lt.2 (hs.bounded fl hmem).start_nonneg)
  · have hge := h.end_ge
    have hcle := hs.start_le_end
    have hc0 := hs.start_nonneg
    rwa [loff_eq (by omega) (by omega)] at hhi

omit hs h in
/-- The flag and the pointers may change, but a lock that has been added stays so. -/
theorem Frame.mark (h : Frame s c l base pre rest w) (left right : Option ℕ) :
    Frame s c l base pre rest { w with
      added := if (s.lock c).flType = .unlck then true else w.added
      left := left
      right := right } := by
  refine { h with added := fun ha ht ↦ ?_, notAdded := fun ha ↦ ?_ }
  · rw [if_neg ht] at ha
    exact h.added ha ht
  · by_cases ht : (s.lock c).flType = .unlck
    · rw [if_pos ht] at ha
      simp at ha
    · rw [if_neg ht] at ha
      exact h.notAdded ha

theorem Frame.roundSame (hleft : LeftOk s c base pre w) (hright : w.right = none)
    (hwho : (s.lock fl).who = (s.lock c).who)
    (htype : (w.st.lock w.caller).flType = (w.st.lock fl).flType) :
    RoundOk s c fl l base pre rest (w.roundSame fl) := by
  obtain ⟨hmem, hne, hnot, -⟩ := h.head_ne hs
  have hle : (w.st.lock w.caller).flStart ≤ offsetMax :=
    h.start_le.trans (hs.start_le_end.trans hs.end_le)
  have hstart := h.start_nonneg
  rw [Work.roundSame]
  rw [loff_eq (by omega) (by omega)]
  have hsub : pre ⊆ pre ++ [fl] := subset_append_left _ _
  split
  · exact .next h.shift (hleft.mono hsub rfl (Or.inl rfl) le_rfl) hright
  split
  · exact .stop h hleft hright
  rename_i hlo hhi
  rw [not_lt] at hlo hhi
  have hhi' := h.start_le_of_loff hs hhi
  have hmin : min (w.st.lock w.caller).flStart (w.st.lock fl).flStart ≤
      (w.st.lock w.caller).flStart := min_le_left _ _
  split
  · refine .delete (h.merge_delete hs hwho htype hlo hhi') ?_ hright
    refine hleft.mono (Subset.refl _) rfl (Or.inl rfl) ?_
    exact (congrArg FileLock.flStart (merge_caller w fl)).trans_le hmin
  · rename_i hadded
    refine .next (h.merge_next hs hwho htype hlo hhi' (by simpa using hadded)) ?_ hright
    refine hleft.mono hsub rfl (Or.inr fun hpre ↦ hnot (mem_append_left _ hpre)) ?_
    exact (congrArg FileLock.flStart (merge_fl hne)).trans_le hmin

theorem Frame.roundOther (hleft : LeftOk s c base pre w) (hright : w.right = none)
    (hwho : (s.lock fl).who = (s.lock c).who) :
    RoundOk s c fl l base pre rest (w.roundOther fl) := by
  obtain ⟨-, hne, hnot, hfl⟩ := h.head_ne hs
  have hsub : pre ⊆ pre ++ [fl] := subset_append_left _ _
  rw [Work.roundOther]
  split
  · exact .next h.shift (hleft.mono hsub rfl (Or.inl rfl) le_rfl) hright
  split
  · exact .stop h hleft hright
  rename_i hend hstart
  rw [not_lt, hfl] at hend hstart
  rw [hfl, h.type]
  -- the two flags that are set before the cases are told apart
  set w' : Work := { w with
    added := if (s.lock c).flType = .unlck then true else w.added
    left := if (s.lock fl).flStart < (w.st.lock w.caller).flStart then some fl else w.left }
    with hw'
  have h' : Frame s c l base pre (fl :: rest) w' := h.mark _ w.right
  have hr' : w'.right = none := hright
  split
  · rename_i hlt
    have hok : RightOk s c (fl :: rest) { w' with right := some fl } fl :=
      ⟨⟨rest, rfl⟩, hwho, hstart, hlt⟩
    by_cases hl : (s.lock fl).flStart < (w.st.lock w.caller).flStart
    · exact .both { h' with } hend hok rfl (if_pos hl)
    · refine .right { h' with } (fun x hx ↦ hleft x ?_) hok rfl
      simpa [hw', hl] using hx
  split
  · rename_i hge
    have hw'left : w'.left = w.left := if_neg (not_lt.2 hge)
    have hl' : LeftOk s c base pre w' := fun x hx ↦ hleft x (hw'left ▸ hx)
    by_cases hadded : w'.added = true
    · rw [if_pos hadded]
      exact .delete (h'.drop hwho) hl' hr'
    · have hunlck : (s.lock c).flType ≠ .unlck := fun ht ↦ hadded (if_pos ht)
      have hnext := h'.replace_next hs hwho hunlck (Bool.eq_false_iff.2 hadded)
      rw [if_neg hadded]
      refine .next hnext (hl'.mono hsub rfl (Or.inr fun hpre ↦ ?_) ?_) hr'
      · exact hnot (mem_append_left _ hpre)
      · exact (congrArg FileLock.flStart (replace_fl w' fl)).le
  · rename_i hlt
    rw [not_le] at hlt
    refine .next h'.shift (fun x hx ↦ ?_) hr'
    have hx' : fl = x := by simpa [hw', hlt] using hx
    subst hx'
    exact ⟨⟨by simp, fun hb ↦ hnot (mem_append_left _ (h.front.subset hb))⟩, hne, hwho, hend⟩

/-- **One round of the loop.** -/
theorem Frame.round (hleft : LeftOk s c base pre w) (hright : w.right = none)
    (hwho : (s.lock fl).who = (s.lock c).who) : RoundOk s c fl l base pre rest (w.round fl) := by
  rw [Work.round]
  split
  · rename_i htype
    exact h.roundSame hs hleft hright hwho htype
  · exact h.roundOther hs hleft hright hwho

end Round

/-! ### The whole loop -/

/-- Where the loop ends. -/
inductive LoopOk (s : State) (c : ℕ) (l base pre rest : List ℕ) (w : Work) : Prop
  | plain (h : Frame s c l base pre rest w) (hl : LeftOk s c base pre w) (hr : w.right = none)
  | right {r : ℕ} (h : Frame s c l base pre rest w) (hl : LeftOk s c base pre w)
      (hr : RightOk s c rest w r)
      (heq : w.right = some r)
  | both {r : ℕ} (h : Frame s c l base pre rest w)
      (hl : (w.st.lock w.caller).flStart ≤ (s.lock r).flEnd) (hr : RightOk s c rest w r)
      (heq : w.right = some r) (heq' : w.left = some r)

theorem Frame.sameOwner (h : Frame s c l base pre (fl :: rest) w)
    (hown : (w.st.lock w.caller).locksSameOwner (w.st.lock fl) = true) :
    (s.lock fl).who = (s.lock c).who := by
  rw [FileLock.locksSameOwner, decide_eq_true_eq, (h.like _).who, (h.like _).who, h.who] at hown
  exact hown.symm

/-- **The loop**, on any list. -/
theorem Frame.scanLocks (hs : Setup s c l base) (h : Frame s c l base pre rest w)
    (hleft : LeftOk s c base pre w) (hright : w.right = none) : LoopOk s c l base
      (scanLocks rest pre w).1 (scanLocks rest pre w).2.1 (scanLocks rest pre w).2.2 := by
  induction rest generalizing pre w with
  | nil => exact .plain h hleft hright
  | cons fl rest ih =>
    rw [scanLocks]
    split
    · rename_i hown
      have hround := h.round hs hleft hright (h.sameOwner hown)
      generalize w.round fl = r at hround
      match hround with
      | .next h hl hr => exact ih h hl hr
      | .delete h hl hr => exact ih h hl hr
      | .stop h hl hr => exact .plain h hl hr
      | .right h hl hr heq => exact .right h hl hr heq
      | .both h hl hr heq heq' => exact .both h hl hr heq heq'
    · exact .plain h hleft hright

end

end Linux24.Locks
