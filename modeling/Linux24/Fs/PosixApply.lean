import Linux24.Fs.PosixLoop

/-!
# What `posix_lock_file` does to a list

`Applied` is everything about the end of `posix_lock_file` that holds for any list: which structures
are on the list then, that those of other owners are as they were, and that a lock covers nothing
that was not covered before by a lock of the same owner and type or was asked for.  It follows from
`Written`, which says exactly what is written after the loop, and from where the loop has ended.
-/

set_option autoImplicit false

namespace Linux24.Locks

open List Function

/-- The caller `c` has gone through the list `l`, has skipped `base`, and has left `l'`. -/
structure Applied (s s' : State) (c : ℕ) (l base l' : List ℕ) : Prop where
  iFlock : s'.iFlock = s.iFlock
  tick : s'.tick = s.tick
  far : ∀ x, x ∉ l → x ≠ c → x ≠ c + 1 → x ≠ c + 2 → s'.lock x = s.lock x
  nodup : l'.Nodup
  mem : ∀ x ∈ l', x ∈ l ∨ x = c + 1 ∨ x = c + 2
  front : base <+: l'
  skipped : ∀ x ∈ base, s'.lock x = s.lock x
  like : ∀ x ∈ l, (s.lock x).Like (s'.lock x)
  new : ∀ x ∈ l', x ∉ l → (s'.lock x).who = (s.lock c).who ∧ (s'.lock x).flFlags = .posix
  bounded : ∀ x ∈ l', (s'.lock x).Bounded
  type : ∀ x ∈ l', (s'.lock x).flFlags = .posix → (s'.lock x).flType ≠ .unlck
  covers : ∀ x ∈ l', ∀ b, (s'.lock x).Covers b →
    ((s'.lock x).who = (s.lock c).who ∧ (s'.lock x).flType = (s.lock c).flType ∧
      (s.lock c).Covers b) ∨
    ∃ y ∈ l, (s.lock y).who = (s'.lock x).who ∧ (s.lock y).flType = (s'.lock x).flType ∧
      (s.lock y).Covers b
  others : ∀ x ∈ l, (s.lock x).who ≠ (s.lock c).who → x ∈ l' ∧ s'.lock x = s.lock x
  blocked : s'.blockedList.Sublist s.blockedList
  gone : ∀ x ∈ l, x ∈ l' ∨ ∀ e ∈ s'.blockedList, e.2 ≠ x

section

variable {s : State} {c n : ℕ} {l base l' pre rest : List ℕ} {w : Work}

theorem Frame.bounded (h : Frame s c l base pre rest w) (hs : Setup s c l base) :
    (w.st.lock w.caller).Bounded := by
  have h0 := h.start_nonneg
  have h1 := h.start_le
  have h2 := hs.start_le_end
  have h3 := h.end_ge
  have h4 := h.end_le
  exact ⟨h0, by omega, by omega, h4⟩

/-- The loop, before anything is cut. -/
theorem Frame.applied (hs : Setup s c l base)
    (h : Frame s c l base pre rest w) : Applied s w.st c l base (pre ++ rest) := by
  have hcallerWho : (w.st.lock w.caller).who = (s.lock c).who := (h.like _).who.trans h.who
  have hnotCaller : ∀ x ∈ base, x ≠ w.caller := by
    rintro x hx rfl
    rcases h.caller with hc | hc
    · exact (hs.notMem _ (hs.subset hx)).1 hc
    · exact hc.2 hx
  refine {
    iFlock := h.iFlock
    tick := h.tick
    far := fun x hx hxc _ _ ↦ h.far x hxc hx
    nodup := hs.nodup.sublist h.sub
    mem := fun x hx ↦ Or.inl (h.sub.subset hx)
    front := h.front.trans (prefix_append _ _)
    skipped := fun x hx ↦
      h.same x (mem_append_left _ (h.front.subset hx)) (hnotCaller x hx)
    like := fun x _ ↦ h.like x
    new := fun x hx hxl ↦ absurd (h.sub.subset hx) hxl
    bounded := fun x hx ↦ ?_
    type := fun x hx ↦ ?_
    covers := fun x hx b hb ↦ ?_
    others := fun x hx hne ↦ ⟨h.others x hx hne, h.same x (h.others x hx hne) ?_⟩
    blocked := h.blocked
    gone := h.gone }
  · by_cases hxc : x = w.caller
    · rw [hxc]
      exact h.bounded hs
    · rw [h.same x hx hxc]
      exact hs.bounded x (h.sub.subset hx)
  · by_cases hxc : x = w.caller
    · rw [hxc, h.type]
      intro _ hun
      exact (hs.notMem x (h.sub.subset hx)).1 (hxc.trans (h.unlck hun))
    · rw [h.same x hx hxc]
      exact hs.type x (h.sub.subset hx)
  · by_cases hxc : x = w.caller
    · rw [hxc] at hb ⊢
      rw [hcallerWho, h.type]
      exact (h.covers b hb).imp_left fun hq ↦ ⟨rfl, rfl, hq⟩
    · rw [h.same x hx hxc] at hb ⊢
      exact Or.inr ⟨x, h.sub.subset hx, rfl, rfl, hb⟩
  · rintro rfl
    exact hne h.who

/-! ## What is written after the loop -/

variable {x r : ℕ} {mid : List ℕ}

/-- The new lock, if no old one has become it. -/
theorem insertNew_spec (w : Work) (n : ℕ) : ∃ st,
    w.insertNew n = (if w.added then [] else [n], { w with st := st }) ∧
      (∀ x, x ≠ n → st.lock x = w.st.lock x) ∧
      (w.added = false → st.lock n = (w.st.lock n).locksCopyLock (w.st.lock w.caller)) ∧
      st.iFlock = w.st.iFlock ∧ st.tick = w.st.tick ∧ st.blockedList = w.st.blockedList := by
  rw [Work.insertNew]
  split
  · rename_i hadd
    exact ⟨w.st, rfl, fun _ _ ↦ rfl, fun hno ↦ by simp [hadd] at hno, rfl, rfl, rfl⟩
  · exact ⟨_, rfl, fun x hx ↦ update_of_ne hx _ _, fun _ ↦ update_self _ _ _,
      rfl, rfl, rfl⟩

/-- The lock is broken in two, and the copy is what is on the left. -/
def Work.broken (w : Work) (newFl2 r : ℕ) : Work :=
  { w with st := w.st.setLock newFl2 ((w.st.lock newFl2).locksCopyLock (w.st.lock r)),
           left := some newFl2 }

theorem splitRight_of_ne (h : ∀ r, w.right = some r → w.left ≠ some r) :
    w.splitRight n mid = (mid, w) := by
  rw [Work.splitRight]
  split
  · rfl
  · rename_i r hr
    exact if_neg (h r hr)

theorem splitRight_of_eq {r : ℕ} (h : w.right = some r) (h' : w.left = some r) :
    w.splitRight n mid = (n :: mid, w.broken n r) := by
  rw [Work.splitRight]
  split
  · rename_i hnone
    simp [h] at hnone
  · rename_i r' hr'
    cases h.symm.trans hr'
    exact if_pos h'

theorem trimRight_lock {x : ℕ} (h : w.right ≠ some x) : w.trimRight.lock x = w.st.lock x := by
  rw [Work.trimRight]
  split
  · rfl
  · rename_i r hr
    have hxr : x ≠ r := by
      rintro rfl
      exact h hr
    exact update_of_ne hxr _ _

theorem trimRight_lock_self (h : w.right = some r) :
    w.trimRight.lock r = { w.st.lock r with flStart := loff ((w.st.lock w.caller).flEnd + 1) } := by
  rw [Work.trimRight]
  split
  · rename_i hnone
    simp [h] at hnone
  · rename_i r' hr'
    cases h.symm.trans hr'
    exact update_self _ _ _

theorem trimLeft_lock_of_ne (h : w.left ≠ some x) : w.trimLeft.lock x = w.st.lock x := by
  rw [Work.trimLeft]
  split
  · rfl
  · rename_i l hl
    have hxl : x ≠ l := by
      rintro rfl
      exact h hl
    exact update_of_ne hxl _ _

theorem trimLeft_lock_self (h : w.left = some x) :
    w.trimLeft.lock x = { w.st.lock x with flEnd := loff ((w.st.lock w.caller).flStart - 1) } := by
  rw [Work.trimLeft]
  split
  · rename_i hnone
    simp [h] at hnone
  · rename_i l hl
    cases h.symm.trans hl
    exact update_self _ _ _

theorem trim_lock (hcaller : w.right ≠ some w.caller)
    (hne : ∀ r, w.right = some r → w.left ≠ some r)
    (x : ℕ) : (Work.trimLeft { w with st := w.trimRight }).lock x = { w.st.lock x with
      flStart := if w.right = some x then loff ((w.st.lock w.caller).flEnd + 1)
        else (w.st.lock x).flStart
      flEnd := if w.left = some x then loff ((w.st.lock w.caller).flStart - 1)
        else (w.st.lock x).flEnd } := by
  by_cases hleft : w.left = some x
  · have hright : w.right ≠ some x := fun h ↦ hne x h hleft
    rw [trimLeft_lock_self (w := { w with st := w.trimRight }) hleft, if_pos hleft, if_neg hright]
    rw [trimRight_lock hright, trimRight_lock hcaller]
  · rw [trimLeft_lock_of_ne (w := { w with st := w.trimRight }) hleft, if_neg hleft]
    by_cases hright : w.right = some x
    · rw [trimRight_lock_self hright, if_pos hright]
    · rw [trimRight_lock hright, if_neg hright]

theorem trim_rest (w : Work) :
    (Work.trimLeft { w with st := w.trimRight }).iFlock = w.st.iFlock ∧
      (Work.trimLeft { w with st := w.trimRight }).tick = w.st.tick ∧
      (Work.trimLeft { w with st := w.trimRight }).blockedList.Sublist w.st.blockedList := by
  have hright : w.trimRight.iFlock = w.st.iFlock ∧ w.trimRight.tick = w.st.tick ∧
      w.trimRight.blockedList.Sublist w.st.blockedList := by
    rw [Work.trimRight]
    split
    · exact ⟨rfl, rfl, .refl _⟩
    · exact ⟨rfl, rfl, filter_sublist⟩
  rw [Work.trimLeft]
  split
  · exact hright
  · exact ⟨hright.1, hright.2.1, filter_sublist.trans hright.2.2⟩

/-- Everything that is written after the loop. -/
structure Written (w : Work) (n : ℕ) (pre rest l : List ℕ) (s : State) : Prop where
  iFlock : s.iFlock = w.st.iFlock
  tick : s.tick = w.st.tick
  blocked : s.blockedList.Sublist w.st.blockedList
  list : l = pre ++ ((if w.right ≠ none ∧ w.left = w.right then [n + 1] else []) ++
    if w.added = true ∨ (w.st.lock w.caller).flType = .unlck then [] else [n]) ++ rest
  old : ∀ x, x ≠ n → x ≠ n + 1 → s.lock x = { w.st.lock x with
    flStart := if w.right = some x then loff ((w.st.lock w.caller).flEnd + 1)
      else (w.st.lock x).flStart
    flEnd := if w.left = some x ∧ w.right ≠ some x then loff ((w.st.lock w.caller).flStart - 1)
      else (w.st.lock x).flEnd }
  new : w.added = false → (w.st.lock w.caller).flType ≠ .unlck →
    s.lock n = (w.st.lock n).locksCopyLock (w.st.lock w.caller)
  copy : ∀ r, w.right = some r → w.left = some r → s.lock (n + 1) =
    { (w.st.lock (n + 1)).locksCopyLock (w.st.lock r) with
      flEnd := loff ((w.st.lock w.caller).flStart - 1) }

theorem finish_written (pre rest : List ℕ) (hcaller : w.caller ≠ n ∧ w.caller ≠ n + 1)
    (hleft : ∀ x, w.left = some x → x ≠ n ∧ x ≠ n + 1)
    (hright : ∀ x, w.right = some x → x ≠ n ∧ x ≠ n + 1 ∧ x ≠ w.caller)
    (hunlck : (w.st.lock w.caller).flType = .unlck → w.added = false →
      w.left = none ∧ w.right = none) :
    Written w n pre rest (w.finish n (n + 1) pre rest).1 (w.finish n (n + 1) pre rest).2 := by
  rw [Work.finish]
  split
  · rename_i hno
    obtain ⟨hl, hr⟩ := hunlck hno.2 hno.1
    refine ⟨rfl, rfl, .refl _, ?_, fun x _ _ ↦ ?_, fun _ ht ↦ absurd hno.2 ht, fun r hr' ↦ ?_⟩
    · simp [hr, hno.2]
    · simp [hl, hr]
    · simp [hr] at hr'
  rename_i hno
  have hnew : (if w.added = true ∨ (w.st.lock w.caller).flType = .unlck then [] else [n]) =
      if w.added then [] else [n] := by
    cases hadd : w.added
    · have ht : (w.st.lock w.caller).flType ≠ .unlck := fun ht ↦ hno ⟨hadd, ht⟩
      simp [ht]
    · simp
  obtain ⟨st, hins, hlock, hself, hflock, htick, hblocked⟩ := insertNew_spec w n
  have hc : st.lock w.caller = w.st.lock w.caller := hlock _ hcaller.1
  rw [hins]
  dsimp only
  by_cases hsplit : ∃ r, w.right = some r ∧ w.left = some r
  · obtain ⟨r, hr, hl⟩ := hsplit
    have hrn := hright r hr
    rw [splitRight_of_eq (w := { w with st := st }) hr hl]
    set u := Work.broken { w with st := st } (n + 1) r
    have hulock : ∀ x, x ≠ n + 1 → u.st.lock x = st.lock x :=
      fun x hx ↦ update_of_ne hx _ _
    have huc : u.st.lock u.caller = w.st.lock w.caller := (hulock _ hcaller.2).trans hc
    have hur : u.right = some r := hr
    have hul : u.left = some (n + 1) := rfl
    have htrim : ∀ x, _ = _ := trim_lock
      (fun h ↦ hrn.2.2 (Option.some.inj (hur.symm.trans h)))
      (fun r' h h' ↦ hrn.2.1
        ((Option.some.inj (hur.symm.trans h)).trans (Option.some.inj (hul.symm.trans h')).symm))
    obtain ⟨hflock', htick', hblocked'⟩ := trim_rest u
    refine ⟨hflock'.trans hflock, htick'.trans htick, hblocked'.trans (hblocked ▸ .refl _), ?_,
      fun x hxn hxn' ↦ ?_, fun hadd ht ↦ ?_, fun r' hr' _ ↦ ?_⟩
    · have hif : w.right ≠ none ∧ w.left = w.right := ⟨by simp [hr], hl.trans hr.symm⟩
      rw [hnew, if_pos hif]
      rfl
    · rw [htrim x, huc, hulock x hxn', hlock x hxn, hur, hul, hr, hl]
      simp [hxn'.symm]
    · rw [htrim n, hulock n (by omega), hur, hul, hself hadd]
      simp [hrn.1]
    · cases hr.symm.trans hr'
      have hcopy : u.st.lock (n + 1) = (st.lock (n + 1)).locksCopyLock (st.lock r) :=
        update_self _ _ _
      rw [htrim (n + 1), huc, hur, hul, hcopy, hlock r hrn.1, hlock (n + 1) (by omega)]
      simp [hrn.2.1]
  · have hne : ∀ r, w.right = some r → w.left ≠ some r := fun r hr hl ↦ hsplit ⟨r, hr, hl⟩
    rw [splitRight_of_ne (w := { w with st := st }) hne]
    have htrim : ∀ x, _ = _ := trim_lock (w := { w with st := st })
      (fun h ↦ (hright _ h).2.2 rfl) hne
    obtain ⟨hflock', htick', hblocked'⟩ := trim_rest { w with st := st }
    refine ⟨hflock'.trans hflock, htick'.trans htick, hblocked'.trans (hblocked ▸ .refl _), ?_,
      fun x hxn hxn' ↦ ?_, fun hadd ht ↦ ?_, fun r hr hl ↦ absurd hl (hne r hr)⟩
    · have hif : ¬ (w.right ≠ none ∧ w.left = w.right) := by
        rintro ⟨hsome, heq⟩
        obtain ⟨r, hr⟩ := Option.ne_none_iff_exists'.1 hsome
        exact hne r hr (heq.trans hr)
      rw [hnew, if_neg hif]
      rfl
    · have hiff : w.left = some x ∧ w.right ≠ some x ↔ w.left = some x :=
        ⟨And.left, fun h ↦ ⟨h, fun h' ↦ hne x h' h⟩⟩
      rw [htrim x]
      simp only [hiff, hc, hlock x hxn]
    · rw [htrim n]
      rw [hself hadd, if_neg fun h ↦ (hright n h).1 rfl, if_neg fun h ↦ (hleft n h).1 rfl]

/-! ## What has become of the locks -/

theorem LoopOk.frame (h : LoopOk s c l base pre rest w) : Frame s c l base pre rest w := by
  match h with
  | .plain h _ _ => exact h
  | .right h _ _ _ => exact h
  | .both h _ _ _ _ => exact h

/-- The lock on the right, wherever the loop has ended. -/
theorem LoopOk.of_right (hs : Setup s c l base) (h : LoopOk s c l base pre rest w)
    (hx : w.right = some x) : (x ∈ pre ++ rest ∧ x ∉ base ∧ x ≠ w.caller) ∧
      (s.lock x).who = (s.lock c).who ∧ (s.lock x).flStart ≤ (w.st.lock w.caller).flEnd ∧
      (w.st.lock w.caller).flEnd < (s.lock x).flEnd := by
  have hf := h.frame
  have hok : RightOk s c rest w x := by
    cases h with
    | plain _ _ hr => simp [hr] at hx
    | right _ _ hr heq | both _ _ hr heq => exact Option.some.inj (heq.symm.trans hx) ▸ hr
  obtain ⟨tail, rfl⟩ := hok.head
  obtain ⟨-, hne, hnot, -⟩ := hf.head_ne hs
  exact ⟨⟨by simp, fun hb ↦ hnot (mem_append_left _ (hf.front.subset hb)), hne⟩, hok.who,
    hok.start_le, hok.lt_end⟩

theorem LoopOk.of_left (hs : Setup s c l base) (h : LoopOk s c l base pre rest w)
    (hx : w.left = some x) : (x ∈ pre ++ rest ∧ x ∉ base ∧ x ≠ w.caller) ∧
      (s.lock x).who = (s.lock c).who ∧ (w.st.lock w.caller).flStart ≤ (s.lock x).flEnd := by
  cases h with
  | plain _ hl _ =>
    obtain ⟨⟨hpre, hbase⟩, hne, hrest⟩ := hl x hx
    exact ⟨⟨mem_append_left _ hpre, hbase, hne⟩, hrest⟩
  | right _ hl _ _ =>
    obtain ⟨⟨hpre, hbase⟩, hne, hrest⟩ := hl x hx
    exact ⟨⟨mem_append_left _ hpre, hbase, hne⟩, hrest⟩
  | both hf hl hr heq heq' =>
    cases heq'.symm.trans hx
    have hright := (LoopOk.both hf hl hr heq heq').of_right hs heq
    exact ⟨hright.1, hright.2.1, hl⟩

theorem LoopOk.written (hs : Setup s c l base) (h : LoopOk s c l base pre rest w)
    (hunlck : (w.st.lock w.caller).flType = .unlck → w.added = false →
      w.left = none ∧ w.right = none) :
    Written w (c + 1) pre rest (w.finish (c + 1) (c + 2) pre rest).1
      (w.finish (c + 1) (c + 2) pre rest).2 := by
  have hnot : ∀ x ∈ pre ++ rest, x ≠ c + 1 ∧ x ≠ c + 2 := fun x hx ↦
    (hs.notMem x (h.frame.sub.subset hx)).2
  refine finish_written pre rest ?_ (fun x hx ↦ hnot x (h.of_left hs hx).1.1) (fun x hx ↦ ?_) hunlck
  · rcases h.frame.caller with hc | ⟨hc, -⟩
    · omega
    · exact hnot _ (mem_append_left _ hc)
  · obtain ⟨⟨hmem, -, hne⟩, -⟩ := h.of_right hs hx
    exact ⟨(hnot x hmem).1, (hnot x hmem).2, hne⟩

/-- A lock that the caller puts on the list. -/
structure Fresh (s : State) (c : ℕ) (l : List ℕ) (fl : FileLock) : Prop where
  who : fl.who = (s.lock c).who
  flags : fl.flFlags = .posix
  bounded : fl.Bounded
  type : fl.flType ≠ .unlck
  covers : ∀ b, fl.Covers b → (fl.flType = (s.lock c).flType ∧ (s.lock c).Covers b) ∨
    ∃ y ∈ l, (s.lock y).who = (s.lock c).who ∧ (s.lock y).flType = fl.flType ∧ (s.lock y).Covers b

/-- The new lock. -/
theorem Frame.fresh (hs : Setup s c l base) (h : Frame s c l base pre rest w) (new : FileLock)
    (hadd : w.added = false) (htype : (w.st.lock w.caller).flType ≠ .unlck) :
    Fresh s c l (new.locksCopyLock (w.st.lock w.caller)) := by
  have hb := h.bounded hs
  refine ⟨(h.like _).who.trans h.who, ?_, ⟨hb.start_nonneg, hb.start_le, hb.end_ge, hb.end_le⟩,
    htype, fun b hb ↦ ?_⟩
  · rw [h.like w.caller, h.notAdded hadd]
    exact hs.flags
  · show ((w.st.lock w.caller).flType = _ ∧ _) ∨ ∃ y ∈ l, _ ∧ _ = (w.st.lock w.caller).flType ∧ _
    rw [h.type]
    exact (h.covers b hb).imp_left fun hq ↦ ⟨rfl, hq⟩

/-- The copy of a lock that is broken in two. -/
theorem LoopOk.fresh_copy (hs : Setup s c l base) (h : LoopOk s c l base pre rest w)
    (new : FileLock) (hx : w.left = some x) :
    Fresh s c l { new.locksCopyLock (w.st.lock x) with
      flEnd := loff ((w.st.lock w.caller).flStart - 1) } := by
  obtain ⟨⟨hmem, hbase, hne⟩, hwho, hend⟩ := h.of_left hs hx
  have hxl := h.frame.sub.subset hmem
  have hb := hs.bounded x hxl
  have h0 := h.frame.start_nonneg
  have hmax := hend.trans hb.end_le
  have hflags := hs.posix x hxl hbase
  rw [h.frame.same x hmem hne, loff_eq (by omega) (by omega)]
  refine ⟨hwho, hflags, ⟨hb.start_nonneg, hb.start_le, by dsimp only; omega, by dsimp only; omega⟩,
    hs.type x hxl hflags, fun b hb ↦ Or.inr ⟨x, hxl, hwho, rfl, hb.1, ?_⟩⟩
  have hle : b ≤ (w.st.lock w.caller).flStart - 1 := hb.2
  omega

section

variable {s' : State} (hs : Setup s c l base) (h : LoopOk s c l base pre rest w)
  (hw : Written w (c + 1) pre rest l' s')
include hs h hw

/-- A lock that was there is as the loop has left it, or smaller. -/
theorem Written.cut (hx : x ∈ pre ++ rest) : (s'.lock x).Bounded ∧
    ∀ b, (s'.lock x).Covers b → (w.st.lock x).Covers b := by
  have hxl := hs.notMem x (h.frame.sub.subset hx)
  have hb := (h.frame.applied hs).bounded x hx
  rw [hw.old x hxl.2.1 hxl.2.2]
  by_cases hr : w.right = some x
  · obtain ⟨⟨-, -, hne⟩, -, hle, hlt⟩ := h.of_right hs hr
    have hge := h.frame.end_ge
    have h0 := hs.start_nonneg.trans hs.start_le_end
    rw [← h.frame.same x hx hne] at hle hlt
    have hmax := hb.end_le
    rw [if_pos hr, if_neg fun hl ↦ hl.2 hr, loff_eq (by omega) (by omega)]
    refine ⟨⟨by dsimp only; omega, by dsimp only; omega, hb.end_ge, hmax⟩, fun b hb ↦ ⟨?_, hb.2⟩⟩
    have hlo : (w.st.lock w.caller).flEnd + 1 ≤ b := hb.1
    omega
  rw [if_neg hr]
  by_cases hl : w.left = some x
  · obtain ⟨⟨-, -, hne⟩, -, hend⟩ := h.of_left hs hl
    have h0 := h.frame.start_nonneg
    rw [← h.frame.same x hx hne] at hend
    have hmax := hend.trans hb.end_le
    rw [if_pos ⟨hl, hr⟩, loff_eq (by omega) (by omega)]
    refine ⟨⟨hb.start_nonneg, hb.start_le, by dsimp only; omega, by dsimp only; omega⟩,
      fun b hb ↦ ⟨hb.1, ?_⟩⟩
    have hhi : b ≤ (w.st.lock w.caller).flStart - 1 := hb.2
    omega
  · rw [if_neg fun hc ↦ hl hc.1]
    exact ⟨hb, fun b hb ↦ hb⟩

theorem Written.mem (hx : x ∈ l') :
    x ∈ pre ++ rest ∨ (x = c + 1 ∨ x = c + 2) ∧ Fresh s c l (s'.lock x) := by
  rw [hw.list, append_assoc, mem_append, mem_append, mem_append] at hx
  rcases hx with hx | (hx | hx) | hx
  · exact Or.inl (mem_append_left _ hx)
  · split at hx
    · rename_i heq
      obtain ⟨r, hr⟩ := Option.ne_none_iff_exists'.1 heq.1
      obtain rfl := mem_singleton.1 hx
      rw [hw.copy r hr (heq.2.trans hr)]
      exact Or.inr ⟨Or.inr rfl, h.fresh_copy hs _ (heq.2.trans hr)⟩
    · cases hx
  · split at hx
    · cases hx
    · rename_i hno
      rw [not_or, Bool.not_eq_true] at hno
      obtain rfl := mem_singleton.1 hx
      rw [hw.new hno.1 hno.2]
      exact Or.inr ⟨Or.inl rfl, h.frame.fresh hs _ hno.1 hno.2⟩
  · exact Or.inl (mem_append_right _ hx)

theorem Written.nodup : l'.Nodup := by
  have hnot : ∀ x ∈ pre ++ rest, x ≠ c + 1 ∧ x ≠ c + 2 := fun x hx ↦
    (hs.notMem x (h.frame.sub.subset hx)).2
  have hperm : ∀ mid : List ℕ, (pre ++ mid ++ rest).Perm (mid ++ (pre ++ rest)) := fun mid ↦ by
    rw [← append_assoc]
    exact perm_append_comm.append_right rest
  rw [hw.list, (hperm _).nodup_iff, nodup_append]
  refine ⟨by split_ifs <;> simp, hs.nodup.sublist h.frame.sub, fun a ha b hb ↦ ?_⟩
  rintro rfl
  split_ifs at ha <;> simp_all

/-- What is not cut is as the loop has left it. -/
theorem Written.kept (hx : x ∉ [c + 1, c + 2])
    (hno : x ∉ l ∨ x ∈ base ∨ (s.lock x).who ≠ (s.lock c).who) : s'.lock x = w.st.lock x := by
  have hptr : ∀ {P : Prop}, (x ∈ pre ++ rest ∧ x ∉ base ∧ x ≠ w.caller) ∧
      (s.lock x).who = (s.lock c).who ∧ P → False := by
    rintro P ⟨⟨hmem, hbase, -⟩, hwho, -⟩
    rcases hno with hno | hno | hno
    · exact hno (h.frame.sub.subset hmem)
    · exact hbase hno
    · exact hno hwho
  rw [hw.old x (fun h1 ↦ hx (by simp [h1])) fun h2 ↦ hx (by simp [h2]),
    if_neg fun hr ↦ hptr (h.of_right hs hr), if_neg fun hl ↦ hptr (h.of_left hs hl.1)]

theorem Written.applied : Applied s s' c l base l' := by
  have happ := h.frame.applied hs
  have hnew : ∀ x ∈ l, x ∉ [c + 1, c + 2] := fun x hx ↦ by simpa using (hs.notMem x hx).2
  have hsub : ∀ x ∈ pre ++ rest, x ∈ l' := by
    intro x hx
    rw [hw.list]
    rcases mem_append.1 hx with hx | hx <;> simp [hx]
  have hlike : ∀ x ∈ l, (w.st.lock x).Like (s'.lock x) := fun x hx ↦ by
    rw [hw.old x (hs.notMem x hx).2.1 (hs.notMem x hx).2.2]
    rfl
  have htype : ∀ x ∈ l, (s'.lock x).flType = (w.st.lock x).flType := fun x hx ↦ by
    rw [hw.old x (hs.notMem x hx).2.1 (hs.notMem x hx).2.2]
  have hflags : ∀ x ∈ l, (s'.lock x).flFlags = (w.st.lock x).flFlags := fun x hx ↦ by
    rw [hlike x hx]
  refine {
    iFlock := hw.iFlock.trans happ.iFlock
    tick := hw.tick.trans happ.tick
    far := fun x hx hxc h1 h2 ↦
      (hw.kept hs h (by simp [h1, h2]) (Or.inl hx)).trans (happ.far x hx hxc h1 h2)
    nodup := hw.nodup hs h
    mem := fun x hx ↦ (hw.mem hs h hx).imp (fun hx ↦ h.frame.sub.subset hx) And.left
    front := ?_
    skipped := fun x hx ↦ (hw.kept hs h (hnew x (hs.subset hx)) (Or.inr (Or.inl hx))).trans
      (happ.skipped x hx)
    like := fun x hx ↦ (happ.like x hx).trans (hlike x hx)
    new := fun x hx hxl ↦ ?_
    bounded := fun x hx ↦ ?_
    type := fun x hx ↦ ?_
    covers := fun x hx b hb ↦ ?_
    others := fun x hx hne ↦ ?_
    blocked := hw.blocked.trans happ.blocked
    gone := fun x hx ↦ (happ.gone x hx).imp (hsub x) fun hno e he ↦
      hno e (hw.blocked.subset he) }
  · rw [hw.list, append_assoc]
    exact h.frame.front.trans (prefix_append _ _)
  · rcases hw.mem hs h hx with hx | ⟨-, hfresh⟩
    · exact absurd (h.frame.sub.subset hx) hxl
    · exact ⟨hfresh.who, hfresh.flags⟩
  · rcases hw.mem hs h hx with hx | ⟨-, hfresh⟩
    · exact (hw.cut hs h hx).1
    · exact hfresh.bounded
  · rcases hw.mem hs h hx with hx | ⟨-, hfresh⟩
    · have hxl := h.frame.sub.subset hx
      rw [htype x hxl, hflags x hxl]
      exact happ.type x hx
    · exact fun _ ↦ hfresh.type
  · rcases hw.mem hs h hx with hx | ⟨-, hfresh⟩
    · have hxl := h.frame.sub.subset hx
      rw [htype x hxl, (hlike x hxl).who]
      exact happ.covers x hx b ((hw.cut hs h hx).2 b hb)
    · rw [hfresh.who]
      exact (hfresh.covers b hb).imp_left fun hq ↦ ⟨rfl, hq⟩
  · obtain ⟨hx', heq⟩ := happ.others x hx hne
    exact ⟨hsub x hx', (hw.kept hs h (hnew x hx) (Or.inr (Or.inr hne))).trans heq⟩

end

/-- **After the loop.** -/
theorem LoopOk.finish (hs : Setup s c l base)
    (h : LoopOk s c l base pre rest w) : Applied s (w.finish (c + 1) (c + 2) pre rest).2 c l base
      (w.finish (c + 1) (c + 2) pre rest).1 := by
  by_cases hno : w.added = false ∧ (w.st.lock w.caller).flType = .unlck
  · rw [Work.finish, if_pos hno]
    exact h.frame.applied hs
  · exact (h.written hs fun ht hadd ↦ absurd ⟨hadd, ht⟩ hno).applied hs h

/-! ## All of it -/

/-- **`posix_lock_file` from where no lock is in the way**, on any list. -/
theorem applyLock_applied {inode : ℕ}
    (hs : Setup s c (s.iFlock inode) ((s.iFlock inode).takeWhile (s.skips c))) :
    ∃ s' l', s.applyLock inode c = { s' with iFlock := update s'.iFlock inode l' } ∧
      Applied s s' c (s.iFlock inode) ((s.iFlock inode).takeWhile (s.skips c)) l' := by
  have hlist : s.iFlock inode = (s.iFlock inode).takeWhile (s.skips c) ++
      (s.iFlock inode).dropWhile (s.skips c) := takeWhile_append_dropWhile.symm
  have hloop := (hs.frame hlist).scanLocks hs (by simp [LeftOk]) rfl
  exact ⟨_, _, rfl, hloop.finish hs⟩

end

end Linux24.Locks
