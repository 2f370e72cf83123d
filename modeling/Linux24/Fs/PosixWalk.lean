import Linux24.Fs.PosixApply
import Linux24.Lib.Segments

/-!
# The loop of `posix_lock_file` on a list in order

The locks of an owner are a table of labelled ranges: which bytes are locked, and how.  If they
stand together and the table is in order, the loop finds every lock that has to be merged with the
new one, replaced, deleted or cut.  `Walk` is where it has come to, and `Walked` where it ends: the
new lock has the range `lo` to `hi`, the locks that begin before it have been left behind, those
that end behind it are still to come, and the two that are cut are the ones that reach into it.

There is one condition, `Careful`.  A lock of the same type that begins behind the new one is not
merged if there is at least one byte in between, and the code compares it with `fl_end + 1` for
that.  This is negative if the range goes to the end of the file, and no lock is ever merged then.
-/

set_option autoImplicit false

namespace Linux24.Locks

open Segments List

/-! ## The table -/

/-- The range and the type. -/
def FileLock.seg (fl : FileLock) : Seg LockType := ⟨fl.flStart, fl.flEnd, fl.flType⟩

/-- The locks of the caller stand together, and are in order. -/
structure Row (s : State) (c : ℕ) (front own back : List ℕ) : Prop where
  setup : Setup s c (front ++ own ++ back) front
  mine : ∀ x ∈ own, (s.lock x).who = (s.lock c).who
  other : ∀ x ∈ front ++ back, (s.lock x).who ≠ (s.lock c).who
  canonical : Canonical (own.map fun x ↦ (s.lock x).seg)

/-- If the range goes to the end of the file, there is no lock of the same type to merge it with. -/
def Careful (s : State) (c : ℕ) (own : List ℕ) : Prop :=
  (s.lock c).flEnd = offsetMax → ∀ x ∈ own, (s.lock x).flType = (s.lock c).flType →
    (s.lock x).flEnd + 1 < (s.lock c).flStart

/-- The first byte of the new lock. -/
abbrev Work.lo (w : Work) : ℤ := (w.st.lock w.caller).flStart

/-- The last byte of the new lock. -/
abbrev Work.hi (w : Work) : ℤ := (w.st.lock w.caller).flEnd

/-- The locks that begin before the new one. -/
def beginBefore (s : State) (lo : ℤ) (l : List ℕ) : List ℕ :=
  l.filter fun x ↦ decide ((s.lock x).flStart < lo)

/-- The loop has gone through `past` and has `ahead` before it. -/
structure Walk (s : State) (c : ℕ) (front past ahead back pre : List ℕ) (w : Work) : Prop where
  frame : Frame s c (front ++ (past ++ ahead) ++ back) front pre (ahead ++ back) w
  pre_eq : pre = front ++ beginBefore s w.lo past ++ if w.caller = c then [] else [w.caller]
  left : ∀ x, w.left = some x ↔ x ∈ past ∧ (s.lock x).flStart < w.lo ∧ w.lo ≤ (s.lock x).flEnd
  right : w.right = none
  end_le : ∀ x ∈ past, (s.lock x).flEnd ≤ w.hi
  before : ∀ x ∈ past, (s.lock x).flType = (s.lock c).flType → (s.lock x).flStart < w.lo →
    (s.lock x).flEnd + 1 < w.lo
  lo_eq : w.lo = (s.lock c).flStart ∨ ∃ x ∈ past, (s.lock x).flType = (s.lock c).flType ∧
    (s.lock c).flStart ≤ (s.lock x).flEnd + 1
  hi_eq : w.hi = (s.lock c).flEnd ∨ ∃ x ∈ past, (s.lock x).flEnd = w.hi
  touch : w.caller ≠ c → ∃ x ∈ past, w.lo ≤ (s.lock x).flEnd + 1
  unlck : (s.lock c).flType = .unlck → w.added = false → w.left = none

/-- The loop has ended. -/
structure Walked (s : State) (c : ℕ) (front past ahead back pre : List ℕ) (w : Work) : Prop where
  frame : Frame s c (front ++ (past ++ ahead) ++ back) front pre (ahead ++ back) w
  pre_eq : pre = front ++ beginBefore s w.lo past ++ if w.caller = c then [] else [w.caller]
  left : ∀ x, w.left = some x ↔ x ∈ past ++ ahead ∧
    (s.lock x).flStart < w.lo ∧ w.lo ≤ (s.lock x).flEnd
  right : ∀ x, w.right = some x ↔ x ∈ past ++ ahead ∧
    (s.lock x).flStart ≤ w.hi ∧ w.hi < (s.lock x).flEnd
  end_le : ∀ x ∈ past, (s.lock x).flEnd ≤ w.hi
  lt_end : ∀ x ∈ ahead, w.hi < (s.lock x).flEnd
  before : ∀ x ∈ past ++ ahead, (s.lock x).flType = (s.lock c).flType → (s.lock x).flStart < w.lo →
    (s.lock x).flEnd + 1 < w.lo
  after : ∀ x ∈ past ++ ahead, (s.lock x).flType = (s.lock c).flType → w.hi < (s.lock x).flEnd →
    w.hi + 1 < (s.lock x).flStart
  /-- Only the first lock that is still to come can begin before the new one, and only if nothing
  has become the new one. -/
  split : beginBefore s w.lo ahead = [] ∨ ∃ r, beginBefore s w.lo ahead = [r] ∧ w.caller = c
  unlck : (s.lock c).flType = .unlck → w.added = false → w.left = none ∧ w.right = none

section

variable {s : State} {c fl : ℕ} {front past ahead back pre : List ℕ} {w : Work}

/-! ## The next lock -/

/-- What the order of the table says of the next lock. -/
structure Next (s : State) (past : List ℕ) (fl : ℕ) : Prop where
  nonempty : (s.lock fl).flStart ≤ (s.lock fl).flEnd
  past_nonempty : ∀ x ∈ past, (s.lock x).flStart ≤ (s.lock x).flEnd
  lt : ∀ x ∈ past, (s.lock x).flEnd < (s.lock fl).flStart
  gap : ∀ x ∈ past, (s.lock x).flType = (s.lock fl).flType →
    (s.lock x).flEnd + 1 < (s.lock fl).flStart

theorem Row.next (h : Row s c front (past ++ fl :: ahead) back) : Next s past fl := by
  have hcan := h.canonical
  rw [map_append] at hcan
  have hord := (pairwise_append.1 hcan.ordered).2.2
  have hone : ∀ x ∈ past ++ fl :: ahead, (s.lock x).flStart ≤ (s.lock x).flEnd :=
    fun x hx ↦ h.canonical.nonempty _ (mem_map_of_mem hx)
  have hbefore : ∀ x ∈ past, Before (s.lock x).seg (s.lock fl).seg :=
    fun x hx ↦ hord _ (mem_map_of_mem hx) _ mem_cons_self
  exact ⟨hone fl (by simp), fun x hx ↦ hone x (mem_append_left _ hx), fun x hx ↦ (hbefore x hx).1,
    fun x hx ↦ (hbefore x hx).2⟩

theorem beginBefore_append (lo : ℤ) (l r : List ℕ) :
    beginBefore s lo (l ++ r) = beginBefore s lo l ++ beginBefore s lo r :=
  filter_append _ _

theorem beginBefore_singleton_of_lt {lo : ℤ} (h : (s.lock fl).flStart < lo) :
    beginBefore s lo [fl] = [fl] := by
  simp [beginBefore, h]

theorem beginBefore_singleton_of_le {lo : ℤ} (h : lo ≤ (s.lock fl).flStart) :
    beginBefore s lo [fl] = [] := by
  simp [beginBefore, h]

/-- Once a lock has become the new one, the next one ends behind the beginning of it. -/
theorem Walk.caller_eq (h : Walk s c front past (fl :: ahead) back pre w) (hn : Next s past fl)
    (hlt : (s.lock fl).flStart < w.lo) : w.caller = c := by
  by_contra hne
  obtain ⟨x, hx, htouch⟩ := h.touch hne
  have := hn.lt x hx
  omega

/-- The next lock counts as one of those the loop has gone through. -/
theorem Frame.regroup {pre' : List ℕ} {w' : Work}
    (h : Frame s c (front ++ (past ++ fl :: ahead) ++ back) front pre' (ahead ++ back) w') :
    Frame s c (front ++ (past ++ [fl] ++ ahead) ++ back) front pre' (ahead ++ back) w' := by
  rwa [append_assoc past, singleton_append]

variable {l : List ℕ}

/-- Locks without the property do not count. -/
theorem mem_append_and {C : Prop} {x : ℕ} {r : List ℕ} (hr : x ∈ r → ¬ C) :
    x ∈ l ++ r ∧ C ↔ x ∈ l ∧ C := by
  refine and_congr_left fun hC ↦ ?_
  rw [mem_append, or_iff_left fun hx ↦ hr hx hC]

theorem forall_mem_concat {C : ℕ → Prop} (h : ∀ x ∈ l, C x) (hfl : C fl) :
    ∀ x ∈ l ++ [fl], C x :=
  forall_mem_append.2 ⟨h, forall_mem_singleton.2 hfl⟩

theorem exists_mem_concat {C : ℕ → Prop} (h : ∃ x ∈ l, C x) :
    ∃ x ∈ l ++ [fl], C x :=
  h.imp fun _ hx ↦ hx.imp_left (mem_append_left _)

section Step

variable (h : Walk s c front past (fl :: ahead) back pre w)
include h

/-- Which lock is to be cut off at its end. -/
theorem Walk.left_next (hn : Next s past fl) (x : ℕ) :
    (if (s.lock fl).flStart < w.lo ∧ w.lo ≤ (s.lock fl).flEnd then some fl else w.left) = some x ↔
      x ∈ past ++ [fl] ∧ (s.lock x).flStart < w.lo ∧ w.lo ≤ (s.lock x).flEnd := by
  split_ifs with hcut
  · refine ⟨fun heq ↦ ?_, fun ⟨hx, _, hle⟩ ↦ ?_⟩
    · cases heq
      exact ⟨by simp, hcut⟩
    · rcases mem_append.1 hx with hx | hx
      · have := hn.lt x hx
        omega
      · rw [mem_singleton.1 hx]
  · refine (h.left x).trans (mem_append_and fun hx hcond ↦ hcut ?_).symm
    rwa [mem_singleton.1 hx] at hcond

/-- The next lock begins before the new one, and its end is to be cut off if it reaches into it. -/
theorem Walk.keep (hn : Next s past fl) {added : Bool} {left : Option ℕ}
    (hframe : Frame s c (front ++ (past ++ fl :: ahead) ++ back) front pre (fl :: (ahead ++ back))
      { w with added := added, left := left })
    (hleft : left = if (s.lock fl).flStart < w.lo ∧ w.lo ≤ (s.lock fl).flEnd then some fl
      else w.left)
    (hstart : (s.lock fl).flStart < w.lo) (hend : (s.lock fl).flEnd ≤ w.hi)
    (htype : (s.lock fl).flType = (s.lock c).flType → (s.lock fl).flEnd + 1 < w.lo)
    (hunlck : (s.lock c).flType = .unlck → added = false → left = none) :
    Walk s c front (past ++ [fl]) ahead back (pre ++ [fl])
      { w with added := added, left := left } := by
  have hc := h.caller_eq hn hstart
  refine {
    frame := hframe.shift.regroup
    pre_eq := ?_
    left := hleft ▸ h.left_next hn
    right := h.right
    end_le := forall_mem_concat h.end_le hend
    before := forall_mem_concat h.before fun heq _ ↦ htype heq
    lo_eq := h.lo_eq.imp_right exists_mem_concat
    hi_eq := h.hi_eq.imp_right exists_mem_concat
    touch := absurd hc
    unlck := hunlck }
  rw [h.pre_eq, if_pos hc, beginBefore_append, beginBefore_singleton_of_lt hstart]
  simp

/-- What is kept when the next lock becomes the new one. -/
theorem Walk.pre_become (hc : w.caller = c) (hne : fl ≠ c) :
    pre ++ [fl] = front ++ beginBefore s w.lo past ++ if fl = c then [] else [fl] := by
  rw [h.pre_eq, if_pos hc, if_neg hne, append_nil]

/-- The next lock is part of the new one: it goes, or becomes the new one. -/
theorem Walk.absorb {pre' : List ℕ} {w' : Work} (hn : Next s past fl)
    (hframe : Frame s c (front ++ (past ++ fl :: ahead) ++ back) front pre' (ahead ++ back) w')
    (hpre : pre' = front ++ beginBefore s w.lo past ++ if w'.caller = c then [] else [w'.caller])
    (hleft : w'.left = w.left)
    (hright : w'.right = w.right) (hlo : w'.lo = min w.lo (s.lock fl).flStart) (hhi : w.hi ≤ w'.hi)
    (hhi' : w'.hi = w.hi ∨ (s.lock fl).flEnd = w'.hi) (htouch : w.lo ≤ (s.lock fl).flEnd + 1)
    (htype : (s.lock fl).flStart < w.lo → (s.lock fl).flType = (s.lock c).flType)
    (hend : (s.lock fl).flEnd ≤ w'.hi) (hadded : w'.added = true) :
    Walk s c front (past ++ [fl]) ahead back pre' w' := by
  have hsame : ∀ x ∈ past, ((s.lock x).flStart < w'.lo ↔ (s.lock x).flStart < w.lo) := by
    intro x hx
    have h1 := hn.lt x hx
    have h2 := hn.past_nonempty x hx
    omega
  have hfl : w'.lo ≤ (s.lock fl).flStart := hlo ▸ min_le_right _ _
  refine {
    frame := hframe.regroup
    pre_eq := ?_
    left := fun x ↦ ?_
    right := hright.trans h.right
    end_le := forall_mem_concat (fun x hx ↦ (h.end_le x hx).trans hhi) hend
    before := forall_mem_concat (fun x hx heq hlt ↦ ?_) fun _ hlt ↦ absurd hlt (not_lt.2 hfl)
    lo_eq := ?_
    hi_eq := ?_
    touch := fun _ ↦ ⟨fl, by simp, by omega⟩
    unlck := fun _ hadd ↦ by simp [hadded] at hadd }
  · have hpast : beginBefore s w'.lo past = beginBefore s w.lo past :=
      filter_congr fun x hx ↦ decide_eq_decide.2 (hsame x hx)
    rw [hpre, beginBefore_append, hpast, beginBefore_singleton_of_le hfl, append_nil]
  · rw [hleft, h.left x, mem_append_and fun hx hcond ↦ ?_]
    · refine and_congr_right fun hx ↦ and_congr (hsame x hx).symm ?_
      have h1 := hn.lt x hx
      omega
    · rw [mem_singleton.1 hx] at hcond
      omega
  · have h1 := h.before x hx heq ((hsame x hx).1 hlt)
    by_cases hcase : (s.lock fl).flStart < w.lo
    · have h2 := hn.gap x hx (heq.trans (htype hcase).symm)
      omega
    · omega
  · by_cases hcase : (s.lock fl).flStart < w.lo
    · rcases h.lo_eq with heq | hx
      · exact Or.inr ⟨fl, by simp, htype hcase, by omega⟩
      · exact Or.inr (exists_mem_concat hx)
    · rw [hlo, min_eq_left (by omega)]
      exact h.lo_eq.imp_right exists_mem_concat
  · rcases hhi' with heq | heq
    · exact heq ▸ h.hi_eq.imp_right exists_mem_concat
    · exact Or.inr ⟨fl, by simp, heq⟩

end Step

/-! ## Where the loop ends -/

/-- The locks that are still to come begin behind the new one. -/
theorem Walk.stop (h : Walk s c front past ahead back pre w)
    (hrow : Row s c front (past ++ ahead) back) (hle : w.lo ≤ w.hi)
    (hahead : ∀ x ∈ ahead, w.hi < (s.lock x).flStart ∧
      ((s.lock x).flType = (s.lock c).flType → w.hi + 1 < (s.lock x).flStart)) :
    Walked s c front past ahead back pre w := by
  have hone : ∀ x ∈ past ++ ahead, (s.lock x).flStart ≤ (s.lock x).flEnd :=
    fun x hx ↦ hrow.canonical.nonempty _ (mem_map_of_mem hx)
  have hlo : ∀ x ∈ ahead, w.lo ≤ (s.lock x).flStart := fun x hx ↦ hle.trans (hahead x hx).1.le
  refine {
    frame := h.frame
    pre_eq := h.pre_eq
    left := fun x ↦ (h.left x).trans (mem_append_and fun hx hcond ↦ ?_).symm
    right := fun x ↦ ?_
    end_le := h.end_le
    lt_end := fun x hx ↦ (hahead x hx).1.trans_le (hone x (mem_append_right _ hx))
    before := forall_mem_append.2 ⟨h.before, fun x hx _ hlt ↦ absurd hlt (not_lt.2 (hlo x hx))⟩
    after := forall_mem_append.2
      ⟨fun x hx _ hlt ↦ absurd hlt (not_lt.2 (h.end_le x hx)), fun x hx heq _ ↦ (hahead x hx).2 heq⟩
    split := Or.inl (filter_eq_nil_iff.2 fun x hx ↦ ?_)
    unlck := fun hun hadd ↦ ⟨h.unlck hun hadd, h.right⟩ }
  · exact absurd hcond.1 (not_lt.2 (hlo x hx))
  · rw [h.right]
    refine ⟨fun heq ↦ by simp at heq, fun ⟨hx, hstart, hlt⟩ ↦ ?_⟩
    rcases mem_append.1 hx with hx | hx
    · exact absurd hlt (not_lt.2 (h.end_le x hx))
    · exact absurd hstart (not_le.2 (hahead x hx).1)
  · simpa using hlo x hx

/-- What the order of the table says of the locks behind the next one. -/
theorem Row.behind (hrow : Row s c front (past ++ fl :: ahead) back) :
    ∀ x ∈ ahead, (s.lock fl).flEnd < (s.lock x).flStart ∧
      (s.lock x).flStart ≤ (s.lock x).flEnd := by
  intro x hx
  have hcan := hrow.canonical
  rw [map_append] at hcan
  have hord := (pairwise_cons.1 (pairwise_append.1 hcan.ordered).2.1).1
  have hbefore : Before (s.lock fl).seg (s.lock x).seg := hord _ (mem_map_of_mem hx)
  exact ⟨hbefore.1, hrow.canonical.nonempty _ (mem_map_of_mem (by simp [hx]))⟩

section Round

variable (h : Walk s c front past (fl :: ahead) back pre w)
  (hrow : Row s c front (past ++ fl :: ahead) back)
include h hrow

/-- It is enough to look at the next lock. -/
theorem Walk.stop_next (hle : w.lo ≤ w.hi)
    (hstart : w.hi < (s.lock fl).flStart)
    (htype : (s.lock fl).flType = (s.lock c).flType → w.hi + 1 < (s.lock fl).flStart) :
    Walked s c front past (fl :: ahead) back pre w := by
  refine h.stop hrow hle fun x hx ↦ ?_
  rcases mem_cons.1 hx with rfl | hx
  · exact ⟨hstart, htype⟩
  · have h1 := hrow.next.nonempty
    have h2 := (hrow.behind x hx).1
    exact ⟨by omega, fun _ ↦ by omega⟩

/-- The beginning of the next lock is to be cut off, and perhaps what comes before the new one
kept. -/
theorem Walk.stop_right {added : Bool} {left : Option ℕ}
    (hframe : Frame s c (front ++ (past ++ fl :: ahead) ++ back) front pre (fl :: (ahead ++ back))
      { w with added := added, left := left, right := some fl })
    (hleft : left = if (s.lock fl).flStart < w.lo ∧ w.lo ≤ (s.lock fl).flEnd then some fl
      else w.left)
    (hle : w.lo ≤ w.hi) (hstart : (s.lock fl).flStart ≤ w.hi) (hend : w.hi < (s.lock fl).flEnd)
    (htype : (s.lock fl).flType ≠ (s.lock c).flType)
    (hunlck : (s.lock c).flType = .unlck → added = true) :
    Walked s c front past (fl :: ahead) back pre
      { w with added := added, left := left, right := some fl } := by
  have hn := hrow.next
  have hb := hrow.behind
  have hcases : ∀ x ∈ past ++ fl :: ahead, x ∈ past ∨ x = fl ∨ x ∈ ahead := fun x hx ↦ by
    simpa using hx
  refine {
    frame := hframe
    pre_eq := h.pre_eq
    left := fun x ↦ ?_
    right := fun x ↦ ?_
    end_le := h.end_le
    lt_end := fun x hx ↦ ?_
    before := fun x hx heq hlt ↦ ?_
    after := fun x hx heq hlt ↦ ?_
    split := ?_
    unlck := fun hun hadd ↦ by simp [hunlck hun] at hadd }
  · rw [hleft, append_cons past fl ahead]
    refine (h.left_next hn x).trans (mem_append_and fun hx hcond ↦ ?_).symm
    have := hb x hx
    omega
  · show some fl = some x ↔ x ∈ past ++ fl :: ahead ∧ (s.lock x).flStart ≤ w.hi ∧
      w.hi < (s.lock x).flEnd
    refine ⟨fun heq ↦ ?_, fun ⟨hx, hxle, hlt⟩ ↦ ?_⟩
    · cases heq
      exact ⟨by simp, hstart, hend⟩
    · rcases hcases x hx with hx | rfl | hx
      · exact absurd hlt (not_lt.2 (h.end_le x hx))
      · rfl
      · have := hb x hx
        omega
  · show w.hi < (s.lock x).flEnd
    rcases mem_cons.1 hx with rfl | hx
    · exact hend
    · have := hb x hx
      omega
  · have hlt' : (s.lock x).flStart < w.lo := hlt
    rcases hcases x hx with hx | rfl | hx
    · exact h.before x hx heq hlt
    · exact absurd heq htype
    · have := hb x hx
      omega
  · show w.hi + 1 < (s.lock x).flStart
    rcases hcases x hx with hx | rfl | hx
    · exact absurd hlt (not_lt.2 (h.end_le x hx))
    · exact absurd heq htype
    · have := hb x hx
      omega
  · have hahead : beginBefore s w.lo ahead = [] := by
      refine filter_eq_nil_iff.2 fun x hx ↦ ?_
      have := hb x hx
      simp only [decide_eq_true_eq, not_lt]
      omega
    rw [show fl :: ahead = [fl] ++ ahead from rfl, beginBefore_append, hahead]
    by_cases hlt : (s.lock fl).flStart < w.lo
    · rw [beginBefore_singleton_of_lt hlt]
      exact Or.inr ⟨fl, rfl, h.caller_eq hn hlt⟩
    · rw [beginBefore_singleton_of_le (not_lt.1 hlt)]
      exact Or.inl rfl

/-! ## One round -/

/-- How a round ends. -/
inductive WalkRound (s : State) (c fl : ℕ) (front past ahead back pre : List ℕ) : Round → Prop
  | next {w : Work} (h : Walk s c front (past ++ [fl]) ahead back (pre ++ [fl]) w) :
      WalkRound s c fl front past ahead back pre (.next w)
  | delete {w : Work} (h : Walk s c front (past ++ [fl]) ahead back pre w) :
      WalkRound s c fl front past ahead back pre (.delete w)
  | stop {w : Work} (h : Walked s c front past (fl :: ahead) back pre w) :
      WalkRound s c fl front past ahead back pre (.stop w)

omit h hrow in
theorem Walk.lo_le_hi (h : Walk s c front past ahead back pre w)
    (hrow : Row s c front (past ++ ahead) back) : w.lo ≤ w.hi :=
  h.frame.start_le.trans (hrow.setup.start_le_end.trans h.frame.end_ge)

/-- A careful caller whose range goes to the end of the file finds no lock to merge it with. -/
theorem Walk.hi_lt (hcare : Careful s c (past ++ fl :: ahead))
    (htype : (s.lock fl).flType = (s.lock c).flType) (htouch : w.lo ≤ (s.lock fl).flEnd + 1) :
    w.hi < offsetMax := by
  refine lt_of_le_of_ne h.frame.end_le fun hmax ↦ ?_
  rcases h.hi_eq with heq | ⟨x, hx, heq⟩
  · have hnone := hcare (heq.symm.trans hmax)
    rcases h.lo_eq with hlo | ⟨x, hx, hxt, hge⟩
    · have := hnone fl (by simp) htype
      omega
    · have := hnone x (by simp [hx]) hxt
      omega
  · have h1 := hrow.next.lt x hx
    have h2 := (hrow.setup.bounded fl (by simp)).start_le
    omega

theorem Walk.roundSame (hcare : Careful s c (past ++ fl :: ahead))
    (htype : (s.lock fl).flType = (s.lock c).flType) :
    WalkRound s c fl front past ahead back pre (w.roundSame fl) := by
  have hs := hrow.setup
  have hn := hrow.next
  have hle := h.lo_le_hi hrow
  obtain ⟨hmem, hne, -, hfl⟩ := h.frame.head_ne hs
  have hwho := hrow.mine fl (by simp)
  have hlo : (w.st.lock w.caller).flStart = w.lo := rfl
  have hhi : (w.st.lock w.caller).flEnd = w.hi := rfl
  have h0 : 0 ≤ w.lo := h.frame.start_nonneg
  have h1 : w.lo ≤ offsetMax := hle.trans h.frame.end_le
  have htype' : (w.st.lock w.caller).flType = (w.st.lock fl).flType := by
    rw [h.frame.type, hfl, htype]
  rw [Work.roundSame]
  rw [hhi, loff_eq (by omega) (by omega)]
  split
  · rename_i hlt
    rw [hfl] at hlt
    have hstart : (s.lock fl).flStart < w.lo := hn.nonempty.trans_lt (by omega)
    exact .next (h.keep hn h.frame (if_neg (by omega)).symm hstart (by omega) (fun _ ↦ by omega)
      h.unlck)
  rename_i hge
  rw [not_lt] at hge
  have htouch : w.lo ≤ (s.lock fl).flEnd + 1 := by
    rw [hfl] at hge
    omega
  split
  · rename_i hlt
    have hlt' := h.hi_lt hrow hcare htype htouch
    rw [hfl, loff_eq (by omega) (by omega)] at hlt
    exact .stop (h.stop_next hrow hle (by omega) fun _ ↦ hlt)
  rename_i hnear
  have hhi' := h.frame.start_le_of_loff hs (not_lt.1 hnear)
  split
  · -- another lock is the new one already
    rename_i hadded
    have hlock : ((w.merge fl).drop fl).st.lock ((w.merge fl).drop fl).caller = _ :=
      merge_caller w fl
    rw [hfl] at hlock
    refine .delete (h.absorb hn (h.frame.merge_delete hs hwho htype' hge hhi') h.pre_eq rfl rfl
      ?_ ?_ ?_ htouch (fun _ ↦ htype) ?_ hadded)
    all_goals dsimp only [Work.lo, Work.hi] at *
    all_goals rw [hlock]
    · exact le_max_left _ _
    · exact (max_choice _ _).imp_right Eq.symm
    · exact le_max_right _ _
  · rename_i hadded
    rw [Bool.not_eq_true] at hadded
    have hlock := merge_fl hne
    rw [hfl] at hlock
    refine .next (h.absorb hn (h.frame.merge_next hs hwho htype' hge hhi' hadded)
      (h.pre_become (h.frame.notAdded hadded) (hs.notMem fl hmem).1) rfl rfl
      ?_ ?_ ?_ htouch (fun _ ↦ htype) ?_ rfl)
    all_goals dsimp only [Work.lo, Work.hi] at *
    all_goals rw [hlock]
    · exact le_max_left _ _
    · exact (max_choice _ _).imp_right Eq.symm
    · exact le_max_right _ _

theorem Walk.roundOther (htype : (s.lock fl).flType ≠ (s.lock c).flType) :
    WalkRound s c fl front past ahead back pre (w.roundOther fl) := by
  have hs := hrow.setup
  have hn := hrow.next
  have hle := h.lo_le_hi hrow
  obtain ⟨hmem, -, -, hfl⟩ := h.frame.head_ne hs
  have hwho := hrow.mine fl (by simp)
  rw [Work.roundOther]
  dsimp only
  split
  · rename_i hlt
    rw [hfl] at hlt
    exact .next (h.keep hn h.frame (if_neg fun hcut ↦ absurd hlt (not_lt.2 hcut.2)).symm
      (hn.nonempty.trans_lt hlt) (hlt.le.trans hle) (fun heq ↦ absurd heq htype) h.unlck)
  split
  · rename_i hlt
    rw [hfl] at hlt
    exact .stop (h.stop_next hrow hle hlt fun heq ↦ absurd heq htype)
  rename_i hend hstart
  rw [not_lt, hfl] at hend hstart
  rw [hfl, h.frame.type]
  have hadd : (s.lock c).flType = .unlck →
      (if (s.lock c).flType = .unlck then true else w.added) = true := fun ht ↦ if_pos ht
  split
  · rename_i hlt
    exact .stop (h.stop_right hrow (h.frame.mark _ _) (by simp only [hend, and_true]) hle hstart hlt
      htype hadd)
  rename_i hfit
  rw [not_lt] at hfit
  split
  · rename_i hge
    rw [if_neg (not_lt.2 hge)]
    set w' : Work := { w with
      added := if (s.lock c).flType = .unlck then true else w.added
      left := w.left }
    have h' : Frame s c (front ++ (past ++ fl :: ahead) ++ back) front pre
      (fl :: (ahead ++ back)) w' :=
      h.frame.mark w.left w.right
    have htouch : w.lo ≤ (s.lock fl).flEnd + 1 := hend.trans (Int.le_add_one le_rfl)
    by_cases hadded : w'.added = true
    · rw [if_pos hadded]
      exact .delete (h.absorb hn (h'.drop hwho) h.pre_eq rfl rfl (min_eq_left hge).symm le_rfl
        (Or.inl rfl) htouch (fun hlt ↦ absurd hlt (not_lt.2 hge)) hfit hadded)
    · have hunlck : (s.lock c).flType ≠ .unlck := fun ht ↦ hadded (if_pos ht)
      have hnot' : w'.added = false := Bool.eq_false_iff.2 hadded
      have hlock : (w'.replace fl).st.lock (w'.replace fl).caller = _ := replace_fl w' fl
      rw [if_neg hadded]
      refine .next (h.absorb hn (h'.replace_next hs hwho hunlck hnot')
        (h.pre_become (h'.notAdded hnot') (hs.notMem fl hmem).1) rfl rfl ?_ ?_ ?_ htouch
        (fun hlt ↦ absurd hlt (not_lt.2 hge)) ?_ rfl)
      all_goals dsimp only [Work.lo, Work.hi] at *
      all_goals rw [hlock]
      · exact (min_eq_left hge).symm
      · exact Or.inl rfl
      · exact hfit
  · rename_i hlt
    rw [not_le] at hlt
    rw [if_pos hlt]
    exact .next (h.keep hn (h.frame.mark _ w.right) (if_pos ⟨hlt, hend⟩).symm hlt hfit
      (fun heq ↦ absurd heq htype) fun ht hno ↦ absurd (hadd ht) (by simp [hno]))

theorem Walk.round (hcare : Careful s c (past ++ fl :: ahead)) :
    WalkRound s c fl front past ahead back pre (w.round fl) := by
  have hfl := (h.frame.head_ne hrow.setup).2.2.2
  rw [Work.round, hfl, h.frame.type]
  split
  · rename_i heq
    exact h.roundSame hrow hcare heq.symm
  · rename_i hne
    exact h.roundOther hrow (Ne.symm hne)

end Round

/-! ## The whole loop -/

/-- **The loop** on a list in order. -/
theorem Walk.scanLocks (h : Walk s c front past ahead back pre w)
    (hrow : Row s c front (past ++ ahead) back) (hcare : Careful s c (past ++ ahead)) :
    ∃ past' ahead', past' ++ ahead' = past ++ ahead ∧
      (scanLocks (ahead ++ back) pre w).2.1 = ahead' ++ back ∧
      Walked s c front past' ahead' back (scanLocks (ahead ++ back) pre w).1
        (scanLocks (ahead ++ back) pre w).2.2 := by
  induction ahead generalizing past pre w with
  | nil =>
    have hend : scanLocks back pre w = (pre, back, w) := by
      cases hback : back with
      | nil => rfl
      | cons y tail =>
        have hown : ¬ (w.st.lock w.caller).locksSameOwner (w.st.lock y) = true := by
          intro hown
          refine hrow.other y (by simp [hback]) ?_
          have hframe := h.frame
          rw [hback] at hframe
          exact hframe.sameOwner hown
        rw [scanLocks, if_neg hown]
    rw [nil_append, hend]
    exact ⟨past, [], rfl, rfl, h.stop hrow (h.lo_le_hi hrow) (by simp)⟩
  | cons fl ahead ih =>
    have hframe : Frame s c _ front pre (fl :: (ahead ++ back)) w := h.frame
    have hown : (w.st.lock w.caller).locksSameOwner (w.st.lock fl) = true := by
      rw [FileLock.locksSameOwner, decide_eq_true_eq, (hframe.like _).who, (hframe.like _).who,
        hframe.who, hrow.mine fl (by simp)]
    have hgroup : past ++ [fl] ++ ahead = past ++ fl :: ahead := by simp
    have hround := h.round hrow hcare
    rw [cons_append, scanLocks, if_pos hown]
    generalize w.round fl = r at hround
    cases hround with
    | next h' =>
      obtain ⟨past', ahead', happ, hrest, hwalked⟩ := ih h' (hgroup ▸ hrow) (hgroup ▸ hcare)
      exact ⟨past', ahead', happ.trans hgroup, hrest, hwalked⟩
    | delete h' =>
      obtain ⟨past', ahead', happ, hrest, hwalked⟩ := ih h' (hgroup ▸ hrow) (hgroup ▸ hcare)
      exact ⟨past', ahead', happ.trans hgroup, hrest, hwalked⟩
    | stop h' => exact ⟨past, fl :: ahead, rfl, rfl, h'⟩

/-- The loop begins. -/
theorem Row.walk {own : List ℕ} (h : Row s c front own back) : Walk s c front [] own back front
    { st := s, caller := c, left := none, right := none, added := false } where
  frame := h.setup.frame (by simp)
  pre_eq := by simp [beginBefore]
  left := by simp
  right := rfl
  end_le := by simp
  before := by simp
  lo_eq := Or.inl rfl
  hi_eq := Or.inl rfl
  touch hne := absurd rfl hne
  unlck _ _ := rfl

end

end Linux24.Locks
