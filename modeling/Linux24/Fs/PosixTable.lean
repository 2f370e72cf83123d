import Linux24.Fs.PosixWalk

/-!
# The table that `posix_lock_file` leaves

`Finished` is everything that is written to the table after the loop: which structures are on the
list then, and what is in them.  Together with where the loop ended, that is the table of the caller
as it was below the new lock and above it, and the new lock in between (`Walked.table`); and that is
what it should be (`Walked.canonical`).
-/

set_option autoImplicit false

namespace Linux24.Locks

open Segments List

/-! ## What is written after the loop -/

section

variable {w : Work} {n : ℕ} {pre rest l : List ℕ} {s : State}

/-- Everything that is written to the table after the loop. -/
structure Finished (w : Work) (n : ℕ) (pre rest l : List ℕ) (s : State) : Prop where
  list : l = pre ++ ((if w.right ≠ none ∧ w.left = w.right then [n + 1] else []) ++
    if w.added = true ∨ (w.st.lock w.caller).flType = .unlck then [] else [n]) ++ rest
  old : ∀ x, x ≠ n → x ≠ n + 1 → s.lock x = { w.st.lock x with
    flStart := if w.right = some x then loff (w.hi + 1) else (w.st.lock x).flStart
    flEnd := if w.left = some x ∧ w.right ≠ some x then loff (w.lo - 1) else (w.st.lock x).flEnd }
  new : w.added = false → (w.st.lock w.caller).flType ≠ .unlck →
    (s.lock n).seg = ⟨w.lo, w.hi, (w.st.lock w.caller).flType⟩
  copy : ∀ r, w.right = some r → w.left = some r →
    (s.lock (n + 1)).seg = ⟨(w.st.lock r).flStart, loff (w.lo - 1), (w.st.lock r).flType⟩

theorem Written.finished (h : Written w n pre rest l s) : Finished w n pre rest l s := by
  refine ⟨h.list, h.old, fun hadd ht ↦ ?_, fun r hr hl ↦ ?_⟩
  · rw [h.new hadd ht]
    rfl
  · rw [h.copy r hr hl]
    rfl

end

/-! ## The new table -/

section

variable {s s' : State} {c x : ℕ} {front past ahead back pre l' : List ℕ} {w : Work}

theorem below_map (s : State) (lo : ℤ) (l : List ℕ) : below lo (l.map fun x ↦ (s.lock x).seg) =
    (beginBefore s lo l).map fun x ↦
      { (s.lock x).seg with stop := min (s.lock x).flEnd (lo - 1) } := by
  rw [below, filter_map, map_map]
  rfl

theorem above_map (s : State) (hi : ℤ) (l : List ℕ) : above hi (l.map fun x ↦ (s.lock x).seg) =
    (l.filter fun x ↦ decide (hi < (s.lock x).flEnd)).map fun x ↦
      { (s.lock x).seg with start := max (s.lock x).flStart (hi + 1) } := by
  rw [above, filter_map, map_map]
  rfl

section Table

variable (hrow : Row s c front (past ++ ahead) back) (h : Walked s c front past ahead back pre w)
include hrow h

theorem Walked.range : 0 ≤ w.lo ∧ w.lo ≤ w.hi ∧ w.lo ≤ offsetMax :=
  ⟨h.frame.start_nonneg, h.frame.start_le.trans (hrow.setup.start_le_end.trans h.frame.end_ge),
    h.frame.start_le.trans (hrow.setup.start_le_end.trans hrow.setup.end_le)⟩

/-- The lock that has become the new one is none of the others. -/
theorem Walked.caller_notMem (hc : w.caller ≠ c) :
    w.caller ∉ beginBefore s w.lo past ∧ w.caller ∉ ahead := by
  have hnodup := hrow.setup.nodup.sublist h.frame.sub
  rw [h.pre_eq, if_neg hc] at hnodup
  constructor
  · intro hx
    have hdisj := (nodup_append.1 (nodup_append.1 hnodup).1).2.2
    exact hdisj _ (mem_append_right _ hx) _ (mem_singleton_self _) rfl
  · intro hx
    have hdisj := (nodup_append.1 hnodup).2.2
    exact hdisj _ (mem_append_right _ (mem_singleton_self _)) _
      (mem_append_left _ hx) rfl

theorem Walked.old (hx : x ∈ beginBefore s w.lo past ∨ x ∈ ahead) :
    x ∈ past ++ ahead ∧ x ≠ c + 1 ∧ x ≠ c + 2 ∧ w.st.lock x = s.lock x := by
  have hown : x ∈ past ++ ahead := by
    rcases hx with hx | hx
    · exact mem_append_left _ (mem_of_mem_filter hx)
    · exact mem_append_right _ hx
  have hmem : x ∈ pre ++ (ahead ++ back) := by
    rw [h.pre_eq]
    simp only [mem_append]
    tauto
  obtain ⟨h0, h1, h2⟩ := hrow.setup.notMem x (h.frame.sub.subset hmem)
  refine ⟨hown, h1, h2, h.frame.same x hmem fun heq ↦ ?_⟩
  have hno := h.caller_notMem hrow (heq ▸ h0)
  rw [heq] at hx
  tauto

/-- The locks that begin before the new one end before it now. -/
theorem Walked.seg_before
    (hf : Finished w (c + 1) pre (ahead ++ back) l' s') (hx : x ∈ beginBefore s w.lo past) :
    (s'.lock x).seg = { (s.lock x).seg with stop := min (s.lock x).flEnd (w.lo - 1) } := by
  obtain ⟨hown, h1, h2, hlock⟩ := h.old hrow (Or.inl hx)
  have hpast : x ∈ past := mem_of_mem_filter hx
  have hstart : (s.lock x).flStart < w.lo := by simpa using of_mem_filter hx
  have hend := h.end_le x hpast
  have hright : w.right ≠ some x := fun hr ↦ by
    have := ((h.right x).1 hr).2.2
    omega
  obtain ⟨h0, -, hmax⟩ := h.range hrow
  rw [hf.old x h1 h2, hlock, if_neg hright, loff_eq (by omega) (by omega)]
  by_cases hleft : w.left = some x
  · have hge := ((h.left x).1 hleft).2.2
    rw [if_pos ⟨hleft, hright⟩, min_eq_right (by omega)]
    rfl
  · have hlt : (s.lock x).flEnd < w.lo := by
      by_contra hge
      exact hleft ((h.left x).2 ⟨hown, hstart, not_lt.1 hge⟩)
    rw [if_neg fun h ↦ hleft h.1, min_eq_left (by omega)]
    rfl

/-- The locks that end behind the new one begin behind it now. -/
theorem Walked.seg_ahead (hf : Finished w (c + 1) pre (ahead ++ back) l' s') (hx : x ∈ ahead) :
    (s'.lock x).seg = { (s.lock x).seg with start := max (s.lock x).flStart (w.hi + 1) } := by
  obtain ⟨hown, h1, h2, hlock⟩ := h.old hrow (Or.inr hx)
  have hlt := h.lt_end x hx
  obtain ⟨-, hle, -⟩ := h.range hrow
  have h0 : 0 ≤ w.hi := h.frame.start_nonneg.trans hle
  have hmax := (hrow.setup.bounded x (by simp [hx])).end_le
  have hleft : ¬ (w.left = some x ∧ w.right ≠ some x) := by
    rintro ⟨hl, hr⟩
    have := ((h.left x).1 hl).2.1
    exact hr ((h.right x).2 ⟨hown, by omega, hlt⟩)
  rw [hf.old x h1 h2, hlock, if_neg hleft, loff_eq (by omega) (by omega)]
  by_cases hright : w.right = some x
  · have hle := ((h.right x).1 hright).2.1
    rw [if_pos hright, max_eq_right (by omega)]
    rfl
  · have hgt : w.hi < (s.lock x).flStart := by
      by_contra hle
      exact hright ((h.right x).2 ⟨hown, not_lt.1 hle, hlt⟩)
    rw [if_neg hright, max_eq_left (by omega)]
    rfl

/-- The pointers are not to the lock that has become the new one. -/
theorem Walked.caller_ne :
    w.left ≠ some w.caller ∧ w.right ≠ some w.caller := by
  have hc : w.caller ∈ past ++ ahead → w.caller ≠ c :=
    fun hmem ↦ (hrow.setup.notMem _ (mem_append_left _ (mem_append_right _ hmem))).1
  constructor
  · intro hl
    obtain ⟨hmem, hlt, -⟩ := (h.left _).1 hl
    have hno := h.caller_notMem hrow (hc hmem)
    rcases mem_append.1 hmem with hx | hx
    · exact hno.1 (mem_filter.2 ⟨hx, by simpa using hlt⟩)
    · exact hno.2 hx
  · intro hr
    obtain ⟨hmem, -, hlt⟩ := (h.right _).1 hr
    rcases mem_append.1 hmem with hx | hx
    · have := h.end_le _ hx
      omega
    · exact (h.caller_notMem hrow (hc hmem)).2 hx

theorem Walked.seg_caller (hf : Finished w (c + 1) pre (ahead ++ back) l' s') (hc : w.caller ≠ c) :
    (s'.lock w.caller).seg = ⟨w.lo, w.hi, (s.lock c).flType⟩ := by
  have hmem : w.caller ∈ pre ++ (ahead ++ back) := by
    rw [h.pre_eq, if_neg hc]
    simp
  obtain ⟨-, h1, h2⟩ := hrow.setup.notMem _ (h.frame.sub.subset hmem)
  obtain ⟨hl, hr⟩ := h.caller_ne hrow
  rw [hf.old _ h1 h2, if_neg hr, if_neg fun h ↦ hl h.1, ← h.frame.type]
  rfl

/-- **The table after the call**: what was below the new lock, the new lock if there is one, and
what was above it. -/
theorem Walked.table (hf : Finished w (c + 1) pre (ahead ++ back) l' s') :
    ∃ own', l' = front ++ own' ++ back ∧ own'.map (fun x ↦ (s'.lock x).seg) =
      below w.lo ((past ++ ahead).map fun x ↦ (s.lock x).seg) ++
      (if (s.lock c).flType = .unlck then [] else [⟨w.lo, w.hi, (s.lock c).flType⟩]) ++
      above w.hi ((past ++ ahead).map fun x ↦ (s.lock x).seg) := by
  have hbefore : (beginBefore s w.lo past).map (fun x ↦ (s'.lock x).seg) =
      (beginBefore s w.lo past).map fun x ↦
        { (s.lock x).seg with stop := min (s.lock x).flEnd (w.lo - 1) } :=
    map_congr_left fun x hx ↦ h.seg_before hrow hf hx
  have hahead : ahead.map (fun x ↦ (s'.lock x).seg) =
      above w.hi ((past ++ ahead).map fun x ↦ (s.lock x).seg) := by
    have hfilter : (past ++ ahead).filter (fun x ↦ decide (w.hi < (s.lock x).flEnd)) = ahead := by
      rw [filter_append, filter_eq_nil_iff.2, nil_append, filter_eq_self.2]
      · exact fun x hx ↦ decide_eq_true (h.lt_end x hx)
      · exact by simpa using h.end_le
    rw [above_map, hfilter]
    exact map_congr_left fun x hx ↦ h.seg_ahead hrow hf hx
  have htype : (w.st.lock w.caller).flType = (s.lock c).flType := h.frame.type
  rw [below_map, beginBefore_append, map_append, ← hbefore, ← hahead]
  -- the new lock is one that has become it, or has been inserted, or there is none
  have hnew : ((if w.caller = c then [] else [w.caller]) ++
      if w.added = true ∨ (w.st.lock w.caller).flType = .unlck then [] else [c + 1]).map
        (fun x ↦ (s'.lock x).seg) =
      if (s.lock c).flType = .unlck then [] else [⟨w.lo, w.hi, (s.lock c).flType⟩] := by
    rw [htype]
    by_cases hun : (s.lock c).flType = .unlck
    · rw [if_pos (h.frame.unlck hun), if_pos (Or.inr hun), if_pos hun]
      rfl
    · rw [if_neg hun]
      cases hadd : w.added
      · rw [if_pos (h.frame.notAdded hadd), if_neg (by simp [hun]), nil_append,
          map_singleton, hf.new hadd (htype ▸ hun), htype]
      · have hpre := h.frame.added hadd hun
        have hc : w.caller ≠ c :=
          (hrow.setup.notMem _ (h.frame.sub.subset (mem_append_left _ hpre))).1
        rw [if_neg hc, if_pos (Or.inl rfl), append_nil, map_singleton, h.seg_caller hrow hf hc]
  rcases h.split with hsplit | ⟨r, hsplit, hc⟩
  · -- nothing is broken in two
    have hif : ¬ (w.right ≠ none ∧ w.left = w.right) := by
      rintro ⟨hsome, heq⟩
      obtain ⟨r, hr⟩ := Option.ne_none_iff_exists'.1 hsome
      obtain ⟨hmem, hlt, -⟩ := (h.left r).1 (heq.trans hr)
      have hgt := ((h.right r).1 hr).2.2
      rcases mem_append.1 hmem with hx | hx
      · have := h.end_le r hx
        omega
      · have hin : r ∈ beginBefore s w.lo ahead := mem_filter.2 ⟨hx, by simpa using hlt⟩
        rw [hsplit] at hin
        cases hin
    refine ⟨beginBefore s w.lo past ++ ((if w.caller = c then [] else [w.caller]) ++
      if w.added = true ∨ (w.st.lock w.caller).flType = .unlck then [] else [c + 1]) ++ ahead,
      ?_, ?_⟩
    · rw [hf.list, if_neg hif, h.pre_eq]
      simp
    · rw [map_append, map_append, hnew, hsplit]
      simp
  · have hr : r ∈ ahead ∧ (s.lock r).flStart < w.lo := by
      have hin : r ∈ beginBefore s w.lo ahead := by simp [hsplit]
      exact ⟨mem_of_mem_filter hin, by simpa using of_mem_filter hin⟩
    obtain ⟨h0, hle, hmax⟩ := h.range hrow
    have hlt := h.lt_end r hr.1
    have hleft : w.left = some r :=
      (h.left r).2 ⟨mem_append_right _ hr.1, hr.2, by omega⟩
    have hright : w.right = some r :=
      (h.right r).2 ⟨mem_append_right _ hr.1, by omega, hlt⟩
    have hcopy : (s'.lock (c + 2)).seg =
        { (s.lock r).seg with stop := min (s.lock r).flEnd (w.lo - 1) } := by
      obtain ⟨-, -, -, hlock⟩ := h.old hrow (Or.inr hr.1)
      rw [hf.copy r hright hleft, hlock, loff_eq (by omega) (by omega), min_eq_right (by omega)]
      rfl
    refine ⟨beginBefore s w.lo past ++ [c + 2] ++ ((if w.caller = c then [] else [w.caller]) ++
      if w.added = true ∨ (w.st.lock w.caller).flType = .unlck then [] else [c + 1]) ++ ahead,
      ?_, ?_⟩
    · rw [hf.list, if_pos ⟨by simp [hright], hleft.trans hright.symm⟩, h.pre_eq, if_pos hc]
      simp
    · rw [map_append, map_append, map_append, hnew, hsplit, map_singleton,
        map_singleton, hcopy]

/-- No lock is of the type that a request to unlock has, so that nothing is merged with it. -/
theorem Walked.range_of_unlck (hun : (s.lock c).flType = .unlck) :
    w.lo = (s.lock c).flStart ∧ w.hi = (s.lock c).flEnd := by
  obtain ⟨-, hle, -⟩ := h.range hrow
  have hin : ∀ b, (w.st.lock w.caller).Covers b → (s.lock c).Covers b := by
    intro b hb
    refine (h.frame.covers b hb).resolve_right ?_
    rintro ⟨y, hy, hwho, htype, -⟩
    have hfront : y ∉ front := fun hf ↦ hrow.other y (mem_append_left _ hf) hwho
    exact hrow.setup.type y hy (hrow.setup.posix y hy hfront) (htype.trans hun)
  exact ⟨le_antisymm h.frame.start_le (hin w.lo ⟨le_rfl, hle⟩).1,
    le_antisymm (hin w.hi ⟨hle, le_rfl⟩).2 h.frame.end_ge⟩

/-- **What the new table says.** -/
theorem Walked.canonical {own' : List ℕ}
    (hown : own'.map (fun x ↦ (s'.lock x).seg) =
      below w.lo ((past ++ ahead).map fun x ↦ (s.lock x).seg) ++
      (if (s.lock c).flType = .unlck then [] else [⟨w.lo, w.hi, (s.lock c).flType⟩]) ++
      above w.hi ((past ++ ahead).map fun x ↦ (s.lock x).seg)) :
    Canonical (own'.map fun x ↦ (s'.lock x).seg) ∧
    ∀ b t, Holds (own'.map fun x ↦ (s'.lock x).seg) b t ↔
      if (s.lock c).Covers b then t = (s.lock c).flType ∧ t ≠ .unlck
      else Holds ((past ++ ahead).map fun x ↦ (s.lock x).seg) b t := by
  rw [hown]
  by_cases hun : (s.lock c).flType = .unlck
  · obtain ⟨hlo, hhi⟩ := h.range_of_unlck hrow hun
    obtain ⟨hcan, hholds⟩ := hrow.canonical.clear hrow.setup.start_le_end
    rw [if_pos hun, append_nil, hlo, hhi]
    refine ⟨hcan, fun b t ↦ (hholds b t).trans ?_⟩
    by_cases hb : (s.lock c).Covers b
    · rw [if_pos hb, hun]
      exact ⟨fun hc ↦ absurd hb hc.1, fun hc ↦ absurd hc.1 hc.2⟩
    · rw [if_neg hb]
      exact and_iff_right hb
  · rw [if_neg hun, append_assoc]
    have hmem : ∀ y ∈ (past ++ ahead).map (fun x ↦ (s.lock x).seg),
        ∃ x ∈ past ++ ahead, (s.lock x).seg = y := fun y hy ↦ mem_map.1 hy
    have hcover : ∀ b, w.lo ≤ b → b ≤ w.hi → (s.lock c).Covers b ∨
        Holds ((past ++ ahead).map fun x ↦ (s.lock x).seg) b (s.lock c).flType := by
      intro b hb hb'
      refine (h.frame.covers b ⟨hb, hb'⟩).imp_right ?_
      rintro ⟨y, hy, hwho, htype, hcov⟩
      have hother : y ∉ front ++ back := fun hf ↦ hrow.other y hf hwho
      have hyown : y ∈ past ++ ahead := by
        simp only [mem_append] at hy hother ⊢
        tauto
      exact ⟨_, mem_map_of_mem hyown, hcov, htype⟩
    have hbefore : ∀ y ∈ (past ++ ahead).map (fun x ↦ (s.lock x).seg),
        y.label = (s.lock c).flType → y.start < w.lo → y.stop + 1 < w.lo := by
      intro y hy
      obtain ⟨x, hx, rfl⟩ := hmem y hy
      exact h.before x hx
    have hafter : ∀ y ∈ (past ++ ahead).map (fun x ↦ (s.lock x).seg),
        y.label = (s.lock c).flType → w.hi < y.stop → w.hi + 1 < y.start := by
      intro y hy
      obtain ⟨x, hx, rfl⟩ := hmem y hy
      exact h.after x hx
    obtain ⟨hcan, hholds⟩ := hrow.canonical.overwrite hrow.setup.start_le_end h.frame.start_le
      h.frame.end_ge hcover hbefore hafter
    refine ⟨hcan, fun b t ↦ (hholds b t).trans ?_⟩
    by_cases hb : (s.lock c).Covers b
    · rw [if_pos hb, if_pos (show _ ∧ _ from hb)]
      exact ⟨fun heq ↦ ⟨heq, heq ▸ hun⟩, And.left⟩
    · rw [if_neg hb, if_neg (show ¬ (_ ∧ _) from hb)]

end Table

end

end Linux24.Locks
