import Linux24.Fs.PosixTable
import Linux24.Fs.PosixRuns

/-!
# POSIX locks as a map of bytes

What the locks of a file mean is which bytes each owner has locked, and for what.  A call should
change that for the bytes of its range only, and leave a list on which the locks of each owner stand
together, in order and as few as possible: `RightAfter`.

It does so if it is `Careful`, and only then (`posix_map_iff`).  If the range goes to the end of the
file and there is a lock of the same type to merge it with, the two stay apart.  The old one is then
behind the new one on the list, where the next call does not look for it: an unlock of its range
leaves it in place.
-/

set_option autoImplicit false

namespace Linux24.Locks

open Segments List Function

/-! ## The locks of a file -/

/-- The owner has locked the byte. -/
def State.Locked (s : State) (inode : ℕ) (who : ℕ × ℕ) (b : ℤ) (t : LockType) : Prop :=
  ∃ x ∈ s.iFlock inode, (s.lock x).who = who ∧ (s.lock x).flType = t ∧ (s.lock x).Covers b

/-- The locks of each owner stand together on the list, in the order of the bytes; they do not
overlap, and two of the same type are not next to each other. -/
structure State.InOrder (s : State) (inode : ℕ) : Prop where
  together : ∀ x y z, [x, y, z].Sublist (s.iFlock inode) → (s.lock x).who = (s.lock z).who →
    (s.lock y).who = (s.lock x).who
  nonempty : ∀ x ∈ s.iFlock inode, (s.lock x).flStart ≤ (s.lock x).flEnd
  ordered : (s.iFlock inode).Pairwise fun x y ↦ (s.lock x).who = (s.lock y).who →
    (s.lock x).flEnd < (s.lock y).flStart ∧
    ((s.lock x).flType = (s.lock y).flType → (s.lock x).flEnd + 1 < (s.lock y).flStart)

section

variable {s : State} {inode c : ℕ} {callers : List (ℕ × ℕ)}

theorem skips_eq_true {x : ℕ} (hx : (s.lock x).flFlags = .posix) :
    s.skips c x = true ↔ (s.lock x).who ≠ (s.lock c).who := by
  rw [ne_comm]
  simp [State.skips, FileLock.locksSameOwner, hx]

/-- The locks of the caller are those after the ones that are skipped, up to the next owner. -/
theorem Ok.row (h : Ok s callers) (hc : Waiter s c) (hord : s.InOrder inode) :
    ∃ own back, s.iFlock inode = (s.iFlock inode).takeWhile (s.skips c) ++ own ++ back ∧
      (s.iFlock inode).dropWhile (s.skips c) = own ++ back ∧
      Row s c ((s.iFlock inode).takeWhile (s.skips c)) own back := by
  set front := (s.iFlock inode).takeWhile (s.skips c)
  set rest := (s.iFlock inode).dropWhile (s.skips c) with hrest
  set mine : ℕ → Bool := fun x ↦ decide ((s.lock x).who = (s.lock c).who)
  have hlist : s.iFlock inode = front ++ rest := takeWhile_append_dropWhile.symm
  have hsplit : rest = rest.takeWhile mine ++ rest.dropWhile mine :=
    takeWhile_append_dropWhile.symm
  have hlist' : s.iFlock inode = front ++ rest.takeWhile mine ++ rest.dropWhile mine := by
    rw [append_assoc, ← hsplit, ← hlist]
  have hposix := h.posix inode
  have hmine : ∀ x ∈ rest.takeWhile mine, (s.lock x).who = (s.lock c).who := by
    intro x hx
    have := mem_takeWhile_imp hx
    simpa [mine] using this
  have hsub : (rest.takeWhile mine).Sublist (s.iFlock inode) := by
    rw [hlist']
    exact (sublist_append_right _ _).trans (sublist_append_left _ _)
  refine ⟨rest.takeWhile mine, rest.dropWhile mine, hlist', hsplit, ?_, hmine, fun x hx ↦ ?_, ?_⟩
  · rw [← hlist']
    exact h.setup hc inode
  · rcases mem_append.1 hx with hx | hx
    · have hmem : x ∈ s.iFlock inode := (List.takeWhile_prefix _).subset hx
      exact (skips_eq_true (hposix x hmem)).1 (mem_takeWhile_imp hx)
    · -- a lock of the caller behind one of another owner would have that one in between
      intro hwho
      cases hback : rest.dropWhile mine with
      | nil => simp [hback] at hx
      | cons b back =>
        have hb : mine b = false := by
          have := head?_dropWhile_not mine rest
          rw [hback] at this
          simpa using this
        have hb' : (s.lock b).who ≠ (s.lock c).who := by simpa [mine] using hb
        have hxb : x ∈ back := by
          rw [hback] at hx
          rcases mem_cons.1 hx with rfl | hx
          · exact absurd hwho hb'
          · exact hx
        cases hown : rest.takeWhile mine with
        | nil =>
          have hbhead : rest = b :: back := by rw [hsplit, hown, hback, nil_append]
          have hskip := head?_dropWhile_not (s.skips c) (s.iFlock inode)
          rw [← hrest, hbhead] at hskip
          have hmem : b ∈ s.iFlock inode := by
            rw [hlist, hbhead]
            simp
          have := (skips_eq_true (hposix b hmem)).2 hb'
          simp [this] at hskip
        | cons o own =>
          have htriple : [o, b, x].Sublist (s.iFlock inode) := by
            rw [hlist', hown, hback, append_assoc]
            refine Sublist.trans ?_ (sublist_append_right _ _)
            refine Sublist.append (singleton_sublist.2 mem_cons_self)
              (Sublist.cons_cons b (singleton_sublist.2 hxb))
          have ho := hmine o (by simp [hown])
          exact hb' ((hord.together o b x htriple (ho.trans hwho.symm)).trans ho)
  · refine ⟨fun y hy ↦ ?_, pairwise_map.2 ?_⟩
    · obtain ⟨x, hx, rfl⟩ := mem_map.1 hy
      exact hord.nonempty x (hsub.subset hx)
    · refine (hord.ordered.sublist hsub).imp_of_mem fun hx hy hxy ↦ ?_
      exact hxy ((hmine _ hx).trans (hmine _ hy).symm)

theorem applyLock_finished {front own back : List ℕ} (hrow : Row s c front own back)
    (hfront : (s.iFlock inode).takeWhile (s.skips c) = front)
    (hrest : (s.iFlock inode).dropWhile (s.skips c) = own ++ back) (hcare : Careful s c own) :
    ∃ past ahead pre w, past ++ ahead = own ∧ Walked s c front past ahead back pre w ∧
      Finished w (c + 1) pre (ahead ++ back) ((s.applyLock inode c).iFlock inode)
        (s.applyLock inode c) := by
  obtain ⟨past, ahead, hown, hahead, hwalked⟩ := hrow.walk.scanLocks hrow hcare
  set r := scanLocks (own ++ back) front
    { st := s, caller := c, left := none, right := none, added := false }
  have hs := hrow.setup
  have hloop := (hs.frame (append_assoc _ _ _)).scanLocks hs (by simp [LeftOk]) rfl
  have hfin := (hloop.written hs fun hun ↦ hwalked.unlck (hwalked.frame.type ▸ hun)).finished
  have hst : s.applyLock inode c = { (r.2.2.finish (c + 1) (c + 2) r.1 r.2.1).2 with
      iFlock := update (r.2.2.finish (c + 1) (c + 2) r.1 r.2.1).2.iFlock inode
        (r.2.2.finish (c + 1) (c + 2) r.1 r.2.1).1 } := by
    rw [State.applyLock, hfront, hrest]
  refine ⟨past, ahead, r.1, r.2.2, hown, hwalked, ?_⟩
  rw [hst, ← hahead]
  dsimp only
  rw [update_self]
  exact ⟨hfin.list, hfin.old, hfin.new, hfin.copy⟩

/-- What the call does to the list of the file: the locks of the caller are replaced, and those of
others stay where they are. -/
structure Replaced (s t : State) (inode c : ℕ) (front own own' back : List ℕ) : Prop where
  row : Row s c front own back
  before : s.iFlock inode = front ++ own ++ back
  after : t.iFlock inode = front ++ own' ++ back
  canonical : Canonical (own'.map fun x ↦ (t.lock x).seg)
  holds : ∀ b u, Holds (own'.map fun x ↦ (t.lock x).seg) b u ↔
    if (s.lock c).Covers b then u = (s.lock c).flType ∧ u ≠ .unlck
    else Holds (own.map fun x ↦ (s.lock x).seg) b u
  mine : ∀ x ∈ own', (t.lock x).who = (s.lock c).who
  other : ∀ x ∈ front ++ back, t.lock x = s.lock x
  last : own = [] → back = []

theorem Ok.replaced (h : Ok s ((inode, c) :: callers)) (hord : s.InOrder inode)
    (hcare : (s.lock c).flEnd = offsetMax → ∀ x ∈ s.iFlock inode, (s.lock x).who = (s.lock c).who →
      (s.lock x).flType = (s.lock c).flType → (s.lock x).flEnd + 1 < (s.lock c).flStart) :
    ∃ front own own' back, Replaced s (s.applyLock inode c) inode c front own own' back := by
  have hc : Waiter s c := h.waiter _ mem_cons_self
  obtain ⟨own, back, hlist, hrest, hrow⟩ := h.row hc hord
  obtain ⟨s', l', heq, happ⟩ := applyLock_applied (h.setup hc inode)
  have hl' : (s.applyLock inode c).iFlock inode = l' := by
    rw [heq]
    exact update_self _ _ _
  have hlock : (s.applyLock inode c).lock = s'.lock := by rw [heq]
  have hlast : own = [] → back = [] := by
    rintro rfl
    cases back with
    | nil => rfl
    | cons b back =>
      have hskip := head?_dropWhile_not (s.skips c) (s.iFlock inode)
      rw [hrest] at hskip
      have hmem : b ∈ s.iFlock inode := by
        rw [hlist]
        simp
      have := (skips_eq_true (h.posix inode b hmem)).2 (hrow.other b (by simp))
      simp [this] at hskip
  have hcare' : Careful s c own := by
    intro hmax x hx
    exact hcare hmax x (by rw [hlist]; simp [hx]) (hrow.mine x hx)
  obtain ⟨past, ahead, pre, w, rfl, hwalked, hfin⟩ := applyLock_finished hrow rfl hrest hcare'
  obtain ⟨own', hafter, htable⟩ := hwalked.table hrow hfin
  obtain ⟨hcan, hholds⟩ := hwalked.canonical hrow htable
  refine ⟨_, _, own', back, hrow, hlist, hafter, hcan, hholds, fun x hx ↦ ?_, fun x hx ↦ ?_, hlast⟩
  · have hmem : x ∈ l' := by
      rw [← hl', hafter]
      simp [hx]
    rw [hlock]
    by_cases hxl : x ∈ s.iFlock inode
    · -- a lock of another owner is in front or behind, and not on the list twice
      rw [(happ.like x hxl).who]
      have hnodup := happ.nodup
      rw [← hl', hafter] at hnodup
      rw [hlist] at hxl
      have hno : x ∉ (s.iFlock inode).takeWhile (s.skips c) ∧ x ∉ back := by
        have h1 := nodup_append.1 hnodup
        have h2 := nodup_append.1 h1.1
        exact ⟨fun hf ↦ h2.2.2 x hf x hx rfl, fun hb ↦ h1.2.2 x (mem_append_right _ hx) x hb rfl⟩
      refine hrow.mine x ?_
      simp only [mem_append] at hxl hno ⊢
      tauto
    · exact (happ.new x hmem hxl).1
  · have hxl : x ∈ s.iFlock inode := by
      rw [hlist]
      simp only [mem_append] at hx ⊢
      tauto
    rw [hlock]
    exact (happ.others x hxl (hrow.other x hx)).2

theorem triple_append {x y z : ℕ} {l r : List ℕ} (h : [x, y, z].Sublist (l ++ r)) :
    (x ∈ l ∧ y ∈ l ∧ z ∈ l) ∨ (x ∈ l ∧ y ∈ l ∧ z ∈ r) ∨ (x ∈ l ∧ y ∈ r ∧ z ∈ r) ∨
      [x, y, z].Sublist r := by
  obtain ⟨a, b, heq, ha, hb⟩ := sublist_append_iff.1 h
  match a, heq, ha with
  | [], heq, _ =>
    exact Or.inr (Or.inr (Or.inr (heq ▸ hb)))
  | [_], heq, ha =>
    obtain ⟨rfl, rfl⟩ : x = _ ∧ [y, z] = b := by simpa using heq
    exact Or.inr (Or.inr (Or.inl ⟨ha.subset (by simp), hb.subset (by simp), hb.subset (by simp)⟩))
  | [_, _], heq, ha =>
    obtain ⟨rfl, rfl, rfl⟩ : x = _ ∧ y = _ ∧ [z] = b := by simpa using heq
    exact Or.inr (Or.inl ⟨ha.subset (by simp), ha.subset (by simp), hb.subset (by simp)⟩)
  | [_, _, _], heq, ha =>
    obtain ⟨rfl, rfl, rfl, -⟩ : x = _ ∧ y = _ ∧ z = _ ∧ [] = b := by simpa using heq
    exact Or.inl ⟨ha.subset (by simp), ha.subset (by simp), ha.subset (by simp)⟩
  | _ :: _ :: _ :: _ :: _, heq, _ => simp at heq

variable {t : State} {front own own' back : List ℕ}

/-- The locks of each owner still stand together. -/
theorem Replaced.together (h : Replaced s t inode c front own own' back) (hord : s.InOrder inode)
    {x y z : ℕ} (hsub : [x, y, z].Sublist (t.iFlock inode))
    (hxz : (t.lock x).who = (t.lock z).who) :
    (t.lock y).who = (t.lock x).who := by
  rw [h.after, append_assoc] at hsub
  have hfront : ∀ u ∈ front, (t.lock u).who ≠ (s.lock c).who := fun u hu ↦ by
    rw [h.other u (mem_append_left _ hu)]
    exact h.row.other u (mem_append_left _ hu)
  have hback : ∀ u ∈ back, (t.lock u).who ≠ (s.lock c).who := fun u hu ↦ by
    rw [h.other u (mem_append_right _ hu)]
    exact h.row.other u (mem_append_right _ hu)
  by_cases hx : (t.lock x).who = (s.lock c).who
  · -- two locks of the caller: there are only its locks in between
    have hz := hxz.symm.trans hx
    rcases triple_append hsub with ⟨hxf, -⟩ | ⟨hxf, -⟩ | ⟨hxf, -⟩ | hsub
    · exact absurd hx (hfront x hxf)
    · exact absurd hx (hfront x hxf)
    · exact absurd hx (hfront x hxf)
    · rcases triple_append hsub with ⟨-, hy, -⟩ | ⟨-, -, hzb⟩ | ⟨-, -, hzb⟩ | hsub
      · exact (h.mine y hy).trans hx.symm
      · exact absurd hz (hback z hzb)
      · exact absurd hz (hback z hzb)
      · exact absurd hx (hback x (hsub.subset (by simp)))
  · have hz : (t.lock z).who ≠ (s.lock c).who := hxz ▸ hx
    by_cases hy : (t.lock y).who = (s.lock c).who
    · -- the caller had a lock there before
      exfalso
      have hxz' : x ∈ front ∧ z ∈ back := by
        rcases triple_append hsub with ⟨-, hyf, -⟩ | ⟨-, hyf, -⟩ | ⟨hxf, -, hzr⟩ | hsub
        · exact absurd hy (hfront y hyf)
        · exact absurd hy (hfront y hyf)
        · exact ⟨hxf, (mem_append.1 hzr).resolve_left fun hzo ↦ hz (h.mine z hzo)⟩
        · rcases triple_append hsub with ⟨hxo, -⟩ | ⟨hxo, -⟩ | ⟨hxo, -⟩ | hsub
          · exact absurd (h.mine x hxo) hx
          · exact absurd (h.mine x hxo) hx
          · exact absurd (h.mine x hxo) hx
          · exact absurd hy (hback y (hsub.subset (by simp)))
      cases hown : own with
      | nil =>
        have := hxz'.2
        simp [h.last hown] at this
      | cons o tail =>
        have ho : o ∈ own := by simp [hown]
        have hold : [x, o, z].Sublist (s.iFlock inode) := by
          rw [h.before, append_assoc]
          exact (singleton_sublist.2 hxz'.1).append
            ((singleton_sublist.2 ho).append (singleton_sublist.2 hxz'.2))
        have hwx := h.other x (mem_append_left _ hxz'.1)
        have hwz := h.other z (mem_append_right _ hxz'.2)
        rw [hwx, hwz] at hxz
        have hox := hord.together x o z hold hxz
        rw [h.row.mine o ho, ← hwx] at hox
        exact hx hox.symm
    · -- none of the three is a lock of the caller
      have hmem : ∀ u ∈ [x, y, z], (t.lock u).who ≠ (s.lock c).who := by simp [hx, hy, hz]
      have hin : ∀ u ∈ [x, y, z], u ∈ front ++ back := by
        intro u hu
        have hu' := hsub.subset hu
        have := fun ho ↦ hmem u hu (h.mine u ho)
        simp only [mem_append] at hu' ⊢
        tauto
      have hfilter := hsub.filter fun u ↦ decide ((t.lock u).who ≠ (s.lock c).who)
      rw [filter_eq_self.2 fun u hu ↦ decide_eq_true (hmem u hu), filter_append,
        filter_append, filter_eq_self.2 fun u hu ↦ decide_eq_true (hfront u hu),
        filter_eq_self.2 fun u hu ↦ decide_eq_true (hback u hu),
        filter_eq_nil_iff.2 fun u hu ↦ by simp [h.mine u hu]] at hfilter
      have hold : [x, y, z].Sublist (s.iFlock inode) := by
        refine hfilter.trans ?_
        rw [h.before, append_assoc]
        exact Sublist.append_left (sublist_append_right _ _) _
      have hwx := h.other x (hin x (by simp))
      have hwy := h.other y (hin y (by simp))
      have hwz := h.other z (hin z (by simp))
      rw [hwx, hwz] at hxz
      rw [hwx, hwy]
      exact hord.together x y z hold hxz

theorem Replaced.inOrder (h : Replaced s t inode c front own own' back) (hord : s.InOrder inode) :
    t.InOrder inode := by
  have hsub : (front ++ back).Sublist (s.iFlock inode) := by
    rw [h.before, append_assoc]
    exact Sublist.append_left (sublist_append_right _ _) _
  have hwho : ∀ x ∈ front ++ back, (t.lock x).who ≠ (s.lock c).who := fun x hx ↦ by
    rw [h.other x hx]
    exact h.row.other x hx
  have hold : (front ++ back).Pairwise fun x y ↦ (t.lock x).who = (t.lock y).who →
      (t.lock x).flEnd < (t.lock y).flStart ∧
      ((t.lock x).flType = (t.lock y).flType → (t.lock x).flEnd + 1 < (t.lock y).flStart) := by
    refine (hord.ordered.sublist hsub).imp_of_mem fun hx hy hxy ↦ ?_
    rwa [h.other _ hx, h.other _ hy]
  obtain ⟨hf, hb, hfb⟩ := pairwise_append.1 hold
  refine ⟨fun x y z hs hxz ↦ h.together hord hs hxz, fun x hx ↦ ?_, ?_⟩
  · rw [h.after] at hx
    by_cases hxo : x ∈ own'
    · exact h.canonical.nonempty _ (mem_map_of_mem hxo)
    · have hx' : x ∈ front ++ back := by
        simp only [mem_append] at hx ⊢
        tauto
      rw [h.other x hx']
      exact hord.nonempty x (hsub.subset hx')
  · rw [h.after, append_assoc, pairwise_append, pairwise_append]
    refine ⟨hf, ⟨?_, hb, fun x hx y hy heq ↦ ?_⟩, fun x hx y hy ↦ ?_⟩
    · refine (pairwise_map.1 h.canonical.ordered).imp fun hxy ↦ ?_
      exact fun _ ↦ hxy
    · exact absurd (heq.symm.trans (h.mine x hx)) (hwho y (mem_append_right _ hy))
    · rcases mem_append.1 hy with hy | hy
      · exact fun heq ↦ absurd (heq.trans (h.mine y hy)) (hwho x (mem_append_left _ hx))
      · exact hfb x hx y hy

/-- The bytes an owner has locked, if its locks stand together. -/
theorem locked_iff_holds {who : ℕ × ℕ} {b : ℤ} {u : LockType}
    (hlist : s.iFlock inode = front ++ own ++ back) (hmine : ∀ x ∈ own, (s.lock x).who = who)
    (hother : ∀ x ∈ front ++ back, (s.lock x).who ≠ who) :
    s.Locked inode who b u ↔ Holds (own.map fun x ↦ (s.lock x).seg) b u := by
  constructor
  · rintro ⟨x, hx, hxw, rfl, hb⟩
    have hno : x ∉ front ++ back := fun hfb ↦ hother x hfb hxw
    have hxo : x ∈ own := by
      rw [hlist] at hx
      simp only [mem_append] at hx hno
      tauto
    exact ⟨_, mem_map_of_mem hxo, hb, rfl⟩
  · rintro ⟨y, hy, hb, rfl⟩
    obtain ⟨x, hx, rfl⟩ := mem_map.1 hy
    exact ⟨x, by rw [hlist]; simp [hx], hmine x hx, rfl, hb⟩

/-- The bytes an owner has locked, if its locks are elsewhere. -/
theorem locked_iff_other {who : ℕ × ℕ} {b : ℤ} {u : LockType}
    (hlist : s.iFlock inode = front ++ own ++ back) (hmine : ∀ x ∈ own, (s.lock x).who ≠ who) :
    s.Locked inode who b u ↔ ∃ x ∈ front ++ back, (s.lock x).who = who ∧ (s.lock x).flType = u ∧
      (s.lock x).Covers b := by
  constructor
  · rintro ⟨x, hx, hxw, hcond⟩
    refine ⟨x, ?_, hxw, hcond⟩
    rw [hlist] at hx
    simp only [mem_append] at hx ⊢
    tauto
  · rintro ⟨x, hx, hcond⟩
    refine ⟨x, ?_, hcond⟩
    rw [hlist]
    simp only [mem_append] at hx ⊢
    tauto

/-- **The bytes that are locked.** -/
theorem Replaced.locked (h : Replaced s t inode c front own own' back) (who : ℕ × ℕ) (b : ℤ)
    (u : LockType) : t.Locked inode who b u ↔
      if who = (s.lock c).who ∧ (s.lock c).Covers b then u = (s.lock c).flType ∧ u ≠ .unlck
      else s.Locked inode who b u := by
  by_cases hme : who = (s.lock c).who
  · subst hme
    have hother : ∀ x ∈ front ++ back, (t.lock x).who ≠ (s.lock c).who := fun x hx ↦ by
      rw [h.other x hx]
      exact h.row.other x hx
    rw [locked_iff_holds h.after h.mine hother,
      locked_iff_holds h.before h.row.mine h.row.other, h.holds]
    simp
  · rw [if_neg fun hc ↦ hme hc.1,
      locked_iff_other h.after fun x hx heq ↦ hme (heq.symm.trans (h.mine x hx)),
      locked_iff_other h.before fun x hx heq ↦ hme (heq.symm.trans (h.row.mine x hx))]
    refine exists_congr fun x ↦ and_congr_right fun hx ↦ ?_
    rw [h.other x hx]

end

/-! ## A range that goes to the end of the file -/

section

variable {s : State} {inode c y : ℕ} {l base pre rest : List ℕ} {w : Work} {callers : List (ℕ × ℕ)}

/-- A lock that would have to be merged with the new one is not: the loop is left. -/
theorem Frame.mem_scanLocks (hs : Setup s c l base) (h : Frame s c l base pre rest w)
    (hleft : LeftOk s c base pre w) (hright : w.right = none) (hmax : (s.lock c).flEnd = offsetMax)
    (hy : y ∈ rest) (htype : (s.lock y).flType = (s.lock c).flType)
    (htouch : (s.lock c).flStart ≤ (s.lock y).flEnd + 1) :
    y ∈ (Locks.scanLocks rest pre w).2.1 := by
  induction rest generalizing pre w with
  | nil => exact hy
  | cons fl rest ih =>
    rw [Locks.scanLocks]
    split
    · rename_i hown
      rcases mem_cons.1 hy with rfl | hy
      · obtain ⟨hmem, -, -, hlock⟩ := h.head_ne hs
        have h0 := h.start_nonneg
        have h1 := h.start_le
        have h2 := hs.start_le_end
        have hstop : w.round y = .stop w := by
          have hhi : (w.st.lock w.caller).flEnd = offsetMax :=
            le_antisymm h.end_le (hmax ▸ h.end_ge)
          have hneg := loff_max.trans_le (hs.bounded y hmem).start_nonneg
          rw [Work.round, if_pos (by rw [h.type, hlock, htype]), Work.roundSame]
          rw [hlock, hhi, loff_eq (by omega) (by omega), if_neg (by omega), if_pos hneg]
        rw [hstop]
        exact mem_cons_self
      · have hround := h.round hs hleft hright (h.sameOwner hown)
        generalize w.round fl = r at hround
        cases hround with
        | next h hl hr | delete h hl hr => exact ih h hl hr hy
        | stop | right | both => exact mem_cons_of_mem _ hy
    · exact hy

/-- **A careless caller** leaves a list that is not in order. -/
theorem Ok.not_inOrder (h : Ok s ((inode, c) :: callers)) (hmax : (s.lock c).flEnd = offsetMax)
    (hy : y ∈ s.iFlock inode) (hwho : (s.lock y).who = (s.lock c).who)
    (htype : (s.lock y).flType = (s.lock c).flType)
    (htouch : (s.lock c).flStart ≤ (s.lock y).flEnd + 1) :
    ¬ (s.applyLock inode c).InOrder inode := by
  intro hord
  have hc : Waiter s c := h.waiter _ mem_cons_self
  have hs := h.setup hc inode
  set front := (s.iFlock inode).takeWhile (s.skips c)
  have hlist : s.iFlock inode = front ++ (s.iFlock inode).dropWhile (s.skips c) :=
    takeWhile_append_dropWhile.symm
  have hrest : y ∈ (s.iFlock inode).dropWhile (s.skips c) := by
    rw [hlist] at hy
    refine (mem_append.1 hy).resolve_left fun hf ↦ ?_
    have hposix := h.posix inode y (hlist ▸ hy)
    exact (skips_eq_true hposix).1 (mem_takeWhile_imp hf) hwho
  have hunlck : (s.lock c).flType ≠ .unlck := htype ▸ h.type inode y (hlist ▸ hy)
  have hframe := hs.frame hlist
  have hloop := hframe.scanLocks hs (by simp [LeftOk]) rfl
  have hmem := hframe.mem_scanLocks hs (by simp [LeftOk]) rfl hmax hrest htype htouch
  have happ := hloop.finish hs
  set r := scanLocks ((s.iFlock inode).dropWhile (s.skips c)) front
    { st := s, caller := c, left := none, right := none, added := false }
  have hf := hloop.frame
  have hcaller : r.2.2.caller ≠ c + 1 ∧ r.2.2.caller ≠ c + 2 := by
    rcases hf.caller with heq | ⟨hin, -⟩
    · omega
    · exact (hs.notMem _ (hf.sub.subset (mem_append_left _ hin))).2
  have hfin := (hloop.written hs fun hun ↦ absurd (hf.type.symm.trans hun) hunlck).finished
  set fin := r.2.2.finish (c + 1) (c + 2) r.1 r.2.1
  have hl : (s.applyLock inode c).iFlock inode = fin.1 := update_self _ _ _
  have hlock : (s.applyLock inode c).lock = fin.2.lock := rfl
  have hhi : r.2.2.hi = offsetMax := le_antisymm hf.end_le (hmax ▸ hf.end_ge)
  have hlast : y ∈ fin.1 := by
    rw [hfin.list]
    exact mem_append_right _ hmem
  -- the new lock goes to the end of the file, and stands before the old one
  have hnew : ∃ k, (∃ a b, fin.1 = a ++ b ∧ k ∈ a ∧ y ∈ b) ∧ (fin.2.lock k).who = (s.lock c).who ∧
      (fin.2.lock k).flEnd = offsetMax := by
    cases hadd : r.2.2.added
    · have hin : c + 1 ∈ fin.1 := by
        rw [hfin.list, if_neg (show ¬ (r.2.2.added = true ∨ _) by simp [hadd, hf.type, hunlck])]
        simp
      refine ⟨c + 1, ⟨_, _, hfin.list, ?_, hmem⟩, ?_, ?_⟩
      · rw [if_neg (show ¬ (r.2.2.added = true ∨ _) by simp [hadd, hf.type, hunlck])]
        simp
      · exact (happ.new _ hin fun hold ↦ (hs.notMem _ hold).2.1 rfl).1
      · have hseg := hfin.new hadd (hf.type ▸ hunlck)
        exact (congrArg Seg.stop hseg).trans hhi
    · have hpre := hf.added hadd hunlck
      refine ⟨r.2.2.caller, ⟨_, _, hfin.list, mem_append_left _ hpre, hmem⟩, ?_, ?_⟩
      · rw [hfin.old _ hcaller.1 hcaller.2]
        exact (hf.like _).who.trans hf.who
      · rw [hfin.old _ hcaller.1 hcaller.2, if_neg fun hr ↦ (hloop.of_right hs hr).1.2.2 rfl,
          if_neg fun hl ↦ (hloop.of_left hs hl.1).1.2.2 rfl]
        exact hhi
  obtain ⟨k, ⟨a, b, heq, hka, hyb⟩, hkwho, hkend⟩ := hnew
  have hpair := hord.ordered
  rw [hl, heq, hlock] at hpair
  have hky := (pairwise_append.1 hpair).2.2 k hka y hyb
  have hywho : (fin.2.lock y).who = (s.lock c).who := (happ.like y hy).who.trans hwho
  have hlt := (hky (hkwho.trans hywho.symm)).1
  have hle := (happ.bounded y hlast).start_le
  rw [hkend] at hlt
  exact absurd hle (not_le.2 hlt)

end

/-! ## Every run -/

/-- What a call should do: the bytes of the range are locked as the caller has asked, all others as
they were, and the lists are in order. -/
structure RightAfter (s s' : State) (inode : ℕ) (r : State.Request) : Prop where
  bytes : ∀ i who b t, s'.Locked i who b t ↔
    if i = inode ∧ who = (r.owner, r.pid) ∧ r.start ≤ b ∧ b ≤ r.stop then t = r.type ∧ t ≠ .unlck
    else s.Locked i who b t
  inOrder : ∀ i, s'.InOrder i

/-- The range does not go to the end of the file, or there is no lock of the same owner and type
that it would have to be merged with. -/
def State.Request.Careful (r : State.Request) (s : State) (inode : ℕ) : Prop :=
  r.stop = offsetMax → ∀ x ∈ s.iFlock inode, (s.lock x).who = (r.owner, r.pid) →
    (s.lock x).flType = r.type → (s.lock x).flEnd + 1 < r.start

/-- A call that does not block, succeeds and is careful. -/
def CarefulCall (w : World) (a : Call) : Prop :=
  ∃ inode r memory w', a = .posixLockFile inode r false memory ∧
    w.perform a = .ok (.returned none, w') ∧ r.Careful w.st inode

section

variable {w w' : World} {inode : ℕ} {r : State.Request} {memory : Bool}

/-- A call that succeeds changes the list of the file only. -/
theorem perform_posixLockFile (hw : w.Ok) (hr : r.Valid)
    (he : w.perform (.posixLockFile inode r false memory) = .ok (.returned none, w')) :
    ∃ s, Ok s ((inode, w.st.tick) :: w.asleep) ∧ s.lock w.st.tick = r.fileLock ∧
      s.iFlock = w.st.iFlock ∧ (∀ i, ∀ x ∈ w.st.iFlock i, s.lock x = w.st.lock x) ∧
      w'.st = s.applyLock inode w.st.tick := by
  rcases perform_cases he with ⟨_, _, ha, _⟩ | ⟨s, others, i, c, wait, hb, hrun⟩
  · cases ha
  obtain ⟨hok, hidle⟩ := hb.ok hw hr
  obtain ⟨hlist, hlock⟩ := hb.same hw
  cases hb with
  | posixLockFile =>
    refine ⟨_, hok, update_self _ _ _, hlist, hlock, ?_⟩
    rcases hrun with ⟨e, ho, -⟩ | ⟨s', hrep, rfl⟩
    · simp at ho
    · rcases posixRepeat_cases hrep with ⟨-, rfl, -⟩ | ⟨e, ho, -⟩ | ⟨fl, ho, -⟩
      · rfl
      · simp at ho
      · simp at ho

theorem State.InOrder.congr {s s' : State} {i : ℕ} (h : s.InOrder i)
    (hlist : s'.iFlock i = s.iFlock i)
    (hlock : ∀ x ∈ s.iFlock i, s'.lock x = s.lock x) : s'.InOrder i := by
  refine ⟨fun x y z hsub ↦ ?_, fun x hx ↦ ?_, ?_⟩
  · rw [hlist] at hsub
    rw [hlock x (hsub.subset (by simp)), hlock y (hsub.subset (by simp)),
      hlock z (hsub.subset (by simp))]
    exact h.together x y z hsub
  · rw [hlist] at hx
    rw [hlock x hx]
    exact h.nonempty x hx
  · rw [hlist]
    refine h.ordered.imp_of_mem fun hx hy hxy ↦ ?_
    rwa [hlock _ hx, hlock _ hy]

theorem locked_congr {s s' : State} {i : ℕ} (hlist : s'.iFlock i = s.iFlock i)
    (hlock : ∀ x ∈ s.iFlock i, s'.lock x = s.lock x) (who : ℕ × ℕ) (b : ℤ) (t : LockType) :
    s'.Locked i who b t ↔ s.Locked i who b t := by
  rw [State.Locked, hlist]
  refine exists_congr fun x ↦ and_congr_right fun hx ↦ ?_
  rw [hlock x hx]

/-- **One call**, from a state in which the lists are in order. -/
theorem rightAfter_iff (hw : w.Ok) (hord : ∀ i, w.st.InOrder i) (hr : r.Valid)
    (he : w.perform (.posixLockFile inode r false memory) = .ok (.returned none, w')) :
    RightAfter w.st w'.st inode r ↔ r.Careful w.st inode := by
  obtain ⟨s, hok, hreq, hlist, hlock, hw'⟩ := perform_posixLockFile hw hr he
  have hord' : ∀ i, s.InOrder i := fun i ↦ (hord i).congr (congrFun hlist i) (hlock i)
  have hlocked : ∀ i who b t, s.Locked i who b t ↔ w.st.Locked i who b t :=
    fun i ↦ locked_congr (congrFun hlist i) (hlock i)
  rw [hw']
  constructor
  · intro h hmax x hx hwho htype
    have hx' : x ∈ s.iFlock inode := by rwa [hlist]
    rw [← hlock inode x hx] at hwho htype ⊢
    by_contra hlt
    refine hok.not_inOrder ?_ hx' ?_ ?_ ?_ (h.inOrder inode)
    all_goals rw [hreq]
    · exact hmax
    · exact hwho
    · exact htype
    · exact not_lt.1 hlt
  · intro hcare
    obtain ⟨front, own, own', back, hrep⟩ := hok.replaced (hord' inode) (by
      rw [hreq]
      intro hmax x hx
      have hx' : x ∈ w.st.iFlock inode := by rwa [hlist] at hx
      rw [hlock inode x hx']
      exact hcare hmax x hx')
    refine ⟨fun i who b t ↦ ?_, fun i ↦ ?_⟩
    · by_cases hi : i = inode
      · subst hi
        rw [hrep.locked who b t, hreq, hlocked]
        simp only [true_and]
        rfl
      · obtain ⟨hl, hk⟩ := hok.applyLock_other hi
        rw [if_neg fun hc ↦ hi hc.1, locked_congr hl hk, hlocked]
    · by_cases hi : i = inode
      · rw [hi]
        exact hrep.inOrder (hord' inode)
      · obtain ⟨hl, hk⟩ := hok.applyLock_other hi
        exact (hord' i).congr hl hk

theorem inOrder_of_path {w₀ : World} (h0 : machine.init w₀) (h : machine.Path CarefulCall w₀ w) :
    w.Ok ∧ ∀ i, w.st.InOrder i := by
  induction h with
  | refl =>
    refine ⟨init_ok h0, fun i ↦ ?_⟩
    have hnil := h0.1 i
    refine ⟨fun x y z hsub ↦ ?_, fun x hx ↦ ?_, ?_⟩
    · rw [hnil] at hsub
      simp at hsub
    · rw [hnil] at hx
      simp at hx
    · rw [hnil]
      exact Pairwise.nil
  | @step v _ _ _ hl hP he ih =>
    obtain ⟨inode, r, memory, w', rfl, hperform, hcare⟩ := hP
    obtain ⟨o, he⟩ := exec_eq_ok.1 he
    rw [hperform] at he
    cases he
    have hlegal : Legal v (.posixLockFile inode r false memory) := hl
    exact ⟨ih.1.perform hlegal hperform, ((rightAfter_iff ih.1 ih.2 hl hperform).2 hcare).inOrder⟩

theorem careful_step {w₀ : World} (inode : ℕ) (r : State.Request) (memory : Bool)
    (h : machine.Path CarefulCall w₀ w) (hr : r.Valid)
    (he : w.perform (.posixLockFile inode r false memory) = .ok (.returned none, w'))
    (hcare : r.Careful w.st inode) : machine.Path CarefulCall w₀ w' :=
  h.step (a := .posixLockFile inode r false memory) hr ⟨inode, r, memory, w', rfl, he, hcare⟩
    (exec_eq_ok.2 ⟨_, he⟩)

end

/-- **POSIX locks are the right map of bytes** after a call, in every run of careful calls, exactly
if that call is careful as well. -/
theorem posix_map_iff {w₀ w w' : World} (inode : ℕ) (r : State.Request) (memory : Bool)
    (h0 : machine.init w₀) (h : machine.Path CarefulCall w₀ w) (hr : r.Valid)
    (he : w.perform (.posixLockFile inode r false memory) = .ok (.returned none, w')) :
    RightAfter w.st w'.st inode r ↔ r.Careful w.st inode := by
  obtain ⟨hok, hord⟩ := inOrder_of_path h0 h
  exact rightAfter_iff hok hord hr he

/-- A write lock in the middle of a read lock. -/
theorem posix_map_iff_middle : ∃ w w', machine.Path CarefulCall World.start w ∧
    w.perform (.posixLockFile 0 (.bytes 1 .wrlck 3 5) false true) = .ok (.returned none, w') ∧
    w'.st.iFlock 0 = [5, 4, 1] ∧ RightAfter w.st w'.st 0 (.bytes 1 .wrlck 3 5) := by
  have p₀ : machine.Path CarefulCall World.start World.start := .refl
  have p₁ := careful_step 0 (.bytes 1 .rdlck 0 9) true p₀ (by decide) rfl
    fun h ↦ absurd h (by decide)
  refine ⟨_, _, p₁, rfl, rfl, ?_⟩
  exact (posix_map_iff 0 (.bytes 1 .wrlck 3 5) true ⟨fun _ ↦ rfl, rfl, rfl⟩ p₁ (by decide) rfl).2
    fun h ↦ absurd h (by decide)

/-- A read lock to the end of the file next to one that begins before it: the old one is not merged
with the new one, and stands behind it on the list. -/
theorem posix_map_not_merged : ∃ w w', machine.Path CarefulCall World.start w ∧
    w.perform (.posixLockFile 0 (.bytes 1 .rdlck 5 offsetMax) false true) =
      .ok (.returned none, w') ∧
    w'.st.iFlock 0 = [4, 1] ∧ ¬ RightAfter w.st w'.st 0 (.bytes 1 .rdlck 5 offsetMax) := by
  have p₀ : machine.Path CarefulCall World.start World.start := .refl
  have p₁ := careful_step 0 (.bytes 1 .rdlck 0 9) true p₀ (by decide) rfl
    fun h ↦ absurd h (by decide)
  refine ⟨_, _, p₁, rfl, rfl, fun h ↦ ?_⟩
  have hord := (h.inOrder 0).ordered
  have hlt := ((pairwise_cons.1 hord).1 1 (by decide) rfl).1
  cases hlt

end Linux24.Locks
