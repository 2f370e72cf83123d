import Linux24.Mm.Mmap
import Linux24.Mm.WellFormed

/-!
# `do_munmap` removes a range

What `do_munmap` is for is said by `Vma.outside`: what is left of an area when a range is removed
from the address space is the part below the range and the part above it.  `Mm.doMunmap_spec` says
that `do_munmap` either fails and leaves the areas alone, or leaves of each area what is outside the
range.

The code takes all the areas that overlap the range out of the list and the tree, and then goes
through them from the last one to the first, putting back what is left.  In between the areas that
have been taken out are on no list; `release_eq` follows them by keeping the whole row in view: the
areas in front, the ones still to be dealt with, and what comes after them.
-/

set_option autoImplicit false

namespace Linux24.Vm

open RedBlack Intervals Color List Function

/-! ## Pages -/

theorem dvd_pageAlign (a : ℕ) : 4096 ∣ pageAlign a := Dvd.intro_left _ rfl

theorem pageAlign_le {a b : ℕ} (h : a ≤ b) (hb : 4096 ∣ b) : pageAlign a ≤ b := by
  rw [pageAlign, add32]
  omega

theorem pageAlign_of_dvd {a : ℕ} (h : 4096 ∣ a) (ha : a ≤ taskSize) : pageAlign a = a := by
  rw [taskSize] at ha
  rw [pageAlign, add32]
  omega

theorem add32_of_le_taskSize {a b : ℕ} (h : a + b ≤ taskSize) : add32 a b = a + b :=
  add32_of_lt (h.trans_lt (by decide))

/-! ## What is outside a range -/

namespace Vma

/-- The part of an area below an address. -/
def below (a : Vma) (e : ℕ) : Vma := { a with vmEnd := e }

/-- The part of an area from an address on. -/
def above (a : Vma) (s : ℕ) : Vma :=
  { a with vmStart := s, vmPgoff := add32 a.vmPgoff (pages (sub32 s a.vmStart)) }

/-- What is left of an area when the range from `lo` to `hi` is removed. -/
def outside (lo hi : ℕ) (a : Vma) : List Vma :=
  if a.vmEnd ≤ lo ∨ hi ≤ a.vmStart then [a]
  else
    (if a.vmStart < lo then [a.below lo] else []) ++ (if hi < a.vmEnd then [a.above hi] else [])

variable {a : Vma} {lo hi : ℕ}

theorem outside_of_apart (h : a.vmEnd ≤ lo ∨ hi ≤ a.vmStart) : a.outside lo hi = [a] := if_pos h

theorem row_outside (hlo : 4096 ∣ lo) (hhi : 4096 ∣ hi) (hlt : lo ≤ hi) (p q : ℕ)
    (h : Row p [a] q) : Row p (a.outside lo hi) q := by
  obtain ⟨⟨hp, hne, hs, he⟩, hq⟩ := h
  rw [outside]
  split
  · exact ⟨⟨hp, hne, hs, he⟩, hq⟩
  · rename_i hover
    obtain ⟨h1, h2⟩ := not_or.1 hover
    rw [not_le] at h1 h2
    split <;> split
    · rename_i h3 h4
      exact ⟨⟨hp, h3, hs, hlo⟩, ⟨hlt, h4, hhi, he⟩, hq⟩
    · rename_i h3 h4
      exact ⟨⟨hp, h3, hs, hlo⟩, h1.le.trans hq⟩
    · rename_i h3 h4
      exact ⟨⟨hp.trans h2.le, h4, hhi, he⟩, hq⟩
    · exact hp.trans (hne.le.trans hq)

/-- What is left of an area is part of it, and outside the range. -/
theorem of_mem_outside {b : Vma} (hb : b ∈ a.outside lo hi) :
    (a.vmStart ≤ b.vmStart ∧ b.vmEnd ≤ a.vmEnd) ∧ (b.vmEnd ≤ lo ∨ hi ≤ b.vmStart) ∧
      b.vmFlags = a.vmFlags := by
  rw [outside] at hb
  split at hb
  · rename_i h
    obtain rfl := mem_singleton.1 hb
    exact ⟨⟨le_rfl, le_rfl⟩, h, rfl⟩
  · rename_i hover
    obtain ⟨h1, h2⟩ := not_or.1 hover
    rw [not_le] at h1 h2
    rcases mem_append.1 hb with hb | hb
    · split at hb
      · obtain rfl := mem_singleton.1 hb
        exact ⟨⟨le_rfl, h1.le⟩, Or.inl le_rfl, rfl⟩
      · cases hb
    · split at hb
      · obtain rfl := mem_singleton.1 hb
        exact ⟨⟨h2.le, le_rfl⟩, Or.inr le_rfl, rfl⟩
      · cases hb

end Vma

theorem Account.sum_ite (k : Account) (p : Prop) [Decidable p] (a : Vma) :
    k.sum (if p then [a] else []) = if p then k.value a else 0 := by
  split
  · rw [sum_cons, sum_nil, add_zero]
  · rfl

/-- What an area counts for is what is left of it and what is removed. -/
theorem Account.sum_outside (k : Account) {a : Vma} {lo hi st e : ℕ} (ha : Row 0 [a] taskSize)
    (hlo : 4096 ∣ lo) (hhi : 4096 ∣ hi) (hlt : lo < hi) (hover : a.vmStart < hi ∧ lo < a.vmEnd)
    (hst : st = max a.vmStart lo) (he : e = min a.vmEnd hi) :
    k.sum (a.outside lo hi) + (if k.counts a.vmFlags then (e - st) / 4096 else 0) = k.value a := by
  obtain ⟨⟨-, hne, hs, he'⟩, -⟩ := ha
  rw [Vma.outside, if_neg (by omega), sum_append, sum_ite, sum_ite, value, value, value, Vma.below,
    Vma.above]
  by_cases hc : k.counts a.vmFlags = true
  · simp only [if_pos hc]
    split <;> split <;> omega
  · simp [hc]

/-! ## Putting back what is left -/

namespace Mm

/-- What becomes of the areas `R`, which have been taken out between the areas `f` and `d`, when
what is left of them is put back.  `ids` is what is put back, and `new` the area that has been
allocated for it, if there is one. -/
structure Left (mm mm' : Mm) (lo hi : ℕ) (f R d ids new : List ℕ) : Prop where
  /-- The list and the tree are in step. -/
  linked : mm'.Linked
  /-- What is left is put between the other areas, -/
  list : mm'.mmap = f ++ (ids ++ d)
  /-- and it is what is outside the range. -/
  outside : ids.map mm'.vma = (R.map mm.vma).flatMap (Vma.outside lo hi)
  /-- It is made of the old areas and the new one. -/
  origin : ∀ y ∈ ids, y ∈ R ∨ y ∈ new
  /-- An area keeps the first part of what is left of it. -/
  kept : ∀ y ∈ R, (mm.vma y).outside lo hi ≠ [] → y ∈ ids
  /-- No other area is changed, -/
  same : ∀ y, y ∉ R → y ∉ new → mm'.vma y = mm.vma y
  /-- and no flags are. -/
  flags : ∀ y ∈ R, (mm'.vma y).vmFlags = (mm.vma y).vmFlags
  /-- No area is allocated. -/
  tick : mm'.tick = mm.tick
  /-- `map_count` counts the areas. -/
  count : mm'.mapCount + R.length = mm.mapCount + ids.length
  /-- The counters lose what is removed. -/
  counter : ∀ k : Account, (k.counter mm' : ZMod 4294967296) - k.sum (ids.map mm'.vma) =
    k.counter mm - k.sum (R.map mm.vma)

variable {mm : Mm} {x lo hi : ℕ} {f d : List ℕ}

theorem setEnd_eq {a : Vma} {e : ℕ} (h : mm.vma x = a) :
    mm.setEnd x e = mm.setVma x (a.below e) := by
  rw [setEnd, h]
  rfl

/-- The area `x`, which overlaps the range, has been taken out between the areas `f` and `d`. -/
structure Detached (mm : Mm) (lo hi : ℕ) (f : List ℕ) (x : ℕ) (d : List ℕ) : Prop where
  linked : mm.Linked
  list : mm.mmap = f ++ d
  row : Row 0 ((f ++ x :: d).map mm.vma) taskSize
  old : x < mm.tick
  pos : 0 < mm.mapCount
  dvd_lo : 4096 ∣ lo
  dvd_hi : 4096 ∣ hi
  lt : lo < hi
  overlap : (mm.vma x).vmStart < hi ∧ lo < (mm.vma x).vmEnd

section Detached

variable {len : ℕ} (h : mm.Detached lo hi f x d)
include h

theorem Detached.outside_eq : (mm.vma x).outside lo hi =
    (if (mm.vma x).vmStart < lo then [(mm.vma x).below lo] else []) ++
      (if hi < (mm.vma x).vmEnd then [(mm.vma x).above hi] else []) :=
  if_neg (not_or.2 ⟨h.overlap.2.not_ge, h.overlap.1.not_ge⟩)

theorem Detached.nodup : (f ++ x :: d).Nodup := (Ordered.of_row h.row).nodup

theorem Detached.row_outside :
    Row 0 (f.map mm.vma ++ ((mm.vma x).outside lo hi ++ d.map mm.vma)) taskSize := by
  have hrow := h.row
  rw [map_append] at hrow
  exact Laid.replace [mm.vma x] _ hrow (Vma.row_outside h.dvd_lo h.dvd_hi h.lt.le)

section Overlap

variable (hlen : len = min (mm.vma x).vmEnd hi - max (mm.vma x).vmStart lo)
include hlen

/-- The counters lose what is removed, whatever is put back. -/
theorem Detached.counter {mm' : Mm} (k : Account)
    (hk : k.counter mm' = k.counter (mm.decMapCount.unaccount len (mm.vma x).vmFlags)) :
    (k.counter mm' : ZMod 4294967296) - k.sum ((mm.vma x).outside lo hi) =
      k.counter mm - k.sum ([x].map mm.vma) := by
  obtain ⟨hlo, hne, hhi, hs, he⟩ :=
    h.row.of_mem (mem_map_of_mem (mem_append_right f mem_cons_self))
  have hsum := k.sum_outside ⟨⟨hlo, hne, hs, he⟩, hhi⟩ h.dvd_lo h.dvd_hi h.lt h.overlap rfl rfl
  have hdec : k.counter mm.decMapCount = k.counter mm := by cases k <;> rfl
  rw [← hlen] at hsum
  rw [hk, k.cast_counter_unaccount, map_singleton, Account.sum_cons, Account.sum_nil,
    add_zero, ← hsum, Nat.cast_add, hdec, pages]
  ring

theorem Detached.left {mm' : Mm} {ids new : List ℕ} (hlinked : mm'.Linked)
    (hlist : mm'.mmap = f ++ (ids ++ d)) (hmap : ids.map mm'.vma = (mm.vma x).outside lo hi)
    (horigin : ∀ y ∈ ids, y = x ∨ y ∈ new) (hkept : ids = [] ∨ x ∈ ids)
    (hsame : ∀ y, y ≠ x → y ∉ new → mm'.vma y = mm.vma y)
    (hflags : (mm'.vma x).vmFlags = (mm.vma x).vmFlags) (htick : mm'.tick = mm.tick)
    (hcount : mm'.mapCount + 1 = mm.mapCount + ids.length)
    (hk : ∀ k : Account,
      k.counter mm' = k.counter (mm.decMapCount.unaccount len (mm.vma x).vmFlags)) :
    Left mm mm' lo hi f [x] d ids new where
  linked := hlinked
  list := hlist
  outside := by rw [hmap, map_singleton, flatMap_singleton]
  origin := by simpa using horigin
  kept y hy hne := by
    obtain rfl := mem_singleton.1 hy
    refine hkept.resolve_left fun hnil ↦ hne ?_
    rw [← hmap, hnil, map_nil]
  same y hy := hsame y (mt mem_singleton.2 hy)
  flags := by simpa using hflags
  tick := htick
  count := hcount
  counter k := by
    rw [hmap]
    exact h.counter hlen k (hk k)

theorem Detached.left_nil (hnil : (mm.vma x).outside lo hi = []) :
    Left mm (mm.decMapCount.unaccount len (mm.vma x).vmFlags) lo hi f [x] d [] [] :=
  h.left hlen (h.linked.congr rfl rfl h.linked.cache le_rfl) h.list hnil.symm (by simp)
    (Or.inl rfl) (fun _ _ _ ↦ rfl) rfl rfl (Nat.sub_add_cancel h.pos) fun _ ↦ rfl

theorem Detached.left_one {b : Vma}
    (hb : (mm.vma x).outside lo hi = [b]) (hflags : b.vmFlags = (mm.vma x).vmFlags) :
    ∃ mm', ((mm.decMapCount.unaccount len (mm.vma x).vmFlags).setVma x b).insertVmStruct x =
        .ok mm' ∧ Left mm mm' lo hi f [x] d [x] [] := by
  have hrow := h.row_outside
  rw [hb] at hrow
  have hl : ((mm.decMapCount.unaccount len (mm.vma x).vmFlags).setVma x b).Linked :=
    h.linked.congr rfl rfl h.linked.cache le_rfl
  obtain ⟨T, hins, hlinked⟩ := hl.insertVmStruct_eq h.list (by
      change Row 0 ((f ++ x :: d).map (update mm.vma x b)) taskSize
      rw [map_update_append h.nodup]
      exact hrow) h.old
  have hself : update mm.vma x b x = b := update_self _ _ _
  refine ⟨_, hins, h.left hlen hlinked rfl ?_ (by simp) (by simp)
    (fun y hy _ ↦ update_of_ne hy _ _) ((congrArg Vma.vmFlags hself).trans hflags) rfl ?_
    fun k ↦ by cases k <;> rfl⟩
  · rw [hb]
    exact congrArg (fun a ↦ [a]) hself
  · change mm.mapCount - 1 + 1 + 1 = mm.mapCount + 1
    rw [Nat.sub_add_cancel h.pos]

/-- Two parts are left, and the second one is a new area. -/
theorem Detached.left_two {n : ℕ} {b c : Vma}
    (hbc : (mm.vma x).outside lo hi = [b, c]) (hflags : b.vmFlags = (mm.vma x).vmFlags)
    (hn : n < mm.tick) (hnew : n ∉ f ++ x :: d) :
    ∃ mm₁ mm', (((mm.decMapCount.unaccount len (mm.vma x).vmFlags).setVma n c).setVma x
        b).insertVmStruct n = .ok mm₁ ∧ mm₁.insertVmStruct x = .ok mm' ∧
      Left mm mm' lo hi f [x] d [x, n] [n] := by
  have hrow := h.row_outside
  rw [hbc] at hrow
  obtain ⟨hnf, hnxd⟩ := not_or.1 (mt mem_append.2 hnew)
  obtain ⟨hnx, hnd⟩ := not_or.1 (mt mem_cons.2 hnxd)
  obtain ⟨hxf, hxd⟩ : x ∉ f ∧ x ∉ d := by
    have hnodup := nodup_cons.1 (nodup_middle.1 h.nodup)
    exact not_or.1 (mt mem_append.2 hnodup.1)
  set v := update (update mm.vma n c) x b with hv
  have hvx : v x = b := update_self _ _ _
  have hvn : v n = c := by rw [hv, update_of_ne hnx, update_self]
  have hvf : f.map v = f.map mm.vma := by rw [map_update hxf, map_update hnf]
  have hvd : d.map v = d.map mm.vma := by rw [map_update hxd, map_update hnd]
  have hl : (((mm.decMapCount.unaccount len (mm.vma x).vmFlags).setVma n c).setVma x b).Linked :=
    h.linked.congr rfl rfl h.linked.cache le_rfl
  obtain ⟨T, hins, hlinked⟩ := hl.insertVmStruct_eq h.list (by
      change Row 0 ((f ++ n :: d).map v) taskSize
      rw [map_append, map_cons, hvf, hvd, hvn]
      exact hrow.sublist (by simp)) hn
  obtain ⟨T', hins', hlinked'⟩ := hlinked.insertVmStruct_eq rfl (by
      change Row 0 ((f ++ x :: n :: d).map v) taskSize
      rw [map_append, map_cons, map_cons, hvf, hvd, hvn, hvx]
      exact hrow) h.old
  refine ⟨_, _, hins, hins', h.left hlen hlinked' rfl ?_ (by simp) (by simp) (fun y hyx hyn ↦ ?_)
    ((congrArg Vma.vmFlags hvx).trans hflags) rfl ?_ fun k ↦ by cases k <;> rfl⟩
  · change [v x, v n] = _
    rw [hbc, hvx, hvn]
  · change v y = _
    rw [hv, update_of_ne hyx, update_of_ne (mt mem_singleton.2 hyn)]
  · change mm.mapCount - 1 + 1 + 1 + 1 = mm.mapCount + 2
    rw [Nat.sub_add_cancel h.pos]

end Overlap

/-- **`unmap_fixup` puts back what is left of an area.** -/
theorem Detached.unmapFixup_eq {extra : Option ℕ} {st : ℕ} (hst : st = max (mm.vma x).vmStart lo)
    (hlen : len = min (mm.vma x).vmEnd hi - st)
    (hextra : hi < (mm.vma x).vmEnd → ∃ n, extra = some n ∧ n < mm.tick ∧ n ∉ f ++ x :: d) :
    ∃ extra' mm' ids new, mm.decMapCount.unmapFixup x st len extra = .ok (extra', mm') ∧
      Left mm mm' lo hi f [x] d ids new ∧ (∀ n ∈ new, extra = some n) ∧
      ((mm.vma x).vmEnd ≤ hi → new = []) := by
  obtain ⟨hlo, hne, hle, -, -⟩ :=
    h.row.of_mem (mem_map_of_mem (mem_append_right f mem_cons_self))
  have hover := h.overlap
  have hend : add32 st len = min (mm.vma x).vmEnd hi := by
    clear hextra
    have hlt := h.lt
    rw [taskSize] at hle
    rw [add32_of_lt (by omega)]
    omega
  have houtside := h.outside_eq
  subst hst
  rw [unmapFixup.eq_def]
  have hvma : mm.decMapCount.vma x = mm.vma x := rfl
  simp only [hend, hvma]
  by_cases hs : (mm.vma x).vmStart < lo <;> by_cases he : hi < (mm.vma x).vmEnd
  · rw [if_pos hs, if_pos he] at houtside
    obtain ⟨n, rfl, hn, hnew⟩ := hextra he
    obtain ⟨mm₁, mm', hins, hins', hleft⟩ := h.left_two hlen houtside rfl hn hnew
    refine ⟨none, mm', [x, n], [n], ?_, hleft, by simp, fun hle ↦ absurd he hle.not_gt⟩
    have hxn : x ≠ n := fun hxn ↦ hnew (hxn ▸ mem_append_right f mem_cons_self)
    have hset : ((mm.decMapCount.unaccount len (mm.vma x).vmFlags).setVma n
        ((mm.vma x).above hi)).setEnd x lo = _ := setEnd_eq (update_of_ne hxn _ _)
    rw [max_eq_right hs.le, min_eq_right he.le, if_neg fun hc ↦ hs.ne' hc.1, if_neg he.ne,
      if_neg hs.ne']
    exact (bind_ok ((congrArg (insertVmStruct · n) hset).trans hins) _).trans (bind_ok hins' _)
  · rw [if_pos hs, if_neg he] at houtside
    obtain ⟨mm', hins, hleft⟩ := h.left_one hlen houtside rfl
    refine ⟨extra, mm', [x], [], ?_, hleft, by simp, fun _ ↦ rfl⟩
    rw [max_eq_right hs.le, min_eq_left (not_lt.1 he), if_neg fun hc ↦ hs.ne' hc.1, if_pos rfl]
    exact bind_ok hins _
  · rw [if_neg hs, if_pos he] at houtside
    obtain ⟨mm', hins, hleft⟩ := h.left_one hlen houtside rfl
    refine ⟨extra, mm', [x], [], ?_, hleft, by simp, fun _ ↦ rfl⟩
    rw [max_eq_left (not_lt.1 hs), min_eq_right he.le, if_neg fun hc ↦ he.ne hc.2, if_neg he.ne,
      if_pos rfl]
    exact bind_ok hins _
  · rw [if_neg hs, if_neg he] at houtside
    refine ⟨extra, _, [], [], ?_, h.left_nil hlen houtside, by simp, fun _ ↦ rfl⟩
    rw [max_eq_left (not_lt.1 hs), min_eq_left (not_lt.1 he), if_pos ⟨rfl, rfl⟩]

/-- One iteration of the second loop of `do_munmap`. -/
theorem Detached.release_cons {extra : Option ℕ} (free : List ℕ) (hlen : add32 lo len = hi)
    (hextra : hi < (mm.vma x).vmEnd → ∃ n, extra = some n ∧ n < mm.tick ∧ n ∉ f ++ x :: d) :
    ∃ extra' mm' ids new,
      release lo len mm (x :: free) extra = release lo len mm' free extra' ∧
      Left mm mm' lo hi f [x] d ids new ∧ (∀ n ∈ new, extra = some n) ∧
      ((mm.vma x).vmEnd ≤ hi → new = []) := by
  obtain ⟨-, hne, hle, -, -⟩ :=
    h.row.of_mem (mem_map_of_mem (mem_append_right f mem_cons_self))
  have hst : (if lo < (mm.vma x).vmStart then (mm.vma x).vmStart else lo) =
      max (mm.vma x).vmStart lo := by
    rw [max_comm, max_def_lt]
  have hend : (if (mm.vma x).vmEnd < hi then (mm.vma x).vmEnd else hi) =
      min (mm.vma x).vmEnd hi := by
    rw [min_def_lt]
  have hsub : sub32 (min (mm.vma x).vmEnd hi) (max (mm.vma x).vmStart lo) =
      min (mm.vma x).vmEnd hi - max (mm.vma x).vmStart lo := by
    have hlt := h.lt
    have hover := h.overlap
    rw [taskSize] at hle
    exact sub32_of_le (by omega) (by omega)
  obtain ⟨extra', mm', ids, new, hfix, hleft⟩ := h.unmapFixup_eq rfl hsub hextra
  refine ⟨extra', mm', ids, new, ?_, hleft⟩
  have hlt : ¬ min (mm.vma x).vmEnd hi ≤ max (mm.vma x).vmStart lo := by
    have hlt := h.lt
    have hover := h.overlap
    omega
  rw [release]
  simp only [hlen, hst, hend, if_neg hlt]
  exact bind_ok hfix _

end Detached

theorem Left.refl (h : mm.Linked) (heq : mm.mmap = f ++ d) : Left mm mm lo hi f [] d [] [] :=
  ⟨h, heq, rfl, by simp, by simp, fun _ _ _ ↦ rfl, fun _ _ ↦ rfl, rfl, rfl, fun _ ↦ rfl⟩

/-- What is left of some areas, and then of those in front of them. -/
theorem Left.trans {mm₁ mm₂ : Mm} {R₁ R₂ ids₁ ids₂ new : List ℕ}
    (h₁ : Left mm mm₁ lo hi f R₁ d ids₁ new) (h₂ : Left mm₁ mm₂ lo hi f R₂ (ids₁ ++ d) ids₂ [])
    (hR₁ : ∀ y ∈ R₂, y ∉ R₁) (hnew : ∀ y ∈ R₂, y ∉ new) :
    Left mm mm₂ lo hi f (R₂ ++ R₁) d (ids₂ ++ ids₁) new := by
  have hsame : ∀ y ∈ R₂, mm₁.vma y = mm.vma y := fun y hy ↦ h₁.same y (hR₁ y hy) (hnew y hy)
  have hids : ∀ y ∈ ids₁, mm₂.vma y = mm₁.vma y := by
    refine fun y hy ↦ h₂.same y (fun hy' ↦ ?_) not_mem_nil
    exact (h₁.origin y hy).elim (hR₁ y hy') (hnew y hy')
  have hmap₁ : ids₁.map mm₂.vma = ids₁.map mm₁.vma := map_congr_left hids
  have hmap₂ : R₂.map mm₁.vma = R₂.map mm.vma := map_congr_left hsame
  refine ⟨h₂.linked, by rw [h₂.list, append_assoc], ?_, fun y hy ↦ ?_, fun y hy hne ↦ ?_,
    fun y hy hy' ↦ ?_, fun y hy ↦ ?_, h₂.tick.trans h₁.tick, ?_, fun k ↦ ?_⟩
  · rw [map_append, map_append, flatMap_append, h₂.outside, hmap₁, h₁.outside,
      hmap₂]
  · rcases mem_append.1 hy with hy | hy
    · exact Or.inl (mem_append_left R₁ ((h₂.origin y hy).resolve_right not_mem_nil))
    · exact (h₁.origin y hy).imp (mem_append_right R₂) id
  · rcases mem_append.1 hy with hy | hy
    · exact mem_append_left ids₁ (h₂.kept y hy (by rw [hsame y hy]; exact hne))
    · exact mem_append_right ids₂ (h₁.kept y hy hne)
  · rw [h₂.same y (fun hc ↦ hy (mem_append_left R₁ hc)) not_mem_nil]
    exact h₁.same y (fun hc ↦ hy (mem_append_right R₂ hc)) hy'
  · rcases mem_append.1 hy with hy | hy
    · rw [h₂.flags y hy, hsame y hy]
    · rw [h₂.same y (fun hc ↦ hR₁ y hc hy) not_mem_nil, h₁.flags y hy]
  · have hc₁ := h₁.count
    have hc₂ := h₂.count
    rw [length_append, length_append]
    omega
  · have hk₁ := h₁.counter k
    have hk₂ := h₂.counter k
    rw [hmap₂] at hk₂
    rw [map_append, map_append, Account.sum_append, Account.sum_append, Nat.cast_add,
      Nat.cast_add, hmap₁]
    linear_combination hk₁ + hk₂

/-- **The second loop of `do_munmap` puts back what is left of the areas.** -/
theorem Linked.release_eq {len : ℕ} (hlo : 4096 ∣ lo) (hhi : 4096 ∣ hi) (hlt : lo < hi)
    (hlen : add32 lo len = hi) (free : List ℕ) {mm : Mm} {d : List ℕ} (extra : Option ℕ)
    (h : mm.Linked) (heq : mm.mmap = f ++ d)
    (hrow : Row 0 ((f ++ (free.reverse ++ d)).map mm.vma) taskSize)
    (hfree : ∀ y ∈ free, y < mm.tick ∧ (mm.vma y).vmStart < hi ∧ lo < (mm.vma y).vmEnd)
    (hcount : free.length ≤ mm.mapCount)
    (hextra : ∀ y ∈ free, hi < (mm.vma y).vmEnd →
      ∃ n, extra = some n ∧ n < mm.tick ∧ n ∉ f ++ (free.reverse ++ d)) :
    ∃ mm' ids new, release lo len mm free extra = .ok mm' ∧
      Left mm mm' lo hi f free.reverse d ids new ∧ (∀ n ∈ new, extra = some n) ∧
      ((∀ y ∈ free, (mm.vma y).vmEnd ≤ hi) → new = []) := by
  induction free generalizing mm d extra with
  | nil => exact ⟨mm, [], [], rfl, .refl h heq, by simp, fun _ ↦ rfl⟩
  | cons x free ih =>
    rw [reverse_cons, append_assoc, singleton_append] at hrow hextra
    obtain ⟨⟨hx, hover⟩, hfree⟩ := forall_mem_cons.1 hfree
    have hsub : (f ++ x :: d).Sublist (f ++ (free.reverse ++ x :: d)) :=
      Sublist.append_left (sublist_append_right _ _) f
    have hnodup := (Ordered.of_row hrow).nodup
    have hdet : mm.Detached lo hi f x d :=
      ⟨h, heq, hrow.sublist (hsub.map _), hx, Nat.zero_lt_of_lt hcount, hlo, hhi, hlt, hover⟩
    obtain ⟨extra', mm₁, ids₁, new, hstep, hleft, hnew, hnil⟩ :=
      hdet.release_cons free hlen fun hhx ↦ (hextra x mem_cons_self hhx).imp
        fun n hn ↦ ⟨hn.1, hn.2.1, fun hc ↦ hn.2.2 (hsub.subset hc)⟩
    -- the areas that are still to come are others than those just dealt with
    obtain ⟨hxf, hxr, hxd⟩ : x ∉ f ∧ x ∉ free ∧ x ∉ d := by
      rw [← append_assoc, nodup_middle, nodup_cons] at hnodup
      simpa using hnodup.1
    have hfreex : ∀ y ∈ free, y ≠ x := fun y hy ↦ ne_of_mem_of_not_mem hy hxr
    have hfresh : ∀ n ∈ new, n ∉ f ++ (free.reverse ++ x :: d) := by
      intro n hn
      have hhx : hi < (mm.vma x).vmEnd :=
        not_le.1 fun hc ↦ absurd hn (by rw [hnil hc]; exact not_mem_nil)
      obtain ⟨n', hn', -, hfresh⟩ := hextra x mem_cons_self hhx
      rw [hnew n hn] at hn'
      rw [Option.some.inj hn']
      exact hfresh
    have hsame : ∀ y, y ≠ x → y ∈ f ++ (free.reverse ++ x :: d) → mm₁.vma y = mm.vma y :=
      fun y hyx hy ↦ hleft.same y (fun hc ↦ hyx (mem_singleton.1 hc)) fun hc ↦ hfresh y hc hy
    have hbelow : ∀ y ∈ free, (mm.vma y).vmEnd ≤ (mm.vma x).vmStart := by
      intro y hy
      have ho := (Ordered.of_row hrow).2
      rw [← append_assoc] at ho
      exact (pairwise_append.1 ho).2.2 y (mem_append_right f (mem_reverse.2 hy)) x
        mem_cons_self
    have hfree₁ : ∀ y ∈ free, mm₁.vma y = mm.vma y :=
      fun y hy ↦ hsame y (hfreex y hy) (by simp [hy])
    have hrow₁ : Row 0 ((f ++ (free.reverse ++ (ids₁ ++ d))).map mm₁.vma) taskSize := by
      have hf : f.map mm₁.vma = f.map mm.vma := map_congr_left fun y hy ↦
        hsame y (ne_of_mem_of_not_mem hy hxf) (mem_append_left _ hy)
      have hd : d.map mm₁.vma = d.map mm.vma := map_congr_left fun y hy ↦
        hsame y (ne_of_mem_of_not_mem hy hxd) (by simp [hy])
      have hr : free.reverse.map mm₁.vma = free.reverse.map mm.vma :=
        map_congr_left fun y hy ↦ hfree₁ y (mem_reverse.1 hy)
      rw [map_append, map_append, map_append, hf, hr, hd, hleft.outside,
        map_singleton, flatMap_singleton, ← append_assoc]
      rw [← append_assoc, map_append, map_append] at hrow
      exact Laid.replace [mm.vma x] _ hrow (Vma.row_outside hlo hhi hlt.le)
    obtain ⟨mm₂, ids₂, new₂, hrel, hleft₂, -, hnil₂⟩ := ih extra' hleft.linked hleft.list hrow₁
      (fun y hy ↦ by rw [hfree₁ y hy, hleft.tick]; exact hfree y hy)
      (by have hc := hleft.count; rw [length_cons] at hcount; simp at hc; omega)
      fun y hy hhy ↦ by
        rw [hfree₁ y hy] at hhy
        exact absurd ((hbelow y hy).trans_lt hover.1) hhy.not_gt
    obtain rfl := hnil₂ fun y hy ↦ by
      rw [hfree₁ y hy]
      exact (hbelow y hy).trans hover.1.le
    refine ⟨mm₂, ids₂ ++ ids₁, new, hstep.trans hrel, ?_, hnew, fun hall ↦
      hnil (hall x mem_cons_self)⟩
    rw [reverse_cons]
    exact hleft.trans hleft₂ (fun y hy hc ↦ hfreex y (mem_reverse.1 hy)
      (mem_singleton.1 hc)) fun y hy hc ↦ hfresh y hc (by simp [mem_reverse.1 hy])

/-! ## `do_munmap` -/

/-- **The first loop of `do_munmap` takes the areas out.** -/
theorem detach_eq (R : List ℕ) {B : List ℕ} (mm : Mm) (free : List ℕ)
    (hR : ∀ x ∈ R, (mm.vma x).vmStart < hi)
    (hB : ∀ x, B.head? = some x → hi ≤ (mm.vma x).vmStart)
    (hin : mm.mmRb.inorder = f ++ (R ++ B)) (hnd : (f ++ (R ++ B)).Nodup)
    (hbal : ∃ n, Balanced mm.mmRb black n) : ∃ T,
    detach f hi mm (R ++ B) free =
      (R.reverse ++ free, { mm with mmap := f ++ B, mmRb := T }) ∧
    T.inorder = f ++ B ∧ ∃ n, Balanced T black n := by
  induction R generalizing mm free with
  | nil =>
    refine ⟨mm.mmRb, ?_, hin, hbal⟩
    cases B with
    | nil => rw [nil_append, append_nil]; rfl
    | cons x B => exact if_neg (hB x rfl).not_gt
  | cons x R ih =>
    obtain ⟨hx, hR⟩ := forall_mem_cons.1 hR
    obtain ⟨n, hbal⟩ := hbal
    obtain ⟨hin', hbal'⟩ := remove_spec (x := x) (by rw [hin]; simp) (by rw [hin]; exact hnd) hbal
    rw [cons_append, nodup_middle, nodup_cons] at hnd
    have herase : (f ++ (x :: R ++ B)).erase x = f ++ (R ++ B) := by
      rw [erase_append_right _ fun hc ↦ hnd.1 (mem_append_left _ hc), cons_append, erase_cons_head]
    rw [hin, herase] at hin'
    obtain ⟨T, hdet, hT⟩ := ih { mm with mmRb := remove x mm.mmRb } (x :: free) hR hB hin'
      hnd.2 hbal'
    refine ⟨T, ?_, hT⟩
    rw [cons_append, detach, if_pos hx, hdet, reverse_cons, append_assoc]
    rfl

/-- What `do_munmap` does when it succeeds. -/
structure Unmapped (mm mm' : Mm) (lo hi : ℕ) : Prop where
  wf : mm'.WellFormed
  /-- What is outside the range is left, -/
  areas : mm'.areas = mm.areas.flatMap (Vma.outside lo hi)
  /-- an area keeps the first part of it, -/
  kept : ∀ x ∈ mm.mmap, (mm.vma x).outside lo hi ≠ [] → x ∈ mm'.mmap
  /-- and its flags. -/
  flags : ∀ x ∈ mm.mmap, (mm'.vma x).vmFlags = (mm.vma x).vmFlags
  /-- The counters follow. -/
  drift : ∀ k, mm'.drift k = mm.drift k
  tick : mm.tick ≤ mm'.tick

/-- If no area overlaps the range, there is nothing to do. -/
theorem WellFormed.unmapped_self (h : mm.WellFormed)
    (hapart : ∀ a ∈ mm.areas, a.vmEnd ≤ lo ∨ hi ≤ a.vmStart) : mm.Unmapped mm lo hi := by
  refine ⟨h, ?_, fun x hx _ ↦ hx, fun _ _ ↦ rfl, fun _ ↦ rfl, le_rfl⟩
  rw [flatMap_congr (fun a ha ↦ Vma.outside_of_apart (hapart a ha)), flatMap_singleton']

/-- What is left of the areas that overlap the range, together with the others. -/
theorem Left.unmapped {mm₁ mm' : Mm} {l R B ids new : List ℕ}
    (hleft : Left mm₁ mm' lo hi l R B ids new) (h : mm.WellFormed) (hlo : 4096 ∣ lo)
    (hhi : 4096 ∣ hi) (hlt : lo < hi) (heq : mm.mmap = l ++ (R ++ B))
    (hl : ∀ x ∈ l, (mm.vma x).vmEnd ≤ lo) (hB : ∀ x ∈ B, hi ≤ (mm.vma x).vmStart)
    (hvma : mm₁.vma = mm.vma) (hcount : mm₁.mapCount = mm.mapCount) (htick : mm.tick ≤ mm₁.tick)
    (hcounter : ∀ k : Account, k.counter mm₁ = k.counter mm) (hnew : ∀ y ∈ new, y ∉ mm.mmap) :
    mm.Unmapped mm' lo hi := by
  have hnd := h.nodup
  rw [heq] at hnd hnew
  have hdis : ∀ y, y ∈ l ∨ y ∈ B → y ∉ R := by
    intro y hy hyR
    rw [nodup_append', nodup_append'] at hnd
    rcases hy with hy | hy
    · exact hnd.2.2 hy (mem_append_left B hyR)
    · exact hnd.2.1.2.2 hyR hy
  have hsame : ∀ y, y ∈ l ∨ y ∈ B → mm'.vma y = mm.vma y := by
    intro y hy
    rw [hleft.same y (hdis y hy) fun hc ↦ hnew y hc (by rcases hy with hy | hy <;> simp [hy]), hvma]
  have hmap : ∀ m : List ℕ, (∀ y ∈ m, y ∈ l ∨ y ∈ B) → m.map mm'.vma = m.map mm.vma ∧
      (m.map mm.vma).flatMap (Vma.outside lo hi) = m.map mm.vma := by
    intro m hm
    refine ⟨map_congr_left fun y hy ↦ hsame y (hm y hy), ?_⟩
    have hapart : ∀ y ∈ m, (mm.vma y).outside lo hi = [mm.vma y] := fun y hy ↦
      Vma.outside_of_apart ((hm y hy).imp (hl y) (hB y))
    rw [flatMap_map, flatMap_congr hapart, map_eq_flatMap]
  obtain ⟨hmapl, houtl⟩ := hmap l fun _ ↦ Or.inl
  obtain ⟨hmapB, houtB⟩ := hmap B fun _ ↦ Or.inr
  have hareas : mm'.areas = mm.areas.flatMap (Vma.outside lo hi) := by
    rw [areas, areas, hleft.list, heq, map_append, map_append, map_append,
      map_append, flatMap_append, flatMap_append, hmapl, hmapB, houtl, houtB,
      hleft.outside, hvma]
  have hrow : Row 0 mm'.areas taskSize := by
    rw [hareas]
    exact h.row.flatMap fun a _ ↦ Vma.row_outside hlo hhi hlt.le
  refine ⟨.of_row hleft.linked ?_ hrow, hareas, fun x hx hne ↦ ?_, fun x hx ↦ ?_, fun k ↦ ?_,
    htick.trans hleft.tick.ge⟩
  · have hc := hleft.count
    have hc' := h.count
    rw [heq] at hc'
    rw [hleft.list]
    simp only [length_append] at hc' ⊢
    omega
  · rw [heq, mem_append, mem_append] at hx
    rw [hleft.list, mem_append, mem_append]
    rw [← hvma] at hne
    exact hx.imp id fun hx ↦ hx.imp (fun hx ↦ hleft.kept x hx hne) id
  · rw [heq, mem_append, mem_append] at hx
    rcases hx with hx | hx | hx
    · rw [hsame x (Or.inl hx)]
    · rw [hleft.flags x hx, hvma]
    · rw [hsame x (Or.inr hx)]
  · have hk := hleft.counter k
    rw [hcounter, hvma] at hk
    rw [drift, drift, areas, areas, hleft.list, heq]
    simp only [map_append, Account.sum_append, Nat.cast_add, hmapl, hmapB]
    linear_combination hk

/-- The row is cut at the first area that starts at or after an address. -/
theorem exists_split_start (hi : ℕ) {m : List ℕ} (hm : Ordered mm.vma m) : ∃ R B, m = R ++ B ∧
    (∀ x ∈ R, (mm.vma x).vmStart < hi) ∧ ∀ x ∈ B, hi ≤ (mm.vma x).vmStart := by
  induction m with
  | nil => exact ⟨[], [], rfl, by simp, by simp⟩
  | cons x m ih =>
    have hpair := pairwise_cons.1 hm.2
    by_cases hx : (mm.vma x).vmStart < hi
    · obtain ⟨R, B, rfl, hR, hB⟩ := ih ⟨fun y hy ↦ hm.1 y (mem_cons_of_mem x hy), hpair.2⟩
      exact ⟨x :: R, B, rfl, forall_mem_cons.2 ⟨hx, hR⟩, hB⟩
    · refine ⟨[], x :: m, rfl, by simp, forall_mem_cons.2 ⟨not_lt.1 hx, fun y hy ↦ ?_⟩⟩
      exact (not_lt.1 hx).trans ((hm.1 x mem_cons_self).le.trans (hpair.1 y hy))

/-- The two loops of `do_munmap` remove the range. -/
theorem WellFormed.unmapAreas_spec {l r : List ℕ} {n len : ℕ} (h : mm.WellFormed) (hlo : 4096 ∣ lo)
    (hhi : 4096 ∣ hi) (hlt : lo < hi) (hlen : add32 lo len = hi) (hc : mm.Cut lo l r)
    (hn : n < mm.tick) (hfresh : n ∉ mm.mmap) :
    ∃ mm', mm.unmapAreas lo len l.getLast? n = .ok mm' ∧ mm.Unmapped mm' lo hi := by
  have ho := h.ordered
  have hor : Ordered mm.vma r := by
    rw [hc.eq] at ho
    exact ⟨fun x hx ↦ ho.1 x (mem_append_right l hx), (pairwise_append.1 ho.2).2.1⟩
  obtain ⟨R, B, rfl, hR, hB⟩ := exists_split_start hi hor
  have hchain : l.getLast?.elim ([], mm.mmap)
      (fun p ↦ (Chain.upTo p mm.mmap, Chain.after p mm.mmap)) = (l, R ++ B) := by
    rcases eq_nil_or_concat l with rfl | ⟨l', p, rfl⟩
    · rw [hc.eq]
      rfl
    · have hnd := h.nodup
      rw [hc.eq, concat_eq_append, append_assoc] at hnd
      have hp : p ∉ l' := fun hp ↦ disjoint_of_nodup_append hnd hp mem_cons_self
      rw [hc.eq, concat_eq_append, getLast?_concat, append_assoc]
      exact Prod.ext (Chain.upTo_append hp) (Chain.after_append hp)
  have hnd := h.nodup
  rw [hc.eq] at hnd
  obtain ⟨T, hdet, hT, hbal⟩ := detach_eq R mm [] hR
    (fun x hx ↦ hB x (mem_of_head? hx)) (by rw [h.inorder, hc.eq]) hnd h.balanced
  have hlinked : Linked { mm with mmap := l ++ B, mmRb := T, mmapCache := none } := by
    refine ⟨hT, hbal, fun x hx ↦ (by cases hx), fun x hx ↦ h.old x ?_⟩
    rw [hc.eq]
    exact (sublist_append_right R B).append_left l |>.subset hx
  have hrow := h.row
  rw [areas, hc.eq] at hrow
  obtain ⟨mm', ids, new, hrel, hleft, hnew, -⟩ := Linked.release_eq hlo hhi hlt hlen
    R.reverse (some n) hlinked rfl (by rw [reverse_reverse]; exact hrow)
    (fun y hy ↦ by
      rw [mem_reverse] at hy
      exact ⟨h.old y (by rw [hc.eq]; simp [hy]), hR y hy, hc.lt y (mem_append_left B hy)⟩)
    (by
      have hcount : mm.mapCount = _ := h.count
      rw [hc.eq] at hcount
      rw [hcount, length_reverse]
      simp only [length_append]
      omega)
    fun y _ _ ↦ ⟨n, rfl, hn, by rw [reverse_reverse, ← hc.eq]; exact hfresh⟩
  rw [reverse_reverse] at hleft
  refine ⟨mm', ?_, hleft.unmapped h hlo hhi hlt hc.eq hc.le hB rfl rfl le_rfl
    (fun k ↦ by cases k <;> rfl) fun y hy ↦ ?_⟩
  · rw [unmapAreas, hchain]
    simp only [hlen, hdet, append_nil]
    exact hrel
  · rw [← Option.some.inj (hnew y hy)]
    exact hfresh

/-- **`do_munmap` fails and leaves the areas alone, or removes the range.**  It never faults. -/
theorem WellFormed.doMunmap_spec (h : mm.WellFormed) (E : Env) (addr len : ℕ) :
    (∃ e t, mm.doMunmap E addr len = .ok (e, { mm with tick := t }) ∧ e ≠ 0 ∧ mm.tick ≤ t) ∨
      ∃ mm', mm.doMunmap E addr len = .ok (0, mm') ∧
        (4096 ∣ addr ∧ 0 < pageAlign len ∧ addr + pageAlign len ≤ taskSize) ∧
        mm.Unmapped mm' addr (addr + pageAlign len) := by
  rw [doMunmap]
  split
  · exact Or.inl ⟨err eInval, mm.tick, rfl, by decide, le_rfl⟩
  rename_i harg
  obtain ⟨haddr, -, hlen⟩ : 4096 ∣ addr ∧ addr ≤ taskSize ∧ pageAlign len ≤ taskSize - addr := by
    rw [not_or, not_or, not_not, not_lt, not_lt] at harg
    obtain ⟨haddr, hle, hlen⟩ := harg
    rw [sub32_of_le (by decide) hle] at hlen
    have hdvd : 4096 ∣ addr := Nat.dvd_of_mod_eq_zero haddr
    exact ⟨hdvd, hle, pageAlign_le hlen (Nat.dvd_sub (by decide) hdvd)⟩
  dsimp only
  split
  · exact Or.inl ⟨err eInval, mm.tick, rfl, by decide, le_rfl⟩
  rename_i hpos
  have hend : addr + pageAlign len ≤ taskSize := by omega
  have hadd : add32 addr (pageAlign len) = addr + pageAlign len := add32_of_le_taskSize hend
  have hrange : 4096 ∣ addr ∧ 0 < pageAlign len ∧ addr + pageAlign len ≤ taskSize :=
    ⟨haddr, Nat.pos_of_ne_zero hpos, hend⟩
  obtain ⟨l, r, hc⟩ := exists_cut h.ordered addr
  cases r with
  | nil =>
    refine Or.inr ⟨mm, bind_ok (h.toLinked.findVmaPrev_nil hc) _, hrange, h.unmapped_self ?_⟩
    rw [areas, hc.eq, append_nil, forall_mem_map]
    exact fun x hx ↦ Or.inl (hc.le x hx)
  | cons x r =>
    rw [bind_ok (h.toLinked.findVmaPrev_cons h.ordered hc)]
    dsimp only
    rw [hadd]
    split
    · rename_i hx
      refine Or.inr ⟨mm, rfl, hrange, h.unmapped_self ?_⟩
      have ho := h.ordered
      rw [hc.eq] at ho
      rw [areas, hc.eq, forall_mem_map, forall_mem_append, forall_mem_cons]
      refine ⟨fun y hy ↦ Or.inl (hc.le y hy), Or.inr hx, fun y hy ↦ Or.inr (hx.trans ?_)⟩
      exact (ho.1 x (by simp)).le.trans
        ((pairwise_cons.1 (pairwise_append.1 ho.2).2.1).1 y hy)
    split
    · exact Or.inl ⟨err eNomem, mm.tick, rfl, by decide, le_rfl⟩
    rcases mm.kmemCacheAlloc_cases E with halloc | halloc <;> rw [halloc]
    · exact Or.inl ⟨err eNomem, mm.tick + 1, rfl, by decide, Nat.le_succ _⟩
    · obtain ⟨mm', hunmap, hspec⟩ := (h.withTick (Nat.le_succ _)).unmapAreas_spec hrange.1
        (dvd_add hrange.1 (dvd_pageAlign len)) (Nat.lt_add_of_pos_right hrange.2.1) hadd
        ⟨hc.eq, hc.le, hc.lt⟩ (Nat.lt_succ_self mm.tick) h.toLinked.tick_notMem
      refine Or.inr ⟨mm', bind_ok hunmap _, hrange, hspec.wf, hspec.areas, hspec.kept, hspec.flags,
        hspec.drift, (Nat.le_succ _).trans hspec.tick⟩

end Mm
end Linux24.Vm
