import Linux24.Fs.Flock
import Linux24.Fs.PosixRuns

/-!
# A list with locks of three kinds

Leases come first on the list of a file, then locks on the whole file, then POSIX locks.  That is
what `Ok` says, besides that locks on the whole file do not exclude each other, and it is why each
of the loops finds all the entries of its kind.  Every operation keeps it but one: `flock_lock_file`
puts a lock at the head of the list whatever is there.
-/

set_option autoImplicit false

namespace Linux24.Locks
namespace Mixed

open List Function

/-! ## What holds -/

/-- Where the locks of a kind are on the list. -/
def rank : Kind → ℕ
  | .lease => 0
  | .flock => 1
  | .posix => 2

/-- The structures that callers have, with which they may be put on a list: three for each caller of
`posix_lock_file`, one for each caller of `flock_lock_file`. -/
def reserved (posix flock : List ℕ) : List ℕ := (posix.flatMap fun c ↦ [c, c + 1, c + 2]) ++ flock

/-- A list of locks that is as it should be. -/
structure ListOk (s : State) (l : List ℕ) : Prop where
  nodup : l.Nodup
  bounded : ∀ x ∈ l, (s.lock x).Bounded
  type : ∀ x ∈ l, (s.lock x).flFlags ≠ .lease → (s.lock x).flType ≠ .unlck
  sorted : l.Pairwise fun x y ↦ rank (s.lock x).flFlags ≤ rank (s.lock y).flFlags
  exclusive : ∀ x ∈ l, ∀ y ∈ l, (s.lock x).flFlags = .flock → (s.lock y).flFlags = .flock →
    (s.lock x).flFile ≠ (s.lock y).flFile → (s.lock x).flType ≠ .wrlck

/-- A request for a POSIX lock. -/
structure Requests (s : State) (c : ℕ) : Prop where
  flags : (s.lock c).flFlags = .posix
  start_nonneg : 0 ≤ (s.lock c).flStart
  start_le_end : (s.lock c).flStart ≤ (s.lock c).flEnd
  end_le : (s.lock c).flEnd ≤ offsetMax

/-- A lock on the whole file that is not on the list yet. -/
structure Whole (s : State) (f : ℕ) : Prop where
  flags : (s.lock f).flFlags = .flock
  type : (s.lock f).flType ≠ .unlck
  bounded : (s.lock f).Bounded

/-- The state is as it should be, with these callers. -/
structure Ok (s : State) (posix flock : List ℕ) : Prop where
  list : ∀ i, ListOk s (s.iFlock i)
  disjoint : ∀ i j x, x ∈ s.iFlock i → x ∈ s.iFlock j → i = j
  fresh : ∀ i, ∀ x ∈ s.iFlock i, x < s.tick
  nodup : (reserved posix flock).Nodup
  unused : ∀ x ∈ reserved posix flock, x < s.tick ∧ ∀ i, x ∉ s.iFlock i
  requests : ∀ c ∈ posix, Requests s c
  whole : ∀ f ∈ flock, Whole s f

section

variable {s t : State} {posix flock posix' flock' l : List ℕ} {inode c f : ℕ}

theorem mem_reserved_posix (hc : c ∈ posix) :
    c ∈ reserved posix flock ∧ c + 1 ∈ reserved posix flock ∧ c + 2 ∈ reserved posix flock := by
  have hmem : ∀ x ∈ [c, c + 1, c + 2], x ∈ reserved posix flock := fun x hx ↦
    mem_append_left _ (mem_flatMap.2 ⟨c, hc, hx⟩)
  exact ⟨hmem _ (by simp), hmem _ (by simp), hmem _ (by simp)⟩

theorem mem_reserved_flock (hf : f ∈ flock) : f ∈ reserved posix flock :=
  mem_append_right _ hf

theorem bounded_of_whole {fl : FileLock} (hstart : fl.flStart = 0) (hend : fl.flEnd = offsetMax) :
    fl.Bounded := by
  have hmax : offsetMax = 9223372036854775807 := rfl
  refine ⟨hstart.ge, ?_, ?_, ?_⟩ <;> omega

theorem ListOk.congr {l : List ℕ} (h : ListOk s l) (hlock : ∀ x ∈ l, t.lock x = s.lock x) :
    ListOk t l := by
  refine ⟨h.nodup, fun x hx ↦ ?_, fun x hx ↦ ?_, ?_, fun x hx y hy ↦ ?_⟩
  · rw [hlock x hx]
    exact h.bounded x hx
  · rw [hlock x hx]
    exact h.type x hx
  · refine h.sorted.imp_of_mem fun hx hy hxy ↦ ?_
    rwa [hlock _ hx, hlock _ hy]
  · rw [hlock x hx, hlock y hy]
    exact h.exclusive x hx y hy

theorem ListOk.sublist {l l' : List ℕ} (h : ListOk s l) (hsub : l'.Sublist l) : ListOk s l' :=
  ⟨h.nodup.sublist hsub, fun x hx ↦ h.bounded x (hsub.subset hx),
    fun x hx ↦ h.type x (hsub.subset hx), h.sorted.sublist hsub,
    fun x hx y hy ↦ h.exclusive x (hsub.subset hx) y (hsub.subset hy)⟩

theorem Requests.congr (h : Requests s c) (hlock : t.lock c = s.lock c) : Requests t c :=
  ⟨hlock ▸ h.flags, hlock ▸ h.start_nonneg, hlock ▸ h.start_le_end, hlock ▸ h.end_le⟩

theorem Whole.congr (h : Whole s f) (hlock : t.lock f = s.lock f) : Whole t f :=
  ⟨hlock ▸ h.flags, hlock ▸ h.type, hlock ▸ h.bounded⟩

/-- **One list changes.**  It may get structures of a caller that has come to its end, or new
ones. -/
theorem Ok.update (h : Ok s posix flock) (inode : ℕ) (htick : s.tick ≤ t.tick)
    (hother : ∀ j, j ≠ inode → t.iFlock j = s.iFlock j)
    (hlock : ∀ x, x ∉ s.iFlock inode → (x ∈ reserved posix' flock' ∨ ∃ j, x ∈ s.iFlock j) →
      t.lock x = s.lock x)
    (hlist : ListOk t (t.iFlock inode)) (hnew : ∀ x ∈ t.iFlock inode, x ∈ s.iFlock inode ∨
      x < t.tick ∧ (s.tick ≤ x ∨ x ∈ reserved posix flock ∧ x ∉ reserved posix' flock'))
    (hsub : (reserved posix' flock').Sublist (reserved posix flock)) (hposix : posix' ⊆ posix)
    (hflock : flock' ⊆ flock) : Ok t posix' flock' := by
  have hnot : ∀ j, j ≠ inode → ∀ x ∈ s.iFlock j, x ∉ s.iFlock inode :=
    fun j hj x hx hx' ↦ hj (h.disjoint j inode x hx hx')
  have hkeep : ∀ x ∈ reserved posix' flock', t.lock x = s.lock x := fun x hx ↦
    hlock x ((h.unused x (hsub.subset hx)).2 inode) (Or.inl hx)
  -- a structure on another list is not one of those that come to this one
  have hapart : ∀ j, j ≠ inode → ∀ x ∈ s.iFlock j, x ∉ t.iFlock inode := by
    intro j hj x hx hx'
    rcases hnew x hx' with hold | ⟨-, hge | ⟨hres, -⟩⟩
    · exact hnot j hj x hx hold
    · exact absurd (h.fresh j x hx) (by omega)
    · exact (h.unused x hres).2 j hx
  refine {
    list := fun i ↦ ?_
    disjoint := fun i j x hi hj ↦ ?_
    fresh := fun i x hx ↦ ?_
    nodup := h.nodup.sublist hsub
    unused := fun x hx ↦ ⟨(h.unused x (hsub.subset hx)).1.trans_le htick, fun i hi ↦ ?_⟩
    requests := fun c hc ↦ (h.requests c (hposix hc)).congr (hkeep c (mem_reserved_posix hc).1)
    whole := fun f hf ↦ (h.whole f (hflock hf)).congr (hkeep f (mem_reserved_flock hf)) }
  · by_cases hi : i = inode
    · rw [hi]
      exact hlist
    · rw [hother i hi]
      exact (h.list i).congr fun x hx ↦ hlock x (hnot i hi x hx) (Or.inr ⟨i, hx⟩)
  · by_cases hi' : i = inode
    · by_cases hj' : j = inode
      · rw [hi', hj']
      · rw [hother j hj'] at hj
        exact absurd (hi' ▸ hi) (hapart j hj' x hj)
    · rw [hother i hi'] at hi
      by_cases hj' : j = inode
      · exact absurd (hj' ▸ hj) (hapart i hi' x hi)
      · rw [hother j hj'] at hj
        exact h.disjoint i j x hi hj
  · by_cases hi : i = inode
    · rw [hi] at hx
      rcases hnew x hx with hold | ⟨hlt, -⟩
      · exact (h.fresh inode x hold).trans_le htick
      · exact hlt
    · rw [hother i hi] at hx
      exact (h.fresh i x hx).trans_le htick
  · by_cases hin : i = inode
    · rw [hin] at hi
      rcases hnew x hi with hold | ⟨-, hge | ⟨-, hno⟩⟩
      · exact (h.unused x (hsub.subset hx)).2 inode hold
      · exact absurd (h.unused x (hsub.subset hx)).1 (by omega)
      · exact hno hx
    · rw [hother i hin] at hi
      exact (h.unused x (hsub.subset hx)).2 i hi

/-- What has been used does not change. -/
theorem Ok.keep (h : Ok s posix flock) (hlock : ∀ x, x < s.tick → t.lock x = s.lock x)
    (hlist : t.iFlock = s.iFlock) (htick : s.tick ≤ t.tick) : Ok t posix flock := by
  refine h.update 0 htick (fun j _ ↦ congrFun hlist j) (fun x _ hx ↦ hlock x ?_) ?_
    (fun x hx ↦ Or.inl (by rwa [← hlist])) (Sublist.refl _) (Subset.refl _)
    (Subset.refl _)
  · rcases hx with hx | ⟨j, hx⟩
    · exact (h.unused x hx).1
    · exact h.fresh j x hx
  · rw [hlist]
    exact (h.list 0).congr fun x hx ↦ hlock x (h.fresh 0 x hx)

/-- Only who waits has changed. -/
theorem Ok.blocks (h : Ok s posix flock) (hlock : t.lock = s.lock) (hlist : t.iFlock = s.iFlock)
    (htick : t.tick = s.tick) : Ok t posix flock :=
  h.keep (fun x _ ↦ congrFun hlock x) hlist htick.ge

@[simp] theorem setList_iFlock_self (s : State) (inode : ℕ) (l : List ℕ) :
    (s.setList inode l).iFlock inode = l := update_self _ _ _

/-- Locks are taken off a list. -/
theorem Ok.setList (h : Ok s posix flock) (hsub : l.Sublist (s.iFlock inode)) :
    Ok (s.setList inode l) posix flock := by
  have hself := setList_iFlock_self s inode l
  refine h.update inode le_rfl (fun j hj ↦ update_of_ne hj _ _) (fun _ _ _ ↦ rfl) ?_
    (fun x hx ↦ Or.inl ?_) (Sublist.refl _) (Subset.refl _) (Subset.refl _)
  · rw [hself]
    exact ((h.list inode).sublist hsub).congr fun _ _ ↦ rfl
  · rw [hself] at hx
    exact hsub.subset hx

/-! ## Callers come and go -/

theorem reserved_cons_posix (c : ℕ) (posix flock : List ℕ) :
    reserved (c :: posix) flock = [c, c + 1, c + 2] ++ reserved posix flock := by
  rw [reserved, flatMap_cons, append_assoc, reserved]

theorem Ok.leavePosix (h : Ok s (c :: posix) flock) : Ok s posix flock := by
  refine h.update 0 le_rfl (fun _ _ ↦ rfl) (fun _ _ _ ↦ rfl) (h.list 0) (fun _ hx ↦ Or.inl hx) ?_
    (subset_cons_self _ _) (Subset.refl _)
  rw [reserved_cons_posix]
  exact sublist_append_right _ _

theorem Ok.leaveFlock (h : Ok s posix (f :: flock)) : Ok s posix flock :=
  h.update 0 le_rfl (fun _ _ ↦ rfl) (fun _ _ _ ↦ rfl) (h.list 0) (fun _ hx ↦ Or.inl hx)
    ((sublist_cons_self _ _).append_left _) (List.Subset.refl _) (subset_cons_self _ _)

theorem Ok.perm (h : Ok s posix flock) (hposix : posix.Perm posix') (hflock : flock.Perm flock') :
    Ok s posix' flock' := by
  have hres : (reserved posix flock).Perm (reserved posix' flock') :=
    (hposix.flatMap_right _).append hflock
  exact { h with
    nodup := hres.nodup_iff.1 h.nodup
    unused := fun x hx ↦ h.unused x (hres.mem_iff.2 hx)
    requests := fun c hc ↦ h.requests c (hposix.mem_iff.2 hc)
    whole := fun f hf ↦ h.whole f (hflock.mem_iff.2 hf) }

theorem Ok.enterPosix (h : Ok s posix flock) {r : State.Request} (hstart : 0 ≤ r.start)
    (hle : r.start ≤ r.stop) (hstop : r.stop ≤ offsetMax) :
    Ok { s.setLock s.tick r.fileLock with tick := s.tick + 3 } (s.tick :: posix) flock := by
  set t : State := { s.setLock s.tick r.fileLock with tick := s.tick + 3 }
  have hself : t.lock s.tick = r.fileLock := update_self _ _ _
  have ht : Ok t posix flock :=
    h.keep (fun x hx ↦ update_of_ne hx.ne _ _) rfl (Nat.le_add_right _ _)
  have hunused : ∀ x ∈ [s.tick, s.tick + 1, s.tick + 2], s.tick ≤ x ∧ x < t.tick := by
    have htick : t.tick = s.tick + 3 := rfl
    intro x hx
    simp only [mem_cons, not_mem_nil, or_false] at hx
    omega
  refine { ht with nodup := ?_, unused := fun x hx ↦ ?_, requests := fun c hc ↦ ?_ }
  · rw [reserved_cons_posix, nodup_append]
    refine ⟨by simp, h.nodup, fun x hx y hy ↦ ?_⟩
    have := hunused x hx
    have := (h.unused y hy).1
    omega
  · rw [reserved_cons_posix] at hx
    rcases mem_append.1 hx with hx | hx
    · refine ⟨(hunused x hx).2, fun i hi ↦ ?_⟩
      have := (hunused x hx).1
      have := h.fresh i x hi
      omega
    · exact ht.unused x hx
  · rcases mem_cons.1 hc with rfl | hc
    · exact ⟨by rw [hself]; rfl, hself ▸ hstart, hself ▸ hle, hself ▸ hstop⟩
    · exact ht.requests c hc

theorem Ok.enterFlock (h : Ok s posix flock) {type : FlockType} (htype : type ≠ .lock .unlck)
    (file pid : ℕ) :
    Ok { s.setLock s.tick (State.flockMakeLock file pid type) with tick := s.tick + 1 } posix
      (s.tick :: flock) := by
  set t : State := { s.setLock s.tick (State.flockMakeLock file pid type) with tick := s.tick + 1 }
  have hself : t.lock s.tick = State.flockMakeLock file pid type := update_self _ _ _
  have ht : Ok t posix flock :=
    h.keep (fun x hx ↦ update_of_ne hx.ne _ _) rfl (Nat.le_add_right _ _)
  have hperm : (reserved posix (s.tick :: flock)).Perm (s.tick :: reserved posix flock) :=
    perm_middle
  refine { ht with nodup := ?_, unused := fun x hx ↦ ?_, whole := fun f hf ↦ ?_ }
  · rw [hperm.nodup_iff, nodup_cons]
    exact ⟨fun hmem ↦ absurd (h.unused _ hmem).1 (lt_irrefl _), h.nodup⟩
  · rcases mem_cons.1 (hperm.mem_iff.1 hx) with rfl | hx
    · exact ⟨Nat.lt_succ_self _, fun i hi ↦ absurd (h.fresh i _ hi) (lt_irrefl _)⟩
    · exact ht.unused x hx
  · rcases mem_cons.1 hf with rfl | hf
    · refine ⟨by rw [hself]; rfl, ?_, by rw [hself]; exact bounded_of_whole rfl rfl⟩
      rw [hself]
      cases type with
      | lock type => exact fun heq ↦ htype (congrArg _ heq)
      | mand _ _ => exact nofun
    · exact ht.whole f hf

/-! ## Leases -/

/-- Only leases have changed, and neither their kind nor their range. -/
structure LeaseChange (s t : State) : Prop where
  tick : t.tick = s.tick
  iFlock : t.iFlock = s.iFlock
  same : ∀ x, (s.lock x).flFlags ≠ .lease → t.lock x = s.lock x
  lease : ∀ x, t.lock x = { s.lock x with
    flType := (t.lock x).flType
    inProgress := (t.lock x).inProgress
    flBreakTime := (t.lock x).flBreakTime }

theorem LeaseChange.refl (s : State) : LeaseChange s s := ⟨rfl, rfl, fun _ _ ↦ rfl, fun _ ↦ rfl⟩

theorem LeaseChange.flags (h : LeaseChange s t) (x : ℕ) :
    (t.lock x).flFlags = (s.lock x).flFlags := by
  rw [h.lease x]

theorem LeaseChange.trans {u : State} (h : LeaseChange s t) (h' : LeaseChange t u) :
    LeaseChange s u := by
  refine ⟨h'.tick.trans h.tick, h'.iFlock.trans h.iFlock, fun x hx ↦ ?_, fun x ↦ ?_⟩
  · rw [h'.same x (by rwa [h.flags x]), h.same x hx]
  · rw [h'.lease x, h.lease x]

theorem ListOk.lease {l : List ℕ} (h : ListOk s l) (hc : LeaseChange s t) : ListOk t l := by
  refine ⟨h.nodup, fun x hx ↦ ?_, fun x hx hne ↦ ?_, ?_, fun x hx y hy hfx hfy ↦ ?_⟩
  · rw [hc.lease x]
    exact ⟨(h.bounded x hx).1, (h.bounded x hx).2, (h.bounded x hx).3, (h.bounded x hx).4⟩
  · rw [hc.flags x] at hne
    rw [hc.same x hne]
    exact h.type x hx hne
  · refine h.sorted.imp fun hxy ↦ ?_
    rwa [hc.flags, hc.flags]
  · rw [hc.flags] at hfx hfy
    rw [hc.same x (by rw [hfx]; decide), hc.same y (by rw [hfy]; decide)]
    exact h.exclusive x hx y hy hfx hfy

theorem Ok.lease (h : Ok s posix flock) (hc : LeaseChange s t) : Ok t posix flock := by
  refine {
    list := fun i ↦ ?_
    disjoint := ?_
    fresh := ?_
    nodup := h.nodup
    unused := ?_
    requests := fun c hc' ↦ ?_
    whole := fun f hf ↦ ?_ }
  · rw [hc.iFlock]
    exact (h.list i).lease hc
  · rw [hc.iFlock]
    exact h.disjoint
  · rw [hc.iFlock, hc.tick]
    exact h.fresh
  · rw [hc.iFlock, hc.tick]
    exact h.unused
  · have hr := h.requests c hc'
    exact hr.congr (hc.same c (by rw [hr.flags]; decide))
  · have hw := h.whole f hf
    exact hw.congr (hc.same f (by rw [hw.flags]; decide))

variable {fl : ℕ}

theorem LeaseChange.setLock (hfl : (s.lock fl).flFlags = .lease) (type : LockType)
    (inProgress : Bool) (breakTime : ℕ) : LeaseChange s (s.setLock fl { s.lock fl with
      flType := type
      inProgress := inProgress
      flBreakTime := breakTime }) := by
  refine ⟨rfl, rfl, fun x hx ↦ update_of_ne ?_ _ _, fun x ↦ ?_⟩
  · rintro rfl
    exact hx hfl
  by_cases hx : x = fl
  · subst hx
    simp [State.setLock]
  · simp only [State.setLock, update_of_ne hx]

theorem leaseAssign_change (hfl : (s.lock fl).flFlags = .lease) (type : LockType) :
    LeaseChange s (s.leaseAssign fl type) := by
  have h := LeaseChange.setLock hfl type false (s.lock fl).flBreakTime
  exact ⟨h.tick, h.iFlock, h.same, h.lease⟩

theorem breakLease_change (hfl : (s.lock fl).flFlags = .lease) (g : State.Future)
    (breakTime : ℕ) : LeaseChange s (State.breakLease g breakTime fl s) := by
  rw [State.breakLease]
  split
  · exact LeaseChange.refl s
  · exact LeaseChange.setLock hfl _ _ _

theorem foldl_breakLease_change (g : State.Future) (breakTime : ℕ) (fls : List ℕ) (s : State)
    (hfls : ∀ fl ∈ fls, (s.lock fl).flFlags = .lease) :
    LeaseChange s (fls.foldl (fun s fl ↦ State.breakLease g breakTime fl s) s) := by
  induction fls generalizing s with
  | nil => exact LeaseChange.refl s
  | cons fl fls ih =>
    have h := breakLease_change (hfls fl mem_cons_self) g breakTime
    refine h.trans (ih _ fun x hx ↦ ?_)
    rw [h.flags x]
    exact hfls x (mem_cons_of_mem _ hx)

theorem timeOutLoop_change (now : ℕ) (l : List ℕ) (s : State) :
    (State.timeOutLoop now l s).1.Sublist l ∧ LeaseChange s (State.timeOutLoop now l s).2 := by
  induction l generalizing s with
  | nil => exact ⟨Sublist.refl _, LeaseChange.refl s⟩
  | cons fl rest ih =>
    rw [State.timeOutLoop]
    dsimp only
    split
    · rename_i hfl
      split
      · exact ⟨(ih s).1.cons_cons fl, (ih s).2⟩
      · have hc := leaseAssign_change hfl.1 (s.lock fl).flType
        obtain ⟨hsub, hc'⟩ := ih (s.leaseAssign fl (s.lock fl).flType)
        refine ⟨?_, hc.trans hc'⟩
        split
        · exact hsub.cons fl
        · exact hsub.cons_cons fl
    · exact ⟨Sublist.refl _, LeaseChange.refl s⟩

theorem Ok.timeOutLeases (h : Ok s posix flock) (inode now : ℕ) :
    Ok (s.timeOutLeases inode now) posix flock := by
  obtain ⟨hsub, hc⟩ := timeOutLoop_change now (s.iFlock inode) s
  refine (h.lease hc).setList ?_
  rwa [hc.iFlock]

theorem Ok.leaseModify (h : Ok s posix flock) (hfl : (s.lock fl).flFlags = .lease)
    (inode : ℕ) (type : LockType) : Ok (s.leaseModify inode fl type) posix flock := by
  have ht := h.lease (leaseAssign_change hfl type)
  rw [State.leaseModify]
  split
  · exact ht.setList erase_sublist
  · exact ht

theorem mem_leases (h : fl ∈ s.leases inode) : (s.lock fl).flFlags = .lease := by
  simpa using mem_takeWhile_imp h

/-- A new lease comes after the leases there are. -/
theorem Ok.leaseInsert (h : Ok s posix flock) (inode : ℕ) (r : State.LeaseRequest)
    (type : LockType) : Ok (s.leaseInsert inode r type).2 posix flock := by
  rw [State.leaseInsert]
  split_ifs
  · exact h
  · exact h
  · exact h
  · exact h
  set t : State := { s.setLock s.tick (State.leaseAlloc r.file r.owner r.pid type) with
    tick := s.tick + 1 }
  have hself : t.lock s.tick = State.leaseAlloc r.file r.owner r.pid type :=
    update_self _ _ _
  have hflags : (t.lock s.tick).flFlags = .lease := by rw [hself]; rfl
  have ht : Ok t posix flock :=
    h.keep (fun x hx ↦ update_of_ne hx.ne _ _) rfl (Nat.le_add_right _ _)
  have hnotMem : s.tick ∉ s.iFlock inode := fun hx ↦ absurd (h.fresh inode _ hx) (lt_irrefl _)
  have hlist : ListOk t (s.iFlock inode) := ht.list inode
  have hcut : s.leases inode ++ (s.iFlock inode).drop (s.leases inode).length = s.iFlock inode :=
    prefix_iff_eq_append.1 (List.takeWhile_prefix _)
  set before := s.leases inode
  set after := (s.iFlock inode).drop before.length
  rw [← hcut] at hlist hnotMem
  have hperm : (before ++ s.tick :: after).Perm (s.tick :: (before ++ after)) := perm_middle
  have hmem : ∀ x ∈ before ++ s.tick :: after, x = s.tick ∨ x ∈ before ++ after :=
    fun x hx ↦ mem_cons.1 (hperm.mem_iff.1 hx)
  have hnew : ListOk t (before ++ s.tick :: after) := by
    obtain ⟨hbefore, hafter, hcross⟩ := pairwise_append.1 hlist.sorted
    refine ⟨?_, fun x hx ↦ ?_, fun x hx hne ↦ ?_, ?_, fun x hx y hy hfx hfy ↦ ?_⟩
    · rw [hperm.nodup_iff, nodup_cons]
      exact ⟨hnotMem, hlist.nodup⟩
    · rcases hmem x hx with rfl | hx
      · rw [hself]
        exact bounded_of_whole rfl rfl
      · exact hlist.bounded x hx
    · rcases hmem x hx with rfl | hx
      · exact absurd hflags hne
      · exact hlist.type x hx hne
    · refine pairwise_append.2 ⟨hbefore, pairwise_cons.2 ⟨fun y _ ↦ ?_, hafter⟩,
        fun x hx y hy ↦ ?_⟩
      · rw [hflags]
        exact zero_le
      · rcases mem_cons.1 hy with rfl | hy
        · have hx' : (t.lock x).flFlags = .lease := by
            have hlt := h.fresh inode x ((List.takeWhile_prefix _).subset hx)
            rw [show t.lock x = s.lock x from update_of_ne hlt.ne _ _]
            exact mem_leases hx
          rw [hx', hflags]
        · exact hcross x hx y hy
    · rcases hmem x hx with rfl | hx
      · exact absurd (hflags.symm.trans hfx) (by decide)
      rcases hmem y hy with rfl | hy
      · exact absurd (hflags.symm.trans hfy) (by decide)
      exact hlist.exclusive x hx y hy hfx hfy
  have hat := setList_iFlock_self t inode (before ++ s.tick :: after)
  refine h.update inode (Nat.le_add_right _ _) (fun j hj ↦ update_of_ne hj _ _)
    (fun x _ hx ↦ ?_) ?_ (fun x hx ↦ ?_) (Sublist.refl _) (Subset.refl _)
    (Subset.refl _)
  · have hlt : x < s.tick := by
      rcases hx with hx | ⟨j, hx⟩
      · exact (h.unused x hx).1
      · exact h.fresh j x hx
    exact update_of_ne hlt.ne _ _
  · rw [hat]
    exact hnew.congr fun _ _ ↦ rfl
  · rw [hat] at hx
    rcases hmem x hx with rfl | hx
    · exact Or.inr ⟨Nat.lt_succ_self _, Or.inl le_rfl⟩
    · exact Or.inl (hcut ▸ hx)

theorem Ok.fcntlSetlease (h : Ok s posix flock) (inode now : ℕ) (r : State.LeaseRequest) :
    Ok (s.fcntlSetlease inode now r).2 posix flock := by
  have ht := h.timeOutLeases inode now
  rw [State.fcntlSetlease]
  split
  · exact h
  split
  · exact h
  dsimp only
  split
  · exact ht
  split
  · exact ht
  split
  · exact ht
  · rename_i fl type hfl _
    exact ht.leaseModify
      (mem_leases (mem_reverse.1 (mem_of_find?_eq_some hfl))) inode type
  · exact ht
  · exact ht.leaseInsert inode r _

theorem Ok.getLease (h : Ok s posix flock) (inode owner now breakTime : ℕ)
    (write nonblock memory : Bool) :
    Ok (s.getLease inode owner now breakTime write nonblock memory).2 posix flock := by
  have ht : Ok { s.timeOutLeases inode now with tick := s.tick + 1 } posix flock := by
    have htick : (s.timeOutLeases inode now).tick = s.tick :=
      (timeOutLoop_change now (s.iFlock inode) s).2.tick
    exact (h.timeOutLeases inode now).keep (fun _ _ ↦ rfl) rfl (htick.le.trans (Nat.le_succ _))
  rw [State.getLease]
  dsimp only
  split
  · exact ht
  rename_i fl rest hleases
  split
  · exact ht
  rename_i g _
  split
  · exact ht
  have hfls : ∀ x ∈ fl :: rest, ((s.timeOutLeases inode now).lock x).flFlags = .lease := by
    intro x hx
    rw [← hleases] at hx
    exact mem_leases hx
  have hchange := foldl_breakLease_change g (if breakTime = 0 then 0 else now + breakTime)
    (fl :: rest) { s.timeOutLeases inode now with tick := s.tick + 1 } hfls
  split
  · exact ht.lease hchange
  · exact (ht.lease hchange).blocks rfl rfl rfl

theorem Ok.leaseWake (h : Ok s posix flock) (inode newFl now : ℕ) (signal timeout : Bool) :
    Ok (s.leaseWake inode newFl now signal timeout).2 posix flock := by
  have ht : Ok (s.locksDeleteBlock newFl) posix flock := h.blocks rfl rfl rfl
  have ht' : Ok (if timeout then (s.locksDeleteBlock newFl).timeOutLeases inode now
      else s.locksDeleteBlock newFl) posix flock := by
    split
    · exact ht.timeOutLeases inode now
    · exact ht
  rw [State.leaseWake]
  dsimp only
  split
  · exact ht
  split
  · exact ht'
  · exact ht'.blocks rfl rfl rfl

/-! ## Locks on the whole file -/

/-- A loop that ends at the first entry without `q` comes to all those with `p`, if these are first
on the list. -/
theorem mem_takeWhile_of_pairwise {p q : ℕ → Bool} (hpq : ∀ x, p x = true → q x = true) {x : ℕ}
    (hl : l.Pairwise fun x y ↦ p y = true → p x = true) (hx : x ∈ l) (hp : p x = true) :
    x ∈ l.takeWhile q := by
  induction l with
  | nil => exact hx
  | cons a l ih =>
    obtain ⟨ha, hl⟩ := pairwise_cons.1 hl
    rcases mem_cons.1 hx with rfl | hx
    · rw [takeWhile_cons_of_pos (hpq x hp)]
      exact mem_cons_self
    · rw [takeWhile_cons_of_pos (hpq a (ha x hx hp))]
      exact mem_cons_of_mem _ (ih hl hx)

/-- There is no lease of the file. -/
def Leaseless (s : State) (inode : ℕ) : Prop := ∀ x ∈ s.iFlock inode, (s.lock x).flFlags ≠ .lease

instance (s : State) (inode : ℕ) : Decidable (Leaseless s inode) :=
  inferInstanceAs (Decidable (∀ x ∈ s.iFlock inode, _))

/-- Neither this lock nor one on the list is for `LOCK_MAND`. -/
def Unmand (s : State) (inode f : ℕ) : Prop :=
  (s.lock f).mand = none ∧ ∀ x ∈ s.iFlock inode, (s.lock x).mand = none

theorem mem_flocks (h : ListOk s (s.iFlock inode)) (hno : Leaseless s inode) {x : ℕ}
    (hx : x ∈ s.iFlock inode) (hflags : (s.lock x).flFlags = .flock) : x ∈ s.flocks inode := by
  refine mem_takeWhile_of_pairwise (fun _ hx ↦ hx) ?_ hx (decide_eq_true hflags)
  refine h.sorted.imp_of_mem fun {a b} ha _ hab hb ↦ ?_
  have hne := hno a ha
  cases hcase : (s.lock a).flFlags <;> simp_all [rank]

/-- The callers of `flock_lock_file` there are when that with `f` has come to this. -/
def stillFlock (f : ℕ) (flock : List ℕ) : State.FlockOutcome → List ℕ
  | .returned _ => flock
  | .blocks => f :: flock
  | .drains _ => f :: flock

theorem Ok.flockRepeat (h : Ok s posix (f :: flock)) (hno : Leaseless s inode)
    (hm : Unmand s inode f) (wait : Bool) :
    Ok (s.flockRepeat inode f wait).2 posix
      (stillFlock f flock (s.flockRepeat inode f wait).1) := by
  have hw := h.whole f mem_cons_self
  have hlist := h.list inode
  rw [State.flockRepeat]
  split
  · split
    · exact h.blocks rfl rfl rfl
    · exact h.leaveFlock
  rename_i hnone
  have hfree : ∀ x ∈ s.iFlock inode, (s.lock x).flFlags = .flock →
      (s.lock f).flFile ≠ (s.lock x).flFile →
        (s.lock f).flType ≠ .wrlck ∧ (s.lock x).flType ≠ .wrlck := by
    intro x hx hflags hfile
    have hconf := find?_eq_none.1 hnone x (mem_flocks hlist hno hx hflags)
    have htype := hw.type
    rw [FileLock.flockLocksConflict, FileLock.locksConflict, hm.1, hm.2 x hx] at hconf
    cases hcase : (s.lock f).flType <;> simp_all
  have hperm : (reserved posix (f :: flock)).Perm (f :: reserved posix flock) := perm_middle
  have hf := h.unused f (mem_reserved_flock mem_cons_self)
  have hself := setList_iFlock_self s inode (f :: s.iFlock inode)
  refine h.update inode le_rfl (fun j hj ↦ update_of_ne hj _ _) (fun _ _ _ ↦ rfl) ?_
    (fun x hx ↦ ?_) ((sublist_cons_self _ _).append_left _) (Subset.refl _)
    (subset_cons_self _ _)
  · rw [hself]
    refine ⟨nodup_cons.2 ⟨hf.2 inode, hlist.nodup⟩, fun x hx ↦ ?_, fun x hx hne ↦ ?_,
      pairwise_cons.2 ⟨fun x hx ↦ ?_, hlist.sorted⟩, fun x hx y hy hfx hfy hfile ↦ ?_⟩
    · rcases mem_cons.1 hx with rfl | hx
      · exact hw.bounded
      · exact hlist.bounded x hx
    · rcases mem_cons.1 hx with rfl | hx
      · exact hw.type
      · exact hlist.type x hx hne
    · have hne := hno x hx
      show rank (s.lock f).flFlags ≤ rank (s.lock x).flFlags
      rw [hw.flags]
      cases hcase : (s.lock x).flFlags <;> simp_all [rank]
    · rcases mem_cons.1 hx with rfl | hxl
      · rcases mem_cons.1 hy with rfl | hyl
        · exact absurd rfl hfile
        · exact (hfree y hyl hfy hfile).1
      · rcases mem_cons.1 hy with rfl | hyl
        · exact (hfree x hxl hfx hfile.symm).2
        · exact hlist.exclusive x hxl y hyl hfx hfy hfile
  · rw [hself] at hx
    rcases mem_cons.1 hx with rfl | hx
    · have hnodup := nodup_cons.1 (hperm.nodup_iff.1 h.nodup)
      exact Or.inr ⟨hf.1, Or.inr ⟨mem_reserved_flock mem_cons_self, hnodup.1⟩⟩
    · exact Or.inl hx

theorem Ok.flockSearch {wait : Bool} {fuel : ℕ} {o : State.FlockOutcome}
    (h : Ok s posix (f :: flock)) (hno : Leaseless s inode) (hm : Unmand s inode f)
    (he : State.flockSearch inode f wait fuel s = .ok (o, t)) :
    Ok t posix (stillFlock f flock o) := by
  induction fuel generalizing s with
  | zero => cases he
  | succ fuel ih =>
    rw [State.flockSearch] at he
    split at he
    · have hr := h.flockRepeat hno hm wait
      rwa [Except.ok.inj he] at hr
    split at he
    · cases he
      exact h.leaveFlock
    rename_i fl _ _
    have ht : Ok (s.setList inode ((s.iFlock inode).erase fl)) posix (f :: flock) :=
      h.setList erase_sublist
    dsimp only at he
    split at he
    · cases he
      exact ht
    · have hold : ∀ x ∈ (s.setList inode ((s.iFlock inode).erase fl)).iFlock inode,
          x ∈ s.iFlock inode := by
        rw [setList_iFlock_self]
        exact fun x ↦ mem_of_mem_erase
      exact ih ht (fun x hx ↦ hno x (hold x hx)) ⟨hm.1, fun x hx ↦ hm.2 x (hold x hx)⟩ he

theorem Ok.flockUnlock (h : Ok s posix flock) (inode file : ℕ) :
    Ok (s.flockUnlock inode file) posix flock := by
  rw [State.flockUnlock]
  split
  · exact h
  split
  · exact h
  · exact Ok.blocks (h.setList erase_sublist) rfl rfl rfl

theorem Ok.locksRemoveFlock (h : Ok s posix flock) (inode file : ℕ) :
    Ok (s.locksRemoveFlock inode file) posix flock := by
  rw [State.locksRemoveFlock]
  rw [foldl_locksWakeUpBlocks]
  exact Ok.setList (h.blocks rfl rfl rfl) filter_sublist

/-! ## POSIX locks -/

theorem Ok.setup (h : Ok s (c :: posix) flock) (inode : ℕ) :
    Setup s c (s.iFlock inode) ((s.iFlock inode).takeWhile (s.skips c)) := by
  have hr := h.requests c mem_cons_self
  obtain ⟨h0, h1, h2⟩ : c ∈ reserved (c :: posix) flock ∧ c + 1 ∈ reserved (c :: posix) flock ∧
      c + 2 ∈ reserved (c :: posix) flock := mem_reserved_posix mem_cons_self
  have hne : ∀ x ∈ s.iFlock inode, ∀ y ∈ reserved (c :: posix) flock, x ≠ y :=
    fun x hx y hy heq ↦ (h.unused y hy).2 inode (heq ▸ hx)
  refine {
    nodup := (h.list inode).nodup
    notMem := fun x hx ↦ ⟨hne x hx _ h0, hne x hx _ h1, hne x hx _ h2⟩
    bounded := (h.list inode).bounded
    type := fun x hx hp ↦ (h.list inode).type x hx (by rw [hp]; decide)
    subset := (List.takeWhile_prefix _).subset
    posix := fun x hx hno ↦ ?_
    flags := hr.flags
    start_nonneg := hr.start_nonneg
    start_le_end := hr.start_le_end
    end_le := hr.end_le }
  by_contra hp
  refine hno (mem_takeWhile_of_pairwise (p := fun x ↦ decide ((s.lock x).flFlags ≠ .posix))
    (fun y hy ↦ ?_) ?_ hx (decide_eq_true hp))
  · rw [State.skips, decide_eq_false (of_decide_eq_true hy)]
    rfl
  · refine (h.list inode).sorted.imp fun {a b} hab hb ↦ ?_
    have hb' := of_decide_eq_true hb
    refine decide_eq_true fun ha ↦ hb' ?_
    cases hcase : (s.lock b).flFlags <;> simp_all [rank]

/-- The locks of other kinds are before those of the caller, and are not touched. -/
theorem Applied.listOk {s' : State} {l' : List ℕ} (hl : ListOk s (s.iFlock inode))
    (hs : Setup s c (s.iFlock inode) ((s.iFlock inode).takeWhile (s.skips c)))
    (happ : Applied s s' c (s.iFlock inode) ((s.iFlock inode).takeWhile (s.skips c)) l') :
    ListOk s' l' := by
  set base := (s.iFlock inode).takeWhile (s.skips c)
  have hold : ∀ x ∈ l', x ∉ base → (s'.lock x).flFlags = .posix := by
    intro x hx hbase
    by_cases hxl : x ∈ s.iFlock inode
    · rw [happ.like x hxl]
      exact hs.posix x hxl hbase
    · exact (happ.new x hx hxl).2
  have hbase : ListOk s' base :=
    (hl.sublist (takeWhile_sublist _)).congr happ.skipped
  have hmem : ∀ x ∈ l', (s'.lock x).flFlags ≠ .posix → x ∈ base := fun x hx hne ↦ by
    by_contra hno
    exact hne (hold x hx hno)
  refine ⟨happ.nodup, happ.bounded, fun x hx hne ↦ ?_, ?_, fun x hx y hy hfx hfy ↦ ?_⟩
  · by_cases hp : (s'.lock x).flFlags = .posix
    · exact happ.type x hx hp
    · exact hbase.type x (hmem x hx hp) hne
  · obtain ⟨rest, rfl⟩ := happ.front
    have hrest : ∀ x ∈ rest, (s'.lock x).flFlags = .posix := fun x hx ↦
      hold x (mem_append_right _ hx) fun hb ↦ (disjoint_of_nodup_append happ.nodup) hb hx
    have htop : ∀ k y, y ∈ rest → rank k ≤ rank (s'.lock y).flFlags := fun k y hy ↦ by
      rw [hrest y hy]
      cases k <;> decide
    exact pairwise_append.2 ⟨hbase.sorted,
      pairwise_of_forall_mem_list fun _ _ y hy ↦ htop _ y hy, fun _ _ y hy ↦ htop _ y hy⟩
  · exact hbase.exclusive x (hmem x hx (by rw [hfx]; decide)) y
      (hmem y hy (by rw [hfy]; decide)) hfx hfy

theorem Ok.applyLock (h : Ok s (c :: posix) flock) (inode : ℕ) :
    Ok (s.applyLock inode c) posix flock := by
  have hs := h.setup inode
  obtain ⟨s', l', heq, happ⟩ := applyLock_applied hs
  rw [heq]
  have hself := setList_iFlock_self s' inode l'
  have hres := reserved_cons_posix c posix flock
  have hown : ∀ x ∈ [c, c + 1, c + 2],
      x ∈ reserved (c :: posix) flock ∧ x ∉ reserved posix flock := by
    intro x hx
    refine ⟨hres ▸ mem_append_left _ hx, fun hx' ↦ ?_⟩
    have hnodup := h.nodup
    rw [hres] at hnodup
    exact disjoint_of_nodup_append hnodup hx hx'
  have hnew : ∀ x, x ∉ [c, c + 1, c + 2] → x ∉ s.iFlock inode → s'.lock x = s.lock x := by
    intro x hx hxl
    simp only [mem_cons, not_mem_nil, or_false, not_or] at hx
    exact happ.far x hxl hx.1 hx.2.1 hx.2.2
  refine h.update inode happ.tick.ge (fun j hj ↦ ?_) (fun x hx hxr ↦ hnew x (fun hxc ↦ ?_) hx) ?_
    (fun x hx ↦ ?_) (hres ▸ sublist_append_right _ _) (subset_cons_self _ _)
    (Subset.refl _)
  · exact (update_of_ne hj _ _).trans (congrFun happ.iFlock j)
  · rcases hxr with hxr | ⟨j, hxj⟩
    · exact (hown x hxc).2 hxr
    · exact (h.unused x (hown x hxc).1).2 j hxj
  · show ListOk (s'.setList inode l') ((s'.setList inode l').iFlock inode)
    rw [hself]
    exact (Applied.listOk (h.list inode) hs happ).congr fun _ _ ↦ rfl
  · rcases happ.mem x (hself ▸ hx) with hold | hold
    · exact Or.inl hold
    · have hxc : x ∈ [c, c + 1, c + 2] := by
        simp only [mem_cons, not_mem_nil, or_false]
        exact Or.inr hold
      refine Or.inr ⟨?_, Or.inr (hown x hxc)⟩
      exact (h.unused x (hown x hxc).1).1.trans_eq happ.tick.symm

/-- The callers of `posix_lock_file` there are when that with `c` has come to this. -/
def stillPosix (c : ℕ) (posix : List ℕ) : Outcome → List ℕ
  | .returned _ => posix
  | .sleeps => c :: posix

theorem Ok.posixRepeat {wait : Bool} {o : Outcome} (h : Ok s (c :: posix) flock)
    (he : s.posixRepeat inode c wait = .ok (o, t)) : Ok t (stillPosix c posix o) flock := by
  rcases posixRepeat_cases he with ⟨rfl, rfl, -⟩ | ⟨e, rfl, rfl⟩ | ⟨fl, rfl, rfl, -, -⟩
  · exact h.applyLock inode
  · exact h.leavePosix
  · exact h.blocks rfl rfl rfl

theorem Ok.locksRemovePosix (h : Ok s posix flock) (inode owner : ℕ) :
    Ok (s.locksRemovePosix inode owner) posix flock := by
  rw [locksRemovePosix_eq]
  exact Ok.blocks (h.setList filter_sublist) rfl rfl rfl

end

end Mixed
end Linux24.Locks
