import Linux24.Fs.PosixApply

/-!
# Runs of `posix_lock_file`

Any number of tasks call `posix_lock_file`, sleep in it and are woken up, at any time, with or
without a reason.  The machine records who sleeps.

`Ok` is what holds in every state that is reached.  It is stated for a list of callers, those who
sleep and the one who runs, because all that has to be known of either is that its structures are
its own.  `posix_exclusive` is the part that matters to the callers: no two owners have locks on one
byte, unless both are for reading.  The locks are looked at for conflicts before they are merged,
and what a merged lock covers was covered by locks of the same owner and type before, or has been
asked for; the order of the list plays no role.
-/

set_option autoImplicit false

namespace Linux24.Locks

open List Function

/-! ## The calls -/

/-- The calls. -/
inductive Call
  | posixLockFile (inode : ℕ) (r : State.Request) (wait memory : Bool)
  /-- A caller that sleeps goes on. -/
  | wake (inode caller : ℕ) (signal : Bool)
  | locksRemovePosix (inode owner : ℕ)

/-- The locks, and the callers that sleep. -/
structure World where
  st : State
  /-- The file and the structure of each caller. -/
  asleep : List (ℕ × ℕ)

namespace World

/-- The record after a step of a call. -/
def after (asleep : List (ℕ × ℕ)) (inode caller : ℕ) : Outcome × State → Outcome × World
  | (.sleeps, st) => (.sleeps, ⟨st, (inode, caller) :: asleep⟩)
  | (.returned error, st) => (.returned error, ⟨st, asleep⟩)

/-- What a call does up to where it sleeps or returns. -/
def perform (w : World) : Call → Except Fault (Outcome × World)
  | .posixLockFile inode r wait memory =>
    (w.st.posixLockFile inode r wait memory).map (after w.asleep inode w.st.tick)
  | .wake inode caller signal =>
    let others := w.asleep.filter fun e ↦ decide (e.2 ≠ caller)
    (w.st.posixWake inode caller signal).map (after others inode caller)
  | .locksRemovePosix inode owner =>
    .ok (.returned none, { w with st := w.st.locksRemovePosix inode owner })

end World

/-- The range is one of offsets, and is not empty. -/
def State.Request.Valid (r : State.Request) : Prop :=
  0 ≤ r.start ∧ r.start ≤ r.stop ∧ r.stop ≤ offsetMax

instance (r : State.Request) : Decidable r.Valid := inferInstanceAs (Decidable (_ ∧ _ ∧ _))

/-- When a call can be made. -/
def Legal (w : World) : Call → Prop
  | .posixLockFile _ r _ _ => r.Valid
  | .wake inode caller _ => (inode, caller) ∈ w.asleep
  | .locksRemovePosix _ _ => True

instance (w : World) (a : Call) : Decidable (Legal w a) := by
  cases a <;> dsimp only [Legal] <;> infer_instance

/-- The machine of POSIX locks.  No file is locked in the beginning. -/
def machine : Machine World Call Fault where
  init w := (∀ inode, w.st.iFlock inode = []) ∧ w.st.blockedList = [] ∧ w.asleep = []
  legal := Legal
  exec w a := (w.perform a).map Prod.snd

instance (w : World) (a : Call) : Decidable (machine.legal w a) :=
  inferInstanceAs (Decidable (Legal w a))

/-! ## What holds in every state -/

/-- Two locks that cannot both be held. -/
def Clash (x y : FileLock) : Prop :=
  x.who ≠ y.who ∧ x.flType = .wrlck ∧ ∃ b, x.Covers b ∧ y.Covers b

/-- A caller whose request is valid and whose structures are its own. -/
structure Waiter (s : State) (c : ℕ) : Prop where
  fresh : c + 2 < s.tick
  posix : (s.lock c).flFlags = .posix
  start_nonneg : 0 ≤ (s.lock c).flStart
  start_le_end : (s.lock c).flStart ≤ (s.lock c).flEnd
  end_le : (s.lock c).flEnd ≤ offsetMax
  notMem : ∀ inode, ∀ x ∈ s.iFlock inode, x ≠ c ∧ x ≠ c + 1 ∧ x ≠ c + 2

/-- The structures of two callers are not the same. -/
def Apart (e e' : ℕ × ℕ) : Prop := e.2 + 2 < e'.2 ∨ e'.2 + 2 < e.2

instance : Std.Symm Apart := ⟨fun _ _ ↦ Or.symm⟩

/-- The state is as it should be, with these callers. -/
structure Ok (s : State) (callers : List (ℕ × ℕ)) : Prop where
  nodup : ∀ inode, (s.iFlock inode).Nodup
  disjoint : ∀ i j x, x ∈ s.iFlock i → x ∈ s.iFlock j → i = j
  fresh : ∀ inode, ∀ x ∈ s.iFlock inode, x < s.tick
  posix : ∀ inode, ∀ x ∈ s.iFlock inode, (s.lock x).flFlags = .posix
  bounded : ∀ inode, ∀ x ∈ s.iFlock inode, (s.lock x).Bounded
  type : ∀ inode, ∀ x ∈ s.iFlock inode, (s.lock x).flType ≠ .unlck
  exclusive : ∀ inode, ∀ x ∈ s.iFlock inode, ∀ y ∈ s.iFlock inode, ¬ Clash (s.lock x) (s.lock y)
  waiter : ∀ e ∈ callers, Waiter s e.2
  apart : callers.Pairwise Apart
  /-- Those on `blocked_list` are callers, each is there once, and each waits for a lock that is
  held. -/
  waiting : ∀ e ∈ s.blockedList, ∃ inode, (inode, e.1) ∈ callers
  once : (s.blockedList.map Prod.fst).Nodup
  blocker : ∀ e ∈ s.blockedList, ∃ inode, e.2 ∈ s.iFlock inode

/-- The caller is not on `blocked_list`. -/
def Idle (s : State) (c : ℕ) : Prop := ∀ e ∈ s.blockedList, e.1 ≠ c

section

variable {s s' : State} {inode c : ℕ} {callers : List (ℕ × ℕ)}

theorem Waiter.congr (h : Waiter s c) (htick : s.tick ≤ s'.tick) (hlock : s'.lock c = s.lock c)
    (hmem : ∀ inode, ∀ x ∈ s'.iFlock inode, x ≠ c ∧ x ≠ c + 1 ∧ x ≠ c + 2) : Waiter s' c where
  fresh := h.fresh.trans_le htick
  posix := hlock ▸ h.posix
  start_nonneg := hlock ▸ h.start_nonneg
  start_le_end := hlock ▸ h.start_le_end
  end_le := hlock ▸ h.end_le
  notMem := hmem

theorem Ok.setup (h : Ok s callers) (hc : Waiter s c) (inode : ℕ) :
    Setup s c (s.iFlock inode) ((s.iFlock inode).takeWhile (s.skips c)) where
  nodup := h.nodup inode
  notMem := hc.notMem inode
  bounded := h.bounded inode
  type x hx _ := h.type inode x hx
  subset := (List.takeWhile_prefix _).subset
  posix x hx _ := h.posix inode x hx
  flags := hc.posix
  start_nonneg := hc.start_nonneg
  start_le_end := hc.start_le_end
  end_le := hc.end_le

theorem Ok.leave (h : Ok s ((inode, c) :: callers)) (hidle : Idle s c) : Ok s callers := by
  refine { h with
    waiter := fun e he ↦ h.waiter e (mem_cons_of_mem _ he)
    apart := (pairwise_cons.1 h.apart).2
    waiting := fun e he ↦ ?_ }
  obtain ⟨i, hi⟩ := h.waiting e he
  rcases mem_cons.1 hi with heq | hi
  · exact absurd (congrArg Prod.snd heq) (hidle e he)
  · exact ⟨i, hi⟩

theorem Ok.enter (h : Ok s callers) {r : State.Request} (hr : r.Valid) (inode : ℕ) :
    Ok { s.setLock s.tick r.fileLock with tick := s.tick + 3 } ((inode, s.tick) :: callers) ∧
      Idle { s.setLock s.tick r.fileLock with tick := s.tick + 3 } s.tick := by
  set t : State := { s.setLock s.tick r.fileLock with tick := s.tick + 3 }
  have hself : t.lock s.tick = r.fileLock := update_self _ _ _
  have hlock : ∀ x, x < s.tick → t.lock x = s.lock x := fun x hx ↦ update_of_ne hx.ne _ _
  have hheld : ∀ i, ∀ x ∈ s.iFlock i, t.lock x = s.lock x := fun i x hx ↦ hlock x (h.fresh i x hx)
  have htick : t.tick = s.tick + 3 := rfl
  refine ⟨{
    nodup := h.nodup
    disjoint := h.disjoint
    fresh := fun i x hx ↦ (h.fresh i x hx).trans (by omega)
    posix := fun i x hx ↦ by rw [hheld i x hx]; exact h.posix i x hx
    bounded := fun i x hx ↦ by rw [hheld i x hx]; exact h.bounded i x hx
    type := fun i x hx ↦ by rw [hheld i x hx]; exact h.type i x hx
    exclusive := fun i x hx y hy ↦ ?_
    waiter := fun e he ↦ ?_
    apart := pairwise_cons.2 ⟨fun e he ↦ Or.inr (h.waiter e he).fresh, h.apart⟩
    waiting := fun e he ↦ ?_
    once := h.once
    blocker := h.blocker }, fun e he ↦ ?_⟩
  · rw [hheld i x hx, hheld i y hy]
    exact h.exclusive i x hx y hy
  · rcases mem_cons.1 he with rfl | he
    · refine ⟨by dsimp only; omega, ?_, ?_, ?_, ?_, fun i x hx ↦ ?_⟩
      · rw [hself]
        rfl
      · rw [hself]
        exact hr.1
      · rw [hself]
        exact hr.2.1
      · rw [hself]
        exact hr.2.2
      · have hlt := h.fresh i x hx
        omega
    · have hw := h.waiter e he
      have heq := hlock e.2 (by have := hw.fresh; omega)
      exact hw.congr (by omega) heq hw.notMem
  · obtain ⟨i, hi⟩ := h.waiting e he
    exact ⟨i, mem_cons_of_mem _ hi⟩
  · obtain ⟨i, hi⟩ := h.waiting e he
    have := (h.waiter _ hi).fresh
    omega

theorem Ok.resume (h : Ok s callers) (hc : (inode, c) ∈ callers) :
    Ok (s.locksDeleteBlock c) ((inode, c) :: callers.filter fun e ↦ decide (e.2 ≠ c)) ∧
      Idle (s.locksDeleteBlock c) c := by
  have hmem : ∀ e ∈ (s.locksDeleteBlock c).blockedList, e ∈ s.blockedList ∧ e.1 ≠ c := by
    simp [State.locksDeleteBlock]
  refine ⟨{ h with
    waiter := fun e he ↦ ?_
    apart := pairwise_cons.2 ⟨fun e he ↦ ?_, h.apart.filter _⟩
    waiting := fun e he ↦ ?_
    once := h.once.sublist (filter_sublist.map _)
    blocker := fun e he ↦ h.blocker e (hmem e he).1 }, fun e he ↦ (hmem e he).2⟩
  · rcases mem_cons.1 he with rfl | he
    · exact (h.waiter _ hc).congr le_rfl rfl (h.waiter _ hc).notMem
    · have hw := h.waiter e (mem_of_mem_filter he)
      exact hw.congr le_rfl rfl hw.notMem
  · have hne : e.2 ≠ c := by simpa using of_mem_filter he
    exact h.apart.forall hc (mem_of_mem_filter he) fun heq ↦ hne (congrArg Prod.snd heq).symm
  · obtain ⟨i, hi⟩ := h.waiting e (hmem e he).1
    refine ⟨i, mem_cons_of_mem _ (mem_filter.2 ⟨hi, ?_⟩)⟩
    simpa using (hmem e he).2

theorem blockedList_locksInsertBlock (hidle : Idle s c) (fl : ℕ) :
    (s.locksInsertBlock fl c).blockedList = (c, fl) :: s.blockedList := by
  have hall : ∀ e ∈ s.blockedList, decide (e.1 ≠ c) = true := fun e he ↦ decide_eq_true (hidle e he)
  show (c, fl) :: s.blockedList.filter _ = _
  rw [filter_eq_self.2 hall]

theorem Ok.block {fl : ℕ} (h : Ok s ((inode, c) :: callers)) (hidle : Idle s c)
    (hfl : fl ∈ s.iFlock inode) : Ok (s.locksInsertBlock fl c) ((inode, c) :: callers) := by
  have hlist := blockedList_locksInsertBlock hidle fl
  refine { h with
    waiter := fun e he ↦ (h.waiter e he).congr le_rfl rfl (h.waiter e he).notMem
    waiting := fun e he ↦ ?_
    once := ?_
    blocker := fun e he ↦ ?_ }
  · rw [hlist] at he
    rcases mem_cons.1 he with rfl | he
    · exact ⟨inode, mem_cons_self⟩
    · exact h.waiting e he
  · rw [hlist, map_cons, nodup_cons]
    refine ⟨fun hmem ↦ ?_, h.once⟩
    obtain ⟨e, he, heq⟩ := mem_map.1 hmem
    exact hidle e he heq
  · rw [hlist] at he
    rcases mem_cons.1 he with rfl | he
    · exact ⟨inode, hfl⟩
    · exact h.blocker e he

/-! ### The lock is granted -/

/-- A lock that was in the way would have been found. -/
theorem not_clash_of_blocking (hc : (s.lock c).flType ≠ .unlck) (hfree : s.blocking inode c = none)
    {y : ℕ} (hy : y ∈ s.iFlock inode) (hposix : (s.lock y).flFlags = .posix) :
    ¬ Clash (s.lock c) (s.lock y) ∧ ¬ Clash (s.lock y) (s.lock c) := by
  have hno : (s.lock c).posixLocksConflict (s.lock y) ≠ true := find?_eq_none.1 hfree y hy
  rw [FileLock.posixLocksConflict, FileLock.locksSameOwner, FileLock.locksOverlap,
    FileLock.locksConflict] at hno
  have hover : ∀ b, (s.lock c).Covers b → (s.lock y).Covers b →
      (s.lock y).flStart ≤ (s.lock c).flEnd ∧ (s.lock c).flStart ≤ (s.lock y).flEnd :=
    fun b hb hb' ↦ ⟨hb'.1.trans hb.2, hb.1.trans hb'.2⟩
  constructor
  · rintro ⟨hwho, htype, b, hb, hb'⟩
    refine hno ?_
    simp [hposix, hwho, hover b hb hb', htype]
  · rintro ⟨hwho, htype, b, hb', hb⟩
    refine hno ?_
    cases hcase : (s.lock c).flType
    · simp [hposix, hwho.symm, hover b hb hb', htype]
    · simp [hposix, hwho.symm, hover b hb hb']
    · exact absurd hcase hc

/-- No two locks exclude each other afterwards. -/
theorem Applied.exclusive {base l' : List ℕ} (happ : Applied s s' c (s.iFlock inode) base l')
    (hposix : ∀ x ∈ l', (s'.lock x).flFlags = .posix)
    (hposix' : ∀ x ∈ s.iFlock inode, (s.lock x).flFlags = .posix)
    (hold : ∀ x ∈ s.iFlock inode, ∀ y ∈ s.iFlock inode, ¬ Clash (s.lock x) (s.lock y))
    (hfree : (s.lock c).flType = .unlck ∨ s.blocking inode c = none) :
    ∀ x ∈ l', ∀ y ∈ l', ¬ Clash (s'.lock x) (s'.lock y) := by
  rintro x hx y hy ⟨hwho, htype, b, hbx, hby⟩
  have hnone : (s'.lock x).flType = (s.lock c).flType ∨ (s'.lock y).flType = (s.lock c).flType →
      (s.lock c).flType ≠ .unlck ∧ s.blocking inode c = none := by
    intro h
    have hne : (s.lock c).flType ≠ .unlck := by
      rcases h with h | h
      · exact h ▸ happ.type x hx (hposix x hx)
      · exact h ▸ happ.type y hy (hposix y hy)
    exact ⟨hne, hfree.resolve_left hne⟩
  rcases happ.covers x hx b hbx with ⟨hxw, hxt, hxb⟩ | ⟨x', hx', hxw, hxt, hxb⟩
  · obtain ⟨hne, hblock⟩ := hnone (Or.inl hxt)
    rcases happ.covers y hy b hby with ⟨hyw, -, -⟩ | ⟨y', hy', hyw, -, hyb⟩
    · exact hwho (hxw.trans hyw.symm)
    · refine (not_clash_of_blocking hne hblock hy' (hposix' y' hy')).1 ⟨?_, ?_, b, hxb, hyb⟩
      · rwa [hyw, ← hxw]
      · rwa [← hxt]
  · rcases happ.covers y hy b hby with ⟨hyw, hyt, hyb⟩ | ⟨y', hy', hyw, -, hyb⟩
    · obtain ⟨hne, hblock⟩ := hnone (Or.inr hyt)
      refine (not_clash_of_blocking hne hblock hx' (hposix' x' hx')).2 ⟨?_, ?_, b, hxb, hyb⟩
      · rwa [hxw, ← hyw]
      · rwa [hxt]
    · refine hold x' hx' y' hy' ⟨?_, ?_, b, hxb, hyb⟩
      · rwa [hxw, hyw]
      · rwa [hxt]

theorem Ok.applyLock_other (h : Ok s ((inode, c) :: callers)) {j : ℕ} (hj : j ≠ inode) :
    (s.applyLock inode c).iFlock j = s.iFlock j ∧
      ∀ x ∈ s.iFlock j, (s.applyLock inode c).lock x = s.lock x := by
  have hc := h.waiter _ mem_cons_self
  obtain ⟨s', l', heq, happ⟩ := applyLock_applied (h.setup hc inode)
  rw [heq]
  refine ⟨(update_of_ne hj _ _).trans (congrFun happ.iFlock j), fun x hx ↦ ?_⟩
  obtain ⟨h0, h1, h2⟩ := hc.notMem j x hx
  exact happ.far x (fun hx' ↦ hj (h.disjoint j inode x hx hx')) h0 h1 h2

theorem Ok.applyLock (h : Ok s ((inode, c) :: callers)) (hidle : Idle s c)
    (hfree : (s.lock c).flType = .unlck ∨ s.blocking inode c = none) :
    Ok (s.applyLock inode c) callers := by
  have hc := h.waiter _ mem_cons_self
  have hthere : ∀ j, j ≠ inode → (s.applyLock inode c).iFlock j = s.iFlock j :=
    fun j hj ↦ (h.applyLock_other hj).1
  have hfar : ∀ j, j ≠ inode → ∀ x ∈ s.iFlock j, (s.applyLock inode c).lock x = s.lock x :=
    fun j hj ↦ (h.applyLock_other hj).2
  obtain ⟨s', l', heq, happ⟩ := applyLock_applied (h.setup hc inode)
  rw [heq] at hthere hfar ⊢
  set t : State := { s' with iFlock := update s'.iFlock inode l' }
  have hhere : t.iFlock inode = l' := update_self _ _ _
  have htick : t.tick = s.tick := happ.tick
  have hposix : ∀ x ∈ l', (s'.lock x).flFlags = .posix := by
    intro x hx
    by_cases hxl : x ∈ s.iFlock inode
    · rw [happ.like x hxl]
      exact h.posix inode x hxl
    · exact (happ.new x hx hxl).2
  have hrest := h.leave hidle
  -- a list that has changed is that of the file; its locks are old ones or two of the caller's
  have hsplit : ∀ j x, x ∈ t.iFlock j → (j = inode ∧ x ∈ l') ∨
      (j ≠ inode ∧ x ∈ s.iFlock j ∧ t.lock x = s.lock x) := by
    intro j x hx
    by_cases hj : j = inode
    · subst hj
      exact Or.inl ⟨rfl, hhere ▸ hx⟩
    · rw [hthere j hj] at hx
      exact Or.inr ⟨hj, hx, hfar j hj x hx⟩
  have hlock : ∀ j, ∀ x ∈ t.iFlock j, (t.lock x).flFlags = .posix ∧ (t.lock x).Bounded ∧
      (t.lock x).flType ≠ .unlck := by
    intro j x hx
    rcases hsplit j x hx with ⟨-, hx⟩ | ⟨-, hx, heq⟩
    · exact ⟨hposix x hx, happ.bounded x hx, happ.type x hx (hposix x hx)⟩
    · rw [heq]
      exact ⟨h.posix j x hx, h.bounded j x hx, h.type j x hx⟩
  have hnot : ∀ j, j ≠ inode → ∀ x ∈ s.iFlock j, x ∉ l' := by
    intro j hj x hx hx'
    obtain ⟨-, h1, h2⟩ := hc.notMem j x hx
    rcases happ.mem x hx' with hold | hold | hold
    · exact hj (h.disjoint j inode x hx hold)
    · exact h1 hold
    · exact h2 hold
  refine {
    nodup := fun j ↦ ?_
    disjoint := fun i j x hi hj ↦ ?_
    fresh := fun j x hx ↦ ?_
    posix := fun j x hx ↦ (hlock j x hx).1
    bounded := fun j x hx ↦ (hlock j x hx).2.1
    type := fun j x hx ↦ (hlock j x hx).2.2
    exclusive := fun j x hx y hy ↦ ?_
    waiter := fun e he ↦ ?_
    apart := hrest.apart
    waiting := fun e he ↦ hrest.waiting e (happ.blocked.subset he)
    once := h.once.sublist (happ.blocked.map _)
    blocker := fun e he ↦ ?_ }
  · by_cases hj : j = inode
    · rw [hj, hhere]
      exact happ.nodup
    · rw [hthere j hj]
      exact h.nodup j
  · rcases hsplit i x hi with ⟨rfl, hxi⟩ | ⟨hi', hxi, -⟩
    · rcases hsplit j x hj with ⟨rfl, -⟩ | ⟨hj', hxj, -⟩
      · rfl
      · exact absurd hxi (hnot j hj' x hxj)
    · rcases hsplit j x hj with ⟨rfl, hxj⟩ | ⟨-, hxj, -⟩
      · exact absurd hxj (hnot i hi' x hxi)
      · exact h.disjoint i j x hxi hxj
  · rw [htick]
    rcases hsplit j x hx with ⟨-, hx⟩ | ⟨-, hx, -⟩
    · have hlt : c + 2 < s.tick := hc.fresh
      rcases happ.mem x hx with hold | hold | hold
      · exact h.fresh inode x hold
      · omega
      · omega
    · exact h.fresh j x hx
  · rcases hsplit j x hx with ⟨rfl, hxl⟩ | ⟨hj, hxl, heq⟩
    · exact happ.exclusive hposix (h.posix j) (h.exclusive j) hfree x hxl y (hhere ▸ hy)
    · rw [hthere j hj] at hy
      rw [heq, hfar j hj y hy]
      exact h.exclusive j x hxl y hy
  · have hw := hrest.waiter e he
    have hap : c + 2 < e.2 ∨ e.2 + 2 < c := (pairwise_cons.1 h.apart).1 e he
    have hlock : t.lock e.2 = s.lock e.2 :=
      happ.far e.2 (fun hx ↦ (hw.notMem inode e.2 hx).1 rfl) (by omega) (by omega) (by omega)
    refine hw.congr htick.ge hlock fun j x hx ↦ ?_
    rcases hsplit j x hx with ⟨-, hx⟩ | ⟨-, hx, -⟩
    · rcases happ.mem x hx with hold | hold | hold
      · exact hw.notMem inode x hold
      · omega
      · omega
    · exact hw.notMem j x hx
  · obtain ⟨j, hj⟩ := h.blocker e (happ.blocked.subset he)
    refine ⟨j, ?_⟩
    by_cases hji : j = inode
    · subst hji
      rw [hhere]
      exact (happ.gone e.2 hj).resolve_right fun hno ↦ hno e he rfl
    · rwa [hthere j hji]

/-! ### A file is closed -/

theorem foldl_locksWakeUpBlocks (xs : List ℕ) (s : State) : xs.foldl State.locksWakeUpBlocks s =
    { s with blockedList := s.blockedList.filter fun e ↦ decide (e.2 ∉ xs) } := by
  induction xs generalizing s with
  | nil => simp
  | cons x xs ih =>
    rw [foldl_cons, ih]
    simp only [State.locksWakeUpBlocks, filter_filter, mem_cons, not_or]
    congr 2
    funext e
    rw [Bool.decide_and, Bool.and_comm]

theorem locksRemovePosix_eq (s : State) (inode owner : ℕ) : s.locksRemovePosix inode owner =
    { s with
      iFlock := update s.iFlock inode
        ((s.iFlock inode).filter fun fl ↦ !s.isPosixOf owner fl)
      blockedList := s.blockedList.filter fun e ↦
        decide (e.2 ∉ (s.iFlock inode).filter (s.isPosixOf owner)) } := by
  rw [State.locksRemovePosix, foldl_locksWakeUpBlocks]

theorem Ok.locksRemovePosix (h : Ok s callers) (inode owner : ℕ) :
    Ok (s.locksRemovePosix inode owner) callers := by
  rw [locksRemovePosix_eq]
  set kept := (s.iFlock inode).filter fun fl ↦ !s.isPosixOf owner fl with hkept
  have hsub : ∀ j, (update s.iFlock inode kept j).Sublist (s.iFlock j) := by
    intro j
    by_cases hj : j = inode
    · rw [hj, update_self]
      exact filter_sublist
    · rw [update_of_ne hj]
  have hold : ∀ j, ∀ x ∈ update s.iFlock inode kept j, x ∈ s.iFlock j :=
    fun j x hx ↦ (hsub j).subset hx
  refine {
    nodup := fun j ↦ (h.nodup j).sublist (hsub j)
    disjoint := fun i j x hi hj ↦ h.disjoint i j x (hold i x hi) (hold j x hj)
    fresh := fun j x hx ↦ h.fresh j x (hold j x hx)
    posix := fun j x hx ↦ h.posix j x (hold j x hx)
    bounded := fun j x hx ↦ h.bounded j x (hold j x hx)
    type := fun j x hx ↦ h.type j x (hold j x hx)
    exclusive := fun j x hx y hy ↦ h.exclusive j x (hold j x hx) y (hold j y hy)
    waiter := fun e he ↦
      (h.waiter e he).congr le_rfl rfl fun j x hx ↦ (h.waiter e he).notMem j x (hold j x hx)
    apart := h.apart
    waiting := fun e he ↦ h.waiting e (mem_of_mem_filter he)
    once := h.once.sublist (filter_sublist.map _)
    blocker := fun e he ↦ ?_ }
  obtain ⟨hmem, hleft⟩ := mem_filter.1 he
  obtain ⟨j, hj⟩ := h.blocker e hmem
  refine ⟨j, ?_⟩
  dsimp only
  by_cases hji : j = inode
  · subst hji
    rw [update_self, mem_filter]
    simpa [hj] using hleft
  · rwa [update_of_ne hji]

/-! ### One step -/

/-- What becomes of a call at the label `repeat`. -/
theorem posixRepeat_cases {wait : Bool} {o : Outcome}
    (h : s.posixRepeat inode c wait = .ok (o, s')) :
    (o = .returned none ∧ s' = s.applyLock inode c ∧
      ((s.lock c).flType = .unlck ∨ s.blocking inode c = none)) ∨
    (∃ e, o = .returned (some e) ∧ s' = s) ∨
    (∃ fl, o = .sleeps ∧ s' = s.locksInsertBlock fl c ∧ s.blocking inode c = some fl ∧
      s.posixLocksDeadlock c fl = .ok false) := by
  rw [State.posixRepeat] at h
  split at h
  · rename_i ht
    cases h
    exact Or.inl ⟨rfl, rfl, Or.inl ht⟩
  split at h
  · rename_i hb
    cases h
    exact Or.inl ⟨rfl, rfl, Or.inr hb⟩
  rename_i fl hb
  split at h
  · cases h
    exact Or.inr (Or.inl ⟨_, rfl, rfl⟩)
  split at h
  · cases h
  · cases h
    exact Or.inr (Or.inl ⟨_, rfl, rfl⟩)
  · rename_i hd
    cases h
    exact Or.inr (Or.inr ⟨fl, rfl, rfl, hb, hd⟩)

/-- A record that is as it should be. -/
def World.Ok (w : World) : Prop := Locks.Ok w.st w.asleep

theorem Ok.posixRepeat {wait : Bool} {o : Outcome} (h : Ok s ((inode, c) :: callers))
    (hidle : Idle s c) (he : s.posixRepeat inode c wait = .ok (o, s')) :
    (World.after callers inode c (o, s')).2.Ok := by
  rcases posixRepeat_cases he with ⟨rfl, rfl, hfree⟩ | ⟨e, rfl, rfl⟩ | ⟨fl, rfl, rfl, hb, -⟩
  · exact h.applyLock hidle hfree
  · exact h.leave hidle
  · exact h.block hidle (mem_of_find?_eq_some hb)

/-- Where a call is when it comes to the label `repeat`: the state, the other callers, the file, the
structure of the caller, and whether it may wait. -/
inductive Begins (w : World) : Call → State → List (ℕ × ℕ) → ℕ → ℕ → Bool → Prop
  | posixLockFile (inode : ℕ) (r : State.Request) (wait memory : Bool) :
      Begins w (.posixLockFile inode r wait memory)
        { w.st.setLock w.st.tick r.fileLock with tick := w.st.tick + 3 }
        w.asleep inode w.st.tick wait
  | wake (inode c : ℕ) (signal : Bool) : Begins w (.wake inode c signal) (w.st.locksDeleteBlock c)
      (w.asleep.filter fun e ↦ decide (e.2 ≠ c)) inode c true

/-- **The calls.**  A file is closed, or a caller comes to the label `repeat` and then gives up at
once or goes on. -/
theorem perform_cases {w w' : World} {a : Call} {o : Outcome} (he : w.perform a = .ok (o, w')) :
    (∃ inode owner, a = .locksRemovePosix inode owner ∧ o = .returned none ∧
      w' = { w with st := w.st.locksRemovePosix inode owner }) ∨
    ∃ s others inode c wait, Begins w a s others inode c wait ∧
      ((∃ e, o = .returned (some e) ∧ w' = ⟨s, others⟩) ∨
        ∃ s', s.posixRepeat inode c wait = .ok (o, s') ∧
          w' = (World.after others inode c (o, s')).2) := by
  -- the record is the only thing that is added to the result of the function
  have hafter : ∀ {r : Except Fault (Outcome × State)} {others : List (ℕ × ℕ)} {inode c : ℕ},
      r.map (World.after others inode c) = .ok (o, w') →
        ∃ s', r = .ok (o, s') ∧ w' = (World.after others inode c (o, s')).2 := by
    intro r others inode c h
    match r, h with
    | .ok (.sleeps, s'), h =>
      cases h
      exact ⟨s', rfl, rfl⟩
    | .ok (.returned e, s'), h =>
      cases h
      exact ⟨s', rfl, rfl⟩
  cases a with
  | posixLockFile inode r wait memory =>
    refine Or.inr ⟨_, _, _, _, _, .posixLockFile inode r wait memory, ?_⟩
    obtain ⟨s', heq, rfl⟩ := hafter he
    rw [State.posixLockFile] at heq
    split at heq
    · exact Or.inr ⟨s', heq, rfl⟩
    · cases heq
      exact Or.inl ⟨_, rfl, rfl⟩
  | wake inode c signal =>
    refine Or.inr ⟨_, _, _, _, _, .wake inode c signal, ?_⟩
    obtain ⟨s', heq, rfl⟩ := hafter he
    rw [State.posixWake] at heq
    split at heq
    · cases heq
      exact Or.inl ⟨_, rfl, rfl⟩
    · exact Or.inr ⟨s', heq, rfl⟩
  | locksRemovePosix inode owner =>
    cases he
    exact Or.inl ⟨inode, owner, rfl, rfl, rfl⟩

variable {w w' : World} {a : Call} {o : Outcome} {wait : Bool}

theorem Begins.ok (h : Begins w a s callers inode c wait) (hw : w.Ok) (hl : Legal w a) :
    Ok s ((inode, c) :: callers) ∧ Idle s c := by
  cases h with
  | posixLockFile => exact Ok.enter hw hl inode
  | wake => exact Ok.resume hw hl

/-- Until then no lock has been touched. -/
theorem Begins.same (h : Begins w a s callers inode c wait) (hw : w.Ok) :
    s.iFlock = w.st.iFlock ∧ ∀ i, ∀ x ∈ w.st.iFlock i, s.lock x = w.st.lock x := by
  cases h with
  | posixLockFile =>
    exact ⟨rfl, fun i x hx ↦ update_of_ne (hw.fresh i x hx).ne _ _⟩
  | wake => exact ⟨rfl, fun _ _ _ ↦ rfl⟩

theorem World.Ok.perform (h : w.Ok) (hl : Legal w a) (he : w.perform a = .ok (o, w')) : w'.Ok := by
  rcases perform_cases he with ⟨i, owner, rfl, rfl, rfl⟩ | ⟨s, others, i, c, wait, hb, hr⟩
  · exact Ok.locksRemovePosix h i owner
  · obtain ⟨hok, hidle⟩ := hb.ok h hl
    rcases hr with ⟨e, rfl, rfl⟩ | ⟨s', hr, rfl⟩
    · exact hok.leave hidle
    · exact hok.posixRepeat hidle hr

/-! ## Every run -/

theorem exec_eq_ok : machine.exec w a = .ok w' ↔ ∃ o, w.perform a = .ok (o, w') := by
  have heq : machine.exec w a = (w.perform a).map Prod.snd := rfl
  rw [heq]
  constructor
  · intro h
    match hp : w.perform a with
    | .ok (o, w'') =>
      rw [hp] at h
      cases h
      exact ⟨o, rfl⟩
    | .error e =>
      rw [hp] at h
      cases h
  · rintro ⟨o, h⟩
    rw [h]
    rfl

theorem init_ok (h : machine.init w) : w.Ok := by
  obtain ⟨hlist, hblocked, hasleep⟩ := h
  have hno : ∀ i x, x ∉ w.st.iFlock i := by simp [hlist]
  rw [World.Ok, hasleep]
  exact {
    nodup := fun i ↦ by rw [hlist i]; exact nodup_nil
    disjoint := fun i j x hx ↦ absurd hx (hno i x)
    fresh := fun i x hx ↦ absurd hx (hno i x)
    posix := fun i x hx ↦ absurd hx (hno i x)
    bounded := fun i x hx ↦ absurd hx (hno i x)
    type := fun i x hx ↦ absurd hx (hno i x)
    exclusive := fun i x hx ↦ absurd hx (hno i x)
    waiter := by simp
    apart := Pairwise.nil
    waiting := by simp [hblocked]
    once := by simp [hblocked]
    blocker := by simp [hblocked] }

theorem reachable_ok (h : machine.Reachable w) : w.Ok := by
  refine h.invariant (fun _ ↦ init_ok) fun v a v' hv hl he ↦ ?_
  obtain ⟨o, he⟩ := exec_eq_ok.1 he
  exact hv.perform hl he

end

/-- **No byte is locked for writing by one owner and at all by another.**  A call that returns an
error leaves the locks of all owners as they are. -/
theorem posix_exclusive :
    (∀ w, machine.Reachable w → ∀ inode, ∀ x ∈ w.st.iFlock inode, ∀ y ∈ w.st.iFlock inode,
      (w.st.lock x).who ≠ (w.st.lock y).who → (w.st.lock x).flType = .wrlck →
        ∀ b, ¬ ((w.st.lock x).Covers b ∧ (w.st.lock y).Covers b)) ∧
    ∀ w a e w', machine.Reachable w → machine.legal w a →
      w.perform a = .ok (.returned (some e), w') →
        w'.st.iFlock = w.st.iFlock ∧
        ∀ inode, ∀ x ∈ w.st.iFlock inode, w'.st.lock x = w.st.lock x := by
  refine ⟨fun w hw inode x hx y hy hwho htype b hb ↦ ?_, fun w a e w' hw hl he ↦ ?_⟩
  · exact (reachable_ok hw).exclusive inode x hx y hy ⟨hwho, htype, b, hb⟩
  · rcases perform_cases he with ⟨_, _, _, ho, _⟩ | ⟨s, others, i, c, wait, hb, hr⟩
    · simp at ho
    · have hsame := hb.same (reachable_ok hw)
      rcases hr with ⟨e, _, rfl⟩ | ⟨s', hr, rfl⟩
      · exact hsame
      · rcases posixRepeat_cases hr with ⟨ho, _⟩ | ⟨e, _, rfl⟩ | ⟨fl, ho, _⟩
        · simp at ho
        · exact hsame
        · simp at ho

/-- A task asks for a lock on a range. -/
def State.Request.bytes (owner : ℕ) (type : LockType) (start stop : ℤ) : State.Request :=
  { owner := owner, pid := owner, file := owner, type := type, start := start, stop := stop }

/-- No file is locked. -/
def World.start : World where
  st := {
    lock := fun _ ↦ (State.Request.bytes 0 .unlck 0 0).fileLock
    iFlock := fun _ ↦ []
    blockedList := []
    tick := 0 }
  asleep := []

theorem start_reachable : machine.Reachable World.start := .init ⟨fun _ ↦ rfl, rfl, rfl⟩

/-- Two tasks have locked bytes 5 to 9 for reading, and a third one cannot lock them for writing. -/
theorem posix_exclusive_readers : ∃ w w', machine.Reachable w ∧
    w.perform (.posixLockFile 0 (.bytes 3 .wrlck 5 9) false true) =
      .ok (.returned (some .eagain), w') ∧
    w.st.iFlock 0 = [1, 4] ∧ w'.st.iFlock = w.st.iFlock ∧ (w.st.lock 1).flType ≠ .wrlck := by
  have htrace : machine.trace World.start
      [.posixLockFile 0 (.bytes 1 .rdlck 0 9) false true,
        .posixLockFile 0 (.bytes 2 .rdlck 5 14) false true] = some _ := rfl
  have hw := start_reachable.trace htrace
  have hlegal : State.Request.Valid (.bytes 3 .wrlck 5 9) := by decide
  refine ⟨_, _, hw, rfl, rfl, ?_, fun htype ↦ ?_⟩
  · exact (posix_exclusive.2 _ (.posixLockFile 0 (.bytes 3 .wrlck 5 9) false true) .eagain _ hw
      hlegal rfl).1
  · exact posix_exclusive.1 _ hw 0 1 (by decide) 4 (by decide) (by decide) htype 7
      ⟨by decide, by decide⟩

end Linux24.Locks
