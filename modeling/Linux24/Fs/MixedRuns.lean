import Linux24.Fs.Mixed

/-!
# Runs with locks of three kinds

Any number of tasks call `flock_lock_file`, `fcntl_setlease`, `lease_modify`, `posix_lock_file` and
what else works on the list of a file, sleep in these calls and are woken up, in any order.

Two things are wanted of the list: locks on the whole file through different files do not exclude
each other, and if there is a lease, the list begins with one, because `__get_lease` looks nowhere
else.  `flock_lock_file` puts its lock at the head, in front of the leases, so that the second does
not hold; and its loops end at the first lease, so that neither does the first.  `flock_lease_iff`
says that this is the only way to lose either: a call keeps both if and only if it is not a call of
`flock_lock_file` that comes to look for its lock while there is a lease.  This is without
`LOCK_MAND`: such a lock is never in conflict, so it loses the first of the two (`Plain`).
-/

set_option autoImplicit false

namespace Linux24.Locks
namespace Mixed

open List

/-! ## The calls -/

/-- A caller of `flock_lock_file` that sleeps. -/
structure Flocker where
  inode : ℕ
  newFl : ℕ
  wait : Bool
  /-- The lock that it has taken off the list, if it sleeps in `locks_wake_up_blocks`. -/
  old : Option ℕ
deriving DecidableEq, Repr

/-- The calls, and going on after having slept. -/
inductive Call
  | posixLockFile (inode : ℕ) (r : State.Request) (wait memory : Bool)
  | posixWake (inode caller : ℕ) (signal : Bool)
  | locksRemovePosix (inode owner : ℕ)
  | flockLockFile (inode file pid : ℕ) (type : FlockType) (wait memory : Bool)
  | flockWake (f : Flocker) (signal : Bool)
  | locksRemoveFlock (inode file : ℕ)
  | fcntlSetlease (inode now : ℕ) (r : State.LeaseRequest)
  | leaseModify (inode fl : ℕ) (type : LockType)
  | getLease (inode owner now breakTime : ℕ) (write nonblock memory : Bool)
  | leaseWake (inode newFl now : ℕ) (signal timeout : Bool)

/-- The locks, and those who sleep. -/
structure World where
  st : State
  /-- The file and the structure of each caller of `posix_lock_file`. -/
  posix : List (ℕ × ℕ)
  flock : List Flocker
  /-- The file and the structure of each caller of `__get_lease`. -/
  lease : List (ℕ × ℕ)

namespace World

/-- The record after a step of `posix_lock_file`, with the other callers. -/
def afterPosix (w : World) (others : List (ℕ × ℕ)) (inode caller : ℕ) : Outcome × State → World
  | (.returned _, st) => { w with st := st, posix := others }
  | (.sleeps, st) => { w with st := st, posix := (inode, caller) :: others }

/-- The record after a step of `flock_lock_file`. -/
def afterFlock (w : World) (others : List Flocker) (inode newFl : ℕ) (wait : Bool) :
    State.FlockOutcome × State → World
  | (.returned _, st) => { w with st := st, flock := others }
  | (.blocks, st) => { w with st := st, flock := ⟨inode, newFl, wait, none⟩ :: others }
  | (.drains old, st) => { w with st := st, flock := ⟨inode, newFl, wait, some old⟩ :: others }

/-- The record after a step of `__get_lease`. -/
def afterLease (w : World) (others : List (ℕ × ℕ)) (inode newFl : ℕ) : Outcome × State → World
  | (.returned _, st) => { w with st := st, lease := others }
  | (.sleeps, st) => { w with st := st, lease := (inode, newFl) :: others }

/-- The others, when a caller of `flock_lock_file` goes on. -/
def otherFlock (w : World) (f : Flocker) : List Flocker :=
  w.flock.filter fun g ↦ decide (g.newFl ≠ f.newFl)

/-- A caller of `flock_lock_file` goes on, from either place. -/
def resumeFlock (w : World) (f : Flocker) (signal : Bool) :
    Except Fault (State.FlockOutcome × State) :=
  match f.old with
  | none => .ok (w.st.flockWake f.inode f.newFl signal)
  | some old => w.st.flockDrain f.inode f.newFl old f.wait

/-- What a call does up to where it sleeps or returns. -/
def perform (w : World) : Call → Except Fault World
  | .posixLockFile inode r wait memory =>
    (w.st.posixLockFile inode r wait memory).map (w.afterPosix w.posix inode w.st.tick)
  | .posixWake inode caller signal =>
    let others := w.posix.filter fun e ↦ decide (e.2 ≠ caller)
    (w.st.posixWake inode caller signal).map (w.afterPosix others inode caller)
  | .locksRemovePosix inode owner => .ok { w with st := w.st.locksRemovePosix inode owner }
  | .flockLockFile inode file pid type wait memory =>
    (w.st.flockLockFile inode file pid type wait memory).map
      (w.afterFlock w.flock inode w.st.tick wait)
  | .flockWake f signal =>
    (w.resumeFlock f signal).map (w.afterFlock (w.otherFlock f) f.inode f.newFl f.wait)
  | .locksRemoveFlock inode file => .ok { w with st := w.st.locksRemoveFlock inode file }
  | .fcntlSetlease inode now r => .ok { w with st := (w.st.fcntlSetlease inode now r).2 }
  | .leaseModify inode fl type => .ok { w with st := w.st.leaseModify inode fl type }
  | .getLease inode owner now breakTime write nonblock memory =>
    .ok (w.afterLease w.lease inode w.st.tick
      (w.st.getLease inode owner now breakTime write nonblock memory))
  | .leaseWake inode newFl now signal timeout =>
    let others := w.lease.filter fun e ↦ decide (e.2 ≠ newFl)
    .ok (w.afterLease others inode newFl (w.st.leaseWake inode newFl now signal timeout))

end World

/-- When a call can be made: `lease_modify` is called for a lease that is on the list. -/
def Legal (w : World) : Call → Prop
  | .posixLockFile _ r _ _ => r.Valid
  | .posixWake inode caller _ => (inode, caller) ∈ w.posix
  | .flockWake f _ => f ∈ w.flock
  | .leaseModify inode fl _ => fl ∈ w.st.iFlock inode ∧ (w.st.lock fl).flFlags = .lease
  | .leaseWake inode newFl _ _ _ => (inode, newFl) ∈ w.lease
  | _ => True

instance (w : World) (a : Call) : Decidable (Legal w a) := by
  cases a <;> dsimp only [Legal] <;> infer_instance

/-- The machine of file locks.  No file is locked in the beginning. -/
def machine : Machine World Call Fault where
  init w := (∀ inode, w.st.iFlock inode = []) ∧ w.st.blockedList = [] ∧
    w.posix = [] ∧ w.flock = [] ∧ w.lease = []
  legal := Legal
  exec := World.perform

instance (w : World) (a : Call) : Decidable (machine.legal w a) :=
  inferInstanceAs (Decidable (Legal w a))

/-! ## What is wanted -/

/-- No two locks on the whole file through different files exclude each other. -/
def Exclusive (s : State) (inode : ℕ) : Prop :=
  ∀ x ∈ s.iFlock inode, ∀ y ∈ s.iFlock inode, (s.lock x).flFlags = .flock →
    (s.lock y).flFlags = .flock → (s.lock x).flFile ≠ (s.lock y).flFile → (s.lock x).flType ≠ .wrlck

instance (s : State) (inode : ℕ) : Decidable (Exclusive s inode) :=
  inferInstanceAs (Decidable (∀ x ∈ s.iFlock inode, _))

/-- If the file has a lease, the list begins with one. -/
def LeaseVisible (s : State) (inode : ℕ) : Prop :=
  ¬ Leaseless s inode → ∃ x ∈ (s.iFlock inode).head?, (s.lock x).flFlags = .lease

instance (s : State) (inode : ℕ) : Decidable (LeaseVisible s inode) :=
  inferInstanceAs (Decidable (_ → ∃ x ∈ (s.iFlock inode).head?, _))

/-- The file for which a call of `flock_lock_file` comes to look for its lock. -/
def searching (w : World) : Call → Option ℕ
  | .flockLockFile inode _ _ type _ memory =>
    if type ≠ .lock .unlck ∧ memory = true then some inode else none
  | .flockWake f signal =>
    match f.old with
    | none => if signal then none else some f.inode
    | some old => if w.st.isBlocking old then none else some f.inode
  | _ => none

/-- `LOCK_MAND` has nothing to do with the call. -/
def Plain (w : World) : Call → Prop
  | .flockLockFile inode _ _ type _ _ =>
    (∃ t, type = .lock t) ∧ ∀ x ∈ w.st.iFlock inode, (w.st.lock x).mand = none
  | .flockWake f _ => Unmand w.st f.inode f.newFl
  | _ => True

/-- The call does not put a lock in front of a lease either. -/
def Careful (w : World) (a : Call) : Prop :=
  Plain w a ∧ ∀ inode ∈ searching w a, Leaseless w.st inode

section

variable {s t : State} {posix flock : List ℕ} {inode c f : ℕ} {w w' : World} {a : Call}

/-- The leases come first. -/
theorem ListOk.visible (h : ListOk s (s.iFlock inode)) : LeaseVisible s inode := by
  intro hlease
  simp only [Leaseless, ne_eq, not_forall, not_not] at hlease
  obtain ⟨x, hx, hflags⟩ := hlease
  match hl : s.iFlock inode with
  | [] => simp [hl] at hx
  | y :: l =>
    refine ⟨y, rfl, ?_⟩
    have hsorted := h.sorted
    rw [hl] at hx hsorted
    rcases mem_cons.1 hx with rfl | hx
    · exact hflags
    · have hle := (pairwise_cons.1 hsorted).1 x hx
      cases hcase : (s.lock y).flFlags <;> simp_all [rank]

/-! ## One step -/

/-- A record that is as it should be. -/
def World.Ok (w : World) : Prop :=
  Mixed.Ok w.st (w.posix.map Prod.snd) (w.flock.map Flocker.newFl)

theorem afterPosix_ok {others : List (ℕ × ℕ)} {o : Outcome}
    (h : Ok t (stillPosix c (others.map Prod.snd) o) (w.flock.map Flocker.newFl)) :
    (w.afterPosix others inode c (o, t)).Ok := by
  cases o with
  | returned e | sleeps => exact h

theorem afterFlock_ok {others : List Flocker} {wait : Bool} {o : State.FlockOutcome}
    (h : Ok t (w.posix.map Prod.snd) (stillFlock f (others.map Flocker.newFl) o)) :
    (w.afterFlock others inode f wait (o, t)).Ok := by
  cases o with
  | returned e | blocks | drains old => exact h

theorem afterLease_ok {others : List (ℕ × ℕ)} {o : Outcome}
    (h : Ok t (w.posix.map Prod.snd) (w.flock.map Flocker.newFl)) :
    (w.afterLease others inode f (o, t)).Ok := by
  cases o with
  | returned e | sleeps => exact h

theorem afterFlock_st (w : World) (others : List Flocker) (inode f : ℕ) (wait : Bool)
    (r : State.FlockOutcome × State) : (w.afterFlock others inode f wait r).st = r.2 := by
  match r with
  | (.returned _, _) => rfl
  | (.blocks, _) => rfl
  | (.drains _, _) => rfl

theorem exists_of_map_eq_ok {α β : Type} {r : Except Fault α} {g : α → β} {b : β}
    (h : r.map g = .ok b) : ∃ x, r = .ok x ∧ b = g x := by
  match r, h with
  | .ok x, h =>
    cases h
    exact ⟨x, rfl, rfl⟩

/-- The caller that goes on, and the others. -/
theorem perm_cons_filter {l : List ℕ} (hl : l.Nodup) (hc : c ∈ l) :
    l.Perm (c :: l.filter fun x ↦ decide (x ≠ c)) := by
  have heq : l.erase c = l.filter fun x ↦ decide (x ≠ c) := by
    rw [hl.erase_eq_filter]
    refine filter_congr fun x _ ↦ ?_
    rw [decide_not]
    rfl
  exact heq ▸ perm_cons_erase hc

theorem Ok.resumePosix (h : w.Ok) (hc : (inode, c) ∈ w.posix) :
    Ok w.st (c :: (w.posix.filter fun e ↦ decide (e.2 ≠ c)).map Prod.snd)
      (w.flock.map Flocker.newFl) := by
  have hnodup : (w.posix.map Prod.snd).Nodup := by
    have hall := (nodup_flatMap.1 (nodup_append.1 h.nodup).1).2
    refine hall.imp fun {x y} hxy heq ↦ ?_
    subst heq
    exact hxy mem_cons_self mem_cons_self
  have heq : (w.posix.filter fun e ↦ decide (e.2 ≠ c)).map Prod.snd =
      (w.posix.map Prod.snd).filter fun x ↦ decide (x ≠ c) := by
    rw [filter_map]
    rfl
  rw [heq]
  exact h.perm (perm_cons_filter hnodup (mem_map.2 ⟨_, hc, rfl⟩)) (Perm.refl _)

theorem Ok.resumeFlock (h : w.Ok) {g : Flocker} (hg : g ∈ w.flock) :
    Ok w.st (w.posix.map Prod.snd) (g.newFl :: (w.otherFlock g).map Flocker.newFl) := by
  have hnodup : (w.flock.map Flocker.newFl).Nodup := (nodup_append.1 h.nodup).2.1
  have heq : (w.otherFlock g).map Flocker.newFl =
      (w.flock.map Flocker.newFl).filter fun x ↦ decide (x ≠ g.newFl) := by
    rw [filter_map]
    rfl
  rw [heq]
  exact h.perm (Perm.refl _) (perm_cons_filter hnodup (mem_map.2 ⟨_, hg, rfl⟩))

/-- **A call that does not look for its lock.** -/
theorem World.Ok.perform_of_not_searching (h : w.Ok) (hl : Legal w a)
    (hno : searching w a = none) (he : w.perform a = .ok w') : w'.Ok := by
  cases a with
  | posixLockFile inode r wait memory =>
    obtain ⟨⟨o, t⟩, hr, rfl⟩ := exists_of_map_eq_ok he
    have hs := Ok.enterPosix h hl.1 hl.2.1 hl.2.2
    rw [State.posixLockFile] at hr
    refine afterPosix_ok ?_
    split at hr
    · exact hs.posixRepeat hr
    · cases hr
      exact hs.leavePosix
  | posixWake inode c signal =>
    obtain ⟨⟨o, t⟩, hr, rfl⟩ := exists_of_map_eq_ok he
    have hs : Mixed.Ok (w.st.locksDeleteBlock c) _ _ := (Ok.resumePosix h hl).blocks rfl rfl rfl
    rw [State.posixWake] at hr
    refine afterPosix_ok ?_
    split at hr
    · cases hr
      exact hs.leavePosix
    · exact hs.posixRepeat hr
  | locksRemovePosix inode owner =>
    cases he
    exact Ok.locksRemovePosix h inode owner
  | flockLockFile inode file pid type wait memory =>
    obtain ⟨⟨o, t⟩, hr, rfl⟩ := exists_of_map_eq_ok he
    rw [State.flockLockFile] at hr
    split at hr
    · cases hr
      exact Ok.flockUnlock h inode file
    split at hr
    · cases hr
      exact h
    · rename_i htype hmemory
      simp [searching, htype, hmemory] at hno
  | flockWake g signal =>
    obtain ⟨⟨o, t⟩, hr, rfl⟩ := exists_of_map_eq_ok he
    have hs := Ok.resumeFlock h hl
    rw [resumeFlock] at hr
    rw [searching] at hno
    split at hr
    · rename_i hold
      rw [hold] at hno
      have hsig : signal = true := by
        by_contra hsig
        simp [hsig] at hno
      rw [State.flockWake, if_pos hsig] at hr
      cases hr
      exact hs.leaveFlock.blocks rfl rfl rfl
    · rename_i old hold
      rw [hold] at hno
      have hblock : w.st.isBlocking old = true := by
        by_contra hblock
        simp [hblock] at hno
      rw [State.flockDrain, if_pos hblock] at hr
      cases hr
      exact hs
  | locksRemoveFlock inode file =>
    cases he
    exact Ok.locksRemoveFlock h inode file
  | fcntlSetlease inode now r =>
    cases he
    exact Ok.fcntlSetlease h inode now r
  | leaseModify inode fl type =>
    cases he
    exact Ok.leaseModify h hl.2 inode type
  | getLease inode owner now breakTime write nonblock memory =>
    cases he
    exact afterLease_ok (Ok.getLease h inode owner now breakTime write nonblock memory)
  | leaseWake inode newFl now signal timeout =>
    cases he
    exact afterLease_ok (Ok.leaseWake h inode newFl now signal timeout)

/-- **A call that looks for its lock**, from where it begins to. -/
theorem World.Ok.searching_cases (h : w.Ok) (hl : Legal w a) (hplain : Plain w a)
    (hs : searching w a = some inode) (he : w.perform a = .ok w') :
    ∃ s others f wait wait' o t,
      Mixed.Ok s (w.posix.map Prod.snd) (f :: others.map Flocker.newFl) ∧
      s.iFlock inode = w.st.iFlock inode ∧
      (∀ x ∈ w.st.iFlock inode, s.lock x = w.st.lock x) ∧ Unmand s inode f ∧
      (s.flockFrom inode f wait = .ok (o, t) ∨ s.flockRepeat inode f wait = (o, t)) ∧
      w' = w.afterFlock others inode f wait' (o, t) := by
  cases a with
  | flockLockFile i file pid type wait memory =>
    obtain ⟨⟨o, t⟩, hr, rfl⟩ := exists_of_map_eq_ok he
    rw [searching] at hs
    split at hs
    · rename_i hcond
      cases hs
      rw [State.flockLockFile, if_neg hcond.1, if_neg (by simp [hcond.2])] at hr
      have hold : ∀ x ∈ w.st.iFlock inode, Function.update w.st.lock w.st.tick
          (State.flockMakeLock file pid type) x = w.st.lock x :=
        fun x hx ↦ Function.update_of_ne (h.fresh _ x hx).ne _ _
      refine ⟨_, _, _, _, _, _, _, Ok.enterFlock h hcond.1 file pid, rfl, hold, ⟨?_, ?_⟩,
        Or.inl hr, rfl⟩
      · obtain ⟨⟨type, rfl⟩, -⟩ := hplain
        show FileLock.mand (Function.update w.st.lock w.st.tick _ w.st.tick) = none
        rw [Function.update_self]
        rfl
      · exact fun x hx ↦ (congrArg FileLock.mand (hold x hx)).trans (hplain.2 x hx)
    · cases hs
  | flockWake g signal =>
    obtain ⟨⟨o, t⟩, hr, rfl⟩ := exists_of_map_eq_ok he
    have hok := Ok.resumeFlock h hl
    rw [resumeFlock] at hr
    rw [searching] at hs
    split at hr
    · rename_i hold
      rw [hold] at hs
      cases signal with
      | true => cases hs
      | false =>
        cases hs
        have hrep : (w.st.locksDeleteBlock g.newFl).flockRepeat g.inode g.newFl true = (o, t) :=
          Except.ok.inj hr
        exact ⟨w.st.locksDeleteBlock g.newFl, _, _, _, _, _, _, hok.blocks rfl rfl rfl, rfl,
          fun _ _ ↦ rfl, hplain, Or.inr hrep, rfl⟩
    · rename_i old hold
      rw [hold] at hs
      dsimp only at hs
      split at hs
      · cases hs
      · rename_i hblock
        cases hs
        rw [State.flockDrain, if_neg hblock] at hr
        exact ⟨_, _, _, _, _, _, _, hok, rfl, fun _ _ ↦ rfl, hplain, Or.inl hr, rfl⟩
  | _ => cases hs

/-- In front of a lease the loops find nothing. -/
theorem flocks_of_lease (h : ListOk s (s.iFlock inode)) (hlease : ¬ Leaseless s inode) :
    s.flocks inode = [] := by
  obtain ⟨x, hx, hflags⟩ := h.visible hlease
  obtain ⟨l, hl⟩ := head?_eq_some_iff.1 hx
  rw [State.flocks, hl]
  exact takeWhile_cons_of_neg (by simp [hflags])

/-- **A lock is put in front of the lease.** -/
theorem flock_of_lease {wait : Bool} {o : State.FlockOutcome} (h : ListOk s (s.iFlock inode))
    (hlease : ¬ Leaseless s inode)
    (he : s.flockFrom inode f wait = .ok (o, t) ∨ s.flockRepeat inode f wait = (o, t)) :
    t = s.setList inode (f :: s.iFlock inode) := by
  have hnil := flocks_of_lease h hlease
  have hrep : s.flockRepeat inode f wait =
      (.returned none, s.setList inode (f :: s.iFlock inode)) := by
    rw [State.flockRepeat, hnil]
    rfl
  rcases he with he | he
  · rw [State.flockFrom, State.flockSearch, State.flockOf, hnil] at he
    cases hrep.symm.trans (Except.ok.inj he)
    rfl
  · cases hrep.symm.trans he
    rfl

/-- The lease is there, but not at the head any more. -/
theorem not_visible (hlease : ¬ Leaseless s inode) (hf : (s.lock f).flFlags = .flock) :
    ¬ LeaseVisible (s.setList inode (f :: s.iFlock inode)) inode := by
  intro hvis
  have hlist := setList_iFlock_self s inode (f :: s.iFlock inode)
  have hthere : ¬ Leaseless (s.setList inode (f :: s.iFlock inode)) inode := by
    rw [Leaseless, hlist]
    exact fun hno ↦ hlease fun x hx ↦ hno x (mem_cons_of_mem _ hx)
  obtain ⟨x, hx, hflags⟩ := hvis hthere
  rw [hlist] at hx
  cases hx
  exact absurd (hf.symm.trans hflags) (by decide)

/-- **One step.**  A call keeps what is wanted if and only if it does not put a lock in front of a
lease. -/
theorem World.Ok.step (h : w.Ok) (hl : Legal w a) (hplain : Plain w a)
    (he : w.perform a = .ok w') :
    (Careful w a → w'.Ok) ∧ (¬ Careful w a → ∃ inode, ¬ LeaseVisible w'.st inode) := by
  cases hsearch : searching w a with
  | none =>
    refine ⟨fun _ ↦ h.perform_of_not_searching hl hsearch he, absurd ⟨hplain, ?_⟩⟩
    intro inode hinode
    cases hsearch.symm.trans hinode
  | some inode =>
    have hcareful : Careful w a ↔ Leaseless w.st inode := by
      refine ⟨fun hc ↦ hc.2 inode hsearch, fun hc ↦ ⟨hplain, fun i hi ↦ ?_⟩⟩
      cases hsearch.symm.trans hi
      exact hc
    obtain ⟨s, others, f, wait, wait', o, t, hok, hlist, hlock, hm, hrun, rfl⟩ :=
      h.searching_cases hl hplain hsearch he
    have hless : Leaseless s inode ↔ Leaseless w.st inode := by
      rw [Leaseless, hlist]
      exact forall₂_congr fun x hx ↦ by rw [hlock x hx]
    rw [hcareful, ← hless]
    refine ⟨fun hno ↦ afterFlock_ok ?_, fun hlease ↦ ⟨inode, ?_⟩⟩
    · rcases hrun with hrun | hrun
      · exact hok.flockSearch hno hm hrun
      · have hr := hok.flockRepeat hno hm wait
        rwa [hrun] at hr
    · rw [afterFlock_st, flock_of_lease (hok.list inode) hlease hrun]
      exact not_visible hlease (hok.whole f mem_cons_self).flags

/-! ## Every run -/

theorem init_ok (h : machine.init w) : w.Ok := by
  obtain ⟨hlist, -, hposix, hflock, -⟩ := h
  have hno : ∀ i x, x ∉ w.st.iFlock i := by simp [hlist]
  rw [World.Ok, hposix, hflock]
  refine {
    list := fun i ↦ ?_
    disjoint := fun i j x hx ↦ absurd hx (hno i x)
    fresh := fun i x hx ↦ absurd hx (hno i x)
    nodup := nodup_nil
    unused := forall_mem_nil _
    requests := forall_mem_nil _
    whole := forall_mem_nil _ }
  rw [hlist i]
  exact ⟨nodup_nil, forall_mem_nil _, forall_mem_nil _, Pairwise.nil, forall_mem_nil _⟩

/-- No file is locked. -/
def World.start : World where
  st := {
    lock := fun _ ↦ State.flockMakeLock 0 0 (.lock .unlck)
    iFlock := fun _ ↦ []
    blockedList := []
    tick := 0 }
  posix := []
  flock := []
  lease := []

theorem start_init : machine.init World.start := ⟨fun _ ↦ rfl, rfl, rfl, rfl, rfl⟩

end

end Mixed
end Linux24.Locks
