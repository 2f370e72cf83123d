import Linux24.Fs.PosixRuns
import Linux24.Lib.Chase

/-!
# Deadlock detection

Before a caller of `posix_lock_file` goes to sleep, `posix_locks_deadlock` looks whether the owner
it is going to wait for waits for it in turn, perhaps by way of others.  It follows `blocked_list`
from owner to owner, and would go round for ever in a cycle that the caller is not part of.

There never is a cycle as long as no owner is on `blocked_list` twice (`deadlock_exact`).  A caller
is put there only if that closes none, and whatever else happens takes callers off it; the owner of
a lock that somebody waits for does not change, for such a lock stays on the list of its file.
-/

set_option autoImplicit false

namespace Linux24.Locks

open Chase Relation List

/-! ## Who waits for whom -/

/-- An owner waits for a lock of another one. -/
def State.WaitsFor (s : State) (p q : ℕ × ℕ) : Prop :=
  ∃ e ∈ s.blockedList, (s.lock e.1).who = p ∧ (s.lock e.2).who = q

/-- No owner is on `blocked_list` twice. -/
def State.OneEach (s : State) : Prop :=
  s.blockedList.Pairwise fun e e' ↦ (s.lock e.1).who ≠ (s.lock e'.1).who

instance (s : State) : Decidable s.OneEach := inferInstanceAs (Decidable (List.Pairwise _ _))

/-- The owner that an owner waits for, as `posix_locks_deadlock` finds it. -/
def State.next (s : State) (p : ℕ × ℕ) : Option (ℕ × ℕ) :=
  (s.blockedList.find? fun e ↦ decide ((s.lock e.1).who = p)).map fun e ↦ (s.lock e.2).who

section

variable {s t : State} {c fl inode : ℕ} {callers : List (ℕ × ℕ)}

theorem State.OneEach.points_iff (h : s.OneEach) {p q : ℕ × ℕ} :
    Points s.next p q ↔ s.WaitsFor p q := by
  rw [Points, State.next, Option.map_eq_some_iff]
  constructor
  · rintro ⟨e, he, rfl⟩
    have hp := find?_some he
    exact ⟨e, mem_of_find?_eq_some he, by simpa using hp, rfl⟩
  · rintro ⟨e, he, rfl, rfl⟩
    cases hf : s.blockedList.find? fun e' ↦ decide ((s.lock e'.1).who = (s.lock e.1).who) with
    | none =>
      have := find?_eq_none.1 hf e he
      simp at this
    | some e' =>
      have hwho : (s.lock e'.1).who = (s.lock e.1).who := by simpa using find?_some hf
      -- the first entry of the owner is the only one
      have heq : e' = e := by
        by_contra hne
        have : Std.Symm fun e e' : ℕ × ℕ ↦ (s.lock e.1).who ≠ (s.lock e'.1).who :=
          ⟨fun _ _ ↦ Ne.symm⟩
        exact Pairwise.forall h (mem_of_find?_eq_some hf) he hne hwho
      exact ⟨e', rfl, by rw [heq]⟩

theorem deadlockLoop_eq_chase (s : State) (caller : ℕ × ℕ) (fuel : ℕ) (p : ℕ × ℕ) :
    s.deadlockLoop caller fuel p =
      match chase s.next caller fuel p with
      | some found => .ok found
      | none => .error .hang := by
  induction fuel generalizing p with
  | zero => rfl
  | succ fuel ih =>
    rw [State.deadlockLoop, chase, State.next]
    split
    · rfl
    · cases s.blockedList.find? fun e ↦ decide ((s.lock e.1).who = p) with
      | none => rfl
      | some e => exact ih _

/-- **The search** ends, and finds out whether a cycle would be closed. -/
theorem State.OneEach.posixLocksDeadlock (h : s.OneEach) (hac : Acyclic s.WaitsFor) (c fl : ℕ) :
    ∃ found, s.posixLocksDeadlock c fl = .ok found ∧
      (found = true ↔ ¬ Acyclic (Add s.WaitsFor (s.lock c).who (s.lock fl).who)) := by
  have hpoints : Points s.next = s.WaitsFor := by
    funext p q
    exact propext h.points_iff
  have hac' : Acyclic (Points s.next) := hpoints ▸ hac
  have hsources : ∀ p q, s.next p = some q →
      p ∈ (s.blockedList.map fun e ↦ (s.lock e.1).who).toFinset := by
    intro p q hpq
    obtain ⟨e, he, rfl, -⟩ := h.points_iff.1 hpq
    exact mem_toFinset.2 (mem_map.2 ⟨e, he, rfl⟩)
  have hcard : (s.blockedList.map fun e ↦ (s.lock e.1).who).toFinset.card <
      s.blockedList.length + 1 := by
    have := toFinset_card_le (s.blockedList.map fun e ↦ (s.lock e.1).who)
    rw [length_map] at this
    omega
  obtain ⟨found, hfound⟩ :=
    hac'.exists_chase _ hsources hcard (s.lock c).who (s.lock fl).who
  refine ⟨found, ?_, ?_⟩
  · rw [State.posixLocksDeadlock, deadlockLoop_eq_chase, hfound]
  · rw [chase_eq_some hfound, hpoints, hac.add_iff, not_not]

/-! ## Taking callers off the list, and putting one on it -/

/-- Some may have been taken off `blocked_list`, and those that are on it have not been changed, nor
have the owners of the locks they wait for. -/
structure State.Fewer (s t : State) : Prop where
  sub : t.blockedList.Sublist s.blockedList
  who : ∀ e ∈ t.blockedList, (t.lock e.1).who = (s.lock e.1).who ∧
    (t.lock e.2).who = (s.lock e.2).who

theorem State.Fewer.waitsFor (h : s.Fewer t) {p q : ℕ × ℕ} (hw : t.WaitsFor p q) :
    s.WaitsFor p q := by
  obtain ⟨e, he, rfl, rfl⟩ := hw
  exact ⟨e, h.sub.subset he, (h.who e he).1.symm, (h.who e he).2.symm⟩

theorem State.Fewer.acyclic (h : s.Fewer t) (hac : Acyclic s.WaitsFor) : Acyclic t.WaitsFor :=
  hac.mono fun _ _ ↦ h.waitsFor

theorem State.Fewer.oneEach (h : s.Fewer t) (hone : s.OneEach) : t.OneEach := by
  refine (Pairwise.sublist h.sub hone).imp_of_mem fun he he' hne ↦ ?_
  rwa [(h.who _ he).1, (h.who _ he').1]

theorem fewer_locksRemovePosix (s : State) (inode owner : ℕ) :
    s.Fewer (s.locksRemovePosix inode owner) := by
  rw [locksRemovePosix_eq]
  exact ⟨filter_sublist, fun _ _ ↦ ⟨rfl, rfl⟩⟩

theorem Ok.fewer_applyLock (h : Ok s ((inode, c) :: callers)) (hidle : Idle s c) :
    s.Fewer (s.applyLock inode c) := by
  have hc := h.waiter _ mem_cons_self
  obtain ⟨s', l', heq, happ⟩ := applyLock_applied (h.setup hc inode)
  rw [heq]
  refine ⟨happ.blocked, fun e he ↦ ?_⟩
  have he' : e ∈ s.blockedList := happ.blocked.subset he
  constructor
  · obtain ⟨i, hi⟩ := h.waiting e he'
    rcases mem_cons.1 hi with hself | hi
    · exact absurd (congrArg Prod.snd hself) (hidle e he')
    · have hw := h.waiter _ (mem_cons_of_mem _ hi)
      have hap : c + 2 < e.1 ∨ e.1 + 2 < c := (pairwise_cons.1 h.apart).1 _ hi
      have hsame := happ.far e.1 (fun hx ↦ (hw.notMem inode e.1 hx).1 rfl) (by omega) (by omega)
        (by omega)
      exact congrArg FileLock.who hsame
  · obtain ⟨i, hi⟩ := h.blocker e he'
    by_cases hin : e.2 ∈ s.iFlock inode
    · exact (happ.like e.2 hin).who
    · obtain ⟨h0, h1, h2⟩ := hc.notMem i e.2 hi
      exact congrArg FileLock.who (happ.far e.2 hin h0 h1 h2)

variable {w w' : World} {a : Call} {o : Outcome} {wait : Bool}

theorem Begins.fewer (h : Begins w a s callers inode c wait) (hw : w.Ok) : w.st.Fewer s := by
  cases h with
  | posixLockFile =>
    refine ⟨Sublist.refl _, fun e he ↦ ?_⟩
    obtain ⟨i, hi⟩ := hw.waiting e he
    obtain ⟨j, hj⟩ := hw.blocker e he
    have h1 : e.1 + 2 < w.st.tick := (hw.waiter _ hi).fresh
    have h2 := hw.fresh j e.2 hj
    exact ⟨congrArg FileLock.who (Function.update_of_ne (by omega) _ _),
      congrArg FileLock.who (Function.update_of_ne (by omega) _ _)⟩
  | wake => exact ⟨filter_sublist, fun _ _ ↦ ⟨rfl, rfl⟩⟩

/-- The caller goes to sleep: one more edge. -/
theorem waitsFor_locksInsertBlock (hidle : Idle s c) :
    (s.locksInsertBlock fl c).WaitsFor = Add s.WaitsFor (s.lock c).who (s.lock fl).who := by
  have hlist : (s.locksInsertBlock fl c).blockedList = (c, fl) :: s.blockedList :=
    blockedList_locksInsertBlock hidle fl
  funext p q
  refine propext ⟨?_, ?_⟩
  · rintro ⟨e, he, rfl, rfl⟩
    rw [hlist] at he
    rcases mem_cons.1 he with rfl | he
    · exact Or.inr ⟨rfl, rfl⟩
    · exact Or.inl ⟨e, he, rfl, rfl⟩
  · rintro (⟨e, he, rfl, rfl⟩ | ⟨rfl, rfl⟩)
    · exact ⟨e, hlist ▸ mem_cons_of_mem _ he, rfl, rfl⟩
    · exact ⟨(c, fl), hlist ▸ mem_cons_self, rfl, rfl⟩

/-! ## Every run -/

/-- No cycle, and no owner twice on the list. -/
structure World.Calm (w : World) : Prop where
  ok : w.Ok
  oneEach : w.st.OneEach
  acyclic : Acyclic w.st.WaitsFor

/-- **One step.**  If no owner is on the list twice, no cycle is closed. -/
theorem World.Calm.perform (h : w.Calm) (hl : Legal w a) (he : w.perform a = .ok (o, w'))
    (hone : w'.st.OneEach) : w'.Calm := by
  refine ⟨h.ok.perform hl he, hone, ?_⟩
  rcases perform_cases he with ⟨i, owner, rfl, rfl, rfl⟩ | ⟨s, others, i, c, wait, hb, hr⟩
  · exact (fewer_locksRemovePosix w.st i owner).acyclic h.acyclic
  · obtain ⟨hok, hidle⟩ := hb.ok h.ok hl
    have hac : Acyclic s.WaitsFor := (hb.fewer h.ok).acyclic h.acyclic
    rcases hr with ⟨e, rfl, rfl⟩ | ⟨s', hr, rfl⟩
    · exact hac
    · rcases posixRepeat_cases hr with ⟨rfl, rfl, -⟩ | ⟨e, rfl, rfl⟩ | ⟨fl, rfl, rfl, -, hd⟩
      · exact (hok.fewer_applyLock hidle).acyclic hac
      · exact hac
      · obtain ⟨found, hfound, hiff⟩ :=
          ((hb.fewer h.ok).oneEach h.oneEach).posixLocksDeadlock hac c fl
        have hfalse : found = false := Except.ok.inj (hfound.symm.trans hd)
        show Acyclic (s.locksInsertBlock fl c).WaitsFor
        rw [waitsFor_locksInsertBlock hidle]
        by_contra hcyc
        exact absurd (hiff.2 hcyc) (by simp [hfalse])

/-- Each owner waits for at most one lock at a time. -/
def OneWait (w : World) (a : Call) : Prop :=
  ∀ o w', w.perform a = .ok (o, w') → w'.st.OneEach

theorem path_step {w₀ : World} (h : machine.Path OneWait w₀ w) (hl : Legal w a)
    (he : w.perform a = .ok (o, w')) (hone : w'.st.OneEach) : machine.Path OneWait w₀ w' := by
  refine h.step hl (fun o' w'' he' ↦ ?_) (exec_eq_ok.2 ⟨o, he⟩)
  rw [he] at he'
  cases he'
  exact hone

theorem calm_of_path {w₀ : World} (h0 : machine.init w₀) (h : machine.Path OneWait w₀ w) :
    w.Calm := by
  induction h with
  | refl =>
    refine ⟨init_ok h0, ?_, fun v hv ↦ ?_⟩
    · rw [State.OneEach, h0.2.1]
      exact Pairwise.nil
    · obtain ⟨u, ⟨e, he, -⟩, -⟩ := TransGen.head'_iff.1 hv
      rw [h0.2.1] at he
      cases he
  | step _ hl hP he ih =>
    obtain ⟨o, he⟩ := exec_eq_ok.1 he
    exact ih.perform hl he (hP o _ he)

/-- No call hangs. -/
theorem World.Calm.exists_perform (h : w.Calm) (hl : Legal w a) : ∃ r, w.perform a = .ok r := by
  have hrepeat : ∀ {s others inode c wait}, Begins w a s others inode c wait →
      ∃ r, s.posixRepeat inode c wait = .ok r := by
    intro s others inode c wait hb
    have hfew := hb.fewer h.ok
    rw [State.posixRepeat]
    split
    · exact ⟨_, rfl⟩
    split
    · exact ⟨_, rfl⟩
    rename_i fl _
    obtain ⟨found, hfound, -⟩ :=
      (hfew.oneEach h.oneEach).posixLocksDeadlock (hfew.acyclic h.acyclic) c fl
    rw [hfound]
    split
    · exact ⟨_, rfl⟩
    · cases found
      · exact ⟨_, rfl⟩
      · exact ⟨_, rfl⟩
  cases a with
  | posixLockFile inode r wait memory =>
    obtain ⟨res, hres⟩ := hrepeat (.posixLockFile inode r wait memory)
    rw [World.perform, State.posixLockFile]
    cases memory
    · exact ⟨_, rfl⟩
    · rw [hres]
      exact ⟨_, rfl⟩
  | wake inode c signal =>
    obtain ⟨res, hres⟩ := hrepeat (.wake inode c signal)
    rw [World.perform, State.posixWake]
    cases signal
    · rw [hres]
      exact ⟨_, rfl⟩
    · exact ⟨_, rfl⟩
  | locksRemovePosix inode owner => exact ⟨_, rfl⟩

end

/-- **Deadlock detection is exact.**  In every run in which no owner waits for two locks at a time,
nobody waits for itself by way of others, no call hangs, and `posix_locks_deadlock` returns 1
exactly if the caller would close a cycle, both between the calls and where a call comes to it. -/
theorem deadlock_exact {w₀ w : World} (h0 : machine.init w₀) (h : machine.Path OneWait w₀ w) :
    Acyclic w.st.WaitsFor ∧ (∀ a, machine.legal w a → ∃ r, w.perform a = .ok r) ∧
    ∀ s, (s = w.st ∨ ∃ a others inode c wait, Begins w a s others inode c wait) →
      ∀ callerFl blockFl, ∃ found, s.posixLocksDeadlock callerFl blockFl = .ok found ∧
        (found = true ↔
          ¬ Acyclic (Add s.WaitsFor (s.lock callerFl).who (s.lock blockFl).who)) := by
  have hcalm := calm_of_path h0 h
  refine ⟨hcalm.acyclic, fun a hl ↦ hcalm.exists_perform hl, ?_⟩
  rintro s (rfl | ⟨a, others, inode, c, wait, hb⟩) callerFl blockFl
  · exact hcalm.oneEach.posixLocksDeadlock hcalm.acyclic callerFl blockFl
  · have hfew := hb.fewer hcalm.ok
    exact (hfew.oneEach hcalm.oneEach).posixLocksDeadlock (hfew.acyclic hcalm.acyclic)
      callerFl blockFl

/-- Two tasks have a lock each, and the first one waits for that of the second: if the second one
wants to wait for the first, it is told. -/
theorem deadlock_exact_two : ∃ w w', machine.Path OneWait World.start w ∧ w.asleep = [(0, 6)] ∧
    w.perform (.posixLockFile 0 (.bytes 2 .wrlck 0 9) true true) =
      .ok (.returned (some .edeadlk), w') ∧
    Acyclic w.st.WaitsFor ∧ ¬ Acyclic (Add w.st.WaitsFor (2, 2) (1, 1)) := by
  have p₀ : machine.Path OneWait World.start World.start := .refl
  have p₁ := path_step (a := .posixLockFile 0 (.bytes 1 .wrlck 0 9) true true) p₀
    (by decide) rfl (by decide)
  have p₂ := path_step (a := .posixLockFile 0 (.bytes 2 .wrlck 10 19) true true) p₁
    (by decide) rfl (by decide)
  have p₃ := path_step (a := .posixLockFile 0 (.bytes 1 .wrlck 10 19) true true) p₂
    (by decide) rfl (by decide)
  obtain ⟨hac, -, hexact⟩ := deadlock_exact ⟨fun _ ↦ rfl, rfl, rfl⟩ p₃
  obtain ⟨found, hfound, hiff⟩ := hexact _ (Or.inl rfl) 4 1
  refine ⟨_, _, p₃, rfl, rfl, hac, hiff.1 ?_⟩
  exact (Except.ok.inj (hfound.symm.trans rfl) : found = true)

end Linux24.Locks
