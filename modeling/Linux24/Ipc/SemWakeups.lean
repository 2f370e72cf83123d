import Linux24.Ipc.SemRuns

/-!
# Waking up those who wait for a semaphore

After every change of a set `update_queue` goes through the queue once.  If it comes to an operation
with a decrease that could be done, it wakes up its process, which will try for itself, and stops:
what comes after it is looked at once that process has gone on.  Operations without a decrease it
does itself, and goes on.  Such an operation has waited for a semaphore to become zero; but it can
increase another one, and somebody for whom that is enough may have been passed over already.

`no_lost_wakeup` is that this is the only way in which a wake-up is lost.  What carries the
induction is `Settled`: no operation that waits could be done, or one that has been woken up could.
It is more than is wanted, since a process that has been woken up may find that its operation cannot
be done any more; it then goes back to sleep without another pass.
-/

set_option autoImplicit false

namespace Linux24.Ipc

open List

namespace SemSet

variable {s t u : SemSet} {p now : ℕ} {sops : List Sembuf}

/-- The operation waits, and could be done. -/
def Missed (s : SemSet) (q : SemQueue) : Prop := q.status ≠ 1 ∧ s.verdict q.sleeper q.sops = 0

instance (s : SemSet) (q : SemQueue) : Decidable (s.Missed q) :=
  inferInstanceAs (Decidable (_ ∧ _))

/-- Nobody waits for an operation that could be done, or somebody who has been woken up will do
his. -/
def Settled (s : SemSet) : Prop :=
  (∃ q ∈ s.pending, q.status = 1 ∧ s.verdict q.sleeper q.sops = 0) ∨ ∀ q ∈ s.pending, ¬ s.Missed q

/-- The operations decrease a semaphore, or they change none. -/
def Tame (sops : List Sembuf) : Prop := decreases sops = true ∨ alters sops = false

instance (sops : List Sembuf) : Decidable (Tame sops) := inferInstanceAs (Decidable (_ ∨ _))

/-- An operation on the queue is like that, and only one with a decrease is woken up to do it. -/
structure Calm (q : SemQueue) : Prop where
  alter : q.alter = decreases q.sops
  changes : q.changes = alters q.sops
  tame : Tame q.sops
  status : q.status = 1 → q.alter = true

/-- All operations on the queue are. -/
def Quiet (s : SemSet) : Prop := ∀ q ∈ s.pending, Calm q

theorem zero_of_tame (h : Tame sops) (hd : decreases sops = false) :
    ∀ sop ∈ sops, sop.semOp = 0 := by
  have halters : alters sops = false := h.resolve_left (by simp [hd])
  intro sop hsop
  simpa using any_eq_false.1 halters sop hsop

theorem Same.missed (h : s.Same t) (q : SemQueue) : t.Missed q ↔ s.Missed q := by
  rw [Missed, Missed, h.verdict]

/-! ## One pass -/

/-- **A pass** over operations that decrease something or change nothing leaves the values as they
are, and ends with an operation that could be done or finds none. -/
theorem updateLoop_settled (now : ℕ) (l : List SemQueue)
    (hl : ∀ q ∈ l, q.alter = false → ∀ sop ∈ q.sops, sop.semOp = 0) (s : SemSet) (hs : s.Stored) :
    s.Same (updateLoop now l s).2.2 ∧
      ((∃ q ∈ (updateLoop now l s).1, q.status = 1 ∧ s.verdict q.sleeper q.sops = 0) ∨
        ∀ q ∈ (updateLoop now l s).1, ¬ s.Missed q) := by
  induction l generalizing s with
  | nil => exact ⟨Same.refl s, Or.inr fun q hq ↦ absurd hq not_mem_nil⟩
  | cons q l ih =>
    obtain ⟨hq, hl⟩ := forall_mem_cons.1 hl
    rw [updateLoop]
    split
    · rename_i hstatus
      obtain ⟨hsame, hor⟩ := ih hl s hs
      refine ⟨hsame, ?_⟩
      rcases hor with ⟨r, hr, hgo⟩ | hnone
      · exact Or.inl ⟨r, mem_cons_of_mem q hr, hgo⟩
      · exact Or.inr (forall_mem_cons.2 ⟨fun hm ↦ hm.1 hstatus, hnone⟩)
    rcases htry : s.tryAtomicSemop q.sleeper q.sops q.alter now with ⟨error, t⟩
    have herror : error = s.verdict q.sleeper q.sops := by
      rw [← verdict_eq s q.sleeper q.sops q.alter now, htry]
    -- what has been done is nothing
    have hst : s.Same t := by
      rcases (tryAtomicSemop_spec hs htry).2 with ⟨hst, -⟩ | ⟨-, halter, a, hperf⟩
      · exact hst
      · exact hperf.same hs (hq halter)
    obtain ⟨hsame, hor⟩ := ih hl t (hst.stored hs)
    simp only [hst.missed, hst.verdict] at hor
    dsimp only
    split
    · rename_i hdone
      exact ⟨hst, Or.inl ⟨_, mem_cons_self, rfl, herror ▸ hdone.1⟩⟩
    split
    · exact ⟨hst.trans hsame, hor⟩
    · refine ⟨hst.trans hsame, ?_⟩
      rcases hor with ⟨r, hr, hgo⟩ | hnone
      · exact Or.inl ⟨r, mem_cons_of_mem q hr, hgo⟩
      · refine Or.inr (forall_mem_cons.2 ⟨fun hm ↦ ?_, hnone⟩)
        have := hm.2
        omega

variable {q : SemQueue}

theorem Calm.zero (h : Calm q) (halter : q.alter = false) :
    ∀ sop ∈ q.sops, sop.semOp = 0 :=
  zero_of_tame h.tame (h.alter.symm.trans halter)

theorem Quiet.updateQueue (hq : s.Quiet) (now : ℕ) : (s.updateQueue now).2.Quiet := by
  intro q hmem
  obtain ⟨q₀, hq₀, rfl | ⟨halter, rfl⟩⟩ := (updateLoop_left _ _).2 q hmem
  · exact hq q hq₀
  · exact ⟨(hq q₀ hq₀).alter, (hq q₀ hq₀).changes, (hq q₀ hq₀).tame, fun _ ↦ halter⟩

theorem Ok.settled_updateQueue (h : s.Ok) (hq : s.Quiet) (now : ℕ) :
    (s.updateQueue now).2.Settled := by
  obtain ⟨hsame, hor⟩ := updateLoop_settled now s.pending (fun q hmem ↦ (hq q hmem).zero) s h.stored
  have hsame' : s.Same (s.updateQueue now).2 := ⟨hsame.val, hsame.undo⟩
  rcases hor with ⟨q, hmem, hstatus, hgo⟩ | hnone
  · exact Or.inl ⟨q, hmem, hstatus, (hsame'.verdict _ _).trans hgo⟩
  · exact Or.inr fun q hmem hm ↦ hnone q hmem ((hsame'.missed q).1 hm)

/-! ## Every call -/

/-- What is settled depends on the queue and on what could be done. -/
theorem Settled.congr (h : s.Settled) (hpending : t.pending = s.pending)
    (hv : ∀ p sops, t.verdict p sops = s.verdict p sops) : t.Settled := by
  simp only [Settled, Missed, hpending, hv]
  exact h

theorem Quiet.updateIf (hq : s.Quiet) (changes : Bool) (now : ℕ) :
    (s.updateIf changes now).2.Quiet := by
  rw [SemSet.updateIf]
  split
  · exact hq.updateQueue now
  · exact hq

/-- Where values may have changed, a pass is made. -/
theorem Ok.settled_updateIf (h : s.Ok) (hq : s.Quiet) {changes : Bool}
    (hs : changes = false → s.Settled) (now : ℕ) : (s.updateIf changes now).2.Settled := by
  rw [SemSet.updateIf]
  split
  · exact h.settled_updateQueue hq now
  · rename_i hc
    exact hs (Bool.eq_false_of_not_eq_true hc)

theorem Quiet.dequeue (hq : s.Quiet) (p : ℕ) : (s.dequeue p).Quiet :=
  fun q hmem ↦ hq q (mem_of_mem_filter hmem)

theorem mem_enqueue : q ∈ (s.enqueue p sops).pending ↔
    q = ⟨p, sops, decreases sops, alters sops, -eIntr⟩ ∨ q ∈ s.pending := by
  rw [enqueue]
  split
  · rw [mem_append, mem_singleton, or_comm]
  · exact mem_cons

theorem Quiet.enqueue (hq : s.Quiet) (ht : Tame sops) : (s.enqueue p sops).Quiet := by
  intro q hmem
  rcases mem_enqueue.1 hmem with rfl | hmem
  · exact ⟨rfl, rfl, ht, fun hstatus ↦ absurd hstatus (by dsimp only; decide)⟩
  · exact hq q hmem

/-- An operation that cannot be done goes to sleep. -/
theorem Settled.enqueue (hs : s.Settled) (hv : s.verdict p sops ≠ 0) :
    (s.enqueue p sops).Settled := by
  rcases hs with ⟨q, hmem, hgo⟩ | hnone
  · exact Or.inl ⟨q, mem_enqueue.2 (Or.inr hmem), hgo⟩
  · refine Or.inr fun q hmem ↦ ?_
    rcases mem_enqueue.1 hmem with rfl | hmem
    · exact fun hm ↦ hv hm.2
    · exact hnone q hmem

/-- What the operations of a process change, when they change nothing. -/
theorem same_of_not_alters {doUndo : Bool} {ret : ℤ} (hs : s.Stored)
    (heq : s.tryAtomicSemop p sops doUndo now = (ret, t)) (h : ret ≠ 0 ∨ alters sops = false) :
    s.Same t := by
  rcases (tryAtomicSemop_spec hs heq).2 with ⟨hsame, -⟩ | ⟨hret, -, a, hperf⟩
  · exact hsame
  · have halters := h.resolve_left (not_not.2 hret)
    exact hperf.same hs fun sop hsop ↦ by simpa using any_eq_false.1 halters sop hsop

/-- The operations do not go to sleep, or they decrease a semaphore, or they change none. -/
def Careful (s : SemSet) (p : ℕ) (sops : List Sembuf) : Prop := 0 < s.verdict p sops → Tame sops

theorem Ok.semopFrom_settled (h : s.Ok) (hq : s.Quiet) (hs : s.Settled) (hc : s.Careful p sops)
    (now : ℕ) : (s.semopFrom p sops now).2.2.Quiet ∧ (s.semopFrom p sops now).2.2.Settled := by
  rw [SemSet.semopFrom]
  rcases heq : s.tryAtomicSemop p sops false now with ⟨error, t⟩
  have herror : error = s.verdict p sops := by rw [← verdict_eq s p sops false now, heq]
  have hpending : t.pending = s.pending := (tryAtomicSemop_spec h.stored heq).1.pending
  have htq : t.Quiet := by rwa [Quiet, hpending]
  dsimp only
  split
  · refine ⟨htq.updateIf _ now, (h.tryAtomicSemop heq).1.settled_updateIf htq
      (fun halters ↦ ?_) now⟩
    exact hs.congr hpending (same_of_not_alters h.stored heq (Or.inr halters)).verdict
  · have hsame := same_of_not_alters h.stored heq (Or.inl (by omega))
    refine ⟨htq.enqueue (hc (by omega)), (hs.congr hpending hsame.verdict).enqueue ?_⟩
    rw [hsame.verdict]
    omega

/-- A new undo array is empty, as none is. -/
theorem allocUndo_verdict (hp : (s.undo p).isNone) (r : ℕ) (sops : List Sembuf) :
    (s.allocUndo p).verdict r sops = s.verdict r sops := by
  have hagree : ((s.allocUndo p).array r).Agree (s.array r) := by
    refine ⟨fun _ ↦ rfl, fun i ↦ ?_⟩
    by_cases hrp : r = p
    · subst hrp
      have hnone : s.undo r = none := Option.isNone_iff_eq_none.1 hp
      rw [array, array, allocUndo, hnone]
      dsimp only
      rw [Function.update_self]
      rfl
    · rw [array, array, allocUndo]
      dsimp only
      rw [Function.update_of_ne hrp]
  exact hagree.tryAtomicSemop_fst sops _ true true 0 0

theorem Ok.sysSemop_settled (h : s.Ok) (hq : s.Quiet) (hs : s.Settled) (hc : s.Careful p sops)
    (E : SemEnv) : (s.sysSemop E p sops).2.2.Quiet ∧ (s.sysSemop E p sops).2.2.Settled := by
  rcases s.sysSemop_cases E p sops with ⟨e, heq⟩ | heq | ⟨hnone, heq⟩ <;> rw [heq]
  · exact ⟨hq, hs⟩
  · exact h.semopFrom_settled hq hs hc E.now
  · have hv := fun r ops ↦ allocUndo_verdict hnone r ops
    refine (h.allocUndo p).semopFrom_settled hq (hs.congr rfl hv) ?_ E.now
    rw [Careful, hv]
    exact hc

/-- The process of an operation that has been woken up in vain sleeps again. -/
theorem Ok.settled_again (h : s.Ok) (hs : s.Settled) (hmem : q ∈ s.pending)
    (hv : s.verdict q.sleeper q.sops ≠ 0) :
    Settled { s with pending := s.pending.map (SemSet.again q.sleeper) } := by
  have hsame : s.Same { s with pending := s.pending.map (SemSet.again q.sleeper) } :=
    ⟨fun _ ↦ rfl, rfl⟩
  have honly : ∀ r ∈ s.pending, r.sleeper = q.sleeper → r = q := fun r hr ↦
    inj_on_of_nodup_map h.nodup hr hmem
  rcases hs with ⟨r, hr, hstatus, hgo⟩ | hnone
  · have hne : r.sleeper ≠ q.sleeper := fun heq ↦ hv (honly r hr heq ▸ hgo)
    have hkept : SemSet.again q.sleeper r = r := if_neg hne
    exact Or.inl ⟨r, mem_map.2 ⟨r, hr, hkept⟩, hstatus, (hsame.verdict _ _).trans hgo⟩
  · refine Or.inr fun r hr hm ↦ ?_
    obtain ⟨r₀, hr₀, rfl⟩ := mem_map.1 hr
    rw [SemSet.again] at hm
    split at hm
    · rename_i heq
      exact hv (honly r₀ hr₀ heq ▸ hm.2)
    · exact hnone r₀ hr₀ hm

theorem Quiet.again (hq : s.Quiet) (p : ℕ) :
    Quiet { s with pending := s.pending.map (SemSet.again p) } := by
  intro q hmem
  obtain ⟨r, hr, rfl⟩ := mem_map.1 hmem
  obtain ⟨halter, hchanges, htame, hstatus⟩ := hq r hr
  rw [SemSet.again]
  split
  · exact ⟨halter, hchanges, htame, fun h ↦ absurd h (by dsimp only; decide)⟩
  · exact ⟨halter, hchanges, htame, hstatus⟩

/-- An operation that has not been woken up is taken off the queue. -/
theorem Ok.settled_dequeue (h : s.Ok) (hs : s.Settled) (hmem : q ∈ s.pending)
    (hstatus : q.status ≠ 1) : (s.dequeue q.sleeper).Settled := by
  have hsame : s.Same (s.dequeue q.sleeper) := ⟨fun _ ↦ rfl, rfl⟩
  rcases hs with ⟨r, hr, hone, hgo⟩ | hnone
  · have hne : r.sleeper ≠ q.sleeper := fun heq ↦
      hstatus (inj_on_of_nodup_map h.nodup hr hmem heq ▸ hone)
    exact Or.inl
      ⟨r, mem_filter.2 ⟨hr, decide_eq_true hne⟩, hone, (hsame.verdict _ _).trans hgo⟩
  · exact Or.inr fun r hr hm ↦
      hnone r (mem_of_mem_filter hr) ((hsame.missed r).1 hm)

theorem Ok.semopWake_settled (h : s.Ok) (hq : s.Quiet) (hs : s.Settled)
    (hmem : q ∈ s.pending) (now : ℕ) :
    (s.semopWake q now).2.2.Quiet ∧ (s.semopWake q now).2.2.Settled := by
  rcases s.semopWake_cases q now with
    ⟨hstatus, heq⟩ | ⟨error, t, hstatus, htry, ⟨-, heq⟩ | ⟨hpos, heq⟩⟩ <;> rw [heq]
  · refine ⟨(hq.dequeue _).updateIf _ now, (h.dequeue _).settled_updateIf (hq.dequeue _) ?_ now⟩
    exact fun _ ↦ h.settled_dequeue hs hmem hstatus
  · have hpending : t.pending = s.pending := (tryAtomicSemop_spec h.stored htry).1.pending
    have htq : t.Quiet := by rwa [Quiet, hpending]
    have hok := (h.tryAtomicSemop htry).1.dequeue q.sleeper
    refine ⟨(htq.dequeue _).updateIf _ now, hok.settled_updateIf (htq.dequeue _) ?_ now⟩
    -- it has been woken up because it decreases a semaphore, so there is a pass
    have hdec : decreases q.sops = true := (hq q hmem).alter.symm.trans ((hq q hmem).status hstatus)
    intro hchanges
    rw [(hq q hmem).changes] at hchanges
    obtain ⟨sop, hsop, hneg⟩ := any_eq_true.1 hdec
    have hzero := any_eq_false.1 hchanges sop hsop
    simp only [decide_eq_true_eq] at hneg hzero
    omega
  · have hpending : t.pending = s.pending := (tryAtomicSemop_spec h.stored htry).1.pending
    have htq : t.Quiet := by rwa [Quiet, hpending]
    have hsame := same_of_not_alters h.stored htry (Or.inl hpos.ne')
    refine ⟨htq.again q.sleeper, ?_⟩
    have herror : error = s.verdict q.sleeper q.sops := by
      rw [← verdict_eq s q.sleeper q.sops false now, htry]
    refine (h.tryAtomicSemop htry).1.settled_again (hs.congr hpending hsame.verdict)
      (hpending ▸ hmem) ?_
    rw [hsame.verdict]
    omega

theorem Settled.of_rewritten (hs : s.Settled) (hq : s.Quiet) (hu : s.Rewritten u) :
    u.Quiet ∧ u.Settled := by
  rcases hu with rfl | ⟨t, now, ht, hpending, -, rfl⟩
  · exact ⟨hq, hs⟩
  · have htq : t.Quiet := by rwa [Quiet, hpending]
    exact ⟨htq.updateQueue now, ht.settled_updateQueue htq now⟩

theorem Ok.semExit_settled (h : s.Ok) (hq : s.Quiet) (hs : s.Settled)
    (hp : ∀ q ∈ s.pending, q.sleeper ≠ p) (now : ℕ) :
    (s.semExit p now).2.Quiet ∧ (s.semExit p now).2.Settled := by
  cases hun : s.undo p with
  | none =>
    rw [semExit_none hun]
    have hpending : (s.dequeue p).pending = s.pending :=
      filter_eq_self.2 fun q hmem ↦ decide_eq_true (hp q hmem)
    exact ⟨hq.dequeue p, hs.congr hpending fun _ _ ↦ rfl⟩
  | some semadj =>
    rw [semExit_some hun]
    have hqd : ((s.dequeue p).adjust p semadj now).Quiet := hq.dequeue p
    exact ⟨hqd.updateQueue now, ((h.dequeue p).adjust p semadj now).settled_updateQueue hqd now⟩

end SemSet

namespace SemWorld

variable {w w' : SemWorld} {a : SemCall}

/-- No process goes to sleep with operations that have an increase and no decrease. -/
def Careful (w : SemWorld) : SemCall → Prop
  | .semop _ p sops => w.set.Careful p sops
  | _ => True

/-- **One step.** -/
theorem perform_settled (h : w.set.Ok) (hq : w.set.Quiet) (hs : w.set.Settled) (hl : w.Legal a)
    (hc : w.Careful a) : (w.perform a).set.Quiet ∧ (w.perform a).set.Settled := by
  cases a with
  | semop E p sops => exact h.sysSemop_settled hq hs hc E
  | wake p now =>
    rw [perform]
    split
    · rename_i q hfind
      exact h.semopWake_settled hq hs (mem_of_find?_eq_some hfind) now
    · exact ⟨hq, hs⟩
  | setval allowed p semnum v now =>
    exact hs.of_rewritten hq (h.semctlSetval_rewritten allowed p semnum v now)
  | setall E semIo => exact hs.of_rewritten hq (h.semctlSetall_rewritten E semIo)
  | exit p now => exact h.semExit_settled hq hs (ne_sleeper_of_notMem hl) now

theorem settled_of_path {w₀ : SemWorld} (h0 : machine.init w₀)
    (hp : Machine.Path machine Careful w₀ w) : w.set.Quiet ∧ w.set.Settled := by
  induction hp with
  | refl =>
    obtain ⟨-, -, hpending, -⟩ := h0
    refine ⟨fun q hq ↦ ?_, Or.inr fun q hq ↦ ?_⟩
    · rw [hpending] at hq
      cases hq
    · rw [hpending] at hq
      cases hq
  | step hp hl hc he ih =>
    cases he
    exact perform_settled (ok_of_path h0 hp) ih.1 ih.2 hl hc

/-- **No wake-up is lost**, if no process ever goes to sleep with operations that have an increase
and no decrease: whenever an operation on the queue could be done whose process has not been woken
up, another process has been, and will try. -/
theorem no_lost_wakeup {w₀ : SemWorld} (h0 : machine.init w₀)
    (hp : Machine.Path machine Careful w₀ w) {q : SemQueue} (hq : q ∈ w.set.pending)
    (hstatus : q.status ≠ 1) (hgo : w.set.verdict q.sleeper q.sops = 0) :
    ∃ r ∈ w.set.pending, r.status = 1 := by
  rcases (settled_of_path h0 hp).2 with ⟨r, hr, hone, -⟩ | hnone
  · exact ⟨r, hr, hone⟩
  · exact absurd ⟨hstatus, hgo⟩ (hnone q hq)

/-- Two processes wait for a semaphore, and the first is woken up. -/
theorem no_lost_wakeup_second : ∃ w, machine.trace (start 1)
      [.semop plainEnv 2 [⟨0, -1, 0, by decide⟩], .semop plainEnv 3 [⟨0, -1, 0, by decide⟩],
        .semop plainEnv 1 [⟨0, 1, 0, by decide⟩]] = some w ∧ ∃ r ∈ w.set.pending, r.status = 1 := by
  have htrace : machine.trace (start 1)
      [.semop plainEnv 2 [⟨0, -1, 0, by decide⟩], .semop plainEnv 3 [⟨0, -1, 0, by decide⟩],
        .semop plainEnv 1 [⟨0, 1, 0, by decide⟩]] = some _ := rfl
  have hpath : Machine.Path machine Careful (start 1) _ :=
    ((Machine.Path.refl.step (a := SemCall.semop plainEnv 2 [⟨0, -1, 0, by decide⟩])
        (by decide) (fun _ ↦ Or.inl rfl) rfl).step
      (a := SemCall.semop plainEnv 3 [⟨0, -1, 0, by decide⟩])
        (by decide) (fun _ ↦ Or.inl rfl) rfl).step
      (a := SemCall.semop plainEnv 1 [⟨0, 1, 0, by decide⟩]) (by decide) (fun hpos ↦ absurd hpos
        (by decide)) rfl
  exact ⟨_, htrace, no_lost_wakeup (start_init 1) hpath
    (.tail _ (.head _)) (by decide)
    (by decide)⟩

/-- Process 2 waits to take semaphore 0; process 3 waits for semaphore 1 to become zero, to then
increase semaphore 0.  Process 1 brings semaphore 1 to zero, and `update_queue` does what process 3
has waited for; but it has passed over process 2.  Nobody is on the way any more, and process 2
sleeps on. -/
theorem lost_wakeup : ∃ w, machine.Reachable w ∧ w.woken = [] ∧
    ∃ q ∈ w.set.pending, q.status ≠ 1 ∧ w.set.verdict q.sleeper q.sops = 0 ∧
      ∀ r ∈ w.set.pending, r.status ≠ 1 := by
  have htrace : machine.trace (start 2)
      [.semop plainEnv 1 [⟨1, 1, 0, by decide⟩], .semop plainEnv 2 [⟨0, -1, 0, by decide⟩],
        .semop plainEnv 3 [⟨1, 0, 0, by decide⟩, ⟨0, 1, 0, by decide⟩],
        .semop plainEnv 1 [⟨1, -1, 0, by decide⟩], .wake 3 0] = some _ := rfl
  exact ⟨_, (Machine.Reachable.init (start_init 2)).trace htrace, by decide,
    ⟨2, [⟨0, -1, 0, by decide⟩], true, true, -eIntr⟩, .head _, by decide, by decide, by decide⟩

end SemWorld

end Linux24.Ipc
