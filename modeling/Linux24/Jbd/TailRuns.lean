import Linux24.Jbd.RevokeRuns

/-!
# Where the transactions are in the log

The transactions that are still needed lie in the log one after the other, the oldest first, and the
log has come to `j_head` with the last one.  Each of them has its revoke blocks first.
`t_log_start` is the place after them, and it is where the tail is moved to when the transaction is
the oldest one that is needed.  From then on its revoke blocks count as free.

`InLog` is that the transactions are there, the first one from its `t_log_start` on.  It is kept by
a commit, since the blocks that are written are free: `j_free` and the blocks between `j_tail` and
`j_head` make up the ring, and what `cleanup_journal_tail` adds to `j_free` is the distance between
the two tails, across the end of the ring if need be.  `JournalWorld.Ok` is all that holds of the
journal, in every run.
-/

set_option autoImplicit false

namespace Linux24.Jbd

open Epochs List Function

variable {J : Journal}

/-! ## A committed transaction -/

theorem Committed.transaction_blocks (c : Committed) :
    c.transaction.blocks = c.revokes ++ c.fromLogStart.blocks := by
  rw [LogTransaction.blocks, transaction, flatMap_append, flatMap_map, append_assoc]
  congr 1
  exact flatMap_pure_eq_map _ _ |>.trans (map_id _)

/-- What holds of a committed transaction: it is in the log as it should be, and it logs and revokes
what has been asked for.  From `t_log_start` on it revokes nothing. -/
structure Transaction.Ok (J : Journal) (t : Transaction) : Prop where
  wellFormed : t.committed.transaction.WellFormed J t.tTid
  revoked : ∀ b, b ∈ t.committed.transaction.revoked ↔ Revoked t.ops b
  logged : ∀ b, last (t.committed.transaction.logged J) b = (logs t.ops b).map logBlock
  fromLogStart : t.committed.fromLogStart.WellFormed J t.tTid
  notRevoked : t.committed.fromLogStart.revoked = []
  sameLogged : t.committed.fromLogStart.logged J = t.committed.transaction.logged J

theorem JournalWorld.committing_ok {w : JournalWorld J} (h : w.running.Ok) (getblk : ℕ → Block) :
    (w.committing getblk).Ok J := by
  obtain ⟨hwf, hrev, hlogged, -⟩ := commit_transaction_spec getblk w.running.tTid w.jHead
    w.running.jRevoke w.running.metaBuffers
  obtain ⟨hwf', hrev', hlogged', -⟩ := commit_fromLogStart_spec getblk w.running.tTid w.jHead
    w.running.jRevoke w.running.metaBuffers
  refine ⟨hwf, fun b ↦ ?_, fun b ↦ ?_, hwf', hrev', hlogged'.trans hlogged.symm⟩
  · have hmem : b ∈ _ ↔ b ∈ w.running.jRevoke.records.map RevokeRecord.blocknr :=
      iff_of_eq (congrArg (b ∈ ·) hrev)
    exact hmem.trans ((h.hashed.mem_records b).trans (h.count_pos b))
  · have hmap : w.running.metaBuffers.map MetaBuffer.logged =
        w.running.tBuffers.map fun v ↦ (v.1, logBlock v.2) := by
      rw [Running.metaBuffers, map_map]
      exact map_congr_left fun v _ ↦
        congrArg (Prod.mk v.1) (newData_eq_logBlock ⟨v.1, v.2, none⟩)
    have hlast := last_map logBlock w.running.tBuffers b
    rw [← hmap, ← hlogged, h.tBuffers] at hlast
    exact hlast

/-! ## The place of the transactions -/

/-- The blocks of the transactions, from the `t_log_start` of the first one on. -/
def usedBlocks : List Transaction → List Block
  | [] => []
  | t :: ts => t.committed.fromLogStart.blocks ++ ts.flatMap fun t ↦ t.committed.transaction.blocks

/-- The transactions begin where they say, if the first one with its revoke blocks begins at `p`. -/
def Starts (J : Journal) : ℕ → List Transaction → Prop
  | _, [] => True
  | p, t :: ts => t.committed.tLogStart = J.next^[t.committed.revokes.length] p ∧
    Starts J (J.next^[t.committed.transaction.blocks.length] p) ts

/-- The transactions are in the log, and it has come to `head` with them. -/
structure InLog (J : Journal) (log : Log) (t : Transaction) (later : List Transaction) (head : ℕ) :
    Prop where
  ring : J.InRing t.committed.tLogStart
  holds : log.Holds J t.committed.tLogStart (usedBlocks (t :: later))
  starts : Starts J (J.next^[t.committed.fromLogStart.blocks.length] t.committed.tLogStart) later
  head : J.next^[(usedBlocks (t :: later)).length] t.committed.tLogStart = head

variable {ts : List Transaction}

theorem starts_concat {p : ℕ} {t : Transaction} (h : Starts J p ts)
    (ht : t.committed.tLogStart = J.next^[t.committed.revokes.length]
      (J.next^[(ts.flatMap fun t ↦ t.committed.transaction.blocks).length] p)) :
    Starts J p (ts ++ [t]) := by
  induction ts generalizing p with
  | nil => exact ⟨ht, trivial⟩
  | cons t' ts ih =>
    refine ⟨h.1, ih h.2 ?_⟩
    rw [ht, flatMap_cons, length_append, add_comm, iterate_add_apply]

theorem usedBlocks_concat (hne : ts ≠ []) (t : Transaction) :
    usedBlocks (ts ++ [t]) = usedBlocks ts ++ t.committed.transaction.blocks := by
  cases ts with
  | nil => exact absurd rfl hne
  | cons t' ts =>
    rw [cons_append, usedBlocks, usedBlocks]
    simp

theorem usedBlocks_cons_cons (t t' : Transaction) (ts : List Transaction) :
    usedBlocks (t :: t' :: ts) =
      t.committed.fromLogStart.blocks ++ (t'.committed.revokes ++ usedBlocks (t' :: ts)) := by
  rw [usedBlocks, usedBlocks, flatMap_cons, Committed.transaction_blocks, append_assoc]

namespace InLog

variable {log : Log} {t t' : Transaction} {later : List Transaction} {head : ℕ}

theorem drop (h : InLog J log t (t' :: later) head) : InLog J log t' later head := by
  have hholds := h.holds
  have hhead := h.head
  obtain ⟨hstart, hrest⟩ := h.starts
  rw [usedBlocks_cons_cons, Log.holds_append, Log.holds_append, ← hstart] at hholds
  rw [usedBlocks_cons_cons, length_append, length_append, add_comm, add_comm
    t'.committed.revokes.length, iterate_add_apply, iterate_add_apply, ← hstart]
    at hhead
  refine ⟨?_, hholds.2.2, ?_, hhead⟩
  · rw [hstart]
    exact (h.ring.iterate _).iterate _
  · rw [Committed.transaction_blocks, length_append, add_comm, iterate_add_apply,
      ← hstart] at hrest
    exact hrest

theorem single (hring : J.InRing head)
    (hstart : t.committed.tLogStart = J.next^[t.committed.revokes.length] head)
    (hroom : t.committed.transaction.blocks.length ≤ J.size) :
    InLog J (log.write J head t.committed.transaction.blocks) t []
      (J.next^[t.committed.transaction.blocks.length] head) := by
  have hwrite : (log.write J head t.committed.transaction.blocks).Holds J head
      (t.committed.revokes ++ t.committed.fromLogStart.blocks) := by
    rw [← Committed.transaction_blocks]
    exact Log.write_holds hring hroom
  rw [Log.holds_append, ← hstart] at hwrite
  have hused : usedBlocks [t] = t.committed.fromLogStart.blocks := append_nil _
  refine ⟨hstart ▸ hring.iterate _, hused ▸ hwrite.2, trivial, ?_⟩
  rw [hused, hstart, ← iterate_add_apply, Committed.transaction_blocks, length_append, add_comm]

theorem concat (h : InLog J log t later head)
    (hstart : t'.committed.tLogStart = J.next^[t'.committed.revokes.length] head)
    (hroom : (usedBlocks (t :: later)).length + t'.committed.transaction.blocks.length ≤ J.size) :
    InLog J (log.write J head t'.committed.transaction.blocks) t (later ++ [t'])
      (J.next^[t'.committed.transaction.blocks.length] head) := by
  have hused := usedBlocks_concat (cons_ne_nil t later) t'
  rw [cons_append] at hused
  have hring : J.InRing head := h.head ▸ h.ring.iterate _
  refine ⟨h.ring, ?_, starts_concat h.starts ?_, ?_⟩
  · rw [hused, Log.holds_append, h.head]
    exact ⟨h.holds.write h.ring h.head.symm hroom, Log.write_holds hring (by omega)⟩
  · rw [hstart, ← h.head, usedBlocks, length_append, add_comm, iterate_add_apply]
  · rw [hused, length_append, add_comm, iterate_add_apply, h.head]

end InLog

/-! ## Runs -/

/-- The tids are consecutive, up to the one that comes next. -/
def TidsTo (tid : Tid) : List Transaction → Prop
  | [] => True
  | t :: ts => tidAdd t.tTid (ts.length + 1) = tid ∧ TidsTo tid ts

theorem TidsTo.concat {t : Transaction} (h : TidsTo t.tTid ts) :
    TidsTo (t.tTid + 1) (ts ++ [t]) := by
  induction ts with
  | nil => exact ⟨rfl, trivial⟩
  | cons t' ts ih =>
    refine ⟨?_, ih h.2⟩
    change tidAdd t'.tTid ((ts ++ [t]).length + 1) = _
    rw [length_append, length_singleton, ← h.1, tidAdd_succ]

namespace JournalWorld

variable {w w' : JournalWorld J} {c : JournalCall}

/-- What holds of the journal.  From `j_tail` to `j_head` are the blocks that are not free, and the
transactions that are still needed are among them. -/
structure Ok (w : JournalWorld J) : Prop where
  running : w.running.Ok
  transactions : ∀ t ∈ w.transactions, t.Ok J
  tids : TidsTo w.running.tTid w.transactions
  headInRing : J.InRing w.jHead
  tailInRing : J.InRing w.jTail
  free_pos : 0 < w.jFree
  free_le : w.jFree ≤ J.size
  tail : J.next^[J.size - w.jFree] w.jTail = w.jHead
  inLog : ∀ t later, w.transactions = t :: later → InLog J w.log t later w.jHead
  used : (usedBlocks w.transactions).length + w.jFree ≤ J.size

theorem Ok.setRunning (h : w.Ok) {r : Running J} (hr : r.Ok) (htid : r.tTid = w.running.tTid) :
    Ok { w with running := r } :=
  { h with
    running := hr
    tids := htid ▸ h.tids }

/-- **A commit.** -/
theorem Ok.commit (h : w.Ok) {getblk : ℕ → Block}
    (hroom : (w.committing getblk).committed.transaction.blocks.length < w.jFree) :
    (w.commit getblk).Ok := by
  have hused := h.used
  have htok := committing_ok h.running getblk
  set t := w.committing getblk
  set n := t.committed.transaction.blocks.length with hn
  have hstart : t.committed.tLogStart = J.next^[t.committed.revokes.length] w.jHead := rfl
  have hsplit := congrArg length t.committed.transaction_blocks
  rw [length_append] at hsplit
  refine ⟨h.running.next, ?_, ?_, h.headInRing.iterate n, h.tailInRing, ?_, ?_, ?_, ?_, ?_⟩
  · change ∀ t' ∈ w.transactions ++ [t], t'.Ok J
    rw [forall_mem_append]
    exact ⟨h.transactions, forall_mem_singleton.2 htok⟩
  · exact TidsTo.concat (t := t) h.tids
  · change 0 < w.jFree - n
    omega
  · change w.jFree - n ≤ J.size
    omega
  · change J.next^[J.size - (w.jFree - n)] w.jTail = J.next^[n] w.jHead
    rw [← h.tail, ← iterate_add_apply]
    congr 1
    omega
  · intro t' later heq
    change w.transactions ++ [t] = t' :: later at heq
    cases hts : w.transactions with
    | nil =>
      rw [hts, nil_append] at heq
      obtain ⟨rfl, rfl⟩ := heq
      exact .single h.headInRing hstart (show n ≤ J.size by omega)
    | cons t₀ ts =>
      rw [hts, cons_append, cons.injEq] at heq
      obtain ⟨rfl, rfl⟩ := heq
      rw [hts] at hused
      exact (h.inLog t₀ ts hts).concat hstart (show _ + n ≤ J.size by omega)
  · change (usedBlocks (w.transactions ++ [t])).length + (w.jFree - n) ≤ J.size
    cases hts : w.transactions with
    | nil =>
      change (t.committed.fromLogStart.blocks ++ []).length + (w.jFree - n) ≤ J.size
      rw [append_nil]
      omega
    | cons t₀ ts =>
      rw [usedBlocks_concat (cons_ne_nil t₀ ts), length_append]
      rw [hts] at hused
      omega

theorem Ok.drop (h : w.Ok) (n : ℕ) : Ok { w with transactions := w.transactions.drop n } := by
  induction n generalizing w with
  | zero => exact h
  | succ n ih =>
    cases hts : w.transactions with
    | nil =>
      have heq : { w with transactions := ([] : List Transaction).drop (n + 1) } = w := by
        cases w
        simp_all
      rw [heq]
      exact h
    | cons t ts =>
      have htids := h.tids
      have hused := h.used
      have hok := h.transactions
      rw [hts] at htids hused hok
      refine ih (w := { w with transactions := ts }) { h with
        transactions := fun t' ht' ↦ hok t' (mem_cons_of_mem t ht')
        tids := htids.2
        inLog := fun t' later heq ↦ ?_
        used := ?_ }
      · have hin := h.inLog t ts hts
        rw [show ts = t' :: later from heq] at hin
        exact hin.drop
      · cases ts with
        | nil =>
          exact (zero_add _).trans_le h.free_le
        | cons t' ts =>
          rw [usedBlocks_cons_cons, length_append, length_append] at hused
          change (usedBlocks (t' :: ts)).length + w.jFree ≤ J.size
          omega

/-- The oldest transaction begins as far before the head as its blocks and those after it are
long. -/
theorem Ok.oldest (h : w.Ok) : J.InRing w.oldest.2 ∧
    J.next^[(usedBlocks w.transactions).length] w.oldest.2 = w.jHead := by
  rw [JournalWorld.oldest]
  cases hts : w.transactions with
  | nil => exact ⟨h.headInRing, rfl⟩
  | cons t ts => exact ⟨(h.inLog t ts hts).ring, (h.inLog t ts hts).head⟩

/-- **The tail is moved.** -/
theorem Ok.cleanupJournalTail (h : w.Ok) : w.cleanupJournalTail.Ok := by
  obtain ⟨hring, hhead⟩ := h.oldest
  rw [JournalWorld.cleanupJournalTail]
  dsimp only
  split
  · exact h
  have hused := h.used
  have hpos := h.free_pos
  set u := (usedBlocks w.transactions).length
  -- what is freed is what lies between the old tail and the new one
  have hplace : w.oldest.2 = J.next^[J.size - w.jFree - u] w.jTail := by
    refine hring.next_injective (h.tailInRing.iterate _) u ?_
    rw [hhead, ← iterate_add_apply, ← h.tail]
    congr 1
    omega
  have hfreed : J.distance w.jTail w.oldest.2 = J.size - w.jFree - u := by
    rw [hplace]
    exact h.tailInRing.distance_iterate (by omega)
  refine { h with tailInRing := hring, free_pos := ?_, free_le := ?_, tail := ?_, used := ?_ }
  · dsimp only
    omega
  · dsimp only
    omega
  · rw [hfreed, show J.size - (w.jFree + (J.size - w.jFree - u)) = u by omega]
    exact hhead
  · change u + (w.jFree + J.distance w.jTail w.oldest.2) ≤ J.size
    omega

/-- **One step**: it does not hit an assertion, and what holds is kept. -/
theorem perform_ok (h : w.Ok) (hl : w.Legal c) : ∃ w', w.perform c = .ok w' ∧ w'.Ok := by
  cases c with
  | op op =>
    cases op with
    | write b content => exact ⟨_, rfl, h.setRunning (h.running.write b content) rfl⟩
    | revoke b bhIn =>
      obtain ⟨r, hr, hok, htid⟩ := h.running.journalRevoke hl bhIn
      refine ⟨{ w with running := r }, ?_, h.setRunning hok htid⟩
      rw [perform, hr]
      rfl
  | evict b => exact ⟨_, rfl, h.setRunning (h.running.evict b) rfl⟩
  | commit getblk => exact ⟨_, rfl, h.commit hl⟩
  | cleanup n => exact ⟨_, rfl, (h.drop n).cleanupJournalTail⟩

theorem init_ok (h : (machine J).init w) : w.Ok := by
  obtain ⟨hrevoke, hbuffers, htBuffers, hops, -, hhead, htail, hfree, -, hts⟩ := h
  have hlt := J.first_lt
  have hring : J.InRing J.jFirst := ⟨le_rfl, hlt⟩
  have hnone : ∀ b, ¬Revoked w.running.ops b := by
    rintro b ⟨bhIn, hlast⟩
    rw [hops] at hlast
    cases hlast
  refine ⟨⟨hrevoke ▸ RevokeTable.hashed_empty, ?_, ?_, fun b hb ↦ absurd hb (hnone b),
    ?_, ?_, ?_, ?_⟩,
    ?_, ?_, hhead ▸ hring, htail ▸ hring, ?_, hfree.le, ?_, ?_, ?_⟩
  · intro b
    rw [hrevoke]
    exact zero_le
  · intro b
    rw [hrevoke]
    exact iff_of_false (lt_irrefl 0) (hnone b)
  · intro b bh hbh
    cases (hbuffers b).symm.trans hbh
  · intro b bh hbh
    cases (hbuffers b).symm.trans hbh
  · rw [htBuffers]
    exact nodup_nil
  · intro b
    rw [htBuffers, hops]
    rfl
  · rw [hts]
    exact forall_mem_nil _
  · rw [hts]
    trivial
  · rw [hfree, Journal.size]
    omega
  · rw [hfree, Nat.sub_self, htail, hhead]
    rfl
  · intro t later heq
    rw [hts] at heq
    cases heq
  · rw [hts, hfree]
    exact (zero_add _).le

/-- **In every run.** -/
theorem ok_of_reachable (h : (machine J).Reachable w) : w.Ok := by
  refine h.invariant (fun _ ↦ init_ok) fun w c w' hw hl he ↦ ?_
  obtain ⟨w'', hw'', hok⟩ := perform_ok hw hl
  cases hw''.symm.trans he
  exact hok

end JournalWorld

end Linux24.Jbd
