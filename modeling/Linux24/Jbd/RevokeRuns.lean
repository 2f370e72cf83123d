import Linux24.Jbd.Revoke

/-!
# The revoke table while the journal is used

The table of the running transaction has a record for a block if and only if the last operation on
the block in this transaction is a revoke, and then it has one: `Running.Ok`.  A write deletes at
most one record, and only if the bits of the buffer do not say that there is none.  So it has to be
known that there is never more than one, which is where a block must not be freed twice, and that
the bits are right when they are trusted.  It does not matter when buffers are dropped from memory.

The bit that `journal_revoke` asserts not to be set is one that only a revoke sets and any write
clears.  So the assertion holds if no block is freed twice: `Running.Ok.journalRevoke`.

What a transaction logs is `logs` of its operations.  It is what has been written to a block last,
except that a revoke takes the buffer out of the transaction, and does this only if it has been
given the buffer.
-/

set_option autoImplicit false

namespace Linux24.Jbd

open Epochs List Function

variable {J : Journal}

/-! ## The last operation on a block -/

/-- The last operation on a block. -/
def lastOp (ops : List JournalOp) (b : Word) : Option JournalOp :=
  last (ops.map fun op ↦ (op.blocknr, op)) b

/-- The last operation on the block is a revoke. -/
def Revoked (ops : List JournalOp) (b : Word) : Prop := ∃ bhIn, lastOp ops b = some (.revoke b bhIn)

theorem lastOp_append (as bs : List JournalOp) (b : Word) :
    lastOp (as ++ bs) b = (lastOp bs b).or (lastOp as b) := by
  rw [lastOp, map_append, last_append, lastOp, lastOp]

theorem lastOp_concat (ops : List JournalOp) (op : JournalOp) (b : Word) :
    lastOp (ops ++ [op]) b = if op.blocknr = b then some op else lastOp ops b := by
  rw [lastOp_append, lastOp]
  simp only [map_cons, map_nil, last, Option.none_or]
  split <;> rfl

/-- What a transaction logs of every block, after an operation: a revoke takes the buffer out of the
transaction only if it is given. -/
def logsStep (m : Word → Option Block) : JournalOp → Word → Option Block
  | .write blocknr content => update m blocknr (some content)
  | .revoke blocknr true => update m blocknr none
  | .revoke _ false => m

/-- What a transaction logs of every block. -/
def logs (ops : List JournalOp) : Word → Option Block := ops.foldl logsStep fun _ ↦ none

theorem logs_concat (ops : List JournalOp) (op : JournalOp) :
    logs (ops ++ [op]) = logsStep (logs ops) op := foldl_append

theorem logsStep_of_ne (m : Word → Option Block) {op : JournalOp} {b : Word} (h : op.blocknr ≠ b) :
    logsStep m op b = m b := by
  cases op with
  | write blocknr content => exact update_of_ne h.symm _ _
  | revoke blocknr bhIn =>
    cases bhIn with
    | false => rfl
    | true => exact update_of_ne h.symm _ _

variable {ops : List JournalOp}

theorem logs_of_write {b : Word} {content : Block}
    (h : lastOp ops b = some (.write b content)) : logs ops b = some content := by
  induction ops using reverseRecOn with
  | nil => cases h
  | append_singleton ops op ih =>
    rw [lastOp_concat] at h
    rw [logs_concat]
    split at h
    · cases h
      exact update_self ..
    · rename_i hne
      rw [logsStep_of_ne _ hne]
      exact ih h

/-- A block that nothing is done to is not logged. -/
theorem logs_of_none {b : Word} (h : lastOp ops b = none) :
    logs ops b = none := by
  induction ops using reverseRecOn with
  | nil => rfl
  | append_singleton ops op ih =>
    rw [lastOp_concat] at h
    rw [logs_concat]
    split at h
    · cases h
    · rename_i hne
      rw [logsStep_of_ne _ hne]
      exact ih h

/-- The last operation on a block is about that block. -/
theorem blocknr_of_lastOp {b : Word} {op : JournalOp}
    (h : lastOp ops b = some op) : op.blocknr = b := by
  induction ops using reverseRecOn with
  | nil => cases h
  | append_singleton ops op' ih =>
    rw [lastOp_concat] at h
    split at h
    · rename_i heq
      cases h
      exact heq
    · exact ih h

/-! ## The revoke table -/

section Erase

variable {α : Type} {p q : α → Bool}

theorem countP_eraseP_self (l : List α) : (l.eraseP p).countP p = l.countP p - 1 := by
  induction l with
  | nil => rfl
  | cons a l ih =>
    by_cases ha : p a = true
    · rw [eraseP_cons_of_pos ha, countP_cons_of_pos ha, Nat.add_sub_cancel]
    · rw [eraseP_cons_of_neg ha, countP_cons_of_neg ha, countP_cons_of_neg ha, ih]

theorem countP_eraseP_of_disjoint (h : ∀ a, p a = true → ¬q a = true) (l : List α) :
    (l.eraseP p).countP q = l.countP q := by
  induction l with
  | nil => rfl
  | cons a l ih =>
    by_cases ha : p a = true
    · rw [eraseP_cons_of_pos ha, countP_cons_of_neg (h a ha)]
    · rw [eraseP_cons_of_neg ha, countP_cons, countP_cons, ih]

end Erase

namespace RevokeTable

variable {T : RevokeTable J} {b b' : Word} {seq : Tid}

/-- How many records there are for a block. -/
def count (T : RevokeTable J) (b : Word) : ℕ :=
  (T (J.hash b)).countP fun record ↦ decide (record.blocknr = b)

/-- Every record is in the list that its block is hashed to. -/
def Hashed (T : RevokeTable J) : Prop := ∀ h, ∀ record ∈ T h, J.hash record.blocknr = h

theorem hashed_empty : (empty J).Hashed := fun _ _ hmem ↦ absurd hmem not_mem_nil

theorem count_insert (T : RevokeTable J) (b : Word) (seq : Tid) (b' : Word) :
    (T.insertRevokeHash b seq).count b' = if b' = b then T.count b + 1 else T.count b' := by
  rw [count, insertRevokeHash, update_apply]
  by_cases hb : b' = b
  · subst hb
    rw [if_pos rfl, if_pos rfl, countP_cons_of_pos (by simp)]
    rfl
  · split
    · rename_i hhash
      rw [countP_cons_of_neg (by simpa using Ne.symm hb), count, hhash]
    · rfl

theorem count_delete (T : RevokeTable J) (b b' : Word) :
    (T.deleteRecord b).count b' = if b' = b then T.count b - 1 else T.count b' := by
  rw [count, deleteRecord, update_apply]
  by_cases hb : b' = b
  · subst hb
    rw [if_pos rfl, if_pos rfl, countP_eraseP_self, count]
  · split
    · rename_i hhash
      rw [countP_eraseP_of_disjoint, count, hhash]
      intro record hrecord hrecord'
      exact hb ((of_decide_eq_true hrecord').symm.trans (of_decide_eq_true hrecord))
    · rfl

theorem Hashed.insert (h : T.Hashed) (b : Word) (seq : Tid) :
    (T.insertRevokeHash b seq).Hashed := by
  intro k record hmem
  rw [insertRevokeHash, update_apply] at hmem
  split at hmem
  · rename_i hk
    rcases mem_cons.1 hmem with rfl | hmem
    · exact hk.symm
    · rw [hk]
      exact h _ record hmem
  · exact h k record hmem

theorem Hashed.delete (h : T.Hashed) (b : Word) : (T.deleteRecord b).Hashed := by
  intro k record hmem
  rw [deleteRecord, update_apply] at hmem
  split at hmem
  · rename_i hk
    rw [hk]
    exact h _ record (mem_of_mem_eraseP hmem)
  · exact h k record hmem

/-- What the revoke blocks name. -/
theorem Hashed.mem_records (h : T.Hashed) (b : Word) :
    b ∈ T.records.map RevokeRecord.blocknr ↔ 0 < T.count b := by
  rw [count, countP_pos_iff, mem_map]
  constructor
  · rintro ⟨record, hmem, rfl⟩
    obtain ⟨k, -, hk⟩ := mem_flatMap.1 hmem
    refine ⟨record, ?_, by simp⟩
    rw [h k record hk]
    exact hk
  · rintro ⟨record, hmem, heq⟩
    exact ⟨record, mem_flatMap.2 ⟨_, mem_finRange _, hmem⟩, of_decide_eq_true heq⟩

end RevokeTable

/-! ## The metadata buffers -/

section Buffers

variable {ws : List (Word × Block)} {b b' : Word} {content : Block}

theorem mem_keys_setBuffer :
    b' ∈ (setBuffer ws b content).map Prod.fst ↔ b' = b ∨ b' ∈ ws.map Prod.fst := by
  induction ws with
  | nil => simp [setBuffer]
  | cons w ws ih =>
    rw [setBuffer]
    split
    · rename_i heq
      simp [heq]
    · rw [map_cons, mem_cons, ih, map_cons, mem_cons]
      exact or_left_comm

theorem nodup_setBuffer (h : (ws.map Prod.fst).Nodup) :
    ((setBuffer ws b content).map Prod.fst).Nodup := by
  induction ws with
  | nil => simp [setBuffer]
  | cons w ws ih =>
    rw [map_cons, nodup_cons] at h
    rw [setBuffer]
    split
    · rename_i heq
      rw [map_cons, nodup_cons, ← heq]
      exact h
    · rename_i hne
      rw [map_cons, nodup_cons, mem_keys_setBuffer]
      exact ⟨fun hmem ↦ hmem.elim hne h.1, ih h.2⟩

theorem last_setBuffer (h : (ws.map Prod.fst).Nodup) :
    last (setBuffer ws b content) b' = if b' = b then some content else last ws b' := by
  induction ws with
  | nil => simp [setBuffer, last, eq_comm]
  | cons w ws ih =>
    rw [map_cons, nodup_cons] at h
    rw [setBuffer]
    split
    · rename_i heq
      have hnone : last ws b = none :=
        last_eq_none_iff.2 fun v hv hvb ↦ h.1 (heq.trans hvb.symm ▸ mem_map_of_mem hv)
      rw [last, last, heq]
      by_cases hb : b' = b
      · rw [hb, hnone]
        simp
      · simp [hb, Ne.symm hb]
    · rename_i hne
      rw [last, last, ih h.2]
      by_cases hb : b' = b
      · simp [hb]
      · simp [hb]

theorem last_journalForget :
    last (journalForget ws b) b' = if b' = b then none else last ws b' := by
  have hfilter := last_filter (fun k ↦ decide (k ≠ b)) ws b'
  rw [journalForget, hfilter]
  by_cases hb : b' = b <;> simp

end Buffers

/-! ## The running transaction -/

namespace Running

variable {r r' : Running J} {b : Word} {content : Block} {bhIn : Bool}

/-- What holds of the running transaction.  There is a record for a block if and only if the last
operation on it is a revoke, and then there is one.  The bits of a buffer that says that there is
none are right. -/
structure Ok (r : Running J) : Prop where
  hashed : r.jRevoke.Hashed
  count_le : ∀ b, r.jRevoke.count b ≤ 1
  count_pos : ∀ b, 0 < r.jRevoke.count b ↔ Revoked r.ops b
  freed : ∀ b, Revoked r.ops b → r.freed b = true
  revoked : ∀ b bh, r.buffers b = some bh → bh.revoked = true → r.freed b = true
  valid : ∀ b bh, r.buffers b = some bh → bh.revokeValid = true → bh.revoked = false →
    r.jRevoke.count b = 0
  keys : (r.tBuffers.map Prod.fst).Nodup
  tBuffers : ∀ b, last r.tBuffers b = logs r.ops b

theorem revoked_write {ops : List JournalOp} {b' : Word} :
    Revoked (ops ++ [.write b content]) b' ↔ b' ≠ b ∧ Revoked ops b' := by
  rw [Revoked]
  simp only [lastOp_concat, JournalOp.blocknr]
  by_cases hb : b' = b
  · simp [hb]
  · simp [hb, Ne.symm hb, Revoked]

theorem revoked_revoke {ops : List JournalOp} {b' : Word} :
    Revoked (ops ++ [.revoke b bhIn]) b' ↔ b' = b ∨ Revoked ops b' := by
  rw [Revoked]
  simp only [lastOp_concat, JournalOp.blocknr]
  by_cases hb : b' = b
  · simp [hb]
  · simp [hb, Ne.symm hb, Revoked]

/-- After `journal_cancel_revoke` there is no record for the block. -/
theorem Ok.count_cancel (h : r.Ok) (b b' : Word) :
    (journalCancelRevoke r.jRevoke ((r.buffers b).getD .new) b).count b' =
      if b' = b then 0 else r.jRevoke.count b' := by
  have hle := h.count_le b
  rw [journalCancelRevoke]
  split
  · rw [RevokeTable.count_delete]
    split
    · omega
    · rfl
  · rename_i hcancel
    split
    · rename_i hb
      subst hb
      -- the record is not looked for only if the bits say that there is none
      cases hbh : r.buffers b' with
      | none => simp [hbh, BufferHead.new, BufferHead.needCancel] at hcancel
      | some bh =>
        rw [hbh, BufferHead.needCancel] at hcancel
        cases hvalid : bh.revokeValid with
        | false => simp [hvalid] at hcancel
        | true => exact h.valid b' bh hbh hvalid (by simpa [hvalid] using hcancel)
    · rfl

theorem Ok.hashed_cancel (h : r.Ok) (bh : BufferHead) (b : Word) :
    (journalCancelRevoke r.jRevoke bh b).Hashed := by
  rw [journalCancelRevoke]
  split
  · exact h.hashed.delete b
  · exact h.hashed

/-- **A write.** -/
theorem Ok.write (h : r.Ok) (b : Word) (content : Block) : (r.write b content).Ok where
  hashed := h.hashed_cancel _ b
  count_le b' := by
    have hle := h.count_le b'
    change (journalCancelRevoke _ _ b).count b' ≤ 1
    rw [h.count_cancel]
    split <;> omega
  count_pos b' := by
    change 0 < (journalCancelRevoke _ _ b).count b' ↔ Revoked (r.ops ++ [.write b content]) b'
    rw [h.count_cancel, revoked_write, ← h.count_pos b']
    by_cases hb : b' = b <;> simp [hb]
  freed b' hrev := by
    change update r.freed b false b' = true
    obtain ⟨hne, hrev⟩ := revoked_write.1 hrev
    rw [update_of_ne hne]
    exact h.freed b' hrev
  revoked b' bh hbh hbit := by
    change update r.buffers b _ b' = some bh at hbh
    change update r.freed b false b' = true
    rw [update_apply] at hbh ⊢
    split at hbh
    · cases hbh
      cases hbit
    · rename_i hne
      rw [if_neg hne]
      exact h.revoked b' bh hbh hbit
  valid b' bh hbh hvalid hbit := by
    change update r.buffers b _ b' = some bh at hbh
    change (journalCancelRevoke _ _ b).count b' = 0
    rw [update_apply] at hbh
    rw [h.count_cancel]
    split
    · rfl
    · rename_i hne
      rw [if_neg hne] at hbh
      exact h.valid b' bh hbh hvalid hbit
  keys := nodup_setBuffer h.keys
  tBuffers b' := by
    change last (setBuffer r.tBuffers b content) b' = logs (r.ops ++ [.write b content]) b'
    rw [last_setBuffer h.keys, logs_concat, h.tBuffers]
    exact (update_apply ..).symm

/-- A record is put into the table, after the bits have been set if there is a buffer. -/
theorem Ok.insert (h : r.Ok) (hfreed : r.freed b = false) {buffers : Word → Option BufferHead}
    {tBuffers : List (Word × Block)}
    (hother : ∀ b' ≠ b, buffers b' = r.buffers b')
    (hbits : ∀ bh, buffers b = some bh → bh.revokeValid = true → bh.revoked = true)
    (hkeys : (tBuffers.map Prod.fst).Nodup)
    (hlast : ∀ b', last tBuffers b' = logs (r.ops ++ [.revoke b bhIn]) b') :
    (insert { r with buffers := buffers, tBuffers := tBuffers } b bhIn).Ok := by
  have hnone : r.jRevoke.count b = 0 := by
    by_contra hne
    have hrev := h.freed b ((h.count_pos b).1 (Nat.pos_of_ne_zero hne))
    rw [hfreed] at hrev
    cases hrev
  have hcount : ∀ b', (r.jRevoke.insertRevokeHash b r.tTid).count b' =
      if b' = b then 1 else r.jRevoke.count b' := by
    intro b'
    rw [RevokeTable.count_insert, hnone]
  refine ⟨h.hashed.insert b r.tTid, fun b' ↦ ?_, fun b' ↦ ?_, fun b' hrev ↦ ?_,
    fun b' bh hbh hbit ↦ ?_,
    fun b' bh hbh hvalid hbit ↦ ?_, hkeys, hlast⟩
  · change (r.jRevoke.insertRevokeHash b r.tTid).count b' ≤ 1
    have hle := h.count_le b'
    rw [hcount]
    split <;> omega
  · change 0 < (r.jRevoke.insertRevokeHash b r.tTid).count b' ↔
      Revoked (r.ops ++ [.revoke b bhIn]) b'
    rw [hcount, revoked_revoke, ← h.count_pos b']
    by_cases hb : b' = b <;> simp [hb]
  · change update r.freed b true b' = true
    rw [update_apply]
    split
    · rfl
    · rename_i hne
      exact h.freed b' ((revoked_revoke.1 hrev).resolve_left hne)
  · change update r.freed b true b' = true
    rw [update_apply]
    split
    · rfl
    · rename_i hne
      exact h.revoked b' bh ((hother b' hne).symm.trans hbh) hbit
  · change (r.jRevoke.insertRevokeHash b r.tTid).count b' = 0
    rw [hcount]
    split
    · rename_i hb
      rw [hb] at hbh
      cases (hbits bh hbh hvalid).symm.trans hbit
    · rename_i hne
      exact h.valid b' bh ((hother b' hne).symm.trans hbh) hvalid hbit

/-- **A revoke** of a block that is not free does not hit the assertion. -/
theorem Ok.journalRevoke (h : r.Ok) (hfreed : r.freed b = false) (bhIn : Bool) :
    ∃ r', r.journalRevoke b bhIn = .ok r' ∧ r'.Ok ∧ r'.tTid = r.tTid := by
  have hbit : ∀ bh, r.buffers b = some bh → bh.revoked = false := by
    intro bh hbh
    cases hrev : bh.revoked with
    | false => rfl
    | true => cases hfreed.symm.trans (h.revoked b bh hbh hrev)
  rw [Running.journalRevoke]
  cases bhIn with
  | true =>
    have hfresh : ((r.buffers b).getD .new).revoked = false := by
      cases hbh : r.buffers b with
      | none => rfl
      | some bh => exact hbit bh hbh
    rw [if_pos rfl]
    dsimp only
    rw [hfresh]
    refine ⟨_, rfl, h.insert hfreed (fun b' hne ↦ update_of_ne hne _ _) ?_ ?_ fun b' ↦ ?_, rfl⟩
    · intro bh hbh _
      rw [update_self] at hbh
      cases hbh
      rfl
    · exact (filter_sublist.map Prod.fst).nodup h.keys
    · rw [if_pos rfl, last_journalForget, logs_concat, h.tBuffers]
      exact (update_apply ..).symm
  | false =>
    have hlast : ∀ b', last r.tBuffers b' = logs (r.ops ++ [.revoke b false]) b' := by
      intro b'
      rw [logs_concat, h.tBuffers]
      rfl
    rw [if_neg (by simp)]
    cases hbh : r.buffers b with
    | none =>
      refine ⟨_, rfl, h.insert hfreed (fun _ _ ↦ rfl) (fun bh hbh' ↦ ?_) h.keys hlast, rfl⟩
      cases hbh.symm.trans hbh'
    | some bh =>
      dsimp only
      rw [hbit bh hbh]
      refine ⟨_, rfl, h.insert hfreed (fun b' hne ↦ update_of_ne hne _ _) ?_ h.keys hlast, rfl⟩
      intro bh hbh _
      rw [update_self] at hbh
      cases hbh
      rfl

/-- A buffer is dropped: its bits are not missed. -/
theorem Ok.evict (h : r.Ok) (b : Word) : (r.evict b).Ok := by
  have hbuffer : ∀ b' bh, update r.buffers b none b' = some bh →
      r.buffers b' = some bh := by
    intro b' bh hbh
    rw [update_apply] at hbh
    split at hbh
    · cases hbh
    · exact hbh
  exact { h with
    revoked := fun b' bh hbh ↦ h.revoked b' bh (hbuffer b' bh hbh)
    valid := fun b' bh hbh ↦ h.valid b' bh (hbuffer b' bh hbh) }

/-- The next transaction begins with an empty table. -/
theorem Ok.next (h : r.Ok) : r.next.Ok where
  hashed := RevokeTable.hashed_empty
  count_le _ := zero_le
  count_pos b := by
    refine ⟨fun hpos ↦ absurd hpos (lt_irrefl 0), ?_⟩
    rintro ⟨bhIn, hlast⟩
    cases hlast
  freed b hrev := by
    obtain ⟨bhIn, hlast⟩ := hrev
    cases hlast
  revoked := h.revoked
  valid _ _ _ _ _ := rfl
  keys := nodup_nil
  tBuffers _ := rfl

end Running

end Linux24.Jbd
