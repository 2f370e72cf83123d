import Linux24.Jbd.Commit
import Linux24.Lib.Machine

/-!
# Revoking blocks

A filesystem that frees a metadata block revokes it: `journal_revoke` puts a record into the revoke
table of the running transaction.  When the block is written again, `journal_cancel_revoke` takes
the record out.  At the commit the records that are left are written to the log, before anything
else, and the table is empty for the next transaction.

Two bits of the buffer head say what is in the table without a search.  `BH_Revoked` is set by a
revoke and cleared by a write, and is to be trusted only if `BH_RevokeValid` is set as well, since
the buffer may have been out of memory in between.  They survive the commit.

The machine has the operations of the running transaction, the loss of a buffer, the commit of the
transaction, and the movement of the tail by `cleanup_journal_tail` when the oldest transactions are
no longer needed.  A commit is one step: the table is written while the transaction is locked, and
what the next transaction writes to a buffer meanwhile is kept apart by `b_frozen_data`.

Two of its fields are there to be talked about only: `ops`, the operations of a transaction, and
`freed`, the blocks that have been revoked since they were last written.  To revoke such a block
again is illegal:  *it's illegal to free a block twice without allocating it in between!*
-/

set_option autoImplicit false

namespace Linux24.Jbd

open Epochs Function

variable {J : Journal}

/-! ## The running transaction -/

/-- What is asked of the running transaction. -/
inductive JournalOp
  /-- `journal_get_write_access` and `journal_dirty_metadata`, with what the block is left with. -/
  | write (blocknr : Word) (content : Block)
  /-- `journal_revoke`, with or without the buffer. -/
  | revoke (blocknr : Word) (bhIn : Bool)

/-- The block it is about. -/
def JournalOp.blocknr : JournalOp → Word
  | write blocknr _ => blocknr
  | revoke blocknr _ => blocknr

/-- `BH_Revoked` and `BH_RevokeValid`. -/
structure BufferHead where
  revoked : Bool
  revokeValid : Bool

/-- A buffer that has just come into memory. -/
def BufferHead.new : BufferHead := ⟨false, false⟩

/-- The first record of a block is deleted, if there is one. -/
def RevokeTable.deleteRecord (T : RevokeTable J) (blocknr : Word) : RevokeTable J :=
  update T (J.hash blocknr)
    ((T (J.hash blocknr)).eraseP fun record ↦ decide (record.blocknr = blocknr))

/-- `need_cancel`: the bits do not say that there is no record. -/
def BufferHead.needCancel (bh : BufferHead) : Bool := if bh.revokeValid then bh.revoked else true

/-- `journal_cancel_revoke`, what it does to the table. -/
def journalCancelRevoke (T : RevokeTable J) (bh : BufferHead) (blocknr : Word) : RevokeTable J :=
  if bh.needCancel then T.deleteRecord blocknr else T

/-- The metadata buffers with one that has been written: it is in its place, or comes last. -/
def setBuffer : List (Word × Block) → Word → Block → List (Word × Block)
  | [], blocknr, content => [(blocknr, content)]
  | w :: ws, blocknr, content =>
    if w.1 = blocknr then (blocknr, content) :: ws else w :: setBuffer ws blocknr content

/-- `journal_forget`: the buffer is taken out of the transaction. -/
def journalForget (ws : List (Word × Block)) (blocknr : Word) : List (Word × Block) :=
  ws.filter fun w ↦ w.1 ≠ blocknr

/-- The running transaction, the revoke table and the buffers in memory. -/
structure Running (J : Journal) where
  tTid : Tid
  jRevoke : RevokeTable J
  buffers : Word → Option BufferHead
  /-- `t_buffers`: what the transaction has written. -/
  tBuffers : List (Word × Block)
  /-- What has been asked of the transaction. -/
  ops : List JournalOp
  /-- The blocks that have been revoked and not written since. -/
  freed : Word → Bool

namespace Running

/-- `journal_get_write_access` and `journal_dirty_metadata`. -/
def write (r : Running J) (blocknr : Word) (content : Block) : Running J :=
  let bh := (r.buffers blocknr).getD .new
  { r with
    jRevoke := journalCancelRevoke r.jRevoke bh blocknr
    buffers := update r.buffers blocknr (some ⟨false, true⟩)
    tBuffers := setBuffer r.tBuffers blocknr content
    ops := r.ops ++ [.write blocknr content]
    freed := update r.freed blocknr false }

/-- The end of `journal_revoke`. -/
def insert (r : Running J) (blocknr : Word) (bhIn : Bool) : Running J :=
  { r with
    jRevoke := r.jRevoke.insertRevokeHash blocknr r.tTid
    ops := r.ops ++ [.revoke blocknr bhIn]
    freed := update r.freed blocknr true }

/-- `journal_revoke`.  The buffer is the one that is given, or the one that is found in memory; it
is forgotten only if it is given. -/
def journalRevoke (r : Running J) (blocknr : Word) (bhIn : Bool) : Except Unit (Running J) :=
  match if bhIn then some ((r.buffers blocknr).getD .new) else r.buffers blocknr with
  | some bh =>
    -- `J_ASSERT_BH(bh, !test_bit(BH_Revoked, &bh->b_state))`
    if bh.revoked then .error ()
    else .ok (insert { r with
      buffers := update r.buffers blocknr (some ⟨true, true⟩)
      tBuffers := if bhIn then journalForget r.tBuffers blocknr else r.tBuffers } blocknr bhIn)
  | none => .ok (r.insert blocknr bhIn)

/-- A buffer is dropped from memory. -/
def evict (r : Running J) (blocknr : Word) : Running J :=
  { r with buffers := update r.buffers blocknr none }

/-- The metadata buffers as the commit finds them. -/
def metaBuffers (r : Running J) : List MetaBuffer := r.tBuffers.map fun w ↦ ⟨w.1, w.2, none⟩

/-- The next transaction. -/
def next (r : Running J) : Running J :=
  { r with tTid := r.tTid + 1, jRevoke := .empty J, tBuffers := [], ops := [] }

end Running

/-! ## The journal -/

/-- A transaction that has been committed. -/
structure Transaction where
  tTid : Tid
  committed : Committed
  ops : List JournalOp

/-- The journal. -/
structure JournalWorld (J : Journal) where
  running : Running J
  jHead : ℕ
  jFree : ℕ
  jTail : ℕ
  jTailSequence : Tid
  log : Log
  /-- The transactions that are still needed, the oldest first. -/
  transactions : List Transaction

/-- What can happen. -/
inductive JournalCall
  | op (op : JournalOp)
  /-- A buffer is dropped from memory. -/
  | evict (blocknr : Word)
  /-- `journal_commit_transaction`, with what is in the buffers of the log. -/
  | commit (getblk : ℕ → Block)
  /-- `cleanup_journal_tail`, when the `n` oldest transactions are no longer needed. -/
  | cleanup (n : ℕ)

namespace JournalWorld

/-- The transaction that `journal_commit_transaction` makes of the running one. -/
def committing (w : JournalWorld J) (getblk : ℕ → Block) : Transaction where
  tTid := w.running.tTid
  committed := journalCommitTransaction J getblk w.running.tTid w.jHead w.running.jRevoke
    w.running.metaBuffers
  ops := w.running.ops

/-- `journal_commit_transaction`. -/
def commit (w : JournalWorld J) (getblk : ℕ → Block) : JournalWorld J :=
  let t := w.committing getblk
  let blocks := t.committed.transaction.blocks
  { w with
    running := w.running.next
    jHead := J.next^[blocks.length] w.jHead
    jFree := w.jFree - blocks.length
    log := w.log.write J w.jHead blocks
    transactions := w.transactions ++ [t] }

/-- The oldest transaction and where it begins: `first_tid` and `blocknr` of
`cleanup_journal_tail`. -/
def oldest (w : JournalWorld J) : Tid × ℕ :=
  match w.transactions with
  | t :: _ => (t.tTid, t.committed.tLogStart)
  | [] => (w.running.tTid, w.jHead)

def cleanupJournalTail (w : JournalWorld J) : JournalWorld J :=
  let (firstTid, blocknr) := w.oldest
  if w.jTailSequence = firstTid then w
  else
    { w with
      jFree := w.jFree + J.distance w.jTail blocknr
      jTailSequence := firstTid
      jTail := blocknr }

/-- What a call does. -/
def perform (w : JournalWorld J) : JournalCall → Except Unit (JournalWorld J)
  | .op (.write blocknr content) => .ok { w with running := w.running.write blocknr content }
  | .op (.revoke blocknr bhIn) =>
    (w.running.journalRevoke blocknr bhIn).map fun r ↦ { w with running := r }
  | .evict blocknr => .ok { w with running := w.running.evict blocknr }
  | .commit getblk => .ok (w.commit getblk)
  | .cleanup n => .ok { w with transactions := w.transactions.drop n }.cleanupJournalTail

/-- When a call may be made.  A block that is freed has been allocated.  A buffer is not dropped
while it belongs to the transaction.  There is room in the log for a transaction: every block is
taken with `J_ASSERT(journal->j_free > 1)`. -/
def Legal (w : JournalWorld J) : JournalCall → Prop
  | .op (.write _ _) => True
  | .op (.revoke blocknr _) => w.running.freed blocknr = false
  | .evict blocknr => ∀ v ∈ w.running.tBuffers, v.1 ≠ blocknr
  | .commit getblk => (w.committing getblk).committed.transaction.blocks.length < w.jFree
  | .cleanup n => n ≤ w.transactions.length

instance (w : JournalWorld J) (c : JournalCall) : Decidable (w.Legal c) := by
  rcases c with (_ | _) | _ | _ | _ <;> dsimp only [Legal] <;> infer_instance

/-- The journal, from `journal_reset` on. -/
def machine (J : Journal) : Machine (JournalWorld J) JournalCall Unit where
  init w := w.running.jRevoke = .empty J ∧ (∀ b, w.running.buffers b = none) ∧
    w.running.tBuffers = [] ∧ w.running.ops = [] ∧ (∀ b, w.running.freed b = false) ∧
    w.jHead = J.jFirst ∧ w.jTail = J.jFirst ∧ w.jFree = J.size ∧
    w.jTailSequence = w.running.tTid ∧ w.transactions = []
  legal := Legal
  exec := perform

instance (w : JournalWorld J) (c : JournalCall) : Decidable ((machine J).legal w c) :=
  inferInstanceAs (Decidable (w.Legal c))

end JournalWorld

end Linux24.Jbd
