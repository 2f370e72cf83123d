import Linux24.Jbd.Log

/-!
# Recovery

`journal_recover` goes over the log three times.  The first pass looks for the end of the log, which
is where a block does not carry the tid that is due.  The second one collects the revoke records.
The third one writes back what the descriptors describe, so far as it has not been revoked.  It is
one function, `do_one_pass`, that does all three, and they have to come to the same end.

The revoke records are kept in a hash table, with the tid of the last transaction that revoked a
block.

Two things of the source are worth pointing out.

* What is read after the loop of the third pass has gone past a failed read is still written back,
  and the failure is reported at the end.
* For a tag with `JFS_FLAG_ESCAPE` the magic number is written to `bh`, the buffer of the
  descriptor, and not to `nbh`, the one of the block that is being restored.  The descriptor begins
  with the magic number anyway, so that this does nothing.

The counters of the log messages are left out.  Memory is never short: `journal_oom_retry` is set,
and `getblk` does not fail.
-/

set_option autoImplicit false

namespace Linux24.Jbd

open Function

/-! ## The revoke table -/

/-- `struct jbd_revoke_record_s`. -/
structure RevokeRecord where
  sequence : Tid
  blocknr : Word
deriving DecidableEq

/-- The lists of the hash table. -/
abbrev RevokeTable (J : Journal) := Fin J.hashSize → List RevokeRecord

namespace RevokeTable

variable {J : Journal}

/-- A table with nothing in it. -/
def empty (J : Journal) : RevokeTable J := fun _ ↦ []

def insertRevokeHash (T : RevokeTable J) (blocknr : Word) (seq : Tid) : RevokeTable J :=
  update T (J.hash blocknr) (⟨seq, blocknr⟩ :: T (J.hash blocknr))

def findRevokeRecord (T : RevokeTable J) (blocknr : Word) : Option RevokeRecord :=
  (T (J.hash blocknr)).find? fun record ↦ decide (record.blocknr = blocknr)

def journalSetRevoke (T : RevokeTable J) (blocknr : Word) (sequence : Tid) : RevokeTable J :=
  match T.findRevokeRecord blocknr with
  | some record =>
    if tidGt sequence record.sequence then
      -- the record that was found is the first one for the block
      update T (J.hash blocknr) ((T (J.hash blocknr)).replaceF fun record ↦
        if record.blocknr = blocknr then some { record with sequence := sequence } else none)
    else T
  | none => T.insertRevokeHash blocknr sequence

def journalTestRevoke (T : RevokeTable J) (blocknr : Word) (sequence : Tid) : Bool :=
  match T.findRevokeRecord blocknr with
  | none => false
  | some record => !tidGt sequence record.sequence

end RevokeTable

/-! ## A pass -/

/-- `enum passtype`. -/
inductive PassType
  | scan
  | revoke
  | replay
deriving DecidableEq

/-- What `do_one_pass` works on. -/
structure PassState (J : Journal) where
  nextCommitId : Tid
  nextLogBlock : ℕ
  success : ℤ
  jRevoke : RevokeTable J
  /-- The filesystem. -/
  disk : Disk

variable {J : Journal}

/-- The blocks that a revoke block names: the loop of `scan_revoke_records`. -/
def revokedFrom (bh : Block) (max : ℤ) : ℕ → ℕ → List Word
  | 0, _ => []
  | fuel + 1, offset =>
    if (offset : ℤ) < max then bh.wordAt offset :: revokedFrom bh max fuel (offset + 4) else []

/-- The blocks that a revoke block names. -/
def revoked (bh : Block) : List Word := revokedFrom bh bh.rCount bh.rCount.toNat 16

def scanRevokeRecords (T : RevokeTable J) (bh : Block) (sequence : Tid) : RevokeTable J :=
  (revoked bh).foldl (fun T blocknr ↦ T.journalSetRevoke blocknr sequence) T

/-- What the third pass does with a tag.  The descriptor is part of the result because of what is
written to it. -/
def replayTag (log : Log) (tag : Tag) (bh : Block) (s : PassState J) : Block × PassState J :=
  let s' : PassState J := { s with nextLogBlock := J.wrap (s.nextLogBlock + 1) }
  match log s.nextLogBlock with
  | none => (bh, { s' with success := -eIo })
  | some obh =>
    if s.jRevoke.journalTestRevoke tag.tBlocknr s.nextCommitId then (bh, s')
    else
      (if tag.has jfsFlagEscape then update bh 0 jfsMagicNumber else bh,
        { s' with disk := update s.disk tag.tBlocknr obh })

/-- The loop of the third pass over the tags of a descriptor. -/
def replayTags (log : Log) : ℕ → ℕ → Block → PassState J → PassState J
  | 0, _, _, s => s
  | fuel + 1, tagp, bh, s =>
    if tagp + 8 ≤ J.jBlocksize then
      let tag := bh.tagAt tagp
      let r := replayTag log tag bh s
      if tag.has jfsFlagLastTag then r.2 else replayTags log fuel (tag.next tagp) r.1 r.2
    else s

/-- What is done with a descriptor block. -/
def passDescriptor (log : Log) (pass : PassType) (bh : Block) (s : PassState J) : PassState J :=
  if pass ≠ .replay then
    { s with nextLogBlock := J.wrap (s.nextLogBlock + countTags bh J.jBlocksize) }
  else replayTags log J.jBlocksize 12 bh s

/-- What is done with a revoke block. -/
def passRevoke (pass : PassType) (bh : Block) (s : PassState J) : PassState J :=
  if pass ≠ .revoke then s
  else { s with jRevoke := scanRevokeRecords s.jRevoke bh s.nextCommitId }

/-- One round of the loop of `do_one_pass`.  It is left by `break` or `goto done`, or with an error
by `goto failed`. -/
def passStep (log : Log) (pass : PassType) (endTransaction : Tid) (s : PassState J) :
    PassState J ⊕ (Option ℤ × PassState J) :=
  if pass ≠ .scan ∧ tidGeq s.nextCommitId endTransaction then .inr (none, s)
  else
    match log s.nextLogBlock with
    | none => .inr (some (-eIo), s)
    | some bh =>
      let s' : PassState J := { s with nextLogBlock := J.wrap (s.nextLogBlock + 1) }
      if bh.hMagic ≠ jfsMagicNumber then .inr (none, s')
      else if bh.hSequence ≠ s.nextCommitId then .inr (none, s')
      else if bh.hBlocktype = jfsDescriptorBlock then .inl (passDescriptor log pass bh s')
      else if bh.hBlocktype = jfsCommitBlock then
        .inl { s' with nextCommitId := s.nextCommitId + 1 }
      else if bh.hBlocktype = jfsRevokeBlock then .inl (passRevoke pass bh s')
      else .inr (none, s')

/-- What of the superblock tells where the log begins. -/
structure Superblock where
  sSequence : Tid
  sStart : ℕ

/-- What the passes work on together: `end_transaction` of `struct recovery_info`, the revoke table
and the filesystem. -/
structure Recovery (J : Journal) where
  endTransaction : Tid
  jRevoke : RevokeTable J
  disk : Disk

/-- The state in which a pass begins. -/
def passStart (sb : Superblock) (r : Recovery J) : PassState J where
  nextCommitId := sb.sSequence
  nextLogBlock := sb.sStart
  success := 0
  jRevoke := r.jRevoke
  disk := r.disk

/-- What `do_one_pass` does when its loop has been left. -/
def passEnd (pass : PassType) (r : Recovery J) : Option ℤ × PassState J → ℤ × Recovery J
  | (some err, s) => (err, { r with jRevoke := s.jRevoke, disk := s.disk })
  | (none, s) =>
    if pass = .scan then
      (s.success, { endTransaction := s.nextCommitId, jRevoke := s.jRevoke, disk := s.disk })
    else
      (if r.endTransaction ≠ s.nextCommitId ∧ s.success = 0 then -eIo else s.success,
        { r with jRevoke := s.jRevoke, disk := s.disk })

/-- `do_one_pass`, if it ends within `fuel` rounds. -/
def doOnePass (log : Log) (sb : Superblock) (fuel : ℕ) (r : Recovery J) (pass : PassType) :
    Option (ℤ × Recovery J) :=
  (Interp.run (passStep log pass r.endTransaction) fuel (passStart sb r)).map (passEnd pass r)

/-- What `journal_recover` leaves: what it returns, `j_transaction_sequence` and the filesystem. -/
structure Recovered where
  err : ℤ
  jTransactionSequence : Tid
  disk : Disk

/-- A pass is done if there has been no error so far. -/
def andPass (log : Log) (sb : Superblock) (fuel : ℕ) (pass : PassType) :
    ℤ × Recovery J → Option (ℤ × Recovery J)
  | (err, r) => if err = 0 then doOnePass log sb fuel r pass else some (err, r)

/-- `journal_recover`, if every pass ends within `fuel` rounds. -/
def journalRecover (J : Journal) (log : Log) (sb : Superblock) (fuel : ℕ) (disk : Disk) :
    Option Recovered :=
  if sb.sStart = 0 then some ⟨0, sb.sSequence + 1, disk⟩
  else
    (doOnePass (J := J) log sb fuel ⟨0, .empty J, disk⟩ .scan).bind fun r ↦
    (andPass log sb fuel .revoke r).bind fun r ↦
    (andPass log sb fuel .replay r).map fun r ↦
      ⟨r.1, r.2.endTransaction + 1, r.2.disk⟩

end Linux24.Jbd
