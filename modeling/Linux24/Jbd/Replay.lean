import Linux24.Jbd.RevokeTable
import Linux24.Lib.Epochs

/-!
# Recovery replays what has been committed

A log is well formed if it has transactions in it with consecutive tids, from where the superblock
says on, and then an incomplete one: `WellFormedLog`.  A transaction is made of revoke blocks and of
descriptors, each with a block for every tag, and of its commit block.  Where it is in the ring does
not matter, and the tids may wrap.

All three passes go over such a log in the same way, and `passStep_chunk` is one round of any of
them.  What they do on the way is different, and `PassState.move` says what: the second one puts
what is revoked into the table, the third one writes back what is logged and not revoked.
`steps_transactions` is a whole pass.

A transaction is an epoch of a redo log, in the sense of `Epochs`, and what the third pass writes
back is what survives of it.  That is `WellFormedLog.journalRecover_eq`, which is about the blocks
as they are in the log.  What a block in the log stands for is another question if its tag has
`JFS_FLAG_ESCAPE`: then it stands for a block that begins with the magic number.  `recovery_replays`
is about logs in which no block does.
-/

set_option autoImplicit false

namespace Linux24.Jbd

open Epochs List Function

/-! ## What is in a log -/

/-- The content that a tag and the block that goes with it stand for. -/
def Tag.content (tag : Tag) (b : Block) : Block :=
  if tag.has jfsFlagEscape then update b 0 jfsMagicNumber else b

/-- A part of a transaction in the log. -/
inductive Chunk
  /-- A revoke block. -/
  | revoke (bh : Block)
  /-- A descriptor block, with the blocks it describes. -/
  | descriptor (bh : Block) (data : List Block)

namespace Chunk

/-- The blocks of the log. -/
def blocks : Chunk → List Block
  | revoke bh => [bh]
  | descriptor bh data => bh :: data

/-- The blocks of the filesystem that are revoked. -/
def revoked : Chunk → List Word
  | revoke bh => Jbd.revoked bh
  | descriptor _ _ => []

/-- What is logged: where in the filesystem it belongs, and what is there in the log. -/
def logged (J : Journal) : Chunk → List (Word × Block)
  | revoke _ => []
  | descriptor bh data => ((tags bh J.jBlocksize).map Tag.tBlocknr).zip data

/-- What is logged: where in the filesystem it belongs, and the content it stands for. -/
def writes (J : Journal) : Chunk → List (Word × Block)
  | revoke _ => []
  | descriptor bh data => List.zipWith (fun tag b ↦ (tag.tBlocknr, tag.content b))
      (tags bh J.jBlocksize) data

/-- The headers are right, and there is a block for every tag. -/
def WellFormed (J : Journal) (tid : Tid) : Chunk → Prop
  | revoke bh => bh.IsHeader jfsRevokeBlock tid
  | descriptor bh data => bh.IsHeader jfsDescriptorBlock tid ∧
      (tags bh J.jBlocksize).length = data.length

end Chunk

/-- A complete transaction. -/
structure LogTransaction where
  chunks : List Chunk
  /-- The commit block. -/
  commit : Block

namespace LogTransaction

/-- The blocks of the log. -/
def blocks (t : LogTransaction) : List Block := t.chunks.flatMap Chunk.blocks ++ [t.commit]

/-- The blocks of the filesystem that are revoked. -/
def revoked (t : LogTransaction) : List Word := t.chunks.flatMap Chunk.revoked

/-- What is logged, as it is in the log. -/
def logged (J : Journal) (t : LogTransaction) : List (Word × Block) :=
  t.chunks.flatMap (Chunk.logged J)

/-- What is logged, as the content it stands for. -/
def writes (J : Journal) (t : LogTransaction) : List (Word × Block) :=
  t.chunks.flatMap (Chunk.writes J)

/-- All blocks belong to the transaction. -/
structure WellFormed (J : Journal) (tid : Tid) (t : LogTransaction) : Prop where
  chunks : ∀ c ∈ t.chunks, c.WellFormed J tid
  commit : t.commit.IsHeader jfsCommitBlock tid

/-- The transaction as an epoch of a redo log that keeps the blocks as they are in the log. -/
def epoch (J : Journal) (t : LogTransaction) : Epoch Word Block := ⟨t.logged J, t.revoked⟩

end LogTransaction

/-- An incomplete transaction: revoke blocks and descriptors, with what they describe, until a block
comes that does not belong to it. -/
inductive Tail (J : Journal) (log : Log) (tid : Tid) : ℕ → Prop
  | stop {p : ℕ} {bh : Block} (hread : log p = some bh)
      (hstop : bh.hMagic ≠ jfsMagicNumber ∨ bh.hSequence ≠ tid ∨
        bh.hBlocktype ∉ [jfsDescriptorBlock, jfsCommitBlock, jfsRevokeBlock]) : Tail J log tid p
  | revoke {p : ℕ} {bh : Block} (hread : log p = some bh) (hheader : bh.IsHeader jfsRevokeBlock tid)
      (htail : Tail J log tid (J.next p)) : Tail J log tid p
  | descriptor {p : ℕ} {bh : Block} (hread : log p = some bh)
      (hheader : bh.IsHeader jfsDescriptorBlock tid)
      (htail : Tail J log tid (J.wrap (J.next p + (tags bh J.jBlocksize).length))) :
      Tail J log tid p

/-- The transactions have consecutive tids. -/
def Consecutive (J : Journal) : Tid → List LogTransaction → Prop
  | _, [] => True
  | tid, t :: ts => t.WellFormed J tid ∧ Consecutive J (tid + 1) ts

/-- A log that begins where the superblock says, has the transactions in it and then an incomplete
one. -/
structure WellFormedLog (J : Journal) (log : Log) (sb : Superblock) (txs : List LogTransaction) :
    Prop where
  start : J.InRing sb.sStart
  consecutive : Consecutive J sb.sSequence txs
  fits : (txs.flatMap LogTransaction.blocks).length ≤ J.size
  holds : log.Holds J sb.sStart (txs.flatMap LogTransaction.blocks)
  tail : Tail J log (tidAdd sb.sSequence txs.length)
    (J.next^[(txs.flatMap LogTransaction.blocks).length] sb.sStart)

/-! ## One round of a pass -/

variable {J : Journal} {log : Log} {pass : PassType} {endTransaction tid : Tid} {s : PassState J}
  {c : Chunk} {t : LogTransaction} {bh : Block}

/-- The pass has not come to where it is to stop. -/
def Goes (pass : PassType) (endTransaction tid : Tid) : Prop :=
  pass = .scan ∨ tidGeq tid endTransaction = false

/-- What a pass does in a round, on a block with a header. -/
theorem passStep_header {blocktype : Word} (hgo : Goes pass endTransaction s.nextCommitId)
    (hread : log s.nextLogBlock = some bh) (hheader : bh.IsHeader blocktype s.nextCommitId) :
    passStep log pass endTransaction s =
      let s' : PassState J := { s with nextLogBlock := J.next s.nextLogBlock }
      if blocktype = jfsDescriptorBlock then .inl (passDescriptor log pass bh s')
      else if blocktype = jfsCommitBlock then .inl { s' with nextCommitId := s.nextCommitId + 1 }
      else if blocktype = jfsRevokeBlock then .inl (passRevoke pass bh s')
      else .inr (none, s') := by
  have hgo' : ¬(pass ≠ .scan ∧ tidGeq s.nextCommitId endTransaction = true) := by
    rintro ⟨hscan, hgeq⟩
    rcases hgo with rfl | hlt
    · exact hscan rfl
    · rw [hlt] at hgeq
      cases hgeq
  rw [passStep, if_neg hgo', hread]
  dsimp only
  rw [if_neg (not_not.2 hheader.magic), if_neg (not_not.2 hheader.sequence), hheader.blocktype]
  rfl

/-- What is replayed of a list of blocks: what has not been revoked. -/
def unrevoked (T : RevokeTable J) (tid : Tid) (ws : List (Word × Block)) : List (Word × Block) :=
  ws.filter fun w ↦ !T.journalTestRevoke w.1 tid

theorem replayTag_eq {tag : Tag} {obh : Block} (hmagic : bh.hMagic = jfsMagicNumber)
    (hread : log s.nextLogBlock = some obh) :
    replayTag log tag bh s = (bh, { s with
      nextLogBlock := J.next s.nextLogBlock
      disk := apply (unrevoked s.jRevoke s.nextCommitId [(tag.tBlocknr, obh)]) s.disk }) := by
  have hself : update bh 0 jfsMagicNumber = bh := by
    rw [update_eq_self_iff]
    exact hmagic.symm
  rw [replayTag, hread, hself]
  split_ifs with hrev <;> simp [unrevoked, hrev, apply, Journal.next]

/-- **The loop over the tags** goes through one block of the log for every tag, and writes back
those that have not been revoked. -/
theorem replayTags_eq {fuel tagp : ℕ} {data : List Block} (hmagic : bh.hMagic = jfsMagicNumber)
    (hlen : (tagsFrom bh J.jBlocksize fuel tagp).length = data.length)
    (hdata : log.Holds J s.nextLogBlock data) :
    replayTags log fuel tagp bh s = { s with
      nextLogBlock := J.next^[data.length] s.nextLogBlock
      disk := apply (unrevoked s.jRevoke s.nextCommitId
        (((tagsFrom bh J.jBlocksize fuel tagp).map Tag.tBlocknr).zip data)) s.disk } := by
  induction fuel generalizing tagp data s with
  | zero =>
    obtain rfl := length_eq_zero_iff.1 hlen.symm
    rfl
  | succ fuel ih =>
    rw [replayTags]
    rw [tagsFrom] at hlen ⊢
    split at hlen
    · rename_i hroom
      rw [if_pos hroom, if_pos hroom]
      obtain ⟨obh, data, rfl⟩ : ∃ obh rest, data = obh :: rest :=
        exists_cons_of_length_pos (by rw [← hlen]; exact Nat.succ_pos _)
      obtain ⟨hread, hrest⟩ := hdata
      dsimp only at hlen ⊢
      rw [replayTag_eq hmagic hread]
      split at hlen
      · rename_i hlast
        obtain rfl : data = [] := by simpa using hlen.symm
        rw [if_pos hlast, if_pos hlast]
        rfl
      · rename_i hlast
        rw [if_neg hlast, if_neg hlast, ih (Nat.succ.inj hlen) hrest]
        rw [← apply_append, unrevoked, unrevoked, ← filter_append]
        rfl
    · rename_i hroom
      rw [if_neg hroom, if_neg hroom]
      obtain rfl := length_eq_zero_iff.1 hlen.symm
      rfl

/-- A pass goes on by `n` blocks of the log, in which some blocks are revoked and some are
logged. -/
def PassState.move (s : PassState J) (pass : PassType) (n : ℕ) (rs : List Word)
    (ws : List (Word × Block)) : PassState J :=
  { s with
    nextLogBlock := J.next^[n] s.nextLogBlock
    jRevoke := if pass = .revoke then
      rs.foldl (fun T blocknr ↦ T.journalSetRevoke blocknr s.nextCommitId) s.jRevoke else s.jRevoke
    disk :=
      if pass = .replay then apply (unrevoked s.jRevoke s.nextCommitId ws) s.disk else s.disk }

namespace PassState

@[simp]
theorem move_nil (s : PassState J) (pass : PassType) : s.move pass 0 [] [] = s := by
  cases pass <;> rfl

theorem move_move (s : PassState J) (pass : PassType) (n m : ℕ) (rs rs' : List Word)
    (ws ws' : List (Word × Block)) :
    (s.move pass n rs ws).move pass m rs' ws' = s.move pass (n + m) (rs ++ rs') (ws ++ ws') := by
  cases pass <;> simp [move, apply_append, unrevoked, add_comm n, iterate_add_apply]

end PassState

/-- **One round of a pass**, on a chunk of a transaction. -/
theorem passStep_chunk (hgo : Goes pass endTransaction s.nextCommitId)
    (hring : J.InRing s.nextLogBlock) (hholds : log.Holds J s.nextLogBlock c.blocks)
    (hwf : c.WellFormed J s.nextCommitId) (hfits : c.blocks.length ≤ J.size) :
    passStep log pass endTransaction s =
      .inl (s.move pass c.blocks.length c.revoked (c.logged J)) := by
  cases c with
  | revoke bh =>
    rw [passStep_header hgo hholds.1 hwf]
    cases pass <;> rfl
  | descriptor bh data =>
    obtain ⟨hheader, hlen⟩ := hwf
    obtain ⟨hread, hdata⟩ := hholds
    rw [passStep_header hgo hread hheader]
    have hjump : J.wrap (J.next s.nextLogBlock + countTags bh J.jBlocksize) =
        J.next^[data.length] (J.next s.nextLogBlock) := by
      rw [countTags_eq, hlen]
      refine hring.next.wrap_add (le_trans ?_ hfits)
      simp [Chunk.blocks]
    rw [if_pos rfl]
    cases pass with
    | scan | revoke => rw [passDescriptor, hjump]; rfl
    | replay =>
      rw [passDescriptor, replayTags_eq hheader.magic hlen hdata]
      rfl

theorem steps_chunks {cs : List Chunk} (hgo : Goes pass endTransaction s.nextCommitId)
    (hring : J.InRing s.nextLogBlock)
    (hholds : log.Holds J s.nextLogBlock (cs.flatMap Chunk.blocks))
    (hwf : ∀ c ∈ cs, c.WellFormed J s.nextCommitId)
    (hfits : (cs.flatMap Chunk.blocks).length ≤ J.size) :
    Interp.Steps (passStep log pass endTransaction) s
      (s.move pass (cs.flatMap Chunk.blocks).length (cs.flatMap Chunk.revoked)
        (cs.flatMap (Chunk.logged J))) := by
  induction cs generalizing s with
  | nil =>
    simp only [flatMap_nil, length_nil, PassState.move_nil]
    exact Relation.ReflTransGen.refl
  | cons c cs ih =>
    simp only [flatMap_cons, length_append] at hfits ⊢
    rw [flatMap_cons, Log.holds_append] at hholds
    obtain ⟨hc, hcs⟩ := forall_mem_cons.1 hwf
    have hstep := passStep_chunk hgo hring hholds.1 hc (by omega)
    rw [← PassState.move_move]
    exact (Interp.Steps.single hstep).trans (ih hgo (hring.iterate _) hholds.2 hcs (by omega))

/-- What a pass does to a transaction. -/
def LogTransaction.effect (pass : PassType) (t : LogTransaction) (s : PassState J) : PassState J :=
  { s.move pass t.blocks.length t.revoked (t.logged J) with nextCommitId := s.nextCommitId + 1 }

theorem steps_transaction (hgo : Goes pass endTransaction s.nextCommitId)
    (hring : J.InRing s.nextLogBlock) (hholds : log.Holds J s.nextLogBlock t.blocks)
    (hwf : t.WellFormed J s.nextCommitId) (hfits : t.blocks.length ≤ J.size) :
    Interp.Steps (passStep log pass endTransaction) s (t.effect pass s) := by
  rw [LogTransaction.blocks, Log.holds_append] at hholds
  have hlen : t.blocks.length = (t.chunks.flatMap Chunk.blocks).length + 1 := length_append
  have hchunks := steps_chunks hgo hring hholds.1 hwf.chunks (by omega)
  refine hchunks.trans (Interp.Steps.single ?_)
  refine (passStep_header (s := s.move _ _ _ _) hgo hholds.2.1 hwf.commit).trans ?_
  rw [LogTransaction.effect, hlen]
  simp only [PassState.move, iterate_succ_apply']
  rfl

/-- What a pass does to the transactions of a log. -/
def passAll (pass : PassType) (txs : List LogTransaction) (s : PassState J) : PassState J :=
  txs.foldl (fun s t ↦ t.effect pass s) s

/-- **The rounds of a pass** on the transactions of a log. -/
theorem steps_transactions (endTransaction : Tid) {txs : List LogTransaction} {seq : Tid} {i : ℕ}
    (hgo : ∀ j, i ≤ j → j < i + txs.length → Goes pass endTransaction (tidAdd seq j))
    (hid : s.nextCommitId = tidAdd seq i) (hring : J.InRing s.nextLogBlock)
    (hholds : log.Holds J s.nextLogBlock (txs.flatMap LogTransaction.blocks))
    (hwf : Consecutive J s.nextCommitId txs)
    (hfits : (txs.flatMap LogTransaction.blocks).length ≤ J.size) :
    Interp.Steps (passStep log pass endTransaction) s (passAll pass txs s) := by
  induction txs generalizing s i with
  | nil => exact Relation.ReflTransGen.refl
  | cons t txs ih =>
    rw [flatMap_cons, length_append] at hfits
    rw [flatMap_cons, Log.holds_append] at hholds
    rw [length_cons] at hgo
    have hfirst : Goes pass endTransaction s.nextCommitId := by
      rw [hid]
      exact hgo i le_rfl (by omega)
    have hsteps := steps_transaction hfirst hring hholds.1 hwf.1 (by omega)
    refine hsteps.trans (ih (fun j hj hlt ↦ hgo j (Nat.le_of_succ_le hj) (by omega)) ?_
      (hring.iterate _) hholds.2 hwf.2 (by omega))
    change s.nextCommitId + 1 = tidAdd seq (i + 1)
    rw [hid, tidAdd_succ]

/-! ## A whole pass -/

/-- What the third pass writes back, if the revoke table stays as it is. -/
def replayed (T : RevokeTable J) : Tid → List LogTransaction → List (Word × Block)
  | _, [] => []
  | tid, t :: txs => unrevoked T tid (t.logged J) ++ replayed T (tid + 1) txs

section Fields

variable (pass : PassType) (txs : List LogTransaction) (s : PassState J)

theorem passAll_nextCommitId :
    (passAll pass txs s).nextCommitId = tidAdd s.nextCommitId txs.length := by
  induction txs generalizing s with
  | nil => exact (tidAdd_zero _).symm
  | cons t txs ih => exact (ih (t.effect pass s)).trans (tidAdd_one_add _ _)

theorem passAll_nextLogBlock : (passAll pass txs s).nextLogBlock =
    J.next^[(txs.flatMap LogTransaction.blocks).length] s.nextLogBlock := by
  induction txs generalizing s with
  | nil => rfl
  | cons t txs ih =>
    rw [flatMap_cons, length_append, add_comm, iterate_add_apply]
    exact ih (t.effect pass s)

/-- What no transaction changes. -/
theorem passAll_keeps {α : Type} (g : PassState J → α)
    (hg : ∀ (t : LogTransaction) s, g (t.effect pass s) = g s) : g (passAll pass txs s) = g s := by
  induction txs generalizing s with
  | nil => rfl
  | cons t txs ih => exact (ih (t.effect pass s)).trans (hg t s)

theorem passAll_success : (passAll pass txs s).success = s.success :=
  passAll_keeps pass txs s PassState.success fun _ _ ↦ rfl

/-- Only the second pass changes the revoke table. -/
theorem passAll_jRevoke (hpass : pass ≠ .revoke) : (passAll pass txs s).jRevoke = s.jRevoke :=
  passAll_keeps pass txs s PassState.jRevoke fun _ _ ↦ if_neg hpass

/-- Only the third pass changes the filesystem. -/
theorem passAll_disk (hpass : pass ≠ .replay) : (passAll pass txs s).disk = s.disk :=
  passAll_keeps pass txs s PassState.disk fun _ _ ↦ if_neg hpass

theorem passAll_replay_disk :
    (passAll .replay txs s).disk = apply (replayed s.jRevoke s.nextCommitId txs) s.disk := by
  induction txs generalizing s with
  | nil => rfl
  | cons t txs ih =>
    rw [replayed, apply_append]
    exact ih (t.effect .replay s)

end Fields

section PassAll

variable {txs : List LogTransaction}

/-- The table has what the transactions have revoked. -/
theorem marked_passAll {seq : Tid} (hlen : txs.length < 2147483648) (hid : s.nextCommitId = seq)
    (hempty : s.jRevoke = .empty J) :
    (passAll .revoke txs s).jRevoke.Marked seq fun b j ↦ ∃ t, txs[j]? = some t ∧ b ∈ t.revoked := by
  induction txs using reverseRecOn with
  | nil =>
    change s.jRevoke.Marked seq _
    rw [hempty]
    exact (RevokeTable.Marked.empty seq).congr (by simp)
  | append_singleton txs t ih =>
    rw [length_append] at hlen
    have hall := passAll_nextCommitId .revoke txs s
    have hbound : ∀ b j, (∃ t, txs[j]? = some t ∧ b ∈ t.revoked) → j < 2147483648 := by
      rintro b j ⟨t, ht, -⟩
      have := (List.getElem?_eq_some_iff.1 ht).1
      omega
    have hset := (ih (by omega)).set_all hbound (i := txs.length) (by omega) t.revoked
    rw [passAll, foldl_append]
    change (RevokeTable.Marked (foldl _ _ t.revoked) seq _)
    rw [← passAll, hall, hid]
    refine hset.congr fun b j ↦ ?_
    rw [getElem?_append]
    rcases lt_trichotomy j txs.length with hlt | rfl | hgt
    · simp [hlt, hlt.ne]
    · simp
    · obtain ⟨k, hk⟩ : ∃ k, j - txs.length = k + 1 := ⟨j - txs.length - 1, by omega⟩
      simp [hgt.ne', hgt.le.not_gt, hk]

/-- **What is replayed is what survives** of the redo log. -/
theorem replayed_eq {T : RevokeTable J}
    (hT : ∀ b i, i < txs.length → (T.journalTestRevoke b (tidAdd tid i) = true ↔
      ∃ j, i ≤ j ∧ ∃ t, txs[j]? = some t ∧ b ∈ t.revoked)) :
    replayed T tid txs = surviving (txs.map (LogTransaction.epoch J)) := by
  induction txs generalizing tid with
  | nil => rfl
  | cons t txs ih =>
    rw [replayed, map_cons, ih fun b i hi ↦ ?_]
    · congr 1
      refine filter_congr fun w _ ↦ ?_
      have hfirst := hT w.1 0 (Nat.succ_pos _)
      rw [tidAdd_zero] at hfirst
      rw [Bool.not_eq_eq_eq_not, Bool.eq_iff_iff, hfirst]
      simp only [zero_le, true_and, Bool.not_eq_true', decide_eq_false_iff_not, not_forall,
        not_not, ← map_cons, mem_map]
      constructor
      · rintro ⟨j, t', ht', hb⟩
        exact ⟨_, ⟨t', mem_of_getElem? ht', rfl⟩, hb⟩
      · rintro ⟨_, ⟨t', ht', rfl⟩, hb⟩
        obtain ⟨j, hj⟩ := getElem?_of_mem ht'
        exact ⟨j, t', hj, hb⟩
    · rw [tidAdd_one_add, hT b (i + 1) (Nat.succ_lt_succ hi)]
      constructor
      · rintro ⟨j, hj, t', ht', hb⟩
        obtain ⟨j, rfl⟩ := Nat.exists_eq_add_of_le' (Nat.one_le_of_lt hj)
        exact ⟨j, Nat.le_of_succ_le_succ hj, t', ht', hb⟩
      · rintro ⟨j, hj, t', ht', hb⟩
        exact ⟨j + 1, Nat.succ_le_succ hj, t', ht', hb⟩

/-- The first pass goes over an incomplete transaction and comes to its end. -/
theorem Tail.scan {p : ℕ} (h : Tail J log tid p) (endTransaction : Tid) :
    ∀ s : PassState J, s.nextCommitId = tid → s.nextLogBlock = p →
      ∃ s' p', Interp.Steps (passStep log .scan endTransaction) s s' ∧
        passStep log .scan endTransaction s' = .inr (none, { s with nextLogBlock := p' }) := by
  induction h with
  | @stop p bh hread hstop =>
    rintro s rfl rfl
    refine ⟨s, J.next s.nextLogBlock, Relation.ReflTransGen.refl, ?_⟩
    rw [passStep, if_neg (by simp), hread]
    dsimp only
    split_ifs with hmagic hseq hdesc hcommit hrevoke
    · rfl
    · rfl
    · simp [hmagic, hseq, hdesc] at hstop
    · simp [hmagic, hseq, hcommit] at hstop
    · simp [hmagic, hseq, hrevoke] at hstop
    · rfl
  | @revoke p bh hread hheader _ ih =>
    rintro s rfl rfl
    obtain ⟨s', p', hsteps, hlast⟩ := ih { s with nextLogBlock := J.next s.nextLogBlock } rfl rfl
    refine ⟨s', p', (Interp.Steps.single ?_).trans hsteps, hlast⟩
    exact passStep_header (Or.inl rfl) hread hheader
  | @descriptor p bh hread hheader _ ih =>
    rintro s rfl rfl
    obtain ⟨s', p', hsteps, hlast⟩ := ih { s with
      nextLogBlock := J.wrap (J.next s.nextLogBlock + (tags bh J.jBlocksize).length) } rfl rfl
    refine ⟨s', p', (Interp.Steps.single ?_).trans hsteps, hlast⟩
    rw [passStep_header (Or.inl rfl) hread hheader, ← countTags_eq]
    rfl

variable {sb : Superblock}

/-- A transaction has at least its commit block, so that there are not more of them than blocks. -/
theorem length_le_blocks (txs : List LogTransaction) :
    txs.length ≤ (txs.flatMap LogTransaction.blocks).length := by
  induction txs with
  | nil => exact le_rfl
  | cons t txs ih =>
    rw [flatMap_cons, length_append, length_cons, LogTransaction.blocks,
      length_append, length_singleton]
    omega

theorem WellFormedLog.length_lt (h : WellFormedLog J log sb txs) : txs.length < 2147483648 := by
  have hle := (length_le_blocks txs).trans h.fits
  have hlast := J.last_lt
  rw [Journal.size] at hle
  omega

/-- The first pass finds the end of the log. -/
theorem WellFormedLog.doOnePass_scan (h : WellFormedLog J log sb txs) (r : Recovery J) :
    ∃ n, ∀ fuel ≥ n, doOnePass log sb fuel r .scan =
      some (0, { r with endTransaction := tidAdd sb.sSequence txs.length }) := by
  have hsteps := steps_transactions r.endTransaction (s := passStart sb r)
    (fun _ _ _ ↦ Or.inl rfl) (tidAdd_zero _).symm h.start h.holds h.consecutive
    h.fits
  have hid := passAll_nextCommitId .scan txs (passStart sb r)
  obtain ⟨s', p', htail, hlast⟩ := h.tail.scan r.endTransaction
    (passAll .scan txs (passStart sb r)) hid (passAll_nextLogBlock _ _ _)
  obtain ⟨n, hn⟩ := (hsteps.trans htail).exists_run hlast
  refine ⟨n, fun fuel hfuel ↦ ?_⟩
  rw [doOnePass, hn fuel hfuel, Option.map_some, passEnd]
  rw [hid, passAll_success, passAll_jRevoke .scan _ _ (by decide),
    passAll_disk .scan _ _ (by decide)]
  rfl

/-- The other passes come to the same end. -/
theorem WellFormedLog.doOnePass_eq (h : WellFormedLog J log sb txs) (pass : PassType)
    (hpass : pass ≠ .scan)
    (T : RevokeTable J) (disk : Disk) :
    ∃ n, ∀ fuel ≥ n, doOnePass log sb fuel ⟨tidAdd sb.sSequence txs.length, T, disk⟩ pass =
      let s := passAll pass txs (passStart sb ⟨tidAdd sb.sSequence txs.length, T, disk⟩)
      some (0, ⟨tidAdd sb.sSequence txs.length, s.jRevoke, s.disk⟩) := by
  have hlen := h.length_lt
  set r : Recovery J := ⟨tidAdd sb.sSequence txs.length, T, disk⟩
  have hgo : ∀ j, 0 ≤ j → j < 0 + txs.length →
      Goes pass r.endTransaction (tidAdd sb.sSequence j) := by
    intro j _ hj
    right
    rw [tidGeq_tidAdd (by omega) hlen, decide_eq_false_iff_not]
    omega
  have hsteps := steps_transactions r.endTransaction (s := passStart sb r) hgo
    (tidAdd_zero _).symm h.start h.holds h.consecutive h.fits
  have hid := passAll_nextCommitId pass txs (passStart sb r)
  have hlast : passStep log pass r.endTransaction (passAll pass txs (passStart sb r)) =
      .inr (none, passAll pass txs (passStart sb r)) := by
    refine if_pos ⟨hpass, ?_⟩
    rw [hid]
    exact (tidGeq_tidAdd hlen hlen).trans (decide_eq_true le_rfl)
  obtain ⟨n, hn⟩ := hsteps.exists_run hlast
  refine ⟨n, fun fuel hfuel ↦ ?_⟩
  rw [doOnePass, hn fuel hfuel, Option.map_some, passEnd, if_neg hpass]
  rw [hid, if_neg (fun hne ↦ hne.1 rfl), passAll_success]
  rfl

end PassAll

/-! ## Recovery -/

section Recover

variable {sb : Superblock} {txs : List LogTransaction}

/-- **What recovery leaves in the filesystem** is what survives of the log, as it is in the log. -/
theorem WellFormedLog.journalRecover_eq (h : WellFormedLog J log sb txs) (disk : Disk) :
    ∃ n, ∀ fuel ≥ n, journalRecover J log sb fuel disk =
      some ⟨0, tidAdd sb.sSequence txs.length + 1,
        apply (surviving (txs.map (LogTransaction.epoch J))) disk⟩ := by
  obtain ⟨n₁, hscan⟩ := h.doOnePass_scan ⟨0, .empty J, disk⟩
  obtain ⟨n₂, hrevoke⟩ := h.doOnePass_eq .revoke (by decide) (.empty J) disk
  set T := (passAll .revoke txs
    (passStart sb ⟨tidAdd sb.sSequence txs.length, .empty J, disk⟩)).jRevoke with hT
  obtain ⟨n₃, hreplay⟩ := h.doOnePass_eq .replay (by decide) T disk
  have hmarked : T.Marked sb.sSequence fun b j ↦ ∃ t, txs[j]? = some t ∧ b ∈ t.revoked :=
    marked_passAll h.length_lt rfl rfl
  have hbound : ∀ b j, (∃ t, txs[j]? = some t ∧ b ∈ t.revoked) → j < 2147483648 := by
    rintro b j ⟨t, ht, -⟩
    exact (List.getElem?_eq_some_iff.1 ht).1.trans h.length_lt
  have hreplayed : replayed T sb.sSequence txs = surviving (txs.map (LogTransaction.epoch J)) :=
    replayed_eq fun b i hi ↦ hmarked.test hbound (hi.trans h.length_lt) b
  refine ⟨max n₁ (max n₂ n₃), fun fuel hfuel ↦ ?_⟩
  have hstart : sb.sStart ≠ 0 := (J.first_pos.trans_le h.start.1).ne'
  rw [journalRecover, if_neg hstart, hscan fuel (le_of_max_le_left hfuel), Option.bind_some,
    andPass, if_pos rfl, hrevoke fuel (le_of_max_le_left (le_of_max_le_right hfuel))]
  rw [Option.bind_some, andPass, passAll_disk .revoke _ _ (by decide)]
  change Option.map _ (doOnePass log sb fuel ⟨tidAdd sb.sSequence txs.length, T, disk⟩ .replay) = _
  rw [hreplay fuel (le_of_max_le_right (le_of_max_le_right hfuel)), Option.map_some]
  rw [passAll_replay_disk]
  change some (Recovered.mk _ _ (apply (replayed T sb.sSequence txs) disk)) = _
  rw [hreplayed]

/-- The transaction as an epoch of a redo log: what it writes, and what it revokes. -/
def LogTransaction.meaning (J : Journal) (t : LogTransaction) : Epoch Word Block :=
  ⟨t.writes J, t.revoked⟩

theorem Chunk.logged_eq_writes (hplain : ∀ w ∈ c.writes J, w.2 0 ≠ jfsMagicNumber) :
    c.logged J = c.writes J := by
  cases c with
  | revoke bh => rfl
  | descriptor bh data =>
    rw [logged, writes] at *
    generalize tags bh J.jBlocksize = ts at *
    induction ts generalizing data with
    | nil => rfl
    | cons tag ts ih =>
      cases data with
      | nil => rfl
      | cons b data =>
        rw [zipWith_cons_cons, forall_mem_cons] at hplain
        have hcontent : tag.content b = b := by
          refine if_neg fun hescape ↦ hplain.1 ?_
          simp [Tag.content, hescape]
        rw [map_cons, zip_cons_cons, zipWith_cons_cons, ih data hplain.2, hcontent]

theorem LogTransaction.epoch_eq_meaning (hplain : ∀ w ∈ t.writes J, w.2 0 ≠ jfsMagicNumber) :
    t.epoch J = t.meaning J := by
  have hchunks : t.logged J = t.writes J := by
    refine flatMap_congr fun c hc ↦ Chunk.logged_eq_writes fun w hw ↦ ?_
    exact hplain w (mem_flatMap.2 ⟨c, hc, hw⟩)
  rw [epoch, hchunks, meaning]

/-- **Recovery replays what has been committed.** -/
theorem recovery_replays (h : WellFormedLog J log sb txs)
    (hplain : ∀ t ∈ txs, ∀ w ∈ t.writes J, w.2 0 ≠ jfsMagicNumber) (disk : Disk) :
    ∃ n, ∀ fuel ≥ n, ∃ disk', journalRecover J log sb fuel disk =
        some ⟨0, tidAdd sb.sSequence txs.length + 1, disk'⟩ ∧
      ∀ b, (∀ t later content, LastWritten (txs.map (LogTransaction.meaning J)) b t later content →
          (∀ t' ∈ t :: later, b ∉ t'.revoked) → disk' b = content) ∧
        ((∀ t later content, LastWritten (txs.map (LogTransaction.meaning J)) b t later content →
          ∃ t' ∈ t :: later, b ∈ t'.revoked) → disk' b = disk b) := by
  obtain ⟨n, hn⟩ := h.journalRecover_eq disk
  refine ⟨n, fun fuel hfuel ↦ ⟨_, hn fuel hfuel, fun b ↦ ?_⟩⟩
  have hepochs : txs.map (LogTransaction.epoch J) = txs.map (LogTransaction.meaning J) :=
    map_congr_left fun t ht ↦ LogTransaction.epoch_eq_meaning (hplain t ht)
  rw [hepochs, apply_eq]
  constructor
  · intro t later content hlast hrev
    rw [hlast.last_surviving hrev, Option.getD_some]
  · intro hrev
    rw [last_surviving_of_revoked hrev, Option.getD_none]

/-- A block that begins with the words. -/
def Block.ofWords (ws : List Word) : Block := fun i ↦ ws.getD i 0

/-- A ring of seven blocks. -/
def sevenBlocks : Journal where
  jBlocksize := 512
  jFirst := 1
  jLast := 8
  hashSize := 1
  hash := fun _ ↦ 0
  jUuid := fun _ ↦ 0
  blocksize_ge := by decide
  blocksize_le := by decide
  blocksize_dvd := by decide
  first_pos := by decide
  first_lt := by decide
  last_lt := by decide

/-- A transaction that logs block 7 and has the last of all tids, and then one that revokes block
9. -/
def wrappingTransactions : List LogTransaction :=
  [⟨[.descriptor (.ofWords [jfsMagicNumber, 1, 0xffffffff, 7, 8]) [.ofWords [5]]],
      .ofWords [jfsMagicNumber, 2, 0xffffffff]⟩,
    ⟨[.revoke (.ofWords [jfsMagicNumber, 5, 0, 20, 9])], .ofWords [jfsMagicNumber, 2, 0]⟩]

/-- These transactions in the log, across the end of the ring. -/
def wrappingLog : Log
  | 6 => some (.ofWords [jfsMagicNumber, 1, 0xffffffff, 7, 8])
  | 7 => some (.ofWords [5])
  | 1 => some (.ofWords [jfsMagicNumber, 2, 0xffffffff])
  | 2 => some (.ofWords [jfsMagicNumber, 5, 0, 20, 9])
  | 3 => some (.ofWords [jfsMagicNumber, 2, 0])
  | _ => some (.ofWords [])

theorem wrappingLog_wellFormed :
    WellFormedLog sevenBlocks wrappingLog ⟨0xffffffff, 6⟩ wrappingTransactions where
  start := ⟨by decide, by decide⟩
  consecutive := by
    refine ⟨⟨?_, ⟨rfl, rfl, rfl⟩⟩, ⟨?_, ⟨rfl, rfl, rfl⟩⟩, trivial⟩
    · rintro c (_ | ⟨_, ⟨⟩⟩)
      exact ⟨⟨rfl, rfl, rfl⟩, rfl⟩
    · rintro c (_ | ⟨_, ⟨⟩⟩)
      exact ⟨rfl, rfl, rfl⟩
  fits := by decide
  holds := ⟨rfl, rfl, rfl, rfl, rfl, trivial⟩
  tail := .stop rfl (Or.inl (by decide))

theorem recovery_replays_wrapping :
    WellFormedLog sevenBlocks wrappingLog ⟨0xffffffff, 6⟩ wrappingTransactions ∧
      ∃ n, ∀ fuel ≥ n, ∃ disk', journalRecover sevenBlocks wrappingLog ⟨0xffffffff, 6⟩ fuel
        (fun _ _ ↦ 0) = some ⟨0, 2, disk'⟩ ∧ disk' 7 = .ofWords [5] ∧ disk' 9 = fun _ ↦ 0 := by
  have hplain : ∀ t ∈ wrappingTransactions, ∀ w ∈ t.writes sevenBlocks, w.2 0 ≠ jfsMagicNumber := by
    decide
  obtain ⟨n, hn⟩ := recovery_replays wrappingLog_wellFormed hplain fun _ _ ↦ 0
  refine ⟨wrappingLog_wellFormed, n, fun fuel hfuel ↦ ?_⟩
  obtain ⟨disk', hrecover, hdisk⟩ := hn fuel hfuel
  refine ⟨disk', hrecover, (hdisk 7).1 _ _ _ ⟨suffix_rfl, rfl, by decide⟩ (by decide), ?_⟩
  have hnone : ∀ t ∈ wrappingTransactions.map (LogTransaction.meaning sevenBlocks),
      last t.writes 9 = none := by
    simp only [wrappingTransactions, map_cons, forall_mem_cons]
    exact ⟨rfl, rfl, forall_mem_nil _⟩
  refine (hdisk 9).2 fun t later content hlast ↦ ?_
  cases (hnone t (hlast.suffix.subset mem_cons_self)).symm.trans hlast.eq

end Recover

end Linux24.Jbd
