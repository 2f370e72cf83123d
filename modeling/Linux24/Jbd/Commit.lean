import Linux24.Jbd.Replay

/-!
# Committing a transaction

`journal_commit_transaction` writes a transaction to the log in four steps.  The revoke records of
the running transaction come first, in revoke blocks.  Then the place where the log stands is taken
for the beginning of the transaction: `t_log_start`.  The metadata buffers follow, each after the
descriptor block that has its tag.  The commit block is last.

The blocks are given here in the order in which `journal_next_log_block` gives them their places,
one after the other from `j_head` on.  A descriptor, a revoke or a commit block is made in the
buffer that `getblk` finds for its place.  It is neither read nor cleared, so that what the code
does not write in it can be anything: `getblk` is a parameter.

A buffer whose first word is the magic number would be taken for a block with a header.
`journal_write_metadata_buffer` logs it with a zero there, and the tag gets `JFS_FLAG_ESCAPE`.  It
does this in a copy, `b_frozen_data`, so that the buffer itself stays as it is.

What is proved is that the blocks are a transaction as the recovery reads one, which logs the
metadata buffers and revokes the blocks that have a record (`commit_transaction_spec`).  From
`t_log_start` on they are one too, but what it revokes is then nothing
(`commit_fromLogStart_spec`).  The aborted journal is left out, and so are the data blocks that have
to be written to the filesystem before the metadata.
-/

set_option autoImplicit false

namespace Linux24.Jbd

open Epochs List Function

variable {J : Journal}

/-! ## Revoke blocks -/

/-- A revoke block that is being filled. -/
structure RevokeDescriptor where
  bh : Block
  offset : ℕ

/-- The header of a block is written. -/
def Block.setHeader (b : Block) (blocktype : Word) (tid : Tid) : Block
  | 0 => jfsMagicNumber
  | 1 => blocktype
  | 2 => tid
  | i + 3 => b (i + 3)

/-- `flush_descriptor`: what is submitted. -/
def flushDescriptor (d : RevokeDescriptor) : Block :=
  update d.bh 3 (BitVec.ofNat 32 d.offset)

/-- The end of `write_one_revoke_record`. -/
def RevokeDescriptor.put (d : RevokeDescriptor) (blocknr : Word) : RevokeDescriptor where
  bh := update d.bh (d.offset / 4) blocknr
  offset := d.offset + 4

/-- The revoke blocks that `journal_write_revoke_records` writes for the records it has still to go
through, if the next block it writes is at `p`.  A descriptor that is full is flushed when there is
another record. -/
def writeRevokeRecords (J : Journal) (getblk : ℕ → Block) (tid : Tid) :
    ℕ → List RevokeRecord → Option RevokeDescriptor → List Block
  | _, [], none => []
  | _, [], some d => [flushDescriptor d]
  | p, record :: records, none =>
    let d : RevokeDescriptor := ⟨(getblk p).setHeader jfsRevokeBlock tid, 16⟩
    writeRevokeRecords J getblk tid (J.next p) records (some (d.put record.blocknr))
  | p, record :: records, some d =>
    if d.offset = J.jBlocksize then
      let d' : RevokeDescriptor := ⟨(getblk p).setHeader jfsRevokeBlock tid, 16⟩
      flushDescriptor d ::
        writeRevokeRecords J getblk tid (J.next p) records (some (d'.put record.blocknr))
    else writeRevokeRecords J getblk tid p records (some (d.put record.blocknr))

/-- The records in the order in which `journal_write_revoke_records` goes through the lists. -/
def RevokeTable.records (T : RevokeTable J) : List RevokeRecord :=
  (List.finRange J.hashSize).flatMap T

/-! ## Metadata buffers -/

/-- A metadata buffer of the transaction that is being committed. -/
structure MetaBuffer where
  bBlocknr : Word
  bData : Block
  /-- `b_frozen_data`: a copy that has been made because the next transaction writes to the
  buffer. -/
  bFrozenData : Option Block

/-- What the buffer has for the transaction. -/
def MetaBuffer.content (jh : MetaBuffer) : Block := jh.bFrozenData.getD jh.bData

/-- What `journal_write_metadata_buffer` leaves: `do_escape` and `done_copy_out` of what it returns,
the data of the new buffer, and `jh_in`. -/
structure WrittenBuffer where
  doEscape : Bool
  doneCopyOut : Bool
  newData : Block
  jhIn : MetaBuffer

def journalWriteMetadataBuffer (jhIn : MetaBuffer) : WrittenBuffer :=
  let mappedData := jhIn.bFrozenData.getD jhIn.bData
  if mappedData 0 = jfsMagicNumber then
    -- the copy is the one that is there, or is made now
    let copy := update mappedData 0 0
    ⟨true, true, copy, { jhIn with bFrozenData := some copy }⟩
  else ⟨false, jhIn.bFrozenData.isSome, mappedData, jhIn⟩

/-- A descriptor block that is being filled, with the blocks it describes: `wbuf`. -/
structure Descriptor where
  bh : Block
  tagp : ℕ
  /-- `tag`: where the last tag is. -/
  tag : ℕ
  spaceLeft : ℤ
  firstTag : Bool
  /-- What comes after the descriptor in `wbuf`. -/
  wbuf : List Block

/-- A descriptor with nothing in it. -/
def newDescriptor (J : Journal) (bh : Block) (tid : Tid) : Descriptor where
  bh := bh.setHeader jfsDescriptorBlock tid
  tagp := 12
  tag := 12
  spaceLeft := J.jBlocksize - 12
  firstTag := true
  wbuf := []

def tagFlag (escape firstTag : Bool) : Word :=
  (if escape then jfsFlagEscape else 0) ||| (if firstTag then 0 else jfsFlagSameUuid)

/-- Words are written one after the other. -/
def Block.setWords (b : Block) (offset : ℕ) (n : ℕ) (ws : ℕ → Word) : Block := fun i ↦
  if offset / 4 ≤ i ∧ i < offset / 4 + n then ws (i - offset / 4) else b i

variable {b : Block}

theorem Block.setWords_of_lt {offset i : ℕ} (n : ℕ) (ws : ℕ → Word) (hi : i < offset / 4) :
    b.setWords offset n ws i = b i := if_neg (by omega)

/-- A block is put into `wbuf` and its tag into the descriptor. -/
def Descriptor.put (J : Journal) (d : Descriptor) (blocknr : Word) (r : WrittenBuffer) :
    Descriptor :=
  let flags := tagFlag r.doEscape d.firstTag
  let bh : Block :=
    update (update d.bh (d.tagp / 4) blocknr) (d.tagp / 4 + 1) flags
  if d.firstTag then
    { bh := bh.setWords (d.tagp + 8) 4 J.jUuid
      tagp := d.tagp + 24
      tag := d.tagp
      spaceLeft := d.spaceLeft - 24
      firstTag := false
      wbuf := d.wbuf ++ [r.newData] }
  else
    { d with
      bh := bh
      tagp := d.tagp + 8
      tag := d.tagp
      spaceLeft := d.spaceLeft - 8
      wbuf := d.wbuf ++ [r.newData] }

/-- The blocks are submitted, with `JFS_FLAG_LAST_TAG` in the last tag. -/
def Descriptor.submit (d : Descriptor) : Chunk :=
  .descriptor (update d.bh (d.tag / 4 + 1) (d.bh (d.tag / 4 + 1) ||| jfsFlagLastTag))
    d.wbuf

/-- There is no room in `wbuf` or in the descriptor for another one.  `space_left` is compared as an
unsigned number. -/
def Descriptor.full (d : Descriptor) : Prop :=
  d.wbuf.length + 1 = 64 ∨ (0 ≤ d.spaceLeft ∧ d.spaceLeft < 24)

instance (d : Descriptor) : Decidable d.full := inferInstanceAs (Decidable (_ ∨ _))

/-- What is written for the metadata buffers that there are still to go through, if the next block
is at `p`. -/
def writeMetadataBuffers (J : Journal) (getblk : ℕ → Block) (tid : Tid) :
    ℕ → List MetaBuffer → Option Descriptor → List Chunk
  | _, [], _ => []
  | p, jh :: rest, descriptor =>
    let d := descriptor.getD (newDescriptor J (getblk p) tid)
    -- the descriptor has a place, and so has the buffer
    let p' := if descriptor.isSome then J.next p else J.next (J.next p)
    let d' := d.put J jh.bBlocknr (journalWriteMetadataBuffer jh)
    if rest = [] ∨ d'.full then d'.submit :: writeMetadataBuffers J getblk tid p' rest none
    else writeMetadataBuffers J getblk tid p' rest (some d')

/-! ## The whole transaction -/

/-- What `journal_commit_transaction` writes to the log, before and after it sets `t_log_start`. -/
structure Committed where
  /-- The revoke blocks. -/
  revokes : List Block
  tLogStart : ℕ
  /-- The descriptors, with the metadata blocks. -/
  metadata : List Chunk
  /-- The commit block. -/
  commit : Block

/-- `journal_commit_transaction`, with `j_head` at `p`. -/
def journalCommitTransaction (J : Journal) (getblk : ℕ → Block) (tid : Tid) (p : ℕ)
    (T : RevokeTable J) (tBuffers : List MetaBuffer) : Committed :=
  let revokes := writeRevokeRecords J getblk tid p T.records none
  let tLogStart := J.next^[revokes.length] p
  let metadata := writeMetadataBuffers J getblk tid tLogStart tBuffers none
  let last := J.next^[(metadata.flatMap Chunk.blocks).length] tLogStart
  { revokes := revokes
    tLogStart := tLogStart
    metadata := metadata
    commit := (getblk last).setHeader jfsCommitBlock tid }

/-- The transaction in the log. -/
def Committed.transaction (c : Committed) : LogTransaction :=
  ⟨c.revokes.map Chunk.revoke ++ c.metadata, c.commit⟩

/-- The transaction in the log, from `t_log_start` on. -/
def Committed.fromLogStart (c : Committed) : LogTransaction := ⟨c.metadata, c.commit⟩

/-! ## What is in the revoke blocks -/

theorem Block.setHeader_isHeader (b : Block) (blocktype : Word) (tid : Tid) :
    (b.setHeader blocktype tid).IsHeader blocktype tid := ⟨rfl, rfl, rfl⟩

/-- What is written after the header leaves it as it is. -/
theorem Block.IsHeader.congr {b' : Block} {blocktype : Word} {tid : Tid}
    (h : b.IsHeader blocktype tid) (heq : ∀ i < 3, b' i = b i) : b'.IsHeader blocktype tid :=
  ⟨(heq 0 (by decide)).trans h.magic, (heq 1 (by decide)).trans h.blocktype,
    (heq 2 (by decide)).trans h.sequence⟩

theorem Block.IsHeader.update {blocktype : Word} {tid : Tid}
    (h : b.IsHeader blocktype tid) {i : ℕ} (hi : 3 ≤ i) (w : Word) :
    Block.IsHeader (update b i w) blocktype tid :=
  h.congr fun _ hj ↦ update_of_ne (by omega) _ _

/-- The loop of `scan_revoke_records` reads the words of the block. -/
theorem revokedFrom_eq (bh : Block) {n fuel offset : ℕ} (hfuel : n ≤ fuel) :
    revokedFrom bh (offset + 4 * n : ℕ) fuel offset =
      (List.range n).map fun i ↦ bh (offset / 4 + i) := by
  induction n generalizing fuel offset with
  | zero =>
    cases fuel with
    | zero => rfl
    | succ fuel => rw [revokedFrom, if_neg (by omega)]; rfl
  | succ n ih =>
    obtain ⟨fuel, rfl⟩ := Nat.exists_eq_add_of_le' (Nat.one_le_of_lt hfuel)
    have hrest : revokedFrom bh (offset + 4 * (n + 1) : ℕ) fuel (offset + 4) =
        (range n).map fun i ↦ bh ((offset + 4) / 4 + i) := by
      rw [show offset + 4 * (n + 1) = offset + 4 + 4 * n by ring]
      exact ih (Nat.le_of_succ_le_succ hfuel)
    rw [revokedFrom, if_pos (by omega), hrest, range_succ_eq_map, map_cons, map_map]
    refine congrArg₂ _ rfl (map_congr_left fun i _ ↦ ?_)
    congr 1
    omega

/-- A revoke block has room for the records that are in it. -/
structure RevokeDescriptor.Holds (J : Journal) (tid : Tid) (d : RevokeDescriptor) (rs : List Word) :
    Prop where
  header : d.bh.IsHeader jfsRevokeBlock tid
  offset : d.offset = 16 + 4 * rs.length
  le : d.offset ≤ J.jBlocksize
  words : ∀ i (h : i < rs.length), d.bh (4 + i) = rs[i]

namespace RevokeDescriptor.Holds

variable {tid : Tid} {d : RevokeDescriptor} {rs : List Word}

theorem new (b : Block) (tid : Tid) :
    Holds J tid ⟨b.setHeader jfsRevokeBlock tid, 16⟩ [] where
  header := b.setHeader_isHeader _ _
  offset := rfl
  le := le_trans (show 16 ≤ 512 by decide) J.blocksize_ge
  words := nofun

theorem put (h : Holds J tid d rs) (hroom : d.offset ≠ J.jBlocksize) (blocknr : Word) :
    Holds J tid (d.put blocknr) (rs ++ [blocknr]) := by
  have hoffset := h.offset
  have hindex : d.offset / 4 = 4 + rs.length := by omega
  refine ⟨h.header.update (by omega) _, ?_, ?_, fun i hi ↦ ?_⟩
  · rw [length_append, length_singleton, RevokeDescriptor.put, hoffset]
    ring
  · -- the offset is a multiple of four, and so is the size of a block
    have hle := h.le
    obtain ⟨k, hk⟩ := J.blocksize_dvd
    change d.offset + 4 ≤ J.jBlocksize
    omega
  · rw [RevokeDescriptor.put, hindex]
    dsimp only
    rcases lt_or_ge i rs.length with hlt | hge
    · rw [update_of_ne (by omega), getElem_append_left hlt]
      exact h.words i hlt
    · obtain rfl : i = rs.length := by
        rw [length_append, length_singleton] at hi
        omega
      simp

theorem flush_isHeader (h : Holds J tid d rs) : (flushDescriptor d).IsHeader jfsRevokeBlock tid :=
  h.header.update le_rfl _

/-- What is read back from the block. -/
theorem revoked_flush (h : Holds J tid d rs) : revoked (flushDescriptor d) = rs := by
  have hoffset := h.offset
  have hle := h.le.trans J.blocksize_le
  have hcount : (flushDescriptor d).rCount = ((16 + 4 * rs.length : ℕ) : ℤ) := by
    rw [Block.rCount, flushDescriptor, update_self, BitVec.toInt_ofNat',
      Int.bmod_eq_of_le] <;> omega
  rw [revoked, hcount, revokedFrom_eq _ (by omega)]
  refine ext_getElem (by simp) fun i hi hi' ↦ ?_
  rw [getElem_map, getElem_range, flushDescriptor, update_of_ne (by omega)]
  exact h.words i hi'

end RevokeDescriptor.Holds

/-- The records that have been put into a block that is still to be flushed. -/
def RevokePending (J : Journal) (tid : Tid) : Option RevokeDescriptor → List Word → Prop
  | none, rs => rs = []
  | some d, rs => d.Holds J tid rs

/-- **The revoke blocks name the records.** -/
theorem writeRevokeRecords_spec {getblk : ℕ → Block} {tid : Tid} {p : ℕ}
    {records : List RevokeRecord} {descriptor : Option RevokeDescriptor} {rs : List Word}
    (h : RevokePending J tid descriptor rs) :
    (∀ bh ∈ writeRevokeRecords J getblk tid p records descriptor, bh.IsHeader jfsRevokeBlock tid) ∧
      (writeRevokeRecords J getblk tid p records descriptor).flatMap revoked =
        rs ++ records.map RevokeRecord.blocknr := by
  induction records generalizing p descriptor rs with
  | nil =>
    cases descriptor with
    | none =>
      rw [show rs = [] from h]
      exact ⟨nofun, rfl⟩
    | some d =>
      have hd : d.Holds J tid rs := h
      rw [writeRevokeRecords]
      simp [hd.flush_isHeader, hd.revoked_flush]
  | cons record records ih =>
    have hnew : RevokePending J tid (some (RevokeDescriptor.put
        ⟨(getblk p).setHeader jfsRevokeBlock tid, 16⟩ record.blocknr)) [record.blocknr] := by
      refine (RevokeDescriptor.Holds.new (getblk p) tid).put ?_ record.blocknr
      have hsize := J.blocksize_ge
      dsimp only
      omega
    cases descriptor with
    | none =>
      rw [show rs = [] from h]
      exact ih hnew
    | some d =>
      have hd : d.Holds J tid rs := h
      rw [writeRevokeRecords]
      split
      · obtain ⟨hheader, hrev⟩ := ih hnew
        refine ⟨forall_mem_cons.2 ⟨hd.flush_isHeader, hheader⟩, ?_⟩
        rw [flatMap_cons, hd.revoked_flush, hrev]
        rfl
      · rename_i hroom
        have hput : RevokePending J tid (some (d.put record.blocknr)) (rs ++ [record.blocknr]) :=
          hd.put hroom record.blocknr
        obtain ⟨hheader, hrev⟩ := ih hput
        refine ⟨hheader, hrev.trans ?_⟩
        rw [append_assoc]
        rfl

/-! ## What is in the descriptors -/

/-- The tags are in the block, from one offset to another, and none of them is the last one. -/
def Tagged (bh : Block) : ℕ → List Tag → ℕ → Prop
  | tagp, [], e => e = tagp
  | tagp, t :: ts, e =>
    bh.tagAt tagp = t ∧ t.has jfsFlagLastTag = false ∧ Tagged bh (t.next tagp) ts e

namespace Tagged

variable {bh bh' : Block} {ts : List Tag} {t : Tag} {tagp e : ℕ}

theorem le (h : Tagged bh tagp ts e) : tagp ≤ e := by
  induction ts generalizing tagp with
  | nil => exact h.ge
  | cons t ts ih =>
    have hrest := ih h.2.2
    rw [Tag.next] at hrest
    omega

theorem concat (h : Tagged bh tagp ts e) (ht : bh.tagAt e = t)
    (hlast : t.has jfsFlagLastTag = false) : Tagged bh tagp (ts ++ [t]) (t.next e) := by
  induction ts generalizing tagp with
  | nil =>
    obtain rfl : e = tagp := h
    exact ⟨ht, hlast, rfl⟩
  | cons t' ts ih => exact ⟨h.1, h.2.1, ih h.2.2⟩

/-- What is written after the tags does not change them. -/
theorem congr (h : Tagged bh tagp ts e) (heq : ∀ i < e / 4, bh' i = bh i) :
    Tagged bh' tagp ts e := by
  induction ts generalizing tagp with
  | nil => exact h
  | cons t ts ih =>
    have hle := h.2.2.le
    rw [Tag.next] at hle
    refine ⟨?_, h.2.1, ih h.2.2⟩
    rw [← h.1, Block.tagAt, Block.tagAt, Block.wordAt, Block.wordAt, Block.wordAt, Block.wordAt,
      heq _ (by omega), heq _ (by omega)]

/-- **The tags are read back**, if one comes after them that is the last. -/
theorem tagsFrom_eq {size fuel : ℕ} (h : Tagged bh tagp ts e) (ht : bh.tagAt e = t)
    (hlast : t.has jfsFlagLastTag = true) (hroom : e + 8 ≤ size) (hfuel : size ≤ tagp + fuel) :
    tagsFrom bh size fuel tagp = ts ++ [t] := by
  induction ts generalizing tagp fuel with
  | nil =>
    obtain rfl : e = tagp := h
    obtain ⟨fuel, rfl⟩ : ∃ n, fuel = n + 1 := ⟨fuel - 1, by omega⟩
    rw [tagsFrom, if_pos hroom, ht]
    dsimp only
    rw [if_pos hlast]
    rfl
  | cons t' ts ih =>
    obtain ⟨ht', hlast', hrest⟩ := h
    have hle := hrest.le
    rw [Tag.next] at hle
    obtain ⟨fuel, rfl⟩ : ∃ n, fuel = n + 1 := ⟨fuel - 1, by omega⟩
    rw [tagsFrom, if_pos (by omega), ht']
    dsimp only
    rw [if_neg (by simp [hlast']), ih hrest (by rw [Tag.next]; omega)]
    rfl

end Tagged

/-- The tag that a buffer is given. -/
def MetaBuffer.tag (jh : MetaBuffer) (firstTag : Bool) : Tag :=
  ⟨jh.bBlocknr, tagFlag (journalWriteMetadataBuffer jh).doEscape firstTag⟩

/-- The tags of buffers in one descriptor. -/
def tagList : List MetaBuffer → List Tag
  | [] => []
  | jh :: jhs => jh.tag true :: jhs.map fun jh ↦ jh.tag false

theorem tagList_concat (jhs : List MetaBuffer) (jh : MetaBuffer) :
    tagList (jhs ++ [jh]) = tagList jhs ++ [jh.tag jhs.isEmpty] := by
  cases jhs with
  | nil => rfl
  | cons j jhs => simp [tagList]

/-- The tag with `JFS_FLAG_LAST_TAG`. -/
def Tag.withLast (tag : Tag) : Tag := ⟨tag.tBlocknr, tag.tFlags ||| jfsFlagLastTag⟩

/-- What the flags of a tag are, and what they are of the last one. -/
theorem tagFlag_spec : ∀ escape firstTag,
    (tagFlag escape firstTag &&& jfsFlagLastTag != 0) = false ∧
      (tagFlag escape firstTag &&& jfsFlagSameUuid != 0) = !firstTag ∧
      (tagFlag escape firstTag &&& jfsFlagEscape != 0) = escape ∧
      ((tagFlag escape firstTag ||| jfsFlagLastTag) &&& jfsFlagLastTag != 0) = true ∧
      ((tagFlag escape firstTag ||| jfsFlagLastTag) &&& jfsFlagEscape != 0) = escape := by
  decide

namespace MetaBuffer

variable (jh : MetaBuffer) (firstTag : Bool)

theorem tag_last : (jh.tag firstTag).has jfsFlagLastTag = false := (tagFlag_spec _ _).1

theorem tag_withLast_last : (jh.tag firstTag).withLast.has jfsFlagLastTag = true :=
  (tagFlag_spec _ _).2.2.2.1

theorem tag_next (tagp : ℕ) :
    (jh.tag firstTag).next tagp = tagp + 8 + if firstTag then 16 else 0 := by
  have hsame : (jh.tag firstTag).has jfsFlagSameUuid = !firstTag := (tagFlag_spec _ _).2.1
  rw [Tag.next, hsame]
  cases firstTag <;> rfl

/-- A tag that says of a buffer where it belongs and whether it has been escaped. -/
def IsTag (tag : Tag) (jh : MetaBuffer) : Prop :=
  tag.tBlocknr = jh.bBlocknr ∧ tag.has jfsFlagEscape = (journalWriteMetadataBuffer jh).doEscape

theorem tag_isTag : IsTag (jh.tag firstTag) jh := ⟨rfl, (tagFlag_spec _ _).2.2.1⟩

theorem withLast_isTag : IsTag (jh.tag firstTag).withLast jh := ⟨rfl, (tagFlag_spec _ _).2.2.2.2⟩

theorem tagList_isTag (jhs : List MetaBuffer) : List.Forall₂ IsTag (tagList jhs) jhs := by
  cases jhs with
  | nil => exact .nil
  | cons jh jhs =>
    refine .cons (jh.tag_isTag true) ?_
    rw [forall₂_map_left_iff, forall₂_same]
    exact fun jh _ ↦ jh.tag_isTag false

end MetaBuffer

/-- A descriptor block with the tags of buffers, of which `jh` is the last one. -/
structure Descriptor.Holds (J : Journal) (tid : Tid) (d : Descriptor) (jhs : List MetaBuffer)
    (jh : MetaBuffer) : Prop where
  header : d.bh.IsHeader jfsDescriptorBlock tid
  tagged : Tagged d.bh 12 (tagList jhs) d.tag
  tag : d.bh.tagAt d.tag = jh.tag jhs.isEmpty
  tagp : d.tagp = (jh.tag jhs.isEmpty).next d.tag
  firstTag : d.firstTag = false
  spaceLeft : d.spaceLeft = J.jBlocksize - d.tagp
  le : d.tagp ≤ J.jBlocksize
  wbuf : d.wbuf = (jhs ++ [jh]).map fun jh ↦ (journalWriteMetadataBuffer jh).newData

namespace Descriptor.Holds

variable {tid : Tid} {d : Descriptor} {jhs : List MetaBuffer} {jh : MetaBuffer}

theorem new (bh : Block) (tid : Tid) (jh : MetaBuffer) :
    Holds J tid ((newDescriptor J bh tid).put J jh.bBlocknr (journalWriteMetadataBuffer jh))
      [] jh where
  header := by
    refine Block.IsHeader.congr ?_ fun i hi ↦ Block.setWords_of_lt _ _ (show i < 20 / 4 by omega)
    have hheader := bh.setHeader_isHeader jfsDescriptorBlock tid
    refine Block.IsHeader.update (Block.IsHeader.update hheader ?_ _) ?_ _ <;> simp [newDescriptor]
  tagged := rfl
  tag := by
    change Block.tagAt (Block.setWords _ (12 + 8) 4 J.jUuid) 12 = jh.tag true
    rw [Block.tagAt, Block.wordAt, Block.wordAt, Block.setWords_of_lt _ _ (by decide),
      Block.setWords_of_lt _ _ (by decide)]
    simp [newDescriptor, MetaBuffer.tag]
  tagp := (jh.tag_next true 12).symm
  firstTag := rfl
  spaceLeft := by
    change (J.jBlocksize : ℤ) - 12 - 24 = J.jBlocksize - (12 + 24 : ℕ)
    omega
  le := le_trans (show 12 + 24 ≤ 512 by decide) J.blocksize_ge
  wbuf := rfl

/-- Another tag, if there is room for it. -/
theorem put (h : Holds J tid d jhs jh) (hroom : ¬d.full) (jh' : MetaBuffer) :
    Holds J tid (d.put J jh'.bBlocknr (journalWriteMetadataBuffer jh')) (jhs ++ [jh]) jh' := by
  have hspace := h.spaceLeft
  have hle := h.le
  have hleft : 24 ≤ d.spaceLeft := by
    rw [Descriptor.full] at hroom
    omega
  have hempty : (jhs ++ [jh]).isEmpty = false := by simp
  have htagged : Tagged d.bh 12 (tagList (jhs ++ [jh])) d.tagp := by
    rw [tagList_concat, h.tagp]
    exact h.tagged.concat h.tag (jh.tag_last _)
  have hput : d.put J jh'.bBlocknr (journalWriteMetadataBuffer jh') =
      { d with
        bh := update (update d.bh (d.tagp / 4) jh'.bBlocknr) (d.tagp / 4 + 1)
          (tagFlag (journalWriteMetadataBuffer jh').doEscape false)
        tagp := d.tagp + 8
        tag := d.tagp
        spaceLeft := d.spaceLeft - 8
        wbuf := d.wbuf ++ [(journalWriteMetadataBuffer jh').newData] } := by
    rw [Descriptor.put, h.firstTag]
    simp
  have h12 := htagged.le
  rw [hput]
  refine ⟨?_, ?_, ?_, ?_, h.firstTag, ?_, ?_, ?_⟩
  · exact (h.header.update (by omega) _).update (by omega) _
  · refine htagged.congr fun i hi ↦ ?_
    dsimp only
    rw [update_of_ne (by omega), update_of_ne (by omega)]
  · rw [hempty, Block.tagAt, Block.wordAt, Block.wordAt]
    simp [MetaBuffer.tag]
  · rw [hempty, jh'.tag_next]
    rfl
  · dsimp only
    omega
  · dsimp only
    omega
  · rw [h.wbuf]
    simp

/-- **What is submitted** is a descriptor, with a tag for every block. -/
theorem submit (h : Holds J tid d jhs jh) :
    ∃ bh, d.submit = .descriptor bh d.wbuf ∧ bh.IsHeader jfsDescriptorBlock tid ∧
      List.Forall₂ MetaBuffer.IsTag (tags bh J.jBlocksize) (jhs ++ [jh]) := by
  have h12 := h.tagged.le
  refine ⟨_, rfl, h.header.update (by omega) _, ?_⟩
  set bh : Block := update d.bh (d.tag / 4 + 1) (d.bh (d.tag / 4 + 1) ||| jfsFlagLastTag)
  have hword : d.bh.wordAt (d.tag + 4) = d.bh (d.tag / 4 + 1) := by
    rw [Block.wordAt, Nat.add_div_right d.tag (by decide)]
  have htag : bh.tagAt d.tag = (jh.tag jhs.isEmpty).withLast := by
    rw [← h.tag, Block.tagAt, Block.tagAt, hword]
    refine congrArg₂ Tag.mk ?_ ?_
    · exact update_of_ne (by omega) _ _
    · rw [Block.wordAt, Nat.add_div_right d.tag (by decide)]
      exact update_self ..
  have hroom : d.tag + 8 ≤ J.jBlocksize := by
    have hle := h.le
    rw [h.tagp, MetaBuffer.tag_next] at hle
    omega
  have htagged : Tagged bh 12 (tagList jhs) d.tag :=
    h.tagged.congr fun i hi ↦ update_of_ne (by omega) _ _
  rw [tags, htagged.tagsFrom_eq htag (jh.tag_withLast_last _) hroom (by omega)]
  exact rel_append (MetaBuffer.tagList_isTag jhs) (.cons (jh.withLast_isTag _) .nil)

end Descriptor.Holds

/-! ## What is logged -/

/-- What is logged of a content. -/
def logBlock (content : Block) : Block :=
  if content 0 = jfsMagicNumber then update content 0 0 else content

theorem newData_eq_logBlock (jh : MetaBuffer) :
    (journalWriteMetadataBuffer jh).newData = logBlock jh.content := by
  rw [journalWriteMetadataBuffer, logBlock, MetaBuffer.content]
  split <;> rfl

/-- It does not begin with the magic number. -/
theorem logBlock_ne_magic (content : Block) : logBlock content 0 ≠ jfsMagicNumber := by
  rw [logBlock]
  split
  · rw [update_self]
    decide
  · assumption

/-- It is the content, unless that has to be escaped. -/
theorem logBlock_eq_iff (content : Block) :
    logBlock content = content ↔ content 0 ≠ jfsMagicNumber :=
  ⟨fun heq hmagic ↦ logBlock_ne_magic content (heq.symm ▸ hmagic), fun hne ↦ if_neg hne⟩

/-- What is logged of a buffer. -/
def MetaBuffer.logged (jh : MetaBuffer) : Word × Block :=
  (jh.bBlocknr, (journalWriteMetadataBuffer jh).newData)

/-- What should be logged of a buffer. -/
def MetaBuffer.write (jh : MetaBuffer) : Word × Block := (jh.bBlocknr, jh.content)

/-- **The tag and the block stand for the content.** -/
theorem MetaBuffer.IsTag.content {tag : Tag} {jh : MetaBuffer} (h : IsTag tag jh) :
    tag.content (journalWriteMetadataBuffer jh).newData = jh.content := by
  rw [Tag.content, h.2, journalWriteMetadataBuffer]
  split
  · rename_i hmagic
    rw [update_idem]
    exact update_eq_self_iff.2 hmagic.symm
  · rfl

/-- A descriptor and what it describes, for buffers. -/
theorem describes {bh : Block} {jhs : List MetaBuffer}
    (h : List.Forall₂ MetaBuffer.IsTag (tags bh J.jBlocksize) jhs) :
    let c := Chunk.descriptor bh (jhs.map fun jh ↦ (journalWriteMetadataBuffer jh).newData)
    c.logged J = jhs.map MetaBuffer.logged ∧ c.writes J = jhs.map MetaBuffer.write := by
  dsimp only
  rw [Chunk.logged, Chunk.writes]
  generalize tags bh J.jBlocksize = ts at h
  induction h with
  | nil => exact ⟨rfl, rfl⟩
  | cons htag _ ih =>
    simp only [map_cons, zip_cons_cons, zipWith_cons_cons, ih.1, ih.2, htag.1, htag.content]
    exact ⟨rfl, rfl⟩

/-- What a descriptor has with it that is submitted. -/
theorem Descriptor.Holds.submit_spec {tid : Tid} {d : Descriptor} {jhs : List MetaBuffer}
    {jh : MetaBuffer} (h : d.Holds J tid jhs jh) :
    d.submit.WellFormed J tid ∧ d.submit.revoked = [] ∧
      d.submit.logged J = (jhs ++ [jh]).map MetaBuffer.logged ∧
      d.submit.writes J = (jhs ++ [jh]).map MetaBuffer.write := by
  obtain ⟨bh, hsubmit, hheader, htags⟩ := h.submit
  rw [hsubmit, h.wbuf]
  refine ⟨⟨hheader, ?_⟩, rfl, describes htags⟩
  rw [htags.length_eq, length_map]

/-- The buffers whose tags are in a descriptor that is still to be submitted. -/
def DescriptorPending (J : Journal) (tid : Tid) : Option Descriptor → List MetaBuffer → Prop
  | none, jhs => jhs = []
  | some d, jhs => ¬d.full ∧ ∃ init jh, jhs = init ++ [jh] ∧ d.Holds J tid init jh

/-- **The metadata blocks** are described by the descriptors. -/
theorem writeMetadataBuffers_spec {getblk : ℕ → Block} {tid : Tid} {p : ℕ}
    {rest jhs : List MetaBuffer} {descriptor : Option Descriptor}
    (h : DescriptorPending J tid descriptor jhs) (hrest : rest = [] → descriptor = none) :
    let cs := writeMetadataBuffers J getblk tid p rest descriptor
    (∀ c ∈ cs, c.WellFormed J tid ∧ c.revoked = []) ∧
      cs.flatMap (Chunk.logged J) = (jhs ++ rest).map MetaBuffer.logged ∧
      cs.flatMap (Chunk.writes J) = (jhs ++ rest).map MetaBuffer.write := by
  induction rest generalizing p descriptor jhs with
  | nil =>
    obtain rfl := hrest rfl
    obtain rfl : jhs = [] := h
    exact ⟨nofun, rfl, rfl⟩
  | cons jh rest ih =>
    rw [writeMetadataBuffers]
    set d := (descriptor.getD (newDescriptor J (getblk p) tid)).put J jh.bBlocknr
      (journalWriteMetadataBuffer jh)
    set p' := if descriptor.isSome then J.next p else J.next (J.next p)
    -- the buffer is put into the descriptor that is there or into a new one
    have hput : d.Holds J tid jhs jh := by
      cases descriptor with
      | none =>
        obtain rfl : jhs = [] := h
        exact .new (getblk p) tid jh
      | some d₀ =>
        obtain ⟨hroom, init, jh₀, rfl, hd₀⟩ := h
        exact hd₀.put hroom jh
    split
    · obtain ⟨hwf, hrev, hlog, hwrite⟩ := hput.submit_spec
      have hnone : DescriptorPending J tid none [] := rfl
      obtain ⟨hall, hlogged, hwrites⟩ := ih hnone fun _ ↦ rfl
      refine ⟨forall_mem_cons.2 ⟨⟨hwf, hrev⟩, hall⟩, ?_, ?_⟩
      · rw [flatMap_cons, hlog, hlogged, ← map_append, append_assoc]
        rfl
      · rw [flatMap_cons, hwrite, hwrites, ← map_append, append_assoc]
        rfl
    · rename_i hmore
      rw [not_or] at hmore
      have hpending : DescriptorPending J tid (some d) (jhs ++ [jh]) :=
        ⟨hmore.2, jhs, jh, rfl, hput⟩
      have hspec := ih (p := p') hpending fun hnil ↦ absurd hnil hmore.1
      rw [append_assoc] at hspec
      exact hspec

/-! ## What is in a transaction -/

section Committed

variable (getblk : ℕ → Block) (tid : Tid) (p : ℕ) (T : RevokeTable J) (tBuffers : List MetaBuffer)

theorem commit_metadata_spec :
    let c := journalCommitTransaction J getblk tid p T tBuffers
    (∀ m ∈ c.metadata, m.WellFormed J tid ∧ m.revoked = []) ∧
      c.metadata.flatMap (Chunk.logged J) = tBuffers.map MetaBuffer.logged ∧
      c.metadata.flatMap (Chunk.writes J) = tBuffers.map MetaBuffer.write := by
  have hnone : DescriptorPending J tid none [] := rfl
  exact writeMetadataBuffers_spec hnone fun _ ↦ rfl

theorem commit_revokes_spec :
    let c := journalCommitTransaction J getblk tid p T tBuffers
    (∀ bh ∈ c.revokes, bh.IsHeader jfsRevokeBlock tid) ∧
      c.revokes.flatMap revoked = T.records.map RevokeRecord.blocknr := by
  have hnone : RevokePending J tid none [] := rfl
  exact writeRevokeRecords_spec hnone

/-- **What is committed, from `t_log_start` on**, is a well-formed transaction that logs the buffers
and revokes nothing. -/
theorem commit_fromLogStart_spec :
    let t := (journalCommitTransaction J getblk tid p T tBuffers).fromLogStart
    t.WellFormed J tid ∧ t.revoked = [] ∧ t.logged J = tBuffers.map MetaBuffer.logged ∧
      t.writes J = tBuffers.map MetaBuffer.write := by
  obtain ⟨hmeta, hlogged, hwrites⟩ := commit_metadata_spec getblk tid p T tBuffers
  refine ⟨⟨fun m hm ↦ (hmeta m hm).1, Block.setHeader_isHeader _ _ _⟩, ?_, hlogged, hwrites⟩
  exact flatMap_eq_nil_iff.2 fun m hm ↦ (hmeta m hm).2

/-- **What is committed** is a well-formed transaction that logs the buffers and revokes what is in
the table. -/
theorem commit_transaction_spec :
    let t := (journalCommitTransaction J getblk tid p T tBuffers).transaction
    t.WellFormed J tid ∧ t.revoked = T.records.map RevokeRecord.blocknr ∧
      t.logged J = tBuffers.map MetaBuffer.logged ∧ t.writes J = tBuffers.map MetaBuffer.write := by
  obtain ⟨hwf, hrev, hlogged, hwrites⟩ := commit_fromLogStart_spec getblk tid p T tBuffers
  obtain ⟨hrevokes, hrevoked⟩ := commit_revokes_spec getblk tid p T tBuffers
  set c := journalCommitTransaction J getblk tid p T tBuffers
  have hnothing : ∀ (f : Chunk → List (Word × Block)), (∀ bh, f (.revoke bh) = []) →
      c.transaction.chunks.flatMap f = c.fromLogStart.chunks.flatMap f := by
    intro f hf
    have hnil : (c.revokes.map Chunk.revoke).flatMap f = [] := by
      rw [flatMap_map, flatMap_eq_nil_iff]
      exact fun bh _ ↦ hf bh
    rw [Committed.transaction, flatMap_append, hnil]
    rfl
  refine ⟨⟨fun m hm ↦ ?_, hwf.commit⟩, ?_, ?_, ?_⟩
  · rcases mem_append.1 hm with hm | hm
    · obtain ⟨bh, hbh, rfl⟩ := mem_map.1 hm
      exact hrevokes bh hbh
    · exact hwf.chunks m hm
  · rw [LogTransaction.revoked, Committed.transaction, flatMap_append, flatMap_map]
    exact (congrArg₂ _ hrevoked hrev).trans (append_nil _)
  · exact (hnothing _ fun _ ↦ rfl).trans hlogged
  · exact (hnothing _ fun _ ↦ rfl).trans hwrites

end Committed

end Linux24.Jbd
