import Linux24.Jbd.Commit

/-!
# Escaping the magic number

A block that is logged must not begin with the magic number of the journal.  When it would, it is
logged with a zero in its first word and `JFS_FLAG_ESCAPE` in its tag, and recovery is to put the
magic number back.

The first half works: whatever is in a buffer, what is logged of it does not begin with the magic
number, so that a pass that came to look at it would stop there and not take it for a block with a
header.  The second half does not.  `do_one_pass` has copied the logged block to `nbh`, and then
writes the magic number to `bh`, which is the descriptor.  So the block comes back as it was if and
only if it did not begin with the magic number: `escape_round_trip_iff`.  Otherwise its first word
is zero after recovery.
-/

set_option autoImplicit false

namespace Linux24.Jbd

open Epochs List

variable {J : Journal} {log : Log} {sb : Superblock} {pre later : List LogTransaction}
  {t : LogTransaction} {b : Word}

/-- Recovery replays the block as the transaction has logged it: it is in the log, no later
transaction logs the block, and it is not revoked. -/
structure Replays (J : Journal) (log : Log) (sb : Superblock) (pre : List LogTransaction)
    (t : LogTransaction) (later : List LogTransaction) (b : Word) : Prop where
  wellFormed : WellFormedLog J log sb (pre ++ t :: later)
  last : ∀ t' ∈ later, ∀ w ∈ t'.logged J, w.1 ≠ b
  unrevoked : ∀ t' ∈ t :: later, b ∉ t'.revoked

/-- What recovery leaves in such a block is what is there in the log. -/
theorem Replays.recovered (h : Replays J log sb pre t later b) {v : Block}
    (hv : Epochs.last (t.logged J) b = some v) (disk : Disk) :
    ∃ n, ∀ fuel ≥ n, ∃ r, journalRecover J log sb fuel disk = some r ∧
      r.err = 0 ∧ r.disk b = v := by
  obtain ⟨n, hn⟩ := h.wellFormed.journalRecover_eq disk
  have hlast : LastWritten ((pre ++ t :: later).map (LogTransaction.epoch J)) b (t.epoch J)
      (later.map (LogTransaction.epoch J)) v := by
    refine ⟨?_, hv, ?_⟩
    · rw [map_append]
      exact suffix_append _ _
    · simp only [mem_map, forall_exists_index, and_imp, forall_apply_eq_imp_iff₂]
      exact fun t' ht' ↦ last_eq_none_iff.2 (h.last t' ht')
  have hrev : ∀ e ∈ t.epoch J :: later.map (LogTransaction.epoch J), b ∉ e.revoked := by
    rw [← map_cons]
    simp only [mem_map, forall_exists_index, and_imp, forall_apply_eq_imp_iff₂]
    exact h.unrevoked
  refine ⟨n, fun fuel hfuel ↦ ⟨_, hn fuel hfuel, rfl, ?_⟩⟩
  dsimp only
  rw [apply_eq, hlast.last_surviving hrev, Option.getD_some]

/-- A block that does not begin with the magic number ends a pass. -/
theorem passStep_of_ne_magic {pass : PassType} {endTransaction : Tid} {s : PassState J} {bh : Block}
    (hread : log s.nextLogBlock = some bh) (hne : bh 0 ≠ jfsMagicNumber) :
    ∃ s', passStep log pass endTransaction s = .inr (none, s') := by
  rw [passStep, hread]
  split
  · exact ⟨s, rfl⟩
  · exact ⟨_, if_pos hne⟩

/-- **Escaping is undone only if it was not done.** -/
theorem escape_round_trip_iff (jh : MetaBuffer) {getblk : ℕ → Block} {tid : Tid} {p : ℕ}
    {T : RevokeTable J} {tBuffers : List MetaBuffer} (hjh : jh ∈ tBuffers)
    (hone : (tBuffers.map MetaBuffer.bBlocknr).Nodup)
    (h : Replays J log sb pre (journalCommitTransaction J getblk tid p T tBuffers).transaction later
      jh.bBlocknr) (disk : Disk) :
    (∃ n, ∀ fuel ≥ n, ∃ r, journalRecover J log sb fuel disk = some r ∧ r.err = 0 ∧
      (r.disk jh.bBlocknr = jh.content ↔ jh.content 0 ≠ jfsMagicNumber)) ∧
      ∀ (log' : Log) (pass : PassType) (endTransaction : Tid) (s : PassState J),
        log' s.nextLogBlock = some (journalWriteMetadataBuffer jh).newData →
          ∃ s', passStep log' pass endTransaction s = .inr (none, s') := by
  refine ⟨?_, fun log' pass endTransaction s hread ↦
    passStep_of_ne_magic hread (newData_eq_logBlock jh ▸ logBlock_ne_magic jh.content)⟩
  have hkeys : ((tBuffers.map MetaBuffer.logged).map Prod.fst).Nodup := by
    rw [map_map]
    exact hone
  have hlast := last_of_nodup hkeys (mem_map_of_mem hjh)
  rw [← (commit_transaction_spec getblk tid p T tBuffers).2.2.1] at hlast
  obtain ⟨n, hn⟩ := h.recovered hlast disk
  refine ⟨n, fun fuel hfuel ↦ ?_⟩
  obtain ⟨r, hr, herr, hdisk⟩ := hn fuel hfuel
  refine ⟨r, hr, herr, ?_⟩
  rw [hdisk, MetaBuffer.logged, newData_eq_logBlock]
  exact logBlock_eq_iff jh.content

/-- A transaction of one buffer, for block 7. -/
def commitSeven (content : Block) : LogTransaction :=
  (journalCommitTransaction sevenBlocks (fun _ _ ↦ 0) 1 1 (.empty _)
    [⟨7, content, none⟩]).transaction

/-- A log with that transaction in it. -/
def logSeven (content : Block) : Log :=
  fun q ↦ some ((commitSeven content).blocks.getD (q - 1) fun _ ↦ 0)

theorem logSeven_wellFormed (content : Block) :
    WellFormedLog sevenBlocks (logSeven content) ⟨1, 1⟩ [commitSeven content] where
  start := ⟨by decide, by decide⟩
  consecutive := ⟨(commit_transaction_spec _ _ _ _ _).1, trivial⟩
  fits := by
    change 3 ≤ 7
    decide
  holds := ⟨rfl, rfl, rfl, trivial⟩
  tail := .stop rfl (Or.inl (by
    change (0 : Word) ≠ jfsMagicNumber
    decide))

theorem logSeven_replays (content : Block) :
    Replays sevenBlocks (logSeven content) ⟨1, 1⟩ [] (commitSeven content) [] 7 where
  wellFormed := logSeven_wellFormed content
  last := nofun
  unrevoked := by
    rintro t (_ | ⟨_, ⟨⟩⟩)
    exact not_mem_nil

theorem escape_round_trip_iff_plain :
    ∃ n, ∀ fuel ≥ n, ∃ r, journalRecover sevenBlocks (logSeven (.ofWords [5])) ⟨1, 1⟩ fuel
      (fun _ _ ↦ 0) = some r ∧ r.err = 0 ∧ r.disk 7 = .ofWords [5] := by
  have hround := escape_round_trip_iff ⟨7, .ofWords [5], none⟩ (mem_singleton_self _)
    (nodup_singleton _) (logSeven_replays (.ofWords [5])) fun _ _ ↦ 0
  obtain ⟨n, hn⟩ := hround.1
  refine ⟨n, fun fuel hfuel ↦ ?_⟩
  obtain ⟨r, hr, herr, hiff⟩ := hn fuel hfuel
  exact ⟨r, hr, herr, hiff.2 (by decide)⟩

/-- A block that begins with the magic number, and then has a five: it comes back with a zero for
the magic number. -/
theorem escape_not_undone :
    Replays sevenBlocks (logSeven (.ofWords [jfsMagicNumber, 5])) ⟨1, 1⟩ []
        (commitSeven (.ofWords [jfsMagicNumber, 5])) [] 7 ∧
      (journalRecover sevenBlocks (logSeven (.ofWords [jfsMagicNumber, 5])) ⟨1, 1⟩ 9
        fun _ _ ↦ 0).map (fun r ↦ (r.err, r.disk 7 0, r.disk 7 1)) = some (0, 0, 5) :=
  ⟨logSeven_replays _, by decide⟩

end Linux24.Jbd
