import Linux24.Jbd.TailRuns

/-!
# Recovery after the tail has been moved

When the tail is at the `t_log_start` of a transaction, recovery sees what the transaction has
logged, but not what it has revoked, because its revoke blocks come before that.  It sees everything
of the later ones.  So a block gets what the last operation on it leaves, if that is in a later
transaction, and else what the first transaction has logged of it: `last_surviving_fromLogStart`.

That is right if the first transaction does not log what it revokes.  It does not when
`journal_revoke` is given the buffer of the block, because this takes the buffer out of the
transaction.  It does when the block is written and then revoked by its number only, which
`journal_revoke` allows for.  The other thing that can go wrong is that a block begins with the
magic number.

`tail_recovery_iff` is that nothing else can.  It is about every run of the journal, with a crash at
any time after the tail has been moved: what has been written of a transaction that is not complete
does not matter.
-/

set_option autoImplicit false

namespace Linux24.Jbd

open Epochs List

variable {J : Journal} {T t : Transaction} {ts later : List Transaction} {b : Word}

/-- The operations of transactions, one after the other. -/
def opsOf (ts : List Transaction) : List JournalOp := ts.flatMap Transaction.ops

/-! ## What is left of the transactions -/

theorem lastOp_opsOf_cons (t : Transaction) (ts : List Transaction) (b : Word) :
    lastOp (opsOf (t :: ts)) b = (lastOp (opsOf ts) b).or (lastOp t.ops b) := by
  rw [opsOf, flatMap_cons, lastOp_append]
  rfl

theorem exists_of_lastOp_opsOf {op : JournalOp} (h : lastOp (opsOf ts) b = some op) :
    ∃ t ∈ ts, lastOp t.ops b = some op := by
  induction ts with
  | nil => cases h
  | cons t ts ih =>
    rw [lastOp_opsOf_cons] at h
    cases hts : lastOp (opsOf ts) b with
    | some op' =>
      rw [hts] at h
      obtain ⟨t', ht', hlast⟩ := ih (hts.trans h)
      exact ⟨t', mem_cons_of_mem t ht', hlast⟩
    | none =>
      rw [hts] at h
      exact ⟨t, mem_cons_self, h⟩

theorem lastOp_eq_none_of_opsOf (h : lastOp (opsOf ts) b = none) :
    ∀ t ∈ ts, lastOp t.ops b = none := by
  induction ts with
  | nil => exact forall_mem_nil _
  | cons t ts ih =>
    rw [lastOp_opsOf_cons, Option.or_eq_none_iff] at h
    exact forall_mem_cons.2 ⟨h.2, ih h.1⟩

/-- What is left of a block after an operation: what is logged by a write, and nothing by a
revoke. -/
def leftBy : Option JournalOp → Option Block
  | some (.write _ content) => some (logBlock content)
  | _ => none

theorem revoked_of_lastOp {ops : List JournalOp} {blocknr : Word} {bhIn : Bool}
    (h : lastOp ops b = some (.revoke blocknr bhIn)) : Revoked ops b := by
  obtain rfl : blocknr = b := blocknr_of_lastOp h
  exact ⟨bhIn, h⟩

theorem not_revoked_of_none {ops : List JournalOp} (h : lastOp ops b = none) : ¬Revoked ops b := by
  rintro ⟨bhIn, hrev⟩
  cases h.symm.trans hrev

/-- What a transaction leaves of a block that none of the later ones is about. -/
theorem Transaction.Ok.left (h : t.Ok J) {p : Prop} [Decidable p] (hp : p ↔ ¬Revoked t.ops b) :
    (if p then last (t.committed.transaction.logged J) b else none) = leftBy (lastOp t.ops b) := by
  rw [h.logged]
  cases hlast : lastOp t.ops b with
  | none => rw [logs_of_none hlast, Option.map_none, ite_self]; rfl
  | some op =>
    cases op with
    | write blocknr content =>
      obtain rfl : blocknr = b := blocknr_of_lastOp hlast
      have hnot : ¬Revoked t.ops blocknr := by
        rintro ⟨bhIn, hrev⟩
        cases hlast.symm.trans hrev
      rw [if_pos (hp.2 hnot), logs_of_write hlast]
      rfl
    | revoke blocknr bhIn =>
      rw [if_neg fun hpos ↦ hp.1 hpos (revoked_of_lastOp hlast)]
      rfl

theorem notMem_revoked_iff (h : ∀ t ∈ ts, t.Ok J) :
    (∀ e ∈ ts.map fun t ↦ t.committed.transaction.epoch J, b ∉ e.revoked) ↔
      ∀ t ∈ ts, ¬Revoked t.ops b := by
  simp only [mem_map, forall_exists_index, and_imp, forall_apply_eq_imp_iff₂]
  exact forall₂_congr fun t ht ↦ not_congr ((h t ht).revoked b)

/-- **What is left of transactions** whose revoke blocks are in the log is what the last operation
leaves. -/
theorem last_surviving_transactions (h : ∀ t ∈ ts, t.Ok J) (b : Word) :
    last (surviving (ts.map fun t ↦ t.committed.transaction.epoch J)) b =
      leftBy (lastOp (opsOf ts) b) := by
  induction ts with
  | nil => rfl
  | cons t ts ih =>
    obtain ⟨ht, hts⟩ := forall_mem_cons.1 h
    have hiff := notMem_revoked_iff (b := b) h
    rw [forall_mem_cons] at hiff
    rw [map_cons, last_surviving_cons, ih hts, lastOp_opsOf_cons]
    cases hlast : lastOp (opsOf ts) b with
    | none =>
      refine ht.left (hiff.trans (and_iff_left fun t' ht' ↦ ?_))
      exact not_revoked_of_none (lastOp_eq_none_of_opsOf hlast t' ht')
    | some op =>
      cases op with
      | write blocknr content => rfl
      | revoke blocknr bhIn =>
        obtain ⟨t', ht', hrev⟩ := exists_of_lastOp_opsOf hlast
        exact if_neg fun hnone ↦ (hiff.1 hnone).2 t' ht' (revoked_of_lastOp hrev)

/-- What is left of a block if the first transaction is read from `t_log_start` on.  Its revoke
blocks are not seen, so that it leaves what it has logged. -/
def leftFrom (T : Transaction) (later : List Transaction) (b : Word) : Option Block :=
  if lastOp (opsOf later) b = none then (logs T.ops b).map logBlock
  else leftBy (lastOp (opsOf later) b)

/-- **What is left from the tail on.** -/
theorem last_surviving_fromLogStart (hT : T.Ok J) (h : ∀ t ∈ later, t.Ok J) (b : Word) :
    last (surviving (T.committed.fromLogStart.epoch J ::
      later.map fun t ↦ t.committed.transaction.epoch J)) b = leftFrom T later b := by
  rw [leftFrom]
  have hiff := notMem_revoked_iff (b := b) h
  rw [last_surviving_cons, last_surviving_transactions h]
  have hcond : (∀ e ∈ T.committed.fromLogStart.epoch J ::
      later.map fun t ↦ t.committed.transaction.epoch J, b ∉ e.revoked) ↔
      ∀ t ∈ later, ¬Revoked t.ops b := by
    rw [forall_mem_cons, hiff]
    refine and_iff_right ?_
    rw [LogTransaction.epoch, hT.notRevoked]
    exact not_mem_nil
  cases hlast : lastOp (opsOf later) b with
  | none =>
    have hnone := hcond.2 fun t ht ↦ not_revoked_of_none (lastOp_eq_none_of_opsOf hlast t ht)
    rw [if_pos hnone, ← hT.logged b, ← hT.sameLogged]
    rfl
  | some op =>
    cases op with
    | write blocknr content => rfl
    | revoke blocknr bhIn =>
      obtain ⟨t', ht', hrev⟩ := exists_of_lastOp_opsOf hlast
      exact if_neg fun hnone ↦ hcond.1 hnone t' ht' (revoked_of_lastOp hrev)

/-- What has been written last is left, as it is logged. -/
theorem leftFrom_of_write {content : Block}
    (h : lastOp (opsOf (T :: later)) b = some (.write b content)) :
    leftFrom T later b = some (logBlock content) := by
  rw [lastOp_opsOf_cons] at h
  rw [leftFrom]
  cases hlater : lastOp (opsOf later) b with
  | none =>
    rw [hlater] at h
    rw [logs_of_write h]
    rfl
  | some op =>
    rw [hlater] at h
    cases h
    rfl

/-- Nothing is left of what has been revoked last, if it has not been in the first transaction. -/
theorem leftFrom_of_revoked (h : Revoked (opsOf (T :: later)) b) :
    lastOp (opsOf later) b = none ∧ Revoked T.ops b ∨ leftFrom T later b = none := by
  obtain ⟨bhIn, h⟩ := h
  rw [lastOp_opsOf_cons] at h
  cases hlater : lastOp (opsOf later) b with
  | none =>
    rw [hlater] at h
    exact Or.inl ⟨rfl, bhIn, h⟩
  | some op =>
    rw [hlater] at h
    cases h
    right
    rw [leftFrom, hlater]
    rfl

/-! ## Recovery -/

section Recover

variable {w : JournalWorld J} {log : Log}

theorem consecutive_of_tidsTo {tid tid₀ : Tid} (h : TidsTo tid ts) (hok : ∀ t ∈ ts, t.Ok J)
    (htid : tidAdd tid₀ ts.length = tid) :
    Consecutive J tid₀ (ts.map fun t ↦ t.committed.transaction) := by
  induction ts generalizing tid₀ with
  | nil => trivial
  | cons t ts ih =>
    obtain ⟨ht, hts⟩ := forall_mem_cons.1 hok
    have hfirst : t.tTid = tid₀ := add_right_cancel (h.1.trans htid.symm)
    refine ⟨hfirst ▸ ht.wellFormed, ih h.2 hts ?_⟩
    rw [tidAdd_one_add]
    exact htid

section Tail

variable (h : w.Ok) (hts : w.transactions = T :: later) (htail : w.jTail = T.committed.tLogStart)
  (hsame : ∀ i < J.size - w.jFree, log (J.next^[i] w.jTail) = w.log (J.next^[i] w.jTail))
  (hend : Tail J log w.running.tTid w.jHead)
include h hts htail hsame hend

/-- The log is well formed from the tail on. -/
theorem JournalWorld.Ok.wellFormedLog : WellFormedLog J log ⟨T.tTid, w.jTail⟩
    (T.committed.fromLogStart :: later.map fun t ↦ t.committed.transaction) := by
  have hin := h.inLog T later hts
  have htids := h.tids
  have hused := h.used
  have hok := h.transactions
  rw [hts] at htids hused hok
  obtain ⟨hT, hlater⟩ := forall_mem_cons.1 hok
  have hblocks : (T.committed.fromLogStart :: later.map fun t ↦ t.committed.transaction).flatMap
      LogTransaction.blocks = usedBlocks (T :: later) := by
    rw [flatMap_cons, flatMap_map]
    rfl
  refine ⟨h.tailInRing, ⟨hT.fromLogStart, ?_⟩, ?_, ?_, ?_⟩
  · refine consecutive_of_tidsTo htids.2 hlater ?_
    rw [tidAdd_one_add]
    exact htids.1
  · rw [hblocks]
    omega
  · rw [hblocks]
    refine (htail ▸ hin.holds).congr fun i hi ↦ hsame i ?_
    omega
  · rw [hblocks, length_cons, length_map]
    rw [htids.1, htail, hin.head]
    exact hend

/-- What recovery leaves in a block. -/
theorem JournalWorld.Ok.recovered (disk : Disk) :
    ∃ n, ∀ fuel ≥ n, ∃ r, journalRecover J log ⟨T.tTid, w.jTail⟩ fuel disk = some r ∧ r.err = 0 ∧
      r.disk = fun b ↦ (leftFrom T later b).getD (disk b) := by
  have hok := h.transactions
  rw [hts] at hok
  obtain ⟨hT, hlater⟩ := forall_mem_cons.1 hok
  obtain ⟨n, hn⟩ := (h.wellFormedLog hts htail hsame hend).journalRecover_eq disk
  refine ⟨n, fun fuel hfuel ↦ ⟨_, hn fuel hfuel, rfl, funext fun b ↦ ?_⟩⟩
  have hleft := last_surviving_fromLogStart hT hlater b
  dsimp only
  rw [apply_eq, map_cons, map_map]
  exact congrArg (Option.getD · (disk b)) hleft

end Tail

/-- What recovery is to do: a block that has been revoked last is left alone, and one that has been
written last gets what has been written. -/
def Respects (ops : List JournalOp) (disk disk' : Disk) : Prop :=
  ∀ b, (Revoked ops b → disk' b = disk b) ∧
    ∀ content, lastOp ops b = some (.write b content) → disk' b = content

/-- The first transaction does not log a block that it has itself revoked last, unless a later one
is about the block again, and nothing that is to be restored begins with the magic number. -/
def Harmless (T : Transaction) (later : List Transaction) : Prop :=
  ∀ b, (lastOp (opsOf later) b = none → Revoked T.ops b → logs T.ops b = none) ∧
    ∀ content, lastOp (opsOf (T :: later)) b = some (.write b content) → content 0 ≠ jfsMagicNumber

/-- **Recovery from the tail.** -/
theorem tail_recovery_iff (hw : (JournalWorld.machine J).Reachable w)
    (hts : w.transactions = T :: later) (hseq : w.jTailSequence = T.tTid)
    (htail : w.jTail = T.committed.tLogStart)
    (hsame : ∀ i < J.size - w.jFree, log (J.next^[i] w.jTail) = w.log (J.next^[i] w.jTail))
    (hend : Tail J log w.running.tTid w.jHead) :
    (∀ disk, ∃ n, ∀ fuel ≥ n, ∃ r,
      journalRecover J log ⟨w.jTailSequence, w.jTail⟩ fuel disk = some r ∧
      r.err = 0 ∧ Respects (opsOf (T :: later)) disk r.disk) ↔ Harmless T later := by
  have hrec := (JournalWorld.ok_of_reachable hw).recovered hts htail hsame hend
  rw [← hseq] at hrec
  have hrun : ∀ disk, (∃ n, ∀ fuel ≥ n, ∃ r,
      journalRecover J log ⟨w.jTailSequence, w.jTail⟩ fuel disk = some r ∧
      r.err = 0 ∧ Respects (opsOf (T :: later)) disk r.disk) ↔
      Respects (opsOf (T :: later)) disk fun b ↦ (leftFrom T later b).getD (disk b) := by
    intro disk
    obtain ⟨m, hm⟩ := hrec disk
    constructor
    · rintro ⟨n, hn⟩
      obtain ⟨r, hr, -, hrespects⟩ := hn (max n m) (le_max_left n m)
      obtain ⟨r', hr', -, hdisk⟩ := hm (max n m) (le_max_right n m)
      cases hr.symm.trans hr'
      exact hdisk ▸ hrespects
    · intro hrespects
      refine ⟨m, fun fuel hfuel ↦ ?_⟩
      obtain ⟨r, hr, herr, hdisk⟩ := hm fuel hfuel
      exact ⟨r, hr, herr, hdisk ▸ hrespects⟩
  rw [forall_congr' hrun]
  dsimp only [Respects]
  constructor
  · intro h b
    refine ⟨fun hlater hrev ↦ ?_, fun content hlast hmagic ↦ ?_⟩
    · -- the block gets what is logged of it, whatever has been there before
      by_contra hne
      obtain ⟨content, hlogs⟩ := Option.ne_none_iff_exists'.1 hne
      have hleft : leftFrom T later b = some (logBlock content) := by
        rw [leftFrom, if_pos hlater, hlogs, Option.map_some]
      have hall : Revoked (opsOf (T :: later)) b := by
        obtain ⟨bhIn, hlast⟩ := hrev
        exact ⟨bhIn, by rw [lastOp_opsOf_cons, hlater, Option.none_or, hlast]⟩
      have hsame : ∀ disk : Disk, disk b = logBlock content := by
        intro disk
        rw [← (h disk b).1 hall, hleft, Option.getD_some]
      have hzero := congrFun ((hsame fun _ _ ↦ 0).trans (hsame fun _ _ ↦ 1).symm) 0
      cases hzero
    · have hcontent := (h (fun _ _ ↦ 0) b).2 content hlast
      rw [leftFrom_of_write hlast] at hcontent
      exact (logBlock_eq_iff content).1 hcontent hmagic
  · intro h disk b
    refine ⟨fun hrev ↦ ?_, fun content hlast ↦ ?_⟩
    · have hnone : leftFrom T later b = none := by
        rcases leftFrom_of_revoked hrev with ⟨hlater, hT⟩ | hnone
        · rw [leftFrom, if_pos hlater, (h b).1 hlater hT, Option.map_none]
        · exact hnone
      rw [hnone, Option.getD_none]
    · rw [leftFrom_of_write hlast, Option.getD_some, logBlock_eq_iff]
      exact (h b).2 content hlast

end Recover

/-! ## Two runs -/

/-- A ring of fifteen blocks. -/
def fifteenBlocks : Journal :=
  { sevenBlocks with
    jLast := 16
    first_lt := by decide
    last_lt := by decide }

/-- The journal, with nothing in it. -/
def freshWorld : JournalWorld fifteenBlocks where
  running := ⟨1, .empty _, fun _ ↦ none, [], [], fun _ ↦ false⟩
  jHead := 1
  jFree := 15
  jTail := 1
  jTailSequence := 1
  log := fun _ ↦ some fun _ ↦ 0
  transactions := []

theorem freshWorld_reachable : (JournalWorld.machine fifteenBlocks).Reachable freshWorld :=
  .init ⟨rfl, fun _ ↦ rfl, rfl, rfl, fun _ ↦ rfl, rfl, rfl, rfl, rfl, rfl⟩

/-- Block 8 is written and committed. -/
def firstWorld : JournalWorld fifteenBlocks :=
  { freshWorld with running := freshWorld.running.write 8 (.ofWords [3]) }.commit fun _ _ ↦ 0

/-- Block 9 is written, and block 7 is written and revoked. -/
def secondWorld (bhIn : Bool) : JournalWorld fifteenBlocks :=
  let r := (firstWorld.running.write 9 (.ofWords [6])).write 7 (.ofWords [5])
  { firstWorld with running := (r.journalRevoke 7 bhIn).toOption.getD r }

/-- The transaction that is made of it. -/
def secondTransaction (bhIn : Bool) : Transaction := (secondWorld bhIn).committing fun _ _ ↦ 0

/-- It is committed, and the first transaction is no longer needed. -/
def thirdWorld (bhIn : Bool) : JournalWorld fifteenBlocks :=
  { (secondWorld bhIn).commit fun _ _ ↦ 0 with
    transactions := [secondTransaction bhIn] }.cleanupJournalTail

theorem thirdWorld_reachable (bhIn : Bool) :
    (JournalWorld.machine fifteenBlocks).Reachable (thirdWorld bhIn) := by
  have hfirst : (JournalWorld.machine fifteenBlocks).Reachable firstWorld :=
    (freshWorld_reachable.step (a := .op (.write 8 (.ofWords [3]))) (by exact trivial) rfl).step
      (a := .commit fun _ _ ↦ 0) (by decide) rfl
  have hwrite := (hfirst.step (a := .op (.write 9 (.ofWords [6]))) (by exact trivial) rfl).step
    (a := .op (.write 7 (.ofWords [5]))) (by exact trivial) rfl
  have hsecond : (JournalWorld.machine fifteenBlocks).Reachable (secondWorld bhIn) :=
    hwrite.step (a := .op (.revoke 7 bhIn)) (by cases bhIn <;> decide) (by cases bhIn <;> rfl)
  exact (hsecond.step (a := .commit fun _ _ ↦ 0) (by cases bhIn <;> decide) rfl).step
    (a := .cleanup 1) (by cases bhIn <;> decide) rfl

theorem thirdWorld_tail (bhIn : Bool) :
    (thirdWorld bhIn).transactions = [secondTransaction bhIn] ∧
      (thirdWorld bhIn).jTailSequence = (secondTransaction bhIn).tTid ∧
      (thirdWorld bhIn).jTail = (secondTransaction bhIn).committed.tLogStart ∧
      Tail fifteenBlocks (thirdWorld bhIn).log (thirdWorld bhIn).running.tTid
        (thirdWorld bhIn).jHead := by
  have hstop : ((thirdWorld bhIn).log (thirdWorld bhIn).jHead).map (· 0) = some 0 := by
    cases bhIn <;> decide
  obtain ⟨bh, hread, hbh⟩ := Option.map_eq_some_iff.1 hstop
  refine ⟨by cases bhIn <;> rfl, by cases bhIn <;> decide, by cases bhIn <;> decide,
    .stop hread (Or.inl ?_)⟩
  rw [Block.hMagic, hbh]
  decide

/-- With its buffer the block is revoked and no longer logged. -/
theorem secondTransaction_harmless : Harmless (secondTransaction true) [] := by
  have hops : (secondTransaction true).ops =
      [] ++ [.write 9 (.ofWords [6])] ++ [.write 7 (.ofWords [5])] ++ [.revoke 7 true] := rfl
  have hlast : ∀ b, lastOp (secondTransaction true).ops b = if 7 = b then some (.revoke 7 true)
      else if 9 = b then some (.write 9 (.ofWords [6])) else none := by
    intro b
    rw [hops, lastOp_concat, lastOp_concat]
    by_cases h7 : (7 : Word) = b
    · rw [if_pos h7]
      exact if_pos h7
    · rw [if_neg h7]
      exact (if_neg h7).trans (if_neg h7)
  intro b
  refine ⟨fun _ ⟨bhIn, hrev⟩ ↦ ?_, fun content hwrite ↦ ?_⟩
  · rw [hlast] at hrev
    split_ifs at hrev with h7 h9
    · subst h7
      rfl
    · cases hrev
  · change lastOp (secondTransaction true).ops b = _ at hwrite
    rw [hlast] at hwrite
    split_ifs at hwrite with h7 h9
    · cases hwrite
    · cases hwrite
      decide

theorem tail_recovery_iff_forgotten : ∃ w T, (JournalWorld.machine fifteenBlocks).Reachable w ∧
    w.transactions = [T] ∧ Revoked (opsOf [T]) 7 ∧
    ∃ n, ∀ fuel ≥ n, ∃ r, journalRecover fifteenBlocks w.log ⟨w.jTailSequence, w.jTail⟩ fuel
      (fun _ _ ↦ 0) = some r ∧ r.err = 0 ∧ r.disk 7 = (fun _ ↦ 0) ∧ r.disk 9 = .ofWords [6] := by
  obtain ⟨hts, hseq, htail, hend⟩ := thirdWorld_tail true
  have hiff := tail_recovery_iff (thirdWorld_reachable true) hts hseq htail (fun _ _ ↦ rfl) hend
  obtain ⟨n, hn⟩ := hiff.2 secondTransaction_harmless fun _ _ ↦ 0
  refine ⟨thirdWorld true, secondTransaction true, thirdWorld_reachable true, hts, ⟨true, rfl⟩, n,
    fun fuel hfuel ↦ ?_⟩
  obtain ⟨r, hr, herr, hrespects⟩ := hn fuel hfuel
  exact ⟨r, hr, herr, (hrespects 7).1 ⟨true, rfl⟩, (hrespects 9).2 _ rfl⟩

/-- **A revoke is lost.**  Block 7 has been revoked last, but without its buffer, so that the
transaction logs it as well.  The revoke record comes before `t_log_start`, and recovery overwrites
the block. -/
theorem revoke_lost : ∃ w T, (JournalWorld.machine fifteenBlocks).Reachable w ∧
    (w.transactions = [T] ∧ w.jTailSequence = T.tTid ∧ w.jTail = T.committed.tLogStart ∧
      Tail fifteenBlocks w.log w.running.tTid w.jHead) ∧ Revoked (opsOf [T]) 7 ∧
    (journalRecover fifteenBlocks w.log ⟨w.jTailSequence, w.jTail⟩ 9 fun _ _ ↦ 0).map
      (fun r ↦ (r.err, r.disk 7 0)) = some (0, 5) :=
  ⟨thirdWorld false, secondTransaction false, thirdWorld_reachable false, thirdWorld_tail false,
    ⟨false, rfl⟩, by decide +kernel⟩

end Linux24.Jbd
