import Linux24.Jbd.Recovery

/-!
# The revoke table during recovery

The second pass puts the revoke records of the log into the table, with `journal_set_revoke`, and
the third one asks for them with `journal_test_revoke`.  The table has at most one record for a
block then, and the tid in it is that of the last transaction that has revoked the block.

`RevokeTable.Marked` says so, without saying in which order the records have come, and it counts the
transactions from the first one of the log.  This is where the comparison of tids by the sign of
their difference is right: `RevokeTable.Marked.test` is that a block of a transaction is held back
if and only if that transaction or a later one has revoked it.
-/

set_option autoImplicit false

namespace Linux24.Jbd

open List

namespace RevokeTable

variable {J : Journal} {T : RevokeTable J} {blocknr b : Word} {sequence : Tid}

theorem findRevokeRecord_insert :
    (T.insertRevokeHash blocknr sequence).findRevokeRecord b =
      if b = blocknr then some ⟨sequence, blocknr⟩ else T.findRevokeRecord b := by
  rw [findRevokeRecord, insertRevokeHash, findRevokeRecord, Function.update_apply]
  split_ifs with hhash hb hb
  · subst hb
    simp
  · rw [find?_cons_of_neg (by simpa using Ne.symm hb), hhash]
  · exact absurd (congrArg J.hash hb) hhash
  · rfl

/-- The first record for a block is given another tid. -/
theorem find?_replaceF (l : List RevokeRecord) :
    (l.replaceF fun record ↦ if record.blocknr = blocknr then
      some { record with sequence := sequence } else none).find? (fun record ↦ record.blocknr = b) =
      if b = blocknr then (l.find? fun record ↦ record.blocknr = blocknr).map
        ({ · with sequence := sequence })
      else l.find? fun record ↦ record.blocknr = b := by
  induction l with
  | nil => simp
  | cons r l ih =>
    by_cases hr : r.blocknr = blocknr
    · by_cases hb : b = blocknr
      · simp [hr, hb]
      · simp [hr, hb, Ne.symm hb]
    · by_cases hb : r.blocknr = b
      · have hne : b ≠ blocknr := fun h ↦ hr (hb.trans h)
        simp [hb, hne]
      · simp only [replaceF, hr, if_false, find?_cons_of_neg, hb, decide_false,
          Bool.false_eq_true, not_false_eq_true, ih]

theorem findRevokeRecord_set :
    (T.journalSetRevoke blocknr sequence).findRevokeRecord b =
      if b = blocknr then
        some (match T.findRevokeRecord blocknr with
          | some record => if tidGt sequence record.sequence then
              { record with sequence := sequence }
            else record
          | none => ⟨sequence, blocknr⟩)
      else T.findRevokeRecord b := by
  rw [journalSetRevoke]
  cases hfind : T.findRevokeRecord blocknr with
  | none => exact findRevokeRecord_insert
  | some record =>
    dsimp only
    split_ifs with hgt hb hb
    · subst hb
      rw [findRevokeRecord, Function.update_self, find?_replaceF, if_pos rfl]
      rw [findRevokeRecord] at hfind
      rw [hfind]
      rfl
    · rw [findRevokeRecord, Function.update_apply]
      split_ifs with hhash
      · rw [find?_replaceF, if_neg hb, findRevokeRecord, hhash]
      · rfl
    · rw [hb, hfind]
    · rfl

/-- The table has for every block the last of the transactions that are said to have revoked it.
Transactions are counted from the one with tid `seq`. -/
def Marked (T : RevokeTable J) (seq : Tid) (M : Word → ℕ → Prop) : Prop :=
  ∀ b, match T.findRevokeRecord b with
    | none => ∀ j, ¬M b j
    | some record => ∃ j, M b j ∧ record.sequence = tidAdd seq j ∧ ∀ j', M b j' → j' ≤ j

namespace Marked

variable {seq : Tid} {M M' : Word → ℕ → Prop} {i : ℕ}

theorem empty (seq : Tid) : (RevokeTable.empty J).Marked seq fun _ _ ↦ False :=
  fun _ _ ↦ not_false

theorem congr (h : T.Marked seq M) (hM : ∀ b j, M b j ↔ M' b j) : T.Marked seq M' := by
  obtain rfl : M = M' := by
    funext b j
    exact propext (hM b j)
  exact h

theorem set (blocknr : Word) (h : T.Marked seq M) (hM : ∀ b j, M b j → j < 2147483648)
    (hi : i < 2147483648) :
    (T.journalSetRevoke blocknr (tidAdd seq i)).Marked seq fun b j ↦
      M b j ∨ j = i ∧ b = blocknr := by
  intro b
  rw [findRevokeRecord_set]
  have hb := h b
  by_cases hblock : b = blocknr
  · subst hblock
    rw [if_pos rfl]
    cases hfind : T.findRevokeRecord b with
    | none =>
      rw [hfind] at hb
      refine ⟨i, Or.inr ⟨rfl, rfl⟩, rfl, fun j hj ↦ ?_⟩
      rcases hj with hj | ⟨rfl, -⟩
      · exact absurd hj (hb j)
      · exact le_rfl
    | some record =>
      rw [hfind] at hb
      obtain ⟨j, hj, hseq, hmax⟩ := hb
      dsimp only
      rw [hseq, tidGt_tidAdd hi (hM b j hj)]
      -- the later of the two stays
      by_cases hlt : j < i
      · rw [if_pos (decide_eq_true hlt)]
        refine ⟨i, Or.inr ⟨rfl, rfl⟩, rfl, fun j' hj' ↦ ?_⟩
        rcases hj' with hj' | ⟨rfl, -⟩
        · exact (hmax j' hj').trans hlt.le
        · exact le_rfl
      · rw [if_neg (by simpa using hlt)]
        refine ⟨j, Or.inl hj, hseq, fun j' hj' ↦ ?_⟩
        rcases hj' with hj' | ⟨rfl, -⟩
        · exact hmax j' hj'
        · exact not_lt.1 hlt
  · rw [if_neg hblock]
    simpa only [hblock, and_false, or_false] using hb

theorem set_all (h : T.Marked seq M) (hM : ∀ b j, M b j → j < 2147483648) (hi : i < 2147483648)
    (blocks : List Word) :
    (blocks.foldl (fun T blocknr ↦ T.journalSetRevoke blocknr (tidAdd seq i)) T).Marked seq
      fun b j ↦
      M b j ∨ j = i ∧ b ∈ blocks := by
  induction blocks generalizing T M with
  | nil => exact h.congr fun b j ↦ by simp
  | cons blocknr blocks ih =>
    have hset := h.set blocknr hM hi
    refine (ih hset fun b j hj ↦ ?_).congr fun b j ↦ ?_
    · rcases hj with hj | ⟨rfl, -⟩
      · exact hM b j hj
      · exact hi
    · rw [mem_cons, and_or_left, or_assoc]

/-- **A block is held back** if a transaction from this one on has revoked it. -/
theorem test (h : T.Marked seq M) (hM : ∀ b j, M b j → j < 2147483648) (hi : i < 2147483648)
    (b : Word) : T.journalTestRevoke b (tidAdd seq i) = true ↔ ∃ j, i ≤ j ∧ M b j := by
  have hb := h b
  rw [journalTestRevoke]
  cases hfind : T.findRevokeRecord b with
  | none =>
    rw [hfind] at hb
    simpa using fun j _ ↦ hb j
  | some record =>
    rw [hfind] at hb
    obtain ⟨j, hj, hseq, hmax⟩ := hb
    dsimp only
    rw [hseq, tidGt_tidAdd hi (hM b j hj), Bool.not_eq_true', decide_eq_false_iff_not, not_lt]
    exact ⟨fun hle ↦ ⟨j, hle, hj⟩, fun ⟨j', hle, hj'⟩ ↦ hle.trans (hmax j' hj')⟩

end Marked

end RevokeTable

end Linux24.Jbd
