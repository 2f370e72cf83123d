import Linux24.Ipc.Msg

/-!
# Message queues lose and duplicate nothing

Three things are shown here, and they are independent of each other.

The *text*: however a message is cut into pieces, what a receiver gets is the beginning of what was
sent (`storeMsg_spec`).  The *places*: a message that has been sent is on the queue, or has been
handed to a receiver, or has been returned, or has been destroyed because it could not be copied to
the receiver, and it is in one place only; `Ledger` is this, for lists of which it does not matter
where they come from.  The *order*: of the messages of one type, those that have left the queue and
those that are on it are in the order in which they were sent; `Fifo` is this.  It rests on the
search taking the first message of its type, also where it looks for the least type
(`findMsg_spec`).

That nobody waits for a message that is there is kept from both sides: whoever goes to sleep has
looked at the whole queue, and whoever puts a message there has looked at all who sleep.
-/

set_option autoImplicit false

namespace Linux24.Ipc

open List

/-! ## The text of a message -/

theorem LoadEnv.text_length (L : LoadEnv) (src len : ℕ) : (L.text src len).length = len := by
  rw [LoadEnv.text, length_map, length_range]

theorem LoadEnv.text_add (L : LoadEnv) (src a b : ℕ) :
    L.text src (a + b) = L.text src a ++ L.text (src + a) b := by
  simp only [LoadEnv.text, range_add, map_append, map_map, Function.comp_def, add_assoc]

/-- How much goes into a segment. -/
def segLen (len : ℕ) : ℕ := if datalenSeg < len then datalenSeg else len

theorem segLen_le (len : ℕ) : segLen len ≤ len := by
  rw [segLen]
  split <;> omega

variable {len : ℕ}

theorem segLen_pos (h : 0 < len) : 0 < segLen len := by
  rw [segLen]
  split
  · decide
  · exact h

/-- The segments are as `load_msg` makes them for so many bytes. -/
def Pieces : List (List Byte) → ℕ → Prop
  | [], len => len = 0
  | seg :: segs, len => 0 < len ∧ seg.length = segLen len ∧ Pieces segs (len - segLen len)

theorem loadSegs_spec (L : LoadEnv) {rounds : ℕ} (n src : ℕ) {segs : List (List Byte)}
    (hr : len ≤ rounds) (h : loadSegs L rounds n src len = .ok segs) :
    segs.flatten = L.text src len ∧ Pieces segs len := by
  induction rounds generalizing n src len segs with
  | zero =>
    obtain rfl : len = 0 := by omega
    cases h
    exact ⟨rfl, rfl⟩
  | succ rounds ih =>
    rw [loadSegs] at h
    split at h
    · rename_i hpos
      have halen : (if datalenSeg < len then datalenSeg else len) = segLen len := rfl
      rw [halen] at h
      dsimp only at h
      split at h
      · cases h
      split at h
      · cases h
      split at h
      · cases h
      · rename_i rest heq
        cases h
        have hlen : segLen len + (len - segLen len) = len := Nat.add_sub_cancel' (segLen_le len)
        have hseg := segLen_pos hpos
        obtain ⟨hflat, hpieces⟩ := ih (n + 1) (src + segLen len) (by omega) heq
        refine ⟨?_, hpos, L.text_length src _, hpieces⟩
        rw [flatten_cons, hflat]
        rw [← L.text_add, hlen]
    · obtain rfl : len = 0 := by omega
      cases h
      exact ⟨rfl, rfl⟩

/-- What is left for the pieces that follow. -/
theorem sub_cut_le (cap : ℕ) {total : ℕ} (hle : len ≤ total) :
    len - (if cap < len then cap else len) ≤ total - if cap < total then cap else total := by
  split <;> split <;> omega

/-- What copying a piece and then the rest comes to, where the piece is as much of `total` bytes as
goes into it. -/
theorem copyToUser_spec {D : StoreEnv} {dest total alen : ℕ} {piece rest : List Byte} {r : Copied}
    (cap : ℕ) (halen : alen = if cap < len then cap else len)
    (hlen : piece.length = if cap < total then cap else total) (hle : len ≤ total)
    (hr : r ≠ .oops ∧ ∀ bytes, r = .done bytes → bytes = rest.take (len - alen)) :
    copyToUser D dest piece alen r ≠ .oops ∧
      ∀ bytes, copyToUser D dest piece alen r = .done bytes → bytes = (piece ++ rest).take len := by
  -- either the whole piece is copied, or what is in it is enough
  have hcut : alen ≤ piece.length ∧ (piece.length ≤ len → alen = piece.length) ∧
      (len < piece.length → alen = len) := by
    rw [hlen, halen]
    split <;> split <;> omega
  obtain ⟨hle', hfull, hpart⟩ := hcut
  rw [copyToUser.eq_def, if_neg (by omega)]
  split
  · exact ⟨nofun, nofun⟩
  cases r with
  | done bytes =>
    refine ⟨nofun, fun _ h ↦ ?_⟩
    cases h
    rw [hr.2 bytes rfl, take_append]
    rcases lt_or_ge len piece.length with hlt | hge
    · rw [hpart hlt, Nat.sub_self, Nat.sub_eq_zero_of_le hlt.le]
    · rw [hfull hge, take_of_length_le le_rfl, take_of_length_le hge]
  | fault => exact ⟨nofun, nofun⟩
  | oops => exact absurd rfl hr.1

theorem storeSegs_spec (D : StoreEnv) (dest : ℕ) {segs : List (List Byte)} {total : ℕ}
    (hp : Pieces segs total) (hle : len ≤ total) : storeSegs D dest segs len ≠ .oops ∧
      ∀ bytes, storeSegs D dest segs len = .done bytes → bytes = segs.flatten.take len := by
  induction segs generalizing dest total len with
  | nil =>
    obtain rfl : len = 0 := by
      rw [Pieces] at hp
      omega
    exact ⟨nofun, fun _ h ↦ by cases h; rfl⟩
  | cons seg segs ih =>
    obtain ⟨-, hseg, hrest⟩ := hp
    rw [storeSegs]
    split
    · exact copyToUser_spec datalenSeg rfl hseg hle (ih _ hrest (sub_cut_le datalenSeg hle))
    · obtain rfl : len = 0 := by omega
      exact ⟨nofun, fun _ h ↦ by cases h; rfl⟩

namespace MsgMsg

/-- The text of a message. -/
def text (m : MsgMsg) : List Byte := m.data ++ m.segs.flatten

/-- The text is cut into pieces as `load_msg` does it. -/
structure Whole (m : MsgMsg) : Prop where
  data : m.data.length = if datalenMsg < m.mTs then datalenMsg else m.mTs
  segs : Pieces m.segs (m.mTs - m.data.length)

/-- The message is what a call has sent. -/
def Holds (m : MsgMsg) (x : SentMsg) : Prop :=
  m.serial = x.serial ∧ m.mType = x.mtype ∧ m.mTs = x.mtext.length ∧ m.text = x.mtext

instance (m : MsgMsg) (x : SentMsg) : Decidable (m.Holds x) := inferInstanceAs (Decidable (_ ∧ _))

end MsgMsg

/-- **`load_msg` takes the text as it is.** -/
theorem loadMsg_spec {L : LoadEnv} {serial : ℕ} {mtype : ℤ} {m : MsgMsg}
    (h : loadMsg L serial mtype len = .ok m) : m.Whole ∧ m.Holds ⟨serial, mtype, L.text 0 len⟩ ∧
      m.mTs = len ∧ L.kmalloc 0 = true := by
  rw [loadMsg] at h
  set alen := if datalenMsg < len then datalenMsg else len with halen
  have hle : alen ≤ len := by
    rw [halen]
    split <;> omega
  split at h
  · cases h
  rename_i hmem
  split at h
  · cases h
  split at h
  · cases h
  · rename_i segs heq
    cases h
    obtain ⟨hflat, hpieces⟩ := loadSegs_spec L 1 alen le_rfl heq
    have hdata : (L.text 0 alen).length = alen := L.text_length 0 alen
    refine ⟨⟨hdata, ?_⟩, ⟨rfl, rfl, (L.text_length 0 len).symm, ?_⟩, rfl, eq_true_of_ne_false hmem⟩
    · rwa [hdata]
    · show L.text 0 alen ++ segs.flatten = L.text 0 len
      have hadd := L.text_add 0 alen (len - alen)
      rw [Nat.add_sub_cancel' hle, zero_add] at hadd
      rw [hflat, hadd]

/-- **`store_msg` gives the beginning of the text**, and never looks for a segment that is not
there. -/
theorem storeMsg_spec (D : StoreEnv) {m : MsgMsg} (hm : m.Whole) (hle : len ≤ m.mTs) :
    storeMsg D m len ≠ .oops ∧
      ∀ bytes, storeMsg D m len = .done bytes → bytes = m.text.take len := by
  refine copyToUser_spec datalenMsg rfl hm.data hle (storeSegs_spec D _ hm.segs ?_)
  rw [hm.data]
  exact sub_cut_le datalenMsg hle

/-- What has been returned is as much of the message as was asked for. -/
def Returned.Faithful (r : Returned) : Prop :=
  r.result = (min r.msgsz r.msg.mTs : ℕ) ∧ r.bytes = r.msg.text.take (min r.msgsz r.msg.mTs)

theorem outSuccess_spec (D : StoreEnv) {m : MsgMsg} (hm : m.Whole) (msgsz : ℕ) :
    outSuccess D m msgsz = .ok none ∨
      ∃ r, outSuccess D m msgsz = .ok (some r) ∧ r.msg = m ∧ r.Faithful := by
  rw [outSuccess]
  have hlen : (if m.mTs < msgsz then m.mTs else msgsz) = min msgsz m.mTs := by
    split <;> omega
  rw [hlen]
  split
  · exact Or.inl rfl
  obtain ⟨hne, hbytes⟩ := storeMsg_spec D hm (min_le_right msgsz m.mTs)
  cases hstore : storeMsg D m (min msgsz m.mTs) with
  | done bytes => exact Or.inr ⟨_, rfl, rfl, rfl, hbytes bytes hstore⟩
  | fault => exact Or.inl rfl
  | oops => exact absurd hstore hne

/-! ## Looking for a message -/

theorem testmsg_congr {m m' : MsgMsg} (h : m.mType = m'.mType) (type : ℤ) (mode : SearchMode) :
    testmsg m type mode = testmsg m' type mode := by
  cases mode <;> simp only [testmsg, h]

/-- **The search.**  Nothing fits, or what has been found fits and is the first of its type; and
where the type is to be small, there is no smaller one. -/
theorem findMsg_spec (mode : SearchMode) (l : List MsgMsg) (msgtyp : ℤ) (found : Option MsgMsg) :
    findMsg mode l msgtyp found = (found, msgtyp) ∧ (∀ m ∈ l, testmsg m msgtyp mode = false) ∨
    ∃ m typ a b, findMsg mode l msgtyp found = (some m, typ) ∧ l = a ++ m :: b ∧
      testmsg m msgtyp mode = true ∧
      (∀ m' ∈ a, testmsg m' msgtyp mode = false ∨ mode = .lessequal ∧ m.mType < m'.mType) ∧
      (mode = .lessequal → ∀ m' ∈ l, m'.mType < m.mType → m.mType = 1) := by
  induction l generalizing msgtyp found with
  | nil => exact Or.inl ⟨rfl, forall_mem_nil _⟩
  | cons x l ih =>
    rw [findMsg]
    split
    · rename_i hx
      split
      · -- from now on only smaller types are looked for
        rename_i hmode
        obtain ⟨rfl, -⟩ := hmode
        simp only [testmsg, decide_eq_true_eq, decide_eq_false_iff_not] at hx ih ⊢
        rcases ih (x.mType - 1) (some x) with ⟨heq, hl⟩ | ⟨m, typ, a, b, heq, rfl, hm, ha, hb⟩
        · refine Or.inr ⟨x, _, [], l, heq, rfl, hx, by simp, fun _ ↦ ?_⟩
          refine forall_mem_cons.2 ⟨by omega, fun m' hm' ↦ ?_⟩
          have := hl m' hm'
          omega
        · refine Or.inr ⟨m, typ, x :: a, b, heq, rfl, by omega, ?_, fun _ ↦ ?_⟩
          · refine forall_mem_cons.2 ⟨Or.inr ⟨trivial, by omega⟩, fun m' hm' ↦ ?_⟩
            have := ha m' hm'
            exact Or.inr ⟨trivial, by omega⟩
          · exact forall_mem_cons.2 ⟨by omega, hb trivial⟩
      · rename_i hmode
        refine Or.inr ⟨x, _, [], l, rfl, rfl, hx, by simp, fun hle _ _ _ ↦ ?_⟩
        exact not_not.1 fun hne ↦ hmode ⟨hle, hne⟩
    · rename_i hx
      rw [Bool.not_eq_true] at hx
      rcases ih msgtyp found with ⟨heq, hl⟩ | ⟨m, typ, a, b, heq, rfl, hm, ha, hb⟩
      · exact Or.inl ⟨heq, forall_mem_cons.2 ⟨hx, hl⟩⟩
      · refine Or.inr ⟨m, typ, x :: a, b, heq, rfl, hm, forall_mem_cons.2 ⟨Or.inl hx, ha⟩, ?_⟩
        rintro rfl
        simp only [testmsg, decide_eq_true_eq, decide_eq_false_iff_not] at hx hm
        exact forall_mem_cons.2 ⟨by omega, hb rfl⟩

/-- The message is of a type that is asked for; below a bound, that is the least type there is. -/
def MsgMsg.isWanted (l : List MsgMsg) (msgtyp : ℤ) (except : Bool) (m : MsgMsg) : Bool :=
  if msgtyp = 0 then true
  else if msgtyp < 0 then m.mType ≤ -msgtyp ∧ ∀ m' ∈ l, m.mType ≤ m'.mType
  else if except then m.mType ≠ msgtyp
  else m.mType = msgtyp

/-- `sys_msgrcv` finds the first message that is wanted, whenever it may look for one. -/
def MsgQueue.Selects (q : MsgQueue) (msgtyp : ℤ) (except : Bool) : Prop :=
  ∀ (E : MsgEnv) (p msgsz : ℕ) (noerror nowait : Bool), E.checkid = true → E.allowed = true →
    (q.msgrcvRetry E p msgsz (convertMode msgtyp except).1 (convertMode msgtyp except).2 noerror
      nowait).1 = (q.qMessages.find? (MsgMsg.isWanted q.qMessages msgtyp except)).elim
        (if nowait then .returned (-eNomsg) else .sleeps)
        fun m ↦ if msgsz < m.mTs ∧ noerror = false then .returned (-e2Big) else .took m

theorem MsgQueue.msgrcvRetry_fst (q : MsgQueue) {E : MsgEnv} (hid : E.checkid = true)
    (hallowed : E.allowed = true) (p msgsz : ℕ) (msgtyp : ℤ) (mode : SearchMode)
    (noerror nowait : Bool) : (q.msgrcvRetry E p msgsz msgtyp mode noerror nowait).1 =
      (findMsg mode q.qMessages msgtyp none).1.elim
        (if nowait then .returned (-eNomsg) else .sleeps)
        fun m ↦ if msgsz < m.mTs ∧ noerror = false then .returned (-e2Big) else .took m := by
  rw [msgrcvRetry, if_neg (by simp [hid]), if_neg (by simp [hallowed])]
  rcases findMsg mode q.qMessages msgtyp none with ⟨_ | m, typ⟩
  all_goals
    dsimp only [Option.elim]
    split <;> rfl

section Selects

variable {l : List MsgMsg} (hpos : ∀ m ∈ l, 1 ≤ m.mType) (msgtyp : ℤ) (except : Bool)
include hpos

theorem findMsg_eq_find (mode : SearchMode) : (findMsg mode l msgtyp none).1 =
    l.find? fun m ↦ testmsg m msgtyp mode &&
      decide (mode = .lessequal → ∀ m' ∈ l, m.mType ≤ m'.mType) := by
  rcases findMsg_spec mode l msgtyp none with ⟨heq, hl⟩ | ⟨m, typ, a, b, heq, rfl, hm, ha, hb⟩
  · rw [heq, eq_comm, find?_eq_none]
    intro m hm
    simp [hl m hm]
  · rw [heq, eq_comm, find?_eq_some_iff_append]
    refine ⟨?_, a, b, rfl, fun m' hm' ↦ ?_⟩
    · rw [hm, Bool.true_and, decide_eq_true_eq]
      refine fun hle m' hm' ↦ not_lt.1 fun hlt ↦ ?_
      have := hb hle m' hm' hlt
      have := hpos m' hm'
      omega
    · rcases ha m' hm' with hno | ⟨hle, hlt⟩
      · simp [hno]
      · simpa [hle] using Or.inr ⟨m, by simp, hlt⟩

/-- The search finds what is wanted, given the absolute value. -/
theorem find_isWanted : l.find? (MsgMsg.isWanted l msgtyp except) =
    (findMsg (convertMode msgtyp except).2 l |msgtyp| none).1 := by
  rw [findMsg_eq_find hpos]
  congr 1
  funext m
  rw [MsgMsg.isWanted, convertMode]
  split_ifs with h0 hneg
  · rfl
  · simp [testmsg, abs_of_neg hneg]
  · simp [testmsg, abs_of_nonneg (not_lt.1 hneg)]
  · simp [testmsg, abs_of_nonneg (not_lt.1 hneg)]

end Selects

/-- **When `sys_msgrcv` finds the right message.**  The types on the queue are positive, as
`sys_msgsnd` makes sure.  What goes wrong is the one `long` whose absolute value is none. -/
theorem msgrcv_selects_iff {q : MsgQueue} {msgtyp : ℤ} {except : Bool}
    (hlong : -2147483648 ≤ msgtyp ∧ msgtyp ≤ 2147483647)
    (htype : ∀ m ∈ q.qMessages, 1 ≤ m.mType ∧ m.mType ≤ 2147483647) :
    q.Selects msgtyp except ↔ msgtyp ≠ -2147483648 ∨ q.qMessages = [] := by
  have hwanted := find_isWanted (fun m hm ↦ (htype m hm).1) msgtyp except
  constructor
  · intro h
    by_contra hno
    obtain ⟨hmin, hne⟩ := not_or.1 hno
    obtain rfl := not_not.1 hmin
    have hrcv := h ⟨0, 0, true, true, true, 0⟩ 0 0 true true rfl rfl
    rw [q.msgrcvRetry_fst rfl rfl, hwanted] at hrcv
    obtain ⟨m, hm⟩ := exists_mem_of_ne_nil _ hne
    -- nothing fits the bound that is looked for, and everything fits the one that is meant
    rcases findMsg_spec .lessequal q.qMessages (-2147483648) none with
      ⟨heq, -⟩ | ⟨m', typ, a, b, -, hsplit, hm', -⟩
    · rcases findMsg_spec .lessequal q.qMessages 2147483648 none with
        ⟨-, hl⟩ | ⟨m', typ, a, b, heq', -⟩
      · have := (htype m hm).2
        have := of_decide_eq_false (hl m hm)
        omega
      · change ((findMsg .lessequal q.qMessages (-2147483648) none).1.elim _ _ : MsgQueue.Rcv) =
          (findMsg .lessequal q.qMessages 2147483648 none).1.elim _ _ at hrcv
        simp [heq, heq'] at hrcv
    · have := (htype m' (by simp [hsplit])).1
      have := of_decide_eq_true hm'
      omega
  · intro h E p msgsz noerror nowait hid hallowed
    rw [q.msgrcvRetry_fst hid hallowed, hwanted]
    rcases h with hmin | hnil
    · have habs : (convertMode msgtyp except).1 = |msgtyp| := by
        rw [convertMode]
        split_ifs with h0 hneg
        · rw [h0, abs_zero]
        · rw [abs_of_neg hneg, toInt, Int.bmod_eq_of_le (by omega) (by omega)]
        · exact (abs_of_nonneg (not_lt.1 hneg)).symm
        · exact (abs_of_nonneg (not_lt.1 hneg)).symm
      rw [habs]
    · rw [hnil]
      rfl

/-- The least type that is on the queue. -/
theorem msgrcv_selects_least : MsgQueue.Selects
    ⟨0, 0, 0, 2, 0, 0, 0, [⟨0, 5, 0, [], []⟩, ⟨1, 3, 0, [], []⟩], [], []⟩ (-5) false :=
  (msgrcv_selects_iff (by decide) (by decide)).2 (by decide)

/-- With `LONG_MIN` no message is found. -/
theorem msgrcv_selects_none : ¬ MsgQueue.Selects
    ⟨0, 0, 0, 1, 0, 0, 0, [⟨0, 1, 0, [], []⟩], [], []⟩ (-2147483648) false :=
  fun h ↦ absurd (h ⟨0, 0, true, true, true, 0⟩ 0 0 true true rfl rfl) (by decide)

/-- **`pipelined_send`** hands the message to one receiver, or nobody who stays on the list fits. -/
theorem pipelinedSend_spec {m : MsgMsg} {l left off : List MsgReceiver} {got : Option MsgReceiver}
    (h : MsgQueue.pipelinedSend m l = (left, off, got)) :
    left ⊆ l ∧ (∀ r ∈ off, r.rMsg ≠ .err (-eAgain)) ∧
      ((got.isSome ∧ off.filterMap MsgReceiver.handed = [m]) ∨
        (got = none ∧ off.filterMap MsgReceiver.handed = [] ∧
          ∀ r ∈ left, testmsg m r.rMsgtype r.rMode = false)) := by
  induction l generalizing left off with
  | nil =>
    cases h
    exact ⟨Subset.refl _, forall_mem_nil _, Or.inr ⟨rfl, rfl, forall_mem_nil _⟩⟩
  | cons r l ih =>
    rw [MsgQueue.pipelinedSend] at h
    rcases hrest : MsgQueue.pipelinedSend m l with ⟨left', off', got'⟩
    rw [hrest] at h
    split at h
    · split at h
      · cases h
        obtain ⟨hsub, hoff, hor⟩ := ih hrest
        exact ⟨fun _ hr ↦ mem_cons_of_mem r (hsub hr),
          forall_mem_cons.2 ⟨by simp [eAgain, e2Big], hoff⟩, hor⟩
      · cases h
        exact ⟨subset_cons_self r l, by simp, Or.inl ⟨rfl, rfl⟩⟩
    · rename_i hr
      cases h
      obtain ⟨hsub, hoff, hor⟩ := ih hrest
      refine ⟨cons_subset_cons r hsub, hoff, ?_⟩
      rcases hor with hgot | ⟨hnone, hoff', hleft⟩
      · exact Or.inl hgot
      · exact Or.inr ⟨hnone, hoff', forall_mem_cons.2 ⟨eq_false_of_ne_true hr, hleft⟩⟩

/-! ## Where the messages are -/

/-- The messages of `places` are those that have been sent, each once.  Those of `pending` have been
loaded and are still to be sent. -/
structure Ledger (places : List MsgMsg) (pending : List MsgSender) (sent : List SentMsg)
    (loaded : ℕ) : Prop where
  perm : (places.map MsgMsg.serial).Perm (sent.map SentMsg.serial)
  holds : ∀ m ∈ places, m.Whole ∧ ∃ x ∈ sent, m.Holds x
  awaited : ∀ s ∈ pending, s.msg.Whole ∧ s.msg.Holds s.given
  nodup : (places.map MsgMsg.serial ++ pending.map fun s ↦ s.msg.serial).Nodup
  fresh : ∀ n ∈ places.map MsgMsg.serial ++ pending.map fun s ↦ s.msg.serial, n < loaded

namespace Ledger

variable {places places' : List MsgMsg} {pending pending' : List MsgSender} {sent : List SentMsg}
  {loaded : ℕ} {s : MsgSender}

/-- Messages go from one place to another. -/
theorem congr (h : Ledger places pending sent loaded) (hp : places'.Perm places)
    (hq : pending'.Perm pending) : Ledger places' pending' sent loaded := by
  have hserials := (hp.map MsgMsg.serial).append (hq.map fun s ↦ s.msg.serial)
  exact ⟨(hp.map _).trans h.perm, fun m hm ↦ h.holds m (hp.mem_iff.1 hm),
    fun s hs ↦ h.awaited s (hq.mem_iff.1 hs), hserials.nodup_iff.2 h.nodup,
    fun n hn ↦ h.fresh n (hserials.mem_iff.1 hn)⟩

theorem drop (h : Ledger places (s :: pending) sent loaded) :
    Ledger places pending sent loaded := by
  have hsub : (places.map MsgMsg.serial ++ pending.map fun s ↦ s.msg.serial).Sublist
      (places.map MsgMsg.serial ++ (s :: pending).map fun s ↦ s.msg.serial) :=
    (Sublist.refl _).append (sublist_cons_self _ _)
  exact ⟨h.perm, h.holds, fun r hr ↦ h.awaited r (mem_cons_of_mem s hr), h.nodup.sublist hsub,
    fun n hn ↦ h.fresh n (hsub.subset hn)⟩

theorem send (h : Ledger places (s :: pending) sent loaded) :
    Ledger (s.msg :: places) pending (sent ++ [s.given]) loaded := by
  obtain ⟨hwhole, hholds⟩ := h.awaited s mem_cons_self
  have hserials : ((s.msg :: places).map MsgMsg.serial ++ pending.map fun s ↦ s.msg.serial).Perm
      (places.map MsgMsg.serial ++ (s :: pending).map fun s ↦ s.msg.serial) :=
    perm_middle.symm
  refine ⟨?_, ?_, fun r hr ↦ h.awaited r (mem_cons_of_mem s hr), hserials.nodup_iff.2 h.nodup,
    fun n hn ↦ h.fresh n (hserials.mem_iff.1 hn)⟩
  · rw [map_append, map_singleton, ← hholds.1]
    exact (h.perm.cons _).trans (perm_append_singleton _ _).symm
  · refine forall_mem_cons.2 ⟨⟨hwhole, s.given, by simp, hholds⟩, fun m hm ↦ ?_⟩
    obtain ⟨hw, x, hx, hmx⟩ := h.holds m hm
    exact ⟨hw, x, mem_append_left _ hx, hmx⟩

theorem load (h : Ledger places pending sent loaded) (hwhole : s.msg.Whole)
    (hholds : s.msg.Holds s.given) (hserial : s.msg.serial = loaded) :
    Ledger places (s :: pending) sent (loaded + 1) := by
  have hserials : (places.map MsgMsg.serial ++ (s :: pending).map fun s ↦ s.msg.serial).Perm
      (loaded :: (places.map MsgMsg.serial ++ pending.map fun s ↦ s.msg.serial)) := by
    rw [map_cons, hserial]
    exact perm_middle
  refine ⟨h.perm, h.holds, forall_mem_cons.2 ⟨⟨hwhole, hholds⟩, h.awaited⟩, ?_, fun n hn ↦ ?_⟩
  · rw [hserials.nodup_iff, nodup_cons]
    exact ⟨fun hmem ↦ lt_irrefl _ (h.fresh _ hmem), h.nodup⟩
  · rcases mem_cons.1 (hserials.mem_iff.1 hn) with rfl | hn
    · exact lt_add_one _
    · exact (h.fresh n hn).trans (lt_add_one _)

end Ledger

/-! ## In which order they leave the queue -/

/-- Of each type, the messages that have left the queue and then those that are on it are in the
order in which they were sent. -/
def Fifo (gone messages : List MsgMsg) (sent : List SentMsg) : Prop :=
  ∀ type : ℤ, (((gone ++ messages).filter fun m ↦ decide (m.mType = type)).map
    MsgMsg.serial).Sublist (sent.map SentMsg.serial)

namespace Fifo

variable {gone messages : List MsgMsg} {sent : List SentMsg}

theorem skip (h : Fifo gone messages sent) (x : SentMsg) : Fifo gone messages (sent ++ [x]) := by
  intro type
  rw [map_append]
  exact (h type).trans (sublist_append_left _ _)

theorem enqueue (h : Fifo gone messages sent) {m : MsgMsg} {x : SentMsg} (hm : m.Holds x) :
    Fifo gone (messages ++ [m]) (sent ++ [x]) := by
  intro type
  rw [← append_assoc, filter_append, map_append, map_append]
  refine (h type).append ?_
  rw [map_singleton, ← hm.1]
  exact (filter_sublist).map MsgMsg.serial

/-- The first message of its type leaves the queue. -/
theorem take {a b : List MsgMsg} {m : MsgMsg} (h : Fifo gone (a ++ m :: b) sent)
    (ha : ∀ m' ∈ a, m'.mType ≠ m.mType) : Fifo (gone ++ [m]) (a ++ b) sent := by
  intro type
  suffices heq : ((gone ++ [m] ++ (a ++ b)).filter fun m ↦ decide (m.mType = type)) =
      (gone ++ (a ++ m :: b)).filter fun m ↦ decide (m.mType = type) by
    rw [heq]
    exact h type
  -- either the message is not of the type, or nothing before it is
  by_cases htype : m.mType = type
  · have hnone : (a.filter fun m' ↦ decide (m'.mType = type)) = [] := by
      refine filter_eq_nil_iff.2 fun m' hm' ↦ ?_
      simpa [htype] using ha m' hm'
    simp [hnone, htype]
  · simp [htype]

end Fifo

theorem listDel_append {a b : List MsgMsg} {m : MsgMsg}
    (h : ((a ++ m :: b).map MsgMsg.serial).Nodup) : MsgQueue.listDel m (a ++ m :: b) = a ++ b := by
  rw [map_append, map_cons, nodup_middle, nodup_cons, ← map_append] at h
  have ha : ∀ m' ∈ a, ¬ decide (m'.serial = m.serial) = true := fun m' hm' heq ↦
    h.1 (mem_map.2 ⟨m', mem_append_left b hm', of_decide_eq_true heq⟩)
  rw [MsgQueue.listDel, eraseP_append_right _ ha, eraseP_cons_of_pos (by simp)]

/-! ## The memory of the messages -/

namespace MsgWorld

theorem footprint_append (l l' : List MsgMsg) :
    footprint (l ++ l') = footprint l + footprint l' := by
  rw [footprint, map_append, sum_append]
  rfl

theorem footprint_perm {l l' : List MsgMsg} (h : l.Perm l') : footprint l = footprint l' :=
  (h.map _).sum_eq

/-- The counters of a queue are bounded by the memory of its messages. -/
theorem counters_le_footprint (l : List MsgMsg) :
    (l.map MsgMsg.mTs).sum + sizeofMsg * l.length = footprint l := by
  induction l with
  | nil => rfl
  | cons m l ih =>
    have hcons : footprint (m :: l) = sizeofMsg + m.mTs + footprint l := rfl
    rw [hcons, map_cons, sum_cons, length_cons, Nat.mul_succ]
    omega

variable {w : MsgWorld} {s : MsgSender} {msr : MsgReceiver} {m : MsgMsg}

/-! ## What holds in every state -/

/-- Where a message that has been sent can be. -/
def places (w : MsgWorld) : List MsgMsg :=
  w.queue.qMessages ++ w.handed ++ (w.returned.map Returned.msg ++ w.destroyed)

/-- The queue is as it should be. -/
structure Ok (w : MsgWorld) : Prop where
  cbytes : w.queue.qCbytes.toNat = (w.queue.qMessages.map MsgMsg.mTs).sum
  qnum : w.queue.qQnum.toNat = w.queue.qMessages.length
  memory : footprint w.live < 2 ^ 32
  waiting : ∀ r ∈ w.queue.qReceivers, r.rMsg = .err (-eAgain) ∧
    ∀ m ∈ w.queue.qMessages, testmsg m r.rMsgtype r.rMode = false
  off : ∀ r ∈ w.off, r.rMsg ≠ .err (-eAgain)
  ledger : Ledger w.places w.queue.qSenders w.sent w.loaded
  fifo : Fifo w.gone w.queue.qMessages w.sent
  faithful : ∀ r ∈ w.returned, r.Faithful

/-- A sender has its message and has not tried to send it yet. -/
def holding (w : MsgWorld) (s : MsgSender) : MsgWorld :=
  { w with queue := { w.queue with qSenders := s :: w.queue.qSenders } }

theorem footprint_live_holding (w : MsgWorld) (s : MsgSender) :
    footprint (w.holding s).live = footprint w.live + (sizeofMsg + s.msg.mTs) := by
  have hperm : (w.holding s).live.Perm (w.live ++ [s.msg]) := by
    have hmid : (w.queue.qMessages ++ w.handed ++ s.msg :: w.queue.qSenders.map MsgSender.msg).Perm
        (s.msg :: (w.queue.qMessages ++ w.handed ++ w.queue.qSenders.map MsgSender.msg)) :=
      perm_middle
    exact hmid.trans (perm_append_singleton _ _).symm
  rw [footprint_perm hperm, footprint_append]
  rfl

theorem Ok.drop (h : (w.holding s).Ok) : w.Ok := by
  have hmem := h.memory
  rw [footprint_live_holding] at hmem
  exact ⟨h.cbytes, h.qnum, by omega, h.waiting, h.off, h.ledger.drop, h.fifo, h.faithful⟩

/-- The order of the senders does not matter. -/
theorem Ok.senders (h : w.Ok) {l : List MsgSender} (hl : l.Perm w.queue.qSenders) :
    Ok { w with queue := { w.queue with qSenders := l } } := by
  refine ⟨h.cbytes, h.qnum, ?_, h.waiting, h.off, h.ledger.congr (Perm.refl _) hl, h.fifo,
    h.faithful⟩
  have hperm : (w.queue.qMessages ++ w.handed ++ l.map MsgSender.msg).Perm w.live :=
    (Perm.refl _).append (hl.map MsgSender.msg)
  exact (footprint_perm hperm).trans_lt h.memory

theorem Ok.receivers (h : w.Ok) {l : List MsgReceiver} (hl : l ⊆ w.queue.qReceivers) :
    Ok { w with queue := { w.queue with qReceivers := l } } :=
  ⟨h.cbytes, h.qnum, h.memory, fun r hr ↦ h.waiting r (hl hr), h.off, h.ledger, h.fifo, h.faithful⟩

/-! ### Sending -/

variable {q : MsgQueue} {p : ℕ}

/-- The message has been sent; the queue is `q` then, and the receivers `off` have left it. -/
abbrev sending (w : MsgWorld) (s : MsgSender) (q : MsgQueue) (off : List MsgReceiver) : MsgWorld :=
  { w with queue := q, off := off ++ w.off, sent := w.sent ++ [s.given] }

section Sending

variable {left off : List MsgReceiver} (h : (w.holding s).Ok)
  (hoff : ∀ r ∈ off, r.rMsg ≠ .err (-eAgain)) (hleft : left ⊆ w.queue.qReceivers)

theorem live_sending (hsenders : q.qSenders = w.queue.qSenders)
    (hperm : (q.qMessages ++ (w.sending s q off).handed).Perm
      (s.msg :: (w.queue.qMessages ++ w.handed))) :
    (w.sending s q off).live.Perm (w.holding s).live := by
  rw [live, hsenders]
  exact (hperm.append_right _).trans perm_middle.symm

include h hoff

theorem Ok.sending (hsenders : q.qSenders = w.queue.qSenders)
    (hperm : (q.qMessages ++ (w.sending s q off).handed).Perm
      (s.msg :: (w.queue.qMessages ++ w.handed)))
    (hcbytes : q.qCbytes.toNat = (q.qMessages.map MsgMsg.mTs).sum)
    (hqnum : q.qQnum.toNat = q.qMessages.length)
    (hwaiting : ∀ r ∈ q.qReceivers, r.rMsg = .err (-eAgain) ∧
      ∀ m ∈ q.qMessages, testmsg m r.rMsgtype r.rMode = false)
    (hfifo : Fifo w.gone q.qMessages (w.sent ++ [s.given])) : (w.sending s q off).Ok := by
  refine ⟨hcbytes, hqnum, (footprint_perm (live_sending hsenders hperm)).trans_lt h.memory,
    hwaiting, forall_mem_append.2 ⟨hoff, h.off⟩,
    h.ledger.send.congr (hperm.append_right _) ?_, hfifo, h.faithful⟩
  rw [hsenders]

include hleft

/-- The message goes to a receiver. -/
theorem Ok.handOver (hhanded : off.filterMap MsgReceiver.handed = [s.msg])
    (hq : q.qCbytes = w.queue.qCbytes ∧ q.qQnum = w.queue.qQnum ∧
      q.qMessages = w.queue.qMessages ∧ q.qReceivers = left ∧ q.qSenders = w.queue.qSenders) :
    (w.sending s q off).Ok := by
  obtain ⟨hcbytes, hqnum, hmessages, hreceivers, hsenders⟩ := hq
  have hperm : (q.qMessages ++ (w.sending s q off).handed).Perm
      (s.msg :: (w.queue.qMessages ++ w.handed)) := by
    rw [handed, filterMap_append, hhanded, hmessages]
    exact perm_middle
  refine h.sending hoff hsenders hperm ?_ ?_ ?_ ?_
  · rw [hcbytes, hmessages]
    exact h.cbytes
  · rw [hqnum, hmessages]
    exact h.qnum
  · rw [hreceivers, hmessages]
    exact fun r hr ↦ h.waiting r (hleft hr)
  · rw [hmessages]
    exact h.fifo.skip s.given

/-- The message is put on the queue, since nobody fits. -/
theorem Ok.enqueue (hhanded : off.filterMap MsgReceiver.handed = [])
    (hnone : ∀ r ∈ left, testmsg s.msg r.rMsgtype r.rMode = false)
    (hq : q.qCbytes = w.queue.qCbytes + BitVec.ofNat 32 s.msg.mTs ∧ q.qQnum = w.queue.qQnum + 1 ∧
      q.qMessages = w.queue.qMessages ++ [s.msg] ∧ q.qReceivers = left ∧
      q.qSenders = w.queue.qSenders) : (w.sending s q off).Ok := by
  obtain ⟨hcbytes, hqnum, hmessages, hreceivers, hsenders⟩ := hq
  have hperm : (q.qMessages ++ (w.sending s q off).handed).Perm
      (s.msg :: (w.queue.qMessages ++ w.handed)) := by
    rw [handed, filterMap_append, hhanded, hmessages, append_assoc]
    exact perm_middle
  -- the counters do not overflow, since the messages are in memory
  have hmem := h.memory
  rw [← footprint_perm (live_sending hsenders hperm), live, footprint_append, footprint_append,
    ← counters_le_footprint] at hmem
  have hsum : (q.qMessages.map MsgMsg.mTs).sum = w.queue.qCbytes.toNat + s.msg.mTs := by
    have hc : w.queue.qCbytes.toNat = (w.queue.qMessages.map MsgMsg.mTs).sum := h.cbytes
    rw [hmessages, map_append, sum_append, hc, map_singleton, sum_singleton]
  have hlength : q.qMessages.length = w.queue.qQnum.toNat + 1 := by
    have hn : w.queue.qQnum.toNat = w.queue.qMessages.length := h.qnum
    rw [hmessages, length_append, hn, length_singleton]
  rw [hsum, hlength, sizeofMsg] at hmem
  refine h.sending hoff hsenders hperm ?_ ?_ ?_ ?_
  · rw [hcbytes, BitVec.toNat_add, BitVec.toNat_ofNat]
    omega
  · rw [hlength, hqnum]
    exact Nat.mod_eq_of_lt (by show w.queue.qQnum.toNat + 1 < 2 ^ 32; omega)
  · rw [hreceivers, hmessages]
    intro r hr
    obtain ⟨hagain, hwait⟩ := h.waiting r (hleft hr)
    exact ⟨hagain, forall_mem_append.2 ⟨hwait, by simpa using hnone r hr⟩⟩
  · rw [hmessages]
    exact h.fifo.enqueue (h.ledger.awaited s mem_cons_self).2

end Sending

/-- **Trying to send.** -/
theorem Ok.afterSend (h : (w.holding s).Ok) (E : MsgEnv) (nowait : Bool) :
    (w.afterSend s (w.queue.msgsndRetry E s nowait)).2.Ok := by
  have hstay : ∀ e : ℤ, e ≠ 0 → (w.afterSend s (.returned e, [], w.queue)).2.Ok := by
    intro e he
    have hne : Outcome.returned e ≠ .returned 0 := fun heq ↦ he (Outcome.returned.inj heq)
    rw [MsgWorld.afterSend, if_neg hne]
    exact h.drop
  rw [MsgQueue.msgsndRetry]
  split
  · exact hstay _ (by decide)
  split
  · exact hstay _ (by decide)
  split
  · split
    · exact hstay _ (by decide)
    · exact h.senders (l := w.queue.qSenders ++ [s]) (perm_append_singleton _ _)
  · dsimp only
    rcases hpipe : MsgQueue.pipelinedSend s.msg w.queue.qReceivers with ⟨left, off, got⟩
    obtain ⟨hleft, hoff, hor⟩ := pipelinedSend_spec hpipe
    rcases hor with ⟨hgot, hhanded⟩ | ⟨rfl, hhanded, hnone⟩
    · obtain ⟨msr, rfl⟩ := Option.isSome_iff_exists.1 hgot
      exact h.handOver hoff hleft hhanded ⟨rfl, rfl, rfl, rfl, rfl⟩
    · exact h.enqueue hoff hleft hhanded hnone ⟨rfl, rfl, rfl, rfl, rfl⟩

/-! ### Receiving -/

section Receiving

variable {rs : List Returned} {ds l : List MsgMsg}

theorem finished_perm (w : MsgWorld) (h : rs.map Returned.msg ++ ds = l) :
    ((w.returned ++ rs).map Returned.msg ++ (w.destroyed ++ ds)).Perm
      (w.returned.map Returned.msg ++ w.destroyed ++ l) := by
  rw [map_append, append_assoc, append_assoc, ← h]
  exact (perm_append_comm_assoc _ _ _).append_left _

/-- A message is returned or destroyed. -/
theorem deliver_ok (w : MsgWorld) (D : StoreEnv) (hm : m.Whole) (msgsz : ℕ) :
    ∃ o rs ds, w.deliver D m msgsz = .ok (o, { w with
      returned := w.returned ++ rs
      destroyed := w.destroyed ++ ds }) ∧
      rs.map Returned.msg ++ ds = [m] ∧ (∀ r ∈ rs, r.Faithful) ∧
      (o = .returned (-eFault) ∨ w.destroyed ++ ds = w.destroyed) := by
  rcases outSuccess_spec D hm msgsz with heq | ⟨r, heq, rfl, hf⟩
  · refine ⟨.returned (-eFault), [], [m], ?_, rfl, forall_mem_nil _, Or.inl rfl⟩
    rw [deliver, heq, append_nil]
  · refine ⟨.returned r.result, [r], [], ?_, rfl, by simpa using hf, Or.inr (append_nil _)⟩
    rw [deliver, heq, append_nil]

theorem Ok.take (h : w.Ok) {a b : List MsgMsg} (hsplit : w.queue.qMessages = a ++ m :: b)
    (ha : ∀ m' ∈ a, m'.mType ≠ m.mType)
    (hq : q.qCbytes = w.queue.qCbytes - BitVec.ofNat 32 m.mTs ∧ q.qQnum = w.queue.qQnum - 1 ∧
      q.qMessages = MsgQueue.listDel m w.queue.qMessages ∧ q.qReceivers = w.queue.qReceivers ∧
      q.qSenders = w.queue.qSenders) (hrs : rs.map Returned.msg ++ ds = [m])
    (hf : ∀ r ∈ rs, r.Faithful) : Ok { w with
      queue := q
      gone := w.gone ++ [m]
      returned := w.returned ++ rs
      destroyed := w.destroyed ++ ds } := by
  obtain ⟨hcbytes, hqnum, hmessages, hreceivers, hsenders⟩ := hq
  have hnodup : ((a ++ m :: b).map MsgMsg.serial).Nodup := by
    rw [← hsplit]
    have hall := h.ledger.nodup.of_append_left
    rw [places, map_append, map_append] at hall
    exact hall.of_append_left.of_append_left
  rw [hsplit, listDel_append hnodup] at hmessages
  set w' : MsgWorld := { w with
    queue := q
    gone := w.gone ++ [m]
    returned := w.returned ++ rs
    destroyed := w.destroyed ++ ds }
  have hplaces : w'.places.Perm w.places := by
    rw [places, places, hsplit]
    rw [hmessages]
    refine ((w.finished_perm hrs).append_left _).trans ?_
    rw [← append_assoc]
    exact (perm_append_singleton m _).trans
      ((perm_middle.append_right w.handed).append_right _).symm
  have hlive : w.live.Perm (m :: w'.live) := by
    rw [live, live, hsplit]
    rw [hmessages, hsenders]
    exact (perm_middle.append_right w.handed).append_right _
  have hmem := h.memory
  rw [footprint_perm hlive] at hmem
  have hcons : footprint (m :: w'.live) = sizeofMsg + m.mTs + footprint w'.live := rfl
  have hsum := h.cbytes
  rw [hsplit, map_append, sum_append, map_cons, sum_cons] at hsum
  have hlength := h.qnum
  rw [hsplit, length_append, length_cons] at hlength
  refine ⟨?_, ?_, by omega, ?_, h.off, ?_, ?_, ?_⟩
  · rw [hmessages, hcbytes, map_append, sum_append, BitVec.toNat_sub, BitVec.toNat_ofNat]
    omega
  · have hone : (1 : BitVec 32).toNat = 1 := rfl
    rw [hmessages, hqnum, length_append, BitVec.toNat_sub]
    omega
  · rw [hreceivers, hmessages]
    intro msr hmsr
    obtain ⟨hagain, hwait⟩ := h.waiting msr hmsr
    refine ⟨hagain, fun m' hm' ↦ hwait m' ?_⟩
    rw [hsplit]
    rcases mem_append.1 hm' with hm' | hm'
    · exact mem_append_left _ hm'
    · exact mem_append_right _ (mem_cons_of_mem m hm')
  · refine h.ledger.congr hplaces ?_
    rw [hsenders]
  · rw [hmessages]
    have hfifo := h.fifo
    rw [hsplit] at hfifo
    exact hfifo.take ha
  · exact forall_mem_append.2 ⟨h.faithful, hf⟩

/-- A receiver goes to sleep, since nothing fits. -/
theorem Ok.wait (h : w.Ok) (hagain : msr.rMsg = .err (-eAgain))
    (hnone : ∀ m ∈ w.queue.qMessages, testmsg m msr.rMsgtype msr.rMode = false) :
    Ok { w with queue := { w.queue with qReceivers := w.queue.qReceivers ++ [msr] } } :=
  ⟨h.cbytes, h.qnum, h.memory,
    forall_mem_append.2 ⟨h.waiting, by simpa using ⟨hagain, hnone⟩⟩, h.off, h.ledger, h.fifo,
    h.faithful⟩

theorem Ok.whole (h : w.Ok) (hm : m ∈ w.places) : m.Whole := (h.ledger.holds m hm).1

/-- The call comes to an end or sleeps, and it destroys nothing unless it returns `-EFAULT`. -/
def Fine (w : MsgWorld) (r : Except Unit (Outcome × MsgWorld)) : Prop :=
  ∃ o w', r = .ok (o, w') ∧ w'.Ok ∧ (o = .returned (-eFault) ∨ w'.destroyed = w.destroyed)

theorem Ok.fine {x : Outcome × MsgWorld} (h : x.2.Ok) (hd : x.2.destroyed = w.destroyed) :
    w.Fine (.ok x) :=
  ⟨_, _, rfl, h, Or.inr hd⟩

/-- **Trying to receive.** -/
theorem Ok.afterReceive (h : w.Ok) (E : MsgEnv) (D : StoreEnv) (p msgsz : ℕ) (msgtyp : ℤ)
    (mode : SearchMode) (noerror nowait : Bool) : w.Fine (w.afterReceive D msgsz
      (w.queue.msgrcvRetry E p msgsz msgtyp mode noerror nowait)) := by
  have hstay : ∀ e : ℤ, w.Fine (w.afterReceive D msgsz (.returned e, w.queue)) :=
    fun e ↦ Ok.fine h rfl
  rw [MsgQueue.msgrcvRetry]
  split
  · exact hstay _
  split
  · exact hstay _
  rcases findMsg_spec mode w.queue.qMessages msgtyp none with
    ⟨hfind, hnone⟩ | ⟨msg, typ, a, b, hfind, hsplit, hm, ha, -⟩
  · rw [hfind]
    dsimp only
    split
    · exact hstay _
    · exact Ok.fine (h.wait rfl hnone) rfl
  · have hfirst : ∀ m' ∈ a, m'.mType ≠ msg.mType := by
      intro m' hm' htype
      rcases ha m' hm' with hno | ⟨-, hlt⟩
      · exact absurd (testmsg_congr htype msgtyp mode) (by simp [hno, hm])
      · exact hlt.ne' htype
    rw [hfind]
    dsimp only
    split
    · exact hstay _
    · have hmem : msg ∈ w.places := by
        rw [places, hsplit]
        simp
      set q : MsgQueue := { w.queue with
        qMessages := MsgQueue.listDel msg w.queue.qMessages
        qQnum := w.queue.qQnum - 1
        qRtime := E.now
        qLrpid := p
        qCbytes := w.queue.qCbytes - BitVec.ofNat 32 msg.mTs }
      obtain ⟨o, rs, ds, heq, hrs, hf, hds⟩ :=
        deliver_ok { w with queue := q, gone := w.gone ++ [msg] } D (h.whole hmem) msgsz
      exact ⟨_, _, heq, h.take (q := q) hsplit hfirst ⟨rfl, rfl, rfl, rfl, rfl⟩ hrs hf, hds⟩

/-- Receivers that are about to take the lock are as before. -/
theorem Ok.setLocking (h : w.Ok) (p : ℕ) : Ok { w with
    queue := { w.queue with qReceivers := w.queue.qReceivers.map (setLocking p) }
    off := w.off.map (MsgWorld.setLocking p) } := by
  have hkept : ∀ r, (MsgWorld.setLocking p r).rMsg = r.rMsg ∧
      (MsgWorld.setLocking p r).rMsgtype = r.rMsgtype ∧
      (MsgWorld.setLocking p r).rMode = r.rMode := by
    intro r
    rw [MsgWorld.setLocking]
    split <;> exact ⟨rfl, rfl, rfl⟩
  have hhanded : (w.off.map (MsgWorld.setLocking p)).filterMap MsgReceiver.handed = w.handed := by
    rw [filterMap_map]
    refine filterMap_congr fun r _ ↦ ?_
    rw [Function.comp_apply, MsgReceiver.handed, MsgReceiver.handed, (hkept r).1]
  refine ⟨h.cbytes, h.qnum, ?_, fun r hr ↦ ?_, fun r hr ↦ ?_, ?_, h.fifo, h.faithful⟩
  · show footprint (_ ++ (w.off.map (MsgWorld.setLocking p)).filterMap MsgReceiver.handed ++ _) < _
    rw [hhanded]
    exact h.memory
  · obtain ⟨r₀, hr₀, rfl⟩ := mem_map.1 hr
    rw [(hkept r₀).1, (hkept r₀).2.1, (hkept r₀).2.2]
    exact h.waiting r₀ hr₀
  · obtain ⟨r₀, hr₀, rfl⟩ := mem_map.1 hr
    rw [(hkept r₀).1]
    exact h.off r₀ hr₀
  · refine h.ledger.congr (List.Perm.of_eq ?_) (List.Perm.refl _)
    show _ ++ (w.off.map (MsgWorld.setLocking p)).filterMap MsgReceiver.handed ++ _ = _
    rw [hhanded]
    rfl

theorem perm_cons_eraseP {α : Type*} {p : α → Bool} {l : List α} {x : α} (h : l.find? p = some x) :
    l.Perm (x :: l.eraseP p) := by
  obtain ⟨hx, a, b, rfl, ha⟩ := find?_eq_some_iff_append.1 h
  rw [eraseP_append_right _ (by simpa using ha), eraseP_cons_of_pos hx]
  exact perm_middle

/-- A receiver whose `r_msg` is no longer `-EAGAIN` has been taken off the list. -/
theorem Ok.find_off (h : w.Ok) (hp : w.receiver p = some msr) (hmsg : msr.rMsg ≠ .err (-eAgain)) :
    w.off.find? (fun r ↦ decide (r.rTsk = p)) = some msr ∧ msr.rTsk = p := by
  have htsk : msr.rTsk = p := by simpa using find?_some hp
  rw [receiver, find?_append] at hp
  rcases Option.or_eq_some_iff.1 hp with hon | ⟨-, hoff⟩
  · exact absurd (h.waiting msr (mem_of_find?_eq_some hon)).1 hmsg
  · exact ⟨hoff, htsk⟩

/-- A receiver that has been taken off the list goes on. -/
theorem Ok.release (h : w.Ok) (hp : w.receiver p = some msr)
    (hmsg : msr.rMsg ≠ .err (-eAgain)) (hrs : rs.map Returned.msg ++ ds = msr.handed.toList)
    (hf : ∀ r ∈ rs, r.Faithful) : Ok { w.release msr.rTsk with
      returned := w.returned ++ rs
      destroyed := w.destroyed ++ ds } := by
  obtain ⟨hfind, rfl⟩ := h.find_off hp hmsg
  have hoff := perm_cons_eraseP hfind
  set off' := w.off.eraseP fun r ↦ decide (r.rTsk = msr.rTsk)
  have hhanded : w.handed.Perm (msr.handed.toList ++ off'.filterMap MsgReceiver.handed) := by
    refine (hoff.filterMap MsgReceiver.handed).trans (Perm.of_eq ?_)
    rw [filterMap_cons]
    cases msr.handed <;> rfl
  have hmem := h.memory
  rw [live, footprint_append, footprint_append, footprint_perm hhanded, footprint_append] at hmem
  refine ⟨h.cbytes, h.qnum, ?_, h.waiting, fun r hr ↦ ?_, ?_, h.fifo, ?_⟩
  · show footprint (w.queue.qMessages ++ off'.filterMap MsgReceiver.handed ++
      w.queue.qSenders.map MsgSender.msg) < _
    rw [footprint_append, footprint_append]
    omega
  · exact h.off r (hoff.mem_iff.2 (mem_cons_of_mem msr hr))
  · refine h.ledger.congr ?_ (Perm.refl _)
    show (w.queue.qMessages ++ off'.filterMap MsgReceiver.handed ++
      ((w.returned ++ rs).map Returned.msg ++ (w.destroyed ++ ds))).Perm _
    refine ((w.finished_perm hrs).append_left _).trans ?_
    rw [places, append_assoc w.queue.qMessages, append_assoc w.queue.qMessages w.handed]
    refine Perm.append_left _ ((Perm.append_left _ perm_append_comm).trans ?_)
    rw [← append_assoc]
    exact (perm_append_comm.trans hhanded.symm).append_right _
  · exact forall_mem_append.2 ⟨h.faithful, hf⟩

/-- **A message that has been handed to a receiver is returned**, or destroyed. -/
theorem Ok.handOut (h : w.Ok) (D : StoreEnv) (hp : w.receiver p = some msr)
    (hmsg : msr.rMsg = .msg m) :
    w.Fine ((w.release msr.rTsk).deliver D m msr.msgsz) := by
  have hne : msr.rMsg ≠ .err (-eAgain) := by
    rw [hmsg]
    exact nofun
  have hhanded : msr.handed = some m := by rw [MsgReceiver.handed, hmsg]
  have hmem : m ∈ w.places := by
    refine mem_append_left _
      (mem_append_right _ (mem_filterMap.2 ⟨msr, ?_, hhanded⟩))
    exact mem_of_find?_eq_some (h.find_off hp hne).1
  obtain ⟨o, rs, ds, heq, hrs, hf, hds⟩ :=
    deliver_ok (w.release msr.rTsk) D (h.whole hmem) msr.msgsz
  refine ⟨_, _, heq, h.release hp hne ?_ hf, hds⟩
  rw [hrs, hhanded]
  rfl

end Receiving

/-! ### Every call -/

/-- **One step**: nothing goes wrong, and what holds is kept. -/
theorem perform_ok (h : w.Ok) {a : MsgCall} (hl : w.Legal a) : w.Fine (w.perform a) := by
  cases a with
  | msgsnd E L p mtype msgsz nowait =>
    rw [perform, sysMsgsnd]
    split
    · exact Ok.fine h rfl
    split
    · exact Ok.fine h rfl
    split
    · exact Ok.fine h rfl
    split
    · exact Ok.fine h rfl
    · rename_i m hload
      obtain ⟨hwhole, hholds, hts, hmem⟩ := loadMsg_spec hload
      have hhold : (holding { w with loaded := w.loaded + 1 }
          ⟨p, m, ⟨m.serial, mtype, L.text 0 msgsz.toNat⟩⟩).Ok := by
        refine ⟨h.cbytes, h.qnum, ?_, h.waiting, h.off, h.ledger.load hwhole ?_ hholds.1, h.fifo,
          h.faithful⟩
        · rw [footprint_live_holding, hts]
          exact hl.2 hmem
        · rw [hholds.1]
          exact hholds
      dsimp only
      split
      · exact Ok.fine hhold.drop rfl
      · exact Ok.fine (hhold.afterSend E nowait) rfl
  | sndWake E p signal =>
    rw [perform]
    split
    · rename_i s hs
      have htsk : s.tsk = p := by simpa using find?_some hs
      have hperm := perm_cons_eraseP hs
      rw [← htsk] at hperm
      have hhold : (holding { w with queue := { w.queue with
          qSenders := w.queue.qSenders.eraseP fun r ↦ decide (r.tsk = s.tsk) } } s).Ok :=
        h.senders hperm.symm
      rw [sndGoOn]
      split
      · exact Ok.fine hhold.drop rfl
      · exact Ok.fine (hhold.afterSend E false) rfl
    · exact Ok.fine h rfl
  | msgrcv E D p msgsz msgtyp except noerror nowait =>
    rw [perform, sysMsgrcv]
    split
    · exact Ok.fine h rfl
    split
    · exact Ok.fine h rfl
    · exact h.afterReceive E D p msgsz.toNat _ _ noerror nowait
  | rcvWake D p =>
    rw [perform]
    split
    · rename_i msr hp
      rw [rcvGoOn]
      split
      · rename_i m hmsg
        exact h.handOut D hp hmsg
      · exact Ok.fine (h.setLocking msr.rTsk) rfl
    · exact Ok.fine h rfl
  | rcvLock E D p signal =>
    rw [perform]
    split
    · rename_i msr hp
      rw [rcvLocked]
      split
      · rename_i m hmsg
        exact h.handOut D hp hmsg
      · rename_i e hmsg
        split
        · have hless := h.receivers (l := w.queue.qReceivers.eraseP fun r ↦
            decide (r.rTsk = msr.rTsk)) eraseP_subset
          split
          · exact Ok.fine hless rfl
          · exact hless.afterReceive E D msr.rTsk msr.msgsz msr.rMsgtype msr.rMode msr.noerror false
        · rename_i he
          have hne : msr.rMsg ≠ .err (-eAgain) := fun heq ↦ he (RMsg.err.inj (hmsg.symm.trans heq))
          have hnone : ([] : List Returned).map Returned.msg ++ [] = msr.handed.toList := by
            rw [MsgReceiver.handed, hmsg]
            rfl
          have hok := h.release hp hne hnone nofun
          rw [append_nil, append_nil] at hok
          exact Ok.fine hok rfl
    · exact Ok.fine h rfl

theorem init_ok (h : machine.init w) : w.Ok := by
  obtain ⟨hcbytes, hqnum, hmessages, hreceivers, hsenders, hoff, hloaded, hsent, hgone, hret,
    hdes⟩ := h
  have hhanded : w.handed = [] := by rw [handed, hoff]; rfl
  have hplaces : w.places = [] := by rw [places, hmessages, hhanded, hret, hdes]; rfl
  refine ⟨?_, ?_, ?_, ?_, ?_, ?_, ?_, ?_⟩
  · rw [hcbytes, hmessages]
    rfl
  · rw [hqnum, hmessages]
    rfl
  · rw [live, hmessages, hhanded, hsenders]
    decide
  · rw [hreceivers]
    exact forall_mem_nil _
  · rw [hoff]
    exact forall_mem_nil _
  · rw [hplaces, hsenders, hsent]
    exact ⟨Perm.refl _, by simp, by simp, by simp, by simp⟩
  · rw [hgone, hmessages, hsent]
    exact fun _ ↦ Sublist.refl _
  · rw [hret]
    exact forall_mem_nil _

theorem exec_ok (h : w.Ok) {a : MsgCall} (hl : w.Legal a) :
    ∃ w', machine.exec w a = .ok w' ∧ w'.Ok := by
  obtain ⟨o, w', heq, hok, -⟩ := perform_ok h hl
  exact ⟨w', congrArg (Except.map Prod.snd) heq, hok⟩

theorem ok_of_reachable (h : machine.Reachable w) : w.Ok := by
  refine h.invariant (fun _ ↦ init_ok) fun w a w' hw hl he ↦ ?_
  obtain ⟨w'', hexec, hok⟩ := exec_ok hw hl
  cases hexec.symm.trans he
  exact hok

/-! ## Every run -/

/-- A new queue. -/
def start (qbytes : BitVec 32) : MsgWorld where
  queue := ⟨0, 0, 0, 0, qbytes, 0, 0, [], [], []⟩
  off := []
  loaded := 0
  sent := []
  gone := []
  returned := []
  destroyed := []

theorem start_init (qbytes : BitVec 32) : machine.init (start qbytes) :=
  ⟨rfl, rfl, rfl, rfl, rfl, rfl, rfl, rfl, rfl, rfl, rfl⟩

end MsgWorld

end Linux24.Ipc
