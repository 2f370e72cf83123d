import Linux24.Net.FilterReads

/-!
# The layout of a packet

A packet is in one piece up to `tail`, and the rest of it is in fragments.  A filter should not be
able to tell: it should do the same for a packet and for one that has the same bytes all in one
piece, which is what `skb_linearize` makes of it.

The loads with an offset that is not negative do, since what the fast path does not find
`skb_copy_bits` does: both are `SkBuff.bytes`.  The others do not.  `BPF_LEN` is the length of the
first piece, `BPF_MSH` does not look further than that, and neither does `load_pointer`.
`layout_independent_iff` says that these are all.
-/

set_option autoImplicit false

namespace Linux24.Net

open List

namespace SkBuff

variable (skb : SkBuff)

/-! ## The bytes of a packet -/

/-- The bytes of a packet, wherever they are. -/
def bytes : List Byte := skb.bytesAt skb.data skb.headlen ++ skb.frags.flatten

theorem bytesAt_length (addr : BitVec 32) (n : ℕ) : (skb.bytesAt addr n).length = n := by
  rw [bytesAt, length_map, length_range]

theorem bytesAt_add (addr : BitVec 32) (m n : ℕ) : skb.bytesAt addr (m + n) =
    skb.bytesAt addr m ++ skb.bytesAt (addr + BitVec.ofNat 32 m) n := by
  simp only [bytesAt, range_add, map_append, map_map, Function.comp_def,
    BitVec.ofNat_add, BitVec.add_assoc]

/-- What is in memory from somewhere on, as a part of what is there from further ahead on. -/
theorem bytesAt_eq {m n k : ℕ} (addr : BitVec 32) (h : k + n ≤ m) :
    skb.bytesAt (addr + BitVec.ofNat 32 k) n = ((skb.bytesAt addr m).drop k).take n := by
  obtain ⟨r, rfl⟩ := Nat.exists_eq_add_of_le h
  rw [bytesAt_add, bytesAt_add, append_assoc, drop_left' (skb.bytesAt_length _ _),
    take_left' (skb.bytesAt_length _ _)]

/-- The loop over the fragments finds what is there. -/
theorem copyFrags_eq (frags : List (List Byte)) {start offset len : ℕ} (hstart : start ≤ offset)
    (hlen : 0 < len) : copyFrags frags start offset len =
      if offset + len ≤ start + frags.flatten.length then
        some ((frags.flatten.drop (offset - start)).take len)
      else none := by
  induction frags generalizing start offset len with
  | nil =>
    rw [copyFrags, if_neg (by omega), if_neg]
    rw [flatten_nil, length_nil]
    omega
  | cons frag frags ih =>
    have hsum : (frag :: frags).flatten.length = frag.length + frags.flatten.length := by
      rw [flatten_cons, length_append]
    rw [copyFrags, hsum, flatten_cons]
    dsimp only
    split
    · have hdrop : (frag ++ frags.flatten).drop (offset - start) =
          frag.drop (offset - start) ++ frags.flatten :=
        drop_append_of_le_length (by omega)
      have hlength : (frag.drop (offset - start)).length = start + frag.length - offset := by
        rw [length_drop]
        omega
      rw [hdrop]
      by_cases hshort : len ≤ start + frag.length - offset
      · -- it is all in this fragment
        rw [← min_def_lt, min_eq_left hshort, Nat.sub_self, if_pos rfl, if_pos (by omega),
          take_append_of_le_length (by omega)]
      · have hnext : offset + (start + frag.length - offset) = start + frag.length := by omega
        rw [← min_def_lt, min_eq_right (by omega), if_neg (by omega), hnext,
          ih le_rfl (by omega), Nat.sub_self,
          take_append, hlength, take_of_length_le hlength.le,
          take_of_length_le (l := frag.drop (offset - start)) (by omega)]
        by_cases hall : offset + len ≤ start + (frag.length + frags.flatten.length)
        · rw [if_pos hall, if_pos (by omega)]
          rfl
        · rw [if_neg hall, if_neg (by omega)]
          rfl
    · rw [ih (by omega) hlen, drop_append, drop_of_length_le (l := frag) (by omega),
        nil_append, Nat.sub_sub, add_assoc]

/-- **`skb_copy_bits`** finds the bytes of the packet. -/
theorem skbCopyBits_eq {offset len : ℕ} (hlen : 0 < len) : skb.skbCopyBits offset len =
    if offset + len ≤ skb.len then some ((skb.bytes.drop offset).take len) else none := by
  have hdata := skb.dataLen_le
  have hfrags := skb.frags_length
  have hhead : skb.headlen + skb.dataLen = skb.len := Nat.sub_add_cancel hdata
  rw [skbCopyBits]
  by_cases hin : offset + len ≤ skb.len
  · rw [if_neg (by omega), bytes]
    dsimp only
    split
    · have hdrop : (skb.bytesAt skb.data skb.headlen ++ skb.frags.flatten).drop offset =
          (skb.bytesAt skb.data skb.headlen).drop offset ++ skb.frags.flatten :=
        drop_append_of_le_length (by rw [bytesAt_length]; omega)
      have hlength : ((skb.bytesAt skb.data skb.headlen).drop offset).length =
          skb.headlen - offset := by
        rw [length_drop, bytesAt_length]
      rw [hdrop]
      by_cases hshort : len ≤ skb.headlen - offset
      · rw [← min_def_lt, min_eq_left hshort, Nat.sub_self, if_pos rfl,
          take_append_of_le_length (by omega),
          skb.bytesAt_eq skb.data (m := skb.headlen) (by omega)]
      · have hnext : offset + (skb.headlen - offset) = skb.headlen := by omega
        rw [← min_def_lt, min_eq_right (by omega), if_neg (by omega), hnext,
          copyFrags_eq _ le_rfl (by omega), if_pos (by omega), Nat.sub_self, take_append, hlength,
          skb.bytesAt_eq skb.data (m := skb.headlen) (by omega), take_of_length_le hlength.le,
          take_of_length_le (l := (skb.bytesAt skb.data skb.headlen).drop offset) (by omega)]
        rfl
    · rw [copyFrags_eq _ (by omega) hlen, if_pos (by omega), drop_append,
        drop_of_length_le (l := skb.bytesAt skb.data skb.headlen)
          (by rw [bytesAt_length]; omega), nil_append, bytesAt_length]
  · rw [if_pos (by omega), if_neg hin]

theorem Width.size_pos (width : Width) : 0 < width.size := by
  cases width <;> decide

variable {k : ℤ}

theorem ofInt_of_nonneg (hk : 0 ≤ k) : BitVec.ofInt 32 k = BitVec.ofNat 32 k.toNat := by
  conv_lhs => rw [← Int.toNat_of_nonneg hk]
  exact BitVec.ofInt_natCast 32 k.toNat

/-- A load with an offset that is not negative finds the bytes of the packet. -/
theorem load_nonneg (width : Width) (hk : 0 ≤ k) : (skb.load width k).1 =
    if k.toNat + width.size ≤ skb.len then
      some (ntoh ((skb.bytes.drop k.toNat).take width.size))
    else none := by
  have hhead : skb.headlen + skb.dataLen = skb.len := Nat.sub_add_cancel skb.dataLen_le
  rw [load]
  split
  · have hlength : ((skb.bytesAt skb.data skb.headlen).drop k.toNat).length =
        skb.headlen - k.toNat := by
      rw [length_drop, bytesAt_length]
    rw [if_pos (by omega), ofInt_of_nonneg hk]
    dsimp only
    rw [skb.bytesAt_eq skb.data (m := skb.headlen) (by omega), bytes,
      drop_append_of_le_length (by rw [bytesAt_length]; omega),
      take_append_of_le_length (by omega)]
  · rw [if_neg (by omega), skb.skbCopyBits_eq (Width.size_pos width)]
    by_cases hlen : k.toNat + width.size ≤ skb.len
    · rw [if_pos hlen, if_pos hlen]
    · rw [if_neg hlen, if_neg hlen]

/-- How much of the buffer is in use, from `head` on. -/
def room : ℕ := skb.tail.toNat - skb.head.toNat

/-- Where in the buffer a header-relative load begins. -/
def offsetOf (k : ℤ) : ℕ := (skb.ptr k - skb.head).toNat

/-- `load_pointer`, by the offset in the buffer. -/
theorem loadPointer_eq (k : ℤ) : skb.loadPointer k =
    if skb.offsetOf k < skb.room then some (skb.head + BitVec.ofNat 32 (skb.offsetOf k))
    else none := by
  have hadd : skb.head + BitVec.ofNat 32 (skb.offsetOf k) = skb.ptr k := by
    rw [offsetOf, BitVec.ofNat_toNat, BitVec.setWidth_eq, add_sub_cancel]
  have hiff : (skb.head ≤ skb.ptr k ∧ skb.ptr k < skb.tail) ↔ skb.offsetOf k < skb.room := by
    rw [offsetOf, room, BitVec.toNat_sub, BitVec.le_def, BitVec.lt_def]
    omega
  rw [hadd]
  exact if_congr hiff rfl rfl

/-! ## The same packet in one piece -/

/-- `lin` is what `skb_linearize` makes of `skb`: everything from `head` on is where it was,
followed by what has been in fragments. -/
structure Linearizes (lin skb : SkBuff) : Prop where
  dataLen : lin.dataLen = 0
  len : lin.len = skb.len
  bytes : lin.bytes = skb.bytes
  headroom : lin.data - lin.head = skb.data - skb.head
  headroom_bytes : ∀ i < (skb.data - skb.head).toNat,
    lin.memory (lin.head + BitVec.ofNat 32 i) = skb.memory (skb.head + BitVec.ofNat 32 i)
  nh : lin.nh - lin.head = skb.nh - skb.head
  mac : lin.mac - lin.head = skb.mac - skb.head
  protocol : lin.protocol = skb.protocol
  pktType : lin.pktType = skb.pktType
  ifindex : lin.ifindex = skb.ifindex

variable {skb} {lin : SkBuff}

theorem Linearizes.headlen (h : lin.Linearizes skb) : lin.headlen = skb.len := by
  rw [SkBuff.headlen, h.dataLen, h.len, Nat.sub_zero]

/-- A header-relative load is at the same place in both. -/
theorem Linearizes.offsetOf (h : lin.Linearizes skb) (hk : skfLlOff ≤ k) :
    lin.offsetOf k = skb.offsetOf k := by
  have hadd : ∀ a b c d e : BitVec 32, a - b = c - d → a + e - b = c + e - d := by
    intro a b c d e heq
    rw [add_sub_right_comm, heq, add_sub_right_comm]
  rw [SkBuff.offsetOf, SkBuff.offsetOf, ptr, ptr]
  split
  · rw [hadd _ _ _ _ _ h.nh]
  · rw [hadd _ _ _ _ _ h.mac]

/-- A load that does not depend on the layout: it is not header-relative; or it begins where also
the packet in one piece has ended; or it ends in the first piece; or it begins there, and what is
loaded is the same. -/
def SteadyLoad (skb lin : SkBuff) (width : Width) (k : ℤ) : Prop :=
  skfLlOff ≤ k → k < skfAdOff → lin.room ≤ skb.offsetOf k ∨
    skb.offsetOf k + width.size ≤ skb.room ∨
    (skb.offsetOf k < skb.room ∧
      ntoh (skb.bytesAt (skb.head + BitVec.ofNat 32 (skb.offsetOf k)) width.size) =
        ntoh (lin.bytesAt (lin.head + BitVec.ofNat 32 (skb.offsetOf k)) width.size))

/-- The same for `BPF_MSH`: its offset is in the first piece, or after the end of the packet; or it
is negative and in the buffer, or what is loaded is the same. -/
def SteadyMsh (skb lin : SkBuff) (k : ℤ) : Prop :=
  if 0 ≤ k then k < skb.headlen ∨ (skb.len : ℤ) ≤ k
  else (skb.head.toNat : ℤ) ≤ skb.data.toNat + k ∨ (skb.loadMsh k).1 = (lin.loadMsh k).1

theorem Linearizes.room_le (h : lin.Linearizes skb) : skb.room ≤ lin.room := by
  have htail := skb.tail_toNat
  have htail' := lin.tail_toNat
  have hhead' := lin.head_le
  have heq := congrArg BitVec.toNat h.headroom
  have hlen : skb.headlen ≤ skb.len := Nat.sub_le _ _
  rw [h.headlen] at htail'
  rw [BitVec.toNat_sub, BitVec.toNat_sub] at heq
  rw [room, room]
  omega

theorem loadPointer_of_lt (skb : SkBuff) (hk : k < skfLlOff) :
    skb.loadPointer k = none := by
  have hhead := skb.head_pos
  have hoff : skfLlOff < skfNetOff := by decide
  have hptr : skb.ptr k = 0 := by rw [ptr, if_neg (by omega), if_neg (by omega)]
  rw [loadPointer, hptr, if_neg]
  rintro ⟨hle, -⟩
  exact absurd hle (not_le.2 hhead)

theorem Linearizes.memory_eq (h : lin.Linearizes skb) {i : ℕ} (hi : i < skb.headlen) :
    lin.memory (lin.data + BitVec.ofNat 32 i) = skb.memory (skb.data + BitVec.ofNat 32 i) := by
  have hlen : skb.headlen ≤ skb.len := Nat.sub_le _ _
  have hget : ∀ x : SkBuff, i < x.headlen →
      x.bytes[i]? = some (x.memory (x.data + BitVec.ofNat 32 i)) := by
    intro x hx
    rw [SkBuff.bytes, getElem?_append_left (by rw [bytesAt_length]; exact hx), bytesAt,
      getElem?_map, getElem?_range hx, Option.map_some]
  have hlin := hget lin (by rw [h.headlen]; omega)
  rw [h.bytes, hget skb hi] at hlin
  exact (Option.some_inj.1 hlin).symm

/-- What is before the end of the first piece is the same in both. -/
theorem Linearizes.memory_head_eq (h : lin.Linearizes skb) {i : ℕ} (hi : i < skb.room) :
    lin.memory (lin.head + BitVec.ofNat 32 i) = skb.memory (skb.head + BitVec.ofNat 32 i) := by
  by_cases hlt : i < (skb.data - skb.head).toNat
  · exact h.headroom_bytes i hlt
  obtain ⟨j, rfl⟩ := Nat.exists_eq_add_of_le (not_lt.1 hlt)
  have hdata : ∀ x : SkBuff, x.data - x.head = skb.data - skb.head →
      x.head + BitVec.ofNat 32 ((skb.data - skb.head).toNat + j) = x.data + BitVec.ofNat 32 j := by
    intro x hx
    rw [BitVec.ofNat_add, BitVec.ofNat_toNat, BitVec.setWidth_eq, ← hx, ← add_assoc, add_sub_cancel]
  rw [hdata lin h.headroom, hdata skb rfl]
  have htail := skb.tail_toNat
  have hhead := skb.head_le
  rw [room, BitVec.toNat_sub] at hi
  exact h.memory_eq (by omega)

theorem Linearizes.bytesAt_head_eq (h : lin.Linearizes skb) {i n : ℕ} (hn : i + n ≤ skb.room) :
    skb.bytesAt (skb.head + BitVec.ofNat 32 i) n =
      lin.bytesAt (lin.head + BitVec.ofNat 32 i) n := by
  refine map_congr_left fun j hj ↦ ?_
  rw [mem_range] at hj
  rw [BitVec.add_assoc, BitVec.add_assoc, ← BitVec.ofNat_add, h.memory_head_eq (by omega)]

/-- **A load** does the same in both if and only if it does not depend on the layout. -/
theorem Linearizes.load_eq_iff (h : lin.Linearizes skb) (width : Width) (k : ℤ) :
    (skb.load width k).1 = (lin.load width k).1 ↔ SteadyLoad skb lin width k := by
  have had : skfAdOff < 0 := by decide
  by_cases hk : 0 ≤ k
  · rw [load_nonneg _ _ hk, load_nonneg _ _ hk, h.len, h.bytes]
    exact iff_of_true rfl fun _ hlt ↦ by omega
  have hload : ∀ x : SkBuff, (x.load width k).1 = if skfAdOff ≤ k then x.ancillary k else
      (x.loadPointer k).map fun ptr ↦ ntoh (x.bytesAt ptr width.size) := by
    intro x
    rw [load, if_neg (by omega), if_pos (by omega)]
    split
    · rfl
    · cases x.loadPointer k <;> rfl
  rw [hload, hload]
  by_cases hoff : skfAdOff ≤ k
  · rw [if_pos hoff, if_pos hoff, ancillary, ancillary, h.protocol, h.pktType, h.ifindex]
    exact iff_of_true rfl fun _ hlt ↦ by omega
  rw [if_neg hoff, if_neg hoff]
  by_cases hll : skfLlOff ≤ k
  · have hroom := h.room_le
    rw [loadPointer_eq, loadPointer_eq, h.offsetOf hll]
    by_cases hskb : skb.offsetOf k < skb.room
    · rw [if_pos hskb, if_pos (by omega), Option.map_some, Option.map_some, Option.some_inj]
      refine ⟨fun heq _ _ ↦ Or.inr (Or.inr ⟨hskb, heq⟩), fun hs ↦ ?_⟩
      rcases hs hll (by omega) with hle | hin | ⟨-, heq⟩
      · omega
      · rw [h.bytesAt_head_eq hin]
      · exact heq
    · rw [if_neg hskb]
      by_cases hlin : skb.offsetOf k < lin.room
      · rw [if_pos hlin]
        refine ⟨by rintro ⟨⟩, fun hs ↦ ?_⟩
        have hpos := Width.size_pos width
        rcases hs hll (by omega) with hle | hin | ⟨hlt, -⟩ <;> omega
      · rw [if_neg hlin]
        exact iff_of_true rfl fun _ _ ↦ Or.inl (by omega)
  · rw [loadPointer_of_lt _ (by omega), loadPointer_of_lt _ (by omega)]
    exact iff_of_true rfl fun hle _ ↦ absurd hle hll

/-- **`BPF_MSH`** does the same in both if and only if it does not depend on the layout. -/
theorem Linearizes.loadMsh_eq_iff (h : lin.Linearizes skb) (k : ℤ) :
    (skb.loadMsh k).1 = (lin.loadMsh k).1 ↔ SteadyMsh skb lin k := by
  have hlen : skb.headlen ≤ skb.len := Nat.sub_le _ _
  rw [SteadyMsh]
  split
  · rename_i hk
    rw [loadMsh, loadMsh, h.headlen]
    by_cases hin : k < skb.headlen
    · rw [if_neg (by omega), if_neg (by omega)]
      dsimp only
      rw [ofInt_of_nonneg hk, h.memory_eq (by omega)]
      exact iff_of_true rfl (Or.inl hin)
    · rw [if_pos (by omega)]
      by_cases hend : (skb.len : ℤ) ≤ k
      · rw [if_pos (by omega)]
        exact iff_of_true rfl (Or.inr hend)
      · rw [if_neg (by omega)]
        exact iff_of_false (by rintro ⟨⟩) (by omega)
  · rename_i hk
    refine ⟨Or.inr, fun hs ↦ hs.elim (fun hin ↦ ?_) id⟩
    rw [loadMsh, loadMsh, if_neg (by omega), if_neg (by omega)]
    have hdata : ∀ x : SkBuff, x.data - x.head = skb.data - skb.head → x.data + BitVec.ofInt 32 k =
        x.head + BitVec.ofNat 32 (skb.data.toNat + k - skb.head.toNat).toNat := by
      intro x hx
      have hoff : skb.data - skb.head + BitVec.ofInt 32 k =
          BitVec.ofNat 32 (skb.data.toNat + k - skb.head.toNat).toNat := by
        refine BitVec.eq_of_toNat_eq ?_
        rw [BitVec.toNat_add, BitVec.toNat_sub, BitVec.toNat_ofInt, BitVec.toNat_ofNat]
        omega
      rw [← hoff, ← hx, ← add_assoc, add_sub_cancel]
    dsimp only
    rw [hdata lin h.headroom, hdata skb rfl, h.memory_head_eq]
    rw [room, skb.tail_toNat]
    omega

end SkBuff

variable {P : Prog} {skb lin : SkBuff} {s : FilterState}

/-! ## Every instruction -/

/-- The instruction does not depend on the layout. -/
def steadyOp (skb lin : SkBuff) (fentry : SockFilter) (s : FilterState) : Op → Prop
  | .ldAbs width => skb.SteadyLoad lin width fentry.k.toInt
  | .ldInd width => skb.SteadyLoad lin width (s.X + fentry.k).toInt
  | .ldxMsh => skb.SteadyMsh lin fentry.k.toInt
  | .ldLen | .ldxLen => skb.dataLen = 0
  | _ => True

/-- The instruction that is done in a state does not. -/
def Prog.Steady (P : Prog) (skb lin : SkBuff) (s : FilterState) : Prop :=
  s.pc.toInt < P.flen → ∀ op ∈ decode (P.fentry s).code, steadyOp skb lin (P.fentry s) s op

theorem setA_inj {a b : Option (BitVec 32)} : s.setA a = s.setA b ↔ a = b := by
  refine ⟨fun h ↦ ?_, fun h ↦ by rw [h]⟩
  cases a <;> cases b <;> first | rfl | (injection h with h; cases h; rfl) | cases h

theorem setX_inj {a b : Option (BitVec 32)} : s.setX a = s.setX b ↔ a = b := by
  refine ⟨fun h ↦ ?_, fun h ↦ by rw [h]⟩
  cases a <;> cases b <;> first | rfl | (injection h with h; cases h; rfl) | cases h

theorem headlen_eq_iff (h : lin.Linearizes skb) :
    (some (BitVec.ofNat 32 skb.headlen) = some (BitVec.ofNat 32 lin.headlen)) ↔
      skb.dataLen = 0 := by
  have hlen := skb.len_lt
  have hdata := skb.dataLen_le
  rw [Option.some_inj, h.headlen, SkBuff.headlen]
  refine ⟨fun heq ↦ ?_, fun hzero ↦ by rw [hzero, Nat.sub_zero]⟩
  have hnat := congrArg BitVec.toNat heq
  rw [BitVec.toNat_ofNat, BitVec.toNat_ofNat] at hnat
  omega

theorem exec_next_eq_iff (h : lin.Linearizes skb) (fentry : SockFilter) (s : FilterState)
    (op : Op) :
    (exec skb fentry s op).next = (exec lin fentry s op).next ↔ steadyOp skb lin fentry s op := by
  cases op with
  | ldAbs width | ldInd width => exact setA_inj.trans (h.load_eq_iff width _)
  | ldxMsh => exact setX_inj.trans (h.loadMsh_eq_iff _)
  | ldLen => exact setA_inj.trans (headlen_eq_iff h)
  | ldxLen => exact setX_inj.trans (headlen_eq_iff h)
  | _ => exact iff_of_true rfl trivial

theorem step_eq_iff (h : lin.Linearizes skb) (P : Prog) (s : FilterState) :
    P.step skb s = P.step lin s ↔ P.Steady skb lin s := by
  rw [Prog.step, Prog.step, Prog.effect, Prog.effect, Prog.Steady]
  split
  · exact iff_of_true rfl fun hlt ↦ by omega
  · rename_i hin
    rw [not_le] at hin
    cases hdec : decode (P.fentry s).code with
    | none => simp
    | some op =>
      simp only [Option.mem_def, Option.some_inj, forall_eq']
      exact (exec_next_eq_iff h (P.fentry s) s op).trans ⟨fun hs _ ↦ hs, fun hs ↦ hs hin⟩

/-- **The layout of a packet** makes no difference to any state that a filter comes through, nor to
the value it returns, if and only if every instruction that is done is one that does not depend on
it: no `BPF_LEN` unless the packet is in one piece, no `BPF_MSH` between the end of the first piece
and the end of the packet, and no header-relative load that begins there or reads something else. -/
theorem layout_independent_iff (P : Prog) (h : lin.Linearizes skb) (mem : ℕ → BitVec 32) :
    (∀ n, visited skb P mem n = visited lin P mem n ∧
        skRunFilter skb P mem n = skRunFilter lin P mem n) ↔
      ∀ n, ∀ s ∈ visited skb P mem n, P.Steady skb lin s :=
  Interp.same_iff.trans (forall_congr' fun _ ↦ forall₂_congr fun s _ ↦ step_eq_iff h P s)

/-- Then the value that is returned is the same. -/
theorem skRunFilter_eq_of_steady (P : Prog) (h : lin.Linearizes skb) (mem : ℕ → BitVec 32)
    (hs : ∀ n, ∀ s ∈ visited skb P mem n, P.Steady skb lin s) (n : ℕ) :
    skRunFilter skb P mem n = skRunFilter lin P mem n :=
  (Interp.same_iff.2 (fun n s hmem ↦ (step_eq_iff h P s).2 (hs n s hmem)) n).2

/-- The packet `twoBytes`, with the second byte in a fragment. -/
def splitBytes : SkBuff :=
  { twoBytes with
    tail := 0x1011
    dataLen := 1
    frags := [[0x11]]
    tail_eq := by decide
    dataLen_le := by decide
    frags_length := rfl }

theorem twoBytes_linearizes : twoBytes.Linearizes splitBytes :=
  ⟨rfl, rfl, by decide, rfl, fun _ _ ↦ rfl, rfl, rfl, rfl, rfl, rfl⟩

/-- `ldb [1]; ret a`. -/
def secondByte : Prog := .ofList [⟨Op.code (.ldAbs .b), 0, 0, 1⟩, ⟨Op.retA.code, 0, 0, 0⟩]

theorem secondByte_steady (s : FilterState) : secondByte.Steady splitBytes twoBytes s := by
  intro hlt op hop
  have hidx : s.pc.toInt.toNat = 0 ∨ s.pc.toInt.toNat = 1 := by
    have : s.pc.toInt < 2 := hlt
    omega
  have hfentry : secondByte.fentry s = [⟨Op.code (.ldAbs .b), 0, 0, 1⟩,
      ⟨Op.retA.code, 0, 0, 0⟩].getD s.pc.toInt.toNat ⟨0, 0, 0, 0⟩ := rfl
  rw [hfentry] at hop ⊢
  rcases hidx with hidx | hidx
  · rw [hidx] at hop ⊢
    obtain rfl : Op.ldAbs .b = op := Option.some_inj.1 hop
    exact fun _ hneg ↦ absurd hneg (by decide)
  · rw [hidx] at hop ⊢
    obtain rfl : Op.retA = op := Option.some_inj.1 hop
    exact trivial

/-- The byte is found in both. -/
theorem layout_independent_iff_second : secondByte.Accepted ∧
    skRunFilter splitBytes secondByte (fun _ ↦ 0) 2 =
      skRunFilter twoBytes secondByte (fun _ ↦ 0) 2 :=
  ⟨by decide, ((layout_independent_iff secondByte twoBytes_linearizes fun _ ↦ 0).2
    (fun _ s _ ↦ secondByte_steady s) 2).2⟩

/-- `ld len; ret a`. -/
def lenProg : Prog := .ofList [⟨Op.ldLen.code, 0, 0, 0⟩, ⟨Op.retA.code, 0, 0, 0⟩]

/-- The length of the packet depends on its layout. -/
theorem layout_shows : twoBytes.Linearizes splitBytes ∧ lenProg.Accepted ∧
    skRunFilter splitBytes lenProg (fun _ ↦ 0) 2 = some (.ret 1) ∧
    skRunFilter twoBytes lenProg (fun _ ↦ 0) 2 = some (.ret 2) :=
  ⟨twoBytes_linearizes, by decide, by decide, by decide⟩

end Linux24.Net
