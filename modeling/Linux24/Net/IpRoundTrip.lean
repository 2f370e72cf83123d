import Linux24.Net.FragExact
import Linux24.Net.IpFragment

/-!
# What has been fragmented can be put together again

`Fragment` says what a fragment of a datagram is, as bytes; the datagram itself is one.  If a
fragment is given to `ip_fragment`, then what comes out are fragments of the same datagram that are
no longer than allowed and that make up the fragment (`ipFragment_spec`).  So a router on the way
may fragment what has been fragmented before, and the result still makes up the datagram
(`Tiles.refragment`).

In the end the fragments are given to `ip_defrag`, in any order.  They are all needed, so the
datagram is complete when the last of them arrives and not before, and then it has the payload that
it had in the beginning (`fragment_reassemble`).
-/

set_option autoImplicit false

universe u

namespace Linux24.Ip

open Intervals List
open Frag (World Packet Complete Piece Session)

section Offsets

variable (f : List Byte)

/-- `IP_OFFSET`, in bytes. -/
def offset : ℕ := get16 f 6 % 2 ^ 13 * 8

/-- `IP_MF`. -/
def mf : Bool := get16 f 6 / 2 ^ 13 % 2 = 1

/-- The first byte of the datagram that comes after the fragment. -/
def stop : ℕ := offset f + (f.length - 20)

end Offsets

/-- The packet has no options, and it is a fragment of a datagram with the payload `D`. -/
structure Fragment (D f : List Byte) : Prop where
  header : byte f 0 % 16 = 5
  length : 20 < f.length
  totLen : get16 f 2 = f.length
  slice : f.drop 20 = (D.drop (offset f)).take (f.length - 20)
  inside : stop f ≤ D.length
  last : mf f = false ↔ stop f = D.length
  aligned : mf f = true → 8 ∣ f.length - 20

/-! ## One fragment -/

section Lengths

variable {mtu left : ℕ}

theorem fragLen_le (mtu left : ℕ) : fragLen mtu left ≤ left := by
  unfold fragLen
  dsimp only
  split_ifs <;> omega

theorem fragLen_le_mtu (mtu left : ℕ) : fragLen mtu left ≤ mtu := by
  unfold fragLen
  dsimp only
  split_ifs <;> omega

theorem fragLen_pos (hmtu : 8 ≤ mtu) (hleft : 0 < left) : 0 < fragLen mtu left := by
  unfold fragLen
  dsimp only
  split_ifs <;> omega

/-- All fragments but the last have a length that is a multiple of eight. -/
theorem dvd_fragLen (h : fragLen mtu left < left) : 8 ∣ fragLen mtu left := by
  unfold fragLen at h ⊢
  dsimp only at h ⊢
  split_ifs at h ⊢
  all_goals first
    | exact Dvd.intro_left _ rfl
    | omega

end Lengths

/-- The field for offset and flags. -/
theorem or_more_fragments {a : ℕ} (ha : a < 2 ^ 13) (more : Prop) [Decidable more] :
    a % 2 ^ 16 ||| (if more then 0x2000 else 0) = a + if more then 2 ^ 13 else 0 := by
  rw [Nat.mod_eq_of_lt (by omega)]
  split
  · rw [show (0x2000 : ℕ) = 2 ^ 13 * 1 by norm_num, Nat.or_comm, ← Nat.two_pow_add_eq_or_of_lt ha]
    omega
  · simp

section Pieces

variable {D f : List Byte} {mtu : ℕ} {s : Loop}

/-- Where the loop is when it has come to `s`, for the packet `f`. -/
structure Loop.At (f : List Byte) (s : Loop) : Prop where
  skb : s.skb = ⟨f, 0⟩
  ptr : 20 ≤ s.ptr
  left : s.ptr + s.left = f.length
  offset : s.offset + 20 = Ip.offset f + s.ptr
  aligned : 0 < s.left → 8 ∣ s.offset

/-- There are no options to be walked through. -/
theorem Loop.next_skb (h : s.skb = ⟨f, 0⟩) : (s.next mtu).skb = ⟨f, 0⟩ := by
  by_cases h0 : s.offset = 0
  · refine (if_pos h0).trans ?_
    rw [h]
    rfl
  · exact (if_neg h0).trans h

theorem Loop.At.next (h : s.At f) (mtu : ℕ) : (s.next mtu).At f where
  skb := Loop.next_skb h.skb
  ptr := h.ptr.trans (Nat.le_add_right _ _)
  left := by
    have hleft := h.left
    have hle := fragLen_le mtu s.left
    change s.ptr + fragLen mtu s.left + (s.left - fragLen mtu s.left) = f.length
    omega
  offset := by
    have hoff := h.offset
    change s.offset + fragLen mtu s.left + 20 = Ip.offset f + (s.ptr + fragLen mtu s.left)
    omega
  aligned hpos := by
    have hlt : fragLen mtu s.left < s.left := Nat.lt_of_sub_pos hpos
    exact dvd_add (h.aligned (by omega)) (dvd_fragLen hlt)

theorem Loop.At.length_copy (h : s.At f) : (s.skb.data.take 20 ++
    (s.skb.data.drop s.ptr).take (fragLen mtu s.left)).length = 20 + fragLen mtu s.left := by
  have hle := fragLen_le mtu s.left
  have hptr := h.ptr
  have hend := h.left
  simp only [h.skb, length_append, length_take, length_drop]
  omega

theorem Loop.At.length_fragment (h : s.At f) (mtu : ℕ) (notLast : Bool) :
    (s.fragment 20 mtu notLast).length = 20 + fragLen mtu s.left := by
  rw [Loop.fragment]
  simp [h.length_copy]

theorem Loop.At.fragOff_fragment (h : s.At f) (mtu : ℕ) (notLast : Bool)
    (hoff : s.offset < 2 ^ 16) : get16 (s.fragment 20 mtu notLast) 6 = s.offset / 8 +
      if 0 < s.left - fragLen mtu s.left ∨ notLast = true then 2 ^ 13 else 0 := by
  rw [← or_more_fragments (by omega), Loop.fragment,
    get16_congr (getD_ipSendCheck (by omega) (by omega)) (getD_ipSendCheck (by omega) (by omega)),
    get16_congr (getD_put16 (by omega) (by omega)) (getD_put16 (by omega) (by omega)),
    get16_put16 (by rw [h.length_copy]; omega) ?_]
  rw [or_more_fragments (by omega)]
  split <;> omega

theorem Loop.At.totLen_fragment (h : s.At f) (mtu : ℕ) (notLast : Bool)
    (hleft : s.left + 20 < 2 ^ 16) :
    get16 (s.fragment 20 mtu notLast) 2 = 20 + fragLen mtu s.left := by
  have hle := fragLen_le mtu s.left
  rw [Loop.fragment,
    get16_congr (getD_ipSendCheck (by omega) (by omega)) (getD_ipSendCheck (by omega) (by omega)),
    get16_put16 (by rw [length_put16, h.length_copy]; omega) (by omega), add_comm]

/-- What is left of the packet is a part of the payload. -/
theorem Loop.At.slice (h : s.At f) (hf : Fragment D f) :
    f.drop s.ptr = (D.drop s.offset).take s.left := by
  have hptr := h.ptr
  have hend := h.left
  have hoff := h.offset
  have hfrom : Ip.offset f + (s.ptr - 20) = s.offset := by omega
  have hlen : f.length - 20 - (s.ptr - 20) = s.left := by omega
  rw [← Nat.add_sub_cancel' hptr, ← drop_drop, hf.slice, drop_take, drop_drop, hfrom, hlen]

/-- **The next fragment** is one of the datagram: it begins where the loop is, and it has so many
bytes. -/
theorem Loop.At.fragment (h : s.At f) (hf : Fragment D f) (hD : D.length + 20 < 2 ^ 16)
    (hmtu : 8 ≤ mtu) (hleft : 0 < s.left) : Fragment D (s.fragment 20 mtu (mf f)) ∧
      Ip.offset (s.fragment 20 mtu (mf f)) = s.offset := by
  have hdata : s.skb.data = f := by rw [h.skb]
  have hle := fragLen_le mtu s.left
  have hpos := fragLen_pos hmtu hleft
  have hptr := h.ptr
  have hend := h.left
  have hoff := h.offset
  have hin := hf.inside
  have h8 := h.aligned hleft
  have hstop : stop f = s.offset + s.left := by
    rw [stop]
    omega
  have hlen := h.length_fragment mtu (mf f)
  have hfield := h.fragOff_fragment mtu (mf f) (by omega)
  have htot := h.totLen_fragment mtu (mf f) (by omega)
  have hstart : Ip.offset (s.fragment 20 mtu (mf f)) = s.offset := by
    rw [Ip.offset, hfield]
    split <;> omega
  have hmore : mf (s.fragment 20 mtu (mf f)) = true ↔
      0 < s.left - fragLen mtu s.left ∨ mf f = true := by
    rw [mf, hfield, decide_eq_true_eq]
    split
    · rename_i hm
      exact ⟨fun _ ↦ hm, fun _ ↦ by omega⟩
    · rename_i hm
      exact ⟨fun h1 ↦ by omega, fun h1 ↦ absurd h1 hm⟩
  have hend' : stop (s.fragment 20 mtu (mf f)) = s.offset + fragLen mtu s.left := by
    rw [stop]
    omega
  refine ⟨⟨?_, by omega, htot.trans hlen.symm, ?_, by omega, ?_, fun hm ↦ ?_⟩, hstart⟩
  · rw [byte, Loop.getD_fragment (by omega) (by rw [hdata]; omega) (by omega) (by decide), hdata]
    exact hf.header
  · -- a slice of a slice
    rw [Loop.drop_fragment, hdata, drop_left' (by rw [length_take]; omega), h.slice hf,
      take_take, hstart, hlen, Nat.min_eq_left hle, Nat.add_sub_cancel_left]
  · rw [← Bool.not_eq_true, hmore, not_or, Bool.not_eq_true, hf.last]
    omega
  · rw [hlen, Nat.add_sub_cancel_left]
    rcases lt_or_ge (fragLen mtu s.left) s.left with hlt | hge
    · exact dvd_fragLen hlt
    · have hall := hf.aligned ((hmore.1 hm).resolve_left (by omega))
      rw [Ip.offset] at hoff
      omega

/-- **The whole loop**: fragments of the datagram that make up what is left. -/
theorem Loop.At.run (h : s.At f) (hf : Fragment D f) (hD : D.length + 20 < 2 ^ 16) (hmtu : 8 ≤ mtu)
    {fuel : ℕ} (hfuel : s.left < fuel) (n : ℕ) :
    ∃ frags, s.run 20 mtu (mf f) .fine fuel n = (frags, some 0) ∧
      (∀ g ∈ frags, Fragment D g ∧ g.length ≤ 20 + mtu) ∧
      Tiles Ip.offset Ip.stop s.offset frags (s.offset + s.left) := by
  induction fuel generalizing s n with
  | zero => omega
  | succ fuel ih =>
    rw [Loop.run]
    split
    · rename_i h0
      exact ⟨[], rfl, by simp, h0 ▸ rfl⟩
    · rename_i h0
      have hleft : 0 < s.left := Nat.pos_of_ne_zero h0
      have hpos := fragLen_pos hmtu hleft
      have hle := fragLen_le mtu s.left
      obtain ⟨hfrag, hstart⟩ := h.fragment hf hD hmtu hleft
      have hlen := h.length_fragment mtu (mf f)
      obtain ⟨frags, hrun, hall, htiles⟩ := ih (h.next mtu)
        (by change s.left - fragLen mtu s.left < fuel; omega) (n + 1)
      refine ⟨s.fragment 20 mtu (mf f) :: frags, ?_, forall_mem_cons.2 ⟨⟨hfrag, ?_⟩, hall⟩,
        hstart, ?_⟩
      · simp only [Env.fine, Bool.true_eq_false, if_false, ne_eq, not_true_eq_false]
        rw [← Env.fine, hrun]
      · have hmax := fragLen_le_mtu mtu s.left
        omega
      · have hnext : (s.next mtu).offset = stop (s.fragment 20 mtu (mf f)) := by
          rw [stop, hstart, hlen, Nat.add_sub_cancel_left]
          rfl
        have hend : (s.next mtu).offset + (s.next mtu).left = s.offset + s.left := by
          change s.offset + fragLen mtu s.left + (s.left - fragLen mtu s.left) = _
          omega
        rw [← hnext, ← hend]
        exact htiles

end Pieces

/-- What `ip_fragment` makes of a packet without options, when no call fails. -/
def fragments (pmtu : BitVec 32) (f : List Byte) : List (List Byte) :=
  (ipFragment .fine f.length pmtu ⟨f, 0⟩).1

/-- **`ip_fragment`** comes to an end, and the fragments are fragments of the datagram that are not
too long and that make up the packet. -/
theorem ipFragment_spec {D f : List Byte} (hf : Fragment D f) (hD : D.length + 20 < 2 ^ 16)
    {pmtu : BitVec 32} (hpmtu : 28 ≤ pmtu.toNat) :
    ipFragment .fine f.length pmtu ⟨f, 0⟩ = (fragments pmtu f, some 0) ∧
      (∀ g ∈ fragments pmtu f, Fragment D g ∧ g.length ≤ pmtu.toNat) ∧
      Tiles offset stop (offset f) (fragments pmtu f) (stop f) := by
  have hlong := hf.length
  have hin := hf.inside
  rw [stop] at hin
  have hhlen : headerLen f = 20 := by rw [headerLen, hf.header]
  have hmtu : (pmtu - BitVec.ofNat 32 20).toNat = pmtu.toNat - 20 := by
    rw [BitVec.toNat_sub_of_le (by rw [BitVec.le_def]; simp; omega)]
    rfl
  have hleft : (BitVec.ofNat 32 f.length - BitVec.ofNat 32 20).toNat = f.length - 20 := by
    rw [BitVec.toNat_sub_of_le (by rw [BitVec.le_def]; simp; omega), BitVec.toNat_ofNat,
      Nat.mod_eq_of_lt (by omega)]
    rfl
  have hat : Loop.At f ⟨⟨f, 0⟩, f.length - 20, 20, offset f⟩ :=
    ⟨rfl, le_rfl, Nat.add_sub_cancel' hlong.le, rfl, fun _ ↦ Dvd.intro_left _ rfl⟩
  have hmtu8 : 8 ≤ pmtu.toNat - 20 := by omega
  have hfuel : f.length - 20 < f.length := by omega
  obtain ⟨frags, hrun, hall, htiles⟩ := hat.run hf hD hmtu8 hfuel 0
  have hfrags : ipFragment .fine f.length pmtu ⟨f, 0⟩ = (frags, some 0) := by
    rw [ipFragment]
    rw [hhlen, hmtu, hleft]
    exact hrun
  have heq : fragments pmtu f = frags := by rw [fragments, hfrags]
  rw [heq]
  refine ⟨hfrags, fun g hg ↦ ⟨(hall g hg).1, ?_⟩, htiles⟩
  have hg := (hall g hg).2
  omega

/-- What `ip_find` reads: `id`, `protocol`, `saddr` and `daddr`. -/
def keyBytes : List ℕ := [4, 5, 9, 12, 13, 14, 15, 16, 17, 18, 19]

/-- The packets are for the same queue. -/
def SameKey (d f : List Byte) : Prop := ∀ i ∈ keyBytes, f.getD i 0 = d.getD i 0

theorem sameKey_of_mem {f g : List Byte} (hheader : byte f 0 % 16 = 5) (hlong : 20 ≤ f.length)
    {pmtu : BitVec 32} (hg : g ∈ fragments pmtu f) : SameKey f g := by
  rw [fragments, ipFragment, show headerLen f = 20 by rw [headerLen, hheader]] at hg
  obtain ⟨t, ht, rfl⟩ := Loop.run_invariant (P := fun t ↦ t.skb = ⟨f, 0⟩)
    (fun _ ↦ Loop.next_skb) rfl g hg
  intro i hi
  have hfield : ∀ i ∈ keyBytes, i < 20 ∧ i ∉ [2, 3, 6, 7, 10, 11] := by decide
  rw [Loop.getD_fragment le_rfl (by rw [ht]; exact hlong) (hfield i hi).1 (hfield i hi).2, ht]

/-- What becomes of the fragments on the way: some of them are fragmented again, each for the `pmtu`
that is given for it. -/
def refragment (pmtu : List Byte → Option (BitVec 32)) (frags : List (List Byte)) :
    List (List Byte) :=
  frags.flatMap fun f ↦
    match pmtu f with
    | none => [f]
    | some m => fragments m f

/-- **Fragments of fragments** are fragments of the datagram, and they still make it up. -/
theorem refragment_spec {D : List Byte} (hD : D.length + 20 < 2 ^ 16) {frags : List (List Byte)}
    (hfrags : ∀ f ∈ frags, Fragment D f) {lo hi : ℕ} (htiles : Tiles offset stop lo frags hi)
    {pmtu : List Byte → Option (BitVec 32)} (hpmtu : ∀ f m, pmtu f = some m → 28 ≤ m.toNat) :
    (∀ g ∈ refragment pmtu frags, Fragment D g) ∧
      Tiles offset stop lo (refragment pmtu frags) hi := by
  have hone : ∀ f ∈ frags, Tiles offset stop (offset f)
      (match pmtu f with | none => [f] | some m => fragments m f) (stop f) ∧
      ∀ g ∈ (match pmtu f with | none => [f] | some m => fragments m f), Fragment D g := by
    intro f hf
    cases hm : pmtu f with
    | none => exact ⟨⟨rfl, rfl⟩, fun g hg ↦ mem_singleton.1 hg ▸ hfrags f hf⟩
    | some m =>
      obtain ⟨-, hall, htile⟩ := ipFragment_spec (hfrags f hf) hD (hpmtu f m hm)
      exact ⟨htile, fun g hg ↦ (hall g hg).1⟩
  refine ⟨fun g hg ↦ ?_, htiles.flatMap fun f hf ↦ (hone f hf).1⟩
  obtain ⟨f, hf, hg⟩ := mem_flatMap.1 hg
  exact (hone f hf).2 g hg

/-- A fragment of a fragment still has the key of the datagram. -/
theorem SameKey.refragment {D d : List Byte} {frags : List (List Byte)}
    (hfrags : ∀ f ∈ frags, Fragment D f ∧ SameKey d f) (pmtu : List Byte → Option (BitVec 32)) :
    ∀ g ∈ refragment pmtu frags, SameKey d g := by
  intro g hg
  obtain ⟨f, hf, hg⟩ := mem_flatMap.1 hg
  obtain ⟨hfrag, hkey⟩ := hfrags f hf
  cases hm : pmtu f with
  | none =>
    rw [hm, mem_singleton] at hg
    exact hg ▸ hkey
  | some m =>
    rw [hm] at hg
    have hkey' := sameKey_of_mem hfrag.header hfrag.length.le hg
    exact fun i hi ↦ (hkey' i hi).trans (hkey i hi)

/-! ## Delivery -/

/-- The packet, as `ip_defrag` gets it. -/
def packet (truesize : ℕ) (f : List Byte) : Packet where
  fragOff := BitVec.ofNat 16 (get16 f 6)
  ihl := BitVec.ofNat 4 (byte f 0)
  bytes := f
  truesize := truesize

section Delivery

variable {D f : List Byte} {n : ℕ}

theorem get16_lt (l : List Byte) (i : ℕ) : get16 l i < 2 ^ 16 := by
  have hhigh : byte l i < 256 := (l.getD i 0).isLt
  have hlow : byte l (i + 1) < 256 := (l.getD (i + 1) 0).isLt
  rw [get16]
  omega

theorem packet_offset : (packet n f).offset = offset f := by
  have hlt := get16_lt f 6
  have hmask : (BitVec.ofNat 16 (get16 f 6) &&& 0x1fff).toNat = get16 f 6 % 2 ^ 13 := by
    rw [BitVec.toNat_and, BitVec.toNat_ofNat, Nat.mod_eq_of_lt hlt,
      show (0x1fff : BitVec 16).toNat = 2 ^ 13 - 1 by decide, Nat.and_two_pow_sub_one_eq_mod]
  rw [offset, ← hmask]
  rfl

theorem packet_mf : (packet n f).mf = mf f := by
  have hlt := get16_lt f 6
  have hbit : BitVec.ofNat 16 (get16 f 6) &&& 0x2000 ≠ 0 ↔ get16 f 6 / 2 ^ 13 % 2 = 1 := by
    rw [Ne, ← BitVec.toNat_inj, BitVec.toNat_and, BitVec.toNat_ofNat, Nat.mod_eq_of_lt hlt,
      show (0x2000 : BitVec 16).toNat = 2 ^ 13 by decide, Nat.and_two_pow,
      Nat.testBit_eq_decide_div_mod_eq]
    simp
  exact decide_eq_decide.2 hbit

/-- A fragment is a fragment in the sense of reassembly. -/
theorem Fragment.piece (hf : Fragment D f) (hD : D.length + 20 < 2 ^ 16) (n : ℕ) :
    Piece D (packet n f) := by
  have hlong := hf.length
  have hin := hf.inside
  have hlast := hf.last
  have hihl : (packet n f).ihlen = 20 := by
    rw [Packet.ihlen, packet, BitVec.toNat_ofNat, hf.header]
  have hpayload : (packet n f).payload = f.drop 20 := by
    rw [Packet.payload, hihl]
    rfl
  have hlen : (packet n f).payload.length = f.length - 20 := by rw [hpayload, length_drop]
  refine ⟨?_, ?_, ?_, ?_, ?_, Or.inr (Or.inr fun hnil ↦ ?_), fun _ ↦ ?_⟩
  · rw [hihl]
    exact hlong.le
  · rw [hlen, packet_offset, hpayload]
    exact hf.slice
  · rw [hlen, packet_offset]
    exact hin
  · rw [hlen, packet_offset, packet_mf]
    exact hlast
  · rw [hlen, packet_mf]
    exact hf.aligned
  · rw [hnil, length_nil] at hlen
    omega
  · omega

/-- Packets are given to `ip_defrag` one after the other: what is returned for them. -/
def deliver {κ : Type u} [DecidableEq κ] (sizeofIpq : ℕ) (k : κ) :
    World κ → List (Frag.Env × Packet) →
      Except Frag.Trap (World κ × List (Option Frag.Datagram))
  | w, [] => .ok (w, [])
  | w, (env, p) :: l =>
    match w.ipDefrag sizeofIpq env k p with
    | .error trap => .error trap
    | .ok (w, ret) => (deliver sizeofIpq k w l).map fun r ↦ (r.1, ret :: r.2)

/-- **The last of the packets completes the datagram**, if they are all needed. -/
theorem deliver_spec {κ : Type u} [DecidableEq κ] {sizeofIpq : ℕ} {m₀ : ℤ} {k : κ}
    {s : Session κ} (hs : s.Ok sizeofIpq m₀ D k) (x : Frag.Env × Packet)
    {l : List (Frag.Env × Packet)} (hfine : ∀ y ∈ x :: l, y.1.Fine)
    (hpiece : ∀ y ∈ x :: l, Piece D y.2)
    (hneed : ∀ l', s.received <+: l' → l' <+: s.received ++ (x :: l).map Prod.snd →
      (Complete D l' ↔ l' = s.received ++ (x :: l).map Prod.snd)) :
    ∃ w' d, deliver sizeofIpq k s.world (x :: l) =
      .ok (w', List.replicate l.length none ++ [some d]) ∧ d.payload = D := by
  induction l generalizing s x with
  | nil =>
    obtain ⟨env, p⟩ := x
    obtain ⟨w', ret, hdefrag, hcase⟩ := hs.defrag (hfine _ mem_cons_self)
      (hpiece _ mem_cons_self)
    have hall : Complete D (s.received ++ [p]) :=
      (hneed _ (prefix_append _ _) prefix_rfl).2 rfl
    rcases hcase with ⟨hnot, -⟩ | ⟨-, -, d, rfl, hd⟩
    · exact absurd hall hnot
    · refine ⟨w', d, ?_, hd⟩
      rw [deliver, hdefrag]
      rfl
  | cons y l ih =>
    obtain ⟨env, p⟩ := x
    have henv : env.Fine := hfine _ mem_cons_self
    have hp : Piece D p := hpiece _ mem_cons_self
    obtain ⟨w', ret, hdefrag, hcase⟩ := hs.defrag henv hp
    have hnot : ¬ Complete D (s.received ++ [p]) := by
      rw [hneed _ (prefix_append _ _) ⟨(y :: l).map Prod.snd, by simp⟩]
      simp
    rcases hcase with ⟨-, rfl, qp, hqp, -⟩ | ⟨hall, -⟩
    · have hstep : Session.exec sizeofIpq k s (.defrag env k p) =
          .ok ⟨w', s.received ++ [p]⟩ := by
        rw [Session.exec, World.exec, hdefrag]
        simp [Except.map, Session.receive, hqp]
      have hs' := hs.step (a := .defrag env k p) ⟨trivial, fun _ ↦ ⟨henv, hp⟩⟩ hstep
      obtain ⟨w'', d, hrest, hd⟩ := ih hs' y (fun z hz ↦ hfine z (mem_cons_of_mem _ hz))
        (fun z hz ↦ hpiece z (mem_cons_of_mem _ hz)) fun l' hle hle' ↦ by
          have heq : s.received ++ [p] ++ (y :: l).map Prod.snd =
              s.received ++ ((env, p) :: y :: l).map Prod.snd := by simp
          rw [heq] at hle' ⊢
          exact hneed l' ((prefix_append _ _).trans hle) hle'
      refine ⟨w'', d, ?_, hd⟩
      rw [deliver, hdefrag]
      simp only [hrest]
      rfl
    · exact absurd hall hnot

/-- Fragments that make up the datagram are all needed. -/
theorem complete_iff {ps l : List Packet} (hps : (ps.map fun p ↦ p.payload.length).sum =
    D.length) (hall : Complete D ps) (hpos : ∀ p ∈ ps, p.payload ≠ []) (hl : l <+: ps) :
    Complete D l ↔ l = ps := by
  refine ⟨fun h ↦ ?_, fun h ↦ h ▸ hall⟩
  obtain ⟨rest, rfl⟩ := hl
  have hsum := le_sum_of_covers (s := Packet.offset) h
  simp only [Nat.add_sub_cancel_left] at hsum
  cases rest with
  | nil => simp
  | cons p rest =>
    have hp := length_pos_of_ne_nil (hpos p (by simp))
    rw [map_append, sum_append, map_cons, sum_cons] at hps
    omega

/-- **Fragments that make up a datagram**, in any order. -/
theorem deliver_perm {κ : Type u} [DecidableEq κ] {sizeofIpq : ℕ} {m₀ : ℤ} {k : κ}
    {w : World κ} (hw : w.Ok sizeofIpq m₀) (hq : w.queues k = none)
    {arrivals : List (Frag.Env × ℕ × List Byte)} (hfine : ∀ x ∈ arrivals, x.1.Fine)
    {frags : List (List Byte)} (hperm : (arrivals.map fun x ↦ x.2.2).Perm frags)
    (hD : D.length + 20 < 2 ^ 16) (hfrags : ∀ f ∈ frags, Fragment D f)
    (htiles : Tiles offset stop 0 frags D.length) (hne : D ≠ []) :
    ∃ w' r, deliver sizeofIpq k w (arrivals.map fun x ↦ (x.1, packet x.2.1 x.2.2)) =
      .ok (w', List.replicate (arrivals.length - 1) none ++ [some r]) ∧ r.payload = D := by
  have hmem : ∀ x ∈ arrivals, Fragment D x.2.2 := fun x hx ↦
    hfrags _ (hperm.subset (mem_map_of_mem hx))
  have hpiece : ∀ x ∈ arrivals, Piece D (packet x.2.1 x.2.2) := fun x hx ↦
    (hmem x hx).piece hD _
  have hlen : ∀ x ∈ arrivals, (packet x.2.1 x.2.2).payload.length = x.2.2.length - 20 := by
    intro x hx
    rw [Packet.payload, length_drop, Packet.ihlen, packet, BitVec.toNat_ofNat,
      (hmem x hx).header]
  have hsum : ((arrivals.map fun x ↦ packet x.2.1 x.2.2).map fun p ↦ p.payload.length).sum =
      D.length := by
    have htotal := htiles.sum fun f _ ↦ Nat.le_add_right _ _
    rw [← htotal, zero_add, map_map, ← (hperm.map fun f ↦ stop f - offset f).sum_eq, map_map]
    refine congrArg sum (map_congr_left fun x hx ↦ ?_)
    rw [Function.comp_apply, Function.comp_apply, hlen x hx, stop, Nat.add_sub_cancel_left]
  have hall : Complete D (arrivals.map fun x ↦ packet x.2.1 x.2.2) := by
    intro y hy
    obtain ⟨f, hf, hle, hlt⟩ := htiles.covers zero_le hy
    obtain ⟨x, hx, rfl⟩ := mem_map.1 (hperm.mem_iff.2 hf)
    refine ⟨_, mem_map_of_mem hx, ?_, ?_⟩
    · rw [packet_offset]
      exact hle
    · rw [packet_offset, hlen x hx]
      exact hlt
  have hpos : ∀ p ∈ arrivals.map fun x ↦ packet x.2.1 x.2.2, p.payload ≠ [] := by
    intro p hp hnil
    obtain ⟨x, hx, rfl⟩ := mem_map.1 hp
    have hlong := (hmem x hx).length
    have hzero := hlen x hx
    rw [hnil, length_nil] at hzero
    omega
  have hs : Session.Ok sizeofIpq m₀ D k ⟨w, []⟩ :=
    ⟨hw, by simp, fun _ ↦ rfl, fun qp hqp ↦ absurd (hq.symm.trans hqp) (by simp)⟩
  cases arrivals with
  | nil =>
    obtain ⟨p, hp, -⟩ := hall 0 (length_pos_of_ne_nil hne)
    simp at hp
  | cons x l =>
    have hmap : ∀ y ∈ (x.1, packet x.2.1 x.2.2) :: l.map (fun x ↦ (x.1, packet x.2.1 x.2.2)),
        y.1.Fine ∧ Piece D y.2 := by
      intro y hy
      rw [← map_cons (f := fun x : Frag.Env × ℕ × List Byte ↦
        (x.1, packet x.2.1 x.2.2))] at hy
      obtain ⟨z, hz, rfl⟩ := mem_map.1 hy
      exact ⟨hfine z hz, hpiece z hz⟩
    have hneed : ∀ l', l' <+: ((x.1, packet x.2.1 x.2.2) ::
        l.map fun x ↦ (x.1, packet x.2.1 x.2.2)).map Prod.snd →
        (Complete D l' ↔ l' = ((x.1, packet x.2.1 x.2.2) ::
          l.map fun x ↦ (x.1, packet x.2.1 x.2.2)).map Prod.snd) := by
      rw [← map_cons (f := fun x : Frag.Env × ℕ × List Byte ↦ (x.1, packet x.2.1 x.2.2)), map_map]
      exact fun l' ↦ complete_iff hsum hall hpos
    obtain ⟨w', r, hdeliver, hr⟩ := deliver_spec hs _ (fun y hy ↦ (hmap y hy).1)
      (fun y hy ↦ (hmap y hy).2) fun l' _ ↦ hneed l'
    rw [length_map] at hdeliver
    exact ⟨w', r, hdeliver, hr⟩

end Delivery

/-- A datagram without options, all of which is there. -/
structure Datagram (d : List Byte) : Prop where
  header : byte d 0 % 16 = 5
  length : 20 ≤ d.length
  length_lt : d.length < 2 ^ 16
  totLen : get16 d 2 = d.length
  offset_eq : offset d = 0
  mf_eq : mf d = false

variable {d : List Byte}

theorem Datagram.fragment (h : Datagram d) (hne : d.drop 20 ≠ []) :
    Fragment (d.drop 20) d := by
  have hpos := length_pos_of_ne_nil hne
  rw [length_drop] at hpos
  have hstop : stop d = (d.drop 20).length := by
    rw [stop, h.offset_eq, length_drop, zero_add]
  refine ⟨h.header, by omega, h.totLen, ?_, hstop.le, ?_, fun hmf ↦ ?_⟩
  · rw [h.offset_eq, drop_zero, take_of_length_le (by rw [length_drop])]
  · exact ⟨fun _ ↦ hstop, fun _ ↦ h.mf_eq⟩
  · rw [h.mf_eq] at hmf
    cases hmf

/-- There is nothing to be sent for a datagram without payload. -/
theorem Datagram.ipFragment_nil (h : Datagram d) (hnil : d.drop 20 = [])
    (pmtu : BitVec 32) : ipFragment .fine d.length pmtu ⟨d, 0⟩ = ([], some 0) := by
  have hlen : d.length = 19 + 1 := by
    have hle := drop_eq_nil_iff.1 hnil
    have hge := h.length
    omega
  rw [ipFragment, headerLen, h.header]
  rw [hlen]
  exact if_pos (by decide : (BitVec.ofNat 32 (19 + 1) - BitVec.ofNat 32 (5 * 4)).toNat = 0)

/-- What the fragments of a datagram are, before and after some of them are fragmented again. -/
theorem Datagram.fragments_spec (h : Datagram d) {pmtu : BitVec 32} (hpmtu : 28 ≤ pmtu.toNat) :
    ipFragment .fine d.length pmtu ⟨d, 0⟩ = (fragments pmtu d, some 0) ∧
      (∀ f ∈ fragments pmtu d, Fragment (d.drop 20) f ∧ f.length ≤ pmtu.toNat) ∧
      Tiles offset stop 0 (fragments pmtu d) (d.drop 20).length := by
  by_cases hnil : d.drop 20 = []
  · have hfrags := h.ipFragment_nil hnil pmtu
    have heq : fragments pmtu d = [] := by rw [fragments, hfrags]
    rw [heq, hnil]
    exact ⟨hfrags, by simp, rfl⟩
  · have hfrag := h.fragment hnil
    have hlt := h.length_lt
    obtain ⟨hrun, hall, htiles⟩ := ipFragment_spec hfrag (by rw [length_drop]; omega) hpmtu
    rw [stop, h.offset_eq, zero_add, ← length_drop] at htiles
    exact ⟨hrun, hall, htiles⟩

/-- **To fragment and to reassemble is the identity on payloads.**  A datagram without options is
fragmented, some of the fragments are fragmented again, and what there is in the end arrives in any
order.  The fragments are not too long, are fragments of the datagram and make up its payload,
before and after they have been fragmented again, and they are for one queue; and `ip_defrag`
returns a datagram for the last of them to arrive and not before, which has the payload of the first
one.  (If there is no payload, then there are no fragments.) -/
theorem fragment_reassemble {d : List Byte} (h : Datagram d) (pmtu : BitVec 32)
    (hpmtu : 68 ≤ pmtu.toNat) (pmtu' : List Byte → Option (BitVec 32))
    (hpmtu' : ∀ f m, pmtu' f = some m → 68 ≤ m.toNat) :
    (ipFragment .fine d.length pmtu ⟨d, 0⟩ = (fragments pmtu d, some 0) ∧
      (∀ f ∈ fragments pmtu d, Fragment (d.drop 20) f ∧ f.length ≤ pmtu.toNat) ∧
      Tiles offset stop 0 (fragments pmtu d) (d.drop 20).length) ∧
    ((∀ f ∈ fragments pmtu d, ∀ m, pmtu' f = some m →
        ipFragment .fine f.length m ⟨f, 0⟩ = (fragments m f, some 0) ∧
        ∀ g ∈ fragments m f, g.length ≤ m.toNat) ∧
      (∀ f ∈ refragment pmtu' (fragments pmtu d), Fragment (d.drop 20) f ∧ SameKey d f) ∧
      Tiles offset stop 0 (refragment pmtu' (fragments pmtu d)) (d.drop 20).length) ∧
    ∀ {κ : Type u} [DecidableEq κ] (sizeofIpq : ℕ) (m₀ : ℤ) (k : κ) (w : World κ),
      (World.machine sizeofIpq m₀).Reachable w → w.queues k = none →
      ∀ arrivals : List (Frag.Env × ℕ × List Byte), (∀ x ∈ arrivals, x.1.Fine) →
      (arrivals.map fun x ↦ x.2.2).Perm (refragment pmtu' (fragments pmtu d)) →
      d.drop 20 ≠ [] →
      ∃ w' r, deliver sizeofIpq k w (arrivals.map fun x ↦ (x.1, packet x.2.1 x.2.2)) =
        .ok (w', List.replicate (arrivals.length - 1) none ++ [some r]) ∧
        r.payload = d.drop 20 := by
  have hD : (d.drop 20).length + 20 < 2 ^ 16 := by
    have hlt := h.length_lt
    rw [length_drop]
    omega
  obtain ⟨hrun, hall, htiles⟩ := h.fragments_spec (by omega : 28 ≤ pmtu.toNat)
  obtain ⟨hfinal, htiles'⟩ := refragment_spec hD (fun f hf ↦ (hall f hf).1) htiles
    (fun f m hm ↦ (by norm_num : 28 ≤ 68).trans (hpmtu' f m hm))
  have hkey := SameKey.refragment
    (fun f hf ↦ ⟨(hall f hf).1, sameKey_of_mem h.header h.length hf⟩) pmtu'
  refine ⟨⟨hrun, hall, htiles⟩,
    ⟨fun f hf m hm ↦ ?_, fun f hf ↦ ⟨hfinal f hf, hkey f hf⟩, htiles'⟩, ?_⟩
  · obtain ⟨hrun', hall', -⟩ := ipFragment_spec (hall f hf).1 hD
      ((by norm_num : 28 ≤ 68).trans (hpmtu' f m hm))
    exact ⟨hrun', fun g hg ↦ (hall' g hg).2⟩
  · intro κ _ sizeofIpq m₀ k w hw hq arrivals hfine hperm hne
    exact deliver_perm (.reachable hw) hq hfine hperm hD hfinal htiles' hne

/-- A datagram with 60 bytes of payload. -/
def smallDatagram : List Byte :=
  [0x45, 0, 0, 80, 0, 1, 0, 0, 64, 17, 0, 0, 10, 0, 0, 1, 10, 0, 0, 2] ++ List.replicate 60 7

/-- It is sent in two fragments, which are fragmented again and arrive in the wrong order. -/
theorem fragment_reassemble_reverse : Datagram smallDatagram ∧
    (fragments 68 smallDatagram).length = 2 ∧
    ∃ w' r n, deliver 64 () (World.start Unit 0)
      (((refragment (fun _ ↦ some 68) (fragments 68 smallDatagram)).reverse.map fun f ↦
        (Frag.Env.fine, 100, f)).map fun x ↦ (x.1, packet x.2.1 x.2.2)) =
        .ok (w', List.replicate n none ++ [some r]) ∧ r.payload = smallDatagram.drop 20 := by
  have h : Datagram smallDatagram := by constructor <;> decide
  obtain ⟨-, -, hdeliver⟩ := fragment_reassemble.{0} h 68 (by decide) (fun _ ↦ some 68)
    fun _ m hm ↦ by obtain rfl := Option.some.inj hm; decide
  obtain ⟨w', r, hr⟩ := hdeliver 64 0 () (World.start Unit 0) (.init rfl) rfl
    ((refragment (fun _ ↦ some 68) (fragments 68 smallDatagram)).reverse.map fun f ↦
      (Frag.Env.fine, 100, f))
    (by simpa using fun _ _ ↦ (⟨rfl, rfl, rfl, rfl, rfl, rfl, by simp [Frag.Env.fine]⟩ :
      Frag.Env.fine.Fine))
    (by rw [map_map]; exact (map_id _).symm ▸ reverse_perm _) (by decide)
  exact ⟨h, by decide +kernel, w', r, _, hr⟩

end Linux24.Ip
