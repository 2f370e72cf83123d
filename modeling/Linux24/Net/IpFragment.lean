import Linux24.Net.IpHeader

/-!
# `ip_fragment`, and what becomes of the headers

A packet that is too long is sent in pieces.  Each piece has a copy of the header of the packet,
with its own length, offset and checksum.  Options whose copied flag is not set belong to the first
fragment only.  So after the first fragment has been made, `ip_options_fragment` is to replace them
in the packet itself, by as many no-ops, and the fragments that follow get the header with the
options replaced.

But `ip_options_fragment` begins at `skb->nh.raw`, that is, with the header and not with the
options. The first byte it looks at is version and length of the header, and it takes the type of
service, which comes next, for the length of an option.  If this is no possible length, nothing at
all is replaced.  If it is, then version and length themselves are overwritten, as if they were an
option without the copied flag.  `headers_right_iff` says when the headers of the fragments are
right in spite of that.
-/

set_option autoImplicit false

namespace Linux24.Ip

open List

/-- A packet: what is at `nh.raw`, and the length of the options in its control block. -/
structure Skb where
  data : List Byte
  optlen : ℕ

/-- `IPOPT_COPIED`. -/
def copied (b : Byte) : Bool := b &&& 0x80 ≠ 0

/-- The loop of `ip_options_fragment`, with `l` bytes still to come. -/
def optionsLoop : ℕ → ℕ → List Byte → List Byte
  | 0, _, opts => opts
  | fuel + 1, l, opts =>
    if l = 0 then opts
    else
      match opts with
      | [] => []
      | b :: rest =>
        if b = 0 then opts
        else if b = 1 then b :: optionsLoop fuel (l - 1) rest
        else
          let optlen := byte opts 1
          if optlen < 2 ∨ l < optlen then opts
          else (if copied b then opts.take optlen else List.replicate optlen 1) ++
            optionsLoop fuel (l - optlen) (opts.drop optlen)

def ipOptionsFragment (skb : Skb) : Skb :=
  { skb with data := optionsLoop skb.optlen skb.optlen skb.data }

/-- Which calls succeed, for each of the fragments. -/
structure Env where
  alloc : ℕ → Bool
  /-- What `output` returns. -/
  output : ℕ → ℤ

/-- Every call succeeds. -/
def Env.fine : Env := ⟨fun _ ↦ true, fun _ ↦ 0⟩

/-- Where the loop is. -/
structure Loop where
  skb : Skb
  left : ℕ
  ptr : ℕ
  offset : ℕ

/-- How much of what is left goes into the next fragment. -/
def fragLen (mtu left : ℕ) : ℕ :=
  let len := if mtu < left then mtu else left
  -- `len &= ~7`
  if len < left then len / 8 * 8 else len

section Fragmenting

variable (hlen mtu : ℕ) (notLast : Bool)

/-- The next fragment. -/
def Loop.fragment (s : Loop) : List Byte :=
  let len := fragLen mtu s.left
  let skb2 := s.skb.data.take hlen ++ (s.skb.data.drop s.ptr).take len
  let fragOff := s.offset / 8 % 2 ^ 16 ||| if 0 < s.left - len ∨ notLast then 0x2000 else 0
  ipSendCheck (put16 (put16 skb2 6 fragOff) 2 (len + hlen))

/-- What is left to be done after it. -/
def Loop.next (s : Loop) : Loop :=
  let len := fragLen mtu s.left
  { skb := if s.offset = 0 then ipOptionsFragment s.skb else s.skb
    left := s.left - len
    ptr := s.ptr + len
    offset := s.offset + len }

/-- The loop of `ip_fragment`, from the fragment with the given number on: the fragments, and what
is returned if the loop comes to an end. -/
def Loop.run (env : Env) : ℕ → ℕ → Loop → List (List Byte) × Option ℤ
  | 0, _, _ => ([], none)
  | fuel + 1, n, s =>
    if s.left = 0 then ([], some 0)
    -- `-ENOMEM`
    else if env.alloc n = false then ([], some (-12))
    else
      let frag := s.fragment hlen mtu notLast
      if env.output n ≠ 0 then ([frag], some (env.output n))
      else
        let r := Loop.run env fuel (n + 1) (s.next mtu)
        (frag :: r.1, r.2)

end Fragmenting

def ipFragment (env : Env) (fuel : ℕ) (pmtu : BitVec 32) (skb : Skb) :
    List (List Byte) × Option ℤ :=
  let hlen := headerLen skb.data
  Loop.run hlen (pmtu - BitVec.ofNat 32 hlen).toNat (get16 skb.data 6 / 2 ^ 13 % 2 = 1) env fuel 0 {
    skb := skb
    left := (BitVec.ofNat 32 skb.data.length - BitVec.ofNat 32 hlen).toNat
    ptr := hlen
    offset := get16 skb.data 6 % 2 ^ 13 * 8 }

/-! ## What the options of later fragments should be -/

/-- The options in a packet with a header of this length. -/
def Skb.options (skb : Skb) (data : List Byte) : List Byte := (data.drop 20).take skb.optlen

/-- The first list is well-formed options, and the second one is the same with every option that is
not to be copied replaced by no-ops. -/
inductive Replaced : List Byte → List Byte → Prop
  | nil : Replaced [] []
  /-- What comes after the end of the options is padding. -/
  | stop (rest : List Byte) : Replaced (0 :: rest) (0 :: rest)
  | noop {opts opts' : List Byte} (h : Replaced opts opts') : Replaced (1 :: opts) (1 :: opts')
  | kept {b n : Byte} {data opts opts' : List Byte} (hn : n.toNat = data.length + 2)
      (hb : copied b = true) (h : Replaced opts opts') :
      Replaced (b :: n :: data ++ opts) (b :: n :: data ++ opts')
  | cleared {b n : Byte} {data opts opts' : List Byte} (hn : n.toNat = data.length + 2)
      (h0 : b ≠ 0) (h1 : b ≠ 1) (hb : copied b = false) (h : Replaced opts opts') :
      Replaced (b :: n :: data ++ opts) (List.replicate n.toNat 1 ++ opts')

/-- The headers of the fragments are right.  Bytes 2 and 3 of the header are `tot_len`, 6 and 7 are
`frag_off`, and 10 and 11 are `check`. -/
structure HeadersRight (skb : Skb) (frags : List (List Byte)) : Prop where
  fixed : ∀ f ∈ frags, ∀ i < 20, i ∉ [2, 3, 6, 7, 10, 11] → f.getD i 0 = skb.data.getD i 0
  first : ∀ f ∈ frags.head?, skb.options f = skb.options skb.data
  later : ∀ f ∈ frags.tail, Replaced (skb.options skb.data) (skb.options f)

/-! ## What they are -/

section Headers

variable {hlen mtu : ℕ} {notLast : Bool} {env : Env} {s : Loop}

/-- Every fragment begins with the header that the packet has by then. -/
theorem Loop.getD_fragment (h20 : 20 ≤ hlen) (hdata : hlen ≤ s.skb.data.length) {i : ℕ}
    (hi : i < 20) (hfield : i ∉ [2, 3, 6, 7, 10, 11]) :
    (s.fragment hlen mtu notLast).getD i 0 = s.skb.data.getD i 0 := by
  simp only [mem_cons, not_mem_nil, or_false, not_or] at hfield
  rw [Loop.fragment, getD_ipSendCheck (by omega) (by omega), getD_put16 (by omega) (by omega),
    getD_put16 (by omega) (by omega), getD_eq_getElem?_getD, getD_eq_getElem?_getD,
    getElem?_append_left (by rw [length_take]; omega),
    getElem?_take_of_lt (by omega)]

theorem Loop.drop_fragment : (s.fragment hlen mtu notLast).drop 20 =
    (s.skb.data.take hlen ++ (s.skb.data.drop s.ptr).take (fragLen mtu s.left)).drop 20 := by
  rw [Loop.fragment, drop_ipSendCheck (by omega), drop_put16 (by omega), drop_put16 (by omega)]

theorem Loop.options_fragment {skb : Skb} (hoptlen : hlen = 20 + skb.optlen)
    (hdata : hlen ≤ s.skb.data.length) :
    skb.options (s.fragment hlen mtu notLast) = skb.options s.skb.data := by
  have hlength : ((s.skb.data.take hlen).drop 20).length = skb.optlen := by
    rw [length_drop, length_take]
    omega
  rw [Skb.options, Loop.drop_fragment, drop_append_of_le_length
    (by rw [length_take]; omega), take_append_of_le_length hlength.ge,
    drop_take, take_take]
  congr 1
  omega

/-- The fragments are made one after the other. -/
theorem Loop.run_succ (hlen mtu : ℕ) (notLast : Bool) (env : Env) (s : Loop) (fuel n : ℕ) :
    (s.run hlen mtu notLast env (fuel + 1) n).1 = [] ∨
    (s.run hlen mtu notLast env (fuel + 1) n).1 = [s.fragment hlen mtu notLast] ∨
    (s.run hlen mtu notLast env (fuel + 1) n).1 = s.fragment hlen mtu notLast ::
      ((s.next mtu).run hlen mtu notLast env fuel (n + 1)).1 := by
  rw [Loop.run]
  split
  · exact Or.inl rfl
  split
  · exact Or.inl rfl
  split
  · exact Or.inr (Or.inl rfl)
  · exact Or.inr (Or.inr rfl)

/-- What holds of the packet when a fragment is made, if it is kept. -/
theorem Loop.run_invariant {P : Loop → Prop} (hP : ∀ s, P s → P (s.next mtu)) {fuel n : ℕ}
    (hs : P s) : ∀ f ∈ (s.run hlen mtu notLast env fuel n).1,
      ∃ t, P t ∧ f = t.fragment hlen mtu notLast := by
  induction fuel generalizing s n with
  | zero => simp [Loop.run]
  | succ fuel ih =>
    intro f hf
    rcases Loop.run_succ hlen mtu notLast env s fuel n with h | h | h
    · simp [h] at hf
    · rw [h] at hf
      exact ⟨s, hs, mem_singleton.1 hf⟩
    · rw [h] at hf
      rcases mem_cons.1 hf with rfl | hf
      · exact ⟨s, hs, rfl⟩
      · exact ih (hP s hs) f hf

theorem Loop.run_cons {fuel n : ℕ} {f : List Byte} {rest : List (List Byte)}
    (h : (s.run hlen mtu notLast env fuel n).1 = f :: rest) :
    f = s.fragment hlen mtu notLast ∧
      (rest = [] ∨ ∃ fuel n, ((s.next mtu).run hlen mtu notLast env fuel n).1 = rest) := by
  cases fuel with
  | zero => simp [Loop.run] at h
  | succ fuel =>
    rcases Loop.run_succ hlen mtu notLast env s fuel n with h' | h' | h' <;> rw [h'] at h
    · simp at h
    · exact ⟨(cons.inj h).1.symm, Or.inl (cons.inj h).2.symm⟩
    · exact ⟨(cons.inj h).1.symm, Or.inr ⟨_, _, (cons.inj h).2⟩⟩

end Headers

/-! ## The walk through the header -/

section Walk

variable {skb : Skb}

/-- The first byte is version 4 and the length of the header: it is neither the end of the options
nor a no-op, and as an option it would not have the copied flag. -/
theorem version_byte : ∀ b : Byte, b.toNat / 16 = 4 → b ≠ 0 ∧ b ≠ 1 ∧ copied b = false := by
  decide

theorem length_optionsLoop {fuel l : ℕ} {opts : List Byte} (hl : l ≤ opts.length) :
    (optionsLoop fuel l opts).length = opts.length := by
  induction fuel generalizing l opts with
  | zero => rfl
  | succ fuel ih =>
    unfold optionsLoop
    split
    · rfl
    cases opts with
    | nil => rfl
    | cons b rest =>
      rw [length_cons] at hl
      dsimp only
      split
      · rfl
      split
      · rw [length_cons, ih (by omega), length_cons]
      split
      · rfl
      · rename_i hlen
        rw [length_append, ih (by rw [length_drop, length_cons]; omega)]
        split
        · rw [length_take, length_drop]
          omega
        · rw [length_replicate, length_drop, length_cons]
          omega

/-- A type of service that cannot be the length of an option ends the walk. -/
theorem ipOptionsFragment_of_tos (hver : byte skb.data 0 / 16 = 4)
    (htos : byte skb.data 1 < 2 ∨ skb.optlen < byte skb.data 1) : ipOptionsFragment skb = skb := by
  obtain ⟨data, optlen⟩ := skb
  have hloop : optionsLoop optlen optlen data = data := by
    cases optlen with
    | zero => rfl
    | succ l =>
      cases data with
      | nil => simp [byte] at hver
      | cons b rest =>
        obtain ⟨h0, h1, -⟩ := version_byte b hver
        rw [optionsLoop, if_neg (by omega), if_neg h0, if_neg h1, if_pos htos]
  rw [ipOptionsFragment, hloop]

/-- Otherwise it is the header that is overwritten. -/
theorem ipOptionsFragment_version (hver : byte skb.data 0 / 16 = 4) (h2 : 2 ≤ byte skb.data 1)
    (htos : byte skb.data 1 ≤ skb.optlen) : (ipOptionsFragment skb).data.getD 0 0 = 1 := by
  obtain ⟨data, optlen⟩ := skb
  dsimp only at hver h2 htos
  cases optlen with
  | zero => omega
  | succ l =>
    cases data with
    | nil => simp [byte] at hver
    | cons b rest =>
      obtain ⟨h0, h1, hcopied⟩ := version_byte b hver
      have hloop : optionsLoop (l + 1) (l + 1) (b :: rest) =
          replicate (byte (b :: rest) 1) 1 ++ optionsLoop l (l + 1 - byte (b :: rest) 1)
            ((b :: rest).drop (byte (b :: rest) 1)) := by
        rw [optionsLoop, if_neg (by omega), if_neg h0, if_neg h1, if_neg (by omega),
          if_neg (by simp [hcopied])]
      rw [ipOptionsFragment, hloop]
      obtain ⟨n, hn⟩ : ∃ n, byte (b :: rest) 1 = n + 1 := ⟨byte (b :: rest) 1 - 1, by omega⟩
      rw [hn]
      rfl

end Walk

/-! ## When the headers are right -/

section Right

variable {skb : Skb} {s : Loop} {hlen mtu : ℕ} {notLast : Bool} {env : Env} {fuel n : ℕ}

/-- The walk through the header does no harm. -/
def TosHarmless (skb : Skb) (offset : ℕ) : Prop :=
  offset = 0 → byte skb.data 1 < 2 ∨ skb.optlen < byte skb.data 1

/-- **The walk does nothing**, so all the headers are copies of the first one. -/
theorem Loop.headersRight (hver : byte skb.data 0 / 16 = 4) (hoptlen : hlen = 20 + skb.optlen)
    (hdata : hlen ≤ skb.data.length) (hs : s.skb = skb) (htos : TosHarmless skb s.offset)
    (hsame : Replaced (skb.options skb.data) (skb.options skb.data)) :
    HeadersRight skb (s.run hlen mtu notLast env fuel n).1 := by
  have hkeep : ∀ t : Loop, t.skb = skb ∧ TosHarmless skb t.offset →
      (t.next mtu).skb = skb ∧ TosHarmless skb (t.next mtu).offset := by
    rintro t ⟨ht, hoff⟩
    refine ⟨?_, fun h0 ↦ hoff (Nat.eq_zero_of_add_eq_zero_right h0)⟩
    by_cases h0 : t.offset = 0
    · exact (if_pos h0).trans (ht ▸ ipOptionsFragment_of_tos (ht ▸ hver) (ht ▸ hoff h0))
    · exact (if_neg h0).trans ht
  have hall : ∀ f ∈ (s.run hlen mtu notLast env fuel n).1, ∃ t : Loop,
      (t.skb = skb ∧ TosHarmless skb t.offset) ∧ f = t.fragment hlen mtu notLast :=
    Loop.run_invariant hkeep ⟨hs, htos⟩
  have hopts : ∀ f ∈ (s.run hlen mtu notLast env fuel n).1,
      skb.options f = skb.options skb.data := by
    intro f hf
    obtain ⟨t, ⟨ht, -⟩, rfl⟩ := hall f hf
    rw [Loop.options_fragment hoptlen (ht ▸ hdata), ht]
  refine ⟨fun f hf i hi hfield ↦ ?_, fun f hf ↦ hopts f (mem_of_mem_head? hf), fun f hf ↦ ?_⟩
  · obtain ⟨t, ⟨ht, -⟩, rfl⟩ := hall f hf
    rw [Loop.getD_fragment (by omega) (ht ▸ hdata) hi hfield, ht]
  · rw [hopts f (mem_of_mem_tail hf)]
    exact hsame

/-- **What the second fragment tells** about the walk after the first one. -/
theorem Loop.of_headersRight (hver : byte skb.data 0 / 16 = 4) (hoptlen : hlen = 20 + skb.optlen)
    (hdata : hlen ≤ skb.data.length) (hs : s.skb = skb)
    (hsplit : 2 ≤ (s.run hlen mtu notLast env fuel n).1.length)
    (h : HeadersRight skb (s.run hlen mtu notLast env fuel n).1) :
    Replaced (skb.options skb.data) (skb.options skb.data) ∧ TosHarmless skb s.offset := by
  obtain ⟨f, f', rest, hfrags⟩ :
      ∃ f f' rest, (s.run hlen mtu notLast env fuel n).1 = f :: f' :: rest := by
    match h : (s.run hlen mtu notLast env fuel n).1 with
    | [] => simp [h] at hsplit
    | [_] => simp [h] at hsplit
    | f :: f' :: rest => exact ⟨f, f', rest, rfl⟩
  obtain ⟨_, _, hrest⟩ := (Loop.run_cons hfrags).2.resolve_left (cons_ne_nil _ _)
  have hsecond := (Loop.run_cons hrest).1
  have htos : TosHarmless skb s.offset := by
    intro h0
    by_contra hc
    push Not at hc
    have hnext : (s.next mtu).skb = ipOptionsFragment skb := (if_pos h0).trans (by rw [hs])
    have hlength : (ipOptionsFragment skb).data.length = skb.data.length :=
      length_optionsLoop (by omega)
    have hbyte := h.fixed f' (by simp [hfrags]) 0 (by omega) (by decide)
    rw [hsecond, Loop.getD_fragment (by omega) (by rw [hnext, hlength]; exact hdata) (by omega)
      (by decide), hnext, ipOptionsFragment_version hver hc.1 hc.2] at hbyte
    exact (version_byte _ hver).2.1 hbyte.symm
  have hnext : (s.next mtu).skb = skb := by
    by_cases h0 : s.offset = 0
    · exact (if_pos h0).trans (hs ▸ ipOptionsFragment_of_tos (hs ▸ hver) (hs ▸ htos h0))
    · exact (if_neg h0).trans hs
  have hlater := h.later f' (by simp [hfrags])
  rw [hsecond, Loop.options_fragment hoptlen (by rw [hnext]; exact hdata), hnext] at hlater
  exact ⟨hlater, htos⟩

/-- **The headers of the fragments.**  For every packet that is split, they are right just if there
is no option that would have to be replaced, and the type of service is not a possible length of an
option, unless the packet is not a first fragment itself. -/
theorem headers_right_iff (hver : byte skb.data 0 / 16 = 4)
    (hoptlen : headerLen skb.data = 20 + skb.optlen) (hdata : headerLen skb.data ≤ skb.data.length)
    (env : Env) (fuel : ℕ) (pmtu : BitVec 32)
    (hsplit : 2 ≤ (ipFragment env fuel pmtu skb).1.length) :
    HeadersRight skb (ipFragment env fuel pmtu skb).1 ↔
      Replaced (skb.options skb.data) (skb.options skb.data) ∧
        TosHarmless skb (get16 skb.data 6 % 2 ^ 13) := by
  have hoff : TosHarmless skb (get16 skb.data 6 % 2 ^ 13 * 8) ↔
      TosHarmless skb (get16 skb.data 6 % 2 ^ 13) := by
    rw [TosHarmless, TosHarmless, Nat.mul_eq_zero, or_iff_left (by decide)]
  rw [← hoff]
  exact ⟨Loop.of_headersRight hver hoptlen hdata rfl hsplit,
    fun h ↦ Loop.headersRight hver hoptlen hdata rfl h.2 h.1⟩

end Right

/-- A packet with a header of 24 bytes, with four no-ops for options, and 16 bytes after it. -/
def noopPacket (tos : Byte) : Skb where
  data := [0x46, tos, 0, 40, 0, 1, 0, 0, 64, 17, 0, 0, 10, 0, 0, 1, 10, 0, 0, 2, 1, 1, 1, 1] ++
    List.replicate 16 7
  optlen := 4

/-- With 0 for the type of service its headers are right. -/
theorem headers_right_noop : 2 ≤ (ipFragment .fine 9 32 (noopPacket 0)).1.length ∧
    HeadersRight (noopPacket 0) (ipFragment .fine 9 32 (noopPacket 0)).1 := by
  have hsplit : 2 ≤ (ipFragment .fine 9 32 (noopPacket 0)).1.length := by decide +kernel
  refine ⟨hsplit, (headers_right_iff (by decide) (by decide) (by decide) .fine 9 32 hsplit).2
    ⟨?_, fun _ ↦ Or.inl (by decide)⟩⟩
  exact .noop (.noop (.noop (.noop .nil)))

/-- **With 4 for the type of service** the second fragment does not have the version of the packet.
-/
theorem headers_overwritten : 2 ≤ (ipFragment .fine 9 32 (noopPacket 4)).1.length ∧
    Replaced ((noopPacket 4).options (noopPacket 4).data) [1, 1, 1, 1] ∧
    ¬ HeadersRight (noopPacket 4) (ipFragment .fine 9 32 (noopPacket 4)).1 := by
  refine ⟨by decide +kernel, .noop (.noop (.noop (.noop .nil))), fun h ↦ ?_⟩
  have hversion : ¬ ∀ f ∈ (ipFragment .fine 9 32 (noopPacket 4)).1,
      f.getD 0 0 = (noopPacket 4).data.getD 0 0 := by decide +kernel
  exact hversion fun f hf ↦ h.fixed f hf 0 (by decide) (by decide)

end Linux24.Ip
