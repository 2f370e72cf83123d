import Linux24.Lib.Intervals
import Linux24.Lib.Word

/-!
# `ip_build_xmit_slow`

Data that is too long for one packet, or that goes out with options, is cut into fragments before
there is a packet.  The fragments are built from the end: the last one has what is left over when
the others are full, and if nothing is left over it is full as well.  Without any data that is
wrong, since then there is no full fragment to go back to, and `offset` becomes negative.  So
`getfrag` is asked for bytes that are nowhere near the data.
-/

set_option autoImplicit false

namespace Linux24.Ip

open Intervals List

/-- What the socket, the route and the caller say. -/
structure Xmit where
  /-- `opt->optlen`, if there are options. -/
  opt : Option ℕ
  mtu : ℕ
  dontFragment : Bool
  /-- `IP_PMTUDISC_DO`. -/
  pmtudiscDo : Bool
  /-- `MSG_PROBE`. -/
  probe : Bool

/-- What the calls return, for each of the fragments. -/
structure XmitEnv where
  /-- The error of the allocation, or `0`. -/
  alloc : ℕ → ℤ
  getfrag : ℕ → Bool
  /-- What `NF_HOOK` returns, or what `net_xmit_errno` makes of it. -/
  hook : ℕ → ℤ

/-- A packet: the range that `getfrag` is called with, and two fields of the header. -/
structure Built where
  offset : ℕ
  len : ℕ
  totLen : ℕ
  fragOff : ℕ
  deriving DecidableEq

namespace Xmit

variable (x : Xmit)

def fragheaderlen : ℕ := 20 + x.opt.getD 0

/-- How much of the data goes into a fragment, `maxfraglen - fragheaderlen`. -/
def maxData : ℕ := sub32 x.mtu x.fragheaderlen / 8 * 8

/-- The packet for `len` bytes at `offset`, which is an `int`. -/
def build (offset : ℤ) (len : ℕ) (mf : Bool) : Built where
  offset := (offset % 4294967296).toNat
  len := len
  totLen := (len + (5 + x.opt.getD 0 / 4) % 16 * 4) % 65536
  fragOff := (offset / 8 % 65536).toNat ||| (if mf then 0x2000 else 0) |||
    if x.dontFragment then 0x4000 else 0

/-- The loop, from the fragment with the given number on. -/
def buildLoop (env : XmitEnv) : ℕ → ℕ → ℤ → ℕ → Bool → List Built × Option ℤ
  | 0, _, _, _, _ => ([], none)
  | fuel + 1, n, offset, len, mf =>
    if env.alloc n ≠ 0 then ([], some (env.alloc n))
    -- `-EFAULT`
    else if env.getfrag n = false then ([], some (-14))
    else
      let packet := x.build offset len mf
      if env.hook n ≠ 0 then ([packet], some (env.hook n))
      else if offset - x.maxData < 0 then ([packet], some 0)
      else
        let r := buildLoop env fuel (n + 1) (offset - x.maxData) x.maxData true
        (packet :: r.1, r.2)

/-- The packets that are sent, and what is returned.  `length` is without the header. -/
def ipBuildXmitSlow (env : XmitEnv) (length : ℕ) : List Built × Option ℤ :=
  -- `-EMSGSIZE`
  if 0xFFFF < length + x.fragheaderlen then ([], some (-90))
  else
    let left := length % x.maxData
    let offset : ℤ := if left = 0 then length - x.maxData else length - left
    if 0 < offset ∧ x.pmtudiscDo then ([], some (-90))
    else if x.probe then ([], some 0)
    else x.buildLoop env (length + 1) 0 offset (if left = 0 then x.maxData else left) false

end Xmit

/-- No step fails. -/
structure Xmit.Fine (x : Xmit) (env : XmitEnv) : Prop where
  pmtudiscDo : x.pmtudiscDo = false
  probe : x.probe = false
  alloc : ∀ n, env.alloc n = 0
  getfrag : ∀ n, env.getfrag n = true
  hook : ∀ n, env.hook n = 0

/-- The ranges of the packets fill everything between the two bounds. -/
abbrev Fills (lo : ℕ) (l : List Built) (hi : ℕ) : Prop :=
  Tiles Built.offset (fun p ↦ p.offset + p.len) lo l hi

/-- The header of the packet says which part of the data it has. -/
structure Built.Right (x : Xmit) (length : ℕ) (p : Built) : Prop where
  fragOff : p.fragOff % 2 ^ 13 * 8 = p.offset
  mf : p.fragOff.testBit 13 ↔ p.offset + p.len < length
  totLen : p.totLen = x.fragheaderlen + p.len
  le_mtu : p.totLen ≤ x.mtu

/-- The packets, the last one first, have the data. -/
def Xmit.Partitions (x : Xmit) (length : ℕ) (ps : List Built) : Prop :=
  Fills 0 ps.reverse length ∧ ∀ p ∈ ps, p.Right x length

namespace Xmit

variable {x : Xmit} {env : XmitEnv}

theorem dvd_mul_maxData (x : Xmit) (k : ℕ) : 8 ∣ k * x.maxData :=
  Dvd.dvd.mul_left (Nat.dvd_mul_left ..) k

theorem build_offset {offset : ℕ} (hlt : offset < 65536) (len : ℕ) (mf : Bool) :
    (x.build offset len mf).offset = offset := by
  simp only [build]
  omega

theorem build_right {offset len length : ℕ} {mf : Bool} (hdvd : 8 ∣ offset)
    (hopt : 4 ∣ x.opt.getD 0 ∧ x.opt.getD 0 ≤ 40) (hlen : offset + len + x.fragheaderlen ≤ 65535)
    (hmtu : x.fragheaderlen + len ≤ x.mtu) (hmf : mf = true ↔ offset + len < length) :
    (x.build offset len mf).Right x length := by
  have hoff : (x.build offset len mf).offset = offset := build_offset (by omega) len mf
  have hdiv : ((offset : ℤ) / 8 % 65536).toNat = offset / 8 := by omega
  have hbit : (offset / 8).testBit 13 = false := Nat.testBit_lt_two_pow (by omega)
  have htot : (x.build offset len mf).totLen = x.fragheaderlen + len := by
    simp only [build, fragheaderlen] at *
    omega
  refine ⟨?_, ?_, htot, htot.trans_le hmtu⟩
  · simp only [build, Nat.or_mod_two_pow]
    cases mf <;> cases x.dontFragment <;> simp <;> omega
  · rw [hoff]
    refine Iff.trans (Eq.congr_left ?_) hmf
    simp only [build, hdiv, Nat.testBit_or, hbit]
    cases mf <;> cases x.dontFragment <;> decide

/-- **The loop**, from a multiple of the length of the fragments on. -/
theorem buildLoop_spec (h : x.Fine env) (hpos : 0 < x.maxData) {k fuel : ℕ} (hk : k < fuel)
    (hlt : k * x.maxData < 65536) (n len : ℕ) (mf : Bool) : ∃ rest,
      x.buildLoop env fuel n (k * x.maxData : ℕ) len mf =
        (x.build (k * x.maxData : ℕ) len mf :: rest, some 0) ∧
      Fills 0 rest.reverse (k * x.maxData) ∧
      ∀ p ∈ rest, ∃ j < k, p = x.build (j * x.maxData : ℕ) x.maxData true := by
  induction fuel generalizing k n len mf with
  | zero => omega
  | succ fuel ih =>
    rw [buildLoop, if_neg (by simp [h.alloc]), if_neg (by simp [h.getfrag])]
    simp only [h.hook, ne_eq, not_true_eq_false, if_false]
    cases k with
    | zero =>
      refine ⟨[], if_pos (by omega), ?_, by simp⟩
      rw [zero_mul]
      rfl
    | succ k =>
      have hstep : ((k + 1) * x.maxData : ℕ) - (x.maxData : ℤ) = (k * x.maxData : ℕ) := by
        push_cast
        ring
      have hmul : (k + 1) * x.maxData = k * x.maxData + x.maxData := Nat.succ_mul _ _
      obtain ⟨rest, heq, hfills, hall⟩ :=
        ih (k := k) (by omega) (by omega) (n + 1) x.maxData true
      refine ⟨_, by rw [hstep, if_neg (by omega), heq], ?_, ?_⟩
      · have hoff := x.build_offset (show k * x.maxData < 65536 by omega) x.maxData true
        rw [reverse_cons, hmul]
        exact hfills.append ⟨hoff, congrArg (· + x.maxData) hoff⟩
      · refine forall_mem_cons.2 ⟨⟨k, by omega, rfl⟩, fun p hp ↦ ?_⟩
        obtain ⟨j, hj, rfl⟩ := hall p hp
        exact ⟨j, by omega, rfl⟩

/-- **When the packets have the data**: if there is any. -/
theorem ipBuildXmitSlow_partitions_iff (h : x.Fine env) (hmtu : 68 ≤ x.mtu)
    (hint : x.mtu < 2147483648) (hopt : ∀ o ∈ x.opt, 4 ∣ o ∧ o ≤ 40) {length : ℕ}
    (hlen : length + x.fragheaderlen ≤ 65535) :
    (∃ ps, x.ipBuildXmitSlow env length = (ps, some 0) ∧ x.Partitions length ps) ↔
      length ≠ 0 := by
  have hoptlen : 4 ∣ x.opt.getD 0 ∧ x.opt.getD 0 ≤ 40 := by
    cases ho : x.opt with
    | none => simp
    | some o => exact hopt o ho
  have hhdr : x.fragheaderlen = 20 + x.opt.getD 0 := rfl
  have hmax : 0 < x.maxData ∧ x.fragheaderlen + x.maxData ≤ x.mtu := by
    rw [maxData, sub32_of_le (by omega) (by omega)]
    omega
  rw [ipBuildXmitSlow, if_neg (by omega), h.pmtudiscDo, h.probe]
  simp only [Bool.false_eq_true, and_false, if_false]
  rcases Nat.eq_zero_or_pos length with rfl | hpos
  · refine iff_of_false ?_ (by simp)
    rintro ⟨ps, heq, hpart⟩
    rw [Nat.zero_mod, buildLoop, if_neg (by simp [h.alloc]), if_neg (by simp [h.getfrag])] at heq
    simp only [h.hook, ne_eq, not_true_eq_false, if_false] at heq
    rw [if_pos (by omega)] at heq
    obtain ⟨rfl, -⟩ := Prod.mk.inj heq
    have hoff : (((0 : ℕ) - (x.maxData : ℤ)) % 4294967296).toNat = 0 := hpart.1.1
    omega
  · refine iff_of_true ?_ hpos.ne'
    -- the last fragment has what is left over, or is full
    obtain ⟨k, len, rfl, hlen0, hlenle⟩ : ∃ k len, length = k * x.maxData + len ∧ 0 < len ∧
        len ≤ x.maxData :=
      ⟨(length - 1) / x.maxData, (length - 1) % x.maxData + 1, by
        have := Nat.div_add_mod' (length - 1) x.maxData
        omega, by omega, Nat.mod_lt _ hmax.1⟩
    have hk : k ≤ k * x.maxData := Nat.le_mul_of_pos_right k hmax.1
    obtain ⟨rest, heq, hfills, hall⟩ := buildLoop_spec h hmax.1
      (show k < k * x.maxData + len + 1 by omega) (by omega) 0 len false
    refine ⟨x.build (k * x.maxData : ℕ) len false :: rest, ?_, ?_, forall_mem_cons.2 ⟨?_, ?_⟩⟩
    · rw [← heq]
      rcases hlenle.eq_or_lt with hfull | hlt
      · have hmod : (k * x.maxData + len) % x.maxData = 0 := by
          rw [Nat.mul_add_mod', hfull, Nat.mod_self]
        rw [if_pos hmod, if_pos hmod]
        congr 1
        all_goals omega
      · rw [Nat.mul_add_mod', Nat.mod_eq_of_lt hlt, if_neg hlen0.ne', if_neg hlen0.ne']
        congr 1
        omega
    · have hoff := x.build_offset (show k * x.maxData < 65536 by omega) len false
      rw [reverse_cons]
      exact hfills.append ⟨hoff, congrArg (· + len) hoff⟩
    · exact build_right (x.dvd_mul_maxData k) hoptlen hlen (by omega) (by simp)
    · intro p hp
      obtain ⟨j, hj, rfl⟩ := hall p hp
      have hjk : (j + 1) * x.maxData ≤ k * x.maxData := Nat.mul_le_mul_right _ hj
      rw [Nat.succ_mul] at hjk
      exact build_right (x.dvd_mul_maxData j) hoptlen (by omega) hmax.2 (by simp; omega)

/-- Three fragments with a router alert. -/
theorem ipBuildXmitSlow_partitions_three :
    ∃ ps, ipBuildXmitSlow ⟨some 4, 1500, false, false, false⟩ ⟨fun _ ↦ 0, fun _ ↦ true, fun _ ↦ 0⟩
      3000 = (ps, some 0) ∧ Partitions ⟨some 4, 1500, false, false, false⟩ 3000 ps :=
  (ipBuildXmitSlow_partitions_iff ⟨rfl, rfl, fun _ ↦ rfl, fun _ ↦ rfl, fun _ ↦ rfl⟩ (by decide)
    (by decide) (by decide) (by decide)).2 (by decide)

/-- A router alert without data: the packet has 1472 bytes from before the data. -/
theorem ipBuildXmitSlow_empty : ipBuildXmitSlow ⟨some 4, 1500, false, false, false⟩
      ⟨fun _ ↦ 0, fun _ ↦ true, fun _ ↦ 0⟩ 0 = ([⟨4294965824, 1472, 1496, 65352⟩], some 0) ∧
    ¬ Partitions ⟨some 4, 1500, false, false, false⟩ 0 [⟨4294965824, 1472, 1496, 65352⟩] :=
  ⟨by decide, fun h ↦ absurd h.1.1 (by decide)⟩

end Xmit

end Linux24.Ip
