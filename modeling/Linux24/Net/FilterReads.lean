import Linux24.Net.FilterCheck

/-!
# What the packet filter reads

There are three ways in which the filter reads what it should not.  `sk_chk_filter` looks at the
last instruction of a program also if there is none.  `BPF_MSH` makes sure that its offset is not
too large, but takes it to be an `int` and lets it be negative.  And `load_pointer` only makes sure
that the first byte of what is loaded is between `head` and `tail`.

There are no others: `chkReads_inside_iff` and `accesses_inBounds_iff`.
-/

set_option autoImplicit false

namespace Linux24.Net

open List

variable {P : Prog} {skb : SkBuff} {s : FilterState} {fentry : SockFilter} {op : Op}

/-! ## The checker -/

theorem chkReads_inside_iff (P : Prog) :
    (∀ i ∈ (skChkFilter P).2, 0 ≤ i ∧ i < (P.flen : ℤ)) ↔ P.flen ≠ 0 := by
  rw [skChkFilter]
  split
  · exact ⟨fun _ ↦ by omega, fun _ i hi ↦ absurd hi not_mem_nil⟩
  rcases hloop : chkLoop P P.flen 0 with ⟨ok, reads⟩
  have hreads : ∀ i ∈ reads, 0 ≤ i ∧ i < (P.flen : ℤ) := by
    intro i hi
    have hmem : i ∈ (chkLoop P P.flen 0).2 := by rwa [hloop]
    have := mem_chkLoop hmem
    omega
  cases ok with
  | false =>
    refine ⟨fun _ hzero ↦ ?_, fun _ ↦ hreads⟩
    -- the loop has come to its end if there is nothing to look at
    rw [hzero] at hloop
    cases hloop
  | true =>
    constructor
    · intro h
      have hlast := h ((P.flen : ℤ) - 1) (mem_append_right _ (mem_singleton.2 rfl))
      omega
    · intro hne i hi
      rcases mem_append.1 hi with hi | hi
      · exact hreads i hi
      · rw [mem_singleton.1 hi]
        omega

/-! ## Loads -/

namespace SkBuff

/-- The bytes are between `head` and `tail`, or in the packet. -/
def InBounds (skb : SkBuff) : Access → Prop
  | .scratch _ => True
  | .memory addr n => skb.head.toNat ≤ addr.toNat ∧ addr.toNat + n ≤ skb.tail.toNat
  | .bits offset n => offset + n ≤ skb.len

/-- If the first byte of what a header-relative load reads is before `tail`, then so is the last
one. -/
def CarefulLoad (skb : SkBuff) (width : Width) (k : ℤ) : Prop :=
  k < skfAdOff → ∀ ptr ∈ skb.loadPointer k, ptr.toNat + width.size ≤ skb.tail.toNat

/-- The offset is not negative, or there is enough room before `data`. -/
def CarefulMsh (skb : SkBuff) (k : ℤ) : Prop := k < 0 → (skb.head.toNat : ℤ) ≤ skb.data.toNat + k

instance (skb : SkBuff) (width : Width) (k : ℤ) : Decidable (skb.CarefulLoad width k) :=
  inferInstanceAs (Decidable (_ → ∀ ptr ∈ skb.loadPointer k, _))

instance (skb : SkBuff) (k : ℤ) : Decidable (skb.CarefulMsh k) :=
  inferInstanceAs (Decidable (_ → _))

theorem tail_toNat (skb : SkBuff) : skb.tail.toNat = skb.data.toNat + skb.headlen := by
  have := skb.tail_eq
  have := skb.dataLen_le
  rw [headlen]
  omega

/-- The address of what is at an offset in the linear part. -/
theorem toNat_data_add (skb : SkBuff) {k : ℤ} (h0 : 0 ≤ k) (hk : k ≤ skb.headlen) :
    (skb.data + BitVec.ofInt 32 k).toNat = skb.data.toNat + k.toNat := by
  have htail := skb.tail_toNat
  rw [BitVec.toNat_add, BitVec.toNat_ofInt]
  omega

theorem load_inBounds_iff (skb : SkBuff) (width : Width) (k : ℤ) :
    (∀ a ∈ (skb.load width k).2, skb.InBounds a) ↔ skb.CarefulLoad width k := by
  have htail := skb.tail_toNat
  have had : skfAdOff < 0 := by decide
  rw [load]
  split
  · rename_i hin
    -- in the linear part
    refine ⟨fun _ hk ↦ by omega, fun _ a ha ↦ ?_⟩
    obtain rfl := mem_singleton.1 ha
    have haddr := skb.toNat_data_add hin.1 (by omega)
    have := skb.head_le
    rw [InBounds]
    omega
  split
  · split
    · exact ⟨fun _ hk ↦ by omega, fun _ a ha ↦ absurd ha not_mem_nil⟩
    · cases hptr : skb.loadPointer k with
      | none =>
        refine ⟨fun _ _ ptr hmem ↦ ?_, fun _ a ha ↦ absurd ha not_mem_nil⟩
        rw [hptr] at hmem
        cases hmem
      | some ptr =>
        have hhead : skb.head ≤ ptr := by
          rw [loadPointer] at hptr
          split at hptr
          · rename_i hbounds
            cases hptr
            exact hbounds.1
          · cases hptr
        simp only [CarefulLoad, hptr, Option.mem_def, Option.some_inj, mem_singleton,
          forall_eq, forall_eq']
        exact ⟨fun h _ ↦ h.2, fun h ↦ ⟨hhead, h (by omega)⟩⟩
  · refine ⟨fun _ hk ↦ by omega, fun _ a ha ↦ ?_⟩
    split at ha
    · rename_i bytes hcopy
      obtain rfl := mem_singleton.1 ha
      rw [skbCopyBits] at hcopy
      split at hcopy
      · cases hcopy
      · rw [InBounds]
        omega
    · cases ha

theorem loadMsh_inBounds_iff (skb : SkBuff) (k : ℤ) (hk : -2 ^ 31 ≤ k) :
    (∀ a ∈ (skb.loadMsh k).2, skb.InBounds a) ↔ skb.CarefulMsh k := by
  have htail := skb.tail_toNat
  have hhead := skb.head_le
  have hlen : skb.headlen < 2 ^ 31 := (Nat.sub_le _ _).trans_lt skb.len_lt
  rw [loadMsh]
  split
  · exact ⟨fun _ hneg ↦ by omega, fun _ a ha ↦ absurd ha not_mem_nil⟩
  · simp only [mem_singleton, forall_eq, InBounds, CarefulMsh]
    rw [BitVec.toNat_add, BitVec.toNat_ofInt]
    omega

end SkBuff

/-! ## Every instruction -/

/-- The instruction is not one of those that read what they should not. -/
def carefulOp (skb : SkBuff) (fentry : SockFilter) (s : FilterState) : Op → Prop
  | .ldAbs width => skb.CarefulLoad width fentry.k.toInt
  | .ldInd width => skb.CarefulLoad width (s.X + fentry.k).toInt
  | .ldxMsh => skb.CarefulMsh fentry.k.toInt
  | _ => True

/-- The instruction that is done in a state is not one of them. -/
def Prog.Careful (P : Prog) (skb : SkBuff) (s : FilterState) : Prop :=
  s.pc.toInt < P.flen → ∀ op ∈ decode (P.fentry s).code, carefulOp skb (P.fentry s) s op

theorem exec_inBounds_iff (skb : SkBuff) (fentry : SockFilter) (s : FilterState) (op : Op) :
    (∀ a ∈ (exec skb fentry s op).accesses, skb.InBounds a) ↔ carefulOp skb fentry s op := by
  have htrue : ∀ {l : List Access}, (∀ a ∈ l, ∃ i, a = .scratch i) →
      ((∀ a ∈ l, skb.InBounds a) ↔ True) := by
    intro l hl
    refine iff_true_intro fun a ha ↦ ?_
    obtain ⟨i, rfl⟩ := hl a ha
    exact trivial
  cases op with
  | ldAbs width | ldInd width => exact skb.load_inBounds_iff width _
  | ldxMsh => exact skb.loadMsh_inBounds_iff _ (BitVec.le_toInt fentry.k)
  | ldMem | ldxMem | st | stx => exact htrue fun a ha ↦ ⟨_, mem_singleton.1 ha⟩
  | _ => exact htrue fun a ha ↦ absurd ha not_mem_nil

theorem accesses_inBounds_iff (P : Prog) (skb : SkBuff) (s : FilterState) :
    (∀ a ∈ P.accesses skb s, skb.InBounds a) ↔ P.Careful skb s := by
  rw [Prog.accesses, Prog.effect, Prog.Careful]
  split
  · exact ⟨fun _ hlt ↦ by omega, fun _ a ha ↦ absurd ha not_mem_nil⟩
  · rename_i hin
    rw [not_le] at hin
    cases hdec : decode (P.fentry s).code with
    | none => simp
    | some op =>
      rw [exec_inBounds_iff]
      simp [hin]

/-- **What is read is inside.**  `sk_chk_filter` reads only instructions of the program if and only
if there are any.  And whatever the packet, every byte of it that a run reads is between `head` and
`tail` or in the packet if and only if every `BPF_MSH` that is done has an offset that stays in the
buffer, and every header-relative load whose first byte is before `tail` ends before `tail`. -/
theorem reads_inside_iff (P : Prog) :
    ((∀ i ∈ (skChkFilter P).2, 0 ≤ i ∧ i < (P.flen : ℤ)) ↔ P.flen ≠ 0) ∧
      ∀ (skb : SkBuff) (mem : ℕ → BitVec 32) (n : ℕ),
        (∀ s ∈ visited skb P mem n, ∀ a ∈ P.accesses skb s, skb.InBounds a) ↔
          ∀ s ∈ visited skb P mem n, P.Careful skb s :=
  ⟨chkReads_inside_iff P, fun skb _ _ ↦
    forall₂_congr fun s _ ↦ accesses_inBounds_iff P skb s⟩

/-- The program without instructions, `ldx msh [-0x80000000]; ret a`, and `ld [SKF_NET_OFF + 1]; ret
a`. -/
theorem reads_outside :
    -1 ∈ (skChkFilter (.ofList [])).2 ∧
      (∃ P : Prog, P.Accepted ∧ ∃ s ∈ visited twoBytes P (fun _ ↦ 0) 1,
        ∃ a ∈ P.accesses twoBytes s, a = .memory 0x80001010 1 ∧ ¬ twoBytes.InBounds a) ∧
      ∃ P : Prog, P.Accepted ∧ ∃ s ∈ visited twoBytes P (fun _ ↦ 0) 1,
        ∃ a ∈ P.accesses twoBytes s, a = .memory 0x1011 4 ∧ ¬ twoBytes.InBounds a := by
  refine ⟨by decide,
    ⟨.ofList [⟨Op.ldxMsh.code, 0, 0, 0x80000000⟩, ⟨Op.retA.code, 0, 0, 0⟩], by decide, _,
      .head _, _, .head _, rfl, ?_⟩,
    ⟨.ofList [⟨Op.code (.ldAbs .w), 0, 0, 0xfff00001⟩, ⟨Op.retA.code, 0, 0, 0⟩], by decide, _,
      .head _, _, .head _, rfl, ?_⟩⟩
  · exact fun h ↦ absurd h.2 (by decide)
  · exact fun h ↦ absurd h.2 (by decide)

end Linux24.Net
