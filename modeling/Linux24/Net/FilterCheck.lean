import Linux24.Net.Filter

/-!
# What the checker is for

A program that `sk_chk_filter` has accepted stays inside: `pc` only grows and never leaves the
program, the scratch memory is indexed below `BPF_MEMWORDS`, and the filter returns before it runs
off the end.

The checker goes by classes and the interpreter by codes, so what is needed first is which class
each label is of (`isRet_of_class`, `class_jump`).  The rest is one lemma about `pc`, `exec_pc`: an
instruction that goes on is followed by the one after it, or is a jump whose distance has been
checked.
-/

set_option autoImplicit false

namespace Linux24.Net

variable {P : Prog} {skb : SkBuff} {s t : FilterState} {fentry : SockFilter} {op : Op}

/-! ## What has been checked -/

variable {i : ℕ} {r : Result}

theorem chkLoop_refuses {todo pc : ℕ} (h : (chkLoop P todo pc).1 = true) (hi : pc ≤ i)
    (hi' : i < pc + todo) : chkRefuses P i = false := by
  induction todo generalizing pc with
  | zero => omega
  | succ todo ih =>
    rw [chkLoop] at h
    split at h
    · cases h
    · rename_i hpc
      rcases hi.eq_or_lt with rfl | hlt
      · exact eq_false_of_ne_true hpc
      · exact ih h hlt (by omega)

/-- The indices that the loop reads are those it has been told to look at. -/
theorem mem_chkLoop {todo pc : ℕ} {i : ℤ} (h : i ∈ (chkLoop P todo pc).2) :
    (pc : ℤ) ≤ i ∧ i < pc + todo := by
  induction todo generalizing pc with
  | zero => cases h
  | succ todo ih =>
    rw [chkLoop] at h
    split at h
    · obtain rfl := List.mem_singleton.1 h
      omega
    · rcases List.mem_cons.1 h with rfl | h
      · omega
      · have := ih h
        omega

/-- What a program that has been accepted is like. -/
structure Checked (P : Prog) : Prop where
  flen_lt : P.flen < 536870911
  insns : ∀ i < P.flen, chkRefuses P i = false
  last : bpfClass (P.insns (P.flen - 1)).code = bpfRet

theorem Prog.Accepted.checked (h : P.Accepted) : Checked P := by
  rw [Prog.Accepted, skChkFilter] at h
  split at h
  · cases h
  · rcases hloop : chkLoop P P.flen 0 with ⟨ok, reads⟩
    rw [hloop] at h
    cases ok with
    | false => cases h
    | true =>
      dsimp only at h
      split at h
      · rename_i hlast
        exact ⟨by omega, fun i hi ↦ chkLoop_refuses (by rw [hloop]) zero_le (by omega), hlast⟩
      · cases h

/-! ## The classes of the labels -/

theorem isRet_of_class (h : bpfClass op.code = bpfRet) : op = .retK ∨ op = .retA := by
  cases op with
  | retK => exact Or.inl rfl
  | retA => exact Or.inr rfl
  | alu f src => cases f <;> cases src <;> cases h
  | jump c src => cases c <;> cases src <;> cases h
  | ldAbs width | ldInd width => cases width <;> cases h
  | _ => cases h

theorem class_jump (c : Cond) (src : Src) :
    bpfClass (Op.jump c src).code = bpfJmp ∧ bpfOp (Op.jump c src).code ≠ bpfJa := by
  cases c <;> cases src <;> decide

/-- The labels that index the scratch memory. -/
def Op.usesScratch : Op → Bool
  | .ldMem | .ldxMem | .st | .stx => true
  | _ => false

theorem Checked.ja (h : Checked P) (hi : i < P.flen) (hop : Op.ja.code = (P.insns i).code) :
    i + (P.insns i).k.toNat + 1 < P.flen := by
  have hclass : bpfClass (P.insns i).code = bpfJmp := by
    rw [← hop]
    decide
  have hja : bpfOp (P.insns i).code = bpfJa := by
    rw [← hop]
    decide
  have hi' := h.insns i hi
  simp only [chkRefuses, hclass, hja, decide_true, Bool.true_and, if_pos, Bool.or_eq_false_iff,
    decide_eq_false_iff_not] at hi'
  omega

theorem Checked.jump (h : Checked P) (hi : i < P.flen) {c : Cond} {src : Src}
    (hop : (Op.jump c src).code = (P.insns i).code) :
    i + (P.insns i).jt.toNat + 1 < P.flen ∧ i + (P.insns i).jf.toNat + 1 < P.flen := by
  obtain ⟨hclass, hja⟩ := class_jump c src
  rw [hop] at hclass hja
  have hi' := h.insns i hi
  simp only [chkRefuses, hclass, hja, decide_true, Bool.true_and, if_false, Bool.or_eq_false_iff,
    decide_eq_false_iff_not, not_le] at hi'
  exact hi'.1

theorem Checked.scratch (h : Checked P) (hi : i < P.flen) (hop : op.code = (P.insns i).code)
    (huse : op.usesScratch = true) : (P.insns i).k.toNat < bpfMemwords := by
  have hcode : (decide ((P.insns i).code = bpfSt) || decide ((P.insns i).code = bpfStx) ||
      decide ((P.insns i).code = bpfLd ||| bpfMem) ||
        decide ((P.insns i).code = bpfLdx ||| bpfMem)) =
        true := by
    rw [← hop]
    cases op with
    | ldMem | ldxMem | st | stx => decide
    | _ => cases huse
  have hi' := h.insns i hi
  simp only [chkRefuses, hcode, Bool.and_true, Bool.or_eq_false_iff, decide_eq_false_iff_not,
    not_le] at hi'
  exact hi'.2

/-! ## What an instruction does -/

theorem setA_pc {a : Option (BitVec 32)} (h : s.setA a = .inl t) : t.pc = s.pc + 1 := by
  cases a <;> cases h
  rfl

theorem setX_pc {x : Option (BitVec 32)} (h : s.setX x = .inl t) : t.pc = s.pc + 1 := by
  cases x <;> cases h
  rfl

/-- **Where an instruction goes on**: with the next one, or at the distance of a jump. -/
theorem exec_pc (h : (exec skb fentry s op).next = .inl t) : t.pc = s.pc + 1 ∨
    (op = .ja ∧ t.pc = s.pc + fentry.k + 1) ∨ (∃ c src, op = .jump c src ∧
      (t.pc = s.pc + fentry.jt.setWidth 32 + 1 ∨ t.pc = s.pc + fentry.jf.setWidth 32 + 1)) := by
  cases op with
  | alu f src => exact Or.inl (setA_pc h)
  | ja =>
    cases h
    exact Or.inr (Or.inl ⟨rfl, rfl⟩)
  | jump c src =>
    cases h
    refine Or.inr (Or.inr ⟨c, src, rfl, ?_⟩)
    split
    · exact Or.inl rfl
    · exact Or.inr rfl
  | ldAbs width | ldInd width => exact Or.inl (setA_pc h)
  | ldxMsh => exact Or.inl (setX_pc h)
  | retK | retA => cases h
  | _ =>
    cases h
    exact Or.inl rfl

theorem setA_ret {a : Option (BitVec 32)} (h : s.setA a = .inr r) : r = .ret 0 := by
  cases a <;> cases h
  rfl

theorem setX_ret {x : Option (BitVec 32)} (h : s.setX x = .inr r) : r = .ret 0 := by
  cases x <;> cases h
  rfl

theorem exec_ret (h : (exec skb fentry s op).next = .inr r) : ∃ v, r = .ret v := by
  cases op with
  | alu f src | ldAbs width | ldInd width => exact ⟨0, setA_ret h⟩
  | ldxMsh => exact ⟨0, setX_ret h⟩
  | retK =>
    cases h
    exact ⟨_, rfl⟩
  | retA =>
    cases h
    exact ⟨_, rfl⟩
  | _ => cases h

/-- No load from the packet accesses the scratch memory. -/
theorem scratch_notMem_load (width : Width) (k : ℤ) (i : ℕ) :
    Access.scratch i ∉ (skb.load width k).2 := by
  rw [SkBuff.load]
  split
  · simp
  split
  · split
    · simp
    · split <;> simp
  · split <;> simp

theorem exec_scratch (h : .scratch i ∈ (exec skb fentry s op).accesses) :
    op.usesScratch = true ∧ i = fentry.k.toNat := by
  cases op with
  | ldMem | ldxMem | st | stx => exact ⟨rfl, by simpa [exec] using h⟩
  | ldAbs width | ldInd width => exact absurd h (scratch_notMem_load _ _ _)
  | ldxMsh =>
    have hmsh : Access.scratch i ∉ (skb.loadMsh fentry.k.toInt).2 := by
      rw [SkBuff.loadMsh]
      split <;> simp
    exact absurd h hmsh
  | _ => cases h

/-! ## A run of a program that has been accepted -/

/-- `pc` is inside the program. -/
def Inside (P : Prog) (s : FilterState) : Prop := s.pc.toNat < P.flen

theorem Checked.toInt_pc (h : Checked P) (hs : Inside P s) : s.pc.toInt = s.pc.toNat := by
  have := h.flen_lt
  rw [Inside] at hs
  rw [BitVec.toInt_eq_toNat_cond, if_pos (by omega)]

/-- What is done inside the program. -/
theorem Checked.effect (h : Checked P) (hs : Inside P s) : P.effect skb s =
    match decode (P.insns s.pc.toNat).code with
    | some op => exec skb (P.insns s.pc.toNat) s op
    | none => ⟨.inr (.ret 0), []⟩ := by
  have hpc := h.toInt_pc hs
  rw [Inside] at hs
  rw [Prog.effect, Prog.fentry, hpc]
  exact if_neg (by omega)

/-- **One step**: `pc` grows and stays inside. -/
theorem Checked.step (h : Checked P) (hs : Inside P s) (hstep : P.step skb s = .inl t) :
    s.pc.toNat < t.pc.toNat ∧ Inside P t := by
  have hlen := h.flen_lt
  rw [Prog.step, h.effect hs] at hstep
  rw [Inside] at hs ⊢
  cases hdec : decode (P.insns s.pc.toNat).code with
  | none =>
    rw [hdec] at hstep
    cases hstep
  | some op =>
    rw [hdec] at hstep
    have hop := code_of_decode hdec
    -- the last instruction is a return, so there is another one after this
    have hlast : s.pc.toNat + 1 < P.flen := by
      by_contra hend
      have hidx : ((s.pc.toNat : ℕ) : ℤ) = P.flen - 1 := by omega
      have hclass := h.last
      rw [← hidx, ← hop] at hclass
      rcases isRet_of_class hclass with rfl | rfl <;> cases hstep
    have hadd : ∀ d : BitVec 32, t.pc = s.pc + d + 1 → s.pc.toNat + d.toNat + 1 < P.flen →
        s.pc.toNat < t.pc.toNat ∧ t.pc.toNat < P.flen := by
      intro d hd hlt
      have hone : (1 : BitVec 32).toNat = 1 := rfl
      rw [hd, BitVec.toNat_add, BitVec.toNat_add]
      omega
    rcases exec_pc hstep with hpc | ⟨rfl, hpc⟩ | ⟨c, src, rfl, hpc | hpc⟩
    · exact hadd 0 (by rw [hpc, add_zero]) hlast
    · exact hadd _ hpc (h.ja hs hop)
    · refine hadd _ hpc ?_
      exact (h.jump hs hop).1
    · refine hadd _ hpc ?_
      exact (h.jump hs hop).2

theorem Checked.scratch_lt (h : Checked P) (hs : Inside P s)
    (hi : .scratch i ∈ P.accesses skb s) : i < bpfMemwords := by
  rw [Prog.accesses, h.effect hs] at hi
  cases hdec : decode (P.insns s.pc.toNat).code with
  | none =>
    rw [hdec] at hi
    cases hi
  | some op =>
    rw [hdec] at hi
    obtain ⟨huse, rfl⟩ := exec_scratch hi
    exact h.scratch hs (code_of_decode hdec) huse

theorem Checked.ret (h : Checked P) (hs : Inside P s)
    (hstep : P.step skb s = .inr r) : ∃ v, r = .ret v := by
  rw [Prog.step, h.effect hs] at hstep
  cases hdec : decode (P.insns s.pc.toNat).code with
  | none =>
    rw [hdec] at hstep
    cases hstep
    exact ⟨0, rfl⟩
  | some op =>
    rw [hdec] at hstep
    exact exec_ret hstep

/-- **A filter that has been accepted is safe to run**, whatever the packet and whatever is on the
stack:  `pc` grows with every instruction and stays below `flen`, the scratch memory is indexed
below `BPF_MEMWORDS`, and after at most `flen` instructions a value is returned, without running off
the end. -/
theorem accepted_safe (hlen : 1 ≤ P.flen) (hacc : P.Accepted) (skb : SkBuff) (mem : ℕ → BitVec 32) :
    (∀ n, ((visited skb P mem n).map fun s ↦ s.pc.toInt).Pairwise (· < ·) ∧
      ∀ s ∈ visited skb P mem n, 0 ≤ s.pc.toInt ∧ s.pc.toInt < P.flen ∧
        ∀ i, .scratch i ∈ P.accesses skb s → i < bpfMemwords) ∧
      ∃ v, skRunFilter skb P mem P.flen = some (.ret v) := by
  have h := hacc.checked
  have hstart : Inside P (.start mem) := hlen
  have hstep : ∀ s t, Inside P s → P.step skb s = .inl t → Inside P t :=
    fun s t hs ht ↦ (h.step hs ht).2
  refine ⟨fun n ↦ ⟨?_, fun s hs ↦ ?_⟩, ?_⟩
  · refine Interp.visited_pairwise_lt hstep (fun s t hs ht ↦ ?_) hstart n
    rw [h.toInt_pc hs, h.toInt_pc (hstep s t hs ht)]
    exact Nat.cast_lt.2 (h.step hs ht).1
  · have hin := Interp.visited_invariant hstep hstart n s hs
    rw [h.toInt_pc hin]
    exact ⟨Int.natCast_nonneg _, Nat.cast_lt.2 hin, fun i hi ↦ h.scratch_lt hin hi⟩
  · have hlt : ∀ s t, Inside P s → P.step skb s = .inl t →
        P.flen - 1 - t.pc.toNat < P.flen - 1 - s.pc.toNat := by
      intro s t hs ht
      have hst := h.step hs ht
      rw [Inside] at hst
      omega
    have hmu : P.flen - 1 - (FilterState.start mem).pc.toNat < P.flen :=
      Nat.sub_lt_of_lt (Nat.sub_lt hlen one_pos)
    obtain ⟨t, r, ht, hret, hrun⟩ := Interp.exists_run _ hstep hlt hstart hmu
    obtain ⟨v, rfl⟩ := h.ret ht hret
    exact ⟨v, hrun⟩

/-- A packet of two bytes. -/
def twoBytes : SkBuff where
  memory addr := addr.setWidth 8
  head := 0x1000
  data := 0x1010
  tail := 0x1012
  nh := 0x1010
  mac := 0x1002
  len := 2
  dataLen := 0
  frags := []
  protocol := 0x0008
  pktType := 0
  ifindex := 1
  head_pos := by decide
  head_le := by decide
  tail_eq := by decide
  dataLen_le := by decide
  frags_length := rfl
  len_lt := by decide

/-- A program from a list. -/
def Prog.ofList (l : List SockFilter) : Prog where
  insns i := l.getD i.toNat ⟨0, 0, 0, 0⟩
  flen := l.length

/-- `ldb [1]; st 15; jeq 0x11, 1, 0; ret 0; ret a`. -/
def storeProg : Prog := .ofList
  [⟨Op.code (.ldAbs .b), 0, 0, 1⟩, ⟨Op.st.code, 0, 0, 15⟩, ⟨Op.code (.jump .jeq .k), 1, 0, 0x11⟩,
    ⟨Op.retK.code, 0, 0, 0⟩, ⟨Op.retA.code, 0, 0, 0⟩]

theorem accepted_safe_store : storeProg.Accepted ∧
    ∃ v, skRunFilter twoBytes storeProg (fun _ ↦ 0) 5 = some (.ret v) := by
  have hacc : storeProg.Accepted := by decide
  exact ⟨hacc, (accepted_safe (by decide) hacc twoBytes fun _ ↦ 0).2⟩

end Linux24.Net
