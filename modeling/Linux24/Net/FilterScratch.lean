import Linux24.Net.FilterCheck

/-!
# What the scratch memory holds at the start

`mem` is a variable of `sk_run_filter` and is not initialised.  Nothing keeps a program from loading
a word of it that it has not stored, and such a program returns what is on the stack of the kernel.

`Prog.ReadsWritten` is that a run loads only words that it has stored before.  It is what is needed,
no more and no less, for the registers at every instruction and the value that is returned to be the
same whatever is in `mem` at the start: `scratch_independent_iff`.  In one direction this is a
relation between two runs, which have the same registers and the same words so far as these have
been stored.  In the other one, a word that is loaded without having been stored is changed.
-/

set_option autoImplicit false

namespace Linux24.Net

open List Function

variable {P : Prog} {skb : SkBuff} {a a' b b' s t : FilterState} {fentry : SockFilter} {op : Op}
  {written : List ℕ}

namespace Prog

/-- The words of the scratch memory that are loaded. -/
def scratchRead (P : Prog) (s : FilterState) : List ℕ :=
  if (P.flen : ℤ) ≤ s.pc.toInt then []
  else
    match decode (P.fentry s).code with
    | some .ldMem | some .ldxMem => [(P.fentry s).k.toNat]
    | _ => []

/-- The words of the scratch memory that are stored. -/
def scratchWrite (P : Prog) (s : FilterState) : List ℕ :=
  if (P.flen : ℤ) ≤ s.pc.toInt then []
  else
    match decode (P.fentry s).code with
    | some .st | some .stx => [(P.fentry s).k.toNat]
    | _ => []

/-- Within the next `n` instructions only words are loaded that are in `written` or have been stored
by then. -/
def ReadsWritten (P : Prog) (skb : SkBuff) : List ℕ → ℕ → FilterState → Prop
  | _, 0, _ => True
  | written, n + 1, s => (∀ k ∈ P.scratchRead s, k ∈ written) ∧
    match P.step skb s with
    | .inl t => P.ReadsWritten skb (written ++ P.scratchWrite s) n t
    | .inr _ => True

end Prog

/-- The registers. -/
def FilterState.regs (s : FilterState) : BitVec 32 × BitVec 32 × BitVec 32 := (s.pc, s.A, s.X)

/-- The same registers, and the same words so far as they have been written. -/
def Agree (written : List ℕ) (a b : FilterState) : Prop :=
  ∃ mem, b = { a with mem := mem } ∧ ∀ k ∈ written, a.mem k = mem k

theorem Agree.regs (h : Agree written a b) : a.regs = b.regs := by
  obtain ⟨mem, rfl, -⟩ := h
  rfl

/-- Two instructions do the same as far as one can see. -/
def Alike (written : List ℕ) (x y : FilterState ⊕ Result) : Prop :=
  (∃ r, x = .inr r ∧ y = .inr r) ∨ ∃ a' b', x = .inl a' ∧ y = .inl b' ∧ Agree written a' b'

section Alike

variable {mem : ℕ → BitVec 32} (h : ∀ k ∈ written, a.mem k = mem k)

include h

theorem goOn_alike : Alike written a.goOn { a with mem := mem }.goOn :=
  Or.inr ⟨_, _, rfl, rfl, mem, rfl, h⟩

theorem setA_alike (v : Option (BitVec 32)) :
    Alike written (a.setA v) ({ a with mem := mem }.setA v) := by
  cases v with
  | none => exact Or.inl ⟨_, rfl, rfl⟩
  | some v => exact Or.inr ⟨_, _, rfl, rfl, mem, rfl, h⟩

theorem setX_alike (v : Option (BitVec 32)) :
    Alike written (a.setX v) ({ a with mem := mem }.setX v) := by
  cases v with
  | none => exact Or.inl ⟨_, rfl, rfl⟩
  | some v => exact Or.inr ⟨_, _, rfl, rfl, mem, rfl, h⟩

/-- A store makes the word that is stored the same. -/
theorem store_alike (k : ℕ) (v : BitVec 32) :
    Alike (written ++ [k]) { a with mem := update a.mem k v }.goOn
      { a with mem := update mem k v }.goOn := by
  refine Or.inr ⟨_, _, rfl, rfl, update mem k v, rfl, fun j hj ↦ ?_⟩
  show update a.mem k v j = _
  by_cases hjk : j = k
  · rw [hjk, update_self, update_self]
  · rw [update_of_ne hjk, update_of_ne hjk]
    refine h j ?_
    simpa [hjk] using hj

/-- The instructions other than stores, for two states with the same registers. -/
theorem exec_alike (hst : op ≠ .st) (hstx : op ≠ .stx)
    (hread : op = .ldMem ∨ op = .ldxMem → fentry.k.toNat ∈ written) :
    Alike written (exec skb fentry a op).next (exec skb fentry { a with mem := mem } op).next := by
  cases op with
  | alu f src => cases src <;> exact setA_alike h _
  | neg => exact setA_alike h (some (-a.A))
  | ja => exact goOn_alike h
  | jump c src => cases src <;> exact goOn_alike h
  | ldAbs width => exact setA_alike h _
  | ldLen => exact setA_alike h (some (BitVec.ofNat 32 skb.headlen))
  | ldxLen => exact setX_alike h (some (BitVec.ofNat 32 skb.headlen))
  | ldInd width => exact setA_alike h _
  | ldxMsh => exact setX_alike h _
  | ldImm => exact setA_alike h (some fentry.k)
  | ldxImm => exact setX_alike h (some fentry.k)
  | ldMem =>
    simp only [exec, ← h _ (hread (Or.inl rfl))]
    exact setA_alike h (some (a.mem fentry.k.toNat))
  | ldxMem =>
    simp only [exec, ← h _ (hread (Or.inr rfl))]
    exact setX_alike h (some (a.mem fentry.k.toNat))
  | tax => exact setX_alike h (some a.A)
  | txa => exact setA_alike h (some a.X)
  | retK | retA => exact Or.inl ⟨_, rfl, rfl⟩
  | st => exact absurd rfl hst
  | stx => exact absurd rfl hstx

end Alike

/-- **One step of two runs.** -/
theorem Agree.step (skb : SkBuff) (h : Agree written a b)
    (hread : ∀ k ∈ P.scratchRead a, k ∈ written) :
    Alike (written ++ P.scratchWrite a) (P.step skb a) (P.step skb b) := by
  obtain ⟨mem, rfl, h⟩ := h
  have hfentry : P.fentry { a with mem := mem } = P.fentry a := rfl
  rw [Prog.scratchRead] at hread
  rw [Prog.step, Prog.step, Prog.effect, Prog.effect, Prog.scratchWrite, hfentry]
  split
  · exact Or.inl ⟨_, rfl, rfl⟩
  rename_i hin
  rw [if_neg hin] at hread
  cases hdec : decode (P.fentry a).code with
  | none => exact Or.inl ⟨_, rfl, rfl⟩
  | some op =>
    rw [hdec] at hread
    by_cases hst : op = .st
    · rw [hst]
      exact store_alike h _ _
    by_cases hstx : op = .stx
    · rw [hstx]
      exact store_alike h _ _
    have hnone : (match some op with
        | some .st | some .stx => [(P.fentry a).k.toNat]
        | _ => []) = ([] : List ℕ) := by
      split
      · rename_i heq
        exact absurd (Option.some_inj.1 heq) hst
      · rename_i heq
        exact absurd (Option.some_inj.1 heq) hstx
      · rfl
    rw [hnone, append_nil]
    refine exec_alike h hst hstx ?_
    rintro (rfl | rfl)
    · exact hread _ mem_cons_self
    · exact hread _ mem_cons_self

/-- Words that are not stored stay. -/
theorem step_mem (h : P.step skb s = .inl t) {k : ℕ} (hk : k ∉ P.scratchWrite s) :
    t.mem k = s.mem k := by
  rw [Prog.step, Prog.effect] at h
  rw [Prog.scratchWrite] at hk
  split at h
  · cases h
  rename_i hin
  rw [if_neg hin] at hk
  have hA : ∀ {v : Option (BitVec 32)}, s.setA v = .inl t → t.mem k = s.mem k := by
    intro v hv
    cases v <;> cases hv
    rfl
  have hX : ∀ {v : Option (BitVec 32)}, s.setX v = .inl t → t.mem k = s.mem k := by
    intro v hv
    cases v <;> cases hv
    rfl
  cases hdec : decode (P.fentry s).code with
  | none =>
    rw [hdec] at h
    cases h
  | some op =>
    rw [hdec] at h hk
    cases op with
    | alu f src | ldAbs width | ldInd width => exact hA h
    | ldxMsh => exact hX h
    | retK | retA => cases h
    | st =>
      cases h
      exact update_of_ne (fun heq ↦ hk (mem_singleton.2 heq)) _ _
    | stx =>
      cases h
      exact update_of_ne (fun heq ↦ hk (mem_singleton.2 heq)) _ _
    | _ =>
      cases h
      rfl

/-- A word that is loaded shows in the registers. -/
theorem step_regs_ne (skb : SkBuff) {k : ℕ} (hk : k ∈ P.scratchRead s) {v : BitVec 32}
    (hv : s.mem k ≠ v) :
    ∃ t t', P.step skb s = .inl t ∧
      P.step skb { s with mem := update s.mem k v } = .inl t' ∧ t.regs ≠ t'.regs := by
  have hfentry : P.fentry { s with mem := update s.mem k v } = P.fentry s := rfl
  rw [Prog.scratchRead] at hk
  rw [Prog.step, Prog.step, Prog.effect, Prog.effect, hfentry]
  split at hk
  · cases hk
  rename_i hin
  rw [if_neg hin, if_neg hin]
  split at hk
  · rename_i hdec
    obtain rfl := mem_singleton.1 hk
    rw [hdec]
    refine ⟨_, _, rfl, rfl, fun heq ↦ hv ?_⟩
    have hA := congrArg (fun r ↦ r.2.1) heq
    exact hA.trans (update_self _ _ _)
  · rename_i hdec
    obtain rfl := mem_singleton.1 hk
    rw [hdec]
    refine ⟨_, _, rfl, rfl, fun heq ↦ hv ?_⟩
    have hX := congrArg (fun r ↦ r.2.2) heq
    exact hX.trans (update_self _ _ _)
  · cases hk

/-! ## Two runs -/

/-- Two runs show the same registers and return the same. -/
def SameRun (P : Prog) (skb : SkBuff) (a b : FilterState) : Prop :=
  ∀ n, (Interp.visited (P.step skb) n a).map FilterState.regs =
      (Interp.visited (P.step skb) n b).map FilterState.regs ∧
    Interp.run (P.step skb) n a = Interp.run (P.step skb) n b

theorem sameRun_of_readsWritten (h : Agree written a b)
    (hread : ∀ n, P.ReadsWritten skb written n a) : SameRun P skb a b := by
  intro n
  refine Interp.run_eq_of_rel FilterState.regs FilterState.regs
    (R := fun n a b ↦ ∃ written, Agree written a b ∧ P.ReadsWritten skb written n a)
    (fun n a b hR ↦ ?_) (fun n a b hR ↦ ?_) ⟨written, h, hread n⟩
  · obtain ⟨_, hagree, -⟩ := hR
    exact hagree.regs
  · obtain ⟨written, hagree, hfirst, hrest⟩ := hR
    rcases hagree.step skb hfirst with hret | ⟨a', b', ha, hb, hagree'⟩
    · exact Or.inl hret
    · rw [ha] at hrest
      exact Or.inr ⟨a', b', ha, hb, _, hagree', hrest⟩

theorem SameRun.step (h : SameRun P skb a b) (ha : P.step skb a = .inl a')
    (hb : P.step skb b = .inl b') : SameRun P skb a' b' := by
  intro n
  obtain ⟨hvis, hrun⟩ := h (n + 1)
  rw [Interp.visited_inl ha, Interp.visited_inl hb, map_cons] at hvis
  rw [Interp.run_inl ha, Interp.run_inl hb] at hrun
  exact ⟨(cons_inj_right _).1 ((cons_eq_cons.1 hvis).1 ▸ hvis), hrun⟩

theorem SameRun.regs (h : SameRun P skb a b) : a.regs = b.regs := by
  have hvis := congrArg head? (h 1).1
  simpa [Interp.visited] using hvis

/-- A state can be reached with other words in memory, where these have not been stored. -/
theorem exists_step_agree (hread : ∀ k ∈ P.scratchRead a, k ∈ written)
    (ha : P.step skb a = .inl a') (h : Agree (written ++ P.scratchWrite a) a' b') :
    ∃ b, Agree written a b ∧ P.step skb b = .inl b' := by
  obtain ⟨mem, rfl, hmem⟩ := h
  set m : ℕ → BitVec 32 := fun j ↦ if j ∈ written then a.mem j else mem j
  have hagree : Agree written a { a with mem := m } := ⟨m, rfl, fun k hk ↦ (if_pos hk).symm⟩
  refine ⟨_, hagree, ?_⟩
  rcases hagree.step skb hread with ⟨r, hr, -⟩ | ⟨a'', b'', ha', hb, mem'', rfl, hmem''⟩
  · cases ha.symm.trans hr
  cases ha.symm.trans ha'
  rw [hb]
  have heq : mem'' = mem := by
    funext j
    by_cases hj : j ∈ written ++ P.scratchWrite a
    · rw [← hmem'' j hj, hmem j hj]
    · rw [mem_append, not_or] at hj
      have hwrite : P.scratchWrite { a with mem := m } = P.scratchWrite a := rfl
      exact (step_mem hb (hwrite ▸ hj.2)).trans (if_neg hj.1)
  rw [heq]

theorem readsWritten_of_sameRun (h : ∀ b, Agree written a b → SameRun P skb a b) (n : ℕ) :
    P.ReadsWritten skb written n a := by
  induction n generalizing written a with
  | zero => exact trivial
  | succ n ih =>
    have hread : ∀ k ∈ P.scratchRead a, k ∈ written := by
      intro k hk
      by_contra hnot
      -- the word can be another one, and then a register is
      have hne : a.mem k ≠ a.mem k + 1 := by
        intro heq
        have := congrArg (· - a.mem k) heq
        simp at this
      obtain ⟨t, t', ht, ht', hregs⟩ := step_regs_ne skb hk hne
      refine hregs (SameRun.step (h _ ⟨_, rfl, fun j hj ↦ ?_⟩) ht ht').regs
      exact (update_of_ne (fun heq : j = k ↦ hnot (heq ▸ hj)) _ _).symm
    refine ⟨hread, ?_⟩
    cases ha : P.step skb a with
    | inr r => exact trivial
    | inl a' =>
      refine ih fun b' hb' ↦ ?_
      obtain ⟨b, hb, hstep⟩ := exists_step_agree hread ha hb'
      exact (h b hb).step ha hstep

/-- **What the scratch memory holds at the start** does not show in the registers at any
instruction, nor in the value that is returned, if and only if a run never loads a word that it has
not stored before. -/
theorem scratch_independent_iff (P : Prog) (skb : SkBuff) :
    (∀ mem mem' n, (visited skb P mem n).map FilterState.regs =
        (visited skb P mem' n).map FilterState.regs ∧
      skRunFilter skb P mem n = skRunFilter skb P mem' n) ↔
      ∀ mem n, P.ReadsWritten skb [] n (.start mem) := by
  have hagree : ∀ mem mem', Agree [] (.start mem) (.start mem') := fun mem mem' ↦
    ⟨mem', rfl, forall_mem_nil _⟩
  constructor
  · refine fun h mem ↦ readsWritten_of_sameRun fun b hb ↦ ?_
    obtain ⟨mem', rfl, -⟩ := hb
    exact h mem mem'
  · exact fun h mem mem' ↦ sameRun_of_readsWritten (hagree mem mem') (h mem)

/-- Then the value that is returned is the same. -/
theorem skRunFilter_eq_of_readsWritten (h : ∀ mem n, P.ReadsWritten skb [] n (.start mem))
    (mem mem' : ℕ → BitVec 32) (n : ℕ) : skRunFilter skb P mem n = skRunFilter skb P mem' n :=
  (sameRun_of_readsWritten ⟨mem', rfl, forall_mem_nil _⟩ (h mem) n).2

/-- `ld M[0]; ret a`. -/
def leakProg : Prog := .ofList [⟨Op.ldMem.code, 0, 0, 0⟩, ⟨Op.retA.code, 0, 0, 0⟩]

/-- The program returns what is on the stack. -/
theorem scratch_leaks : leakProg.Accepted ∧
    skRunFilter twoBytes leakProg (fun _ ↦ 0) 2 = some (.ret 0) ∧
    skRunFilter twoBytes leakProg (fun _ ↦ 1) 2 = some (.ret 1) := by
  decide

end Linux24.Net
