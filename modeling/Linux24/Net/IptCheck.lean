import Linux24.Net.IptMark
import Linux24.Net.IptWalk

/-!
# What `translate_table` makes of a table

The passes over the rules are `IPT_ENTRY_ITERATE` with a function each, and `entryIterate_spec` is
the rule for them.  The first pass clears the counters and `comefrom` and finds where the hooks
begin.  Then comes `mark_source_chains`.  The last pass, `check_entry`, replaces the name of each
match and target by a pointer to what is registered under the name.

None of them looks at where the target of a rule is, at how long the matches are, at whether a jump
goes to a rule, or at what the rules for underflow are.  (The source says so of the last: "FIXME:
underflows must be unconditional, standard verdicts < 0 (not IPT_RETURN)".)  A rule that returns,
and is also the rule for underflow, is accepted, and a packet then leaves the table for an offset
where there is no rule (`translate_accepts_return`).

`Replace.Sound` is what is not checked.  For a table for which it holds, `translate_table` does what
it is for: if it accepts the table, then it has not left the blob, and every packet gets a verdict
and is at rules only on the way (`translate_sound`).
-/

set_option autoImplicit false

universe u v w

namespace Linux24.Ipt

open Bytes Calls

/-! ## Passes over the rules -/

section Passes

variable {m m' : Mem} {size : ℕ}

/-- **The rule for a pass.**  What holds at the start and is kept by what is done at each rule holds
in the end. -/
theorem entryIterate_spec {σ : Type} {mem : σ → Mem} {fn : ℕ → σ → Except Err σ}
    (hsize : size < 2 ^ 32) (hl : Laid m size) (Inv : ℕ → σ → Prop)
    (hstep : ∀ e s s', Start m size e → Inv e s → fn e s = .ok s' →
      nextOffset (mem s') e = nextOffset m e ∧ Inv (e + nextOffset m e) s')
    {fuel n : ℕ} {s s' : σ} (hle : orbit m n ≤ size) (hinv : Inv (orbit m n) s)
    (hr : entryIterate mem size fn fuel (orbit m n) s = .ok s') : Inv size s' := by
  induction fuel generalizing n s with
  | zero => simp [entryIterate] at hr
  | succ fuel ih =>
    rw [entryIterate] at hr
    split at hr
    · rename_i hlt
      have hstart : Start m size (orbit m n) := ⟨hlt, n, rfl⟩
      have hinside := (hl _ hstart).inside
      cases hfn : fn (orbit m n) s with
      | error err => simp [hfn] at hr
      | ok s₁ =>
        obtain ⟨hnext, hinv'⟩ := hstep _ s s₁ hstart hinv hfn
        simp only [hfn] at hr
        rw [hnext, Nat.mod_eq_of_lt (by omega)] at hr
        exact ih (n := n + 1) hinside hinv' hr
    · cases hr
      rwa [show orbit m n = size by omega] at hinv

/-- Where the rules start depends on their lengths only. -/
theorem start_congr (h : ∀ p, Start m size p → nextOffset m' p = nextOffset m p) {p : ℕ} :
    Start m' size p ↔ Start m size p := by
  have horbit : ∀ n, orbit m n < size ∨ orbit m' n < size → orbit m' n = orbit m n := by
    intro n
    induction n with
    | zero => exact fun _ ↦ rfl
    | succ n ih =>
      intro hlt
      have hn : orbit m n ≤ orbit m (n + 1) := orbit_mono m (Nat.le_succ n)
      have hn' : orbit m' n ≤ orbit m' (n + 1) := orbit_mono m' (Nat.le_succ n)
      have heq := ih (hlt.imp (hn.trans_lt ·) (hn'.trans_lt ·))
      have hlt' : orbit m n < size := by omega
      rw [orbit, orbit, heq, h _ ⟨hlt', n, rfl⟩]
  constructor
  · rintro ⟨hlt, n, rfl⟩
    exact ⟨hlt, n, (horbit n (.inr hlt)).symm⟩
  · rintro ⟨hlt, n, rfl⟩
    exact ⟨hlt, n, horbit n (.inl hlt)⟩

end Passes

/-! ## The first pass -/

section FirstPass

variable {m : Mem} {size : ℕ} {hookEntries underflows : Hook → ℕ}

/-- What the first pass has done when it has come to an offset. -/
structure Cleared (m : Mem) (size : ℕ) (hookEntries underflows : Hook → ℕ) (i : ℕ) (info : Info) :
    Prop where
  agree : Agree m size info.mem
  comefrom : ∀ p, Start m size p → p < i → comefrom info.mem p = 0
  hookEntry : ∀ h, info.hookEntry h ≠ 0xffffffff →
    info.hookEntry h = hookEntries h ∧ Start m size (hookEntries h)
  underflow : ∀ h, info.underflow h ≠ 0xffffffff →
    info.underflow h = underflows h ∧ Start m size (underflows h)

theorem Cleared.step (hl : Laid m size) {e : ℕ} {info info' : Info} (he : Start m size e)
    (h : Cleared m size hookEntries underflows e info)
    (hr : checkEntrySizeAndHooks size hookEntries underflows e info = .ok info') :
    nextOffset info'.mem e = nextOffset m e ∧
      Cleared m size hookEntries underflows (e + nextOffset m e) info' := by
  unfold checkEntrySizeAndHooks at hr
  split at hr
  · cases hr
  split at hr
  · cases hr
  cases hr
  have hagree : Agree m size (store (store info.mem (e + 96) 16 0) (e + 92) 4 0) :=
    (h.agree.store he (by omega) (by omega)).store he le_rfl (by omega)
  have hassign : ∀ old user : ℕ, (old ≠ 0xffffffff → old = user ∧ Start m size user) →
      (if e = user then user else old) ≠ 0xffffffff →
      (if e = user then user else old) = user ∧ Start m size user := by
    intro old user hold hne
    split
    · rename_i heq
      exact ⟨rfl, heq ▸ he⟩
    · rename_i heq
      rw [if_neg heq] at hne
      exact hold hne
  refine ⟨(hagree.same hl he).nextOffset_eq, hagree, fun p hp hlt ↦ ?_,
    fun hook ↦ hassign _ _ (h.hookEntry hook), fun hook ↦ hassign _ _ (h.underflow hook)⟩
  rw [comefrom_store_comefrom hl he hp]
  split
  · rfl
  · have hpe : p < e := by
      by_contra hc
      have hgap := he.gap hp (by omega)
      omega
    rw [comefrom_store_counters hl he hp (by omega) (by omega), h.comefrom p hp hpe]

end FirstPass

/-! ## The last pass -/

/-- The matches of the rule, from the one at `i` on, are behind one another. -/
inductive MatchesFit (m : Mem) (e : ℕ) : ℕ → Prop
  | done {i : ℕ} (h : targetOffset m e ≤ i) : MatchesFit m e i
  | cons {i : ℕ} (hlt : i < targetOffset m e) (hsize : sizeofTarget ≤ elemSize m (e + i))
      (hfits : i + elemSize m (e + i) ≤ targetOffset m e)
      (hrest : MatchesFit m e (i + elemSize m (e + i))) : MatchesFit m e i

/-- The matches and the target are where they belong. -/
structure RuleSound (m : Mem) (size e : ℕ) : Prop where
  layout : Layout m size e
  matches_fit : MatchesFit m e sizeofEntry
  standard : isStandard m (getTarget m e) = true →
    targetOffset m e + sizeofStandard ≤ nextOffset m e

section LastPass

variable {μ : Type u} {τ : Type v} {ω : Type w} {k : Modules μ τ ω} {m m' : Mem} {size e i : ℕ}

theorem MatchesFit.congr (h : MatchesFit m e i) (ho : targetOffset m' e = targetOffset m e)
    (hsame : ∀ x, e + i ≤ x → x < e + targetOffset m e → m' x = m x) : MatchesFit m' e i := by
  induction h with
  | done h => exact .done (ho.symm ▸ h)
  | @cons i hlt hsize hfits _ ih =>
    rw [sizeofTarget] at hsize
    have helem : elemSize m' (e + i) = elemSize m (e + i) :=
      load_congr fun x hx hlt' ↦ hsame x hx (by omega)
    refine .cons (ho.symm ▸ hlt) (by rw [helem]; exact hsize)
      (by rw [helem, ho]; exact hfits) ?_
    rw [helem]
    exact ih fun x hx hlt' ↦ hsame x (by omega) hlt'

theorem MatchesOk.congr (h : MatchesOk k m e i) (ho : targetOffset m' e = targetOffset m e)
    (hsame : ∀ x, e + i ≤ x → x < e + targetOffset m e → m' x = m x) : MatchesOk k m' e i := by
  induction h with
  | done h => exact .done (ho.symm ▸ h)
  | @cons i hlt hsize hfits hptr _ ih =>
    rw [sizeofTarget] at hsize
    have helem : elemSize m' (e + i) = elemSize m (e + i) :=
      load_congr fun x hx hlt' ↦ hsame x hx (by omega)
    have hptr' : elemPtr m' (e + i) = elemPtr m (e + i) :=
      load_congr fun x hx hlt' ↦ hsame x (by omega) (by omega)
    refine .cons (ho.symm ▸ hlt) (by rw [helem]; exact hsize)
      (by rw [helem, ho]; exact hfits) (by rw [hptr']; exact hptr) ?_
    rw [helem]
    exact ih fun x hx hlt' ↦ hsame x (by omega) hlt'

/-- An address that has been written down is found again. -/
theorem ofNat_elemPtr_store (m : Mem) (t : ℕ) (a : BitVec 32) :
    BitVec.ofNat 32 (elemPtr (store m (t + 4) 4 a.toNat) t) = a := by
  rw [elemPtr, load_store_self]
  refine BitVec.eq_of_toNat_eq ?_
  have ha := a.isLt
  rw [BitVec.toNat_ofNat, show (256 : ℕ) ^ 4 = 2 ^ 32 by norm_num, Nat.mod_mod, Nat.mod_eq_of_lt ha]

variable {fuel : ℕ}

/-- **`check_match`, for all the matches**: each of them gets its pointer. -/
theorem checkMatches_spec (hi : sizeofEntry ≤ i) (hfit : MatchesFit m e i)
    (hr : checkMatches k e fuel i m = .ok m') :
    (∀ x, x < e + i ∨ e + targetOffset m e ≤ x → m' x = m x) ∧ MatchesOk k m' e i := by
  induction fuel generalizing i m with
  | zero => simp [checkMatches] at hr
  | succ fuel ih =>
    rw [checkMatches] at hr
    cases hfit with
    | done h =>
      rw [if_neg (by omega)] at hr
      cases hr
      exact ⟨fun _ _ ↦ rfl, .done h⟩
    | cons hlt hsize hfits hrest =>
      rw [if_pos hlt] at hr
      rw [sizeofTarget] at hsize
      rw [sizeofEntry] at hi
      cases hx : k.findMatch (elemName m (e + i)) with
      | none => simp [hx] at hr
      | some x =>
        simp only [hx] at hr
        split at hr
        · have ho : targetOffset (store m (e + i + 4) 4 (k.matchAddr x).toNat) e =
              targetOffset m e := load_store_of_disjoint (by omega)
          have helem : elemSize (store m (e + i + 4) 4 (k.matchAddr x).toNat) (e + i) =
              elemSize m (e + i) := load_store_of_disjoint (by omega)
          rw [helem] at hr
          obtain ⟨hsame, hok⟩ := ih (by rw [sizeofEntry]; omega)
            (hrest.congr ho fun y hy _ ↦ store_of_outside (by omega)) hr
          have ho' : targetOffset m' e = targetOffset m e := by
            rw [← ho]
            exact load_congr fun y hy hlt' ↦ hsame y (by omega)
          have helem' : elemSize m' (e + i) = elemSize m (e + i) := by
            rw [← helem]
            exact load_congr fun y hy hlt' ↦ hsame y (by omega)
          have hptr : elemPtr m' (e + i) =
              elemPtr (store m (e + i + 4) 4 (k.matchAddr x).toNat) (e + i) :=
            load_congr fun y hy hlt' ↦ hsame y (by omega)
          refine ⟨fun y hy ↦ ?_, .cons (ho'.symm ▸ hlt) (by rw [helem']; exact hsize)
            (by rw [helem', ho']; exact hfits) ⟨x, ?_⟩ (by rw [helem']; exact hok)⟩
          · rw [hsame y (by omega), store_of_outside (by omega)]
          · rw [hptr, ofNat_elemPtr_store, k.matchAt_addr]
        · cases hr

/-- The empty name is that of the standard target. -/
theorem elemName_eq_nil {t : ℕ} : elemName m t = [] ↔ isStandard m t = true := by
  rw [elemName, isStandard]
  simp

/-- What `check_entry` makes of a rule. -/
structure Loaded (k : Modules μ τ ω) (m : Mem) (size e : ℕ) (m' : Mem) : Prop where
  rule : RuleOk k m' size e
  head : ∀ x, e ≤ x → x < e + 92 → m' x = m x
  standard_iff : Standard k m' e ↔ isStandard m (getTarget m e) = true
  verdict_eq : isStandard m (getTarget m e) = true →
    verdict m' (getTarget m e) = verdict m (getTarget m e)

theorem RuleSound.congr (h : RuleSound m size e) (hsame : Same m size e m') :
    RuleSound m' size e := by
  have hheader := h.layout.header
  refine ⟨hsame.layout_right, h.matches_fit.congr hsame.targetOffset_eq fun x hx hlt ↦ ?_, ?_⟩
  · rw [sizeofEntry] at hx
    exact hsame.byte x (by omega) (by omega) (by omega)
  · rw [hsame.getTarget_eq, hsame.isStandard_eq, hsame.targetOffset_eq, hsame.nextOffset_eq]
    exact h.standard

/-- What was there before may have had other counters. -/
theorem Loaded.congr {m'' : Mem} (h : Loaded k m' size e m'') (hs : RuleSound m size e)
    (hsame : Same m size e m') : Loaded k m size e m'' := by
  have hlong := hs.layout.le_next
  have hstd := h.standard_iff
  have hverdict := h.verdict_eq
  rw [hsame.getTarget_eq, hsame.isStandard_eq] at hstd hverdict
  refine ⟨h.rule, fun x hx hlt ↦ ?_, hstd, fun hc ↦ ?_⟩
  · exact (h.head x hx hlt).trans (hsame.byte x hx (by omega) (Or.inl hlt))
  · exact (hverdict hc).trans (hsame.verdict_eq (hs.standard hc))

section Loaded

variable (h : Loaded k m size e m')
include h

theorem Loaded.nextOffset_eq : nextOffset m' e = nextOffset m e :=
  load_congr fun x hx hlt ↦ h.head x (by omega) (by omega)

theorem Loaded.targetOffset_eq : targetOffset m' e = targetOffset m e :=
  load_congr fun x hx hlt ↦ h.head x (by omega) (by omega)

theorem Loaded.getTarget_eq : getTarget m' e = getTarget m e := by
  rw [getTarget, getTarget, h.targetOffset_eq]

theorem Loaded.unconditional_eq : unconditional m' e = unconditional m e :=
  unconditional_congr fun i _ ↦ h.head (e + i) (by omega) (by omega)

/-- The rule stays as it is when others are checked. -/
theorem Loaded.mono {m'' : Mem}
    (hbytes : ∀ x, e ≤ x → x < e + nextOffset m e → m'' x = m' x) (hs : RuleSound m size e) :
    Loaded k m size e m'' := by
  have hlong := hs.layout.le_next
  have hn := h.nextOffset_eq
  have hsame : Same m' size e m'' :=
    ⟨h.rule.layout, fun x hx hlt _ ↦ hbytes x hx (hn ▸ hlt)⟩
  have hstd : Standard k m'' e ↔ Standard k m' e := by
    rw [Standard, Standard, hsame.getTarget_eq, hsame.elemPtr_eq]
  refine ⟨⟨hsame.layout_right, ?_, ?_⟩, fun x hx hlt ↦ ?_, hstd.trans h.standard_iff, fun hc ↦ ?_⟩
  · have hheader := h.rule.layout.header
    refine h.rule.matches_ok.congr hsame.targetOffset_eq fun x hx hlt ↦ ?_
    exact hsame.byte x (by omega) (by omega) (by rw [sizeofEntry] at hx; omega)
  · rw [hsame.getTarget_eq, hsame.elemPtr_eq, hsame.targetOffset_eq, hsame.nextOffset_eq]
    exact h.rule.target
  · exact (hbytes x hx (by omega)).trans (h.head x hx hlt)
  · have hroom := hs.standard hc
    rw [← h.targetOffset_eq, ← hn] at hroom
    rw [← h.verdict_eq hc, ← h.getTarget_eq]
    exact hsame.verdict_eq hroom

/-! Once it is loaded, a rule does what `mark_source_chains` has taken it to do. -/

theorem Loaded.ends_iff : (flow k m').ends e ↔ (blobFlow m).ends e := by
  have hunfold : (flow k m').ends e ↔ Standard k m' e ∧ targetOffset m' e = sizeofEntry ∧
      verdict m' (getTarget m' e) < 0 ∧ unconditional m' e = true := Iff.rfl
  rw [hunfold, h.standard_iff, h.targetOffset_eq, h.getTarget_eq, h.unconditional_eq]
  change _ ↔ isEnd m e = true
  simp only [isEnd, Bool.and_eq_true, decide_eq_true_eq]
  constructor
  · rintro ⟨hstd, ho, hv, hu⟩
    exact ⟨⟨⟨ho, hstd⟩, h.verdict_eq hstd ▸ hv⟩, hu⟩
  · rintro ⟨⟨⟨ho, hstd⟩, hv⟩, hu⟩
    exact ⟨hstd, ho, (h.verdict_eq hstd).symm ▸ hv, hu⟩

theorem Loaded.target_eq :
    (flow k m').target e = (blobFlow m).target e := by
  have hiff : Standard k m' e ∧ 0 ≤ verdict m' (getTarget m' e) ↔
      (isStandard m (getTarget m e) && 0 ≤ verdict m (getTarget m e)) = true := by
    rw [h.standard_iff, h.getTarget_eq, Bool.and_eq_true, decide_eq_true_eq]
    exact and_congr_right fun hstd ↦ by rw [h.verdict_eq hstd]
  by_cases hj : Standard k m' e ∧ 0 ≤ verdict m' (getTarget m' e)
  · refine (if_pos hj).trans (Eq.trans ?_ (if_pos (hiff.1 hj)).symm)
    rw [h.getTarget_eq, h.verdict_eq (h.standard_iff.1 hj.1)]
  · exact (if_neg hj).trans (if_neg (mt hiff.2 hj)).symm

end Loaded

variable [DecidableEq τ]

/-- **`check_entry`**: the names become pointers, and the rest is as it was. -/
theorem checkEntry_spec (hs : RuleSound m size e) (hr : checkEntry k fuel size e m = .ok m') :
    (∀ x, x < e + 112 ∨ e + nextOffset m e ≤ x → m' x = m x) ∧ Loaded k m size e m' := by
  obtain ⟨hfirst, hheader⟩ := hs.layout.bounds
  unfold checkEntry at hr
  split at hr
  · cases hr
  cases hm : checkMatches k e fuel sizeofEntry m with
  | error err => simp [hm] at hr
  | ok m₁ =>
    obtain ⟨hsame, hok⟩ := checkMatches_spec le_rfl hs.matches_fit hm
    rw [sizeofEntry] at hsame
    have ho₁ : targetOffset m₁ e = targetOffset m e :=
      load_congr fun y hy hlt ↦ hsame y (by omega)
    have ht₁ : getTarget m₁ e = getTarget m e := by rw [getTarget, getTarget, ho₁]
    simp only [hm] at hr
    rw [ht₁] at hr
    cases hx : k.findTarget (elemName m₁ (getTarget m e)) with
    | none => simp [hx] at hr
    | some x =>
      simp only [hx] at hr
      have hm' : store m₁ (getTarget m e + 4) 4 (k.targetAddr x).toNat = m' := by
        split at hr
        · split at hr
          · exact Except.ok.inj hr
          · cases hr
        · split at hr
          · exact Except.ok.inj hr
          · cases hr
      have hsame' : ∀ y, y < getTarget m e + 4 ∨ getTarget m e + 8 ≤ y → m' y = m₁ y := by
        intro y hy
        rw [← hm']
        exact store_of_outside (by omega)
      have hptr : k.targetAt (BitVec.ofNat 32 (elemPtr m' (getTarget m e))) = some x := by
        rw [← hm', ofNat_elemPtr_store, k.targetAt_addr]
      have hstandard : x = k.standard ↔ isStandard m (getTarget m e) = true := by
        have hbyte : isStandard m₁ (getTarget m e) = isStandard m (getTarget m e) := by
          rw [isStandard, isStandard, hsame _ (by rw [getTarget]; omega)]
        rw [← hbyte, ← elemName_eq_nil, ← k.find_standard, hx, Option.some.injEq]
      have ho : targetOffset m' e = targetOffset m e := by
        rw [← ho₁]
        exact load_congr fun y hy hlt ↦ hsame' y (by rw [getTarget]; omega)
      have ht : getTarget m' e = getTarget m e := by rw [getTarget, getTarget, ho]
      have hhead : ∀ y, y < e + 112 → m' y = m y := fun y hy ↦ by
        rw [hsame' y (by rw [getTarget]; omega), hsame y (by omega)]
      have hn : nextOffset m' e = nextOffset m e :=
        load_congr fun y hy hlt ↦ hhead y (by omega)
      have helem : elemSize m' (getTarget m e) = elemSize m (getTarget m e) :=
        load_congr fun y hy hlt ↦ by
          rw [hsame' y (by omega), hsame y (by rw [getTarget] at hy; omega)]
      refine ⟨fun y hy ↦ ?_, ⟨hs.layout.congr ho hn helem, ?_, x, ?_, ?_⟩,
        fun y _ hlt ↦ hhead y (by omega), ?_, fun _ ↦ ?_⟩
      · rw [hsame' y (by rw [getTarget]; omega), hsame y (by omega)]
      · exact hok.congr (ho.trans ho₁.symm) fun y _ hlt ↦ hsame' y (by rw [getTarget]; omega)
      · rw [ht]
        exact hptr
      · intro hstd
        rw [ho, hn]
        exact hs.standard (hstandard.1 hstd)
      · rw [Standard, ht, hptr, Option.some.injEq, hstandard]
      · rw [verdict, verdict, load_congr fun y hy _ ↦ (hsame' y (by omega)).trans
          (hsame y (by rw [getTarget] at hy; omega))]

/-- What the last pass has done when it has come to an offset. -/
structure Checked (k : Modules μ τ ω) (m : Mem) (size : ℕ) (m₁ : Mem) (i : ℕ) (m' : Mem) :
    Prop where
  rest : ∀ x, i ≤ x → m' x = m₁ x
  loaded : ∀ p, Start m size p → p < i → Loaded k m size p m'

theorem Checked.step {m₁ m'' : Mem} (hs : ∀ p, Start m size p → RuleSound m size p)
    (hagree : Agree m size m₁) (he : Start m size e) (h : Checked k m size m₁ e m')
    (hr : checkEntry k fuel size e m' = .ok m'') :
    nextOffset m'' e = nextOffset m e ∧ Checked k m size m₁ (e + nextOffset m e) m'' := by
  have hl : Laid m size := fun p hp ↦ (hs p hp).layout
  have hsame : Same m size e m' := ⟨hl e he, fun x hx hlt hfield ↦
    (h.rest x hx).trans ((hagree.same hl he).byte x hx hlt hfield)⟩
  obtain ⟨hout, hload⟩ := checkEntry_spec ((hs e he).congr hsame) hr
  rw [hsame.nextOffset_eq] at hout
  have hthis := hload.congr (hs e he) hsame
  refine ⟨hthis.nextOffset_eq, fun x hx ↦ ?_, fun p hp hlt ↦ ?_⟩
  · rw [hout x (Or.inr hx), h.rest x (by omega)]
  · rcases lt_trichotomy p e with hpe | rfl | hpe
    · have hgap := hp.gap he hpe
      exact (h.loaded p hp hpe).mono (fun x _ hx ↦ hout x (Or.inl (by omega))) (hs p hp)
    · exact hthis
    · have hgap := he.gap hp hpe
      omega

end LastPass

/-! ## The whole of it -/

/-- What `translate_table` does not check.  The matches and the target of each rule are in the rule,
one after the other; from where a hook begins one only gets to rules, by jumps and from one rule to
the next; and if one can come to a return there without a jump, then the rule for underflow has a
verdict for every packet. -/
structure Replace.Sound (r : Replace) : Prop where
  rule : ∀ e, Start r.mem r.size e → RuleSound r.mem r.size e
  flow : ∀ hook, r.validHooks hook = true → ∀ p,
    Relation.ReflTransGen (blobFlow r.mem).Succ (r.hookEntry hook) p → Start r.mem r.size p
  underflow : ∀ hook, r.validHooks hook = true → ∀ p,
    Relation.ReflTransGen (blobFlow r.mem).Fall (r.hookEntry hook) p →
    isStandard r.mem (getTarget r.mem p) = true → verdict r.mem (getTarget r.mem p) = iptReturn →
    isEnd r.mem (r.underflow hook) = true ∧
      verdict r.mem (getTarget r.mem (r.underflow hook)) ≠ iptReturn

section Translate

variable {μ : Type u} {τ : Type v} {ω : Type w} [DecidableEq τ] {k : Modules μ τ ω} {r : Replace}
  {table : Table}

/-- The rules that one can get to from one of the hooks. -/
def Replace.Reach (r : Replace) (p : ℕ) : Prop := ∃ hook, r.validHooks hook = true ∧
  Relation.ReflTransGen (blobFlow r.mem).Succ (r.hookEntry hook) p

omit [DecidableEq τ] in
theorem Replace.Sound.marked (hr : r.Sound) : Marked r.mem r.size r.Reach where
  size_lt := r.size_lt
  laid p hp := (hr.rule p hp).layout
  standard p hp := (hr.rule p hp).standard
  start := by
    rintro p ⟨hook, hvalid, hp⟩
    exact hr.flow hook hvalid p hp
  succ := by
    rintro p ⟨hook, hvalid, hp⟩ q hq
    exact ⟨hook, hvalid, hp.tail hq⟩

/-- What is known of a table that has been accepted. -/
structure Accepted (k : Modules μ τ ω) (r : Replace) (table : Table) : Prop where
  inside : table.inside = true
  hookEntry : ∀ hook, r.validHooks hook = true → table.hookEntry hook = r.hookEntry hook
  underflow : ∀ hook, r.validHooks hook = true →
    table.underflow hook = r.underflow hook ∧ Start r.mem r.size (r.underflow hook)
  tree : ∀ hook, r.validHooks hook = true → Tree (blobFlow r.mem) ∅ (r.hookEntry hook)
  loaded : ∀ p, Start r.mem r.size p → Loaded k r.mem r.size p table.mem

/-- **What the three passes have done.** -/
theorem translateTable_spec (hr : r.Sound) {fuel : ℕ} (h : translateTable k fuel r = .ok table) :
    Accepted k r table := by
  have hQ := hr.marked
  unfold translateTable at h
  split at h
  · cases h
  rename_i info hinfo
  have hfirst : Cleared r.mem r.size r.hookEntry r.underflow r.size info :=
    entryIterate_spec (n := 0) r.size_lt hQ.laid
      (Cleared r.mem r.size r.hookEntry r.underflow)
      (fun e s s' he hinv hs ↦ hinv.step hQ.laid he hs) zero_le
      ⟨.refl _ _, fun p _ hlt ↦ absurd hlt (Nat.not_lt_zero p), fun _ hne ↦ absurd rfl hne,
        fun _ hne ↦ absurd rfl hne⟩ hinfo
  split at h
  · cases h
  split at h
  · cases h
  rename_i hhooks
  push Not at hhooks
  have hentry : ∀ hook, r.validHooks hook = true → info.hookEntry hook = r.hookEntry hook :=
    fun hook hvalid ↦ (hfirst.hookEntry hook (hhooks hook hvalid).1).1
  split at h
  · cases h
  rename_i s hs
  have hpath : Path r.mem r.size r.Reach info.mem [] := by
    refine ⟨hfirst.agree, fun p hp ↦ ?_, List.nodup_nil, trivial, by simp⟩
    rw [hfirst.comefrom p hp hp.1]
    simp
  obtain ⟨htree, hpath', hinside⟩ := markSourceChains_spec hQ (fun hook hvalid ↦
    ⟨hook, hvalid, by rw [hentry hook hvalid]⟩) hpath rfl hs
  split at h
  · cases h
  rename_i m₃ hm₃
  have hlast : Checked k r.mem r.size s.mem r.size m₃ :=
    entryIterate_spec (n := 0) r.size_lt hQ.laid
      (Checked k r.mem r.size s.mem)
      (fun e s s' he hinv hs ↦ hinv.step hr.rule hpath'.agree he hs) zero_le
      ⟨fun _ _ ↦ rfl, fun p _ hlt ↦ absurd hlt (Nat.not_lt_zero p)⟩ hm₃
  cases h
  refine ⟨hinside, hentry, fun hook hvalid ↦ hfirst.underflow hook (hhooks hook hvalid).2,
    fun hook hvalid ↦ ?_, fun p hp ↦ hlast.loaded p hp hp.1⟩
  rw [← hentry hook hvalid]
  exact htree hook (List.mem_finRange hook) hvalid

omit [DecidableEq τ] in
/-- The rules that a packet at a hook can get to are all right. -/
theorem Accepted.closed (hr : r.Sound) (h : Accepted k r table) {hook : Hook}
    (hvalid : r.validHooks hook = true) : Closed k table.mem r.size fun p ↦
      r.Reach p ∨ p = r.underflow hook ∧ isEnd r.mem p = true := by
  have hQ := hr.marked
  have hstart : ∀ {p}, Start table.mem r.size p ↔ Start r.mem r.size p :=
    start_congr fun p hp ↦ (h.loaded p hp).nextOffset_eq
  have hplace : ∀ p, r.Reach p ∨ p = r.underflow hook ∧ isEnd r.mem p = true →
      Start r.mem r.size p := by
    rintro p (hp | ⟨rfl, -⟩)
    · exact hQ.start p hp
    · exact (h.underflow hook hvalid).2
  refine ⟨r.size_lt, fun p hp ↦ (h.loaded p (hstart.1 hp)).rule.layout,
    fun p hp ↦ hstart.2 (hplace p hp), fun p hp ↦ (h.loaded p (hplace p hp)).rule,
    fun p hp q hq ↦ ?_⟩
  have hload := h.loaded p (hplace p hp)
  have hsucc : (blobFlow r.mem).Succ p q := by
    cases hq with
    | next hend =>
      have hnext : (flow k table.mem).next p = (blobFlow r.mem).next p :=
        congrArg (p + ·) hload.nextOffset_eq
      rw [hnext]
      exact .next (mt hload.ends_iff.2 hend)
    | target ht => exact .target (hload.target_eq ▸ ht)
  rcases hp with hp | ⟨-, hend⟩
  · exact Or.inl (hQ.succ p hp q hsucc)
  · -- the end of a chain is followed by nothing
    cases hsucc with
    | next hnot => exact absurd hend hnot
    | target ht =>
      simp only [isEnd, Bool.and_eq_true, decide_eq_true_eq] at hend
      simp only [blobFlow, Bool.and_eq_true, decide_eq_true_eq] at ht
      rw [if_neg fun hc ↦ absurd hend.1.2 (not_lt.2 hc.2)] at ht
      cases ht

/-- **`translate_table` is sound for tables whose rules are where they should be.**  If such a table
is accepted, then `mark_source_chains` has not left the blob, and for each packet at one of its
hooks `ipt_do_table` comes to a verdict, and is at rules of the table only on the way. -/
theorem translate_sound (hr : r.Sound) {fuel : ℕ} (h : translateTable k fuel r = .ok table) :
    table.inside = true ∧ ∀ (call : Call) (env : ω), r.validHooks call.hook = true →
      ∃ n visited x, (∀ fuel', n ≤ fuel' →
        iptDoTable k fuel' table call env = (visited, some x)) ∧
        ∀ p ∈ visited, Start r.mem r.size p := by
  have hacc := translateTable_spec hr h
  refine ⟨hacc.inside, fun call env hvalid ↦ ?_⟩
  have hQ := hr.marked
  have hclosed := hacc.closed hr hvalid
  have hentry := hacc.hookEntry call.hook hvalid
  obtain ⟨hunder, hunderStart⟩ := hacc.underflow call.hook hvalid
  have hreach : r.Reach (r.hookEntry call.hook) := ⟨call.hook, hvalid, .refl⟩
  have hload : ∀ p, r.Reach p → Loaded k r.mem r.size p table.mem := fun p hp ↦
    hacc.loaded p (hQ.start p hp)
  have htree : Tree (flow k table.mem) ∅ (table.hookEntry call.hook) := by
    rw [hentry]
    exact (hacc.tree call.hook hvalid).congr hQ.succ
      (fun p hp ↦ congrArg (p + ·) (hload p hp).nextOffset_eq)
      (fun p hp ↦ (hload p hp).ends_iff) (fun p hp ↦ (hload p hp).target_eq) hreach
  -- without jumps, a packet goes where `mark_source_chains` has been
  have hfall : ∀ q, Relation.ReflTransGen (flow k table.mem).Fall (table.hookEntry call.hook) q →
      Relation.ReflTransGen (blobFlow r.mem).Fall (r.hookEntry call.hook) q ∧ r.Reach q := by
    rw [hentry]
    intro q hq
    induction hq with
    | refl => exact ⟨.refl, hreach⟩
    | tail _ hstep ih =>
      obtain ⟨hend, rfl⟩ := hstep
      have hend' := mt (hload _ ih.2).ends_iff.2 hend
      have hnext : (flow k table.mem).next _ = (blobFlow r.mem).next _ :=
        congrArg (_ + ·) (hload _ ih.2).nextOffset_eq
      rw [hnext]
      exact ⟨ih.1.tail ⟨hend', rfl⟩, hQ.succ _ ih.2 _ (.next hend')⟩
  obtain ⟨env', v, n, visited, -, hrun, hvisited⟩ := hclosed.result htree (Or.inl (hentry ▸ hreach))
    (hunder ▸ hunderStart.1.trans r.size_lt) env fun w heval ↦ by
      obtain ⟨q, w₀, w₁, hpath, -, hact⟩ := heval.ret_place (flow_fits call hclosed.rule)
        hclosed.succ rfl (Or.inl (hentry ▸ hreach))
      obtain ⟨hpath', hq'⟩ := hfall q hpath
      obtain ⟨x, hx⟩ := (hload q hq').rule.act call w₀
      obtain ⟨hstd, hret⟩ := ruleAct_standard (by simp) (by simp)
        (hx.trans (congrArg some ((program_act hx).symm.trans hact)))
      have hstd' := (hload q hq').standard_iff.1 hstd
      have hv := standardAct_ret hret
      rw [(hload q hq').getTarget_eq, (hload q hq').verdict_eq hstd'] at hv
      obtain ⟨hend, hpolicy⟩ := hr.underflow call.hook hvalid q hpath' hstd' hv
      have hlast := hacc.loaded _ hunderStart
      have hends := hlast.ends_iff.2 hend
      rw [hunder]
      refine ⟨Or.inr ⟨rfl, hend⟩, act_policy hends ?_ w⟩
      rw [hlast.getTarget_eq, hlast.verdict_eq (hlast.standard_iff.1 hends.1)]
      exact hpolicy
  refine ⟨n, visited, (env', v), fun fuel' hle ↦ Walk.run_mono hrun hle, fun p hp ↦ ?_⟩
  rcases hvisited p hp with hp | ⟨rfl, -⟩
  · exact hQ.start p hp
  · exact hunderStart

end Translate

/-! ## Two small tables -/

/-- A chain that calls another one, which returns, and then has the packet accepted; this last rule
is also the one for underflow. -/
def callBlob : Replace where
  mem := sparse (ruleBytes 0 0 296 ++ ruleBytes 148 0 (-2) ++ ruleBytes 296 0 (-5))
  size := 444
  size_lt := by decide
  number := 3
  validHooks h := h = 0
  hookEntry _ := 0
  underflow _ := 148

theorem callBlob_starts {p : ℕ} : Start callBlob.mem 444 p ↔ p = 0 ∨ p = 148 ∨ p = 296 := by
  constructor
  · intro h
    have hp := h.mem_list (n := 3) (by decide +kernel)
    have hlist : (List.range 3).map (orbit callBlob.mem) = [0, 148, 296] := by decide +kernel
    simpa [hlist] using hp
  · rintro (rfl | rfl | rfl)
    · exact ⟨by decide, 0, rfl⟩
    · exact ⟨by decide, 1, by decide +kernel⟩
    · exact ⟨by decide, 2, by decide +kernel⟩

theorem callBlob_sound : callBlob.Sound where
  rule e he := by
    rcases callBlob_starts.1 he with rfl | rfl | rfl
    all_goals exact ⟨⟨by decide +kernel, by decide +kernel, by decide +kernel, by decide +kernel⟩,
      .done (by decide +kernel), fun _ ↦ by decide +kernel⟩
  flow hook _ p hp := by
    refine callBlob_starts.2 ?_
    induction hp with
    | refl => exact Or.inl rfl
    | @tail p q _ hstep ih =>
      have hends : ∀ p, p = 148 ∨ p = 296 → isEnd callBlob.mem p = true ∧
          (blobFlow callBlob.mem).target p = none := by
        rintro p (rfl | rfl) <;> decide +kernel
      have hfirst : (blobFlow callBlob.mem).next 0 = 148 ∧
          (blobFlow callBlob.mem).target 0 = some 296 := by decide +kernel
      cases hstep with
      | next hend =>
        rcases ih with rfl | hp
        · exact Or.inr (Or.inl hfirst.1)
        · exact absurd (hends p hp).1 hend
      | target ht =>
        rcases ih with rfl | hp
        · exact Or.inr (Or.inr (Option.some.inj (ht.symm.trans hfirst.2)))
        · exact absurd (ht.symm.trans (hends p hp).2) (by simp)
  underflow _ _ _ _ _ _ := by
    change isEnd callBlob.mem 148 = true ∧
      verdict callBlob.mem (getTarget callBlob.mem 148) ≠ iptReturn
    decide +kernel

/-- The table is accepted, and a packet gets its verdict. -/
theorem translate_sound_call : callBlob.Sound ∧ ∃ table,
    translateTable marking 9 callBlob = .ok table ∧ table.inside = true ∧
    ∃ n visited x, (∀ fuel, n ≤ fuel →
      iptDoTable marking fuel table anyCall false = (visited, some x)) ∧
      ∀ p ∈ visited, Start callBlob.mem callBlob.size p := by
  have hok : (translateTable marking 9 callBlob).toBool = true := by decide +kernel
  cases h : translateTable marking 9 callBlob with
  | error err => simp [h, Except.toBool] at hok
  | ok table =>
    obtain ⟨hinside, hrun⟩ := translate_sound callBlob_sound h
    exact ⟨callBlob_sound, table, rfl, hinside, hrun anyCall false rfl⟩

section Rounds

variable {μ : Type u} {τ : Type v} {ω : Type w} [DecidableEq τ] (k : Modules μ τ ω) (call : Call)

/-- Where the loop is after so many rounds. -/
def Walk.rounds : ℕ → Walk ω → Option (Walk ω)
  | 0, s => some s
  | n + 1, s =>
    match s.round k call with
    | some (.inl t) => Walk.rounds n t
    | _ => none

theorem Walk.mem_run_of_rounds {n : ℕ} {s t : Walk ω} (h : s.rounds k call n = some t) :
    t.e ∈ (s.run k call (n + 1)).1 := by
  induction n generalizing s with
  | zero =>
    cases h
    rw [Walk.run]
    split <;> exact List.mem_cons_self
  | succ n ih =>
    rw [Walk.rounds] at h
    split at h
    · rename_i s' hs
      rw [Walk.run, hs]
      exact List.mem_cons_of_mem _ (ih h)
    · cases h

end Rounds

/-- A chain of one rule, which returns and is also the rule for underflow. -/
def returnBlob : Replace where
  mem := sparse (ruleBytes 0 0 (-5))
  size := 148
  size_lt := by decide
  number := 1
  validHooks h := h = 0
  hookEntry _ := 0
  underflow _ := 0

/-- **A table that is accepted, and that a packet leaves.**  The packet returns to the rule for
underflow, from there to the same rule again, and then to what `mark_source_chains` has left in
`comefrom`. -/
theorem translate_accepts_return : ∃ table, translateTable marking 3 returnBlob = .ok table ∧
    1 ∈ (iptDoTable marking 3 table anyCall false).1 ∧
    ¬ Start returnBlob.mem returnBlob.size 1 := by
  have hrun : ((translateTable marking 3 returnBlob).toOption.bind fun table ↦
      (Walk.rounds marking anyCall 2 ⟨table.mem, table.hookEntry 0, table.underflow 0,
        false⟩).map Walk.e) = some 1 := by decide +kernel
  have hstart : ¬ Start returnBlob.mem returnBlob.size 1 := fun hc ↦ by
    have hmem := hc.mem_list (n := 1) (by decide +kernel)
    exact absurd hmem (by decide)
  cases h : translateTable marking 3 returnBlob with
  | error err => simp [h, Except.toOption] at hrun
  | ok table =>
    rw [h] at hrun
    obtain ⟨t, ht, hte⟩ := Option.map_eq_some_iff.1 hrun
    have hvisit := Walk.mem_run_of_rounds marking anyCall ht
    rw [hte] at hvisit
    exact ⟨table, rfl, hvisit, hstart⟩

end Linux24.Ipt
