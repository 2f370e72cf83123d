import Linux24.Net.IptRules

/-!
# `ipt_do_table` implements nested chains

What a rule does with a packet is `ruleAct`: the packet goes on to the next rule, it gets its
verdict, it returns from the chain, or it jumps.  This makes the table a program in the sense of
`Calls`, whose `Result` is what nested chains mean: a jump calls a chain, a return resumes after the
jump, a return from a built-in chain takes the rule for underflow, and the first verdict wins.  A
jump to the rule that follows is no call for `ipt_do_table`; `next_jump_not_called` is a table for
which this makes a difference.

`Walk.round` does the same on the bytes, with the return addresses in `comefrom`.  It also counts
packets, but neither this nor the return addresses can be seen in what the rules do
(`Walk.round_eq`), so a run of the machine of `Calls` is a run of `ipt_do_table` (`Rel.run`).
-/

set_option autoImplicit false

universe u v w

namespace Linux24.Ipt

open Bytes Calls

variable {μ : Type u} {τ : Type v} {ω : Type w} [DecidableEq τ] (k : Modules μ τ ω)

/-! ## What a rule does -/

/-- A packet that a match wants to be dropped is dropped after the rule. -/
def afterRule (hotdrop : Bool) (env : ω) (a : Act ℕ ℕ) : ω × Act ℕ ℕ :=
  (env, if hotdrop then .stop nfDrop else a)

/-- What the standard target does. -/
def standardAct (v : ℤ) : Act ℕ ℕ :=
  if v < 0 then if v ≠ iptReturn then .stop (-v - 1).toNat else .ret else .jump v.toNat

/-- What a rule does with a packet that it matches. -/
def targetAct (call : Call) (m : Mem) (e : ℕ) (hotdrop : Bool) (env : ω) : Option (ω × Act ℕ ℕ) :=
  match k.targetAt (BitVec.ofNat 32 (elemPtr m (getTarget m e))) with
  | none => none
  | some x =>
    if x = k.standard then some (afterRule hotdrop env (standardAct (verdict m (getTarget m e))))
    else
      let (v, env) := k.runTarget x (elemData m (getTarget m e)) call.hook env
      some (afterRule hotdrop env (if v.toNat = iptContinue then .fall else .stop v.toNat))

/-- What a rule does with a packet. -/
def ruleAct (call : Call) (m : Mem) (e : ℕ) (env : ω) : Option (ω × Act ℕ ℕ) :=
  let env := k.orNfcache env (load m (e + 84) 4)
  if ipPacketMatch m e (k.ip env) call.indev call.outdev call.isfrag then
    match doMatches k m e (targetOffset m e + 1) sizeofEntry false env with
    | none => none
    | some (false, hotdrop, env) => some (afterRule hotdrop env .fall)
    | some (true, hotdrop, env) => targetAct k call m e hotdrop env
  else some (env, .fall)

/-- The table as a program. -/
def program (call : Call) (m : Mem) : Program ℕ ω ℕ where
  next e := e + nextOffset m e
  act e env := (ruleAct k call m e env).getD (env, .stop nfDrop)

/-! ## Rules whose pointers lead somewhere -/

/-- The matches of the rule, from the one at `i` on, are behind one another, and they are
registered. -/
inductive MatchesOk (m : Mem) (e : ℕ) : ℕ → Prop
  | done {i : ℕ} (h : targetOffset m e ≤ i) : MatchesOk m e i
  | cons {i : ℕ} (hlt : i < targetOffset m e) (hsize : sizeofTarget ≤ elemSize m (e + i))
      (hfits : i + elemSize m (e + i) ≤ targetOffset m e)
      (hptr : ∃ x, k.matchAt (BitVec.ofNat 32 (elemPtr m (e + i))) = some x)
      (hrest : MatchesOk m e (i + elemSize m (e + i))) : MatchesOk m e i

/-- The rule has the layout, and its matches and its target are registered. -/
structure RuleOk (m : Mem) (size e : ℕ) : Prop where
  layout : Layout m size e
  matches_ok : MatchesOk k m e sizeofEntry
  target : ∃ x, k.targetAt (BitVec.ofNat 32 (elemPtr m (getTarget m e))) = some x ∧
    (x = k.standard → targetOffset m e + sizeofStandard ≤ nextOffset m e)

/-- The target of the rule is the standard one. -/
def Standard (m : Mem) (e : ℕ) : Prop :=
  k.targetAt (BitVec.ofNat 32 (elemPtr m (getTarget m e))) = some k.standard

open Classical in
/-- What is known of the rules in advance: those that match every packet and have a verdict or a
return end a chain, and those with an offset for a verdict jump there. -/
noncomputable def flow (m : Mem) : Flow ℕ where
  next e := e + nextOffset m e
  ends e := Standard k m e ∧ targetOffset m e = sizeofEntry ∧ verdict m (getTarget m e) < 0 ∧
    unconditional m e
  target e := if Standard k m e ∧ 0 ≤ verdict m (getTarget m e) then
    some (verdict m (getTarget m e)).toNat else none

variable {k} {call : Call} {m m' : Mem} {size e : ℕ}

/-- A rule without conditions matches every packet. -/
theorem ipPacketMatch_unconditional (h : unconditional m e) (ip : IpHdr)
    (indev outdev : Fin 16 → Byte) (isfrag : Bool) :
    ipPacketMatch m e ip indev outdev isfrag = true := by
  have hzero : ∀ i, i < 84 → m (e + i) = 0 := by
    simpa [unconditional] using h
  have hload : ∀ n a, a + n ≤ 84 → load m (e + a) n = 0 := by
    intro n
    induction n with
    | zero => exact fun _ _ ↦ rfl
    | succ n ih =>
      intro a ha
      rw [load, hzero a (by omega), add_assoc, ih (a + 1) (by omega)]
      rfl
  have hfw : ∀ b bit, fwinv m e b bit = b := by
    intro b bit
    rw [fwinv, hzero 83 (by omega)]
    simp
  have hdev : ∀ a c dev, a + 16 ≤ 84 → c + 16 ≤ 84 →
      ifaceDiffers m (e + a) (e + c) dev = false := by
    intro a c dev ha hc
    simp only [ifaceDiffers, List.any_eq_false]
    intro i _
    rw [add_assoc e c, hzero (c + i) (by omega)]
    simp
  have hsrc : load m e 4 = 0 := hload 4 0 (by omega)
  simp [ipPacketMatch, hfw, hload, hdev, hzero, hsrc]

omit [DecidableEq τ] in
theorem doMatches_ok {i : ℕ} (h : MatchesOk k m e i) {fuel : ℕ} (hpos : 0 < fuel)
    (hfuel : targetOffset m e < i + fuel) (hotdrop : Bool) (env : ω) :
    ∃ r, doMatches k m e fuel i hotdrop env = some r := by
  induction h generalizing fuel hotdrop env with
  | done h =>
    cases fuel with
    | zero => omega
    | succ fuel => exact ⟨_, by rw [doMatches, if_neg (by omega)]⟩
  | @cons i hlt hsize hfits hptr _ ih =>
    cases fuel with
    | zero => omega
    | succ fuel =>
      obtain ⟨x, hx⟩ := hptr
      rw [sizeofTarget] at hsize
      rw [doMatches, if_pos hlt]
      simp only [hx]
      split
      · exact ih (by omega) (by omega) _ _
      · exact ⟨_, rfl⟩

/-- Something is done at each rule that is all right. -/
theorem RuleOk.act (h : RuleOk k m size e) (call : Call) (env : ω) :
    ∃ r, ruleAct k call m e env = some r := by
  unfold ruleAct
  dsimp only
  split
  · obtain ⟨⟨all, hotdrop, env'⟩, hr⟩ := doMatches_ok h.matches_ok (Nat.succ_pos (targetOffset m e))
      (by omega) false (k.orNfcache env (load m (e + 84) 4))
    obtain ⟨x, hx, -⟩ := h.target
    rw [hr]
    cases all with
    | false => exact ⟨_, rfl⟩
    | true =>
      simp only [targetAct, hx]
      split
      · exact ⟨_, rfl⟩
      · exact ⟨_, rfl⟩
  · exact ⟨_, rfl⟩

variable {env : ω} {q p : ℕ}

theorem program_act {r : ω × Act ℕ ℕ} (h : ruleAct k call m e env = some r) :
    (program k call m).act e env = r := by
  simp only [program, h]
  rfl

theorem afterRule_eq {hotdrop : Bool} {env' : ω} {a b : Act ℕ ℕ} (hb : ∀ v, b ≠ .stop v)
    (h : afterRule hotdrop env a = (env', b)) : a = b := by
  cases hotdrop with
  | false => exact (Prod.mk.inj h).2
  | true => exact absurd (Prod.mk.inj h).2.symm (hb nfDrop)

theorem standardAct_jump {v : ℤ} (h : standardAct v = .jump q) : 0 ≤ v ∧ v.toNat = q := by
  unfold standardAct at h
  split at h
  · split at h <;> cases h
  · exact ⟨by omega, Act.jump.inj h⟩

theorem standardAct_ret {v : ℤ} (h : standardAct v = .ret) : v = iptReturn := by
  unfold standardAct at h
  split at h
  · split at h
    · cases h
    · rename_i hv
      exact not_not.1 hv
  · cases h

/-- Only standard targets jump or return. -/
theorem ruleAct_standard {env' : ω} {a : Act ℕ ℕ} (hfall : a ≠ .fall) (hstop : ∀ v, a ≠ .stop v)
    (h : ruleAct k call m e env = some (env', a)) :
    Standard k m e ∧ standardAct (verdict m (getTarget m e)) = a := by
  unfold ruleAct at h
  dsimp only at h
  split at h
  · split at h
    · cases h
    · exact absurd (afterRule_eq hstop (Option.some.inj h)) hfall.symm
    · unfold targetAct at h
      split at h
      · cases h
      · rename_i hx
        split at h
        · rename_i hstd
          exact ⟨hx.trans (congrArg some hstd), afterRule_eq hstop (Option.some.inj h)⟩
        · have hact := afterRule_eq hstop (Option.some.inj h)
          split at hact
          · exact absurd hact hfall.symm
          · exact absurd hact.symm (hstop _)
  · exact absurd (Prod.mk.inj (Option.some.inj h)).2 hfall.symm

/-- What a rule does that ends a chain. -/
theorem ruleAct_ends (hend : (flow k m).ends e) (env : ω) : ruleAct k call m e env =
    some (k.orNfcache env (load m (e + 84) 4), standardAct (verdict m (getTarget m e))) := by
  obtain ⟨hstd, hoff, -, huncond⟩ := hend
  have hmatches : ∀ env, doMatches k m e (targetOffset m e + 1) sizeofEntry false env =
      some (true, false, env) := fun env ↦ by
    rw [doMatches, if_neg (by omega)]
  rw [Standard] at hstd
  simp [ruleAct, targetAct, ipPacketMatch_unconditional huncond, hmatches, hstd, afterRule]

/-- **The rules do what is known of them in advance.** -/
theorem flow_fits (call : Call) {Q : ℕ → Prop} (hQ : ∀ p, Q p → RuleOk k m size p) :
    (flow k m).Fits (program k call m) Q where
  next := rfl
  ends p env hp hend := by
    refine ⟨_, _, program_act (ruleAct_ends hend env), ?_⟩
    rw [standardAct, if_pos hend.2.2.1]
    split
    · exact Or.inr ⟨_, rfl⟩
    · exact Or.inl rfl
  target p env env' q hp hact := by
    obtain ⟨r, hr⟩ := (hQ p hp).act call env
    rw [program_act hr] at hact
    subst hact
    obtain ⟨hstd, hjump⟩ := ruleAct_standard (by simp) (by simp) hr
    obtain ⟨hpos, rfl⟩ := standardAct_jump hjump
    exact if_pos ⟨hstd, hpos⟩

/-! ## One round -/

section Rounds

variable (h : Same m size e m')
include h

omit [DecidableEq τ] in
theorem doMatches_agree {i : ℕ} (hi : sizeofEntry ≤ i) (hok : MatchesOk k m e i) (fuel : ℕ)
    (hotdrop : Bool) (env : ω) :
    doMatches k m' e fuel i hotdrop env = doMatches k m e fuel i hotdrop env := by
  rw [sizeofEntry] at hi
  have hheader := h.layout.bounds.2
  have htoff := h.targetOffset_eq
  induction hok generalizing fuel hotdrop env with
  | done h =>
    cases fuel with
    | zero => rfl
    | succ fuel => rw [doMatches, doMatches, if_neg (by omega), if_neg (by omega)]
  | @cons i hlt hsize hfits hptr _ ih =>
    cases fuel with
    | zero => rfl
    | succ fuel =>
      obtain ⟨hsize', hdata⟩ := h.elem_eq hi (by omega) (by omega)
      have hptr' : elemPtr m' (e + i) = elemPtr m (e + i) := by
        rw [elemPtr, elemPtr, add_assoc, h.load_elem (by omega) (by omega)]
      rw [doMatches, doMatches, htoff, hptr', hdata, hsize']
      simp [ih (by omega)]

theorem targetAct_agree (hok : RuleOk k m size e) (hotdrop : Bool) (env : ω) :
    targetAct k call m' e hotdrop env = targetAct k call m e hotdrop env := by
  have hdata := (h.elem_eq h.layout.first h.layout.header h.layout.target).2
  obtain ⟨x, hx, hstd⟩ := hok.target
  simp only [targetAct, h.getTarget_eq, h.elemPtr_eq, hx]
  by_cases hxs : x = k.standard
  · simp only [hxs, if_true, h.verdict_eq (hstd hxs)]
  · simp only [if_neg hxs]
    rw [getTarget, hdata]

end Rounds

/-- What comes of it: the next round, or the verdict. -/
def Walk.after (s : Walk ω) (mem : Mem) (next : ℕ) (r : ω × Act ℕ ℕ) : Walk ω ⊕ ω × ℕ :=
  match r with
  | (env, .fall) => .inl ⟨mem, next, s.back, env⟩
  | (env, .stop v) => .inr (env, v)
  | (env, .ret) => .inl ⟨mem, s.back, comefrom mem s.back, env⟩
  | (env, .jump q) =>
    if q = next then .inl ⟨mem, q, s.back, env⟩
    else .inl ⟨store mem (next + 92) 4 s.back, q, next, env⟩

theorem Walk.loop_eq (s : Walk ω) (mem : Mem) (next : ℕ) (hotdrop : Bool) (env : ω) (a : Act ℕ ℕ)
    {t : Walk ω} (h : s.after mem next (env, a) = .inl t) (henv : t.env = env) :
    Walk.loop hotdrop t = s.after mem next (afterRule hotdrop env a) := by
  cases hotdrop with
  | false => exact h.symm
  | true => simp [Walk.loop, afterRule, Walk.after, henv]

theorem Walk.stop_eq (s : Walk ω) (mem : Mem) (next : ℕ) (hotdrop : Bool) (env : ω) (v : ℕ) :
    .inr (env, if hotdrop then nfDrop else v) =
      s.after mem next (afterRule hotdrop env (.stop v)) := by
  cases hotdrop <;> rfl

theorem Agree.addCounter (h : Agree m size m') (he : Start m size e) (b : ℕ) :
    Agree m size (addCounter m' e b) :=
  (h.store he (by omega) (by omega)).store he (by omega) (by omega)

/-- The round of a rule that the packet matches does what its target does. -/
theorem Walk.askTarget_eq (s : Walk ω) (hotdrop : Bool) : s.askTarget k call hotdrop =
    (targetAct k call (addCounter s.mem s.e (k.ip s.env).totLen) s.e hotdrop s.env).map
      (s.after (addCounter s.mem s.e (k.ip s.env).totLen)
        (s.e + nextOffset (addCounter s.mem s.e (k.ip s.env).totLen) s.e)) := by
  unfold Walk.askTarget targetAct
  dsimp only
  generalize addCounter s.mem s.e (k.ip s.env).totLen = m
  cases hx : k.targetAt (BitVec.ofNat 32 (elemPtr m (getTarget m s.e))) with
  | none => rfl
  | some x =>
    dsimp only
    by_cases hstd : x = k.standard
    · rw [if_pos hstd, if_pos hstd]
      generalize verdict m (getTarget m s.e) = v
      by_cases hneg : v < 0
      · rw [if_pos hneg, standardAct, if_pos hneg]
        by_cases hret : v ≠ iptReturn
        · rw [if_pos hret, if_pos hret]
          exact congrArg some (Walk.stop_eq ..)
        · rw [if_neg hret, if_neg hret]
          exact congrArg some (Walk.loop_eq s _ _ _ _ .ret rfl rfl)
      · rw [standardAct, if_neg hneg]
        split
        · refine congrArg some (Walk.loop_eq s _ _ _ _ _ ?_ rfl)
          rw [Walk.after, if_neg (by omega)]
        · refine congrArg some (Walk.loop_eq s _ _ _ _ _ ?_ rfl)
          rw [Walk.after, if_pos (by omega)]
    · rw [if_neg hstd, if_neg hstd]
      split
      · exact congrArg some (Walk.loop_eq s _ _ _ _ .fall rfl rfl)
      · exact congrArg some (Walk.stop_eq ..)

/-- **One round** does what the rule does.  The memory changes in the counters only, before a return
address is written. -/
theorem Walk.round_eq (call : Call) {s : Walk ω} (hl : Laid m size) (hagree : Agree m size s.mem)
    (he : Start m size s.e) (hok : RuleOk k m size s.e) : ∃ mem, Agree m size mem ∧
    (∀ q, Start m size q → comefrom mem q = comefrom s.mem q) ∧
    s.round k call =
      (ruleAct k call m s.e s.env).map (s.after mem (s.e + nextOffset m s.e)) := by
  have hsame := hagree.same hl he
  unfold Walk.round ruleAct
  simp only [hsame.load_head (show 84 + 4 ≤ 92 by omega), hsame.nextOffset_eq,
    hsame.ipPacketMatch_eq, hsame.targetOffset_eq,
    doMatches_agree hsame le_rfl hok.matches_ok]
  split
  · cases hm : doMatches k m s.e (targetOffset m s.e + 1) sizeofEntry false
        (k.orNfcache s.env (load m (s.e + 84) 4)) with
    | none => exact ⟨s.mem, hagree, fun _ _ ↦ rfl, rfl⟩
    | some r =>
      obtain ⟨all, hotdrop, env⟩ := r
      cases all with
      | false =>
        refine ⟨s.mem, hagree, fun _ _ ↦ rfl, ?_⟩
        exact congrArg some (Walk.loop_eq s _ _ _ _ .fall rfl rfl)
      | true =>
        have hcount := hagree.addCounter he (k.ip env).totLen
        refine ⟨_, hcount, fun q hq ↦ ?_, ?_⟩
        · exact (comefrom_store_counters hl he hq (by omega) (by omega)).trans
            (comefrom_store_counters hl he hq (by omega) (by omega))
        · dsimp only
          have hsame' := hcount.same hl he
          rw [Walk.askTarget_eq, targetAct_agree hsame' hok, hsame'.nextOffset_eq]
          rfl
  · exact ⟨s.mem, hagree, fun _ _ ↦ rfl, rfl⟩

/-! ## Runs -/

/-- The loop is where the machine is. -/
structure Rel (m : Mem) (size : ℕ) (s : State ℕ ω) (d : Walk ω) : Prop where
  e : d.e = s.pc
  back : d.back = s.back
  env : d.env = s.env
  agree : Agree m size d.mem
  come : ∀ q, Start m size q → comefrom d.mem q = s.come q
  back_lt : s.back < 2 ^ 32

section Runs

variable {Q : ℕ → Prop} {s t : State ℕ ω} {d : Walk ω}

/-- The rules that satisfy `Q` are all right, and one does not get from them to any other. -/
structure Closed (k : Modules μ τ ω) (m : Mem) (size : ℕ) (Q : ℕ → Prop) : Prop where
  size_lt : size < 2 ^ 32
  laid : Laid m size
  start : ∀ p, Q p → Start m size p
  rule : ∀ p, Q p → RuleOk k m size p
  succ : ∀ p, Q p → ∀ q, (flow k m).Succ p q → Q q

/-- A rule after which one goes on does not end a chain. -/
theorem Closed.next (hQ : Closed k m size Q) {p : ℕ} (hp : Q p) {env env' : ω} {q : ℕ}
    (h : (program k call m).act p env = (env', .jump q)) : Q (p + nextOffset m p) := by
  refine hQ.succ p hp _ (.next fun hend ↦ ?_)
  obtain ⟨w, r, hact, hr⟩ := (flow_fits call hQ.rule).ends p env hp hend
  cases h.symm.trans hact
  simp at hr

/-- **One step** of the machine is one round of the loop. -/
theorem Rel.round (hQ : Closed k m size Q) (hrel : Rel m size s d) (hp : Q s.pc) :
    ∃ y, d.round k call = some y ∧ Sum.LiftRel (fun t d' ↦ Q t.pc → Rel m size t d') (· = ·)
      (Calls.step (program k call m) s) y := by
  have hstart := hQ.start _ hp
  have hok := hQ.rule _ hp
  have hne : d.e = s.pc := hrel.e
  obtain ⟨mem, hagree, hcome, hround⟩ := Walk.round_eq call hQ.laid hrel.agree
    (hne ▸ hstart) (hne ▸ hok)
  obtain ⟨⟨env, a⟩, hact⟩ := hok.act call s.env
  have hpact := program_act hact
  have hcome' : ∀ q, Start m size q → comefrom mem q = s.come q := fun q hq ↦
    (hcome q hq).trans (hrel.come q hq)
  rw [hne, hrel.env, hact] at hround
  refine ⟨_, hround, ?_⟩
  rw [step, hpact]
  cases a with
  | fall => exact .inl fun _ ↦ ⟨rfl, hrel.back, rfl, hagree, hcome', hrel.back_lt⟩
  | stop v => exact .inr rfl
  | ret =>
    refine .inl fun hback ↦ ?_
    have hback' := hcome' s.back (hQ.start _ hback)
    refine ⟨hrel.back, ?_, rfl, hagree, hcome', ?_⟩
    · rw [hrel.back, hback']
    · rw [← hback']
      exact load_lt mem _ 4
  | jump q =>
    have hnext := hQ.start _ (hQ.next hp hpact)
    have hgnext : (program k call m).next s.pc = s.pc + nextOffset m s.pc := rfl
    simp only [Walk.after, hgnext]
    by_cases hq : q = s.pc + nextOffset m s.pc
    · rw [if_pos hq, if_pos hq]
      exact .inl fun _ ↦ ⟨rfl, hrel.back, rfl, hagree, hcome', hrel.back_lt⟩
    · rw [if_neg hq, if_neg hq]
      refine .inl fun _ ↦ ⟨rfl, rfl, rfl, hagree.store hnext le_rfl (by omega), fun r hr ↦ ?_,
        hnext.1.trans hQ.size_lt⟩
      rw [comefrom_store_comefrom hQ.laid hnext hr, hrel.back, Nat.mod_eq_of_lt hrel.back_lt,
        hcome' r hr]
      exact (Function.update_apply s.come _ s.back r).symm

/-- **A run of the machine is a run of the loop.** -/
theorem Rel.run (hQ : Closed k m size Q) {x : State ℕ ω ⊕ ω × ℕ}
    (h : Run (program k call m) Q s x) {y : ω × ℕ} (hx : x = .inr y) (hrel : Rel m size s d) :
    ∃ fuel visited, d.run k call fuel = (visited, some y) ∧ ∀ p ∈ visited, Q p := by
  induction h generalizing d with
  | here _ => cases hx
  | stop hp hstep =>
    obtain rfl := Sum.inr.inj hx
    obtain ⟨_, hround, hlift⟩ := hrel.round hQ hp
    rw [hstep] at hlift
    cases hlift with | inr hy =>
    refine ⟨1, [d.e], ?_, ?_⟩
    · rw [Walk.run, hround, hy]
    · intro p hpe
      rw [List.mem_singleton.1 hpe, hrel.e]
      exact hp
  | step hp hstep ht ih =>
    obtain ⟨_, hround, hlift⟩ := hrel.round hQ hp
    rw [hstep] at hlift
    cases hlift with | inl hrel' =>
    obtain ⟨fuel, visited, hrun, hvisited⟩ := ih hx (hrel' ht.start)
    refine ⟨fuel + 1, d.e :: visited, ?_, ?_⟩
    · rw [Walk.run, hround]
      simp [hrun]
    · exact List.forall_mem_cons.2 ⟨hrel.e ▸ hp, hvisited⟩

end Runs

/-- More rounds do not make a difference. -/
theorem Walk.run_mono {fuel fuel' : ℕ} {d : Walk ω} {visited : List ℕ} {x : ω × ℕ}
    (h : d.run k call fuel = (visited, some x)) (hle : fuel ≤ fuel') :
    d.run k call fuel' = (visited, some x) := by
  induction fuel generalizing d fuel' visited with
  | zero => cases h
  | succ fuel ih =>
    obtain ⟨fuel', rfl⟩ : ∃ n, fuel' = n + 1 := ⟨fuel' - 1, by omega⟩
    rw [Walk.run] at h ⊢
    split at h
    · cases h
    · exact h
    · obtain ⟨hv, hx⟩ := Prod.mk.inj h
      have hrest := ih (Prod.ext rfl hx) (by omega : fuel ≤ fuel')
      simp only [hrest]
      exact Prod.ext hv rfl

theorem Laid.next_injective (hl : Laid m size) (hp : Start m size p)
    (hq : Start m size q) (h : p + nextOffset m p = q + nextOffset m q) : p = q := by
  have hp' := hl.le_next hp
  have hq' := hl.le_next hq
  rcases lt_trichotomy p q with hlt | heq | hlt
  · have hgap := hp.gap hq hlt
    omega
  · exact heq
  · have hgap := hq.gap hp hlt
    omega

/-- **Where no jump is made while it is in progress, the loop comes to the result of the nested
chains**, and on the way it is at rules only. -/
theorem Closed.result {Q : ℕ → Prop} {table : Table} (hQ : Closed k table.mem size Q)
    (htree : Tree (flow k table.mem) ∅ (table.hookEntry call.hook))
    (hentry : Q (table.hookEntry call.hook)) (hlt : table.underflow call.hook < 2 ^ 32) (env : ω)
    (hunder : ∀ w, Eval (program k call table.mem) (program k call table.mem).Far
        (table.hookEntry call.hook) env w none →
      Q (table.underflow call.hook) ∧
        ∃ w' v, (program k call table.mem).act (table.underflow call.hook) w = (w', .stop v)) :
    ∃ env' v fuel visited,
      Result (program k call table.mem) (program k call table.mem).Far
        (table.hookEntry call.hook) (table.underflow call.hook) env env' v ∧
      iptDoTable k fuel table call env = (visited, some (env', v)) ∧ ∀ p ∈ visited, Q p := by
  obtain ⟨env', v, hres, hrun⟩ := htree.result (flow_fits call hQ.rule) hQ.succ
    (fun p q hp hq h ↦ hQ.laid.next_injective (hQ.start p hp) (hQ.start q hq) h) hentry env hunder
    (comefrom table.mem)
  obtain ⟨fuel, visited, hloop, hvisited⟩ := Rel.run hQ hrun rfl
    (d := ⟨table.mem, table.hookEntry call.hook, table.underflow call.hook, env⟩)
    ⟨rfl, rfl, rfl, .refl _ _, fun _ _ ↦ rfl, hlt⟩
  exact ⟨env', v, fuel, visited, hres, hloop, hvisited⟩

/-! ## Tables that are well formed -/

/-- The table is well formed, as far as packets at the hook are concerned: the rules are all right;
after each rule that does not end a chain there is another one; jumps go to rules; and at the hook
there is a rule to start with and, for underflow, one with a verdict for every packet. -/
structure WellFormed (k : Modules μ τ ω) (table : Table) (size : ℕ) (hook : Hook) : Prop where
  size_lt : size < 2 ^ 32
  rule : ∀ p, Start table.mem size p → RuleOk k table.mem size p
  next : ∀ p, Start table.mem size p → ¬ (flow k table.mem).ends p →
    Start table.mem size (p + nextOffset table.mem p)
  jump : ∀ p q, Start table.mem size p → (flow k table.mem).target p = some q →
    Start table.mem size q
  entry : Start table.mem size (table.hookEntry hook)
  underflow : Start table.mem size (table.underflow hook)
  policy : (flow k table.mem).ends (table.underflow hook) ∧
    verdict table.mem (getTarget table.mem (table.underflow hook)) ≠ iptReturn

/-- There is no way from a rule back to it, along jumps and from one rule to the next. -/
def Acyclic (k : Modules μ τ ω) (table : Table) (size : ℕ) : Prop :=
  ∀ p, Start table.mem size p → ¬ Relation.TransGen (flow k table.mem).Succ p p

omit [DecidableEq τ] in
theorem WellFormed.closed {table : Table} {hook : Hook} (h : WellFormed k table size hook) :
    Closed k table.mem size (Start table.mem size) where
  size_lt := h.size_lt
  laid p hp := (h.rule p hp).layout
  start _ hp := hp
  rule := h.rule
  succ p hp q hq := by
    cases hq with
    | next hend => exact h.next p hp hend
    | target ht => exact h.jump p q hp ht

/-- A rule with a verdict for every packet. -/
theorem act_policy {u : ℕ} (hend : (flow k m).ends u)
    (hv : verdict m (getTarget m u) ≠ iptReturn) (env : ω) :
    ∃ env' v, (program k call m).act u env = (env', .stop v) := by
  rw [program_act (ruleAct_ends hend env), standardAct, if_pos hend.2.2.1, if_pos hv]
  exact ⟨_, _, rfl⟩

/-- **`ipt_do_table` implements nested chains.**  For a table that is well formed and has no cycles
of jumps, every packet gets a verdict if the loop has enough rounds, and it is the one that nested
chains give: a jump calls a chain unless it goes to the rule that follows, a return resumes after
the jump, a return from the chain of the hook takes the rule for underflow, and the first verdict
wins. -/
theorem do_table_nested {table : Table} (hwf : WellFormed k table size call.hook)
    (hacyc : Acyclic k table size) (env : ω) : ∃ x : ω × ℕ,
      (∃ n, ∀ fuel, n ≤ fuel → (iptDoTable k fuel table call env).2 = some x) ∧
      ∀ env' v, Result (program k call table.mem) (program k call table.mem).Far
        (table.hookEntry call.hook) (table.underflow call.hook) env env' v ↔ (env', v) = x := by
  have hQ := hwf.closed
  have hfin : {p | Start table.mem size p}.Finite :=
    (Set.finite_Iio size).subset fun p hp ↦ hp.1
  have htree : Tree (flow k table.mem) ∅ (table.hookEntry call.hook) :=
    .of_acyclic hfin hQ.succ hacyc hwf.entry (by simp)
  obtain ⟨env', v, fuel, visited, hres, hloop, -⟩ := hQ.result htree hwf.entry
    (hwf.underflow.1.trans hwf.size_lt) env
    fun w _ ↦ ⟨hwf.underflow, act_policy hwf.policy.1 hwf.policy.2 w⟩
  refine ⟨(env', v), ⟨fuel, fun fuel' hle ↦ ?_⟩, fun env'' v' ↦ ⟨fun h ↦ ?_, ?_⟩⟩
  · rw [iptDoTable, Walk.run_mono hloop hle]
  · obtain ⟨rfl, rfl⟩ := h.unique hres
    rfl
  · rintro ⟨⟩
    exact hres

/-! ## A small table -/

/-- A memory with some bytes in it. -/
def sparse (l : List (ℕ × Byte)) : Mem := fun x ↦ (l.lookup x).getD 0

/-- The bytes of a rule without conditions for the standard target, to which the pointer leads if it
has been set. -/
def ruleBytes (e : ℕ) (ptr : Byte) (v : BitVec 32) : List (ℕ × Byte) :=
  [(e + 88, 112), (e + 90, 148), (e + 112, 36), (e + 117, ptr), (e + 144, v.extractLsb' 0 8),
    (e + 145, v.extractLsb' 8 8), (e + 146, v.extractLsb' 16 8), (e + 147, v.extractLsb' 24 8)]

/-- A packet at the first hook. -/
def anyCall : Call where
  hook := ⟨0, by decide⟩
  indev _ := 0
  outdev _ := 0
  isfrag := false

/-- There is a match for packets that have a mark, and the target `true` marks them.  All that is
kept of a packet is whether it has the mark. -/
def marking : Modules Unit Bool Bool where
  findMatch _ := some ()
  findTarget name := some (name ≠ [])
  standard := false
  find_standard name := by simp
  matchAddr _ := 0
  matchAt _ := some ()
  matchAt_addr _ := rfl
  targetAddr x := if x then 0x2000 else 0x1000
  targetAt a := some (a = 0x2000)
  targetAt_addr x := by cases x <;> rfl
  checkMatch _ _ _ _ := true
  checkTarget _ _ _ _ := true
  runMatch _ _ env := (env, false, env)
  runTarget _ _ _ _ := (0xffffffff, true)
  ip _ := ⟨0, 0, 0, 0⟩
  orNfcache env _ := env

/-- A jump to the rule that follows, where a packet with the mark is dropped.  Then a chain is
called that marks the packet, and there is a return; on underflow the packet is accepted. -/
def markTable : Table where
  mem := sparse (ruleBytes 0 0x10 148 ++
    [(236, 144), (238, 180), (260, 32), (292, 36), (297, 0x10), (324, 0xff), (325, 0xff),
      (326, 0xff), (327, 0xff)] ++
    ruleBytes 328 0x10 772 ++ ruleBytes 476 0x10 (-5) ++ ruleBytes 624 0x10 (-2) ++
    ruleBytes 772 0x20 (-1) ++ ruleBytes 920 0x10 (-5))
  hookEntry _ := 0
  underflow _ := 624
  inside := true

/-- Where its rules are. -/
def markRules : List ℕ := [0, 148, 328, 476, 624, 772, 920]

theorem markTable_start : Start markTable.mem 1068 p ↔ p ∈ markRules := by
  have hlist : (List.range 7).map (orbit markTable.mem) = markRules := by decide +kernel
  constructor
  · intro hp
    exact hlist ▸ hp.mem_list (by decide +kernel)
  · intro hp
    have hlt : ∀ p ∈ markRules, p < 1068 := by decide
    obtain ⟨i, -, hi⟩ := List.mem_map.1 (hlist ▸ hp)
    exact ⟨hlt p hp, i, hi⟩

theorem markTable_ends (h : p ∈ [476, 624, 920]) : (flow marking markTable.mem).ends p := by
  fin_cases h
  all_goals refine ⟨by rw [Standard]; decide +kernel, ?_, ?_, ?_⟩ <;> decide +kernel

/-- One only gets to rules further down. -/
theorem markTable_succ (hp : p ∈ markRules) (h : (flow marking markTable.mem).Succ p q) :
    p < q ∧ q ∈ markRules := by
  have hrules : ∀ p ∈ markRules, (p ∈ [476, 624, 920] ∨
      p < p + nextOffset markTable.mem p ∧ p + nextOffset markTable.mem p ∈ markRules) ∧
      (verdict markTable.mem (getTarget markTable.mem p) < 0 ∨
        p < (verdict markTable.mem (getTarget markTable.mem p)).toNat ∧
        (verdict markTable.mem (getTarget markTable.mem p)).toNat ∈ markRules) := by decide +kernel
  cases h with
  | next hend => exact (hrules p hp).1.resolve_left fun hc ↦ hend (markTable_ends hc)
  | target ht =>
    obtain ⟨hjump, heq⟩ := Option.ite_none_right_eq_some.1 ht
    obtain rfl := Option.some.inj heq
    exact (hrules p hp).2.resolve_left (not_lt.2 hjump.2)

theorem markTable_rule (hp : p ∈ markRules) : RuleOk marking markTable.mem 1068 p := by
  have hlayout : ∀ p ∈ markRules, p + nextOffset markTable.mem p ≤ 1068 ∧
      sizeofEntry ≤ targetOffset markTable.mem p ∧
      targetOffset markTable.mem p + sizeofTarget ≤ nextOffset markTable.mem p ∧
      targetOffset markTable.mem p + elemSize markTable.mem (getTarget markTable.mem p) ≤
        nextOffset markTable.mem p ∧
      targetOffset markTable.mem p + sizeofStandard ≤ nextOffset markTable.mem p := by
    decide +kernel
  obtain ⟨hinside, hfirst, hheader, htarget, hstd⟩ := hlayout p hp
  refine ⟨⟨hinside, hfirst, hheader, htarget⟩, ?_, _, rfl, fun _ ↦ hstd⟩
  by_cases h : p = 148
  · rw [h]
    exact .cons (by decide +kernel) (by decide +kernel) (by decide +kernel) ⟨_, rfl⟩
      (.done (by decide +kernel))
  · have hplain : ∀ p ∈ markRules, p ≠ 148 → targetOffset markTable.mem p ≤ sizeofEntry := by
      decide +kernel
    exact .done (hplain p hp h)

theorem markTable_wellFormed : WellFormed marking markTable 1068 anyCall.hook where
  size_lt := by decide
  rule p hp := markTable_rule (markTable_start.1 hp)
  next p hp h := markTable_start.2 (markTable_succ (markTable_start.1 hp) (.next h)).2
  jump p q hp h := markTable_start.2 (markTable_succ (markTable_start.1 hp) (.target h)).2
  entry := markTable_start.2 (by decide)
  underflow := markTable_start.2 (by decide)
  policy := ⟨markTable_ends (by decide), by decide +kernel⟩

theorem markTable_acyclic : Acyclic marking markTable 1068 := by
  intro p hp hcycle
  have hdown : ∀ q, Relation.TransGen (flow marking markTable.mem).Succ p q →
      p < q ∧ q ∈ markRules := by
    intro q h
    induction h with
    | single h => exact markTable_succ (markTable_start.1 hp) h
    | tail _ h ih =>
      obtain ⟨hlt, hq⟩ := markTable_succ ih.2 h
      exact ⟨ih.1.trans hlt, hq⟩
  exact lt_irrefl p (hdown p hcycle).1

/-- What it does with a packet. -/
def markProgram : Program ℕ Bool ℕ := program marking anyCall markTable.mem

/-- A packet goes through the jump and the call, and back. -/
theorem do_table_nested_call : ∃ x : Bool × ℕ,
    (∃ n, ∀ fuel, n ≤ fuel → (iptDoTable marking fuel markTable anyCall false).2 = some x) ∧
    Result markProgram markProgram.Far 0 624 false x.1 x.2 := by
  obtain ⟨x, hx, hres⟩ := do_table_nested markTable_wellFormed markTable_acyclic false
  exact ⟨x, hx, (hres x.1 x.2).2 rfl⟩

/-- **A jump to the rule that follows is not a call**, and one can tell: if it were one, the packet
would come to that rule again after the return, with the mark, and would be dropped. -/
theorem next_jump_not_called : WellFormed marking markTable 1068 anyCall.hook ∧
    Acyclic marking markTable 1068 ∧
    (∃ n, ∀ fuel, n ≤ fuel → (iptDoTable marking fuel markTable anyCall false).2 = some (true, 1)) ∧
    ∀ env v, Result markProgram (fun _ _ ↦ True) 0 624 false env v ↔
      (env, v) = (true, nfDrop) := by
  have hrun : iptDoTable marking 7 markTable anyCall false =
      ([0, 148, 328, 772, 920, 476, 624], some (true, 1)) := by decide +kernel
  obtain ⟨hskip, hjump, hmark, hret⟩ : markProgram.act 148 false = (false, .fall) ∧
      markProgram.act 328 false = (false, .jump 772) ∧
      markProgram.act 772 false = (true, .fall) ∧ markProgram.act 920 true = (true, .ret) := by
    decide +kernel
  have hcall : Eval markProgram (fun _ _ ↦ True) 148 false true none :=
    .fall hskip (.callRet hjump trivial (.fall hmark (.ret hret)) (.ret (by decide +kernel)))
  have hdrop : Result markProgram (fun _ _ ↦ True) 0 624 false true nfDrop :=
    Or.inl (.callRet (by decide +kernel) trivial hcall (.stop (by decide +kernel)))
  refine ⟨markTable_wellFormed, markTable_acyclic, ⟨7, fun fuel hle ↦ ?_⟩, fun env v ↦ ⟨?_, ?_⟩⟩
  · rw [iptDoTable, Walk.run_mono hrun hle]
  · intro h
    obtain ⟨rfl, rfl⟩ := h.unique hdrop
    rfl
  · rintro ⟨⟩
    exact hdrop

end Linux24.Ipt
