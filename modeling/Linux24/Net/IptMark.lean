import Linux24.Net.IptRules

/-!
# `mark_source_chains` finds the jumps that are made while they are in progress

The function follows the rules as if every jump were made and every chain returned, and it keeps the
way it has come in the packet counters: that of a rule is the offset of the rule before it on the
way. A bit in `comefrom` says which rules are on the way.  When it comes to a rule that is on the
way already, it gives up.  At the end of a chain it goes back to the last jump, that is, to the last
rule on the way after which comes another one than the next, and goes on after it.

`Path` is this way, as it is written down in the memory.  What is still to be done from a rule on
the way is `Rest`.  So if the function comes to an end without giving up, everything that it has
done from the start is a `Calls.Tree` (`markLoop_spec`), and if the rules are where they should be
it has not left the blob.
-/

set_option autoImplicit false

namespace Linux24.Ipt

open Bytes Calls List

/-- What `mark_source_chains` knows of the rules. -/
def blobFlow (m : Mem) : Flow ℕ where
  next e := e + nextOffset m e
  ends e := isEnd m e = true
  target e := if isStandard m (getTarget m e) && 0 ≤ verdict m (getTarget m e) then
    some (verdict m (getTarget m e)).toNat else none

/-- Rules that one can get to are where they should be. -/
structure Marked (m : Mem) (size : ℕ) (Q : ℕ → Prop) : Prop where
  size_lt : size < 2 ^ 32
  laid : Laid m size
  standard : ∀ e, Start m size e → isStandard m (getTarget m e) = true →
    targetOffset m e + sizeofStandard ≤ nextOffset m e
  start : ∀ p, Q p → Start m size p
  succ : ∀ p, Q p → ∀ q, (blobFlow m).Succ p q → Q q

/-! ## The fields that are used -/

section Fields

variable {m m' : Mem} {size e q : ℕ} (hl : Laid m size) (he : Start m size e)
  (hq : Start m size q)
include hl he hq

theorem pcnt_store_comefrom (v : ℕ) : pcnt (store m' (e + 92) 4 v) q = pcnt m' q := by
  have hapart := hl.apart he hq
  exact load_store_of_disjoint (by omega)

theorem pcnt_store_pcnt (v : ℕ) :
    pcnt (store m' (e + 96) 8 v) q = if q = e then v % 2 ^ 64 else pcnt m' q := by
  split
  · rename_i heq
    rw [heq, pcnt, load_store_self, show (256 : ℕ) ^ 8 = 2 ^ 64 by norm_num]
  · have hapart := hl.apart he hq
    exact load_store_of_disjoint (by omega)

end Fields

/-- Something is read or written inside of the blob. -/
theorem Mark.touch_inside {size : ℕ} {s : Mark} (hs : s.inside = true) {l : List (ℕ × ℕ)}
    (hl : ∀ r ∈ l, r.1 + r.2 ≤ size) : (s.touch size l).inside = true := by
  simpa [Mark.touch, hs] using hl

/-! ## The way -/

/-- The way from the rule back to the start is in the packet counters. -/
def Linked (m : Mem) : List ℕ → Prop
  | [] => True
  | p :: A => pcnt m p % 2 ^ 32 = A.headD p ∧ Linked m A

/-- The way that has been come, from where one is back to the start, is in the memory. -/
structure Path (m : Mem) (size : ℕ) (Q : ℕ → Prop) (m' : Mem) (A : List ℕ) : Prop where
  agree : Agree m size m'
  bit : ∀ p, Start m size p → ((comefrom m' p).testBit 5 = true ↔ p ∈ A)
  nodup : A.Nodup
  linked : Linked m' A
  place : ∀ p ∈ A, Q p

/-- What is not written down on the way does not matter. -/
theorem Linked.congr {m m' : Mem} {A : List ℕ} (h : Linked m A)
    (hA : ∀ p ∈ A, pcnt m' p = pcnt m p) : Linked m' A := by
  induction A with
  | nil => trivial
  | cons p A ih =>
    exact ⟨by rw [hA p mem_cons_self]; exact h.1, ih h.2 fun q hq ↦ hA q (mem_cons_of_mem p hq)⟩

section Way

variable {m m' : Mem} {size : ℕ} {Q : ℕ → Prop} {A : List ℕ} {e : ℕ}

/-- The way becomes longer: where it comes from is written down, and its bit is set. -/
theorem Path.enter (hQ : Marked m size Q) (h : Path m size Q m' A) (he : Q e) (hnot : e ∉ A)
    (v : ℕ) (hv : v.testBit 5 = true) :
    Path m size Q (store (store m' (e + 96) 8 (A.headD e)) (e + 92) 4 v) (e :: A) := by
  have hstart := hQ.start e he
  have hlt : ∀ p, Q p → p < 2 ^ 32 := fun p hp ↦ (hQ.start p hp).1.trans hQ.size_lt
  have hhead : A.headD e < 2 ^ 32 := by
    cases A with
    | nil => exact hlt e he
    | cons p A => exact hlt p (h.place p mem_cons_self)
  refine ⟨(h.agree.store hstart (by omega) (by omega)).store hstart le_rfl (by omega),
    fun p hp ↦ ?_, nodup_cons.2 ⟨hnot, h.nodup⟩, ⟨?_, h.linked.congr fun p hp ↦ ?_⟩,
    forall_mem_cons.2 ⟨he, h.place⟩⟩
  · rw [comefrom_store_comefrom hQ.laid hstart hp]
    split
    · rename_i heq
      rw [Nat.testBit_mod_two_pow]
      simp [heq, hv]
    · rename_i hne
      rw [comefrom_store_counters hQ.laid hstart hp (by omega) (by omega)]
      simp [hne, h.bit p hp]
  · rw [pcnt_store_comefrom hQ.laid hstart hstart, pcnt_store_pcnt hQ.laid hstart hstart,
      if_pos rfl, Nat.mod_mod_of_dvd _ (by norm_num), Nat.mod_eq_of_lt hhead]
  · have hp' := hQ.start p (h.place p hp)
    rw [pcnt_store_comefrom hQ.laid hstart hp', pcnt_store_pcnt hQ.laid hstart hp',
      if_neg (ne_of_mem_of_not_mem hp hnot)]

theorem Path.leave (hQ : Marked m size Q) (h : Path m size Q m' (e :: A)) :
    Path m size Q (store (store m' (e + 92) 4 (comefrom m' e ^^^ 32)) (e + 96) 8 0) A := by
  have hstart := hQ.start e (h.place e mem_cons_self)
  obtain ⟨hnot, hnodup⟩ := nodup_cons.1 h.nodup
  have hset : (comefrom m' e).testBit 5 = true := (h.bit e hstart).2 mem_cons_self
  refine ⟨(h.agree.store hstart le_rfl (by omega)).store hstart (by omega) (by omega),
    fun p hp ↦ ?_, hnodup, h.linked.2.congr fun p hp ↦ ?_,
    fun p hp ↦ h.place p (mem_cons_of_mem e hp)⟩
  · rw [comefrom_store_counters hQ.laid hstart hp (by omega) (by omega),
      comefrom_store_comefrom hQ.laid hstart hp]
    split
    · rename_i heq
      rw [Nat.testBit_mod_two_pow, Nat.testBit_xor, hset]
      simp [heq, hnot, show Nat.testBit 32 5 = true by decide]
    · rename_i hne
      simp [h.bit p hp, hne]
  · have hp' := hQ.start p (h.place p (mem_cons_of_mem e hp))
    rw [pcnt_store_pcnt hQ.laid hstart hp', if_neg (ne_of_mem_of_not_mem hp hnot),
      pcnt_store_comefrom hQ.laid hstart hp']

end Way

/-! ## What is still to be done -/

/-- What is still to be done when everything from the rule on has been done, on the way given: where
the way was a jump, what comes after it. -/
def Rest (f : Flow ℕ) : ℕ → List ℕ → Prop
  | _, [] => True
  | p, q :: A => (p ≠ f.next q → Tree f {x | x ∈ q :: A} (f.next q)) ∧ Rest f q A

section Passes

variable {m : Mem} {size : ℕ} {Q : ℕ → Prop} {s s' : Mark} {A : List ℕ} {e q : ℕ}

/-- A rule that one can get to, which is not the end of a chain, is followed by another one. -/
theorem Marked.next (hQ : Marked m size Q) (he : Q e) (hend : ¬ isEnd m e = true) :
    Q (e + nextOffset m e) :=
  hQ.succ e he _ (.next hend)

theorem Marked.mod_next (hQ : Marked m size Q) (he : Q e) (hend : ¬ isEnd m e = true) :
    (e + nextOffset m e) % 2 ^ 32 = e + nextOffset m e :=
  Nat.mod_eq_of_lt ((hQ.start _ (hQ.next he hend)).1.trans hQ.size_lt)

/-- The header of a rule is in the blob. -/
theorem Marked.header (hQ : Marked m size Q) (he : Q e) : e + 112 ≤ size := by
  have hstart := hQ.start e he
  have hinside := (hQ.laid e hstart).inside
  have hnext := hQ.laid.le_next hstart
  omega

variable {fuel : ℕ}

/-- One step back, to the rule that has been written down. -/
theorem backtrack_succ {pos : ℕ}
    (hpos : pcnt (store s.mem (e + 92) 4 (comefrom s.mem e ^^^ 32)) e % 2 ^ 32 = pos) :
    backtrack size (fuel + 1) s e =
      let s₁ : Mark := ⟨store (store s.mem (e + 92) 4 (comefrom s.mem e ^^^ 32)) (e + 96) 8 0,
        (s.touch size [(e + 92, 4), (e + 96, 8)]).inside⟩
      if pos = e then .ok (.start s₁)
      else if e = (pos + nextOffset s₁.mem pos) % 2 ^ 32 then
        backtrack size fuel (s₁.touch size [(pos + 90, 2)]) pos
      else .ok (.jump (s₁.touch size [(pos + 90, 2)]) pos) := by
  subst hpos
  rfl

/-- **Going back**: to the start, or to the last jump. -/
theorem backtrack_spec (hQ : Marked m size Q) {r : Back}
    (h : Path m size Q s.mem (e :: A)) (hin : s.inside = true)
    (hA : ∀ p ∈ A, ¬ isEnd m p = true) (hr : backtrack size fuel s e = .ok r) :
    match r with
    | .start s' => Rest (blobFlow m) e A ∧ Path m size Q s'.mem [] ∧ s'.inside = true
    | .jump s' q => ∃ A', Path m size Q s'.mem (q :: A') ∧ s'.inside = true ∧
        (∀ p ∈ q :: A', ¬ isEnd m p = true) ∧
        (Tree (blobFlow m) {x | x ∈ q :: A'} (q + nextOffset m q) → Rest (blobFlow m) q A' →
          Rest (blobFlow m) e A) := by
  induction fuel generalizing s e A with
  | zero => simp [backtrack] at hr
  | succ fuel ih =>
    have he := h.place e mem_cons_self
    have hstart := hQ.start e he
    have hheader := hQ.header he
    have hleave := h.leave hQ
    have hprev : pcnt (store s.mem (e + 92) 4 (comefrom s.mem e ^^^ 32)) e % 2 ^ 32 = A.headD e :=
      (congrArg (· % 2 ^ 32) (pcnt_store_comefrom hQ.laid hstart hstart _)).trans h.linked.1
    have hin₁ : (s.touch size [(e + 92, 4), (e + 96, 8)]).inside = true :=
      Mark.touch_inside hin (by simp; omega)
    rw [backtrack_succ hprev] at hr
    cases A with
    | nil =>
      rw [headD_nil, if_pos rfl] at hr
      cases hr
      exact ⟨trivial, hleave, hin₁⟩
    | cons q A =>
      have hq := h.place q (by simp)
      have hqend := hA q (by simp)
      have hne : q ≠ e := fun heq ↦ (nodup_cons.1 h.nodup).1 (heq ▸ mem_cons_self)
      have hqheader := hQ.header hq
      rw [headD_cons, if_neg hne,
        (hleave.agree.same hQ.laid (hQ.start q hq)).nextOffset_eq, hQ.mod_next hq hqend] at hr
      have hin₂ : (Mark.touch size ⟨s.mem, _⟩ [(q + 90, 2)]).inside = true :=
        Mark.touch_inside hin₁ (by simp; omega)
      split at hr
      · rename_i heq
        have hrest := ih (by exact hleave) (by exact hin₂)
          (fun p hp ↦ hA p (mem_cons_of_mem q hp)) hr
        cases r with
        | start s' => exact ⟨⟨absurd heq, hrest.1⟩, hrest.2⟩
        | jump s' q' =>
          obtain ⟨A', hpath, hin', hends, hback⟩ := hrest
          exact ⟨A', hpath, hin', hends, fun ht hr ↦ ⟨absurd heq, hback ht hr⟩⟩
      · cases hr
        exact ⟨A, hleave, hin₂, hA, fun ht hr ↦ ⟨fun _ ↦ ht, hr⟩⟩

/-- What the test for the end of a chain reads is in the rule. -/
theorem endReads_inside (hQ : Marked m size Q) {m' : Mem} (h : Agree m size m') (he : Q e) :
    ∀ r ∈ endReads m' e, r.1 + r.2 ≤ size := by
  have hsame := h.same hQ.laid (hQ.start e he)
  have hinside := hsame.layout.inside
  have hheader := hsame.layout.bounds.2
  have hrule := hQ.header he
  have hstd := hQ.standard e (hQ.start e he)
  rw [sizeofStandard] at hstd
  unfold endReads
  rw [hsame.getTarget_eq, hsame.isStandard_eq]
  rw [getTarget] at hstd ⊢
  intro r hr
  simp only [mem_cons] at hr
  rcases hr with rfl | hr
  · omega
  split at hr
  · simp only [mem_cons] at hr
    rcases hr with rfl | hr
    · omega
    split at hr
    · rename_i hs
      have hroom := hstd hs
      simp only [mem_cons] at hr
      rcases hr with rfl | hr
      · omega
      split at hr
      · obtain rfl := mem_singleton.1 hr
        omega
      · cases hr
    · cases hr
  · cases hr

/-- Where the way goes on after a rule that is not the end of a chain. -/
def onward (m : Mem) (e : ℕ) : ℕ :=
  if isStandard m (getTarget m e) && 0 ≤ verdict m (getTarget m e) then
    (verdict m (getTarget m e)).toNat
  else e + nextOffset m e

theorem Same.onward_eq {m' : Mem} (h : Same m size e m')
    (hstd : isStandard m (getTarget m e) = true → targetOffset m e + 36 ≤ nextOffset m e) :
    onward m' e = onward m e := by
  unfold onward
  rw [h.getTarget_eq, h.isStandard_eq, h.nextOffset_eq]
  cases hs : isStandard m (getTarget m e) with
  | false => simp
  | true => rw [h.verdict_eq (hstd hs)]

theorem Marked.onward (hQ : Marked m size Q) (he : Q e) (hend : ¬ isEnd m e = true) :
    Q (onward m e) := by
  unfold Ipt.onward
  split
  · rename_i hj
    exact hQ.succ e he _ (.target (by rw [blobFlow]; exact if_pos hj))
  · exact hQ.next he hend

/-- What comes after a rule that is not the end of a chain, and after where the way goes on. -/
theorem Tree.of_onward {f : Flow ℕ} (hf : f = blobFlow m) (hnot : e ∉ A)
    (hend : ¬ isEnd m e = true) (ht : Tree f {x | x ∈ e :: A} (onward m e))
    (hr : onward m e ≠ f.next e → Tree f {x | x ∈ e :: A} (f.next e)) : Tree f {x | x ∈ A} e := by
  subst hf
  have hset : {x | x ∈ e :: A} = insert e {x | x ∈ A} := by
    ext x
    simp
  rw [hset] at ht hr
  have hnext : ∀ q, (blobFlow m).target e = some q → q = onward m e := by
    intro q hq
    unfold onward
    rw [blobFlow] at hq
    dsimp only at hq
    split at hq
    · rename_i hj
      rw [if_pos hj]
      exact (Option.some.inj hq).symm
    · cases hq
  by_cases hcall : onward m e = (blobFlow m).next e
  · exact .fall hnot hend (fun q hq ↦ (hnext q hq).trans hcall) (hcall ▸ ht)
  · refine .call hnot hend ?_ ht (hr hcall)
    unfold onward at hcall ⊢
    rw [blobFlow] at hcall ⊢
    dsimp only at hcall ⊢
    split
    · rfl
    · rename_i hj
      exact absurd (if_neg hj) hcall

/-- What the loop does first at a rule: it sets the bit, and it looks whether the chain ends. -/
def visit (size : ℕ) (hook : Hook) (s : Mark) (e : ℕ) : Mark :=
  let m := store s.mem (e + 92) 4 (comefrom s.mem e ||| (2 ^ hook.val ||| 32))
  Mark.touch size ⟨m, (s.touch size [(e + 88, 2), (e + 92, 4)]).inside⟩ (endReads m e)

/-- One pass of the loop, from a rule that is not on the way yet. -/
theorem markLoop_succ {hook : Hook} {s₁ : Mark} (hs : visit size hook s e = s₁)
    (hbit : ¬ (comefrom s.mem e).testBit 5 = true) :
    markLoop size hook (fuel + 1) s e =
      if isEnd s₁.mem e then
        match backtrack size fuel s₁ e with
        | .error err => .error err
        | .ok (.start s) => .ok s
        | .ok (.jump s pos) =>
          let next := (pos + nextOffset s.mem pos) % 2 ^ 32
          markLoop size hook fuel ⟨store s.mem (next + 96) 8 pos,
            (s.touch size [(pos + 90, 2), (next + 96, 8)]).inside⟩ next
      else
        let t := getTarget s₁.mem e
        let s₂ := s₁.touch size [(t + 32, 4), (t + 2, 1)]
        if isStandard s₁.mem t && 0 ≤ verdict s₁.mem t then
          let pos := (verdict s₁.mem t).toNat
          markLoop size hook fuel ⟨store s₁.mem (pos + 96) 8 e,
            (s₂.touch size [(pos + 96, 8)]).inside⟩ pos
        else
          let pos := (e + nextOffset s₁.mem e) % 2 ^ 32
          markLoop size hook fuel ⟨store s₁.mem (pos + 96) 8 e,
            ((s₂.touch size [(e + 90, 2)]).touch size [(pos + 96, 8)]).inside⟩ pos := by
  subst hs
  rw [markLoop, visit]
  dsimp only [Mark.touch]
  refine (if_neg hbit).trans ?_
  generalize store s.mem (e + 92) 4 (comefrom s.mem e ||| (2 ^ hook.val ||| 32)) = m
  by_cases hend : isEnd m e = true
  · refine (if_pos hend).trans (Eq.trans ?_ (if_pos hend).symm)
    rcases backtrack size fuel _ e with err | s | ⟨s, pos⟩ <;> rfl
  · refine (if_neg hend).trans (Eq.trans ?_ (if_neg hend).symm)
    by_cases hj : (isStandard m (getTarget m e) && 0 ≤ verdict m (getTarget m e)) = true
    · refine Eq.trans ?_ (if_pos hj).symm
      simp [hj]
    · refine Eq.trans ?_ (if_neg hj).symm
      simp [hj]

/-- **The loop for one hook**: everything that is done from the rule on is a tree. -/
theorem markLoop_spec (hQ : Marked m size Q) (hook : Hook)
    (h : Path m size Q s.mem A) (hin : s.inside = true) (hA : ∀ p ∈ A, ¬ isEnd m p = true)
    (he : Q e) (hr : markLoop size hook fuel
      { s with mem := store s.mem (e + 96) 8 (A.headD e) } e = .ok s') :
    Tree (blobFlow m) {x | x ∈ A} e ∧ Rest (blobFlow m) e A ∧ Path m size Q s'.mem [] ∧
      s'.inside = true := by
  induction fuel generalizing s A e with
  | zero => simp [markLoop] at hr
  | succ fuel ih =>
    have hstart := hQ.start e he
    have hheader := hQ.header he
    have hcome : comefrom (store s.mem (e + 96) 8 (A.headD e)) e = comefrom s.mem e :=
      comefrom_store_counters hQ.laid hstart hstart (by omega) (by omega)
    by_cases hbit : (comefrom s.mem e).testBit 5 = true
    · rw [markLoop] at hr
      exact absurd ((if_pos (hcome.symm ▸ hbit)).symm.trans hr) (by simp)
    have hnot : e ∉ A := fun hc ↦ hbit ((h.bit e hstart).2 hc)
    obtain ⟨s₁, hs₁⟩ : ∃ s₁, visit size hook
        { s with mem := store s.mem (e + 96) 8 (A.headD e) } e = s₁ := ⟨_, rfl⟩
    have hpath : Path m size Q s₁.mem (e :: A) := by
      rw [← hs₁]
      exact h.enter hQ he hnot _ (by simp [show Nat.testBit 32 5 = true by decide])
    have hin₁ : s₁.inside = true := by
      rw [← hs₁] at hpath ⊢
      refine Mark.touch_inside (Mark.touch_inside hin ?_) (endReads_inside hQ hpath.agree he)
      simp
      omega
    have hsame := hpath.agree.same hQ.laid hstart
    rw [markLoop_succ hs₁ (hcome.symm ▸ hbit), hsame.isEnd_eq (hQ.standard e hstart)] at hr
    split at hr
    · rename_i hend
      have htree : Tree (blobFlow m) {x | x ∈ A} e := .ends hnot hend
      cases hb : backtrack size fuel s₁ e with
      | error err => simp [hb] at hr
      | ok b =>
        have hback := backtrack_spec hQ hpath hin₁ hA hb
        rw [hb] at hr
        cases b with
        | start s₂ =>
          cases hr
          exact ⟨htree, hback⟩
        | jump s₂ q =>
          obtain ⟨A', hpath₂, hin₂, hends, hrest⟩ := hback
          have hq := hpath₂.place q mem_cons_self
          have hqend := hends q mem_cons_self
          have hqnext := hQ.header (hQ.next hq hqend)
          dsimp only at hr
          rw [(hpath₂.agree.same hQ.laid (hQ.start q hq)).nextOffset_eq, hQ.mod_next hq hqend] at hr
          have hin₃ : (s₂.touch size [(q + 90, 2), (q + nextOffset m q + 96, 8)]).inside = true :=
            Mark.touch_inside hin₂ (by simp; omega)
          obtain ⟨ht, hr', hlast⟩ := ih (s := s₂.touch size _) hpath₂ hin₃ hends
            (hQ.next hq hqend) hr
          exact ⟨htree, hrest ht hr'.2, hlast⟩
    · rename_i hend
      have hgo : ∀ pos b, pos = onward m e → b = true →
          markLoop size hook fuel ⟨store s₁.mem (pos + 96) 8 e, b⟩ pos = .ok s' →
          Tree (blobFlow m) {x | x ∈ A} e ∧ Rest (blobFlow m) e A ∧ Path m size Q s'.mem [] ∧
            s'.inside = true := by
        rintro pos b rfl hb hr
        obtain ⟨ht, hrest, hlast⟩ := ih (s := ⟨s₁.mem, b⟩) hpath hb
          (forall_mem_cons.2 ⟨hend, hA⟩) (hQ.onward he hend) hr
        exact ⟨Tree.of_onward rfl hnot hend ht hrest.1, hrest.2, hlast⟩
      have hroom := hsame.layout.bounds.2
      have hnext := hQ.header (hQ.next he hend)
      have hin₂ : (s₁.touch size [(getTarget s₁.mem e + 32, 4), (getTarget s₁.mem e + 2, 1)]).inside
          = true := by
        refine Mark.touch_inside hin₁ ?_
        rw [hsame.getTarget_eq, getTarget]
        simp
        omega
      have honward := hQ.header (hQ.onward he hend)
      have hpos := hsame.onward_eq (hQ.standard e hstart)
      dsimp only at hr
      split at hr
      · rename_i hj
        rw [onward, if_pos hj] at hpos
        refine hgo _ _ hpos (Mark.touch_inside hin₂ ?_) hr
        simpa using honward.trans' (by omega)
      · rename_i hj
        rw [onward, if_neg hj] at hpos
        have hmod : (e + nextOffset s₁.mem e) % 2 ^ 32 = onward m e := by
          rw [hsame.nextOffset_eq, hQ.mod_next he hend, ← hpos, hsame.nextOffset_eq]
        refine hgo _ _ hmod (Mark.touch_inside (Mark.touch_inside hin₂ ?_) ?_) hr
        · simpa using hheader.trans' (by omega)
        · simpa using honward.trans' (by omega)

/-- **`mark_source_chains`**: from where each hook begins, everything that is done is a tree, and
nothing is read or written that is not in the blob. -/
theorem markSourceChains_spec (hQ : Marked m size Q) {validHooks : Hook → Bool}
    {hookEntry : Hook → ℕ} (hentry : ∀ hook, validHooks hook = true → Q (hookEntry hook))
    {hooks : List Hook} (h : Path m size Q s.mem []) (hin : s.inside = true)
    (hr : markSourceChains size fuel validHooks hookEntry hooks s = .ok s') :
    (∀ hook ∈ hooks, validHooks hook = true → Tree (blobFlow m) ∅ (hookEntry hook)) ∧
      Path m size Q s'.mem [] ∧ s'.inside = true := by
  induction hooks generalizing s with
  | nil =>
    cases hr
    exact ⟨by simp, h, hin⟩
  | cons hook hooks ih =>
    rw [markSourceChains] at hr
    split at hr
    · rename_i hvalid
      dsimp only at hr
      have he := hentry hook hvalid
      have hheader := hQ.header he
      have hin₁ : (s.touch size [(hookEntry hook + 96, 8)]).inside = true :=
        Mark.touch_inside hin (by simp; omega)
      split at hr
      · cases hr
      · rename_i s₁ hs₁
        obtain ⟨ht, -, hpath, hin₂⟩ := markLoop_spec hQ hook (s := s.touch size _) h hin₁
          (by simp) he hs₁
        obtain ⟨hrest, hlast⟩ := ih hpath hin₂ hr
        refine ⟨forall_mem_cons.2 ⟨fun _ ↦ ?_, hrest⟩, hlast⟩
        simpa using ht
    · rename_i hvalid
      obtain ⟨hrest, hlast⟩ := ih h hin hr
      exact ⟨forall_mem_cons.2 ⟨fun hc ↦ absurd hc hvalid, hrest⟩, hlast⟩

end Passes

end Linux24.Ipt
