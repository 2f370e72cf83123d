import Mathlib

/-!
# Calls whose return addresses are kept in the program

A program is a set of places with an action at each of them.  From a place one may go on to the next
place, jump to another place, return, or stop.  `Eval` is what this means: a jump calls the place
that it goes to, and when that returns the caller goes on at the place after the jump.  It is left
open which jumps are calls; the others do not come back.

The machine of this module has no stack.  It has a pointer `back` to where the next return goes, and
at a call the old `back` is written down in the place after the call, which is the new `back`.  A
return goes to `back`, and `back` becomes what is written down there.  So there is room for one
return address at each place, and what is written there stays when the call has returned.  A jump to
the next place is not a call for the machine: its calls are those that go `Far`.

This is all right if no call is made while it is in progress.  `Tree` says that of a place, with the
calls in progress: what can happen from there on is a finite tree in which no place occurs below
itself.  Then the machine does what `Eval` says (`Tree.behaves`), and it never follows what was left
behind by an earlier call.  `Tree.of_acyclic` is for graphs without cycles.
-/

set_option autoImplicit false

universe u v w

namespace Calls

open Function

variable {P : Type u} {ω : Type v} {V : Type w}

/-- What is done at a place. -/
inductive Act (P : Type u) (V : Type w)
  /-- Go on to the next place. -/
  | fall
  /-- Stop with a result. -/
  | stop (v : V)
  | ret
  | jump (q : P)
deriving DecidableEq

/-- A program, in an environment that the actions may depend on and may change. -/
structure Program (P : Type u) (ω : Type v) (V : Type w) where
  next : P → P
  act : P → ω → ω × Act P V

/-! ## What it means -/

/-- From the place, and with the environment as given, one comes to the result, or to a return, if a
jump from `p` to `q` is a call where `C p q`. -/
inductive Eval (g : Program P ω V) (C : P → P → Prop) : P → ω → ω → Option V → Prop
  | stop {p : P} {w w₁ : ω} {v : V} (h : g.act p w = (w₁, .stop v)) : Eval g C p w w₁ (some v)
  | ret {p : P} {w w₁ : ω} (h : g.act p w = (w₁, .ret)) : Eval g C p w w₁ none
  | fall {p : P} {w w₁ w₂ : ω} {r : Option V} (h : g.act p w = (w₁, .fall))
      (hn : Eval g C (g.next p) w₁ w₂ r) : Eval g C p w w₂ r
  | goto {p q : P} {w w₁ w₂ : ω} {r : Option V} (h : g.act p w = (w₁, .jump q)) (hq : ¬ C p q)
      (hn : Eval g C q w₁ w₂ r) : Eval g C p w w₂ r
  | callStop {p q : P} {w w₁ w₂ : ω} {v : V} (h : g.act p w = (w₁, .jump q)) (hq : C p q)
      (hc : Eval g C q w₁ w₂ (some v)) : Eval g C p w w₂ (some v)
  | callRet {p q : P} {w w₁ w₂ w₃ : ω} {r : Option V} (h : g.act p w = (w₁, .jump q))
      (hq : C p q) (hc : Eval g C q w₁ w₂ none) (hn : Eval g C (g.next p) w₂ w₃ r) :
      Eval g C p w w₃ r

/-- There is one outcome at most. -/
theorem Eval.unique {g : Program P ω V} {C : P → P → Prop} {p : P} {w w' w'' : ω}
    {r r' : Option V} (h : Eval g C p w w' r) (h' : Eval g C p w w'' r') : w' = w'' ∧ r = r' := by
  induction h generalizing w'' r' <;> cases h' <;> grind

/-- The jump does not go to the next place. -/
def Program.Far (g : Program P ω V) (p q : P) : Prop := q ≠ g.next p

theorem Eval.skip {g : Program P ω V} {p : P} {w w₁ w₂ : ω} {r : Option V}
    (h : g.act p w = (w₁, .jump (g.next p))) (hn : Eval g g.Far (g.next p) w₁ w₂ r) :
    Eval g g.Far p w w₂ r :=
  .goto h (not_not.2 rfl) hn

/-! ## The machine -/

/-- Where the machine is, where the next return goes, and what is written down at each place. -/
structure State (P : Type u) (ω : Type v) where
  pc : P
  back : P
  come : P → P
  env : ω

variable [DecidableEq P]

/-- One step: the next state, or the environment and the result. -/
def step (g : Program P ω V) (s : State P ω) : State P ω ⊕ ω × V :=
  match g.act s.pc s.env with
  | (w, .fall) => .inl { s with pc := g.next s.pc, env := w }
  | (w, .stop v) => .inr (w, v)
  | (w, .ret) => .inl { s with pc := s.back, back := s.come s.back, env := w }
  | (w, .jump q) =>
    if q = g.next s.pc then .inl { s with pc := q, env := w }
    else .inl {
      pc := q
      back := g.next s.pc
      come := update s.come (g.next s.pc) s.back
      env := w }

/-- The machine gets from the state to another one, or to a result, and on the way it is at places
that satisfy `Q` only. -/
inductive Run (g : Program P ω V) (Q : P → Prop) : State P ω → State P ω ⊕ ω × V → Prop
  | here {s : State P ω} (hQ : Q s.pc) : Run g Q s (.inl s)
  | stop {s : State P ω} {x : ω × V} (hQ : Q s.pc) (h : step g s = .inr x) : Run g Q s (.inr x)
  | step {s t : State P ω} {x : State P ω ⊕ ω × V} (hQ : Q s.pc) (h : step g s = .inl t)
      (ht : Run g Q t x) : Run g Q s x

theorem Run.trans {g : Program P ω V} {Q : P → Prop} {s t : State P ω} {y x : State P ω ⊕ ω × V}
    (h : Run g Q s y) (hy : y = .inl t) (h' : Run g Q t x) : Run g Q s x := by
  induction h with
  | here _ =>
    obtain rfl := Sum.inl.inj hy
    exact h'
  | stop _ _ => cases hy
  | step hQ h _ ih => exact .step hQ h (ih hy)

theorem Run.start {g : Program P ω V} {Q : P → Prop} {s : State P ω} {x : State P ω ⊕ ω × V}
    (h : Run g Q s x) : Q s.pc := by
  cases h with
  | here hQ | stop hQ _ | step hQ _ _ => exact hQ

/-! ## Places from which no call is made twice -/

/-- What is known of the actions of a program in advance. -/
structure Flow (P : Type u) where
  next : P → P
  /-- At this place one always stops or returns. -/
  ends : P → Prop
  /-- The one place that may be called here. -/
  target : P → Option P

/-- One may get from the first place to the second one, by a call or without. -/
inductive Flow.Succ (f : Flow P) : P → P → Prop
  | next {p : P} (h : ¬ f.ends p) : Succ f p (f.next p)
  | target {p q : P} (h : f.target p = some q) : Succ f p q

/-- Everything that can happen from the place on is a finite tree, in which no place is below itself
or is one of those given. -/
inductive Tree (f : Flow P) : Set P → P → Prop
  | ends {A : Set P} {p : P} (hp : p ∉ A) (h : f.ends p) : Tree f A p
  | fall {A : Set P} {p : P} (hp : p ∉ A) (hend : ¬ f.ends p)
      (h : ∀ q, f.target p = some q → q = f.next p) (hn : Tree f (insert p A) (f.next p)) :
      Tree f A p
  | call {A : Set P} {p q : P} (hp : p ∉ A) (hend : ¬ f.ends p) (h : f.target p = some q)
      (hc : Tree f (insert p A) q) (hn : Tree f (insert p A) (f.next p)) : Tree f A p

omit [DecidableEq P] in
/-- **Graphs without cycles.** -/
theorem Tree.of_acyclic {f : Flow P} {Q : P → Prop} (hfin : {p | Q p}.Finite)
    (hQ : ∀ p, Q p → ∀ q, f.Succ p q → Q q)
    (hacyc : ∀ p, Q p → ¬ Relation.TransGen f.Succ p p) {A : Set P} {p : P} (hp : Q p)
    (hA : ∀ a ∈ A, ¬ Relation.ReflTransGen f.Succ p a) : Tree f A p := by
  have : Finite {p // Q p} := hfin
  let r : {p // Q p} → {p // Q p} → Prop := fun q p ↦ Relation.TransGen f.Succ p q
  have : Std.Irrefl r := ⟨fun p ↦ hacyc p p.2⟩
  have hwf : WellFounded r := Finite.wellFounded_of_trans_of_irrefl r
  suffices h : ∀ p : {p // Q p}, ∀ A : Set P,
      (∀ a ∈ A, ¬ Relation.ReflTransGen f.Succ p a) → Tree f A p from h ⟨p, hp⟩ A hA
  intro p
  induction p using hwf.induction with
  | _ p ih =>
    intro A hA
    have hnot : p.1 ∉ A := fun hc ↦ hA p hc .refl
    have hbelow : ∀ q, f.Succ p q → Tree f (insert p.1 A) q := by
      intro q hq
      refine ih ⟨q, hQ p p.2 q hq⟩ (.single hq) _ fun a ha hqa ↦ ?_
      rcases ha with rfl | ha
      · exact hacyc p p.2 (.head' hq hqa)
      · exact hA a ha (hqa.head hq)
    by_cases hend : f.ends p
    · exact .ends hnot hend
    · cases ht : f.target p with
      | none => exact .fall hnot hend (by simp [ht]) (hbelow _ (.next hend))
      | some q => exact .call hnot hend ht (hbelow q (.target ht)) (hbelow _ (.next hend))

omit [DecidableEq P] in
/-- What is known of other places does not matter. -/
theorem Tree.congr {f f' : Flow P} {Q : P → Prop} (hQ : ∀ p, Q p → ∀ q, f.Succ p q → Q q)
    (hnext : ∀ p, Q p → f'.next p = f.next p) (hends : ∀ p, Q p → (f'.ends p ↔ f.ends p))
    (htarget : ∀ p, Q p → f'.target p = f.target p) {A : Set P} {p : P} (h : Tree f A p)
    (hp : Q p) : Tree f' A p := by
  induction h with
  | ends hnot hend => exact .ends hnot ((hends _ hp).2 hend)
  | fall hnot hend ht _ ih =>
    refine .fall hnot (mt (hends _ hp).1 hend) ?_ ?_
    · rw [htarget _ hp, hnext _ hp]
      exact ht
    · rw [hnext _ hp]
      exact ih (hQ _ hp _ (.next hend))
  | call hnot hend ht _ _ ihc ihn =>
    refine .call hnot (mt (hends _ hp).1 hend) ((htarget _ hp).trans ht)
      (ihc (hQ _ hp _ (.target ht))) ?_
    rw [hnext _ hp]
    exact ihn (hQ _ hp _ (.next hend))

/-- The actions of the program, at the places given, are as foreseen. -/
structure Flow.Fits (f : Flow P) (g : Program P ω V) (Q : P → Prop) : Prop where
  next : g.next = f.next
  ends : ∀ p w, Q p → f.ends p → ∃ w' r, g.act p w = (w', r) ∧ (r = .ret ∨ ∃ v, r = .stop v)
  target : ∀ p w w' q, Q p → g.act p w = (w', .jump q) → f.target p = some q

section Running

variable {g : Program P ω V} {f : Flow P} {Q : P → Prop}

/-- What the machine does from a place on, with the return address and what is written down as
given: it stops, or it returns, and the outcome is that of `Eval`.  At the places after those in
`A` nothing else is written down. -/
def Behaves (g : Program P ω V) (Q : P → Prop) (A : Set P) (p b : P) (come : P → P) (w : ω) :
    Prop :=
  (∃ w' v, Eval g g.Far p w w' (some v) ∧ Run g Q ⟨p, b, come, w⟩ (.inr (w', v))) ∨
    ∃ w' come', Eval g g.Far p w w' none ∧ Run g Q ⟨p, b, come, w⟩ (.inl ⟨b, come' b, come', w'⟩) ∧
      ∀ a ∈ A, come' (g.next a) = come (g.next a)

variable {A A' : Set P} {p q b : P} {come come' : P → P} {w w' : ω}

/-- To stop and to return is the same everywhere. -/
theorem behaves_of_ends {r : Act P V} (hp : Q p) (hb : ∀ w', Eval g g.Far p w w' none → Q b)
    (hact : g.act p w = (w', r)) (hr : r = .ret ∨ ∃ v, r = .stop v) :
    Behaves g Q A p b come w := by
  rcases hr with rfl | ⟨v, rfl⟩
  · refine Or.inr ⟨w', come, .ret hact, .step hp ?_ (.here (hb w' (.ret hact))), fun _ _ ↦ rfl⟩
    simp [step, hact]
  · exact Or.inl ⟨w', v, .stop hact, .stop hp (by simp [step, hact])⟩

/-- What is at the next place may be done at this one. -/
theorem Behaves.of_run (hrun : Run g Q ⟨p, b, come, w⟩ (.inl ⟨q, b, come', w'⟩))
    (h : Behaves g Q A' q b come' w') (hsub : A ⊆ A')
    (hkeep : ∀ a ∈ A, come' (g.next a) = come (g.next a))
    (heval : ∀ w'' r, Eval g g.Far q w' w'' r → Eval g g.Far p w w'' r) :
    Behaves g Q A p b come w := by
  rcases h with ⟨w'', v, hev, hrest⟩ | ⟨w'', come'', hev, hrest, hkeep'⟩
  · exact Or.inl ⟨w'', v, heval w'' _ hev, hrun.trans rfl hrest⟩
  · refine Or.inr ⟨w'', come'', heval w'' _ hev, hrun.trans rfl hrest, fun a ha ↦ ?_⟩
    rw [hkeep' a (hsub ha), hkeep a ha]

/-- To go on to the next place. -/
theorem behaves_of_next {r : Act P V} (hp : Q p) (hq : Q (g.next p)) (hact : g.act p w = (w', r))
    (hr : r = .fall ∨ r = .jump (g.next p)) (h : Behaves g Q (insert p A) (g.next p) b come w') :
    Behaves g Q A p b come w := by
  refine Behaves.of_run (.step hp ?_ (.here hq)) h (Set.subset_insert p A) (fun _ _ ↦ rfl) ?_
  · rcases hr with rfl | rfl <;> simp [step, hact]
  · intro w'' r' hev
    rcases hr with rfl | rfl
    · exact .fall hact hev
    · exact .skip hact hev

/-- **An action**, if one knows what happens from the next place on and at a call. -/
theorem behaves_of_act (hp : Q p) (hp' : Q (g.next p)) (hb : ∀ w', Eval g g.Far p w w' none → Q b)
    (hnext : ∀ w', (∀ w'', Eval g g.Far (g.next p) w' w'' none → Q b) →
      Behaves g Q (insert p A) (g.next p) b come w')
    (hcall : ∀ w' q, g.act p w = (w', .jump q) → g.Far p q → Behaves g Q A p b come w) :
    Behaves g Q A p b come w := by
  obtain ⟨w', r, hact⟩ : ∃ w' r, g.act p w = (w', r) := ⟨_, _, rfl⟩
  cases r with
  | stop v => exact behaves_of_ends hp hb hact (Or.inr ⟨v, rfl⟩)
  | ret => exact behaves_of_ends hp hb hact (Or.inl rfl)
  | fall =>
    exact behaves_of_next hp hp' hact (Or.inl rfl) (hnext w' fun _ h ↦ hb _ (.fall hact h))
  | jump q =>
    by_cases hq : q = g.next p
    · rw [hq] at hact
      exact behaves_of_next hp hp' hact (Or.inr rfl) (hnext w' fun _ h ↦ hb _ (.skip hact h))
    · exact hcall w' q hact hq

/-- **The machine does what the program means**, from a place from which no call is made while it
is in progress.  Where a return goes matters only if there is one. -/
theorem Tree.behaves (hfits : f.Fits g Q) (hQ : ∀ p, Q p → ∀ q, f.Succ p q → Q q)
    (hinj : ∀ p q, Q p → Q q → g.next p = g.next q → p = q) (ht : Tree f A p) (hp : Q p)
    (hA : ∀ a ∈ A, Q a) (come : P → P) (w : ω) (hb : ∀ w', Eval g g.Far p w w' none → Q b) :
    Behaves g Q A p b come w := by
  induction ht generalizing b come w with
  | @ends A p hnot hend =>
    obtain ⟨w', r, hact, hr⟩ := hfits.ends p w hp hend
    exact behaves_of_ends hp hb hact hr
  | @fall A p hnot hend htarget hn ih =>
    have hp' := hQ p hp _ (.next hend)
    have hnext := ih (b := b) hp' (Set.forall_insert_of_forall hA hp) come
    rw [← hfits.next] at hp' hnext htarget
    exact behaves_of_act hp hp' hb hnext fun w' q hact hq ↦
      absurd (htarget q (hfits.target p w w' q hp hact)) hq
  | @call A p q hnot hend htarget hc hn ihc ihn =>
    have hins : ∀ a ∈ insert p A, Q a := Set.forall_insert_of_forall hA hp
    have hp' := hQ p hp _ (.next hend)
    have hnext := ihn (b := b) hp' hins
    rw [← hfits.next] at hp' hnext
    refine behaves_of_act hp hp' hb (hnext come) fun w' q' hact hq ↦ ?_
    obtain rfl := Option.some.inj ((hfits.target p w w' q' hp hact).symm.trans htarget)
    -- the return address is written down at the place after the call
    have hfirst : step g ⟨p, b, come, w⟩ =
        .inl ⟨q', g.next p, update come (g.next p) b, w'⟩ := by
      simp [step, hact, show q' ≠ g.next p from hq]
    rcases ihc (hQ p hp _ (.target htarget)) hins (update come (g.next p) b) w' fun _ _ ↦ hp' with
      ⟨w'', v, hev, hrun⟩ | ⟨w'', come', hev, hrun, hkeep⟩
    · exact Or.inl ⟨w'', v, .callStop hact hq hev, .step hp hfirst hrun⟩
    · have hback : come' (g.next p) = b := by
        rw [hkeep p (Set.mem_insert p A), update_self]
      rw [hback] at hrun
      refine Behaves.of_run (.step hp hfirst hrun)
        (hnext come' w'' fun _ h ↦ hb _ (.callRet hact hq hev h)) (Set.subset_insert p A)
        (fun a ha ↦ ?_) fun _ _ hrest ↦ .callRet hact hq hev hrest
      -- no call is in progress that comes back to this place
      have hne : g.next a ≠ g.next p := fun heq ↦ hnot (hinj a p (hA a ha) hp heq ▸ ha)
      rw [hkeep a (Set.mem_insert_of_mem p ha), update_of_ne hne]

/-! ## Whole runs -/

/-- From the first place one comes to the result, or one returns, and comes to it from the second
place. -/
def Result (g : Program P ω V) (C : P → P → Prop) (p u : P) (w w' : ω) (v : V) : Prop :=
  Eval g C p w w' (some v) ∨ ∃ w₁, Eval g C p w w₁ none ∧ Eval g C u w₁ w' (some v)

omit [DecidableEq P] in
theorem Result.unique {C : P → P → Prop} {u : P} {w'' : ω} {v v' : V}
    (h : Result g C p u w w' v) (h' : Result g C p u w w'' v') : w' = w'' ∧ v = v' := by
  rcases h with h | ⟨w₁, h₁, h₂⟩ <;> rcases h' with h' | ⟨w₁', h₁', h₂'⟩
  · obtain ⟨rfl, hv⟩ := h.unique h'
    exact ⟨rfl, Option.some.inj hv⟩
  · exact absurd (h.unique h₁').2 (by simp)
  · exact absurd (h₁.unique h').2 (by simp)
  · obtain ⟨rfl, -⟩ := h₁.unique h₁'
    obtain ⟨rfl, hv⟩ := h₂.unique h₂'
    exact ⟨rfl, Option.some.inj hv⟩

/-- One goes on from the first place to the second one, without a call. -/
def Flow.Fall (f : Flow P) (p q : P) : Prop := ¬ f.ends p ∧ q = f.next p

omit [DecidableEq P] in
/-- Where a return comes from is reached without a call. -/
theorem Eval.ret_place (hfits : f.Fits g Q) (hQ : ∀ p, Q p → ∀ q, f.Succ p q → Q q)
    {r : Option V} (h : Eval g g.Far p w w' r) (hr : r = none) (hp : Q p) :
    ∃ q w₀ w₁, Relation.ReflTransGen f.Fall p q ∧ Q q ∧ g.act q w₀ = (w₁, .ret) := by
  have hfall : ∀ {a w w' r}, Q a → g.act a w = (w', r) → (r = .fall ∨ ∃ q, r = .jump q) →
      f.Fall a (g.next a) := by
    intro a w w' r ha hact hr
    refine ⟨fun hend ↦ ?_, by rw [hfits.next]⟩
    obtain ⟨w'', r', hact', hr'⟩ := hfits.ends a w ha hend
    cases hact.symm.trans hact'
    rcases hr with rfl | ⟨q, rfl⟩ <;> simp at hr'
  have hcons : ∀ {a w w' r}, Q a → g.act a w = (w', r) → (r = .fall ∨ ∃ q, r = .jump q) →
      (Q (g.next a) → ∃ q w₀ w₁, Relation.ReflTransGen f.Fall (g.next a) q ∧ Q q ∧
        g.act q w₀ = (w₁, .ret)) →
      ∃ q w₀ w₁, Relation.ReflTransGen f.Fall a q ∧ Q q ∧ g.act q w₀ = (w₁, .ret) := by
    intro a w w' r ha hact hr hrest
    have hstep := hfall ha hact hr
    obtain ⟨q, w₀, w₁, hpath, hq⟩ := hrest (hstep.2 ▸ hQ a ha _ (.next hstep.1))
    exact ⟨q, w₀, w₁, hpath.head hstep, hq⟩
  induction h with
  | stop h => cases hr
  | ret h => exact ⟨_, _, _, .refl, hp, h⟩
  | fall h _ ih => exact hcons hp h (Or.inl rfl) (ih hr)
  | goto h hq _ ih =>
    rw [not_not.1 hq] at ih
    exact hcons hp h (Or.inr ⟨_, rfl⟩) (ih hr)
  | callStop h _ _ _ => cases hr
  | callRet h _ _ _ _ ih => exact hcons hp h (Or.inr ⟨_, rfl⟩) (ih hr)

/-- **The machine comes to the result**, if one stops at the place that the last return goes to. -/
theorem Tree.result (hfits : f.Fits g Q) (hQ : ∀ p, Q p → ∀ q, f.Succ p q → Q q)
    (hinj : ∀ p q, Q p → Q q → g.next p = g.next q → p = q) (ht : Tree f ∅ p) (hp : Q p)
    {u : P} (w : ω)
    (hu : ∀ w₁, Eval g g.Far p w w₁ none → Q u ∧ ∃ w' v, g.act u w₁ = (w', .stop v))
    (come : P → P) :
    ∃ w' v, Result g g.Far p u w w' v ∧ Run g Q ⟨p, u, come, w⟩ (.inr (w', v)) := by
  rcases ht.behaves hfits hQ hinj hp (by simp) come w fun w₁ h ↦ (hu w₁ h).1 with
    ⟨w', v, hev, hrun⟩ | ⟨w₁, come', hev, hrun, -⟩
  · exact ⟨w', v, Or.inl hev, hrun⟩
  · obtain ⟨hplace, w', v, hact⟩ := hu w₁ hev
    refine ⟨w', v, Or.inr ⟨w₁, hev, .stop hact⟩, hrun.trans rfl (.stop hplace ?_)⟩
    simp [step, hact]

end Running

end Calls
