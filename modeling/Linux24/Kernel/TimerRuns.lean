import Linux24.Kernel.TimerWheel

/-!
# A timer runs once, in the iteration it is due

`TimerWheel` has what one operation does to the wheel; this file follows a timer through a run.
Any number of other timers may be added, modified and deleted meanwhile, by handlers or by anybody
else, and the clock may wrap.

* `Inv` — the invariant of a run: the wheel is in order, with the hands where `run_timer_list`
  needs them.
* `Inv.step` — one step keeps it, leaves the appointment of every timer it does not touch alone, and
  starts a timer only in the iteration it is due.
* `timer_exact` — the result.  `iterationFor` is the iteration a timer is due in when it is queued,
  in the terms of the difference between `expires` and `timer_jiffies`.

`run_timer_list` collects what is queued while it is running handlers and only adds it to the wheel
after advancing the clock.  A timer that a handler queues for the current value of `timer_jiffies`
is therefore late, by one iteration: `timer_late` is a run in which that happens.
-/

set_option autoImplicit false

namespace Linux24.Timer

open List Function

/-! ## What a call does to a timer -/

/-- The call puts the timer on the wheel. -/
def Queues (w : World) (a : Call) (t e : ℕ) : Prop :=
  a = .addTimer t e ∧ w.st.pending t = false ∨ a = .modTimer t e

/-- The call queues the timer or takes it off the wheel. -/
def Touches (w : World) : Call → ℕ → Prop
  | .addTimer u _, t => u = t ∧ w.st.pending t = false
  | .modTimer u _, t => u = t
  | .delTimer u, t => u = t ∧ w.st.pending t = true
  | _, _ => False

/-- The iteration for `expires` is yet to come and within half the range of the clock. -/
def OnTime (w : World) (e : ℕ) : Prop :=
  if w.st.running then
    1 ≤ sub32 e w.st.timerJiffies ∧ sub32 e w.st.timerJiffies ≤ 2 ^ 31
  else
    sub32 e w.st.timerJiffies < 2 ^ 31

instance (w : World) (e : ℕ) : Decidable (OnTime w e) :=
  inferInstanceAs (Decidable (if w.st.running then
    1 ≤ sub32 e w.st.timerJiffies ∧ sub32 e w.st.timerJiffies ≤ 2 ^ 31
    else sub32 e w.st.timerJiffies < 2 ^ 31))

/-- The iteration in which a timer is due that is queued with this `expires`. -/
def iterationFor (w : World) (e : ℕ) : ℕ :=
  if OnTime w e then w.iter + sub32 e w.st.timerJiffies
  else if w.st.running then w.iter + 1
  else w.iter

/-- The wheel is in order. -/
structure Inv (w : World) (due : ℕ → ℕ) : Prop where
  /-- Before an iteration the hands are at it, during the iteration past it. -/
  wheel : WheelInv w.iter (hand w.iter (if w.st.running then 5 else 1)) w.st due []
  /-- `run_timer_list_running` is set during an iteration. -/
  running : w.st.running = true ↔ w.st.pc = .again ∨ w.st.pc = .handler

/-- What a step does to a timer it does not touch: nothing, or it starts it when it is due. -/
def Kept (w w' : World) (t d : ℕ) : Prop :=
  w'.starts t = w.starts t ∧ w'.st.pending t = w.st.pending t ∧ w.iter ≤ w'.iter ∨
    w'.starts t = d :: w.starts t ∧ w.st.pending t = true ∧ w'.st.pending t = false ∧
      w'.iter = d

variable {t e u : ℕ} {a : Call}

theorem Kept.of_eq {w w' : World} {d : ℕ} (hs : w'.starts t = w.starts t)
    (hp : w'.st.pending t = w.st.pending t) (hi : w.iter ≤ w'.iter) : Kept w w' t d :=
  Or.inl ⟨hs, hp, hi⟩

/-! ## Appointments -/

theorem le_dueAt (N e : ℕ) : N ≤ dueAt N e := by
  unfold dueAt
  dsimp only
  split
  · exact Nat.le_add_right _ _
  · exact le_rfl

variable {w w' : World} {due : ℕ → ℕ}

theorem Inv.iterationFor_eq (h : Inv w due) (e : ℕ) :
    iterationFor w e = dueAt (if w.st.running then w.iter + 1 else w.iter) e := by
  have hon : OnTime w e ↔ if w.st.running then
      1 ≤ sub32 e (w.iter % 4294967296) ∧ sub32 e (w.iter % 4294967296) ≤ 2 ^ 31
      else sub32 e (w.iter % 4294967296) < 2 ^ 31 := by rw [← h.wheel.clock]; rfl
  unfold iterationFor dueAt
  simp only [hon, h.wheel.clock]
  cases w.st.running with
  | false => simp only [Bool.false_eq_true, if_false]
  | true =>
    -- one more iteration passes before the timer gets to the wheel
    simp only [if_true]
    unfold sub32
    split <;> split <;> omega

/-- On time is when `timer_jiffies` equals `expires`. -/
theorem Inv.iterationFor_mod (h : Inv w due) (he : e < 4294967296) (ht : OnTime w e) :
    iterationFor w e % 4294967296 = e := by
  have heq : iterationFor w e = w.iter + sub32 e w.st.timerJiffies := if_pos ht
  rw [heq, h.wheel.clock]
  unfold sub32
  omega

/-- No appointment is missed. -/
theorem Inv.le_due (h : Inv w due) (ht : w.st.pending t = true) : w.iter ≤ due t := by
  obtain ⟨l, hl⟩ | hnil := (h.wheel.pending t).1 ht
  · have hfit := h.wheel.fits l t hl
    cases l with
    | queued => exact (Nat.le_succ _).trans ((le_dueAt _ _).trans_eq hfit.2.symm)
    | tv n i =>
      obtain ⟨hn, hplaced, -⟩ := hfit
      exact (h.wheel.hand_bounds n hn).1.trans
        ((Nat.le_div_iff_mul_le (span_pos n)).1 hplaced.lo)
  · cases hnil

theorem Inv.off_of_not_pending (h : Inv w due) (ht : w.st.pending t = false) (l : Slot) :
    t ∉ w.st.vec l := by
  intro hl
  have := (h.wheel.pending t).2 (Or.inl ⟨l, hl⟩)
  exact Bool.false_ne_true (ht.symm.trans this)

/-! ## Detaching and adding -/

variable {N : ℕ} {hand : ℕ → ℕ} {s : State}

theorem WheelInv.detachTimer (h : WheelInv N hand s due []) (t : ℕ) :
    WheelInv N hand (s.detachTimer t) due [] ∧
      (s.detachTimer t).pending = update s.pending t false ∧
      (∀ l, t ∉ (s.detachTimer t).vec l) := by
  unfold State.detachTimer
  split
  · exact ⟨h.listDel not_mem_nil, rfl, fun l hl ↦ (h.mem_listDel.1 hl).1 rfl⟩
  · rename_i hp
    refine ⟨h, ?_, fun l hl ↦ hp ((h.pending t).2 (Or.inl ⟨l, hl⟩))⟩
    rw [← eq_false_of_ne_true hp, update_eq_self]

/-- `detach_timer` looks at the lists only. -/
theorem State.detachTimer_frame (s : State) (t : ℕ) :
    s.detachTimer t =
      { s with pending := (s.detachTimer t).pending, vec := (s.detachTimer t).vec } := by
  unfold State.detachTimer
  split <;> rfl

/-- `timer->list.next = NULL` after `detach_timer` changes nothing. -/
theorem WheelInv.detachTimer_clear (h : WheelInv N hand s due []) (t : ℕ) :
    update (s.detachTimer t).pending t false = (s.detachTimer t).pending := by
  rw [(h.detachTimer t).2.1, update_idem]

theorem WheelInv.queue (h : WheelInv N hand s due []) (he : e < 4294967296)
    (ht : ∀ l, t ∉ s.vec l) :
    let s' := { s with expires := update s.expires t e }.internalAddTimer t
    WheelInv N hand s' (update due t (dueAt (if s.running then N + 1 else N) e)) [] ∧
      s'.pending = update s.pending t true ∧ s'.running = s.running ∧ s'.pc = s.pc := by
  have hset := h.setTimer (dueAt (if s.running then N + 1 else N) e) he ht
  have hdue : update due t (dueAt (if s.running then N + 1 else N) e) t =
      dueAt (if s.running then N + 1 else N) (update s.expires t e t) := by
    rw [update_self, update_self]
  obtain ⟨l, heq, -, -⟩ := hset.internalAddTimer_eq hdue
  refine ⟨hset.internalAddTimer ht hdue, ?_⟩
  rw [heq]
  exact ⟨rfl, rfl, rfl⟩

/-! ## One step -/

/-- What a step guarantees. -/
def Step (w : World) (a : Call) (w' : World) (due : ℕ → ℕ) : Prop :=
  ∃ due', Inv w' due' ∧
    (∀ t, ¬ Touches w a t → due' t = due t ∧ Kept w w' t (due t)) ∧
    (∀ t e, Queues w a t e → due' t = iterationFor w e ∧ w'.st.pending t = true ∧
      w'.starts t = w.starts t)

theorem Inv.queue {s : State} (h : Inv w due)
    (hs : WheelInv w.iter (Timer.hand w.iter (if w.st.running then 5 else 1)) s due [])
    (hrun : s.running = w.st.running) (hpc : s.pc = w.st.pc)
    (hpend : ∀ t, t ≠ u → s.pending t = w.st.pending t) (he : e < 4294967296)
    (hu : ∀ l, u ∉ s.vec l) (htouch : Touches w a u)
    (hqueues : ∀ t e', Queues w a t e' → t = u ∧ e' = e) :
    Step w a { w with st := { s with expires := update s.expires u e }.internalAddTimer u }
      due := by
  obtain ⟨hwheel, hp, hr, hc⟩ := hs.queue he hu
  refine ⟨update due u (dueAt (if s.running then w.iter + 1 else w.iter) e), ⟨?_, ?_⟩, ?_, ?_⟩
  · rw [hr, hrun]
    rwa [hrun] at hwheel
  · rw [hr, hc, hrun, hpc]
    exact h.running
  · intro t ht
    have hne : t ≠ u := fun heq ↦ ht (heq ▸ htouch)
    refine ⟨update_of_ne hne _ _, Kept.of_eq rfl ?_ le_rfl⟩
    rw [hp, update_of_ne hne, hpend t hne]
  · intro t e' hq
    obtain ⟨rfl, rfl⟩ := hqueues t e' hq
    refine ⟨?_, ?_, rfl⟩
    · rw [update_self, h.iterationFor_eq, hrun]
    · rw [hp, update_self]

theorem Inv.addTimer (h : Inv w due) (he : e < 4294967296)
    (hkeep : w.st.pending u → e = w.st.expires u) :
    Step w (.addTimer u e) { w with st := w.st.addTimer u e } due := by
  unfold State.addTimer
  dsimp only
  split
  · rename_i hp
    rw [hkeep hp, update_eq_self]
    refine ⟨due, h, fun t _ ↦ ⟨rfl, Kept.of_eq rfl rfl le_rfl⟩, ?_⟩
    rintro t e' (⟨heq, hnot⟩ | heq)
    · cases heq
      exact absurd (hp.symm.trans hnot) Bool.noConfusion
    · cases heq
  · rename_i hp
    have hp : w.st.pending u = false := eq_false_of_ne_true hp
    refine h.queue h.wheel rfl rfl (fun _ _ ↦ rfl) he (h.off_of_not_pending hp) ⟨rfl, hp⟩ ?_
    rintro t e' (⟨heq, -⟩ | heq)
    · cases heq
      exact ⟨rfl, rfl⟩
    · cases heq

theorem Inv.modTimer (h : Inv w due) (he : e < 4294967296) :
    Step w (.modTimer u e) { w with st := w.st.modTimer u e } due := by
  obtain ⟨hwheel, hp, hoff⟩ := h.wheel.detachTimer u
  have hframe := State.detachTimer_frame w.st u
  have hcomm : { w.st with expires := update w.st.expires u e }.detachTimer u =
      { w.st.detachTimer u with expires := update (w.st.detachTimer u).expires u e } := by
    unfold State.detachTimer
    split <;> rfl
  unfold State.modTimer
  rw [hcomm]
  refine h.queue hwheel ?_ ?_ ?_ he hoff rfl ?_
  · rw [hframe]
  · rw [hframe]
  · intro t hne
    rw [hp, update_of_ne hne]
  · rintro t e' (⟨heq, -⟩ | heq)
    · cases heq
    · cases heq
      exact ⟨rfl, rfl⟩

theorem Inv.delTimer (h : Inv w due) (u : ℕ) :
    Step w (.delTimer u) { w with st := w.st.delTimer u } due := by
  obtain ⟨hwheel, hp, -⟩ := h.wheel.detachTimer u
  have hs : w.st.delTimer u = w.st.detachTimer u := by
    simp only [State.delTimer, h.wheel.detachTimer_clear u]
  have hframe := State.detachTimer_frame w.st u
  rw [hs]
  refine ⟨due, ⟨?_, ?_⟩, ?_, ?_⟩
  · have hrun : (w.st.detachTimer u).running = w.st.running := by rw [hframe]
    rwa [hrun]
  · rw [hframe]
    exact h.running
  · intro t ht
    refine ⟨rfl, Kept.of_eq rfl ?_ le_rfl⟩
    rw [hp]
    rcases eq_or_ne t u with rfl | hne
    · rw [update_self, eq_comm]
      exact eq_false_of_ne_true fun hpend ↦ ht ⟨rfl, hpend⟩
    · rw [update_of_ne hne]
  · rintro t e' (⟨heq, -⟩ | heq) <;> cases heq

/-- A step of `run_timer_list` in which no timer is started. -/
theorem Inv.quiet {s : State} {n : ℕ} (hinv : Inv { w with st := s, iter := n } due)
    (hp : s.pending = w.st.pending) (hn : w.iter ≤ n) (hqueues : ∀ t e, ¬ Queues w a t e) :
    Step w a { w with st := s, iter := n } due :=
  ⟨due, hinv, fun t _ ↦ ⟨rfl, Kept.of_eq rfl (congrFun hp t) hn⟩,
    fun t e hq ↦ absurd hq (hqueues t e)⟩

/-- The invariant does not depend on `jiffies`, nor on where `run_timer_list` is outside the
iterations. -/
theorem WheelInv.setJiffies (h : WheelInv N hand s due []) (j : ℕ) (pc : Pc) :
    WheelInv N hand { s with jiffies := j, pc := pc } due [] :=
  ⟨h.clock, h.hand_zero, h.hand_bounds, h.index, h.expires_lt,
    fun l t ht ↦ by have := h.fits l t ht; cases l <;> exact this, h.pending, h.nodup, h.unique⟩

/-- Starting the first timer of the list at the clock: it is due. -/
theorem Inv.startTimer {rest : List ℕ} (h : Inv w due) (hpc : w.st.pc = .again)
    (hL : w.st.vec (.tv 0 (w.st.index 0)) = u :: rest) (hqueues : ∀ t e, ¬ Queues w a t e) :
    Step w a { w with
        st := w.st.startTimer u
        starts := update w.starts u (w.iter :: w.starts u) } due := by
  have hrun : w.st.running = true := h.running.2 (Or.inl hpc)
  have hmem : u ∈ w.st.vec (.tv 0 (w.st.index 0)) := by rw [hL]; exact mem_cons_self
  have hdue : due u = w.iter := by
    have hN : hand w.iter (if w.st.running then 5 else 1) 0 * span 0 = w.iter := by
      rw [hand_zero]
      exact mul_one _
    obtain ⟨hlo, hhi⟩ := h.wheel.due_of_mem (by omega) hN hmem
    exact le_antisymm (Nat.lt_succ_iff.1 hhi) hlo
  obtain ⟨hwheel, hp, -⟩ := h.wheel.detachTimer u
  have hframe := State.detachTimer_frame w.st u
  have hs : w.st.startTimer u = { w.st.detachTimer u with pc := .handler } := by
    simp only [State.startTimer, h.wheel.detachTimer_clear u]
  have hrun' : (w.st.detachTimer u).running = true := by rw [hframe]; exact hrun
  rw [hs]
  refine ⟨due, ⟨?_, ?_⟩, ?_, fun t e hq ↦ absurd hq (hqueues t e)⟩
  · have hphase : (if (w.st.detachTimer u).running then 5 else 1) =
        if w.st.running then 5 else 1 := by rw [hrun', hrun]
    rw [hphase]
    exact hwheel.setJiffies _ _
  · exact ⟨fun _ ↦ Or.inr rfl, fun _ ↦ hrun'⟩
  · intro t _
    refine ⟨rfl, ?_⟩
    rcases eq_or_ne t u with rfl | hne
    · refine Or.inr ⟨?_, (h.wheel.pending t).2 (Or.inl ⟨_, hmem⟩), ?_, hdue.symm⟩
      · simp [hdue]
      · simp [hp]
    · refine Kept.of_eq ?_ ?_ le_rfl
      · simp [update_of_ne hne]
      · simp only [hp, update_of_ne hne]

/-- `run_timer_list` goes on. -/
theorem Inv.proceed (h : Inv w due) (hqueues : ∀ t e, ¬ Queues w a t e) :
    Step w a (Timer.proceed w) due := by
  unfold Timer.proceed
  cases hpc : w.st.pc with
  | idle => exact Inv.quiet h rfl le_rfl hqueues
  | loop =>
    have hrun : w.st.running = false := by
      refine eq_false_of_ne_true fun ht ↦ ?_
      rcases h.running.1 ht with h' | h' <;> exact Pc.noConfusion (hpc.symm.trans h')
    have hwheel := h.wheel
    rw [hrun] at hwheel
    dsimp only
    split
    · obtain ⟨v, ix, heq, hinv⟩ := hwheel.startIteration hrun
      rw [heq] at hinv ⊢
      exact Inv.quiet ⟨hinv, fun _ ↦ Or.inl rfl, fun _ ↦ rfl⟩ rfl le_rfl hqueues
    · refine Inv.quiet ⟨h.wheel.setJiffies _ _, ?_⟩ rfl le_rfl hqueues
      · rw [hrun]
        exact ⟨Bool.noConfusion, fun h' ↦ by rcases h' with h' | h' <;> cases h'⟩
  | again =>
    have hrun : w.st.running = true := h.running.2 (Or.inl hpc)
    have hwheel := h.wheel
    rw [hrun] at hwheel
    cases hL : w.st.vec (.tv 0 (w.st.index 0)) with
    | cons u rest => exact h.startTimer hpc hL hqueues
    | nil =>
      obtain ⟨v, heq, hinv⟩ := hwheel.endIteration hL
      rw [heq] at hinv ⊢
      refine Inv.quiet ⟨hinv, ?_⟩ rfl (Nat.le_succ _) hqueues
      exact ⟨Bool.noConfusion, fun h' ↦ by rcases h' with h' | h' <;> cases h'⟩
  | handler =>
    have hrun : w.st.running = true := h.running.2 (Or.inr hpc)
    refine Inv.quiet ⟨?_, fun _ ↦ Or.inl rfl, fun _ ↦ hrun⟩ rfl le_rfl hqueues
    exact h.wheel.setJiffies _ _

/-- **One step**: the wheel stays in order, the appointments of the other timers are kept, and a
timer that is queued gets one. -/
theorem Inv.step (h : Inv w due) (hl : Legal w a) (hx : exec w a = .ok w') :
    Step w a w' due := by
  cases a with
  | addTimer u e => cases hx; exact h.addTimer hl.2.1 hl.2.2
  | modTimer u e => cases hx; exact h.modTimer hl.2
  | delTimer u => cases hx; exact h.delTimer u
  | tick n =>
    cases hx
    refine Inv.quiet ⟨h.wheel.setJiffies _ _, h.running⟩ rfl le_rfl ?_
    rintro t e (⟨heq, -⟩ | heq) <;> cases heq
  | runTimerList =>
    cases hx
    have hpc : w.st.pc = .idle := hl
    refine Inv.quiet ⟨h.wheel.setJiffies _ _, ?_⟩ rfl le_rfl ?_
    · have hrun := h.running
      rw [hpc] at hrun
      exact hrun.trans (by simp)
    · rintro t e (⟨heq, -⟩ | heq) <;> cases heq
  | proceed =>
    cases hx
    refine h.proceed ?_
    rintro t e (⟨heq, -⟩ | heq) <;> cases heq

/-! ## Whole runs -/

theorem inv_initial : Inv initial fun _ ↦ 0 where
  wheel := {
    clock := rfl
    hand_zero := hand_zero _ _
    hand_bounds := fun n _ ↦ hand_bounds _ _ n
    index := fun n _ ↦ by
      have hhand : Timer.hand 0 1 n = 0 := by
        unfold hand
        rw [if_neg (by omega), zero_add]
        exact Nat.div_eq_of_lt (Nat.sub_lt (span_pos n) one_pos)
      exact (congrArg (· % tvSize n) hhand).trans (Nat.zero_mod _) |>.symm
    expires_lt := fun _ ↦ Nat.two_pow_pos 32
    fits := fun _ _ h ↦ absurd h not_mem_nil
    pending := fun t ↦ ⟨fun h ↦ absurd h Bool.false_ne_true, by
      rintro (⟨l, h⟩ | h) <;> exact absurd h not_mem_nil⟩
    nodup := fun _ ↦ nodup_nil
    unique := fun _ _ _ h ↦ absurd h not_mem_nil }
  running := ⟨fun h ↦ absurd h Bool.false_ne_true, fun h ↦ by rcases h with h | h <;> cases h⟩

theorem inv_of_reachable {w : World} (h : machine.Reachable w) : ∃ due, Inv w due := by
  refine h.invariant (P := fun w ↦ ∃ due, Inv w due) ?_ ?_
  · rintro _ rfl
    exact ⟨_, inv_initial⟩
  · rintro w a w' ⟨due, hi⟩ hl hx
    obtain ⟨due', hi', -⟩ := hi.step hl hx
    exact ⟨due', hi'⟩

/-- A timer that has an appointment at `d` and was started in the iterations `old` before that. -/
def Waiting (w : World) (due : ℕ → ℕ) (t d : ℕ) (old : List ℕ) : Prop :=
  due t = d ∧ w.st.pending t = true ∧ w.starts t = old

/-- It has been started, once, at `d`. -/
def Started (w : World) (t d : ℕ) (old : List ℕ) : Prop :=
  w.st.pending t = false ∧ w.starts t = d :: old ∧ d ≤ w.iter

/-- Until somebody touches it, the timer waits for its iteration or has been started in it. -/
theorem Inv.path {w₁ w₂ : World} {d : ℕ} {old : List ℕ} (h : Inv w₁ due)
    (hwait : Waiting w₁ due t d old) (hpath : machine.Path (fun w a ↦ ¬ Touches w a t) w₁ w₂) :
    ∃ due', Inv w₂ due' ∧ (Waiting w₂ due' t d old ∨ Started w₂ t d old) := by
  induction hpath with
  | refl => exact ⟨due, h, Or.inl hwait⟩
  | step _ hl hP hx ih =>
    obtain ⟨due', hi, hcase⟩ := ih
    obtain ⟨due'', hi', hkept, -⟩ := hi.step hl hx
    obtain ⟨hdue, hkept⟩ := hkept t hP
    refine ⟨due'', hi', ?_⟩
    rcases hcase with ⟨hd, hp, hs⟩ | ⟨hp, hs, hle⟩
    · rcases hkept with ⟨hs', hp', -⟩ | ⟨hs', -, hp', hiter⟩
      · exact Or.inl ⟨hdue.trans hd, hp'.trans hp, hs'.trans hs⟩
      · exact Or.inr ⟨hp', by rw [hs', hd, hs], by rw [hiter, hd]⟩
    · rcases hkept with ⟨hs', hp', hle'⟩ | ⟨-, hp', -⟩
      · exact Or.inr ⟨hp'.trans hp, hs'.trans hs, hle.trans hle'⟩
      · exact absurd (hp.symm.trans hp') Bool.noConfusion

/-- **A timer runs once, in the iteration it is due.**  Follow any run from the queueing of a timer
on, for as long as the timer is neither modified, nor deleted while it is pending, nor added again
after it has run.  `timer_jiffies` is the number of iterations so far, in 32 bits, at both ends.
Until the end of the iteration `iterationFor w e` the timer may still be pending, not having been
started since; otherwise it has been started exactly once since, in that iteration.  Queued outside
the handlers, that is the iteration in which `timer_jiffies` equals `expires`, or the next one to
come if `expires` is in the past; queued while handlers run, a timer for the current value of
`timer_jiffies` counts as one in the past, and one exactly `2 ^ 31` ahead does not. -/
theorem timer_exact {w w₁ w₂ : World} {a : Call} {t e : ℕ} (hw : machine.Reachable w)
    (hl : machine.legal w a) (hq : Queues w a t e) (hx : machine.exec w a = .ok w₁)
    (hpath : machine.Path (fun w a ↦ ¬ Touches w a t) w₁ w₂) :
    w.st.timerJiffies = w.iter % 4294967296 ∧ w₂.st.timerJiffies = w₂.iter % 4294967296 ∧
    (OnTime w e → iterationFor w e % 4294967296 = e) ∧
    (w₂.starts t = w.starts t ∧ w₂.st.pending t = true ∧ w₂.iter ≤ iterationFor w e ∨
      w₂.starts t = iterationFor w e :: w.starts t ∧ w₂.st.pending t = false ∧
        iterationFor w e ≤ w₂.iter) := by
  obtain ⟨due, hi⟩ := inv_of_reachable hw
  obtain ⟨due₁, hi₁, -, hqueue⟩ := hi.step hl hx
  obtain ⟨hd, hp, hs⟩ := hqueue t e hq
  obtain ⟨due₂, hi₂, hcase⟩ := hi₁.path ⟨hd, hp, hs⟩ hpath
  have he : e < 4294967296 := by
    rcases hq with ⟨rfl, -⟩ | rfl
    · exact hl.2.1
    · exact hl.2
  refine ⟨hi.wheel.clock, hi₂.wheel.clock, hi.iterationFor_mod he, ?_⟩
  rcases hcase with ⟨hd₂, hp₂, hs₂⟩ | ⟨hp₂, hs₂, hle⟩
  · exact Or.inl ⟨hs₂, hp₂, (hi₂.le_due hp₂).trans_eq hd₂⟩
  · exact Or.inr ⟨hs₂, hp₂, hle⟩

/-! ## A late timer -/

/-- A handler is running in the first iteration. -/
def firstHandler : List Call := [.addTimer 0 0, .runTimerList, .proceed, .proceed]

/-- The iteration ends, the clock ticks, and the next iteration runs. -/
def nextIteration : List Call := [.proceed, .proceed, .tick 1, .proceed, .proceed]

theorem not_touches_nextIteration (t : ℕ) (w : World) : ∀ a ∈ nextIteration, ¬ Touches w a t := by
  simp [nextIteration, Touches]

/-- The state these calls lead to from the start. -/
def after (calls : List Call) : World := (machine.trace initial calls).getD initial

theorem reachable_firstHandler : machine.Reachable (after firstHandler) := by
  have htrace : machine.trace initial firstHandler = some (after firstHandler) := rfl
  exact (Machine.Reachable.init rfl).trace htrace

theorem path_nextIteration : machine.Path (fun w a ↦ ¬ Touches w a 1)
    (after (firstHandler ++ [.addTimer 1 0]))
    (after (firstHandler ++ [.addTimer 1 0] ++ nextIteration)) :=
  Machine.Path.of_trace (not_touches_nextIteration 1) rfl

/-- **A timer that a handler queues for the current `timer_jiffies` is late**: its `expires` is not
in the past, and it runs in the iteration after the one with that number. -/
theorem timer_late : ∃ w w₁ w₂, machine.Reachable w ∧ machine.legal w (.addTimer 1 0) ∧
    Queues w (.addTimer 1 0) 1 0 ∧ sub32 0 w.st.timerJiffies = 0 ∧
    machine.exec w (.addTimer 1 0) = .ok w₁ ∧
    machine.Path (fun w a ↦ ¬ Touches w a 1) w₁ w₂ ∧ w₂.starts 1 = [1] ∧
    w₂.st.timerJiffies = 1 := by
  exact ⟨_, _, _, reachable_firstHandler, ⟨Or.inr rfl, by decide, by decide⟩, Or.inl ⟨rfl, rfl⟩,
    rfl, rfl, path_nextIteration, rfl, rfl⟩

theorem timer_exact_late : ∃ w w₁ w₂, machine.Reachable w ∧
    machine.exec w (.addTimer 1 0) = .ok w₁ ∧
    machine.Path (fun w a ↦ ¬ Touches w a 1) w₁ w₂ ∧ iterationFor w 0 = 1 ∧
    w₂.starts 1 = 1 :: w.starts 1 := by
  obtain ⟨-, -, -, hcase⟩ := timer_exact (a := .addTimer 1 0) reachable_firstHandler
    ⟨Or.inr rfl, by decide, by decide⟩ (Or.inl ⟨rfl, rfl⟩) rfl path_nextIteration
  refine ⟨_, _, _, reachable_firstHandler, rfl, path_nextIteration, rfl, ?_⟩
  rcases hcase with ⟨-, hp, -⟩ | ⟨hs, -, -⟩
  · cases hp
  · exact hs

end Linux24.Timer
