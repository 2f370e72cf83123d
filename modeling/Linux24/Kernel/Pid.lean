import Linux24.Lib.Machine

/-!
# Process identifiers: `get_pid` of `kernel/fork.c`

`get_pid` hands out `last_pid + 1`, as long as it is below `next_safe`: no task has an identifier
strictly between the two.  Otherwise it goes through the tasks, once more for each value that turns
out to be taken, and finds `next_safe` anew on the way.  After `PID_MAX - 1` it goes on with 300,
and when it is back at the value it has begun with it gives up.

That is right as long as the values have not run out (`State.Ok`).  Then, at `nomorepids`, the value
that `get_pid` has begun with is given up without having been looked at, and `next_safe` is left as
it is in the middle of a scan.  And a fork calls `get_pid` long before its task is among those that
are looked at, and may sleep in between: meanwhile the values may come round to its own, or the
window to where the task is put.  `pid_unique_iff` is that nothing else goes wrong.

A history is made of forks, each of which calls `get_pid` and then fails or links a task, of exits,
and of changes of the other identifiers of a task.  `init_task`, which is not looked at, has 0 for
all of its identifiers.
-/

set_option autoImplicit false

namespace Linux24.Pid

open List

/-! ## The code -/

/-- The identifiers in a `struct task_struct`. -/
structure Task where
  pid : ℕ
  pgrp : ℕ
  tgid : ℕ
  session : ℕ
deriving DecidableEq, Repr

def pidMax : ℕ := 0x8000

/-- `n & 0xffff8000`. -/
def overflows (n : ℕ) : Bool := decide (n &&& 0xffff8000 ≠ 0)

/-- The task has the identifier. -/
def Task.has (p : Task) (n : ℕ) : Prop := p.pid = n ∨ p.pgrp = n ∨ p.tgid = n ∨ p.session = n

instance (p : Task) (n : ℕ) : Decidable (p.has n) := inferInstanceAs (Decidable (_ ∨ _ ∨ _ ∨ _))

/-- `if (id > last_pid && next_safe > id) next_safe = id`. -/
def lower (lastPid id nextSafe : ℕ) : ℕ := if lastPid < id ∧ id < nextSafe then id else nextSafe

/-- This for the four identifiers of a task. -/
def Task.lower (p : Task) (lastPid nextSafe : ℕ) : ℕ :=
  Pid.lower lastPid p.session
    (Pid.lower lastPid p.tgid (Pid.lower lastPid p.pgrp (Pid.lower lastPid p.pid nextSafe)))

/-- The loop over the tasks: whether one of them has the identifier `last_pid`, and `next_safe` at
the end of the loop. -/
def scan (lastPid : ℕ) : List Task → ℕ → Bool × ℕ
  | [], nextSafe => (false, nextSafe)
  | p :: tasks, nextSafe =>
    if p.has lastPid then (true, nextSafe) else scan lastPid tasks (p.lower lastPid nextSafe)

/-- The value after one that is taken, and `next_safe`. -/
def nextPid (lastPid nextSafe : ℕ) : ℕ × ℕ :=
  let lastPid := lastPid + 1
  if nextSafe ≤ lastPid then (if overflows lastPid then 300 else lastPid, pidMax)
  else (lastPid, nextSafe)

/-- From the label `repeat` on: what is returned, `last_pid` and `next_safe`; nothing if it goes
round for ever. -/
def repeatScan (tasks : List Task) (beginpid : ℕ) : (fuel lastPid nextSafe : ℕ) → Option (ℕ × ℕ × ℕ)
  | 0, _, _ => none
  | fuel + 1, lastPid, nextSafe =>
    match scan lastPid tasks nextSafe with
    | (false, nextSafe) => some (lastPid, lastPid, nextSafe)
    | (true, nextSafe) =>
      let (lastPid, nextSafe) := nextPid lastPid nextSafe
      -- `nomorepids`
      if lastPid = beginpid then some (0, lastPid, nextSafe)
      else repeatScan tasks beginpid fuel lastPid nextSafe

/-- `last_pid`, `next_safe`, the tasks in the order of `for_each_task`, and those of forks that have
called `get_pid` and have not yet linked them. -/
structure State where
  lastPid : ℕ
  nextSafe : ℕ
  tasks : List Task
  forks : List Task

namespace State

variable (s : State)

/-- `get_pid` from the label `inside` on. -/
def inside (lastPid : ℕ) : Option (ℕ × State) :=
  (repeatScan s.tasks s.lastPid 65536 lastPid pidMax).map fun (pid, lastPid, nextSafe) ↦
    (pid, { s with lastPid := lastPid, nextSafe := nextSafe })

/-- `get_pid`, without `CLONE_PID`. -/
def getPid : Option (ℕ × State) :=
  let lastPid := s.lastPid + 1
  if overflows lastPid then s.inside 300
  else if s.nextSafe ≤ lastPid then s.inside lastPid
  else some (lastPid, { s with lastPid := lastPid })

/-- Some task has the identifier. -/
def InUse (v : ℕ) : Prop := ∃ p ∈ s.tasks, p.has v

/-- The identifier is that of a task, or of `init_task`. -/
def Known (v : ℕ) : Prop := v = 0 ∨ s.InUse v

/-- The identifier is that of a task, linked or not. -/
def Held (v : ℕ) : Prop := ∃ p ∈ s.tasks ++ s.forks, p.has v

end State

/-! ## Histories -/

/-- What happens. -/
inductive Event
  /-- A fork calls `get_pid`.  The other identifiers of its task are copies; `none` stands for the
  new one. -/
  | getPid (pgrp tgid session : Option ℕ)
  /-- The fork with this number links its task. -/
  | link (i : ℕ)
  /-- It fails. -/
  | fail (i : ℕ)
  /-- The task with this number in the list exits. -/
  | exit (i : ℕ)
  /-- The task with this number gets other identifiers. -/
  | change (i pgrp tgid session : ℕ)

/-- What a fork does with what `get_pid` returns.  It fails at once if there is no identifier. -/
def State.fork (s : State) (pgrp tgid session : Option ℕ) : Except Unit State :=
  match s.getPid with
  | none => .error ()
  | some (pid, s') => .ok (if pid = 0 then s' else
      { s' with forks := s'.forks ++ [⟨pid, pgrp.getD pid, tgid.getD pid, session.getD pid⟩] })

/-- What an event does. -/
def State.perform (s : State) : Event → Except Unit State
  | .getPid pgrp tgid session => s.fork pgrp tgid session
  | .link i => .ok { s with tasks := s.tasks ++ s.forks[i]?.toList, forks := s.forks.eraseIdx i }
  | .fail i => .ok { s with forks := s.forks.eraseIdx i }
  | .exit i => .ok { s with tasks := s.tasks.eraseIdx i }
  | .change i pgrp tgid session =>
    .ok { s with tasks := s.tasks.modify i fun p ↦ ⟨p.pid, pgrp, tgid, session⟩ }

/-- The identifiers that are not new are those of some task. -/
def State.Legal (s : State) : Event → Prop
  | .getPid pgrp tgid session =>
    ∀ v, (pgrp = some v ∨ tgid = some v ∨ session = some v) → s.Known v
  | .change _ pgrp tgid session => s.Known pgrp ∧ s.Known tgid ∧ s.Known session
  | _ => True

/-- The state in which there is only `init_task`. -/
def State.boot : State := ⟨0, pidMax, [], []⟩

/-- Histories. -/
def machine : Machine State Event Unit where
  init s := s = .boot
  legal := State.Legal
  exec := State.perform

/-- The values from the one after `b` on that come before `l`, past the end and on with 300 if need
be, are all in use. -/
def Tried (used : ℕ → Prop) (b l : ℕ) : Prop :=
  (b < l ∧ ∀ v, b < v → v < l → used v) ∨
    (300 ≤ l ∧ l < b ∧ (∀ v, b < v → v < pidMax → used v) ∧ ∀ v, 300 ≤ v → v < l → used v)

/-- The first value after `last_pid` that no task on the list has. -/
def State.Next (s : State) (v : ℕ) : Prop :=
  v < pidMax ∧ ¬ s.InUse v ∧ Tried s.InUse s.lastPid v

/-- There is a value for `get_pid` to find, and no task is linked with an identifier in the
window. -/
def Careful (s : State) : Event → Prop
  | .getPid _ _ _ => ∃ v, s.Next v
  | .link i => ∀ p ∈ s.forks[i]?, ∀ v, p.has v → s.lastPid < v → s.nextSafe ≤ v
  | _ => True

/-! ## A scan -/

theorem overflows_of_lt {n : ℕ} (h : n < pidMax) : overflows n = false := by
  refine decide_eq_false (not_not.2 (Nat.eq_of_testBit_eq fun i ↦ ?_))
  rw [Nat.testBit_and, Nat.zero_testBit]
  by_cases hi : i < 15
  · have hmask : ∀ j < 15, Nat.testBit 0xffff8000 j = false := by decide
    rw [hmask i hi, Bool.and_false]
  · have hpow : n < 2 ^ i := by
      have : 2 ^ 15 ≤ 2 ^ i := Nat.pow_le_pow_right (by decide) (by omega)
      rw [pidMax] at h
      omega
    rw [Nat.testBit_lt_two_pow hpow, Bool.false_and]

theorem overflows_pidMax : overflows pidMax = true := by decide

theorem lower_le (l id n : ℕ) : lower l id n ≤ n := by
  rw [lower]
  split <;> omega

theorem lt_lower {l n : ℕ} (id : ℕ) (h : l < n) : l < lower l id n := by
  rw [lower]
  split <;> omega

theorem lower_le_id {l id : ℕ} (n : ℕ) (h : l < id) : lower l id n ≤ id := by
  rw [lower]
  split <;> omega

namespace Task

variable (p : Task) (l : ℕ)

theorem lower_le (n : ℕ) : p.lower l n ≤ n :=
  (Pid.lower_le _ _ _).trans ((Pid.lower_le _ _ _).trans
    ((Pid.lower_le _ _ _).trans (Pid.lower_le _ _ _)))

variable {l}

theorem lt_lower {n : ℕ} (h : l < n) : l < p.lower l n :=
  Pid.lt_lower _ (Pid.lt_lower _ (Pid.lt_lower _ (Pid.lt_lower _ h)))

theorem lower_le_of_has {v : ℕ} (hv : p.has v) (h : l < v) (n : ℕ) : p.lower l n ≤ v := by
  rcases hv with rfl | rfl | rfl | rfl
  · exact (Pid.lower_le _ _ _).trans ((Pid.lower_le _ _ _).trans
      ((Pid.lower_le _ _ _).trans (lower_le_id n h)))
  · exact (Pid.lower_le _ _ _).trans ((Pid.lower_le _ _ _).trans (lower_le_id _ h))
  · exact (Pid.lower_le _ _ _).trans (lower_le_id _ h)
  · exact lower_le_id _ h

end Task

/-- **One scan.**  If it comes to the end, the value is free, and `next_safe` is at most the next
one that is not. -/
theorem scan_spec (l : ℕ) (tasks : List Task) {n : ℕ} (hn : l < n) :
    l < (scan l tasks n).2 ∧ (scan l tasks n).2 ≤ n ∧
      ((scan l tasks n).1 = true → ∃ p ∈ tasks, p.has l) ∧
      ((scan l tasks n).1 = false → (∀ p ∈ tasks, ¬p.has l) ∧
        ∀ p ∈ tasks, ∀ v, p.has v → l < v → (scan l tasks n).2 ≤ v) := by
  induction tasks generalizing n with
  | nil => exact ⟨hn, le_rfl, nofun, fun _ ↦ ⟨nofun, nofun⟩⟩
  | cons p tasks ih =>
    rw [scan]
    split
    · rename_i hp
      exact ⟨hn, le_rfl, fun _ ↦ ⟨p, mem_cons_self, hp⟩, nofun⟩
    · rename_i hp
      obtain ⟨hlt, hle, htrue, hfalse⟩ := ih (p.lt_lower hn)
      refine ⟨hlt, hle.trans (p.lower_le l n), fun h ↦ ?_, fun h ↦ ?_⟩
      · obtain ⟨q, hq, hhas⟩ := htrue h
        exact ⟨q, mem_cons_of_mem p hq, hhas⟩
      · obtain ⟨hno, hmin⟩ := hfalse h
        refine ⟨forall_mem_cons.2 ⟨hp, hno⟩, forall_mem_cons.2 ⟨fun v hv hlv ↦ ?_, hmin⟩⟩
        exact hle.trans (p.lower_le_of_has hv hlv n)

theorem nextPid_spec {l n : ℕ} (hl : l < pidMax) (hn : l < n) (hle : n ≤ pidMax) :
    (nextPid l n).1 < (nextPid l n).2 ∧ (nextPid l n).2 ≤ pidMax ∧
      (nextPid l n).1 = if l + 1 = pidMax then 300 else l + 1 := by
  rw [nextPid]
  by_cases hlast : l + 1 = pidMax
  · rw [if_pos (by omega), hlast, overflows_pidMax]
    exact ⟨by decide, le_rfl, rfl⟩
  · rw [overflows_of_lt (by omega)]
    split
    · exact ⟨lt_of_le_of_ne hl hlast, le_rfl, rfl⟩
    · exact ⟨by dsimp only; omega, hle, rfl⟩

/-! ## All the scans of a call -/

/-- How many values are left to be tried. -/
def left (b l : ℕ) : ℕ := if b < l then pidMax - l + b else b - l

theorem Tried.succ (used : ℕ → Prop) (b : ℕ) : Tried used b (b + 1) :=
  Or.inl ⟨Nat.lt_succ_self b, fun v hv hv' ↦ by omega⟩

theorem Tried.next {used : ℕ → Prop} {b l : ℕ} (h : Tried used b l) (hb : 300 ≤ b)
    (hb' : b < pidMax) (hl : l < pidMax) (hused : used l) {l' : ℕ}
    (hl' : l' = if l + 1 = pidMax then 300 else l + 1) (hne : l' ≠ b) :
    Tried used b l' ∧ left b l' < left b l := by
  have hmore : ∀ v, (v < l → used v) → v < l + 1 → used v := by
    intro v hv hle
    rcases Nat.lt_succ_iff_lt_or_eq.1 hle with hvl | rfl
    · exact hv hvl
    · exact hused
  rcases h with ⟨hlt, htried⟩ | ⟨hge, hlt, hhigh, hlow⟩
  · by_cases hlast : l + 1 = pidMax
    · rw [if_pos hlast] at hl'
      subst hl'
      refine ⟨Or.inr ⟨le_rfl, by omega, fun v hv hv' ↦ ?_, fun v hv hv' ↦ by omega⟩, ?_⟩
      · exact hmore v (htried v hv) (by omega)
      · rw [left, left, if_neg (by omega), if_pos hlt]
        omega
    · rw [if_neg hlast] at hl'
      refine ⟨Or.inl ⟨by omega, fun v hv hv' ↦ ?_⟩, ?_⟩
      · exact hmore v (htried v hv) (by omega)
      · rw [left, left, if_pos (by omega), if_pos hlt]
        omega
  · rw [if_neg (by omega)] at hl'
    refine ⟨Or.inr ⟨by omega, by omega, hhigh, fun v hv hv' ↦ ?_⟩, ?_⟩
    · exact hmore v (hlow v hv) (by omega)
    · rw [left, left, if_neg (by omega), if_neg (by omega)]
      omega

/-- When the next value is the first one, all the others have been tried. -/
theorem Tried.all {used : ℕ → Prop} {b l : ℕ} (h : Tried used b l) (hb : b < pidMax)
    (hused : used l) (hback : b = if l + 1 = pidMax then 300 else l + 1) (v : ℕ)
    (hv : 300 ≤ v) (hv' : v < pidMax) (hne : v ≠ b) : used v := by
  by_cases hvl : v = l
  · rw [hvl]
    exact hused
  rcases h with ⟨hlt, htried⟩ | ⟨hge, hlt, hhigh, hlow⟩
  · by_cases hlast : l + 1 = pidMax
    · rw [if_pos hlast] at hback
      exact htried v (by omega) (by omega)
    · rw [if_neg hlast] at hback
      omega
  · rw [if_neg (by omega)] at hback
    rcases lt_or_ge v l with hvl' | hvl'
    · exact hlow v hv hvl'
    · exact hhigh v (by omega) hv'

/-- What `get_pid` has come to when it has gone through the tasks. -/
inductive Outcome (used : ℕ → Prop) (b : ℕ) : ℕ × ℕ × ℕ → Prop
  /-- A value that is free, with nothing in use between it and `next_safe`. -/
  | found {l n : ℕ} (hpos : 0 < l) (hl : l < n) (hn : n ≤ pidMax) (hfree : ¬used l)
      (hwindow : ∀ v, used v → l < v → n ≤ v) (hlow : 300 ≤ l ∨ l = b + 1)
      (htried : Tried used b l) : Outcome used b (l, l, n)
  /-- All the values but the one it has begun with are in use. -/
  | none {n : ℕ} (hb : 300 ≤ b) (hn : n ≤ pidMax)
      (hall : ∀ v, 300 ≤ v → v < pidMax → v ≠ b → used v) : Outcome used b (0, b, n)

/-- **The scans come to an end.** -/
theorem repeatScan_spec {tasks : List Task} {b : ℕ} (fuel : ℕ) {l n : ℕ} (hl : 0 < l) (hn : l < n)
    (hle : n ≤ pidMax) (hlow : 300 ≤ l ∨ l = b + 1)
    (htried : Tried (fun v ↦ ∃ p ∈ tasks, p.has v) b l)
    (hboot : b < 300 → ¬∃ p ∈ tasks, p.has l) (hb' : b < pidMax) (hfuel : left b l < fuel) :
    ∃ r, repeatScan tasks b fuel l n = some r ∧ Outcome (fun v ↦ ∃ p ∈ tasks, p.has v) b r := by
  induction fuel generalizing l n with
  | zero => cases hfuel
  | succ fuel ih =>
    obtain ⟨hlt, hle', htrue, hfalse⟩ := scan_spec l tasks hn
    rw [repeatScan]
    cases hscan : scan l tasks n with
    | mk found n' =>
      rw [hscan] at hlt hle' htrue hfalse
      dsimp only at hlt hle' htrue hfalse ⊢
      cases found with
      | false =>
        obtain ⟨hno, hmin⟩ := hfalse rfl
        exact ⟨_, rfl, .found hl hlt (hle'.trans hle) (fun ⟨p, hp, hhas⟩ ↦ hno p hp hhas)
          (fun v ⟨p, hp, hhas⟩ hv ↦ hmin p hp v hhas hv) hlow htried⟩
      | true =>
        have hused := htrue rfl
        have hb : 300 ≤ b := Nat.le_of_not_lt fun hb ↦ hboot hb hused
        obtain ⟨hlt', hle'', hnext⟩ := nextPid_spec (by omega) hlt (hle'.trans hle)
        dsimp only
        split
        · rename_i hback
          rw [hback]
          exact ⟨_, rfl, .none hb hle'' (htried.all hb' hused (hback ▸ hnext))⟩
        · rename_i hback
          obtain ⟨htried', hleft⟩ := htried.next hb hb' (by omega) hused hnext hback
          have hlow' : 300 ≤ (nextPid l n').1 := by
            rw [hnext]
            split <;> omega
          exact ih (by omega) hlt' hle'' (Or.inl hlow') htried' (fun hc ↦ absurd hb (by omega))
            (by omega)

namespace State

variable {s s' : State}

/-! ## The window -/

/-- What holds as long as the values have not run out. -/
structure Ok (s : State) : Prop where
  last_lt : s.lastPid < pidMax
  safe_le : s.nextSafe ≤ pidMax
  held_lt : ∀ v, s.Held v → v < pidMax
  /-- Nothing in the window is in use. -/
  window : ∀ v, s.InUse v → s.lastPid < v → s.nextSafe ≤ v ∨ s.lastPid + 1 = pidMax
  /-- At first the values are handed out one after the other. -/
  low : s.lastPid < 300 → ∀ v, s.Held v → v ≤ s.lastPid

theorem InUse.held {v : ℕ} (h : s.InUse v) : s.Held v := by
  obtain ⟨p, hp, hhas⟩ := h
  exact ⟨p, mem_append_left _ hp, hhas⟩

theorem Ok.boot : Ok boot :=
  ⟨by decide, le_rfl, fun _ ⟨_, hp, _⟩ ↦ absurd hp not_mem_nil,
    fun _ ⟨_, hp, _⟩ ↦ absurd hp not_mem_nil, fun _ _ ⟨_, hp, _⟩ ↦ absurd hp not_mem_nil⟩

/-- **A call of `get_pid`.**  It comes to an end. -/
theorem Ok.getPid (h : s.Ok) : ∃ pid l n,
    s.getPid = some (pid, { s with lastPid := l, nextSafe := n }) ∧
    Outcome s.InUse s.lastPid (pid, l, n) := by
  have hpm : pidMax = 32768 := rfl
  have hlast := h.last_lt
  have hinside : ∀ l, 0 < l → l < pidMax → (300 ≤ l ∨ l = s.lastPid + 1) →
      Tried s.InUse s.lastPid l → (s.lastPid < 300 → ¬s.InUse l) →
      ∃ pid l' n, s.inside l = some (pid, { s with lastPid := l', nextSafe := n }) ∧
        Outcome s.InUse s.lastPid (pid, l', n) := by
    intro l hpos hlt hlow htried hboot
    have hleft : left s.lastPid l < 65536 := by
      rw [left]
      split <;> omega
    obtain ⟨⟨pid, l', n⟩, hscan, hout⟩ :=
      repeatScan_spec 65536 hpos hlt le_rfl hlow htried hboot hlast hleft
    refine ⟨pid, l', n, ?_, hout⟩
    rw [inside, hscan]
    rfl
  rw [State.getPid]
  split
  · rename_i hover
    have hfull : s.lastPid + 1 = pidMax := by
      by_contra hne
      rw [overflows_of_lt (by omega)] at hover
      cases hover
    refine hinside 300 (by decide) (by decide) (Or.inl le_rfl) (Or.inr ⟨le_rfl, by omega, ?_, ?_⟩)
      fun hc ↦ by omega
    all_goals exact fun v hv hv' ↦ by omega
  · rename_i hover
    have hlt : s.lastPid + 1 < pidMax :=
      lt_of_le_of_ne hlast fun heq ↦ hover (heq ▸ overflows_pidMax)
    split
    · exact hinside _ (Nat.succ_pos _) hlt (Or.inr rfl) (.succ _ _) fun hc hused ↦
        absurd (h.low hc _ hused.held) (by omega)
    · rename_i hsafe
      refine ⟨_, _, _, rfl, .found (Nat.succ_pos _) (by omega) h.safe_le (fun hused ↦ ?_) ?_
        (Or.inr rfl) (.succ _ _)⟩
      · rcases h.window _ hused (Nat.lt_succ_self _) with hc | hc <;> omega
      · exact fun v hused hv ↦ (h.window v hused (by omega)).resolve_right (by omega)

/-- An event after which the identifiers are among those that were, and which puts none into the
window. -/
theorem Ok.mono (h : s.Ok) (hlast : s'.lastPid = s.lastPid) (hsafe : s'.nextSafe = s.nextSafe)
    (hheld : ∀ v, s'.Held v → v = 0 ∨ s.Held v)
    (hused : ∀ v, s'.InUse v → s.lastPid < v → s.nextSafe ≤ v ∨ s.InUse v) : s'.Ok := by
  refine ⟨by rw [hlast]; exact h.last_lt, by rw [hsafe]; exact h.safe_le, fun v hv ↦ ?_,
    fun v hv hlt ↦ ?_, fun hlow v hv ↦ ?_⟩
  · rcases hheld v hv with rfl | hv
    · decide
    · exact h.held_lt v hv
  · rw [hlast] at hlt ⊢
    rw [hsafe]
    rcases hused v hv hlt with hle | hv
    · exact Or.inl hle
    · exact h.window v hv hlt
  · rw [hlast] at hlow ⊢
    rcases hheld v hv with rfl | hv
    · exact zero_le
    · exact h.low hlow v hv

variable {v u k : ℕ}

theorem Known.held (h : s.Known v) : v = 0 ∨ s.Held v := h.imp_right InUse.held

/-- The identifiers of a new task. -/
theorem known_of_has {pid : ℕ} {pgrp tgid session : Option ℕ}
    (hknown : ∀ v, (pgrp = some v ∨ tgid = some v ∨ session = some v) → s.Known v)
    (hhas : Task.has ⟨pid, pgrp.getD pid, tgid.getD pid, session.getD pid⟩ v) :
    v = pid ∨ s.Known v := by
  have hget : ∀ o : Option ℕ, (∀ u, o = some u → s.Known u) → o.getD pid = v →
      v = pid ∨ s.Known v := by
    intro o ho heq
    cases o with
    | none => exact Or.inl heq.symm
    | some u => exact Or.inr (heq ▸ ho u rfl)
  rcases hhas with hhas | hhas | hhas | hhas
  · exact Or.inl hhas.symm
  · exact hget pgrp (fun u hu ↦ hknown u (Or.inl hu)) hhas
  · exact hget tgid (fun u hu ↦ hknown u (Or.inr (Or.inl hu))) hhas
  · exact hget session (fun u hu ↦ hknown u (Or.inr (Or.inr hu))) hhas

/-- If all the values but the last one are in use, there is no next one. -/
theorem not_next (hb : 300 ≤ s.lastPid)
    (hall : ∀ v, 300 ≤ v → v < pidMax → v ≠ s.lastPid → s.InUse v) (v : ℕ) : ¬ s.Next v := by
  rintro ⟨hlt, hfree, ⟨hgt, -⟩ | ⟨hge, hne, -⟩⟩
  · exact hfree (hall v (by omega) hlt hgt.ne')
  · exact hfree (hall v hge hlt hne.ne)

theorem Next.unique (h : s.Next v) (h' : s.Next u) : v = u := by
  obtain ⟨hv, hfree, htried⟩ := h
  obtain ⟨hu, hfree', htried'⟩ := h'
  -- the one that comes later has been tried after the other one
  rcases htried with htried | htried <;> rcases htried' with htried' | htried' <;> grind

/-- **A fork calls `get_pid`**, with a value to be found.  The window is in order. -/
theorem Ok.fork (h : s.Ok) {pgrp tgid session : Option ℕ}
    (hlegal : s.Legal (.getPid pgrp tgid session)) (hnext : s.Next v)
    (hfork : s.fork pgrp tgid session = .ok s') : s'.Ok := by
  obtain ⟨pid, l, n, hget, hout⟩ := h.getPid
  rw [State.fork, hget] at hfork
  cases hfork
  cases hout with
  | found hpos hlt hn _ hwindow hlow _ =>
    rw [if_neg (by omega)]
    have hpid : pid < pidMax := lt_of_lt_of_le hlt hn
    have hheld : ∀ v, Held ⟨pid, n, s.tasks,
        s.forks ++ [⟨pid, pgrp.getD pid, tgid.getD pid, session.getD pid⟩]⟩ v →
        v = pid ∨ v = 0 ∨ s.Held v := by
      rintro v ⟨p, hp, hhas⟩
      rw [← append_assoc, mem_append, mem_singleton] at hp
      rcases hp with hp | rfl
      · exact Or.inr (Or.inr ⟨p, hp, hhas⟩)
      · exact (known_of_has hlegal hhas).imp_right Known.held
    refine ⟨hpid, hn, fun v hv ↦ ?_, fun v hv hlt' ↦ Or.inl (hwindow v hv hlt'),
      fun hlow' v hv ↦ ?_⟩
    · rcases hheld v hv with rfl | rfl | hv
      · exact hpid
      · decide
      · exact h.held_lt v hv
    · change pid < 300 at hlow'
      have hnext : pid = s.lastPid + 1 := hlow.resolve_left (by omega)
      change v ≤ pid
      rcases hheld v hv with rfl | rfl | hv
      · exact le_rfl
      · exact zero_le
      · have := h.low (by omega) v hv
        omega
  | none hb hn hall =>
    exact absurd hnext (not_next hb hall v)

theorem Ok.perform (h : s.Ok) {event : Event} (hlegal : s.Legal event) (hcareful : Careful s event)
    (hperform : s.perform event = .ok s') : s'.Ok := by
  cases event with
  | getPid pgrp tgid session =>
    obtain ⟨v, hnext⟩ := hcareful
    exact h.fork hlegal hnext hperform
  | link i =>
    cases hperform
    refine h.mono rfl rfl (fun v ⟨p, hp, hhas⟩ ↦ Or.inr ⟨p, ?_, hhas⟩) fun v ⟨p, hp, hhas⟩ hlt ↦ ?_
    · rw [mem_append, mem_append, Option.mem_toList] at hp
      rcases hp with (hp | hp) | hp
      · exact mem_append_left _ hp
      · exact mem_append_right _ (mem_of_getElem? hp)
      · exact mem_append_right _ (mem_of_mem_eraseIdx hp)
    · rcases mem_append.1 hp with hp | hp
      · exact Or.inr ⟨p, hp, hhas⟩
      · exact Or.inl (hcareful p (Option.mem_toList.1 hp) v hhas hlt)
  | fail i =>
    cases hperform
    refine h.mono rfl rfl (fun v ⟨p, hp, hhas⟩ ↦ Or.inr ⟨p, ?_, hhas⟩) fun v hv _ ↦ Or.inr hv
    exact mem_append.2 ((mem_append.1 hp).imp_right mem_of_mem_eraseIdx)
  | exit i =>
    cases hperform
    refine h.mono rfl rfl (fun v ⟨p, hp, hhas⟩ ↦ Or.inr ⟨p, ?_, hhas⟩)
      fun v ⟨p, hp, hhas⟩ _ ↦ Or.inr ⟨p, mem_of_mem_eraseIdx hp, hhas⟩
    exact mem_append.2 ((mem_append.1 hp).imp_left mem_of_mem_eraseIdx)
  | change i pgrp tgid session =>
    cases hperform
    obtain ⟨hpgrp, htgid, hsession⟩ := hlegal
    have hknown : ∀ v, InUse { s with tasks := s.tasks.modify i fun p ↦
        ⟨p.pid, pgrp, tgid, session⟩ } v → s.Known v := by
      rintro v ⟨p, hp, hhas⟩
      obtain ⟨j, hj, hjp⟩ := mem_iff_getElem.1 hp
      rw [getElem_modify] at hjp
      rw [length_modify] at hj
      have hmem : s.tasks[j] ∈ s.tasks := getElem_mem hj
      split at hjp
      · subst hjp
        rcases hhas with hhas | rfl | rfl | rfl
        · exact Or.inr ⟨_, hmem, Or.inl hhas⟩
        · exact hpgrp
        · exact htgid
        · exact hsession
      · subst hjp
        exact Or.inr ⟨_, hmem, hhas⟩
    refine h.mono rfl rfl (fun v ⟨p, hp, hhas⟩ ↦ ?_) fun v hv hlt ↦ ?_
    · rcases mem_append.1 hp with hp | hp
      · exact (hknown v ⟨p, hp, hhas⟩).held
      · exact Or.inr ⟨p, mem_append_right _ hp, hhas⟩
    · exact Or.inr ((hknown v hv).resolve_left (by omega))

theorem ok_of_path (h : machine.Path Careful boot s) : s.Ok := by
  induction h with
  | refl => exact .boot
  | step _ hlegal hcareful hperform ih => exact ih.perform hlegal hcareful hperform

/-- What `get_pid` should return: a value that no task has, linked or not, and 0 only if there is
none. -/
def Unique (pid : ℕ) (s : State) : Prop :=
  (pid ≠ 0 → ¬ s.Held pid) ∧ (pid = 0 → ∀ v, 300 ≤ v → v < pidMax → s.Held v)

/-- The next value is not that of a fork on its way; or there is none, and the last one is used. -/
def Safe (s : State) : Prop :=
  (∃ v, s.Next v ∧ ¬ s.Held v) ∨ (∀ v, ¬ s.Next v) ∧ s.Held s.lastPid

/-- **When the identifiers are unique.**  After a history in which the window has been kept in
order, `get_pid` returns, and what it returns is right exactly in a safe state. -/
theorem pid_unique_iff (h : machine.Path Careful boot s) : ∃ pid s', s.getPid = some (pid, s') ∧
    (Unique pid s ↔ s.Safe) := by
  have hok := ok_of_path h
  obtain ⟨pid, l, n, hget, hout⟩ := hok.getPid
  refine ⟨pid, _, hget, ?_⟩
  cases hout with
  | found hpos hlt hn hfree _ _ htried =>
    have hnext : s.Next pid := ⟨lt_of_lt_of_le hlt hn, hfree, htried⟩
    refine ⟨fun hu ↦ Or.inl ⟨pid, hnext, hu.1 hpos.ne'⟩, fun hcase ↦
      ⟨fun _ ↦ ?_, fun hc ↦ absurd hc hpos.ne'⟩⟩
    rcases hcase with ⟨v, hv, hheld⟩ | ⟨hno, -⟩
    · exact hnext.unique hv ▸ hheld
    · exact absurd hnext (hno pid)
  | none hb hn hall =>
    have hno := not_next hb hall
    refine ⟨fun hu ↦ Or.inr ⟨hno, hu.2 rfl _ hb hok.last_lt⟩, fun hcase ↦
      ⟨fun hc ↦ absurd rfl hc, fun _ v hv hv' ↦ ?_⟩⟩
    rcases hcase with ⟨u, hu, -⟩ | ⟨-, hlast⟩
    · exact absurd hu (hno u)
    · by_cases hvl : v = s.lastPid
      · exact hvl ▸ hlast
      · exact (hall v hv hv' hvl).held

theorem legal_fork (s : State) : s.Legal (.getPid none none none) := by
  rintro v (hv | hv | hv) <;> cases hv

/-- After the first fork, whose task has been linked. -/
theorem pid_unique_iff_one : ∃ s : State, machine.Path Careful boot s ∧ s.InUse 1 ∧
    ∃ pid s', s.getPid = some (pid, s') ∧ (Unique pid s ↔ s.Safe) := by
  have hpath : machine.Path Careful boot ⟨1, pidMax, [⟨1, 1, 1, 1⟩], []⟩ := by
    have hnext : boot.Next 1 := ⟨by decide, fun ⟨_, hp, _⟩ ↦ absurd hp not_mem_nil, .succ _ _⟩
    refine Machine.Path.step (a := .link 0) (Machine.Path.refl.step (a := .getPid none none none)
      (legal_fork _) ⟨1, hnext⟩ rfl) trivial ?_ rfl
    rintro p ⟨⟩ v (rfl | rfl | rfl | rfl) hlt <;> exact absurd hlt (lt_irrefl _)
  exact ⟨_, hpath, ⟨_, mem_singleton_self _, Or.inl rfl⟩, pid_unique_iff hpath⟩

/-! ## When the values have run out

All the values are in use, but one: it is handed out, and its task exits again.  Now `get_pid` goes
through all the other values and gives up. -/

/-- A task that is the leader of its group and session. -/
def leader (v : ℕ) : Task := ⟨v, v, v, v⟩

/-- The tasks with the values from `u` on. -/
def leaders (u k : ℕ) : List Task := (List.range' u k).map leader

theorem leader_has : (leader u).has v ↔ u = v := by
  simp only [Task.has, leader, or_self]

theorem leaders_has : (∃ p ∈ leaders u k, p.has v) ↔ u ≤ v ∧ v < u + k := by
  simp [leaders, leader_has, mem_range'_1]

theorem leaders_concat (u k : ℕ) : leaders u (k + 1) = leaders u k ++ [leader (u + k)] := by
  rw [leaders, range'_1_concat, map_append]
  rfl

theorem leaders_add (u j k : ℕ) : leaders u (j + k) = leaders u j ++ leaders (u + j) k := by
  rw [leaders, leaders, leaders, ← map_append, range'_append_1]

/-- The tasks with all the values but 500. -/
def others : List Task := leaders 1 499 ++ leaders 501 32267

theorem inUse_others {l n : ℕ} :
    InUse ⟨l, n, others, []⟩ v ↔ 0 < v ∧ v < pidMax ∧ v ≠ 500 := by
  have hpm : pidMax = 32768 := rfl
  simp only [InUse, others, mem_append, or_and_right, exists_or, leaders_has]
  omega

theorem getPid_unscanned {tasks : List Task} (hk : k + 1 < pidMax) :
    getPid ⟨k, pidMax, tasks, []⟩ = some (k + 1, ⟨k + 1, pidMax, tasks, []⟩) := by
  rw [getPid, overflows_of_lt hk, if_neg Bool.false_ne_true, if_neg (by exact not_le.2 hk)]

/-- A fork whose task is the leader of its group and session. -/
theorem path_fork {n : ℕ} {tasks : List Task} (h : machine.Path Careful boot s)
    (hnext : s.Next v) (hget : s.getPid = some (v, ⟨v, n, tasks, []⟩)) (hpos : v ≠ 0) :
    machine.Path Careful boot ⟨v, n, tasks ++ [leader v], []⟩ := by
  have hforks : s.fork none none none = .ok ⟨v, n, tasks, [leader v]⟩ := by
    rw [State.fork, hget]
    exact congrArg Except.ok (if_neg hpos)
  have hforked := h.step (a := Event.getPid none none none) (legal_fork s) ⟨v, hnext⟩ hforks
  refine hforked.step (a := Event.link 0) trivial ?_ rfl
  rintro p ⟨⟩ u hhas hlt
  exact absurd hlt (leader_has.1 hhas ▸ lt_irrefl _)

theorem path_exit {l n : ℕ} {before after : List Task} {p : Task}
    (h : machine.Path Careful boot ⟨l, n, before ++ p :: after, []⟩) :
    machine.Path Careful boot ⟨l, n, before ++ after, []⟩ := by
  refine h.step (a := .exit before.length) trivial trivial ?_
  change Except.ok _ = _
  rw [eraseIdx_append_of_length_le le_rfl, Nat.sub_self]
  rfl

/-- After 32767 forks all the values are in use. -/
theorem path_leaders (hk : k < pidMax) :
    machine.Path Careful boot ⟨k, pidMax, leaders 1 k, []⟩ := by
  induction k with
  | zero => exact .refl
  | succ k ih =>
    rw [leaders_concat, add_comm 1 k]
    refine path_fork (ih (by omega)) ⟨hk, fun hc ↦ ?_, .succ _ _⟩ (getPid_unscanned hk)
      (Nat.succ_ne_zero k)
    have := leaders_has.1 hc
    omega

theorem path_exhausted : ∃ n, machine.Path Careful boot ⟨500, n, others, []⟩ := by
  have hfull : machine.Path Careful boot ⟨32767, pidMax, others, []⟩ := by
    have hsplit : leaders 1 32767 = leaders 1 499 ++ leader 500 :: leaders 501 32267 :=
      leaders_add 1 499 32268
    exact path_exit (hsplit ▸ path_leaders (by decide))
  obtain ⟨pid, l, n, hget, hout⟩ := (ok_of_path hfull).getPid
  cases hout with
  | found hpos hlt hn hfree _ _ htried =>
    obtain rfl : pid = 500 := by
      by_contra hne
      exact hfree (inUse_others.2 ⟨hpos, lt_of_lt_of_le hlt hn, hne⟩)
    have hgone := path_exit (path_fork hfull ⟨by decide, hfree, htried⟩ hget (by decide))
    rw [append_nil] at hgone
    exact ⟨n, hgone⟩
  | none _ _ hall =>
    exact absurd (inUse_others.1 (hall 500 (by decide) (by decide) (by decide))).2.2 (by decide)

/-- With 500 free, `get_pid` gives up. -/
theorem pid_given_up : ∃ s s', machine.Reachable s ∧ s.getPid = some (0, s') ∧ ¬ s.Held 500 := by
  obtain ⟨n, hpath⟩ := path_exhausted
  obtain ⟨pid, l, n', hget, hout⟩ := (ok_of_path hpath).getPid
  cases hout with
  | found hpos hlt hn hfree _ _ htried =>
    have hne : pid ≠ 500 := htried.elim (fun h ↦ h.1.ne') fun h ↦ h.2.1.ne
    exact absurd (inUse_others.2 ⟨hpos, lt_of_lt_of_le hlt hn, hne⟩) hfree
  | none _ _ _ =>
    refine ⟨_, _, hpath.reachable (.init rfl), hget, fun ⟨p, hp, hhas⟩ ↦ ?_⟩
    rw [append_nil] at hp
    exact (inUse_others.1 ⟨p, hp, hhas⟩ : _ ∧ _ ∧ _).2.2 rfl

end State
end Linux24.Pid
