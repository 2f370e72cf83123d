import Linux24.Lib.Machine
import Linux24.Lib.Word

/-!
# The timer wheel of `kernel/timer.c`

A timer that is due within 256 ticks sits in one of the 256 lists of `tv1`, the one given by the low
eight bits of its `expires`.  A timer that is due later sits in one of the 64 lists of `tv2` to
`tv5`, the one given by the next six bits, and so on; when the clock reaches the range of such a
list, `cascade_timers` moves its timers one or more levels down.

This file is the code.  A list is a `Slot`: list `i` of `tvecs[n]`, or the list `queued` that
`run_timer_list` collects timers in while it is running handlers.  `run_timer_list` drops
`timerlist_lock` around every handler, so it is not one step: a `Pc` says where it is, and
`add_timer`, `mod_timer` and `del_timer` can come in whenever the lock is free — from the handler,
from an interrupt or from another processor, which the code does not distinguish.

The last section adds what the code does not have, a record of what happened: the number of
iterations of the outer loop so far, and the iterations in which each timer was started.
-/

set_option autoImplicit false

namespace Linux24.Timer

open Function

/-- The lists a timer can be on. -/
inductive Slot
  /-- List `i` of `tvecs[n]`; `tvecs[0]` is `tv1`. -/
  | tv (n i : ℕ)
  /-- The list `queued` of `run_timer_list`. -/
  | queued
deriving DecidableEq, Repr

/-- Where `run_timer_list` is. -/
inductive Pc
  /-- Not running. -/
  | idle
  /-- At the condition of the outer loop, with `timerlist_lock` held. -/
  | loop
  /-- At the label `repeat`, with `timerlist_lock` held. -/
  | again
  /-- In a handler, with `timerlist_lock` free. -/
  | handler
deriving DecidableEq, Repr

/-- The timers and the wheel. -/
structure State where
  expires : ℕ → ℕ
  /-- `timer->list.next != NULL`. -/
  pending : ℕ → Bool
  /-- The lists, first entry first. -/
  vec : Slot → List ℕ
  /-- `tvecs[n]->index`. -/
  index : ℕ → ℕ
  timerJiffies : ℕ
  jiffies : ℕ
  /-- `run_timer_list_running != NULL`. -/
  running : Bool
  /-- Where `run_timer_list` is. -/
  pc : Pc

def noofTvecs : ℕ := 5

/-- `TVR_SIZE` and `TVN_SIZE`. -/
def tvSize (n : ℕ) : ℕ := if n = 0 then 256 else 64

namespace State

/-- `list_add(&timer->list, vec->prev)`: at the end of the list. -/
def listAdd (s : State) (l : Slot) (t : ℕ) : State :=
  { s with
    vec := update s.vec l (s.vec l ++ [t])
    pending := update s.pending t true }

/-- `list_del(&timer->list)`: the node does not say which list it is on. -/
def listDel (s : State) (t : ℕ) : State :=
  { s with
    vec := fun l ↦ (s.vec l).erase t
    pending := update s.pending t false }

def internalAddTimer (s : State) (t : ℕ) : State :=
  let expires := s.expires t
  let idx := sub32 expires s.timerJiffies
  if s.running then s.listAdd .queued t
  else if idx < 256 then s.listAdd (.tv 0 (expires % 256)) t
  else if idx < 2 ^ 14 then s.listAdd (.tv 1 (expires / 2 ^ 8 % 64)) t
  else if idx < 2 ^ 20 then s.listAdd (.tv 2 (expires / 2 ^ 14 % 64)) t
  else if idx < 2 ^ 26 then s.listAdd (.tv 3 (expires / 2 ^ 20 % 64)) t
  -- `(signed long) idx < 0`
  else if 2 ^ 31 ≤ idx then s.listAdd (.tv 0 (s.index 0)) t
  else if idx ≤ 4294967295 then s.listAdd (.tv 4 (expires / 2 ^ 26 % 64)) t
  -- `INIT_LIST_HEAD(&timer->list)`, on machines with a wider `jiffies`
  else { s with pending := update s.pending t true }

def detachTimer (s : State) (t : ℕ) : State := if s.pending t then s.listDel t else s

/-- `timer->expires = e` in the caller, and then `add_timer`, which leaves a pending timer where it
is. -/
def addTimer (s : State) (t e : ℕ) : State :=
  let s := { s with expires := update s.expires t e }
  if s.pending t then s else s.internalAddTimer t

def modTimer (s : State) (t e : ℕ) : State :=
  ({ s with expires := update s.expires t e }.detachTimer t).internalAddTimer t

def delTimer (s : State) (t : ℕ) : State :=
  let s := s.detachTimer t
  { s with pending := update s.pending t false }

/-- `cascade_timers(tvecs[n])`. -/
def cascadeTimers (s : State) (n : ℕ) : State :=
  let head : Slot := .tv n (s.index n)
  let s' := (s.vec head).foldl (fun s t ↦ (s.listDel t).internalAddTimer t) s
  { s' with
    vec := update s'.vec head []
    index := update s'.index n ((s'.index n + 1) % 64) }

/-- The `do … while` loop around `cascade_timers`, with `left` levels above `n` to go. -/
def cascadeLoop : (left n : ℕ) → State → State
  | 0, n, s => s.cascadeTimers n
  | left + 1, n, s =>
    let s' := s.cascadeTimers n
    if s'.index n = 1 then cascadeLoop left (n + 1) s' else s'

/-- The start of an iteration of `run_timer_list`, down to the label `repeat`. -/
def startIteration (s : State) : State :=
  let s' := if s.index 0 = 0 then cascadeLoop (noofTvecs - 2) 1 s else s
  { s' with running := true, pc := .again }

/-- The end of an iteration: the clock advances, and the timers that came in meanwhile are added. -/
def endIteration (s : State) : State :=
  let s' : State := { s with
    running := false
    timerJiffies := add32 s.timerJiffies 1
    index := update s.index 0 ((s.index 0 + 1) % 256)
    vec := update s.vec .queued []
    pc := .loop }
  (s.vec .queued).foldl internalAddTimer s'

/-- Taking the timer off its list, before its handler is called. -/
def startTimer (s : State) (t : ℕ) : State :=
  let s' := s.detachTimer t
  { s' with pending := update s'.pending t false, pc := .handler }

/-- `(long)(jiffies - timer_jiffies) >= 0`. -/
def due (s : State) : Bool := decide (sub32 s.jiffies s.timerJiffies < 2 ^ 31)

/-- What `init_timervecs` and the zeroed static data leave behind. -/
def initTimervecs : State :=
  ⟨fun _ ↦ 0, fun _ ↦ false, fun _ ↦ [], fun _ ↦ 0, 0, 0, false, .idle⟩

end State

/-! ## Runs -/

/-- The wheel with a record of what has happened. -/
structure World where
  /-- The wheel. -/
  st : State
  /-- How many iterations of `run_timer_list` have been completed. -/
  iter : ℕ
  /-- The iterations in which the handler of the timer was called, latest first. -/
  starts : ℕ → List ℕ

/-- What can happen next. -/
inductive Call
  /-- `timer->expires = e; add_timer(timer)`. -/
  | addTimer (t e : ℕ)
  /-- `mod_timer(timer, e)`. -/
  | modTimer (t e : ℕ)
  /-- `del_timer(timer)`. -/
  | delTimer (t : ℕ)
  /-- `jiffies` advances. -/
  | tick (n : ℕ)
  /-- `run_timer_list` is called. -/
  | runTimerList
  /-- `run_timer_list` goes on, or a handler returns to it. -/
  | proceed
deriving DecidableEq, Repr

/-- A timer can be touched while `timerlist_lock` is free; `run_timer_list` is never entered twice;
and `expires` is an `unsigned long`.  The `expires` of a pending timer is changed by `mod_timer`
only, as `include/linux/timer.h` has it. -/
def Legal (w : World) : Call → Prop
  | .addTimer t e => (w.st.pc = .idle ∨ w.st.pc = .handler) ∧ e < 4294967296 ∧
    (w.st.pending t → e = w.st.expires t)
  | .modTimer _ e => (w.st.pc = .idle ∨ w.st.pc = .handler) ∧ e < 4294967296
  | .delTimer _ => w.st.pc = .idle ∨ w.st.pc = .handler
  | .tick _ => True
  | .runTimerList => w.st.pc = .idle
  | .proceed => w.st.pc ≠ .idle

instance (w : World) (a : Call) : Decidable (Legal w a) := by
  cases a <;> dsimp only [Legal] <;> infer_instance

/-- `run_timer_list`, from one point where it can be interrupted to the next. -/
def proceed (w : World) : World :=
  match w.st.pc with
  | .idle => w
  | .loop =>
    if w.st.due then { w with st := w.st.startIteration }
    else { w with st := { w.st with pc := .idle } }
  | .again =>
    match w.st.vec (.tv 0 (w.st.index 0)) with
    | t :: _ =>
      { w with
        st := w.st.startTimer t
        starts := update w.starts t (w.iter :: w.starts t) }
    | [] => { w with st := w.st.endIteration, iter := w.iter + 1 }
  | .handler => { w with st := { w.st with pc := .again } }

/-- The effect of a call; nothing here can fault. -/
def exec (w : World) : Call → Except Empty World
  | .addTimer t e => .ok { w with st := w.st.addTimer t e }
  | .modTimer t e => .ok { w with st := w.st.modTimer t e }
  | .delTimer t => .ok { w with st := w.st.delTimer t }
  | .tick n => .ok { w with st := { w.st with jiffies := add32 w.st.jiffies n } }
  | .runTimerList => .ok { w with st := { w.st with pc := .loop } }
  | .proceed => .ok (proceed w)

/-- The wheel as the kernel starts it. -/
def initial : World := ⟨.initTimervecs, 0, fun _ ↦ []⟩

/-- The timer wheel and its users. -/
def machine : Machine World Call Empty where
  init w := w = initial
  legal := Legal
  exec := exec

instance (w : World) (a : Call) : Decidable (machine.legal w a) :=
  inferInstanceAs (Decidable (Legal w a))

end Linux24.Timer
