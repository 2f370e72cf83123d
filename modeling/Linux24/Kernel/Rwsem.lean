import Linux24.Lib.Machine

/-!
# Read/write semaphores: `lib/rwsem-spinlock.c`

`activity` is the number of readers that have the semaphore, or `-1` for a writer.  Whoever has to
wait puts itself at the end of `wait_list`, and whoever gives the semaphore up hands it over before
it returns: `__up_write` to the writer at the head of the list or to all the readers there, and
`__up_read` to the head of the list, which it takes for a writer without looking.

Each function does its work between `spin_lock` and `spin_unlock`, so that a call is one step; one
that has to wait goes to sleep after its step and returns when its `flags` have been cleared.
`World` has, next to the semaphore, who thinks that it has it: a task that was taken off the list
has it for what it asked for, whatever was made of `activity`.

`rwsem_spec` is about every interleaving of the calls.  What makes the blind hand-over of
`__up_read` right is that a reader is only put on the list if somebody waits already or a writer is
active; so while readers are active, the list begins with a writer.
-/

set_option autoImplicit false

namespace Linux24.Rwsem

open List

/-! ## The code -/

/-- What a waiter waits for: `RWSEM_WAITING_FOR_READ` or `RWSEM_WAITING_FOR_WRITE`. -/
inductive Flags
  | read
  | write
deriving DecidableEq, Repr

/-- `struct rwsem_waiter`, as long as its flags are not zero. -/
structure Waiter where
  task : ℕ
  flags : Flags
deriving DecidableEq, Repr

/-- `struct rw_semaphore`. -/
structure RwSemaphore where
  activity : ℤ
  waitList : List Waiter
deriving DecidableEq, Repr

def initRwsem : RwSemaphore := ⟨0, []⟩

/-- The loop of `__rwsem_do_wake`: the waiters that are woken, from the first one on, and the rest
of the list. -/
def wakeReaders (waiter : Waiter) : List Waiter → List Waiter × List Waiter
  | [] => ([waiter], [])
  | next :: rest =>
    if next.flags = .read then
      let (woken, rest) := wakeReaders next rest
      (waiter :: woken, rest)
    else ([waiter], next :: rest)

/-- `__rwsem_do_wake`, with the list taken apart: who is woken, and the semaphore. -/
def rwsemDoWake (activity : ℤ) (waiter : Waiter) (rest : List Waiter) :
    List Waiter × RwSemaphore :=
  if waiter.flags = .write then ([waiter], ⟨-1, rest⟩)
  else
    let (woken, rest) := wakeReaders waiter rest
    (woken, ⟨activity + woken.length, rest⟩)

def rwsemWakeOneWriter (waiter : Waiter) (rest : List Waiter) : List Waiter × RwSemaphore :=
  ([waiter], ⟨-1, rest⟩)

variable (sem : RwSemaphore)

/-- What `__down_read` and `__down_read_trylock` test. -/
def RwSemaphore.canRead : Prop := 0 ≤ sem.activity ∧ sem.waitList = []

/-- What `__down_write` and `__down_write_trylock` test. -/
def RwSemaphore.canWrite : Prop := sem.activity = 0 ∧ sem.waitList = []

instance : Decidable sem.canRead := inferInstanceAs (Decidable (_ ∧ _))

instance : Decidable sem.canWrite := inferInstanceAs (Decidable (_ ∧ _))

/-- `__down_read` up to where it sleeps: whether the semaphore is granted. -/
def downRead (task : ℕ) : Bool × RwSemaphore :=
  if sem.canRead then (true, { sem with activity := sem.activity + 1 })
  else (false, { sem with waitList := sem.waitList ++ [⟨task, .read⟩] })

def downReadTrylock : Bool × RwSemaphore :=
  if sem.canRead then (true, { sem with activity := sem.activity + 1 }) else (false, sem)

/-- `__down_write` up to where it sleeps: whether the semaphore is granted. -/
def downWrite (task : ℕ) : Bool × RwSemaphore :=
  if sem.canWrite then (true, { sem with activity := -1 })
  else (false, { sem with waitList := sem.waitList ++ [⟨task, .write⟩] })

def downWriteTrylock : Bool × RwSemaphore :=
  if sem.canWrite then (true, { sem with activity := -1 }) else (false, sem)

/-- `__up_read`: who is woken. -/
def upRead : List Waiter × RwSemaphore :=
  let sem := { sem with activity := sem.activity - 1 }
  if sem.activity = 0 then
    match sem.waitList with
    | waiter :: rest => rwsemWakeOneWriter waiter rest
    | [] => ([], sem)
  else ([], sem)

/-- `__up_write`: who is woken. -/
def upWrite : List Waiter × RwSemaphore :=
  match sem.waitList with
  | waiter :: rest => rwsemDoWake 0 waiter rest
  | [] => ([], { sem with activity := 0 })

/-! ## The machine -/

/-- The semaphore and those that have it. -/
structure World where
  sem : RwSemaphore
  /-- The tasks that have it for reading, once for each time. -/
  readers : List ℕ
  /-- The tasks that have it for writing. -/
  writers : List ℕ
  /-- The calls of `__down_read` and `__down_write`, and those of the trylock forms that were
  successful, in the order in which they were made. -/
  arrived : List Waiter
  /-- Those of them that have been granted the semaphore, in the order in which they have. -/
  granted : List Waiter

namespace World

variable (w : World)

/-- The waiter has the semaphore now. -/
def grant (waiter : Waiter) : World :=
  match waiter.flags with
  | .read => { w with readers := w.readers ++ [waiter.task], granted := w.granted ++ [waiter] }
  | .write => { w with writers := w.writers ++ [waiter.task], granted := w.granted ++ [waiter] }

/-- All the waiters have it, one after the other. -/
def grantAll (woken : List Waiter) : World := woken.foldl grant w

/-- A call that is made on behalf of `waiter`, and what it has come to. -/
def arrive (waiter : Waiter) (r : Bool × RwSemaphore) : World :=
  let w := { w with sem := r.2, arrived := w.arrived ++ [waiter] }
  if r.1 then w.grant waiter else w

end World

/-- A call. -/
inductive Call
  | downRead (task : ℕ)
  | downReadTrylock (task : ℕ)
  | downWrite (task : ℕ)
  | downWriteTrylock (task : ℕ)
  | upRead (task : ℕ)
  | upWrite (task : ℕ)

/-- What a call does. -/
def World.exec (w : World) : Call → World
  | .downRead task => w.arrive ⟨task, .read⟩ (downRead w.sem task)
  | .downReadTrylock task =>
    let r := downReadTrylock w.sem
    if r.1 then w.arrive ⟨task, .read⟩ r else { w with sem := r.2 }
  | .downWrite task => w.arrive ⟨task, .write⟩ (downWrite w.sem task)
  | .downWriteTrylock task =>
    let r := downWriteTrylock w.sem
    if r.1 then w.arrive ⟨task, .write⟩ r else { w with sem := r.2 }
  | .upRead task =>
    let (woken, sem) := upRead w.sem
    { w with sem := sem, readers := w.readers.erase task }.grantAll woken
  | .upWrite task =>
    let (woken, sem) := upWrite w.sem
    { w with sem := sem, writers := w.writers.erase task }.grantAll woken

/-- The semaphore is given up only by somebody who has it. -/
def World.Legal (w : World) : Call → Prop
  | .upRead task => task ∈ w.readers
  | .upWrite task => task ∈ w.writers
  | _ => True

/-- A semaphore from `init_rwsem` on. -/
def machine : Machine World Call Empty where
  init w := w = ⟨initRwsem, [], [], [], []⟩
  legal := World.Legal
  exec w call := .ok (w.exec call)

/-! ## What is woken -/

/-- The loop of `__rwsem_do_wake` wakes the readers at the front. -/
theorem wakeReaders_eq (waiter : Waiter) (rest : List Waiter) :
    wakeReaders waiter rest = (waiter :: rest.takeWhile (fun x ↦ x.flags = .read),
      rest.dropWhile (fun x ↦ x.flags = .read)) := by
  induction rest generalizing waiter with
  | nil => rfl
  | cons next rest ih =>
    rw [wakeReaders]
    split
    · rename_i hread
      simp [ih, hread]
    · rename_i hwrite
      simp [hwrite]

variable {rest : List Waiter} {x : Waiter}

variable {sem : RwSemaphore}

theorem upRead_of_last
    (hone : sem.activity = 1) (hlist : sem.waitList = x :: rest) :
    upRead sem = ([x], ⟨-1, rest⟩) := by
  rw [upRead, if_pos (by rw [hone]; rfl)]
  rw [hlist]
  rfl

theorem upRead_of_more (h : sem.activity = 1 → sem.waitList = []) :
    upRead sem = ([], { sem with activity := sem.activity - 1 }) := by
  rw [upRead]
  dsimp only
  split
  · rw [h (by omega)]
  · rfl

theorem upWrite_of_nil (hlist : sem.waitList = []) :
    upWrite sem = ([], { sem with activity := 0 }) := by
  rw [upWrite, hlist]

/-- A writer hands the semaphore over to a writer, -/
theorem upWrite_of_write
    (hlist : sem.waitList = x :: rest) (hx : x.flags = .write) :
    upWrite sem = ([x], ⟨-1, rest⟩) := by
  rw [upWrite, hlist]
  exact if_pos hx

/-- or to all the readers at the front. -/
theorem upWrite_of_read
    (hlist : sem.waitList = x :: rest) (hx : x.flags = .read) :
    upWrite sem = (x :: rest.takeWhile (fun y ↦ y.flags = .read),
      ⟨(x :: rest.takeWhile (fun y ↦ y.flags = .read)).length,
        rest.dropWhile (fun y ↦ y.flags = .read)⟩) := by
  rw [upWrite, hlist]
  dsimp only
  rw [rwsemDoWake, if_neg (by rw [hx]; decide), wakeReaders_eq]
  dsimp only
  rw [zero_add]

namespace World

variable {w : World}

@[simp] theorem grant_sem (w : World) (x : Waiter) : (w.grant x).sem = w.sem := by
  rw [grant]
  split <;> rfl

@[simp] theorem grant_arrived (w : World) (x : Waiter) : (w.grant x).arrived = w.arrived := by
  rw [grant]
  split <;> rfl

@[simp] theorem grant_granted (w : World) (x : Waiter) :
    (w.grant x).granted = w.granted ++ [x] := by
  rw [grant]
  split <;> rfl

/-- What is the same and what is not after `grantAll`. -/
theorem grantAll_granted (woken : List Waiter) (w : World) :
    (w.grantAll woken).sem = w.sem ∧ (w.grantAll woken).arrived = w.arrived ∧
      (w.grantAll woken).granted = w.granted ++ woken := by
  induction woken generalizing w with
  | nil => exact ⟨rfl, rfl, (append_nil _).symm⟩
  | cons x woken ih =>
    obtain ⟨hsem, harr, hgr⟩ := ih (w.grant x)
    refine ⟨hsem.trans (w.grant_sem x), harr.trans (w.grant_arrived x), hgr.trans ?_⟩
    rw [grant_granted, append_assoc]
    rfl

/-- Readers that are granted the semaphore are added to the readers. -/
theorem grantAll_of_read (woken : List Waiter) (hread : ∀ x ∈ woken, x.flags = .read) (w : World) :
    (w.grantAll woken).readers = w.readers ++ woken.map Waiter.task ∧
      (w.grantAll woken).writers = w.writers := by
  induction woken generalizing w with
  | nil => exact ⟨(append_nil _).symm, rfl⟩
  | cons x woken ih =>
    obtain ⟨hx, hrest⟩ := forall_mem_cons.1 hread
    obtain ⟨hr, hw⟩ := ih hrest (w.grant x)
    have hgrant : w.grant x =
        { w with readers := w.readers ++ [x.task], granted := w.granted ++ [x] } := by
      rw [grant, hx]
    rw [hgrant] at hr hw
    refine ⟨?_, ?_⟩
    · rw [grantAll, foldl_cons, hgrant]
      exact hr.trans (append_assoc _ _ _)
    · rw [grantAll, foldl_cons, hgrant]
      exact hw

/-! ## The invariant -/

/-- What always holds of a semaphore and those that have it. -/
structure Ok (w : World) : Prop where
  /-- `activity` is `-1` for a writer, and else the number of readers. -/
  active : (w.sem.activity = -1 ∧ w.writers.length = 1 ∧ w.readers = []) ∨
    (w.sem.activity = w.readers.length ∧ w.writers = [])
  /-- Nobody waits for a semaphore that is free. -/
  busy : w.sem.activity = 0 → w.sem.waitList = []
  /-- The readers that are active are followed by a writer. -/
  writerFirst : 0 < w.sem.activity → ∀ x, w.sem.waitList.head? = some x → x.flags = .write
  /-- The semaphore is granted in the order of the calls. -/
  fifo : w.granted ++ w.sem.waitList = w.arrived

theorem Ok.init : Ok ⟨initRwsem, [], [], [], []⟩ :=
  ⟨Or.inr ⟨rfl, rfl⟩, fun _ ↦ rfl, fun h ↦ absurd h (lt_irrefl 0), rfl⟩

theorem Ok.active_nonneg (h : w.Ok) (hnonneg : 0 ≤ w.sem.activity) :
    w.sem.activity = w.readers.length ∧ w.writers = [] := by
  rcases h.active with ⟨hact, -⟩ | hact
  · omega
  · exact hact

/-- A call that puts its caller at the end of the list. -/
theorem Ok.wait (h : w.Ok) (x : Waiter) (hbusy : w.sem.activity ≠ 0)
    (hfirst : 0 < w.sem.activity → w.sem.waitList = [] → x.flags = .write) :
    Ok (w.arrive x (false, { w.sem with waitList := w.sem.waitList ++ [x] })) := by
  refine ⟨h.active, fun hzero ↦ absurd hzero hbusy, fun hpos y hy ↦ ?_, ?_⟩
  · change (w.sem.waitList ++ [x]).head? = some y at hy
    cases hlist : w.sem.waitList with
    | nil =>
      rw [hlist] at hy
      cases hy
      exact hfirst hpos hlist
    | cons z rest =>
      refine h.writerFirst hpos y ?_
      rw [hlist] at hy ⊢
      exact hy
  · change w.granted ++ (w.sem.waitList ++ [x]) = w.arrived ++ [x]
    rw [← append_assoc, h.fifo]

/-- A call that is granted at once. -/
theorem Ok.fifo_granted (h : w.Ok) (hlist : w.sem.waitList = []) (x : Waiter) :
    w.granted ++ [x] ++ w.sem.waitList = w.arrived ++ [x] := by
  have hfifo := h.fifo
  rw [hlist, append_nil] at hfifo ⊢
  rw [hfifo]

theorem Ok.enterRead (h : w.Ok) (hcan : w.sem.canRead) (task : ℕ) :
    Ok (w.arrive ⟨task, .read⟩ (true, { w.sem with activity := w.sem.activity + 1 })) := by
  obtain ⟨hnonneg, hlist⟩ := hcan
  obtain ⟨hact, hwriters⟩ := h.active_nonneg hnonneg
  refine ⟨Or.inr ⟨?_, hwriters⟩, fun _ ↦ hlist, fun _ x hx ↦ ?_, ?_⟩
  · change w.sem.activity + 1 = ((w.readers ++ [task]).length : ℤ)
    rw [length_append, hact]
    rfl
  · change w.sem.waitList.head? = some x at hx
    rw [hlist] at hx
    cases hx
  · exact h.fifo_granted hlist _

theorem Ok.enterWrite (h : w.Ok) (hcan : w.sem.canWrite) (task : ℕ) :
    Ok (w.arrive ⟨task, .write⟩ (true, { w.sem with activity := -1 })) := by
  obtain ⟨hzero, hlist⟩ := hcan
  obtain ⟨hact, hwriters⟩ := h.active_nonneg hzero.ge
  have hreaders : w.readers = [] := eq_nil_of_length_eq_zero (by omega)
  refine ⟨Or.inl ⟨rfl, ?_, hreaders⟩, fun hc ↦ ?_, fun hc ↦ ?_, ?_⟩
  · change (w.writers ++ [task]).length = 1
    rw [hwriters]
    rfl
  · cases hc
  · cases hc
  · exact h.fifo_granted hlist _

theorem Ok.downRead (h : w.Ok) (task : ℕ) :
    Ok (w.arrive ⟨task, .read⟩ (Rwsem.downRead w.sem task)) := by
  rw [Rwsem.downRead]
  split
  · rename_i hcan
    exact h.enterRead hcan task
  · rename_i hcan
    have hwait : 0 ≤ w.sem.activity → w.sem.waitList ≠ [] := fun hn hl ↦ hcan ⟨hn, hl⟩
    exact h.wait _ (fun hzero ↦ hwait hzero.ge (h.busy hzero)) fun hpos hl ↦
      absurd hl (hwait hpos.le)

theorem Ok.downWrite (h : w.Ok) (task : ℕ) :
    Ok (w.arrive ⟨task, .write⟩ (Rwsem.downWrite w.sem task)) := by
  rw [Rwsem.downWrite]
  split
  · rename_i hcan
    exact h.enterWrite hcan task
  · rename_i hcan
    exact h.wait _ (fun hzero ↦ hcan ⟨hzero, h.busy hzero⟩) fun _ _ ↦ rfl

/-- A writer at the head of the list gets a semaphore that nobody has any more. -/
theorem ok_handToWriter {x : Waiter} {rest : List Waiter} (hx : x.flags = .write)
    (hsem : w.sem = ⟨-1, rest⟩) (hreaders : w.readers = []) (hwriters : w.writers = [])
    (hfifo : w.granted ++ x :: rest = w.arrived) : Ok (w.grantAll [x]) := by
  have hgrant : w.grantAll [x] =
      { w with writers := w.writers ++ [x.task], granted := w.granted ++ [x] } := by
    rw [grantAll, foldl_cons, foldl_nil, grant, hx]
  rw [hgrant]
  refine ⟨Or.inl ⟨congrArg RwSemaphore.activity hsem, ?_, hreaders⟩, fun hc ↦ ?_, fun hc ↦ ?_, ?_⟩
  · rw [hwriters]
    rfl
  · rw [hsem] at hc
    cases hc
  · rw [hsem] at hc
    cases hc
  · rw [hsem, append_assoc]
    exact hfifo

/-- All the readers at the head of the list get a semaphore that nobody has any more. -/
theorem ok_handToReaders {x : Waiter} {rest : List Waiter} (hx : x.flags = .read)
    (hsem : w.sem = ⟨(x :: rest.takeWhile (fun y ↦ y.flags = .read)).length,
      rest.dropWhile (fun y ↦ y.flags = .read)⟩)
    (hreaders : w.readers = []) (hwriters : w.writers = [])
    (hfifo : w.granted ++ x :: rest = w.arrived) :
    Ok (w.grantAll (x :: rest.takeWhile (fun y ↦ y.flags = .read))) := by
  set woken := x :: rest.takeWhile (fun y ↦ y.flags = .read) with hwoken
  have hall : ∀ y ∈ woken, y.flags = .read := by
    refine forall_mem_cons.2 ⟨hx, fun y hy ↦ ?_⟩
    simpa using mem_takeWhile_imp hy
  obtain ⟨hsem', harr, hgr⟩ := grantAll_granted woken w
  obtain ⟨hr, hw⟩ := grantAll_of_read woken hall w
  rw [hsem] at hsem'
  refine ⟨Or.inr ⟨?_, hw.trans hwriters⟩, fun hzero ↦ ?_, fun _ y hy ↦ ?_, ?_⟩
  · rw [hsem', hr, hreaders, nil_append, length_map]
  · rw [hsem'] at hzero
    change ((rest.takeWhile _).length + 1 : ℤ) = 0 at hzero
    omega
  · rw [hsem'] at hy
    have hne := head?_dropWhile_not (fun y : Waiter ↦ decide (y.flags = .read)) rest
    rw [hy] at hne
    cases hflags : y.flags with
    | write => rfl
    | read => simp [hflags] at hne
  · rw [hsem', harr, hgr, ← hfifo, append_assoc, cons_append,
      takeWhile_append_dropWhile]

theorem Ok.upRead (h : w.Ok) {task : ℕ} (htask : task ∈ w.readers) :
    Ok (w.exec (.upRead task)) := by
  have hpos := length_pos_of_mem htask
  obtain ⟨hact, hwriters⟩ : w.sem.activity = w.readers.length ∧ w.writers = [] := by
    rcases h.active with ⟨-, -, hnil⟩ | hact
    · rw [hnil] at htask
      cases htask
    · exact hact
  have hlen := length_erase_of_mem htask
  rw [exec]
  by_cases hlast : w.sem.activity = 1 ∧ w.sem.waitList ≠ []
  · obtain ⟨hone, hne⟩ := hlast
    obtain ⟨x, rest, hlist⟩ := exists_cons_of_ne_nil hne
    have hfirst : x.flags = .write := h.writerFirst (by omega) x (by rw [hlist]; rfl)
    rw [upRead_of_last hone hlist]
    have hnil : w.readers.erase task = [] := eq_nil_of_length_eq_zero (by omega)
    exact ok_handToWriter hfirst rfl hnil hwriters (hlist ▸ h.fifo)
  · have hmore : w.sem.activity = 1 → w.sem.waitList = [] :=
      fun hone ↦ not_not.1 fun hne ↦ hlast ⟨hone, hne⟩
    rw [upRead_of_more hmore]
    refine ⟨Or.inr ⟨?_, hwriters⟩, fun hzero ↦ ?_, fun hpos' x hx ↦ ?_, h.fifo⟩
    · change w.sem.activity - 1 = ((w.readers.erase task).length : ℤ)
      omega
    · change w.sem.activity - 1 = 0 at hzero
      exact hmore (by omega)
    · exact h.writerFirst (by omega) x hx

theorem Ok.upWrite (h : w.Ok) {task : ℕ} (htask : task ∈ w.writers) :
    Ok (w.exec (.upWrite task)) := by
  obtain ⟨hlen, hreaders⟩ : w.writers.length = 1 ∧ w.readers = [] := by
    rcases h.active with ⟨-, hact⟩ | ⟨-, hnil⟩
    · exact hact
    · rw [hnil] at htask
      cases htask
  have herase : w.writers.erase task = [] := by
    have := length_erase_of_mem htask
    exact eq_nil_of_length_eq_zero (by omega)
  rw [exec]
  cases hlist : w.sem.waitList with
  | nil =>
    rw [upWrite_of_nil hlist]
    refine ⟨Or.inr ⟨?_, herase⟩, fun _ ↦ hlist, fun hc ↦ absurd hc (lt_irrefl 0), h.fifo⟩
    rw [hreaders]
    rfl
  | cons x rest =>
    have hfifo := h.fifo
    rw [hlist] at hfifo
    cases hx : x.flags with
    | write =>
      rw [upWrite_of_write hlist hx]
      exact ok_handToWriter hx rfl hreaders herase hfifo
    | read =>
      rw [upWrite_of_read hlist hx]
      exact ok_handToReaders hx rfl hreaders herase hfifo

/-- **Every call keeps the invariant.** -/
theorem Ok.exec (h : w.Ok) {call : Call} (hlegal : w.Legal call) : Ok (w.exec call) := by
  cases call with
  | downRead task => exact h.downRead task
  | downWrite task => exact h.downWrite task
  | upRead task => exact h.upRead hlegal
  | upWrite task => exact h.upWrite hlegal
  | downReadTrylock task =>
    rw [World.exec, Rwsem.downReadTrylock]
    by_cases hcan : w.sem.canRead
    · rw [if_pos hcan]
      exact h.enterRead hcan task
    · rw [if_neg hcan]
      exact ⟨h.active, h.busy, h.writerFirst, h.fifo⟩
  | downWriteTrylock task =>
    rw [World.exec, Rwsem.downWriteTrylock]
    by_cases hcan : w.sem.canWrite
    · rw [if_pos hcan]
      exact h.enterWrite hcan task
    · rw [if_neg hcan]
      exact ⟨h.active, h.busy, h.writerFirst, h.fifo⟩

theorem ok_of_reachable (h : machine.Reachable w) : w.Ok := by
  refine h.invariant (fun s hs ↦ ?_) fun s call t hs hlegal hexec ↦ ?_
  · rw [show s = _ from hs]
    exact .init
  · cases hexec
    exact hs.exec hlegal

/-! ## What a call grants -/

theorem arrive_granted (w : World) (x : Waiter) (r : Bool × RwSemaphore) :
    (w.arrive x r).granted = w.granted ++ if r.1 then [x] else [] := by
  rw [arrive]
  split
  · exact grant_granted _ _
  · exact (append_nil _).symm

theorem upRead_length_le (sem : RwSemaphore) : (Rwsem.upRead sem).1.length ≤ 1 := by
  rw [upRead]
  split
  · split
    · exact le_rfl
    · exact zero_le
  · exact zero_le

theorem upWrite_batch (sem : RwSemaphore) :
    (Rwsem.upWrite sem).1.length ≤ 1 ∨ ∀ x ∈ (Rwsem.upWrite sem).1, x.flags = .read := by
  cases hlist : sem.waitList with
  | nil =>
    rw [upWrite_of_nil hlist]
    exact Or.inl zero_le
  | cons x rest =>
    cases hx : x.flags with
    | write =>
      rw [upWrite_of_write hlist hx]
      exact Or.inl le_rfl
    | read =>
      rw [upWrite_of_read hlist hx]
      refine Or.inr (forall_mem_cons.2 ⟨hx, fun y hy ↦ ?_⟩)
      simpa using mem_takeWhile_imp hy

/-- More than one request is granted at a time only if they are all for reading. -/
theorem exec_granted (w : World) (call : Call) : ∃ batch,
    (w.exec call).granted = w.granted ++ batch ∧
    (batch.length ≤ 1 ∨ ∀ x ∈ batch, x.flags = .read) := by
  have hone : ∀ (b : Bool) (x : Waiter), (if b then [x] else []).length ≤ 1 := by
    intro b x
    cases b <;> simp
  cases call with
  | downRead task | downWrite task => exact ⟨_, arrive_granted _ _ _, Or.inl (hone _ _)⟩
  | downReadTrylock task =>
    rw [exec]
    split
    · exact ⟨_, arrive_granted _ _ _, Or.inl (hone _ _)⟩
    · exact ⟨[], (append_nil _).symm, Or.inl zero_le⟩
  | downWriteTrylock task =>
    rw [exec]
    split
    · exact ⟨_, arrive_granted _ _ _, Or.inl (hone _ _)⟩
    · exact ⟨[], (append_nil _).symm, Or.inl zero_le⟩
  | upRead task => exact ⟨_, (grantAll_granted _ _).2.2, Or.inl (upRead_length_le w.sem)⟩
  | upWrite task => exact ⟨_, (grantAll_granted _ _).2.2, upWrite_batch w.sem⟩

/-- **The semaphore works.**  `activity` says who has it; it is never free while somebody waits;
when readers have it, the first one that waits is a writer; and it is granted in the order in which
it was asked for, several requests at a time only if they are all for reading. -/
theorem rwsem_spec (h : machine.Reachable w) :
    (w.sem.activity = -1 ↔ w.writers.length = 1 ∧ w.readers = []) ∧
    (w.sem.activity ≠ -1 → w.writers = [] ∧ w.sem.activity = w.readers.length) ∧
    (w.sem.activity = 0 → w.sem.waitList = []) ∧
    (0 < w.sem.activity → ∀ x, w.sem.waitList.head? = some x → x.flags = .write) ∧
    w.granted ++ w.sem.waitList = w.arrived ∧
    ∀ call, w.Legal call → ∃ batch, (w.exec call).granted = w.granted ++ batch ∧
      (batch.length ≤ 1 ∨ ∀ x ∈ batch, x.flags = .read) := by
  have hok := ok_of_reachable h
  refine ⟨⟨fun hact ↦ ?_, fun hact ↦ ?_⟩, fun hact ↦ ?_, hok.busy, hok.writerFirst, hok.fifo,
    fun call _ ↦ exec_granted w call⟩
  · rcases hok.active with ⟨-, hone⟩ | ⟨hlen, -⟩
    · exact hone
    · omega
  · rcases hok.active with ⟨hminus, -⟩ | ⟨-, hnil⟩
    · exact hminus
    · rw [hnil] at hact
      cases hact.1
  · rcases hok.active with ⟨hminus, -⟩ | ⟨hlen, hnil⟩
    · exact absurd hminus hact
    · exact ⟨hnil, hlen⟩

/-- A reader, a writer that waits for it, and a reader that waits behind the writer; then the first
reader goes. -/
theorem rwsem_spec_handedOver : ∃ w, machine.Reachable w ∧ w.sem.activity = -1 ∧ w.writers = [2] ∧
    w.sem.waitList = [⟨3, .read⟩] ∧ (w.writers.length = 1 ∧ w.readers = []) := by
  have hstart : machine.Reachable ⟨initRwsem, [], [], [], []⟩ := .init rfl
  have hwait := ((hstart.step (a := .downRead 1) (by exact trivial) rfl).step (a := .downWrite 2)
    (by exact trivial) rfl).step (a := .downRead 3) (by exact trivial) rfl
  have hw := hwait.step (a := .upRead 1) (mem_singleton_self 1) rfl
  exact ⟨_, hw, rfl, rfl, rfl, (rwsem_spec hw).1.1 rfl⟩

end World
end Linux24.Rwsem
