import Linux24.Lib.Circular

/-!
# Pipes: `fs/pipe.c`

The bytes of a pipe are in one page, which is used as a circular buffer: `PIPE_LEN` of them, from
`PIPE_START` on.  `pipe_read` and `pipe_write` copy in chunks that do not go beyond the end of the
page, with the pipe's semaphore held, and let go of it only to sleep in `pipe_wait`.  So a call is a
sequence of *stretches*, from its beginning or from where it has been woken up to where it sleeps or
returns, and each of them is a function here: what it leaves of the pipe, the bytes that it has
taken out or put in, and how it ends.

What a caller can do to a stretch is to have no memory where the bytes are to be copied from or to,
at any chunk (`faults`), and to have a signal pending.  A copy into the pipe that fails may leave
anything in the place where the bytes were to go.
-/

set_option autoImplicit false

namespace Linux24.Pipe

open Circular List

/-! ## The code -/

/-- A byte. -/
abbrev Byte := BitVec 8

/-- `PIPE_SIZE`, the size of a page. -/
def pipeSize : ℕ := 4096

/-- `PIPE_BUF`: writes of up to so many bytes are atomic. -/
def pipeBuf : ℕ := 4096

def EAGAIN : ℤ := 11
def EFAULT : ℤ := 14
def ESPIPE : ℤ := 29
def EPIPE : ℤ := 32
def ERESTARTSYS : ℤ := 512

/-- `struct pipe_inode_info`. -/
structure PipeInfo where
  base : ℕ → Byte
  len : ℕ
  start : ℕ
  readers : ℕ
  writers : ℕ
  waitingReaders : BitVec 32
  waitingWriters : BitVec 32

/-- What is never reached: the `BUG()` of `pipe_read`, and a loop that does not end. -/
inductive Fault
  | bug
  | endless
deriving DecidableEq, Repr

namespace PipeInfo

variable (p : PipeInfo)

/-- `PIPE_FREE`. -/
def free : ℕ := pipeSize - p.len

def pipeEnd : ℕ := (p.start + p.len) &&& (pipeSize - 1)

/-- `PIPE_MAX_RCHUNK`. -/
def maxRchunk : ℕ := pipeSize - p.start

/-- `PIPE_MAX_WCHUNK`. -/
def maxWchunk : ℕ := pipeSize - p.pipeEnd

/-- The bytes from `PIPE_START` on, as `copy_to_user` copies them. -/
def bytes (chars : ℕ) : List Byte := (List.range chars).map fun i ↦ p.base (p.start + i)

/-- What has been copied to the reader is taken out. -/
def consume (chars : ℕ) : PipeInfo :=
  { p with start := (p.start + chars) &&& (pipeSize - 1), len := p.len - chars }

/-- The bytes are copied behind those that are there. -/
def copyIn (l : List Byte) : PipeInfo := { p with base := store p.base p.pipeEnd l }

end PipeInfo

/-- What a call returns: the number of bytes, if there are any. -/
def out (l : List Byte) (ret : ℤ) : ℤ := if l.length ≠ 0 then l.length else ret

/-! ### Reading -/

/-- A call of `pipe_read` that is asleep: `O_NONBLOCK`, `count`, and the bytes it has got. -/
structure ReadCall where
  nonblock : Bool
  count : ℕ
  got : List Byte

/-- How a stretch of `pipe_read` ends. -/
inductive ReadResult
  | returned (got : List Byte) (ret : ℤ)
  | asleep (call : ReadCall)

/-- The loop of `pipe_read` that copies: whether a copy has failed, the pipe, `count`, and what has
been copied. -/
def readLoop : (fuel : ℕ) → (faults : ℕ → Bool) → PipeInfo → ℕ →
    Option (Bool × PipeInfo × ℕ × List Byte)
  | 0, _, p, count => if 0 < count ∧ p.len ≠ 0 then none else some (false, p, count, [])
  | fuel + 1, faults, p, count =>
    if 0 < count ∧ p.len ≠ 0 then
      let chars := min (min p.maxRchunk count) p.len
      if faults 0 then some (true, p, count, [])
      else
        match readLoop fuel (fun k ↦ faults (k + 1)) (p.consume chars) (count - chars) with
        | none => none
        | some (fault, p', count', taken) => some (fault, p', count', p.bytes chars ++ taken)
    else some (false, p, count, [])

/-- `pipe_read` from the label `do_more_read` on: it returns, or it sleeps. -/
def doMoreRead (p : PipeInfo) (call : ReadCall) : PipeInfo × ReadResult :=
  if p.writers = 0 then (p, .returned call.got (out call.got 0))
  else if call.nonblock then (p, .returned call.got (out call.got (-EAGAIN)))
  else ({ p with waitingReaders := p.waitingReaders + 1 }, .asleep call)

/-- `pipe_read` from where there is something to be read on. -/
def readData (faults : ℕ → Bool) (p : PipeInfo) (call : ReadCall) :
    Except Fault (PipeInfo × List Byte × ReadResult) :=
  match readLoop call.count faults p call.count with
  | none => .error .endless
  | some (true, p, _, taken) =>
    .ok (p, taken, .returned (call.got ++ taken) (out (call.got ++ taken) (-EFAULT)))
  | some (false, p, count, taken) =>
    let call := { call with count := count, got := call.got ++ taken }
    let p := if p.len = 0 then { p with start := 0 } else p
    if count ≠ 0 ∧ p.waitingWriters ≠ 0 ∧ call.nonblock = false then
      if p.len ≠ 0 then .error .bug
      else .ok ((doMoreRead p call).1, taken, (doMoreRead p call).2)
    else .ok (p, taken, .returned call.got call.got.length)

/-- `pipe_read` up to where it sleeps or returns. `pread` is the call with another offset than that
of the file, and `interrupted` is what `down_interruptible` returns. -/
def pipeRead (pread interrupted nonblock : Bool) (count : ℕ) (faults : ℕ → Bool) (p : PipeInfo) :
    Except Fault (PipeInfo × List Byte × ReadResult) :=
  if pread then .ok (p, [], .returned [] (-ESPIPE))
  else if count = 0 then .ok (p, [], .returned [] 0)
  else if interrupted then .ok (p, [], .returned [] (-ERESTARTSYS))
  else if p.len = 0 then
    .ok ((doMoreRead p ⟨nonblock, count, []⟩).1, [], (doMoreRead p ⟨nonblock, count, []⟩).2)
  else readData faults p ⟨nonblock, count, []⟩

/-- `pipe_read` from the end of `pipe_wait` on. -/
def readWoken (signal : Bool) (faults : ℕ → Bool) (p : PipeInfo) (call : ReadCall) :
    Except Fault (PipeInfo × List Byte × ReadResult) :=
  let p := { p with waitingReaders := p.waitingReaders - 1 }
  if signal then .ok (p, [], .returned call.got (out call.got (-ERESTARTSYS)))
  else if p.len ≠ 0 then readData faults p call
  else if p.writers = 0 then .ok (p, [], .returned call.got (out call.got 0))
  else .ok ({ p with waitingReaders := p.waitingReaders + 1 }, [], .asleep call)

/-! ### Writing -/

/-- What a writer waits for: `free` bytes before it begins, or any at all when it goes on. -/
inductive WaitFor
  | space (free : ℕ)
  | more

/-- A call of `pipe_write` that is asleep: `O_NONBLOCK`, the bytes from `buf` on, and those that
have been written. -/
structure WriteCall where
  nonblock : Bool
  buf : List Byte
  written : List Byte
  waitFor : WaitFor

/-- How a stretch of `pipe_write` ends. -/
inductive WriteResult
  | returned (written : List Byte) (ret : ℤ) (sigpipe : Bool)
  | asleep (call : WriteCall)

/-- How the loop that copies ends. -/
inductive LoopExit
  | finished
  | fault
  | full
deriving DecidableEq

/-- The loop of `pipe_write` that copies, up to where the pipe is full: how it ends, the pipe, what
has been copied, and what has not. -/
def writeLoop : (fuel : ℕ) → (faults : ℕ → Option (List Byte)) → PipeInfo → List Byte →
    Option (LoopExit × PipeInfo × List Byte × List Byte)
  | 0, _, p, buf =>
    if 0 < buf.length then if p.free ≠ 0 then none else some (.full, p, [], buf)
    else some (.finished, p, [], buf)
  | fuel + 1, faults, p, buf =>
    if 0 < buf.length then
      if p.free ≠ 0 then
        let chars := min (min p.maxWchunk buf.length) p.free
        match faults 0 with
        | some junk => some (.fault, p.copyIn (junk.take chars), [], buf)
        | none =>
          match writeLoop fuel (fun k ↦ faults (k + 1))
              { p.copyIn (buf.take chars) with len := p.len + chars } (buf.drop chars) with
          | none => none
          | some (exit, p', put, rest) => some (exit, p', buf.take chars ++ put, rest)
      else some (.full, p, [], buf)
    else some (.finished, p, [], buf)

/-- `pipe_write` from where there is space on. -/
def writeData (faults : ℕ → Option (List Byte)) (p : PipeInfo) (nonblock : Bool)
    (buf written : List Byte) : Except Fault (PipeInfo × List Byte × WriteResult) :=
  match writeLoop buf.length faults p buf with
  | none => .error .endless
  | some (.finished, p, put, _) =>
    .ok (p, put, .returned (written ++ put) (out (written ++ put) (-EFAULT)) false)
  | some (.fault, p, put, _) =>
    .ok (p, put, .returned (written ++ put) (out (written ++ put) (-EFAULT)) false)
  | some (.full, p, put, rest) =>
    if nonblock then .ok (p, put, .returned (written ++ put) (written ++ put).length false)
    else .ok ({ p with waitingWriters := p.waitingWriters + 1 }, put,
      .asleep ⟨nonblock, rest, written ++ put, .more⟩)

/-- `pipe_write` from the label `sigpipe` on. -/
def sigpipe (written : List Byte) : WriteResult :=
  if written.length ≠ 0 then .returned written written.length false
  else .returned written (-EPIPE) true

/-- `pipe_write` up to where it sleeps or returns. -/
def pipeWrite (pwrite interrupted nonblock : Bool) (buf : List Byte)
    (faults : ℕ → Option (List Byte)) (p : PipeInfo) :
    Except Fault (PipeInfo × List Byte × WriteResult) :=
  if pwrite then .ok (p, [], .returned [] (-ESPIPE) false)
  else if buf.length = 0 then .ok (p, [], .returned [] 0 false)
  else if interrupted then .ok (p, [], .returned [] (-ERESTARTSYS) false)
  else if p.readers = 0 then .ok (p, [], sigpipe [])
  else
    let free := if buf.length ≤ pipeBuf then buf.length else 1
    if p.free < free then
      if nonblock then .ok (p, [], .returned [] (-EAGAIN) false)
      else .ok ({ p with waitingWriters := p.waitingWriters + 1 }, [],
        .asleep ⟨nonblock, buf, [], .space free⟩)
    else writeData faults p nonblock buf []

/-- `pipe_write` from the end of `pipe_wait` on. -/
def writeWoken (signal : Bool) (faults : ℕ → Option (List Byte)) (p : PipeInfo) (call : WriteCall) :
    Except Fault (PipeInfo × List Byte × WriteResult) :=
  let p := { p with waitingWriters := p.waitingWriters - 1 }
  let again := { p with waitingWriters := p.waitingWriters + 1 }
  match call.waitFor with
  | .space free =>
    if signal then .ok (p, [], .returned call.written (out call.written (-ERESTARTSYS)) false)
    else if p.readers = 0 then .ok (p, [], sigpipe call.written)
    else if p.free < free then .ok (again, [], .asleep call)
    else writeData faults p call.nonblock call.buf call.written
  | .more =>
    -- `ret` is `written` here
    if signal then .ok (p, [], .returned call.written call.written.length false)
    else if p.readers = 0 then .ok (p, [], sigpipe call.written)
    else if p.free = 0 then .ok (again, [], .asleep call)
    else writeData faults p call.nonblock call.buf call.written

/-! ## The contents -/

namespace PipeInfo

variable {p p' : PipeInfo}

/-- The bounds of the two fields. -/
structure Ok (p : PipeInfo) : Prop where
  len_le : p.len ≤ pipeSize
  start_lt : p.start < pipeSize

/-- The bytes in the pipe. -/
def contents (p : PipeInfo) : List Byte := window pipeSize p.base p.start p.len

theorem length_contents : p.contents.length = p.len := length_window _ _ _

theorem and_pipeSize (n : ℕ) : n &&& (pipeSize - 1) = n % pipeSize :=
  Nat.and_two_pow_sub_one_eq_mod n 12

theorem pipeEnd_eq : p.pipeEnd = (p.start + p.len) % pipeSize := and_pipeSize _

theorem Ok.consume (h : p.Ok) (chars : ℕ) (hchunk : chars ≤ p.maxRchunk) (hlen : chars ≤ p.len) :
    (p.consume chars).Ok ∧ p.contents = p.bytes chars ++ (p.consume chars).contents := by
  have hstart := h.start_lt
  have hle := h.len_le
  rw [maxRchunk] at hchunk
  refine ⟨⟨?_, ?_⟩, ?_⟩
  · change p.len - chars ≤ pipeSize
    omega
  · change _ &&& _ < _
    rw [and_pipeSize]
    exact Nat.mod_lt _ (by decide)
  · obtain ⟨rest, hrest⟩ := Nat.exists_eq_add_of_le hlen
    rw [contents, hrest, window_add, window_of_le _ (by omega)]
    change _ = _ ++ window pipeSize p.base ((p.start + chars) &&& _) (p.len - chars)
    rw [and_pipeSize, hrest, Nat.add_sub_cancel_left]
    rfl

section CopyIn

variable (h : p.Ok) {l : List Byte} (hchunk : l.length ≤ p.maxWchunk) (hfree : l.length ≤ p.free)
include h hchunk hfree

/-- There is room behind the contents, in one piece. -/
theorem Ok.room : p.len + l.length ≤ pipeSize ∧
    (p.start + p.len) % pipeSize + l.length ≤ pipeSize := by
  have hle := h.len_le
  rw [maxWchunk, pipeEnd_eq] at hchunk
  rw [free] at hfree
  have hend : (p.start + p.len) % pipeSize < pipeSize := Nat.mod_lt _ (by decide)
  omega

/-- What is copied behind the contents does not touch them. -/
theorem Ok.copyIn : (p.copyIn l).Ok ∧ (p.copyIn l).contents = p.contents := by
  obtain ⟨hroom, hend⟩ := h.room hchunk hfree
  refine ⟨⟨h.len_le, h.start_lt⟩, ?_⟩
  rw [contents, PipeInfo.copyIn, pipeEnd_eq]
  exact window_store _ hroom hend

theorem Ok.extend : Ok { p.copyIn l with len := p.len + l.length } ∧
    contents { p.copyIn l with len := p.len + l.length } = p.contents ++ l := by
  obtain ⟨hroom, hend⟩ := h.room hchunk hfree
  refine ⟨⟨hroom, h.start_lt⟩, ?_⟩
  rw [PipeInfo.copyIn, pipeEnd_eq]
  exact window_store_append _ hroom hend

end CopyIn

theorem contents_of_len (h : p.len = 0) : p.contents = [] := by
  rw [contents, h, window_zero]

end PipeInfo

/-! ## A stretch of `pipe_read` -/

/-- The bytes that the call has got. -/
def ReadResult.got : ReadResult → List Byte
  | .returned got _ => got
  | .asleep call => call.got

/-- What is returned is the number of bytes that the call has got, if it has got any, and otherwise
0 or an error. -/
def ReadResult.Honest : ReadResult → Prop
  | .returned got ret => if got = [] then ret ≤ 0 else ret = got.length
  | .asleep _ => True

/-- What a stretch does, of a call that had `got` before: it takes bytes from the front. -/
structure Read (p : PipeInfo) (got : List Byte) (r : PipeInfo × List Byte × ReadResult) : Prop where
  ok : r.1.Ok
  contents : p.contents = r.2.1 ++ r.1.contents
  got : r.2.2.got = got ++ r.2.1
  honest : r.2.2.Honest

theorem out_honest {l : List Byte} {ret : ℤ} (h : ret ≤ 0) :
    if l = [] then out l ret ≤ 0 else out l ret = l.length := by
  rw [out]
  split
  · rename_i hl
    rw [if_neg (by rw [hl]; exact fun hc ↦ hc rfl)]
    exact h
  · rename_i hl
    rw [if_pos fun hc ↦ hl (length_eq_zero_iff.1 hc)]

section Reading

variable {p : PipeInfo} (h : p.Ok) (faults : ℕ → Bool)

include h

theorem readLoop_spec {fuel : ℕ} (count : ℕ) (hfuel : count ≤ fuel) : ∃ fault p' count' taken,
    readLoop fuel faults p count = some (fault, p', count', taken) ∧ p'.Ok ∧
    p.contents = taken ++ p'.contents ∧ (fault = false → count' = 0 ∨ p'.len = 0) := by
  induction fuel generalizing faults p count with
  | zero =>
    obtain rfl : count = 0 := by omega
    exact ⟨false, p, 0, [], rfl, h, rfl, fun _ ↦ Or.inl rfl⟩
  | succ fuel ih =>
    rw [readLoop]
    split
    · have hstart := h.start_lt
      have hpos : 0 < min (min p.maxRchunk count) p.len := by
        rw [PipeInfo.maxRchunk]
        omega
      obtain ⟨hok, hcontents⟩ := h.consume (min (min p.maxRchunk count) p.len)
        ((min_le_left _ _).trans (min_le_left _ _)) (min_le_right _ _)
      dsimp only
      split
      · exact ⟨true, p, count, [], rfl, h, rfl, nofun⟩
      · obtain ⟨fault, p', count', taken, heq, hok', hcontents', hend⟩ :=
          ih hok (fun k ↦ faults (k + 1)) (count - min (min p.maxRchunk count) p.len)
            (by omega)
        rw [heq]
        refine ⟨fault, p', count', _, rfl, hok', ?_, hend⟩
        rw [hcontents, hcontents', append_assoc]
    · exact ⟨false, p, count, [], rfl, h, rfl, fun _ ↦ by omega⟩

theorem doMoreRead_spec (call : ReadCall) {taken : List Byte} (p₀ : PipeInfo) {got : List Byte}
    (hcontents : p₀.contents = taken ++ p.contents) (hgot : call.got = got ++ taken) :
    Read p₀ got ((doMoreRead p call).1, taken, (doMoreRead p call).2) := by
  rw [doMoreRead]
  split
  · exact ⟨h, hcontents, hgot, out_honest le_rfl⟩
  · split
    · exact ⟨h, hcontents, hgot, out_honest (by decide)⟩
    · exact ⟨⟨h.len_le, h.start_lt⟩, hcontents, hgot, trivial⟩

theorem readData_spec (call : ReadCall) :
    ∃ r, readData faults p call = .ok r ∧ Read p call.got r := by
  obtain ⟨fault, p', count, taken, heq, hok, hcontents, hend⟩ :=
    readLoop_spec h faults call.count le_rfl
  rw [readData, heq]
  cases fault with
  | true => exact ⟨_, rfl, hok, hcontents, rfl, out_honest (by decide)⟩
  | false =>
    dsimp only
    have hreset : ∃ p₁, (if p'.len = 0 then { p' with start := 0 } else p') = p₁ ∧ p₁.Ok ∧
        p.contents = taken ++ p₁.contents ∧ p₁.len = p'.len := by
      split
      · rename_i hlen
        refine ⟨_, rfl, ⟨hok.len_le, show 0 < pipeSize by decide⟩, ?_, rfl⟩
        rw [hcontents, PipeInfo.contents_of_len hlen]
        exact congrArg _ (PipeInfo.contents_of_len (p := { p' with start := 0 }) hlen).symm
      · exact ⟨_, rfl, hok, hcontents, rfl⟩
    obtain ⟨p₁, hp₁, hok₁, hcontents₁, hlen⟩ := hreset
    rw [hp₁]
    split
    · rename_i hmore
      have hempty : p₁.len = 0 := hlen.trans ((hend rfl).resolve_left hmore.1)
      rw [if_neg fun hc ↦ hc hempty]
      exact ⟨_, rfl, doMoreRead_spec hok₁ _ p hcontents₁ rfl⟩
    · refine ⟨_, rfl, hok₁, hcontents₁, rfl, ?_⟩
      change if _ then _ else _
      split
      · rename_i hnil
        rw [hnil]
        exact le_rfl
      · rfl

/-- **A stretch of `pipe_read`**, from the beginning. -/
theorem pipeRead_spec (pread interrupted nonblock : Bool) (count : ℕ) :
    ∃ r, pipeRead pread interrupted nonblock count faults p = .ok r ∧ Read p [] r := by
  rw [pipeRead]
  split
  · exact ⟨_, rfl, h, rfl, rfl, show -ESPIPE ≤ 0 by decide⟩
  split
  · exact ⟨_, rfl, h, rfl, rfl, le_refl (0 : ℤ)⟩
  split
  · exact ⟨_, rfl, h, rfl, rfl, show -ERESTARTSYS ≤ 0 by decide⟩
  split
  · exact ⟨_, rfl, doMoreRead_spec h _ p rfl rfl⟩
  · exact readData_spec h faults _

/-- **A stretch of `pipe_read`**, after a sleep. -/
theorem readWoken_spec (signal : Bool) (call : ReadCall) :
    ∃ r, readWoken signal faults p call = .ok r ∧ Read p call.got r := by
  have hp : PipeInfo.Ok { p with waitingReaders := p.waitingReaders - 1 } :=
    ⟨h.len_le, h.start_lt⟩
  have hgot : call.got = call.got ++ [] := (append_nil _).symm
  rw [readWoken]
  split
  · exact ⟨_, rfl, hp, rfl, hgot, out_honest (by decide)⟩
  split
  · obtain ⟨r, heq, hread⟩ := readData_spec hp faults call
    exact ⟨r, heq, hread.ok, hread.contents, hread.got, hread.honest⟩
  split
  · exact ⟨_, rfl, hp, rfl, hgot, out_honest le_rfl⟩
  · exact ⟨_, rfl, ⟨h.len_le, h.start_lt⟩, rfl, hgot, trivial⟩

end Reading

/-! ## A stretch of `pipe_write` -/

/-- The bytes that the call has written. -/
def WriteResult.written : WriteResult → List Byte
  | .returned written _ _ => written
  | .asleep call => call.written

/-- What is known of a call that is asleep: if it is an atomic one, it has not begun, and it waits
for the space for all of its bytes. -/
def WriteCall.Ok (call : WriteCall) : Prop :=
  match call.waitFor with
  | .space free => call.written = [] ∧
      free = if call.buf.length ≤ pipeBuf then call.buf.length else 1
  | .more => pipeBuf < (call.written ++ call.buf).length

/-- How a stretch ends, of a call that is to write `data`. -/
def WriteResult.Ok (data : List Byte) : WriteResult → Prop
  | .returned written ret _ => written <+: data ∧
      if written = [] then ret ≤ 0 else ret = written.length
  | .asleep call => call.written ++ call.buf = data ∧ call.Ok

/-- What a stretch does, of a call that is to write `data` and has `written` some of it: it puts
bytes behind the others. -/
structure Write (p : PipeInfo) (data written : List Byte) (r : PipeInfo × List Byte × WriteResult) :
    Prop where
  ok : r.1.Ok
  contents : r.1.contents = p.contents ++ r.2.1
  written : r.2.2.written = written ++ r.2.1
  result : r.2.2.Ok data

section Writing

variable {p : PipeInfo} (h : p.Ok) (faults : ℕ → Option (List Byte))

include h

theorem writeLoop_spec {fuel : ℕ} (buf : List Byte) (hfuel : buf.length ≤ fuel) :
    ∃ exit p' put rest, writeLoop fuel faults p buf = some (exit, p', put, rest) ∧ p'.Ok ∧
      p'.contents = p.contents ++ put ∧ put ++ rest = buf ∧
      (exit = .full → rest ≠ [] ∧ p'.len = pipeSize) := by
  induction fuel generalizing faults p buf with
  | zero =>
    obtain rfl : buf = [] := length_eq_zero_iff.1 (by omega)
    exact ⟨.finished, p, [], [], rfl, h, (append_nil _).symm, rfl, nofun⟩
  | succ fuel ih =>
    rw [writeLoop]
    split
    · rename_i hmore
      split
      · have hend : p.pipeEnd < pipeSize := by
          rw [PipeInfo.pipeEnd_eq]
          exact Nat.mod_lt _ (by decide)
        have hpos : 0 < min (min p.maxWchunk buf.length) p.free := by
          rw [PipeInfo.maxWchunk]
          omega
        have hchunk : min (min p.maxWchunk buf.length) p.free ≤ p.maxWchunk :=
          (min_le_left _ _).trans (min_le_left _ _)
        dsimp only
        generalize hchars : min (min p.maxWchunk buf.length) p.free = chars at hpos hchunk ⊢
        split
        · rename_i junk _
          have hjunk := length_take_le chars junk
          obtain ⟨hok, hcontents⟩ := h.copyIn (l := junk.take chars) (by omega) (by omega)
          exact ⟨.fault, _, [], buf, rfl, hok, hcontents.trans (append_nil _).symm, rfl, nofun⟩
        · have hlen : (buf.take chars).length = chars := by
            rw [length_take]
            omega
          obtain ⟨hok, hcontents⟩ := h.extend (l := buf.take chars) (by omega) (by omega)
          rw [hlen] at hok hcontents
          obtain ⟨exit, p', put, rest, heq, hok', hcontents', hsplit, hfull⟩ :=
            ih hok (fun k ↦ faults (k + 1)) (buf.drop chars)
              (by rw [length_drop]; omega)
          rw [heq]
          refine ⟨exit, p', _, rest, rfl, hok', ?_, ?_, hfull⟩
          · rw [hcontents', hcontents, append_assoc]
          · rw [append_assoc, hsplit, take_append_drop]
      · rename_i hfree
        refine ⟨.full, p, [], buf, rfl, h, (append_nil _).symm, rfl, fun _ ↦ ⟨?_, ?_⟩⟩
        · exact ne_nil_of_length_pos hmore
        · have := h.len_le
          rw [PipeInfo.free] at hfree
          omega
    · obtain rfl : buf = [] := length_eq_zero_iff.1 (by omega)
      exact ⟨.finished, p, [], [], rfl, h, (append_nil _).symm, rfl, nofun⟩

/-- With the space for all of the bytes, an atomic write is not interrupted. -/
theorem writeData_spec (nonblock : Bool) (buf written : List Byte)
    (hsmall : (written ++ buf).length ≤ pipeBuf → buf.length ≤ p.free) :
    ∃ r, writeData faults p nonblock buf written = .ok r ∧ Write p (written ++ buf) written r := by
  obtain ⟨exit, p', put, rest, heq, hok, hcontents, hsplit, hfull⟩ :=
    writeLoop_spec h faults buf le_rfl
  have hfront : written ++ put <+: written ++ buf := ⟨rest, by rw [append_assoc, hsplit]⟩
  rw [writeData, heq]
  cases exit with
  | finished | fault => exact ⟨_, rfl, hok, hcontents, rfl, hfront, out_honest (by decide)⟩
  | full =>
    obtain ⟨hrest, hlen⟩ := hfull rfl
    dsimp only
    split
    · refine ⟨_, rfl, hok, hcontents, rfl, hfront, ?_⟩
      split
      · rename_i hnil
        rw [hnil]
        exact le_rfl
      · rfl
    · refine ⟨_, rfl, ⟨hok.len_le, hok.start_lt⟩, hcontents, rfl, ?_, Nat.lt_of_not_le fun hle ↦ ?_⟩
      · rw [append_assoc, hsplit]
      · rw [append_assoc, hsplit] at hle
        have hput := congrArg length hcontents
        have hbuf := congrArg length hsplit
        have hroom := hsmall hle
        have hpos := length_pos_iff.2 hrest
        rw [length_append, PipeInfo.length_contents, PipeInfo.length_contents] at hput
        rw [length_append] at hbuf
        rw [PipeInfo.free] at hroom
        omega

theorem sigpipe_spec {data written : List Byte} (hfront : written <+: data) :
    Write p data written (p, [], sigpipe written) := by
  rw [sigpipe]
  split
  · rename_i hpos
    refine ⟨h, (append_nil _).symm, (append_nil _).symm, hfront, ?_⟩
    rw [if_neg fun hc ↦ hpos (length_eq_zero_iff.2 hc)]
  · rename_i hpos
    refine ⟨h, (append_nil _).symm, (append_nil _).symm, hfront, ?_⟩
    rw [if_pos (length_eq_zero_iff.1 (not_not.1 hpos))]
    decide

/-- **A stretch of `pipe_write`**, from the beginning. -/
theorem pipeWrite_spec (pwrite interrupted nonblock : Bool) (buf : List Byte) :
    ∃ r, pipeWrite pwrite interrupted nonblock buf faults p = .ok r ∧ Write p buf [] r := by
  have hnil : p.contents = p.contents ++ [] := (append_nil _).symm
  have herror : ∀ ret : ℤ, ret ≤ 0 → Write p buf [] (p, [], .returned [] ret false) :=
    fun ret hret ↦ ⟨h, hnil, rfl, nil_prefix, hret⟩
  rw [pipeWrite]
  split
  · exact ⟨_, rfl, herror _ (by decide)⟩
  split
  · exact ⟨_, rfl, herror _ le_rfl⟩
  split
  · exact ⟨_, rfl, herror _ (by decide)⟩
  split
  · exact ⟨_, rfl, sigpipe_spec h nil_prefix⟩
  dsimp only
  generalize hspace : (if buf.length ≤ pipeBuf then buf.length else 1) = free
  split
  · split
    · exact ⟨_, rfl, herror _ (by decide)⟩
    · exact ⟨_, rfl, ⟨h.len_le, h.start_lt⟩, hnil, rfl, rfl, rfl, hspace.symm⟩
  · refine writeData_spec h faults nonblock buf [] fun hsmall ↦ ?_
    rw [nil_append] at hsmall
    rw [if_pos hsmall] at hspace
    omega

/-- **A stretch of `pipe_write`**, after a sleep. -/
theorem writeWoken_spec (signal : Bool) {call : WriteCall} (hcall : call.Ok) :
    ∃ r, writeWoken signal faults p call = .ok r ∧
      Write p (call.written ++ call.buf) call.written r := by
  have hp : PipeInfo.Ok { p with waitingWriters := p.waitingWriters - 1 } :=
    ⟨h.len_le, h.start_lt⟩
  have hnil : p.contents = p.contents ++ [] := (append_nil _).symm
  have hwritten : call.written = call.written ++ [] := (append_nil _).symm
  have hdata : ∀ (hsmall : (call.written ++ call.buf).length ≤ pipeBuf → call.buf.length ≤ p.free),
      ∃ r, writeData faults { p with waitingWriters := p.waitingWriters - 1 } call.nonblock call.buf
        call.written = .ok r ∧ Write p (call.written ++ call.buf) call.written r := by
    intro hsmall
    obtain ⟨r, heq, hwrite⟩ := writeData_spec hp faults call.nonblock call.buf call.written hsmall
    exact ⟨r, heq, hwrite.ok, hwrite.contents, hwrite.written, hwrite.result⟩
  have hpipe := sigpipe_spec hp (prefix_append call.written call.buf)
  rw [writeWoken]
  cases hwait : call.waitFor with
  | space free =>
    have hok := hcall
    rw [WriteCall.Ok, hwait] at hok
    obtain ⟨hnone, hfree⟩ := hok
    dsimp only
    split
    · exact ⟨_, rfl, hp, hnil, hwritten, prefix_append _ _, out_honest (by decide)⟩
    split
    · exact ⟨_, rfl, hpipe.ok, hpipe.contents, hpipe.written, hpipe.result⟩
    split
    · exact ⟨_, rfl, ⟨h.len_le, h.start_lt⟩, hnil, hwritten, rfl, hcall⟩
    · rename_i hroom
      refine hdata fun hsmall ↦ ?_
      rw [hnone, nil_append] at hsmall
      rw [if_pos hsmall] at hfree
      exact hfree ▸ Nat.le_of_not_lt hroom
  | more =>
    have hok := hcall
    rw [WriteCall.Ok, hwait] at hok
    dsimp only
    split
    · refine ⟨_, rfl, hp, hnil, hwritten, prefix_append _ _, ?_⟩
      split
      · rename_i hc
        rw [hc]
        exact le_rfl
      · rfl
    split
    · exact ⟨_, rfl, hpipe.ok, hpipe.contents, hpipe.written, hpipe.result⟩
    split
    · exact ⟨_, rfl, ⟨h.len_le, h.start_lt⟩, hnil, hwritten, rfl, hcall⟩
    · exact hdata fun hsmall ↦ absurd hok (not_lt.2 hsmall)

end Writing

end Linux24.Pipe
