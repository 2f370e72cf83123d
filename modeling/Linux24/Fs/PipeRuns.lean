import Linux24.Fs.Pipe
import Linux24.Lib.Machine

/-!
# Readers and writers of a pipe

Any number of calls of `pipe_read` and `pipe_write`, each of which goes on for a stretch at a time.
A call that is asleep may be woken up at any time, with or without a signal, and the numbers of
readers and writers may change whenever nobody holds the semaphore.

A world remembers what has been copied into the pipe and what has been taken out of it, each byte
with the call that it comes from or goes to.  `World.Ok` says how the two streams and the contents
of the pipe belong together: nothing is lost, nothing is there twice, and nothing overtakes anything
else.  `pipe_fifo` is what follows for the calls that have returned.
-/

set_option autoImplicit false

namespace Linux24.Pipe

open List Function

/-- The bytes, with the call that they belong to. -/
def tag (i : ℕ) (l : List Byte) : List (ℕ × Byte) := l.map (Prod.mk i)

/-- The bytes in a stream that belong to the call. -/
def ofCall (i : ℕ) (s : List (ℕ × Byte)) : List Byte := (s.filter (·.1 = i)).map Prod.snd

theorem ofCall_append (i : ℕ) (s t : List (ℕ × Byte)) :
    ofCall i (s ++ t) = ofCall i s ++ ofCall i t := by
  rw [ofCall, filter_append, map_append]
  rfl

theorem ofCall_tag_self (i : ℕ) (l : List Byte) : ofCall i (tag i l) = l := by
  simp [ofCall, tag, filter_map]

theorem ofCall_tag_of_ne {i j : ℕ} (h : j ≠ i) (l : List Byte) : ofCall i (tag j l) = [] := by
  simp [ofCall, tag, h]

theorem map_snd_tag (i : ℕ) (l : List Byte) : (tag i l).map Prod.snd = l := by
  simp [tag]

/-! ## Worlds -/

/-- What has become of a call of `pipe_read`. -/
inductive ReadStatus
  | idle
  | asleep (call : ReadCall)
  | returned (got : List Byte) (ret : ℤ)

/-- What has become of a call of `pipe_write`. -/
inductive WriteStatus
  | idle
  | asleep (call : WriteCall)
  | returned (data written : List Byte) (ret : ℤ)

/-- The pipe, the calls, and the bytes that have been copied in and taken out. -/
structure World where
  pipe : PipeInfo
  reads : ℕ → ReadStatus
  writes : ℕ → WriteStatus
  accepted : List (ℕ × Byte)
  returned : List (ℕ × Byte)

/-- What happens next. -/
inductive Action
  /-- A call of `pipe_read` begins. -/
  | read (i : ℕ) (pread interrupted nonblock : Bool) (count : ℕ) (faults : ℕ → Bool)
  /-- A reader wakes up. -/
  | wakeReader (i : ℕ) (signal : Bool) (faults : ℕ → Bool)
  /-- A call of `pipe_write` begins. -/
  | write (i : ℕ) (pwrite interrupted nonblock : Bool) (buf : List Byte)
      (faults : ℕ → Option (List Byte))
  /-- A writer wakes up. -/
  | wakeWriter (i : ℕ) (signal : Bool) (faults : ℕ → Option (List Byte))
  /-- The two ends are opened and closed. -/
  | openClose (readers writers : ℕ)

/-- How a call is found after the stretch. -/
def ReadResult.status : ReadResult → ReadStatus
  | .returned got ret => .returned got ret
  | .asleep call => .asleep call

/-- How a call is found after the stretch. -/
def WriteResult.status (data : List Byte) : WriteResult → WriteStatus
  | .returned written ret _ => .returned data written ret
  | .asleep call => .asleep call

namespace World

variable (w : World)

/-- The world after a stretch of `pipe_read`. -/
def afterRead (i : ℕ) (r : PipeInfo × List Byte × ReadResult) : World :=
  { w with
    pipe := r.1
    returned := w.returned ++ tag i r.2.1
    reads := update w.reads i r.2.2.status }

/-- The world after a stretch of `pipe_write`. -/
def afterWrite (i : ℕ) (data : List Byte) (r : PipeInfo × List Byte × WriteResult) : World :=
  { w with
    pipe := r.1
    accepted := w.accepted ++ tag i r.2.1
    writes := update w.writes i (r.2.2.status data) }

/-- One stretch. -/
def exec : Action → Except Fault World
  | .read i pread interrupted nonblock count faults =>
    (pipeRead pread interrupted nonblock count faults w.pipe).map (w.afterRead i)
  | .wakeReader i signal faults =>
    match w.reads i with
    | .asleep call => (readWoken signal faults w.pipe call).map (w.afterRead i)
    | _ => .ok w
  | .write i pwrite interrupted nonblock buf faults =>
    (pipeWrite pwrite interrupted nonblock buf faults w.pipe).map (w.afterWrite i buf)
  | .wakeWriter i signal faults =>
    match w.writes i with
    | .asleep call =>
      (writeWoken signal faults w.pipe call).map (w.afterWrite i (call.written ++ call.buf))
    | _ => .ok w
  | .openClose readers writers =>
    .ok { w with pipe := { w.pipe with readers := readers, writers := writers } }

/-- A call begins once. -/
def Legal : Action → Prop
  | .read i _ _ _ _ _ => w.reads i = .idle
  | .write i _ _ _ _ _ => w.writes i = .idle
  | _ => True

/-- An empty pipe that nobody has used yet. -/
def Fresh : Prop :=
  w.pipe.start = 0 ∧ w.pipe.len = 0 ∧ (∀ i, w.reads i = .idle) ∧ (∀ i, w.writes i = .idle) ∧
    w.accepted = [] ∧ w.returned = []

end World

/-- Runs. -/
def machine : Machine World Action Fault where
  init := World.Fresh
  legal := World.Legal
  exec := World.exec

/-! ## What holds all the time -/

/-- The bytes that have been taken out for the call, `got`. -/
def ReadStatus.Ok (got : List Byte) : ReadStatus → Prop
  | .idle => got = []
  | .asleep call => got = call.got
  | .returned got' ret => got = got' ∧ if got = [] then ret ≤ 0 else ret = got.length

/-- The bytes that have been copied in for the call. -/
def WriteStatus.Ok (i : ℕ) (s : List (ℕ × Byte)) : WriteStatus → Prop
  | .idle => ofCall i s = []
  | .asleep call => ofCall i s = call.written ∧ call.Ok
  | .returned data written ret => ofCall i s = written ∧ written <+: data ∧
      (if written = [] then ret ≤ 0 else ret = written.length) ∧
      (data.length ≤ pipeBuf → tag i written <:+: s)

theorem WriteCall.Ok.written_eq_nil {call : WriteCall} (h : call.Ok)
    (hsmall : (call.written ++ call.buf).length ≤ pipeBuf) : call.written = [] := by
  rw [WriteCall.Ok] at h
  split at h
  · exact h.1
  · omega

/-- More bytes of another call. -/
theorem WriteStatus.Ok.append {i j : ℕ} {s : List (ℕ × Byte)} {status : WriteStatus}
    (h : status.Ok i s) (hne : j ≠ i) (put : List Byte) : status.Ok i (s ++ tag j put) := by
  have hof : ofCall i (s ++ tag j put) = ofCall i s := by
    rw [ofCall_append, ofCall_tag_of_ne hne, append_nil]
  cases status with
  | idle => exact hof.trans h
  | asleep call => exact ⟨hof.trans h.1, h.2⟩
  | returned data written ret =>
    obtain ⟨hwritten, hfront, hret, hsmall⟩ := h
    exact ⟨hof.trans hwritten, hfront, hret, fun hlen ↦
      (hsmall hlen).trans (prefix_append _ _).isInfix⟩

namespace World

variable {w w' : World}

/-- The two streams and the pipe belong together. -/
structure Ok (w : World) : Prop where
  pipe : w.pipe.Ok
  stream : w.returned.map Prod.snd ++ w.pipe.contents = w.accepted.map Prod.snd
  reads : ∀ i, (w.reads i).Ok (ofCall i w.returned)
  writes : ∀ i, (w.writes i).Ok i w.accepted

theorem Fresh.ok (h : w.Fresh) : w.Ok := by
  obtain ⟨hstart, hlen, hreads, hwrites, haccepted, hreturned⟩ := h
  refine ⟨⟨hlen ▸ zero_le, hstart ▸ by decide⟩, ?_, fun i ↦ ?_, fun i ↦ ?_⟩
  · rw [haccepted, hreturned, PipeInfo.contents_of_len hlen]
    rfl
  · rw [hreads, hreturned]
    rfl
  · rw [hwrites, haccepted]
    rfl

/-- A stretch of `pipe_read`, by a call with the bytes `got`. -/
theorem Ok.afterRead (h : w.Ok) {i : ℕ} {got : List Byte} {r : PipeInfo × List Byte × ReadResult}
    (hgot : ofCall i w.returned = got) (hread : Read w.pipe got r) : (w.afterRead i r).Ok := by
  obtain ⟨p, taken, result⟩ := r
  obtain ⟨hok, hcontents, hresult, hhonest⟩ := hread
  refine ⟨hok, ?_, fun j ↦ ?_, h.writes⟩
  · change (w.returned ++ tag i taken).map Prod.snd ++ p.contents = w.accepted.map Prod.snd
    rw [map_append, map_snd_tag, append_assoc, ← hcontents, h.stream]
  · change (update w.reads i result.status j).Ok (ofCall j (w.returned ++ tag i taken))
    by_cases hj : j = i
    · subst hj
      rw [update_self, ofCall_append, ofCall_tag_self, hgot, ← hresult]
      cases result with
      | returned got' ret => exact ⟨rfl, hhonest⟩
      | asleep call => exact rfl
    · rw [update_of_ne hj, ofCall_append, ofCall_tag_of_ne (Ne.symm hj), append_nil]
      exact h.reads j

/-- A stretch of `pipe_write`, by a call that is to write `data` and has written some of it; if it
is an atomic one, it has not. -/
theorem Ok.afterWrite (h : w.Ok) {i : ℕ} {data written : List Byte}
    {r : PipeInfo × List Byte × WriteResult} (hwritten : ofCall i w.accepted = written)
    (hsmall : data.length ≤ pipeBuf → written = []) (hwrite : Write w.pipe data written r) :
    (w.afterWrite i data r).Ok := by
  obtain ⟨p, put, result⟩ := r
  obtain ⟨hok, hcontents, hput, hresult⟩ := hwrite
  refine ⟨hok, ?_, h.reads, fun j ↦ ?_⟩
  · change w.returned.map Prod.snd ++ p.contents = (w.accepted ++ tag i put).map Prod.snd
    rw [map_append, map_snd_tag, hcontents, ← append_assoc, h.stream]
  · change (update w.writes i (result.status data) j).Ok j (w.accepted ++ tag i put)
    by_cases hj : j = i
    · subst hj
      rw [update_self]
      have hof : ofCall j (w.accepted ++ tag j put) = result.written := by
        rw [ofCall_append, ofCall_tag_self, hwritten, hput]
      cases result with
      | returned written' ret sig =>
        refine ⟨hof, hresult.1, hresult.2, fun hlen ↦ ?_⟩
        change written' = written ++ put at hput
        rw [hput, hsmall hlen]
        exact (suffix_append _ _).isInfix
      | asleep call => exact ⟨hof, hresult.2⟩
    · rw [update_of_ne hj]
      exact (h.writes j).append (Ne.symm hj) put

/-- **One stretch.**  It comes to its end without `BUG()`, and the streams still belong together. -/
theorem Ok.exec (h : w.Ok) {action : Action} (hlegal : w.Legal action) :
    ∃ w', w.exec action = .ok w' ∧ w'.Ok := by
  cases action with
  | read i pread interrupted nonblock count faults =>
    obtain ⟨r, heq, hread⟩ := pipeRead_spec h.pipe faults pread interrupted nonblock count
    have hidle := h.reads i
    rw [show w.reads i = .idle from hlegal] at hidle
    refine ⟨w.afterRead i r, ?_, h.afterRead hidle hread⟩
    rw [World.exec, heq]
    rfl
  | wakeReader i signal faults =>
    have hcall := h.reads i
    rw [World.exec]
    cases hstatus : w.reads i with
    | asleep call =>
      rw [hstatus] at hcall
      obtain ⟨r, heq, hread⟩ := readWoken_spec h.pipe faults signal call
      refine ⟨w.afterRead i r, ?_, h.afterRead hcall hread⟩
      dsimp only
      rw [heq]
      rfl
    | idle | returned got ret => exact ⟨w, rfl, h⟩
  | write i pwrite interrupted nonblock buf faults =>
    obtain ⟨r, heq, hwrite⟩ := pipeWrite_spec h.pipe faults pwrite interrupted nonblock buf
    have hidle := h.writes i
    rw [show w.writes i = .idle from hlegal] at hidle
    refine ⟨w.afterWrite i buf r, ?_, h.afterWrite hidle (fun _ ↦ rfl) hwrite⟩
    rw [World.exec, heq]
    rfl
  | wakeWriter i signal faults =>
    have hcall := h.writes i
    rw [World.exec]
    cases hstatus : w.writes i with
    | asleep call =>
      rw [hstatus] at hcall
      obtain ⟨hwritten, hok⟩ := hcall
      obtain ⟨r, heq, hwrite⟩ := writeWoken_spec h.pipe faults signal hok
      refine ⟨w.afterWrite i _ r, ?_, h.afterWrite hwritten hok.written_eq_nil hwrite⟩
      dsimp only
      rw [heq]
      rfl
    | idle | returned data written ret => exact ⟨w, rfl, h⟩
  | openClose readers writers =>
    exact ⟨_, rfl, ⟨h.pipe.len_le, h.pipe.start_lt⟩, h.stream, h.reads, h.writes⟩

theorem ok_of_reachable (h : machine.Reachable w) : w.Ok := by
  refine h.invariant (fun w (hw : w.Fresh) ↦ hw.ok) fun w action w' hok hlegal hexec ↦ ?_
  obtain ⟨w₁, heq, hok₁⟩ := hok.exec hlegal
  change w.exec action = .ok w' at hexec
  rw [heq] at hexec
  cases hexec
  exact hok₁

/-- **A pipe is a stream of bytes.**  At all times the fields are within their bounds; what has been
taken out, in this order, is the beginning of what has been copied in; a read that has returned has
got what was taken out for it, and a write that has returned has written a beginning of its bytes,
as many as it returns; if it has written all of them, and they are not more than `PIPE_BUF`, they
are next to each other.  And every stretch comes to its end, and not to the `BUG()`. -/
theorem pipe_fifo (h : machine.Reachable w) :
    w.pipe.len ≤ pipeSize ∧ w.pipe.start < pipeSize ∧
    w.returned.map Prod.snd <+: w.accepted.map Prod.snd ∧
    (∀ i got ret, w.reads i = .returned got ret → ofCall i w.returned = got ∧
      if got = [] then ret ≤ 0 else ret = got.length) ∧
    (∀ i data written ret, w.writes i = .returned data written ret →
      ofCall i w.accepted = written ∧ written <+: data ∧
      (if written = [] then ret ≤ 0 else ret = written.length)) ∧
    (∀ i data written ret, w.writes i = .returned data written ret → ret = data.length →
      data.length ≤ pipeBuf → tag i data <:+: w.accepted) ∧
    ∀ action, w.Legal action → ∃ w', w.exec action = .ok w' := by
  have hok := ok_of_reachable h
  refine ⟨hok.pipe.len_le, hok.pipe.start_lt, ⟨_, hok.stream⟩, fun i got ret hi ↦ ?_,
    fun i data written ret hi ↦ ?_, fun i data written ret hi hret hsmall ↦ ?_,
    fun action hlegal ↦ ?_⟩
  · have hread := hok.reads i
    rw [hi] at hread
    exact ⟨hread.1, hread.1 ▸ hread.2⟩
  · have hwrite := hok.writes i
    rw [hi] at hwrite
    exact ⟨hwrite.1, hwrite.2.1, hwrite.2.2.1⟩
  · have hwrite := hok.writes i
    rw [hi] at hwrite
    obtain ⟨-, hfront, hcount, hinfix⟩ := hwrite
    have hall : written = data := by
      refine hfront.eq_of_length ?_
      split at hcount
      · rename_i hnil
        rw [hnil, length_nil]
        omega
      · omega
    exact hall ▸ hinfix (hall ▸ hsmall)
  · obtain ⟨w', heq, -⟩ := hok.exec hlegal
    exact ⟨w', heq⟩

/-- A pipe with a reader and a writer. -/
def fresh : World :=
  ⟨⟨fun _ ↦ 0, 0, 0, 1, 1, 0, 0⟩, fun _ ↦ .idle, fun _ ↦ .idle, [], []⟩

/-- A reader that waits, two writes, and what the reader gets when it wakes up. -/
theorem pipe_fifo_reader : ∃ w, machine.Reachable w ∧ w.reads 0 = .returned [1, 2] 2 ∧
    w.writes 0 = .returned [1, 2] [1, 2] 2 ∧ w.writes 1 = .returned [3] [3] 1 ∧
    ofCall 0 w.returned = [1, 2] ∧ tag 0 [1, 2] <:+: w.accepted ∧ tag 1 [3] <:+: w.accepted := by
  have hinit : machine.Reachable fresh := .init ⟨rfl, rfl, fun _ ↦ rfl, fun _ ↦ rfl, rfl, rfl⟩
  have hread := hinit.step (a := .read 0 false false false 2 fun _ ↦ false) (by exact rfl) rfl
  have hfirst := hread.step (a := .write 0 false false false [1, 2] fun _ ↦ none) (by exact rfl) rfl
  have hsecond := hfirst.step (a := .write 1 false false false [3] fun _ ↦ none) (by exact rfl) rfl
  have hwoken := hsecond.step (a := .wakeReader 0 false fun _ ↦ false) (by exact trivial) rfl
  obtain ⟨-, -, -, hreads, -, hwrites, -⟩ := pipe_fifo hwoken
  exact ⟨_, hwoken, rfl, rfl, rfl, (hreads 0 _ _ rfl).1,
    hwrites 0 _ _ _ rfl rfl (by decide), hwrites 1 _ _ _ rfl rfl (by decide)⟩

end World
end Linux24.Pipe
