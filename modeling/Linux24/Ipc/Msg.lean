import Linux24.Ipc.SemQueue
import Linux24.Lib.Machine

/-!
# Message queues: `ipc/msg.c`

A message that is sent is copied into the kernel in pieces of at most a page, `load_msg`.  If
somebody who waits for a message can have it, it is handed over through `r_msg` without ever being
on the queue, `pipelined_send`; otherwise it is put on the queue, from where `sys_msgrcv` takes it.

Everything that concerns the queue is done under its lock.  A call is therefore one step up to where
it sleeps, and one step each time it goes on, with one exception: a receiver that has slept looks at
its `r_msg` before it takes the lock, and once more after.  Between the two a message may arrive, so
they are two steps.

The messages that have been sent, that have left the queue and that have been returned or destroyed
are written down in the order in which this happens (`sent`, `gone`, `returned`, `destroyed`);
nothing depends on what is written down.  Removing a queue and changing its limits with `msgctl` is
left out, and so are `msg_bytes` and `msg_hdrs`, which are only for show.
-/

set_option autoImplicit false

namespace Linux24.Ipc

def eNomsg : ℤ := 42
def eIdrm : ℤ := 43

abbrev Byte := BitVec 8

/-- `sizeof(struct msg_msg)`. -/
def sizeofMsg : ℕ := 20
def datalenMsg : ℕ := 4096 - sizeofMsg
def datalenSeg : ℕ := 4096 - 4

/-- `struct msg_msg`.  The text is in the message itself and in the segments that follow. -/
structure MsgMsg where
  /-- Which one of all messages it is.  This stands for its address. -/
  serial : ℕ
  mType : ℤ
  mTs : ℕ
  data : List Byte
  segs : List (List Byte)
deriving DecidableEq, Repr

/-! ## `load_msg` and `store_msg` -/

/-- What `load_msg` depends on besides its arguments. -/
structure LoadEnv where
  /-- Whether `msgp->mtype` can be read. -/
  mtype : Bool
  /-- The memory of the user from `msgp->mtext` on. -/
  mtext : ℕ → Byte
  /-- Whether as many bytes from an offset on can be read. -/
  readable : ℕ → ℕ → Bool
  /-- Whether there is memory for a piece. -/
  kmalloc : ℕ → Bool

/-- What the user has at an offset. -/
def LoadEnv.text (L : LoadEnv) (src len : ℕ) : List Byte :=
  (List.range len).map fun i ↦ L.mtext (src + i)

/-- The loop of `load_msg`, for piece number `n`.  A round makes `len` smaller, so `len` rounds are
enough. -/
def loadSegs (L : LoadEnv) : ℕ → ℕ → ℕ → ℕ → Except ℤ (List (List Byte))
  | 0, _, _, _ => .ok []
  | rounds + 1, n, src, len =>
    if 0 < len then
      let alen := if datalenSeg < len then datalenSeg else len
      if L.kmalloc n = false then .error (-eNomem)
      else if L.readable src alen = false then .error (-eFault)
      else
        match loadSegs L rounds (n + 1) (src + alen) (len - alen) with
        | .error err => .error err
        | .ok segs => .ok (L.text src alen :: segs)
    else .ok []

/-- `load_msg`, with the `m_type` and `m_ts` that `sys_msgsnd` then writes. -/
def loadMsg (L : LoadEnv) (serial : ℕ) (mtype : ℤ) (len : ℕ) : Except ℤ MsgMsg :=
  let alen := if datalenMsg < len then datalenMsg else len
  if L.kmalloc 0 = false then .error (-eNomem)
  else if L.readable 0 alen = false then .error (-eFault)
  else
    match loadSegs L (len - alen) 1 alen (len - alen) with
    | .error err => .error err
    | .ok segs => .ok ⟨serial, mtype, len, L.text 0 alen, segs⟩

/-- What comes of copying a message to the user. -/
inductive Copied
  | done (bytes : List Byte)
  /-- The memory of the user cannot be written. -/
  | fault
  /-- The kernel reads where there is no message. -/
  | oops
deriving DecidableEq, Repr

/-- What can be written from `msgp` on. -/
structure StoreEnv where
  /-- Whether `msgp->mtype` can. -/
  mtype : Bool
  /-- Whether as many bytes from an offset in `msgp->mtext` on can. -/
  writable : ℕ → ℕ → Bool

/-- `copy_to_user` from a piece of a message. -/
def copyToUser (D : StoreEnv) (dest : ℕ) (piece : List Byte) (alen : ℕ) (rest : Copied) : Copied :=
  if piece.length < alen then .oops
  else if D.writable dest alen = false then .fault
  else
    match rest with
    | .done bytes => .done (piece.take alen ++ bytes)
    | .fault => .fault
    | .oops => .oops

/-- The loop of `store_msg`. -/
def storeSegs (D : StoreEnv) : ℕ → List (List Byte) → ℕ → Copied
  | _, [], len => if 0 < len then .oops else .done []
  | dest, seg :: segs, len =>
    if 0 < len then
      let alen := if datalenSeg < len then datalenSeg else len
      copyToUser D dest seg alen (storeSegs D (dest + alen) segs (len - alen))
    else .done []

def storeMsg (D : StoreEnv) (msg : MsgMsg) (len : ℕ) : Copied :=
  let alen := if datalenMsg < len then datalenMsg else len
  copyToUser D 0 msg.data alen (storeSegs D alen msg.segs (len - alen))

/-! ## Which message -/

/-- The ways to look for a message. -/
inductive SearchMode
  | any
  | equal
  | notequal
  | lessequal
deriving DecidableEq, Repr

def testmsg (msg : MsgMsg) (type : ℤ) : SearchMode → Bool
  | .any => true
  | .lessequal => msg.mType ≤ type
  | .equal => msg.mType = type
  | .notequal => msg.mType ≠ type

/-- `convert_mode`.  The `long` is negated in its 32 bits. -/
def convertMode (msgtyp : ℤ) (except : Bool) : ℤ × SearchMode :=
  if msgtyp = 0 then (msgtyp, .any)
  else if msgtyp < 0 then (toInt (-msgtyp), .lessequal)
  else if except then (msgtyp, .notequal)
  else (msgtyp, .equal)

/-- The loop of `sys_msgrcv` that looks for a message: what has been found, and `msgtyp`. -/
def findMsg (mode : SearchMode) : List MsgMsg → ℤ → Option MsgMsg → Option MsgMsg × ℤ
  | [], msgtyp, found => (found, msgtyp)
  | msg :: rest, msgtyp, found =>
    if testmsg msg msgtyp mode then
      if mode = .lessequal ∧ msg.mType ≠ 1 then findMsg mode rest (msg.mType - 1) (some msg)
      else (some msg, msgtyp)
    else findMsg mode rest msgtyp found

/-! ## The queue -/

/-- What `r_msg` points to. -/
inductive RMsg
  | err (e : ℤ)
  | msg (m : MsgMsg)
deriving DecidableEq, Repr

/-- `struct msg_receiver`, with what the sleeping `sys_msgrcv` keeps besides it. -/
structure MsgReceiver where
  rTsk : ℕ
  rMode : SearchMode
  rMsgtype : ℤ
  rMaxsize : ℕ
  rMsg : RMsg
  msgsz : ℕ
  /-- `msgflg & MSG_NOERROR`. -/
  noerror : Bool
  /-- It has looked at `r_msg`, seen an error, and goes for the lock. -/
  locking : Bool
deriving DecidableEq, Repr

/-- The message that a receiver has been handed. -/
def MsgReceiver.handed (msr : MsgReceiver) : Option MsgMsg :=
  match msr.rMsg with
  | .msg msg => some msg
  | .err _ => none

/-- What a call of `sys_msgsnd` has been given. -/
structure SentMsg where
  serial : ℕ
  mtype : ℤ
  mtext : List Byte
deriving DecidableEq, Repr

/-- `struct msg_sender`, with what the sleeping `sys_msgsnd` keeps besides it.  One that sleeps has
not been given `IPC_NOWAIT`. -/
structure MsgSender where
  tsk : ℕ
  msg : MsgMsg
  given : SentMsg

/-- `struct msg_queue`. -/
structure MsgQueue where
  qStime : ℕ
  qRtime : ℕ
  qCbytes : BitVec 32
  qQnum : BitVec 32
  qQbytes : BitVec 32
  qLspid : ℕ
  qLrpid : ℕ
  qMessages : List MsgMsg
  qReceivers : List MsgReceiver
  qSenders : List MsgSender

/-- What a call depends on besides the queue. -/
structure MsgEnv where
  /-- `msg_ctlmax`. -/
  ctlmax : BitVec 32
  msqid : ℤ
  /-- Whether `msqid` is that of a queue. -/
  found : Bool
  /-- Whether `msg_checkid` finds that it is that of this queue. -/
  checkid : Bool
  /-- Whether `ipcperms` allows it. -/
  allowed : Bool
  /-- `CURRENT_TIME`. -/
  now : ℕ

namespace MsgQueue

/-- `pipelined_send`: the receivers that stay on the list, those that are taken off it, and the one
that has got the message. -/
def pipelinedSend (msg : MsgMsg) :
    List MsgReceiver → List MsgReceiver × List MsgReceiver × Option MsgReceiver
  | [] => ([], [], none)
  | msr :: rest =>
    if testmsg msg msr.rMsgtype msr.rMode then
      if msr.rMaxsize < msg.mTs then
        let (left, off, got) := pipelinedSend msg rest
        (left, { msr with rMsg := .err (-e2Big) } :: off, got)
      else (rest, [{ msr with rMsg := .msg msg }], some msr)
    else
      let (left, off, got) := pipelinedSend msg rest
      (msr :: left, off, got)

/-- There is no room for a message. -/
def Full (q : MsgQueue) (msgsz : BitVec 32) : Prop :=
  q.qQbytes < msgsz + q.qCbytes ∨ q.qQbytes < 1 + q.qQnum

instance (q : MsgQueue) (msgsz : BitVec 32) : Decidable (q.Full msgsz) :=
  inferInstanceAs (Decidable (_ ∨ _))

/-- `sys_msgsnd` from `retry` on, under the lock: with the receivers that are taken off the list. -/
def msgsndRetry (q : MsgQueue) (E : MsgEnv) (s : MsgSender) (nowait : Bool) :
    Outcome × List MsgReceiver × MsgQueue :=
  let msgsz := BitVec.ofNat 32 s.msg.mTs
  if E.checkid = false then (.returned (-eIdrm), [], q)
  else if E.allowed = false then (.returned (-eAcces), [], q)
  else if q.Full msgsz then
    if nowait then (.returned (-eAgain), [], q)
    else (.sleeps, [], { q with qSenders := q.qSenders ++ [s] })
  else
    let q := { q with qLspid := s.tsk, qStime := E.now }
    match pipelinedSend s.msg q.qReceivers with
    | (left, off, some msr) =>
      (.returned 0, off, { q with qReceivers := left, qLrpid := msr.rTsk, qRtime := E.now })
    | (left, off, none) =>
      (.returned 0, off, { q with
        qReceivers := left
        qMessages := q.qMessages ++ [s.msg]
        qCbytes := q.qCbytes + msgsz
        qQnum := q.qQnum + 1 })

/-- A call of `sys_msgrcv` has come to an end without a message, has one, or sleeps. -/
inductive Rcv
  | returned (error : ℤ)
  | took (msg : MsgMsg)
  | sleeps
deriving DecidableEq, Repr

/-- `list_del(&msg->m_list)`. -/
def listDel (msg : MsgMsg) (l : List MsgMsg) : List MsgMsg :=
  l.eraseP fun m ↦ decide (m.serial = msg.serial)

/-- `sys_msgrcv` from `retry` on, under the lock. -/
def msgrcvRetry (q : MsgQueue) (E : MsgEnv) (p msgsz : ℕ) (msgtyp : ℤ) (mode : SearchMode)
    (noerror nowait : Bool) : Rcv × MsgQueue :=
  if E.checkid = false then (.returned (-eIdrm), q)
  else if E.allowed = false then (.returned (-eAcces), q)
  else
    match findMsg mode q.qMessages msgtyp none with
    | (some msg, _) =>
      if msgsz < msg.mTs ∧ noerror = false then (.returned (-e2Big), q)
      else
        (.took msg, { q with
          qMessages := listDel msg q.qMessages
          qQnum := q.qQnum - 1
          qRtime := E.now
          qLrpid := p
          qCbytes := q.qCbytes - BitVec.ofNat 32 msg.mTs })
    | (none, msgtyp) =>
      if nowait then (.returned (-eNomsg), q)
      else
        let maxsize := if noerror then 2147483647 else msgsz
        (.sleeps, { q with qReceivers := q.qReceivers ++
          [⟨p, mode, msgtyp, maxsize, .err (-eAgain), msgsz, noerror, false⟩] })

end MsgQueue

/-! ## The calls -/

/-- A message that has been returned by `sys_msgrcv`, with the `msgsz` of that call. -/
structure Returned where
  msg : MsgMsg
  msgsz : ℕ
  result : ℤ
  bytes : List Byte
deriving DecidableEq, Repr

/-- `out_success` of `sys_msgrcv`: what is returned, or nothing for `-EFAULT`. -/
def outSuccess (D : StoreEnv) (msg : MsgMsg) (msgsz : ℕ) : Except Unit (Option Returned) :=
  let len := if msg.mTs < msgsz then msg.mTs else msgsz
  if D.mtype = false then .ok none
  else
    match storeMsg D msg len with
    | .done bytes => .ok (some ⟨msg, msgsz, len, bytes⟩)
    | .fault => .ok none
    | .oops => .error ()

/-- The calls, and how they go on. -/
inductive MsgCall
  | msgsnd (E : MsgEnv) (L : LoadEnv) (p : ℕ) (mtype : ℤ) (msgsz : BitVec 32) (nowait : Bool)
  /-- A sender that sleeps goes on. -/
  | sndWake (E : MsgEnv) (p : ℕ) (signal : Bool)
  | msgrcv (E : MsgEnv) (D : StoreEnv) (p : ℕ) (msgsz : BitVec 32) (msgtyp : ℤ)
      (except noerror nowait : Bool)
  /-- A receiver that sleeps goes on: it looks at `r_msg` without the lock. -/
  | rcvWake (D : StoreEnv) (p : ℕ)
  /-- It gets the lock. -/
  | rcvLock (E : MsgEnv) (D : StoreEnv) (p : ℕ) (signal : Bool)

/-- A queue, the receivers that have been taken off its list and have not gone on yet, and what has
happened so far. -/
structure MsgWorld where
  queue : MsgQueue
  off : List MsgReceiver
  /-- How many messages have been loaded. -/
  loaded : ℕ
  /-- The messages that have been sent. -/
  sent : List SentMsg
  /-- The messages that have left the queue. -/
  gone : List MsgMsg
  /-- The messages that have been returned. -/
  returned : List Returned
  /-- The messages that have been freed without having been returned. -/
  destroyed : List MsgMsg

namespace MsgWorld

/-- The receiver that is `p`. -/
def receiver (w : MsgWorld) (p : ℕ) : Option MsgReceiver :=
  (w.queue.qReceivers ++ w.off).find? fun msr ↦ decide (msr.rTsk = p)

/-- The sender that is `p`. -/
def sender (w : MsgWorld) (p : ℕ) : Option MsgSender :=
  w.queue.qSenders.find? fun s ↦ decide (s.tsk = p)

/-- What comes of trying to send. -/
def afterSend (w : MsgWorld) (s : MsgSender) :
    Outcome × List MsgReceiver × MsgQueue → Outcome × MsgWorld
  | (outcome, off, q) =>
    (outcome, { w with
      queue := q
      off := off ++ w.off
      sent := if outcome = .returned 0 then w.sent ++ [s.given] else w.sent })

def sysMsgsnd (w : MsgWorld) (E : MsgEnv) (L : LoadEnv) (p : ℕ) (mtype : ℤ) (msgsz : BitVec 32)
    (nowait : Bool) : Outcome × MsgWorld :=
  if E.ctlmax < msgsz ∨ msgsz.toInt < 0 ∨ E.msqid < 0 then (.returned (-eInval), w)
  else if L.mtype = false then (.returned (-eFault), w)
  else if mtype < 1 then (.returned (-eInval), w)
  else
    match loadMsg L w.loaded mtype msgsz.toNat with
    | .error err => (.returned err, w)
    | .ok msg =>
      let w := { w with loaded := w.loaded + 1 }
      if E.found = false then (.returned (-eInval), w)
      else
        let s : MsgSender := ⟨p, msg, ⟨msg.serial, mtype, L.text 0 msgsz.toNat⟩⟩
        w.afterSend s (w.queue.msgsndRetry E s nowait)

/-- `sys_msgsnd` after it has slept. -/
def sndGoOn (w : MsgWorld) (E : MsgEnv) (s : MsgSender) (signal : Bool) : Outcome × MsgWorld :=
  let q := { w.queue with qSenders := w.queue.qSenders.eraseP fun r ↦ decide (r.tsk = s.tsk) }
  if signal then (.returned (-eIntr), { w with queue := q })
  else w.afterSend s (q.msgsndRetry E s false)

/-- A message is returned.  `free_msg` is called for it whether or not it could be copied. -/
def deliver (w : MsgWorld) (D : StoreEnv) (msg : MsgMsg) (msgsz : ℕ) :
    Except Unit (Outcome × MsgWorld) :=
  match outSuccess D msg msgsz with
  | .ok (some r) => .ok (.returned r.result, { w with returned := w.returned ++ [r] })
  | .ok none => .ok (.returned (-eFault), { w with destroyed := w.destroyed ++ [msg] })
  | .error () => .error ()

/-- What comes of trying to receive.  What is done with a message that has been taken off the queue
concerns nobody else, so it is part of the step. -/
def afterReceive (w : MsgWorld) (D : StoreEnv) (msgsz : ℕ) :
    MsgQueue.Rcv × MsgQueue → Except Unit (Outcome × MsgWorld)
  | (.took msg, q) => { w with queue := q, gone := w.gone ++ [msg] }.deliver D msg msgsz
  | (.returned e, q) => .ok (.returned e, { w with queue := q })
  | (.sleeps, q) => .ok (.sleeps, { w with queue := q })

def sysMsgrcv (w : MsgWorld) (E : MsgEnv) (D : StoreEnv) (p : ℕ) (msgsz : BitVec 32) (msgtyp : ℤ)
    (except noerror nowait : Bool) : Except Unit (Outcome × MsgWorld) :=
  if E.msqid < 0 ∨ msgsz.toInt < 0 then .ok (.returned (-eInval), w)
  else if E.found = false then .ok (.returned (-eInval), w)
  else
    let (msgtyp, mode) := convertMode msgtyp except
    w.afterReceive D msgsz.toNat (w.queue.msgrcvRetry E p msgsz.toNat msgtyp mode noerror nowait)

/-- The receiver has gone on for good. -/
def release (w : MsgWorld) (p : ℕ) : MsgWorld :=
  { w with off := w.off.eraseP fun msr ↦ decide (msr.rTsk = p) }

/-- The receiver is about to take the lock. -/
def setLocking (p : ℕ) (msr : MsgReceiver) : MsgReceiver :=
  if msr.rTsk = p then { msr with locking := true } else msr

/-- `sys_msgrcv` after it has slept, up to the lock. -/
def rcvGoOn (w : MsgWorld) (D : StoreEnv) (msr : MsgReceiver) :
    Except Unit (Outcome × MsgWorld) :=
  match msr.rMsg with
  | .msg msg => (w.release msr.rTsk).deliver D msg msr.msgsz
  | .err _ => .ok (.sleeps, { w with
      queue := { w.queue with qReceivers := w.queue.qReceivers.map (setLocking msr.rTsk) }
      off := w.off.map (setLocking msr.rTsk) })

/-- `sys_msgrcv` after it has slept, under the lock. -/
def rcvLocked (w : MsgWorld) (E : MsgEnv) (D : StoreEnv) (msr : MsgReceiver) (signal : Bool) :
    Except Unit (Outcome × MsgWorld) :=
  match msr.rMsg with
  | .msg msg => (w.release msr.rTsk).deliver D msg msr.msgsz
  | .err e =>
    if e = -eAgain then
      let q := { w.queue with
        qReceivers := w.queue.qReceivers.eraseP fun r ↦ decide (r.rTsk = msr.rTsk) }
      if signal then .ok (.returned (-eIntr), { w with queue := q })
      else w.afterReceive D msr.msgsz
        (q.msgrcvRetry E msr.rTsk msr.msgsz msr.rMsgtype msr.rMode msr.noerror false)
    else .ok (.returned e, w.release msr.rTsk)

/-- What a call does up to where it sleeps or returns. -/
def perform (w : MsgWorld) : MsgCall → Except Unit (Outcome × MsgWorld)
  | .msgsnd E L p mtype msgsz nowait => .ok (w.sysMsgsnd E L p mtype msgsz nowait)
  | .sndWake E p signal =>
    match w.sender p with
    | some s => .ok (w.sndGoOn E s signal)
    | none => .ok (.sleeps, w)
  | .msgrcv E D p msgsz msgtyp except noerror nowait =>
    w.sysMsgrcv E D p msgsz msgtyp except noerror nowait
  | .rcvWake D p =>
    match w.receiver p with
    | some msr => w.rcvGoOn D msr
    | none => .ok (.sleeps, w)
  | .rcvLock E D p signal =>
    match w.receiver p with
    | some msr => w.rcvLocked E D msr signal
    | none => .ok (.sleeps, w)

/-- The messages that have been handed to a receiver. -/
def handed (w : MsgWorld) : List MsgMsg := w.off.filterMap MsgReceiver.handed

/-- The messages that lie in memory. -/
def live (w : MsgWorld) : List MsgMsg :=
  w.queue.qMessages ++ w.handed ++ w.queue.qSenders.map MsgSender.msg

/-- The memory of messages.  It is more, since the segments have headers too. -/
def footprint (l : List MsgMsg) : ℕ := (l.map fun msg ↦ sizeofMsg + msg.mTs).sum

/-- The processes that sleep. -/
def asleep (w : MsgWorld) : List ℕ :=
  w.queue.qSenders.map MsgSender.tsk ++ (w.queue.qReceivers ++ w.off).map MsgReceiver.rTsk

/-- When a call can be made: a process that sleeps can only go on.  What `kmalloc` returns lies in
an address space of 32 bits. -/
def Legal (w : MsgWorld) : MsgCall → Prop
  | .msgsnd _ L p _ msgsz _ => p ∉ w.asleep ∧
      (L.kmalloc 0 = true → footprint w.live + (sizeofMsg + msgsz.toNat) < 2 ^ 32)
  | .sndWake _ p _ => (w.sender p).isSome
  | .msgrcv _ _ p _ _ _ _ _ => p ∉ w.asleep
  | .rcvWake _ p => ∃ msr ∈ w.receiver p, msr.locking = false
  | .rcvLock _ _ p _ => ∃ msr ∈ w.receiver p, msr.locking = true

instance (w : MsgWorld) (a : MsgCall) : Decidable (w.Legal a) := by
  cases a <;> dsimp only [Legal] <;> infer_instance

/-- The machine of a queue, from `newque` on. -/
def machine : Machine MsgWorld MsgCall Unit where
  init w := w.queue.qCbytes = 0 ∧ w.queue.qQnum = 0 ∧ w.queue.qMessages = [] ∧
    w.queue.qReceivers = [] ∧ w.queue.qSenders = [] ∧ w.off = [] ∧ w.loaded = 0 ∧ w.sent = [] ∧
    w.gone = [] ∧ w.returned = [] ∧ w.destroyed = []
  legal := Legal
  exec w a := (w.perform a).map Prod.snd

instance (w : MsgWorld) (a : MsgCall) : Decidable (machine.legal w a) :=
  inferInstanceAs (Decidable (w.Legal a))

end MsgWorld

end Linux24.Ipc
