import Linux24.Lib.Intervals
import Linux24.Lib.Machine

/-!
# Reassembly of IP datagrams: `net/ipv4/ip_fragment.c`

The fragments of a datagram wait in a queue, an `ipq`, until they are all there.  A fragment that
arrives is put where its offset says.  Where it overlaps the one before it, it is cut itself; where
it overlaps those after it, they are cut or thrown away.  So the queue never holds a byte twice, and
the datagram is complete when the bytes in the queue, `meat`, are as many as the datagram has,
`len`. That `len` is known, and that something is there from the first byte on, is what the flags
`LAST_IN` and `FIRST_IN` are for.

The calls into the socket buffer layer may fail, as may `kmalloc`; `Env` says which of them do.
Failures come late: `len`, the flags and the fragments that follow may have been changed by then,
and the code does not undo it.

What is not modelled: checksums, `dev`, `iif` and `stamp`, and the ICMP message of `ip_expire`, none
of which the queue depends on.  A call is one step, as if the locks were held all the time.  The
evictor can take any queue at any time between two calls, whatever the memory limits are.
-/

set_option autoImplicit false

universe u

namespace Linux24.Frag

open Function

abbrev Byte := BitVec 8

/-- A packet as `ip_defrag` gets it. -/
structure Packet where
  /-- `ntohs(iph->frag_off)`. -/
  fragOff : BitVec 16
  ihl : BitVec 4
  /-- The packet from `nh.raw` on, which is where `data` points to. -/
  bytes : List Byte
  truesize : ℕ

namespace Packet

variable (p : Packet)

/-- `offset & IP_OFFSET`, in bytes. -/
def offset : ℕ := (p.fragOff &&& 0x1fff).toNat * 8

/-- `flags & IP_MF`. -/
def mf : Bool := p.fragOff &&& 0x2000 ≠ 0

/-- The length of the header that the header gives. -/
def ihlen : ℕ := p.ihl.toNat * 4

/-- `end`, which for a packet shorter than its header may be anything. -/
def stop : ℤ := p.offset + p.bytes.length - p.ihlen

end Packet

/-- A packet in a queue. -/
structure Skb where
  ihl : BitVec 4
  /-- What has been pulled: the bytes from `nh.raw` to `data`. -/
  pulled : List Byte
  data : List Byte
  /-- `FRAG_CB(skb)->offset`. -/
  offset : ℕ
  truesize : ℕ

/-- The first byte after the fragment. -/
def Skb.stop (skb : Skb) : ℕ := skb.offset + skb.data.length

def Packet.skb (p : Packet) : Skb where
  ihl := p.ihl
  pulled := []
  data := p.bytes
  offset := p.offset
  truesize := p.truesize

/-- A queue.  `last_in` is its three flags. -/
structure Ipq where
  complete : Bool
  firstIn : Bool
  lastIn : Bool
  fragments : List Skb
  /-- The length of the datagram, as far as it is known. -/
  len : ℕ
  /-- The bytes in the queue. -/
  meat : ℤ
  refcnt : ℤ
  /-- Whether the timer is pending. -/
  timer : Bool

/-- Which calls succeed, and whether the first fragment has to be split. -/
structure Env where
  /-- `kmalloc` of a queue. -/
  alloc : Bool
  /-- `__pskb_pull_tail` for the header of the new packet. -/
  pullHeader : Bool
  /-- `__pskb_trim` of the new packet. -/
  trim : Bool
  /-- `__pskb_pull_tail` for what the new packet has in common with the one before. -/
  pullFront : Bool
  /-- `__pskb_pull_tail` for what the next fragment has in common with the new packet. -/
  pullNext : Bool
  /-- The first fragment is not cloned, or `pskb_expand_head` succeeds. -/
  expandHead : Bool
  /-- If the first fragment has a `frag_list`: the number of bytes in it and the `truesize` of the
  new buffer for them, unless there is no memory for this buffer. -/
  frags : Option (Option (ℕ × ℕ))

/-- Every call succeeds. -/
def Env.fine : Env where
  alloc := true
  pullHeader := true
  trim := true
  pullFront := true
  pullNext := true
  expandHead := true
  frags := none

/-- What the `BUG_TRAP`s look for. -/
inductive Trap
  | noHead
  | headOffset
  | notComplete
  | timerPending

/-! ## `ip_frag_queue` -/

/-- `pskb_pull`, the offset of the fragment not included. -/
def pskbPull (ok : Bool) (skb : Skb) (n : ℕ) : Option Skb :=
  if skb.data.length < n then none
  else if ok then
    some { skb with pulled := skb.pulled ++ skb.data.take n, data := skb.data.drop n }
  else none

def pskbTrim (ok : Bool) (skb : Skb) (n : ℕ) : Option Skb :=
  if n < skb.data.length then
    if ok then some { skb with data := skb.data.take n } else none
  else some skb

/-- "Is this the final fragment?": `len` and `LAST_IN`, and the end of the fragment. -/
def Ipq.setBounds (qp : Ipq) (p : Packet) : Option (Ipq × ℤ) :=
  if p.mf then
    -- `end &= ~7`
    let stop := p.stop / 8 * 8
    if (qp.len : ℤ) < stop then
      if qp.lastIn then none else some ({ qp with len := stop.toNat }, stop)
    else some (qp, stop)
  else if p.stop < qp.len ∨ (qp.lastIn ∧ p.stop ≠ qp.len) then none
  else some ({ qp with lastIn := true, len := p.stop.toNat }, p.stop)

/-- The first half of `ip_frag_queue`: the queue, and the fragment unless there is nothing to put
into the queue. -/
def Ipq.accept (env : Env) (qp : Ipq) (p : Packet) : Ipq × Option Skb :=
  match qp.setBounds p with
  | none => (qp, none)
  | some (qp, stop) =>
    if stop = p.offset then (qp, none)
    else
      match pskbPull env.pullHeader p.skb p.ihlen with
      | none => (qp, none)
      | some skb => (qp, pskbTrim env.trim skb (stop - p.offset).toNat)

/-- "Check for overlap with preceding fragment". -/
def cutFront (ok : Bool) (prev : Option Skb) (skb : Skb) : Option Skb :=
  match prev with
  | none => some skb
  | some prev =>
    if skb.offset < prev.stop then
      let i := prev.stop - skb.offset
      if skb.stop ≤ skb.offset + i then none
      else (pskbPull ok skb i).map fun skb' ↦ { skb' with offset := skb.offset + i }
    else some skb

/-- The state of the loop over the fragments that the new one overlaps. -/
structure Eaten where
  /-- Whether the loop was left in the regular way. -/
  ok : Bool
  next : List Skb
  meat : ℤ
  mem : ℤ

/-- The loop over the fragments that the new one, up to `stop`, overlaps. -/
def eatNext (ok : Bool) (stop : ℕ) : List Skb → ℤ → ℤ → Eaten
  | [], meat, mem => ⟨true, [], meat, mem⟩
  | next :: rest, meat, mem =>
    if next.offset < stop then
      let i := stop - next.offset
      if i < next.data.length then
        -- eat head of the next overlapped fragment and leave the loop
        match pskbPull ok next i with
        | none => ⟨false, next :: rest, meat, mem⟩
        | some next' => ⟨true, { next' with offset := next.offset + i } :: rest, meat - i, mem⟩
      -- the old fragment is completely overridden
      else eatNext ok stop rest (meat - next.data.length) (mem - next.truesize)
    else ⟨true, next :: rest, meat, mem⟩

/-- The second half of `ip_frag_queue`: the fragment is put into the list.  The counter is
`ip_frag_mem`. -/
def Ipq.link (env : Env) (qp : Ipq) (mem : ℤ) (skb : Skb) : Ipq × ℤ :=
  let prev := qp.fragments.takeWhile fun f ↦ f.offset < skb.offset
  let next := qp.fragments.dropWhile fun f ↦ f.offset < skb.offset
  match cutFront env.pullFront prev.getLast? skb with
  | none => (qp, mem)
  | some skb =>
    let r := eatNext env.pullNext skb.stop next qp.meat mem
    if r.ok then
      ({ qp with
        fragments := prev ++ skb :: r.next
        meat := r.meat + skb.data.length
        firstIn := qp.firstIn || skb.offset = 0 }, r.mem + skb.truesize)
    else ({ qp with fragments := prev ++ r.next, meat := r.meat }, r.mem)

def Ipq.ipFragQueue (env : Env) (qp : Ipq) (mem : ℤ) (p : Packet) : Ipq × ℤ :=
  if qp.complete then (qp, mem)
  else
    match qp.accept env p with
    | (qp, none) => (qp, mem)
    | (qp, some skb) => qp.link env mem skb

/-! ## `ip_frag_reasm` -/

/-- What the fragments of a list count for in `ip_frag_mem`. -/
def truesizes (l : List Skb) : ℕ := (l.map Skb.truesize).sum

/-- `ipq_kill`.  The queue is in the table unless it is complete. -/
def Ipq.ipqKill (qp : Ipq) : Ipq :=
  let qp := if qp.timer then { qp with timer := false, refcnt := qp.refcnt - 1 } else qp
  if qp.complete then qp else { qp with refcnt := qp.refcnt - 1, complete := true }

/-- The datagram that is returned. -/
structure Datagram where
  ihl : BitVec 4
  /-- The packet from `nh.raw` on. -/
  bytes : List Byte
  fragOff : BitVec 16
  totLen : BitVec 16
  truesize : ℕ

/-- What comes after the header. -/
def Datagram.payload (d : Datagram) : List Byte := d.bytes.drop (d.ihl.toNat * 4)

/-- "If the first fragment is fragmented itself, we split it to two chunks". -/
def splitHead (frags : Option (Option (ℕ × ℕ))) (head : Skb) (rest : List Skb) (mem : ℤ) :
    Option (Skb × List Skb × ℤ) :=
  match frags with
  | none => some (head, rest, mem)
  | some none => none
  | some (some (n, truesize)) =>
    let left := head.data.length - n
    some ({ head with data := head.data.take left },
      { head with pulled := [], data := head.data.drop left, truesize := truesize } :: rest,
      mem + truesize)

def Ipq.ipFragReasm (env : Env) (qp : Ipq) (mem : ℤ) :
    Except Trap (Ipq × ℤ × Option Datagram) :=
  let qp := qp.ipqKill
  match qp.fragments with
  | [] => .error .noHead
  | head :: rest =>
    if head.offset ≠ 0 then .error .headOffset
    else
      let len := head.ihl.toNat * 4 + qp.len
      if 65535 < len then .ok (qp, mem, none)
      else if env.expandHead then
        match splitHead env.frags head rest mem with
        | none => .ok (qp, mem, none)
        | some (head, rest, mem) =>
          .ok ({ qp with fragments := [] }, mem - head.truesize - truesizes rest,
            some {
              ihl := head.ihl
              bytes := head.pulled ++ head.data ++ (rest.map Skb.data).flatten
              fragOff := 0
              totLen := BitVec.ofNat 16 len
              truesize := head.truesize + truesizes rest })
      else .ok (qp, mem, none)

/-! ## The table -/

/-- The queues.  The keys are source, destination, protocol and identification. -/
structure World (κ : Type u) where
  /-- The hash table. -/
  queues : κ → Option Ipq
  /-- Queues that have been taken out of the table and not been destroyed. -/
  limbo : List Ipq
  /-- `ip_frag_mem`. -/
  mem : ℤ

variable {κ : Type u} [DecidableEq κ] (sizeofIpq : ℕ)

def Ipq.ipFragIntern (qp : Ipq) : Ipq :=
  { qp with
    refcnt := (if qp.timer then qp.refcnt else qp.refcnt + 1) + 1
    timer := true }

/-- `ip_frag_create`, when there is memory. -/
def ipFragCreate : Ipq :=
  Ipq.ipFragIntern {
    complete := false
    firstIn := false
    lastIn := false
    fragments := []
    len := 0
    meat := 0
    refcnt := 1
    timer := false }

namespace World

variable (w : World κ)

def ipFind (env : Env) (k : κ) : Option (Ipq × ℤ) :=
  match w.queues k with
  | some qp => some ({ qp with refcnt := qp.refcnt + 1 }, w.mem)
  | none => if env.alloc then some (ipFragCreate, w.mem + sizeofIpq) else none

/-- `ipq_put`, with `ip_frag_destroy` when this was the last reference. -/
def ipqPut (k : κ) (qp : Ipq) (mem : ℤ) : Except Trap (World κ) :=
  let qp := { qp with refcnt := qp.refcnt - 1 }
  if qp.refcnt = 0 then
    if qp.complete = false then .error .notComplete
    else if qp.timer then .error .timerPending
    else .ok { w with
      queues := update w.queues k none
      mem := mem - truesizes qp.fragments - sizeofIpq }
  else if qp.complete then
    .ok { queues := update w.queues k none, limbo := qp :: w.limbo, mem := mem }
  else .ok { w with queues := update w.queues k (some qp), mem := mem }

/-- `ip_defrag`, after the evictor. -/
def ipDefrag (env : Env) (k : κ) (p : Packet) : Except Trap (World κ × Option Datagram) :=
  match w.ipFind sizeofIpq env k with
  | none => .ok (w, none)
  | some (qp, mem) =>
    let q := qp.ipFragQueue env mem p
    if q.1.complete = false ∧ q.1.firstIn ∧ q.1.lastIn ∧ q.1.meat = q.1.len then
      match q.1.ipFragReasm env q.2 with
      | .error trap => .error trap
      | .ok (qp, mem, ret) => (w.ipqPut sizeofIpq k qp mem).map fun w ↦ (w, ret)
    else (w.ipqPut sizeofIpq k q.1 q.2).map fun w ↦ (w, none)

/-- What `ip_evictor` does with a queue that it has chosen. -/
def evict (k : κ) : Except Trap (World κ) :=
  match w.queues k with
  | none => .ok w
  | some qp =>
    let qp := { qp with refcnt := qp.refcnt + 1 }
    w.ipqPut sizeofIpq k (if qp.complete then qp else qp.ipqKill) w.mem

/-- `ip_expire`, when the timer of the queue has gone off. -/
def ipExpire (k : κ) : Except Trap (World κ) :=
  match w.queues k with
  | none => .ok w
  | some qp =>
    let qp := { qp with timer := false }
    w.ipqPut sizeofIpq k (if qp.complete then qp else qp.ipqKill) w.mem

end World

end Linux24.Frag
