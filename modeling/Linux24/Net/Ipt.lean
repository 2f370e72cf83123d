import Linux24.Lib.Bytes

/-!
# Packet filter tables: `net/ipv4/netfilter/ip_tables.c`

A table is a blob of bytes that user space hands over.  It is a row of rules, each of which says
itself where its target starts and where the next rule does.  The target of most rules is the
*standard* one, a number: a verdict if it is negative, or the offset of a rule to jump to.
`translate_table` checks the blob, in three passes: the sizes of the rules and the hooks, then the
jumps, then the rules one by one, whose matches and targets are looked up by name on the occasion,
so that a pointer takes the place of the name.  After that `ipt_do_table` takes packets through the
table.

The blob is in a memory of bytes, at address `0`, and what comes after it is whatever is there: the
code does not notice when it reads behind the end of the blob.  For `mark_source_chains` a flag goes
along that says whether this has happened, and for `ipt_do_table` the list of the offsets it has
been at.

The matches and targets are modules, of which only this is modelled: how they are found, that a
pointer to one of them leads to it, and that what they do is a function of their data and of an
environment.  The environment is the packet, and whatever else they keep.  The sizes are those of
i386, and the table is that of one CPU.
-/

set_option autoImplicit false

universe u v w

namespace Linux24.Ipt

open Bytes

abbrev Byte := BitVec 8

abbrev Hook := Fin 5

/-! ## Rules -/

/-- `sizeof(struct ipt_entry)`. -/
def sizeofEntry : ℕ := 112

/-- `sizeof(struct ipt_entry_target)`, and `sizeof(struct ipt_entry_match)`. -/
def sizeofTarget : ℕ := 32

/-- `IPT_ALIGN(sizeof(struct ipt_standard_target))`. -/
def sizeofStandard : ℕ := 36

def iptReturn : ℤ := -5

def iptContinue : ℕ := 0xffffffff

def nfDrop : ℕ := 0

section Fields

variable (m : Mem) (e t : ℕ)

def targetOffset : ℕ := load m (e + 88) 2

def nextOffset : ℕ := load m (e + 90) 2

def comefrom : ℕ := load m (e + 92) 4

def pcnt : ℕ := load m (e + 96) 8

def bcnt : ℕ := load m (e + 104) 8

/-- `ipt_get_target`. -/
def getTarget : ℕ := e + targetOffset m e

/-- `match_size` or `target_size`. -/
def elemSize : ℕ := load m t 2

/-- `u.user.name`, as far as `strcmp` looks at it. -/
def elemName : List Byte := ((List.range 30).map fun i ↦ m (t + 2 + i)).takeWhile (· ≠ 0)

/-- `u.kernel.match` or `u.kernel.target`. -/
def elemPtr : ℕ := load m (t + 4) 4

/-- The data of the match or target. -/
def elemData : List Byte := (List.range (elemSize m t - sizeofTarget)).map fun i ↦ m (t + 32 + i)

/-- `((struct ipt_standard_target *)t)->verdict`. -/
def verdict : ℤ := (BitVec.ofNat 32 (load m (t + 32) 4)).toInt

/-- `strcmp(t->target.u.user.name, IPT_STANDARD_TARGET) == 0`. -/
def isStandard : Bool := m (t + 2) = 0

/-- `unconditional(&e->ip)`. -/
def unconditional : Bool := (List.range 84).all fun i ↦ m (e + i) = 0

/-- "Unconditional return/END". -/
def isEnd : Bool :=
  targetOffset m e = sizeofEntry && isStandard m (getTarget m e) &&
    verdict m (getTarget m e) < 0 && unconditional m e

end Fields

/-! ## Modules -/

/-- The part of the packet that the rules themselves look at. -/
structure IpHdr where
  saddr : BitVec 32
  daddr : BitVec 32
  protocol : BitVec 8
  totLen : ℕ

/-- The registered matches `μ` and targets `τ`, and the packet and what else they act on, `ω`. -/
structure Modules (μ : Type u) (τ : Type v) (ω : Type w) where
  findMatch : List Byte → Option μ
  findTarget : List Byte → Option τ
  /-- `ipt_standard_target`. -/
  standard : τ
  find_standard : ∀ name, findTarget name = some standard ↔ name = []
  /-- The addresses of the structures, and what is found at an address. -/
  matchAddr : μ → BitVec 32
  matchAt : BitVec 32 → Option μ
  matchAt_addr : ∀ x, matchAt (matchAddr x) = some x
  targetAddr : τ → BitVec 32
  targetAt : BitVec 32 → Option τ
  targetAt_addr : ∀ x, targetAt (targetAddr x) = some x
  /-- `checkentry`, for the element at the second address of the rule at the first one. -/
  checkMatch : μ → Mem → ℕ → ℕ → Bool
  checkTarget : τ → Mem → ℕ → ℕ → Bool
  /-- `match`, with the data of the match: whether the packet matches, and `*hotdrop`. -/
  runMatch : μ → List Byte → ω → Bool × Bool × ω
  /-- `target`, with the data of the target. -/
  runTarget : τ → List Byte → Hook → ω → BitVec 32 × ω
  /-- `(*pskb)->nh.iph`. -/
  ip : ω → IpHdr
  /-- `(*pskb)->nfcache |= …`. -/
  orNfcache : ω → ℕ → ω

/-! ## `translate_table` -/

/-- Why a table is refused; `hang` is for a loop that takes more rounds than it is given. -/
inductive Err
  | einval
  | enoent
  | eloop
  | hang

/-- The state of the first pass: `newinfo`, and the number of rules. -/
structure Info where
  mem : Mem
  hookEntry : Hook → ℕ
  underflow : Hook → ℕ
  number : ℕ

/-- `IPT_ENTRY_ITERATE`, from the offset `i` on. -/
def entryIterate {σ : Type} (mem : σ → Mem) (size : ℕ) (fn : ℕ → σ → Except Err σ) :
    ℕ → ℕ → σ → Except Err σ
  | 0, _, _ => .error .hang
  | fuel + 1, i, s =>
    if i < size then
      match fn i s with
      | .error err => .error err
      | .ok s => entryIterate mem size fn fuel ((i + nextOffset (mem s) i) % 2 ^ 32) s
    else .ok s

def checkEntrySizeAndHooks (size : ℕ) (hookEntries underflows : Hook → ℕ) (e : ℕ) (info : Info) :
    Except Err Info :=
  if e % 4 ≠ 0 ∨ size ≤ e + sizeofEntry then .error .einval
  else if nextOffset info.mem e < sizeofEntry + sizeofTarget then .error .einval
  else .ok {
    hookEntry := fun h ↦ if e = hookEntries h then hookEntries h else info.hookEntry h
    underflow := fun h ↦ if e = underflows h then underflows h else info.underflow h
    -- clear counters and comefrom
    mem := store (store info.mem (e + 96) 16 0) (e + 92) 4 0
    number := info.number + 1 }

/-- The memory in `mark_source_chains`, and whether everything was inside of the blob so far. -/
structure Mark where
  mem : Mem
  inside : Bool

/-- Bytes of the blob are read or written, some from each of the addresses on. -/
def Mark.touch (size : ℕ) (s : Mark) (l : List (ℕ × ℕ)) : Mark :=
  { s with inside := s.inside && l.all fun r ↦ r.1 + r.2 ≤ size }

/-- Where "backtrack through the last big jump" ends. -/
inductive Back
  /-- "We're at the start". -/
  | start (s : Mark)
  /-- At a rule that jumps. -/
  | jump (s : Mark) (pos : ℕ)

/-- "Return: backtrack through the last big jump". -/
def backtrack (size : ℕ) : ℕ → Mark → ℕ → Except Err Back
  | 0, _, _ => .error .hang
  | fuel + 1, s, oldpos =>
    let s := s.touch size [(oldpos + 92, 4), (oldpos + 96, 8)]
    let m := store s.mem (oldpos + 92) 4 (comefrom s.mem oldpos ^^^ 32)
    let pos := pcnt m oldpos % 2 ^ 32
    let s := { s with mem := store m (oldpos + 96) 8 0 }
    if pos = oldpos then .ok (.start s)
    else
      let s := s.touch size [(pos + 90, 2)]
      if oldpos = (pos + nextOffset s.mem pos) % 2 ^ 32 then backtrack size fuel s pos
      else .ok (.jump s pos)

/-- What the test for an unconditional return reads. -/
def endReads (m : Mem) (e : ℕ) : List (ℕ × ℕ) :=
  (e + 88, 2) ::
    if targetOffset m e = sizeofEntry then
      (getTarget m e + 2, 1) ::
        if isStandard m (getTarget m e) then
          (getTarget m e + 32, 4) :: if verdict m (getTarget m e) < 0 then [(e, 84)] else []
        else []
    else []

/-- The loop of `mark_source_chains` for one hook. -/
def markLoop (size : ℕ) (hook : Hook) : ℕ → Mark → ℕ → Except Err Mark
  | 0, _, _ => .error .hang
  | fuel + 1, s, pos =>
    let s := s.touch size [(pos + 88, 2), (pos + 92, 4)]
    if (comefrom s.mem pos).testBit 5 then .error .eloop
    else
      let m := store s.mem (pos + 92) 4 (comefrom s.mem pos ||| (2 ^ hook.val ||| 32))
      let s := { s with mem := m }.touch size (endReads m pos)
      if isEnd m pos then
        match backtrack size fuel s pos with
        | .error err => .error err
        | .ok (.start s) => .ok s
        | .ok (.jump s pos) =>
          -- move along one
          let next := (pos + nextOffset s.mem pos) % 2 ^ 32
          let s := s.touch size [(pos + 90, 2), (next + 96, 8)]
          markLoop size hook fuel { s with mem := store s.mem (next + 96) 8 pos } next
      else
        let t := getTarget m pos
        let s := s.touch size [(t + 32, 4), (t + 2, 1)]
        let jump := isStandard m t && 0 ≤ verdict m t
        let s := if jump then s else s.touch size [(pos + 90, 2)]
        let newpos := if jump then (verdict m t).toNat else (pos + nextOffset m pos) % 2 ^ 32
        let s := s.touch size [(newpos + 96, 8)]
        markLoop size hook fuel { s with mem := store s.mem (newpos + 96) 8 pos } newpos

/-- `mark_source_chains`, for the hooks of a list. -/
def markSourceChains (size fuel : ℕ) (validHooks : Hook → Bool) (hookEntry : Hook → ℕ) :
    List Hook → Mark → Except Err Mark
  | [], s => .ok s
  | hook :: hooks, s =>
    if validHooks hook then
      let pos := hookEntry hook
      let s := s.touch size [(pos + 96, 8)]
      match markLoop size hook fuel { s with mem := store s.mem (pos + 96) 8 pos } pos with
      | .error err => .error err
      | .ok s => markSourceChains size fuel validHooks hookEntry hooks s
    else markSourceChains size fuel validHooks hookEntry hooks s

section Modules

variable {μ : Type u} {τ : Type v} {ω : Type w} [DecidableEq τ] (k : Modules μ τ ω)

/-- `IPT_MATCH_ITERATE(e, check_match, …)`, from the match at `i` on. -/
def checkMatches (e : ℕ) : ℕ → ℕ → Mem → Except Err Mem
  | 0, _, _ => .error .hang
  | fuel + 1, i, m =>
    if i < targetOffset m e then
      match k.findMatch (elemName m (e + i)) with
      | none => .error .enoent
      | some x =>
        let m := store m (e + i + 4) 4 (k.matchAddr x).toNat
        if k.checkMatch x m e (e + i) then checkMatches e fuel (i + elemSize m (e + i)) m
        else .error .einval
    else .ok m

def standardCheck (m : Mem) (t maxOffset : ℕ) : Bool :=
  elemSize m t = sizeofStandard && (verdict m t < 0 || verdict m t ≤ maxOffset - sizeofEntry) &&
    -5 ≤ verdict m t

/-- `check_entry`, with `ip_checkentry`. -/
def checkEntry (fuel size e : ℕ) (m : Mem) : Except Err Mem :=
  if (m (e + 82)).toNat > 1 ∨ (m (e + 83)).toNat > 0x7f then .error .einval
  else
    match checkMatches k e fuel sizeofEntry m with
    | .error err => .error err
    | .ok m =>
      let t := getTarget m e
      match k.findTarget (elemName m t) with
      | none => .error .enoent
      | some x =>
        let m := store m (t + 4) 4 (k.targetAddr x).toNat
        if x = k.standard then if standardCheck m t size then .ok m else .error .einval
        else if k.checkTarget x m e t then .ok m
        else .error .einval

/-- What user space hands over. -/
structure Replace where
  /-- The blob, and what comes after it in memory. -/
  mem : Mem
  size : ℕ
  size_lt : size < 2 ^ 32
  number : ℕ
  validHooks : Hook → Bool
  hookEntry : Hook → ℕ
  underflow : Hook → ℕ

/-- A table that has been accepted, and whether `mark_source_chains` has stayed inside of it. -/
structure Table where
  mem : Mem
  hookEntry : Hook → ℕ
  underflow : Hook → ℕ
  inside : Bool

def translateTable (fuel : ℕ) (r : Replace) : Except Err Table :=
  match entryIterate Info.mem r.size (checkEntrySizeAndHooks r.size r.hookEntry r.underflow) fuel 0
      ⟨r.mem, fun _ ↦ 0xffffffff, fun _ ↦ 0xffffffff, 0⟩ with
  | .error err => .error err
  | .ok info =>
    if info.number ≠ r.number then .error .einval
    else if ∃ h, r.validHooks h ∧
        (info.hookEntry h = 0xffffffff ∨ info.underflow h = 0xffffffff) then .error .einval
    else
      match markSourceChains r.size fuel r.validHooks info.hookEntry (List.finRange 5)
          ⟨info.mem, true⟩ with
      | .error err => .error err
      | .ok s =>
        match entryIterate id r.size (checkEntry k fuel r.size) fuel 0 s.mem with
        | .error err => .error err
        | .ok m => .ok ⟨m, info.hookEntry, info.underflow, s.inside⟩

/-! ## `ipt_do_table` -/

def fwinv (m : Mem) (e : ℕ) (b : Bool) (bit : ℕ) : Bool := b ^^ (m (e + 83)).toNat.testBit bit

/-- The device does not have the name, as far as the mask goes. -/
def ifaceDiffers (m : Mem) (iface mask : ℕ) (dev : Fin 16 → Byte) : Bool :=
  (List.finRange 16).any fun i ↦ (dev i ^^^ m (iface + i)) &&& m (mask + i) ≠ 0

def ipPacketMatch (m : Mem) (e : ℕ) (ip : IpHdr) (indev outdev : Fin 16 → Byte) (isfrag : Bool) :
    Bool :=
  let word := fun a ↦ BitVec.ofNat 32 (load m (e + a) 4)
  !(fwinv m e (ip.saddr &&& word 8 ≠ word 0) 3 || fwinv m e (ip.daddr &&& word 12 ≠ word 4) 4) &&
  !fwinv m e (ifaceDiffers m (e + 16) (e + 48) indev) 0 &&
  !fwinv m e (ifaceDiffers m (e + 32) (e + 64) outdev) 1 &&
  !(load m (e + 80) 2 ≠ 0 && fwinv m e (ip.protocol.toNat ≠ load m (e + 80) 2) 6) &&
  !fwinv m e ((m (e + 82)).toNat.testBit 0 && !isfrag) 5

/-- The call: the hook, the names of the devices, and whether the packet is a fragment other than
the first. -/
structure Call where
  hook : Hook
  indev : Fin 16 → Byte
  outdev : Fin 16 → Byte
  isfrag : Bool

/-- `IPT_MATCH_ITERATE(e, do_match, …)`, from the match at `i` on: whether all of them match, and
`hotdrop`.  There is no result if a pointer leads to no match, or if the loop does not end. -/
def doMatches (m : Mem) (e : ℕ) : ℕ → ℕ → Bool → ω → Option (Bool × Bool × ω)
  | 0, _, _, _ => none
  | fuel + 1, i, hotdrop, env =>
    if i < targetOffset m e then
      match k.matchAt (BitVec.ofNat 32 (elemPtr m (e + i))) with
      | none => none
      | some x =>
        let (matched, hot, env) := k.runMatch x (elemData m (e + i)) env
        if matched then doMatches m e fuel (i + elemSize m (e + i)) (hotdrop || hot) env
        else some (false, hotdrop || hot, env)
    else some (true, hotdrop, env)

/-- Where `ipt_do_table` is. -/
structure Walk (ω : Type w) where
  mem : Mem
  e : ℕ
  back : ℕ
  env : ω

/-- `while (!hotdrop)`, and what is returned. -/
def Walk.loop (hotdrop : Bool) (s : Walk ω) : Walk ω ⊕ ω × ℕ :=
  if hotdrop then .inr (s.env, nfDrop) else .inl s

def addCounter (m : Mem) (e b : ℕ) : Mem :=
  let m := store m (e + 104) 8 (bcnt m e + b)
  store m (e + 96) 8 (pcnt m e + 1)

/-- The round of a rule that the packet matches: the next round, or the verdict.  There is no result
if the pointer to the target leads nowhere. -/
def Walk.askTarget (call : Call) (hotdrop : Bool) (s : Walk ω) : Option (Walk ω ⊕ ω × ℕ) :=
  let m := addCounter s.mem s.e (k.ip s.env).totLen
  let s := { s with mem := m }
  let next := s.e + nextOffset m s.e
  let t := getTarget m s.e
  match k.targetAt (BitVec.ofNat 32 (elemPtr m t)) with
  | none => none
  | some x =>
    if x = k.standard then
      let v := verdict m t
      if v < 0 then
        if v ≠ iptReturn then some (.inr (s.env, if hotdrop then nfDrop else (-v - 1).toNat))
        else some (Walk.loop hotdrop { s with e := s.back, back := comefrom m s.back })
      else if v ≠ next then
        some (Walk.loop hotdrop
          { s with mem := store m (next + 92) 4 s.back, e := v.toNat, back := next })
      else some (Walk.loop hotdrop { s with e := v.toNat })
    else
      let (v, env) := k.runTarget x (elemData m t) call.hook s.env
      if v.toNat = iptContinue then some (Walk.loop hotdrop { s with e := next, env := env })
      else some (.inr (env, if hotdrop then nfDrop else v.toNat))

/-- One round of the loop of `ipt_do_table`. -/
def Walk.round (call : Call) (s : Walk ω) : Option (Walk ω ⊕ ω × ℕ) :=
  let s := { s with env := k.orNfcache s.env (load s.mem (s.e + 84) 4) }
  let next := s.e + nextOffset s.mem s.e
  if ipPacketMatch s.mem s.e (k.ip s.env) call.indev call.outdev call.isfrag then
    match doMatches k s.mem s.e (targetOffset s.mem s.e + 1) sizeofEntry false s.env with
    | none => none
    | some (false, hotdrop, env) => some (Walk.loop hotdrop { s with e := next, env := env })
    | some (true, hotdrop, env) => Walk.askTarget k call hotdrop { s with env := env }
  else some (.inl { s with e := next })

/-- The loop of `ipt_do_table`: the offsets it has been at, and the verdict when there is one. -/
def Walk.run (call : Call) : ℕ → Walk ω → List ℕ × Option (ω × ℕ)
  | 0, _ => ([], none)
  | fuel + 1, s =>
    match s.round k call with
    | none => ([s.e], none)
    | some (.inr x) => ([s.e], some x)
    | some (.inl t) =>
      let r := Walk.run call fuel t
      (s.e :: r.1, r.2)

def iptDoTable (fuel : ℕ) (table : Table) (call : Call) (env : ω) : List ℕ × Option (ω × ℕ) :=
  Walk.run k call fuel {
    mem := table.mem
    e := table.hookEntry call.hook
    back := table.underflow call.hook
    env := env }

end Modules

end Linux24.Ipt
