import Linux24.Lib.Interp

/-!
# The packet filter: `net/core/filter.c`

A filter is a program that a user gives to a socket, and that the kernel runs on every packet that
comes in.  `sk_chk_filter` looks at the program once, before it is attached; `sk_run_filter`
interprets it.

The checker goes by the classes of the instructions, the interpreter by their exact codes, so both
read the same 16 bits and each has its own idea of them.  `Op` is the `case` labels of the
interpreter, and `decode` finds the one that a code stands for.

Memory is what is at the addresses, and an array of instructions is what is at its indices, also
where the packet or the array has ended: the C code can read there.  Each instruction says what it
has read, `Access`.  What has been read is looked at in other modules; the result does not depend on
it.

Addresses and registers have 32 bits, and `pc` is an `int`.
-/

set_option autoImplicit false

namespace Linux24.Net

abbrev Byte := BitVec 8

/-! ## Packets -/

/-- `struct sk_buff`.  The data is in one piece from `data` to `tail`, and then in fragments.  The
members of a `frag_list` count as the fragments they are made of. -/
structure SkBuff where
  /-- The memory of the kernel. -/
  memory : BitVec 32 → Byte
  head : BitVec 32
  data : BitVec 32
  tail : BitVec 32
  /-- `nh.raw`. -/
  nh : BitVec 32
  /-- `mac.raw`. -/
  mac : BitVec 32
  len : ℕ
  dataLen : ℕ
  /-- What is in the fragments. -/
  frags : List (List Byte)
  protocol : BitVec 16
  pktType : BitVec 8
  ifindex : BitVec 32
  head_pos : 0 < head.toNat
  head_le : head.toNat ≤ data.toNat
  tail_eq : tail.toNat + dataLen = data.toNat + len
  dataLen_le : dataLen ≤ len
  frags_length : frags.flatten.length = dataLen
  len_lt : len < 2 ^ 31

namespace SkBuff

variable (skb : SkBuff)

/-- `len - data_len`: how much of the packet is in one piece. -/
def headlen : ℕ := skb.len - skb.dataLen

/-- What is in memory from an address on. -/
def bytesAt (addr : BitVec 32) (n : ℕ) : List Byte :=
  (List.range n).map fun i ↦ skb.memory (addr + BitVec.ofNat 32 i)

/-- The loop over the fragments of `skb_copy_bits`. -/
def copyFrags : List (List Byte) → ℕ → ℕ → ℕ → Option (List Byte)
  | [], _, _, len => if len = 0 then some [] else none
  | frag :: frags, start, offset, len =>
    let stop := start + frag.length
    if offset < stop then
      let copy := if len < stop - offset then len else stop - offset
      let got := (frag.drop (offset - start)).take copy
      if len - copy = 0 then some got
      else (copyFrags frags stop (offset + copy) (len - copy)).map fun rest ↦ got ++ rest
    else copyFrags frags stop offset len

/-- `skb_copy_bits`, for an offset that is not negative. -/
def skbCopyBits (offset len : ℕ) : Option (List Byte) :=
  if (skb.len : ℤ) - len < offset then none
  else
    let start := skb.headlen
    if offset < start then
      let copy := if len < start - offset then len else start - offset
      let got := skb.bytesAt (skb.data + BitVec.ofNat 32 offset) copy
      if len - copy = 0 then some got
      else (copyFrags skb.frags start (offset + copy) (len - copy)).map fun rest ↦ got ++ rest
    else copyFrags skb.frags start offset len

end SkBuff

/-! ## Instructions -/

/-- `struct sock_filter`. -/
structure SockFilter where
  code : BitVec 16
  jt : BitVec 8
  jf : BitVec 8
  k : BitVec 32
deriving DecidableEq, Repr

/-- A program: the instructions, and how many there are.  What is at other indices is in memory
there. -/
structure Prog where
  insns : ℤ → SockFilter
  flen : ℕ

/-- Where the right-hand side of an operation comes from. -/
inductive Src
  | x
  | k
deriving DecidableEq, Repr

/-- The arithmetic operations. -/
inductive Alu
  | add
  | sub
  | mul
  | div
  | and
  | or
  | lsh
  | rsh
deriving DecidableEq, Repr

/-- The conditions of jumps. -/
inductive Cond
  | jgt
  | jge
  | jeq
  | jset
deriving DecidableEq, Repr

/-- How much is loaded. -/
inductive Width
  | w
  | h
  | b
deriving DecidableEq, Repr

/-- The `case` labels of `sk_run_filter`. -/
inductive Op
  | alu (f : Alu) (src : Src)
  | neg
  | ja
  | jump (c : Cond) (src : Src)
  | ldAbs (width : Width)
  | ldLen
  | ldxLen
  | ldInd (width : Width)
  | ldxMsh
  | ldImm
  | ldxImm
  | ldMem
  | ldxMem
  | tax
  | txa
  | retK
  | retA
  | st
  | stx
deriving DecidableEq, Repr

def bpfLd : BitVec 16 := 0x00
def bpfLdx : BitVec 16 := 0x01
def bpfSt : BitVec 16 := 0x02
def bpfStx : BitVec 16 := 0x03
def bpfAlu : BitVec 16 := 0x04
def bpfJmp : BitVec 16 := 0x05
def bpfRet : BitVec 16 := 0x06
def bpfMisc : BitVec 16 := 0x07

def bpfW : BitVec 16 := 0x00
def bpfH : BitVec 16 := 0x08
def bpfB : BitVec 16 := 0x10

def bpfImm : BitVec 16 := 0x00
def bpfAbs : BitVec 16 := 0x20
def bpfInd : BitVec 16 := 0x40
def bpfMem : BitVec 16 := 0x60
def bpfLen : BitVec 16 := 0x80
def bpfMsh : BitVec 16 := 0xa0

def bpfAdd : BitVec 16 := 0x00
def bpfSub : BitVec 16 := 0x10
def bpfMul : BitVec 16 := 0x20
def bpfDiv : BitVec 16 := 0x30
def bpfOr : BitVec 16 := 0x40
def bpfAnd : BitVec 16 := 0x50
def bpfLsh : BitVec 16 := 0x60
def bpfRsh : BitVec 16 := 0x70
def bpfNeg : BitVec 16 := 0x80
def bpfJa : BitVec 16 := 0x00
def bpfJeq : BitVec 16 := 0x10
def bpfJgt : BitVec 16 := 0x20
def bpfJge : BitVec 16 := 0x30
def bpfJset : BitVec 16 := 0x40

def bpfK : BitVec 16 := 0x00
def bpfX : BitVec 16 := 0x08
def bpfA : BitVec 16 := 0x10

def bpfTax : BitVec 16 := 0x00
def bpfTxa : BitVec 16 := 0x80

def bpfClass (code : BitVec 16) : BitVec 16 := code &&& 0x07
def bpfOp (code : BitVec 16) : BitVec 16 := code &&& 0xf0

def bpfMemwords : ℕ := 16

def Src.code : Src → BitVec 16
  | .x => bpfX
  | .k => bpfK

def Alu.code : Alu → BitVec 16
  | .add => bpfAdd
  | .sub => bpfSub
  | .mul => bpfMul
  | .div => bpfDiv
  | .and => bpfAnd
  | .or => bpfOr
  | .lsh => bpfLsh
  | .rsh => bpfRsh

def Cond.code : Cond → BitVec 16
  | .jgt => bpfJgt
  | .jge => bpfJge
  | .jeq => bpfJeq
  | .jset => bpfJset

def Width.code : Width → BitVec 16
  | .w => bpfW
  | .h => bpfH
  | .b => bpfB

/-- The code of each label. -/
def Op.code : Op → BitVec 16
  | .alu f src => bpfAlu ||| f.code ||| src.code
  | .neg => bpfAlu ||| bpfNeg
  | .ja => bpfJmp ||| bpfJa
  | .jump c src => bpfJmp ||| c.code ||| src.code
  | .ldAbs width => bpfLd ||| width.code ||| bpfAbs
  | .ldLen => bpfLd ||| bpfW ||| bpfLen
  | .ldxLen => bpfLdx ||| bpfW ||| bpfLen
  | .ldInd width => bpfLd ||| width.code ||| bpfInd
  | .ldxMsh => bpfLdx ||| bpfB ||| bpfMsh
  | .ldImm => bpfLd ||| bpfImm
  | .ldxImm => bpfLdx ||| bpfImm
  | .ldMem => bpfLd ||| bpfMem
  | .ldxMem => bpfLdx ||| bpfMem
  | .tax => bpfMisc ||| bpfTax
  | .txa => bpfMisc ||| bpfTxa
  | .retK => bpfRet ||| bpfK
  | .retA => bpfRet ||| bpfA
  | .st => bpfSt
  | .stx => bpfStx

/-- All labels, in the order of the source. -/
def Op.all : List Op :=
  [.alu .add .x, .alu .add .k, .alu .sub .x, .alu .sub .k, .alu .mul .x, .alu .mul .k, .alu .div .x,
    .alu .div .k, .alu .and .x, .alu .and .k, .alu .or .x, .alu .or .k, .alu .lsh .x, .alu .lsh .k,
    .alu .rsh .x, .alu .rsh .k, .neg, .ja, .jump .jgt .k, .jump .jge .k, .jump .jeq .k,
    .jump .jset .k, .jump .jgt .x, .jump .jge .x, .jump .jeq .x, .jump .jset .x, .ldAbs .w,
    .ldAbs .h, .ldAbs .b, .ldLen, .ldxLen, .ldInd .w, .ldInd .h, .ldInd .b, .ldxMsh, .ldImm,
    .ldxImm, .ldMem, .ldxMem, .tax, .txa, .retK, .retA, .st, .stx]

/-- The label that a code goes to, if there is one. -/
def decode (code : BitVec 16) : Option Op := Op.all.find? fun op ↦ decide (op.code = code)

theorem code_of_decode {code : BitVec 16} {op : Op} (h : decode code = some op) :
    op.code = code := by
  simpa using List.find?_some h

/-- No two labels have the same code, and none has been forgotten. -/
theorem decode_code (op : Op) : decode op.code = some op := by
  cases op with
  | alu f src => cases f <;> cases src <;> decide
  | jump c src => cases c <;> cases src <;> decide
  | ldAbs width | ldInd width => cases width <;> decide
  | _ => decide

/-! ## `sk_chk_filter` -/

/-- What `sk_chk_filter` refuses in an instruction. -/
def chkRefuses (P : Prog) (pc : ℕ) : Bool :=
  let ftest := P.insns pc
  (decide (bpfClass ftest.code = bpfJmp) &&
      if bpfOp ftest.code = bpfJa then decide (P.flen - pc - 1 ≤ ftest.k.toNat)
      else decide (P.flen ≤ pc + ftest.jt.toNat + 1) ||
        decide (P.flen ≤ pc + ftest.jf.toNat + 1)) ||
    (decide (bpfMemwords ≤ ftest.k.toNat) &&
      (decide (ftest.code = bpfSt) || decide (ftest.code = bpfStx) ||
        decide (ftest.code = bpfLd ||| bpfMem) || decide (ftest.code = bpfLdx ||| bpfMem)))

/-- The loop of `sk_chk_filter`: whether it comes to its end, and the indices it reads. -/
def chkLoop (P : Prog) : ℕ → ℕ → Bool × List ℤ
  | 0, _ => (true, [])
  | todo + 1, pc =>
    if chkRefuses P pc then (false, [(pc : ℤ)])
    else
      let (ok, reads) := chkLoop P todo (pc + 1)
      (ok, (pc : ℤ) :: reads)

def eInval : ℤ := 22

/-- `sk_chk_filter`, with the indices it reads. -/
def skChkFilter (P : Prog) : ℤ × List ℤ :=
  if 4294967295 / 8 ≤ P.flen then (-eInval, [])
  else
    match chkLoop P P.flen 0 with
    | (false, reads) => (-eInval, reads)
    | (true, reads) =>
      (if bpfClass (P.insns (P.flen - 1)).code = bpfRet then 0 else -eInval,
        reads ++ [(P.flen : ℤ) - 1])

/-- `sk_chk_filter` returns 0. -/
def Prog.Accepted (P : Prog) : Prop := (skChkFilter P).1 = 0

instance (P : Prog) : Decidable P.Accepted := inferInstanceAs (Decidable (_ = _))

/-! ## `sk_run_filter` -/

/-- What an instruction accesses besides the registers. -/
inductive Access
  /-- A word of `mem`. -/
  | scratch (i : ℕ)
  /-- So many bytes at an address. -/
  | memory (addr : BitVec 32) (n : ℕ)
  /-- So many bytes of the packet, with `skb_copy_bits`. -/
  | bits (offset n : ℕ)
deriving DecidableEq, Repr

/-- The variables of `sk_run_filter`. -/
structure FilterState where
  pc : BitVec 32
  A : BitVec 32
  X : BitVec 32
  mem : ℕ → BitVec 32

/-- How `sk_run_filter` comes to its end. -/
inductive Result
  | ret (v : BitVec 32)
  /-- It has run off the end of the program, and returns 0. -/
  | off
deriving DecidableEq, Repr

/-- What an instruction does, and what it accesses. -/
structure Effect where
  next : FilterState ⊕ Result
  accesses : List Access

/-- An arithmetic operation.  There is no quotient by 0, and shifts take their count modulo 32, as
the i386 does. -/
def Alu.eval (a v : BitVec 32) : Alu → Option (BitVec 32)
  | .add => some (a + v)
  | .sub => some (a - v)
  | .mul => some (a * v)
  | .div => if v = 0 then none else some (a / v)
  | .and => some (a &&& v)
  | .or => some (a ||| v)
  | .lsh => some (a <<< (v.toNat % 32))
  | .rsh => some (a >>> (v.toNat % 32))

/-- A condition. -/
def Cond.test (a v : BitVec 32) : Cond → Bool
  | .jgt => decide (v < a)
  | .jge => decide (v ≤ a)
  | .jeq => decide (a = v)
  | .jset => decide (a &&& v ≠ 0)

/-- The right-hand side of an operation. -/
def Src.value (fentry : SockFilter) (s : FilterState) : Src → BitVec 32
  | .x => s.X
  | .k => fentry.k

def Width.size : Width → ℕ
  | .w => 4
  | .h => 2
  | .b => 1

/-- `ntohl`, `ntohs` and a byte by itself: the first byte is the most significant one. -/
def ntoh (bytes : List Byte) : BitVec 32 :=
  bytes.foldl (fun a b ↦ a <<< 8 ||| b.setWidth 32) 0

def htons (v : BitVec 16) : BitVec 32 := ((v <<< 8) ||| (v >>> 8)).setWidth 32

def skfAdOff : ℤ := -0x1000
def skfNetOff : ℤ := -0x100000
def skfLlOff : ℤ := -0x200000

namespace SkBuff

variable (skb : SkBuff)

/-- The variable `ptr` of `load_pointer`, for a negative offset. -/
def ptr (k : ℤ) : BitVec 32 :=
  if skfNetOff ≤ k then skb.nh + BitVec.ofInt 32 (k - skfNetOff)
  else if skfLlOff ≤ k then skb.mac + BitVec.ofInt 32 (k - skfLlOff)
  else 0

def loadPointer (k : ℤ) : Option (BitVec 32) :=
  if skb.head ≤ skb.ptr k ∧ skb.ptr k < skb.tail then some (skb.ptr k) else none

/-- The ancillary data. -/
def ancillary (k : ℤ) : Option (BitVec 32) :=
  if k - skfAdOff = 0 then some (htons skb.protocol)
  else if k - skfAdOff = 4 then some (skb.pktType.setWidth 32)
  else if k - skfAdOff = 8 then some skb.ifindex
  else none

/-- `load_w`, `load_h` and `load_b`: what is loaded, or nothing if the filter returns 0, and what is
read. -/
def load (width : Width) (k : ℤ) : Option (BitVec 32) × List Access :=
  let n := width.size
  if 0 ≤ k ∧ k + n ≤ skb.headlen then
    let addr := skb.data + BitVec.ofInt 32 k
    (some (ntoh (skb.bytesAt addr n)), [.memory addr n])
  else if k < 0 then
    if skfAdOff ≤ k then (skb.ancillary k, [])
    else
      match skb.loadPointer k with
      | some ptr => (some (ntoh (skb.bytesAt ptr n)), [.memory ptr n])
      | none => (none, [])
  else
    match skb.skbCopyBits k.toNat n with
    | some bytes => (some (ntoh bytes), [.bits k.toNat n])
    | none => (none, [])

/-- `BPF_LDX|BPF_B|BPF_MSH`. -/
def loadMsh (k : ℤ) : Option (BitVec 32) × List Access :=
  if 0 ≤ k ∧ (skb.headlen : ℤ) ≤ k then (none, [])
  else
    let addr := skb.data + BitVec.ofInt 32 k
    (some (((skb.memory addr).setWidth 32 &&& 0xf) <<< 2), [.memory addr 1])

end SkBuff

namespace FilterState

/-- `continue`. -/
def goOn (s : FilterState) : FilterState ⊕ Result := .inl { s with pc := s.pc + 1 }

/-- A value for `A`, or the filter returns 0. -/
def setA (s : FilterState) : Option (BitVec 32) → FilterState ⊕ Result
  | some a => { s with A := a }.goOn
  | none => .inr (.ret 0)

/-- A value for `X`, or the filter returns 0. -/
def setX (s : FilterState) : Option (BitVec 32) → FilterState ⊕ Result
  | some x => { s with X := x }.goOn
  | none => .inr (.ret 0)

end FilterState

/-- The body of the loop of `sk_run_filter`. -/
def exec (skb : SkBuff) (fentry : SockFilter) (s : FilterState) : Op → Effect
  | .alu f src => ⟨s.setA (f.eval s.A (src.value fentry s)), []⟩
  | .neg => ⟨s.setA (some (-s.A)), []⟩
  | .ja => ⟨{ s with pc := s.pc + fentry.k }.goOn, []⟩
  | .jump c src =>
    let off := if c.test s.A (src.value fentry s) then fentry.jt else fentry.jf
    ⟨{ s with pc := s.pc + off.setWidth 32 }.goOn, []⟩
  | .ldAbs width =>
    let (a, reads) := skb.load width fentry.k.toInt
    ⟨s.setA a, reads⟩
  | .ldLen => ⟨s.setA (some (BitVec.ofNat 32 skb.headlen)), []⟩
  | .ldxLen => ⟨s.setX (some (BitVec.ofNat 32 skb.headlen)), []⟩
  | .ldInd width =>
    let (a, reads) := skb.load width (s.X + fentry.k).toInt
    ⟨s.setA a, reads⟩
  | .ldxMsh =>
    let (x, reads) := skb.loadMsh fentry.k.toInt
    ⟨s.setX x, reads⟩
  | .ldImm => ⟨s.setA (some fentry.k), []⟩
  | .ldxImm => ⟨s.setX (some fentry.k), []⟩
  | .ldMem => ⟨s.setA (some (s.mem fentry.k.toNat)), [.scratch fentry.k.toNat]⟩
  | .ldxMem => ⟨s.setX (some (s.mem fentry.k.toNat)), [.scratch fentry.k.toNat]⟩
  | .tax => ⟨s.setX (some s.A), []⟩
  | .txa => ⟨s.setA (some s.X), []⟩
  | .retK => ⟨.inr (.ret fentry.k), []⟩
  | .retA => ⟨.inr (.ret s.A), []⟩
  | .st => ⟨{ s with mem := Function.update s.mem fentry.k.toNat s.A }.goOn,
      [.scratch fentry.k.toNat]⟩
  | .stx => ⟨{ s with mem := Function.update s.mem fentry.k.toNat s.X }.goOn,
      [.scratch fentry.k.toNat]⟩

namespace Prog

variable (P : Prog) (skb : SkBuff) (s : FilterState)

/-- The instruction that `pc` points to. -/
def fentry : SockFilter := P.insns s.pc.toInt

/-- One round of the loop of `sk_run_filter`.  An invalid instruction counts as a return. -/
def effect : Effect :=
  if (P.flen : ℤ) ≤ s.pc.toInt then ⟨.inr .off, []⟩
  else
    match decode (P.fentry s).code with
    | some op => exec skb (P.fentry s) s op
    | none => ⟨.inr (.ret 0), []⟩

/-- What comes after. -/
def step : FilterState ⊕ Result := (P.effect skb s).next

/-- What is accessed. -/
def accesses : List Access := (P.effect skb s).accesses

end Prog

/-- The variables of `sk_run_filter` at its start, with what is on the stack where `mem` is. -/
def FilterState.start (mem : ℕ → BitVec 32) : FilterState := ⟨0, 0, 0, mem⟩

/-- `sk_run_filter`, up to `n` instructions. -/
def skRunFilter (skb : SkBuff) (P : Prog) (mem : ℕ → BitVec 32) (n : ℕ) : Option Result :=
  Interp.run (P.step skb) n (.start mem)

/-- The states that `sk_run_filter` comes through in its first `n` instructions. -/
def visited (skb : SkBuff) (P : Prog) (mem : ℕ → BitVec 32) (n : ℕ) : List FilterState :=
  Interp.visited (P.step skb) n (.start mem)

end Linux24.Net
