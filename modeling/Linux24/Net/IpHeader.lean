import Mathlib

/-!
# IP headers as bytes

The header of a packet is the bytes at its front.  Fields of 16 bits are in network order, and
`get16` and `put16` are `ntohs` and `htons` with the access to memory.  The checksum is the one of
`asm-i386/checksum.h`: `ip_fast_csum` adds words of 32 bits as the machine finds them, low byte
first, each with the carry of the one before, and folds the sum in the end.
-/

set_option autoImplicit false

namespace Linux24.Ip

abbrev Byte := BitVec 8

section Fields

variable (l : List Byte) (i v : ℕ)

def byte : ℕ := (l.getD i 0).toNat

def get16 : ℕ := 256 * byte l i + byte l (i + 1)

def put16 : List Byte := (l.set i (BitVec.ofNat 8 (v / 256))).set (i + 1) (BitVec.ofNat 8 v)

/-- A word of 32 bits, low byte first. -/
def load32 : ℕ :=
  byte l i + 256 * byte l (i + 1) + 65536 * byte l (i + 2) + 16777216 * byte l (i + 3)

end Fields

/-- `iph->ihl * 4`. -/
def headerLen (l : List Byte) : ℕ := byte l 0 % 16 * 4

/-- `adcl`: the sum and the carry. -/
def adc (s : ℕ × ℕ) (w : ℕ) : ℕ × ℕ :=
  ((s.1 + w + s.2) % 2 ^ 32, (s.1 + w + s.2) / 2 ^ 32)

/-- The end of `ip_fast_csum`, from the sum with its carry on. -/
def foldSum (s : ℕ × ℕ) : ℕ :=
  let sum := (s.1 + s.2) % 2 ^ 32
  let half := sum / 2 ^ 16 + sum % 2 ^ 16
  2 ^ 16 - 1 - (half % 2 ^ 16 + half / 2 ^ 16)

def ipFastCsum (l : List Byte) (ihl : ℕ) : ℕ :=
  if ihl ≤ 4 then load32 l 0 % 2 ^ 16
  else foldSum (((List.range (ihl - 1)).map fun i ↦ load32 l (4 * (i + 1))).foldl adc
    (load32 l 0, 0))

/-- A field of 16 bits that is not in network order. -/
def putLow16 (l : List Byte) (i v : ℕ) : List Byte :=
  (l.set i (BitVec.ofNat 8 v)).set (i + 1) (BitVec.ofNat 8 (v / 256))

def ipSendCheck (l : List Byte) : List Byte :=
  let l := putLow16 l 10 0
  putLow16 l 10 (ipFastCsum l (byte l 0 % 16))

/-! ## Fields do not disturb each other -/

section Frame

variable {l : List Byte} {i j v : ℕ}

@[simp] theorem length_put16 : (put16 l i v).length = l.length := by simp [put16]

@[simp] theorem length_putLow16 : (putLow16 l i v).length = l.length := by simp [putLow16]

@[simp] theorem length_ipSendCheck : (ipSendCheck l).length = l.length := by simp [ipSendCheck]

theorem getD_set_of_ne {l : List Byte} {i j : ℕ} (b : Byte) (h : i ≠ j) :
    (l.set i b).getD j 0 = l.getD j 0 := by
  rw [List.getD_eq_getElem?_getD, List.getD_eq_getElem?_getD, List.getElem?_set_ne h]

theorem getD_set_self (b : Byte) (h : i < l.length) : (l.set i b).getD i 0 = b := by
  rw [List.getD_eq_getElem?_getD, List.getElem?_set_self h]
  rfl

theorem getD_put16 (h : j ≠ i) (h' : j ≠ i + 1) : (put16 l i v).getD j 0 = l.getD j 0 := by
  rw [put16, getD_set_of_ne _ h'.symm, getD_set_of_ne _ h.symm]

theorem getD_putLow16 (h : j ≠ i) (h' : j ≠ i + 1) : (putLow16 l i v).getD j 0 = l.getD j 0 := by
  rw [putLow16, getD_set_of_ne _ h'.symm, getD_set_of_ne _ h.symm]

theorem getD_ipSendCheck (h : j ≠ 10) (h' : j ≠ 11) : (ipSendCheck l).getD j 0 = l.getD j 0 := by
  rw [ipSendCheck, getD_putLow16 h h', getD_putLow16 h h']

theorem get16_put16 (h : i + 1 < l.length) (hv : v < 2 ^ 16) : get16 (put16 l i v) i = v := by
  have hlow : (put16 l i v).getD (i + 1) 0 = BitVec.ofNat 8 v := by
    rw [put16, getD_set_self _ (by simpa using h)]
  have hhigh : (put16 l i v).getD i 0 = BitVec.ofNat 8 (v / 256) := by
    rw [put16, getD_set_of_ne _ (by omega), getD_set_self _ (by omega)]
  rw [get16, byte, byte, hlow, hhigh, BitVec.toNat_ofNat, BitVec.toNat_ofNat]
  omega

theorem get16_congr {l' : List Byte} (h : l'.getD i 0 = l.getD i 0)
    (h' : l'.getD (i + 1) 0 = l.getD (i + 1) 0) : get16 l' i = get16 l i := by
  rw [get16, get16, byte, byte, byte, byte, h, h']

end Frame

theorem drop_put16 {l : List Byte} {i v n : ℕ} (h : i + 2 ≤ n) :
    (put16 l i v).drop n = l.drop n := by
  rw [put16, List.drop_set_of_lt (by omega), List.drop_set_of_lt (by omega)]

theorem drop_putLow16 {l : List Byte} {i v n : ℕ} (h : i + 2 ≤ n) :
    (putLow16 l i v).drop n = l.drop n := by
  rw [putLow16, List.drop_set_of_lt (by omega), List.drop_set_of_lt (by omega)]

theorem drop_ipSendCheck {l : List Byte} {n : ℕ} (h : 12 ≤ n) :
    (ipSendCheck l).drop n = l.drop n := by
  rw [ipSendCheck, drop_putLow16 h, drop_putLow16 h]

end Linux24.Ip
