import Linux24.Lib.Interp

/-!
# The log of a journal

A journal is a ring of blocks, from `j_first` to `j_last`, on a device or in a file.  What is in it
is written a transaction at a time.  Three kinds of blocks have a header, which is a magic number,
the kind of block and the tid of the transaction:

* a **descriptor** block, whose tags say where in the filesystem the blocks that come after it
  belong;
* a **revoke** block, which names blocks that are not to be written back from anything logged so
  far;
* a **commit** block, with which a transaction ends.

The blocks that a descriptor describes have no header.  They are told from the others only by being
where the descriptor says they are, which is why `count_tags` and the loop that replays a descriptor
have to agree on how many there are.

Blocks are sequences of 32-bit words here, and a word is its value after `ntohl`: nothing in the log
is read or written in another unit.  A block is `j_blocksize` bytes long.  What a `Block` says of
words after that is what happens to be in memory there.

Tids are 32-bit numbers that wrap, and are compared by the sign of their difference.  There are
never so many transactions in a log that this goes wrong, since a transaction has at least one block
and a log has fewer than `2 ^ 31`: that is the field `last_lt` of a journal.  The length of a
journal on a device is given to `journal_init_dev` as an `int`, and `ext3_max_size` keeps a file
below that.
-/

set_option autoImplicit false

namespace Linux24.Jbd

/-- A word of a block, after `ntohl`. -/
abbrev Word := BitVec 32

/-- `tid_t`. -/
abbrev Tid := BitVec 32

/-- The words of a block. -/
abbrev Block := ℕ → Word

/-- The blocks of the filesystem. -/
abbrev Disk := Word → Block

def jfsMagicNumber : Word := 0xc03b3998#32

def jfsDescriptorBlock : Word := 1#32

def jfsCommitBlock : Word := 2#32

def jfsRevokeBlock : Word := 5#32

/-- `JFS_FLAG_ESCAPE`: the block began with the magic number. -/
def jfsFlagEscape : Word := 1#32

/-- `JFS_FLAG_SAME_UUID`: no uuid comes after the tag. -/
def jfsFlagSameUuid : Word := 2#32

def jfsFlagLastTag : Word := 8#32

/-- `-EIO` is returned for a block that cannot be read. -/
def eIo : ℤ := 5

/-! ## Tids -/

def tidGt (x y : Tid) : Bool := decide (0 < (x - y).toInt)

def tidGeq (x y : Tid) : Bool := decide (0 ≤ (x - y).toInt)

/-- The `i`-th tid after `t`. -/
def tidAdd (t : Tid) (i : ℕ) : Tid := t + BitVec.ofNat 32 i

@[simp]
theorem tidAdd_zero (t : Tid) : tidAdd t 0 = t := by simp [tidAdd]

theorem tidAdd_add (t : Tid) (i j : ℕ) : tidAdd (tidAdd t i) j = tidAdd t (i + j) := by
  rw [tidAdd, tidAdd, tidAdd, BitVec.ofNat_add, BitVec.add_assoc]

theorem tidAdd_succ (t : Tid) (i : ℕ) : tidAdd t i + 1 = tidAdd t (i + 1) :=
  tidAdd_add t i 1

theorem tidAdd_one_add (t : Tid) (i : ℕ) : tidAdd (t + 1) i = tidAdd t (i + 1) := by
  rw [add_comm i 1]
  exact tidAdd_add t 1 i

variable {t : Tid} {i j : ℕ}

/-- How far apart two tids are, if there are fewer than `2 ^ 31` between them. -/
theorem toInt_tidAdd_sub (hi : i < 2147483648) (hj : j < 2147483648) :
    (tidAdd t i - tidAdd t j).toInt = (i : ℤ) - j := by
  rw [tidAdd, tidAdd, add_sub_add_left_eq_sub, BitVec.toInt_sub, BitVec.toInt_ofNat',
    BitVec.toInt_ofNat', Int.sub_bmod_bmod, Int.bmod_sub_bmod, Int.bmod_eq_of_le] <;> omega

theorem tidGt_tidAdd (hi : i < 2147483648) (hj : j < 2147483648) :
    tidGt (tidAdd t i) (tidAdd t j) = decide (j < i) := by
  rw [tidGt, toInt_tidAdd_sub hi hj, decide_eq_decide]
  omega

theorem tidGeq_tidAdd (hi : i < 2147483648) (hj : j < 2147483648) :
    tidGeq (tidAdd t i) (tidAdd t j) = decide (j ≤ i) := by
  rw [tidGeq, toInt_tidAdd_sub hi hj, decide_eq_decide]
  omega

/-! ## Blocks -/

namespace Block

def hMagic (b : Block) : Word := b 0

def hBlocktype (b : Block) : Word := b 1

def hSequence (b : Block) : Word := b 2

/-- `r_count`: how many bytes of a revoke block are used, as the `int` it is read into. -/
def rCount (b : Block) : ℤ := (b 3).toInt

/-- The word at an offset in bytes. -/
def wordAt (b : Block) (offset : ℕ) : Word := b (offset / 4)

/-- The header of a block that belongs to a transaction. -/
structure IsHeader (b : Block) (blocktype : Word) (tid : Tid) : Prop where
  magic : b.hMagic = jfsMagicNumber
  blocktype : b.hBlocktype = blocktype
  sequence : b.hSequence = tid

end Block

/-- `journal_block_tag_t`. -/
structure Tag where
  /-- `t_blocknr`: where in the filesystem the block belongs. -/
  tBlocknr : Word
  tFlags : Word
deriving DecidableEq

namespace Tag

/-- `flags & flag`. -/
def has (tag : Tag) (flag : Word) : Bool := tag.tFlags &&& flag != 0

/-- Where the tag after this one is. -/
def next (tag : Tag) (tagp : ℕ) : ℕ :=
  tagp + 8 + if tag.has jfsFlagSameUuid then 0 else 16

end Tag

/-- The tag at an offset in bytes. -/
def Block.tagAt (b : Block) (tagp : ℕ) : Tag := ⟨b.wordAt tagp, b.wordAt (tagp + 4)⟩

/-- The loop of `count_tags`. -/
def countTagsLoop (bh : Block) (size : ℕ) : ℕ → ℕ → ℕ → ℕ
  | 0, _, nr => nr
  | fuel + 1, tagp, nr =>
    if tagp + 8 ≤ size then
      let tag := bh.tagAt tagp
      if tag.has jfsFlagLastTag then nr + 1
      else countTagsLoop bh size fuel (tag.next tagp) (nr + 1)
    else nr

/-- `count_tags`.  A tag has eight bytes, so that there are not as many rounds as the block has
bytes. -/
def countTags (bh : Block) (size : ℕ) : ℕ := countTagsLoop bh size size 12 0

/-- The tags of a descriptor block from an offset on. -/
def tagsFrom (bh : Block) (size : ℕ) : ℕ → ℕ → List Tag
  | 0, _ => []
  | fuel + 1, tagp =>
    if tagp + 8 ≤ size then
      let tag := bh.tagAt tagp
      tag :: if tag.has jfsFlagLastTag then [] else tagsFrom bh size fuel (tag.next tagp)
    else []

/-- The tags of a descriptor block. -/
def tags (bh : Block) (size : ℕ) : List Tag := tagsFrom bh size size 12

theorem countTagsLoop_eq (bh : Block) (size fuel tagp nr : ℕ) :
    countTagsLoop bh size fuel tagp nr = nr + (tagsFrom bh size fuel tagp).length := by
  induction fuel generalizing tagp nr with
  | zero => rfl
  | succ fuel ih =>
    rw [countTagsLoop, tagsFrom]
    split
    · dsimp only
      split
      · rfl
      · rw [ih, List.length_cons]
        omega
    · rfl

/-- **`count_tags` counts the tags.** -/
theorem countTags_eq (bh : Block) (size : ℕ) : countTags bh size = (tags bh size).length := by
  rw [countTags, countTagsLoop_eq, tags, zero_add]

/-! ## The ring -/

/-- What of `journal_t` does not change.  The hash function of the revoke table shifts by
`hash_shift - 12`, which is negative for the size that is used, so that nothing is said of it. -/
structure Journal where
  jBlocksize : ℕ
  jFirst : ℕ
  jLast : ℕ
  hashSize : ℕ
  hash : Word → Fin hashSize
  /-- `j_uuid`, as words. -/
  jUuid : ℕ → Word
  /-- `set_blocksize` does not do with less. -/
  blocksize_ge : 512 ≤ jBlocksize
  /-- `set_blocksize` does not do with more. -/
  blocksize_le : jBlocksize ≤ 4096
  /-- The size of a block is a power of two. -/
  blocksize_dvd : 4 ∣ jBlocksize
  /-- The superblock comes first. -/
  first_pos : 0 < jFirst
  first_lt : jFirst < jLast
  last_lt : jLast < 2147483648

namespace Journal

variable {J : Journal} {p : ℕ}

/-- How many blocks there are in the ring. -/
def size (J : Journal) : ℕ := J.jLast - J.jFirst

def wrap (J : Journal) (var : ℕ) : ℕ := if J.jLast ≤ var then var - (J.jLast - J.jFirst) else var

/-- The block after this one. -/
def next (J : Journal) (p : ℕ) : ℕ := J.wrap (p + 1)

/-- A place in the ring. -/
def InRing (J : Journal) (p : ℕ) : Prop := J.jFirst ≤ p ∧ p < J.jLast

theorem InRing.next (h : J.InRing p) : J.InRing (J.next p) := by
  have hlt := J.first_lt
  rw [InRing] at h ⊢
  rw [Journal.next, wrap]
  split <;> omega

theorem InRing.iterate (h : J.InRing p) (n : ℕ) : J.InRing (J.next^[n] p) := by
  induction n with
  | zero => exact h
  | succ n ih =>
    rw [Function.iterate_succ_apply']
    exact ih.next

/-- **Wrapping once is enough** for a jump that is not longer than the ring. -/
theorem InRing.wrap_add (h : J.InRing p) {n : ℕ} (hn : n ≤ J.size) :
    J.wrap (p + n) = J.next^[n] p := by
  induction n with
  | zero => exact if_neg (by rw [InRing] at h; omega)
  | succ n ih =>
    rw [Function.iterate_succ_apply', ← ih (by omega), Journal.next]
    rw [InRing] at h
    rw [size] at hn
    rw [wrap, wrap, wrap]
    split_ifs <;> omega

/-- Going round the ring, no place comes twice. -/
theorem InRing.iterate_injective (h : J.InRing p) {i j : ℕ} (hi : i < J.size) (hj : j < J.size)
    (heq : J.next^[i] p = J.next^[j] p) : i = j := by
  rw [← h.wrap_add hi.le, ← h.wrap_add hj.le, wrap, wrap] at heq
  rw [size] at hi hj
  split_ifs at heq <;> omega

theorem InRing.next_injective {q : ℕ} (hp : J.InRing p) (hq : J.InRing q) (n : ℕ)
    (heq : J.next^[n] p = J.next^[n] q) : p = q := by
  induction n generalizing p q with
  | zero => exact heq
  | succ n ih =>
    have hnext : J.next p = J.next q := ih hp.next hq.next heq
    rw [Journal.next, Journal.next, wrap, wrap] at hnext
    rw [InRing] at hp hq
    split_ifs at hnext <;> omega

/-- How far it is from one place of the ring to another. -/
def distance (J : Journal) (p q : ℕ) : ℕ := if q < p then q + (J.jLast - J.jFirst) - p else q - p

theorem InRing.distance_iterate (h : J.InRing p) {k : ℕ} (hk : k < J.size) :
    J.distance p (J.next^[k] p) = k := by
  rw [← h.wrap_add hk.le, distance, wrap]
  rw [size] at hk
  split_ifs <;> omega

end Journal

/-- What a read of a block of the log gives; `none` is an error. -/
abbrev Log := ℕ → Option Block

/-- The blocks are in the log, one after the other, from `p` on. -/
def Log.Holds (log : Log) (J : Journal) : ℕ → List Block → Prop
  | _, [] => True
  | p, b :: bs => log p = some b ∧ log.Holds J (J.next p) bs

theorem Log.holds_append {log : Log} {J : Journal} {p : ℕ} {as bs : List Block} :
    log.Holds J p (as ++ bs) ↔ log.Holds J p as ∧ log.Holds J (J.next^[as.length] p) bs := by
  induction as generalizing p with
  | nil => simp [Log.Holds]
  | cons a as ih =>
    rw [List.cons_append, Log.Holds, Log.Holds, ih, List.length_cons, Function.iterate_succ_apply,
      and_assoc]

/-- The blocks are written to the log, one after the other, from `p` on. -/
def Log.write (J : Journal) : Log → ℕ → List Block → Log
  | log, _, [] => log
  | log, p, b :: bs => Log.write J (Function.update log p (some b)) (J.next p) bs

section Write

variable {log log' : Log} {J : Journal} {p q : ℕ} {as bs : List Block}

theorem Log.Holds.congr (h : log.Holds J p bs)
    (heq : ∀ i < bs.length, log' (J.next^[i] p) = log (J.next^[i] p)) : log'.Holds J p bs := by
  induction bs generalizing p with
  | nil => trivial
  | cons b bs ih =>
    refine ⟨(heq 0 (Nat.succ_pos _)).trans h.1, ih h.2 fun i hi ↦ ?_⟩
    exact heq (i + 1) (Nat.succ_lt_succ hi)

theorem Log.write_of_ne (hne : ∀ i < bs.length, J.next^[i] p ≠ q) : log.write J p bs q = log q := by
  induction bs generalizing log p with
  | nil => rfl
  | cons b bs ih =>
    rw [Log.write, ih fun i hi ↦ hne (i + 1) (Nat.succ_lt_succ hi)]
    exact Function.update_of_ne (Ne.symm (hne 0 (Nat.succ_pos _))) _ _

theorem Log.write_holds (hp : J.InRing p) (hlen : bs.length ≤ J.size) :
    (log.write J p bs).Holds J p bs := by
  induction bs generalizing log p with
  | nil => trivial
  | cons b bs ih =>
    rw [List.length_cons] at hlen
    refine ⟨?_, ih hp.next (by omega)⟩
    rw [Log.write, Log.write_of_ne fun i hi heq ↦ ?_]
    · exact Function.update_self ..
    · have hzero : i + 1 = 0 := hp.iterate_injective (by omega) (by omega) heq
      omega

/-- What is written after blocks that are in the log leaves them as they are. -/
theorem Log.Holds.write (h : log.Holds J q as) (hq : J.InRing q) (hp : p = J.next^[as.length] q)
    (hlen : as.length + bs.length ≤ J.size) : (log.write J p bs).Holds J q as := by
  refine h.congr fun i hi ↦ Log.write_of_ne fun j hj heq ↦ ?_
  rw [hp, ← Function.iterate_add_apply] at heq
  have := hq.iterate_injective (by omega) (by omega) heq
  omega

end Write

end Linux24.Jbd
