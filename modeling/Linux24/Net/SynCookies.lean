import Mathlib

/-!
# SYN cookies

A server that has no room for half-open connections does not keep anything about them.  What it
needs to know when the handshake is completed is in the sequence number that it has sent, the
cookie: a hash of the connection, the minute in which it was sent, in the upper 8 bits, and in the
lower 24 bits an index into a table of segment sizes, hidden by a second hash, of the connection and
the minute.

`HASH_TRANSFORM` is a parameter here, of which nothing is assumed.  The secrets are drawn when the
first cookie is made, and they stay as they are from then on (`foldl_request_of_init`).

There is room for 8 bits of the counter of minutes only, so the difference of two counters is known
modulo 256 (`diff_eq`).  If it is less than `maxdiff`, and the counters really are that close, then
`check_tcp_syn_cookie` finds the counter of the cookie, and with it the second hash and the data
(`check_cookie`).
-/

set_option autoImplicit false

namespace Linux24.SynCookies

open Function

abbrev Word := BitVec 32

/-- `HASH_TRANSFORM`: the digest, from the digest before it and 16 words of data. -/
abbrev Transform := (Fin 5 → Word) → (Fin 16 → Word) → Fin 5 → Word

/-- `syncookie_secret` and `syncookie_init`. -/
structure State where
  secret : Fin 2 → Fin 18 → Word
  init : Bool

/-- A connection. -/
structure Tuple where
  saddr : Word
  daddr : Word
  sport : BitVec 16
  dport : BitVec 16

def cookieMask : Word := (1 <<< 24) - 1

/-- `tmp`, without the words that are for `HASH_TRANSFORM` alone. -/
def fill (secret : Fin 18 → Word) (t : Tuple) (i : Fin 21) : Word :=
  if i = 0 then t.saddr
  else if i = 1 then t.daddr
  else if i = 2 then (t.sport.setWidth 32 <<< 16) + t.dport.setWidth 32
  else secret ⟨i - 3, by omega⟩

/-- `tmp[17]` after `HASH_TRANSFORM(tmp+16, tmp)`. -/
def hash (f : Transform) (tmp : Fin 21 → Word) : Word :=
  f (fun i ↦ tmp ⟨16 + i, by omega⟩) (fun i ↦ tmp ⟨i, by omega⟩) ⟨1, by omega⟩

/-- `secure_tcp_syn_cookie`; `random` is what `get_random_bytes` gives. -/
def secureTcpSynCookie (f : Transform) (random : Fin 2 → Fin 18 → Word) (s : State) (t : Tuple)
    (sseq count data : Word) : Word × State :=
  let s := if s.init then s else ⟨random, true⟩
  let seq := hash f (fill (s.secret 0) t) + sseq + (count <<< 24)
  (seq + ((hash f (update (fill (s.secret 1) t) 3 count) + data) &&& cookieMask), s)

def checkTcpSynCookie (f : Transform) (s : State) (cookie : Word) (t : Tuple)
    (sseq count maxdiff : Word) : Word :=
  if s.init then
    let cookie := cookie - (hash f (fill (s.secret 0) t) + sseq)
    let diff := (count - (cookie >>> 24)) &&& ((-1 : Word) >>> 24)
    if maxdiff ≤ diff then -1
    else
      (cookie - hash f (update (fill (s.secret 1) t) 3 (count - diff))) &&& cookieMask
  else -1

def msstab : List ℕ := [63, 255, 511, 535, 1023, 1439, 1459, 4311, 65535]

def numMss : ℕ := 8

/-- `for (mssind = 0; mss > msstab[mssind + 1]; mssind++)`, over what follows in the table. -/
def mssIndex (mss : ℕ) : List ℕ → ℕ
  | [] => 0
  | size :: rest => if mss > size then mssIndex mss rest + 1 else 0

/-- `cookie_v4_init_sequence`: the cookie, and what `*mssp` becomes. -/
def cookieV4InitSequence (f : Transform) (random : Fin 2 → Fin 18 → Word) (s : State) (t : Tuple)
    (seq count : Word) (mss : BitVec 16) : (Word × ℕ) × State :=
  let mssind := mssIndex mss.toNat msstab.tail
  let r := secureTcpSynCookie f random s t seq count (BitVec.ofNat 32 mssind)
  ((r.1, msstab.getD mssind 0 + 1), r.2)

def counterTries : Word := 4

/-- `cookie_check`, for the acknowledgement with the sequence number `seq`. -/
def cookieCheck (f : Transform) (s : State) (t : Tuple) (seq cookie count : Word) : ℕ :=
  let mssind := checkTcpSynCookie f s cookie t (seq - 1) count counterTries
  if mssind.toNat < numMss then msstab.getD mssind.toNat 0 + 1 else 0

/-! ## Fields of a word -/

theorem toNat_and_cookieMask (x : Word) : (x &&& cookieMask).toNat = x.toNat % 2 ^ 24 := by
  rw [BitVec.toNat_and, show cookieMask.toNat = 2 ^ 24 - 1 by decide,
    Nat.and_two_pow_sub_one_eq_mod]

theorem toNat_and_byte (x : Word) : (x &&& ((-1 : Word) >>> 24)).toNat = x.toNat % 256 := by
  rw [BitVec.toNat_and, show ((-1 : Word) >>> 24).toNat = 2 ^ 8 - 1 by decide,
    Nat.and_two_pow_sub_one_eq_mod]

/-- **The low part does not carry** into the counter. -/
theorem toNat_join (count low : Word) (hlow : low.toNat < 2 ^ 24) :
    ((count <<< 24) + low).toNat = count.toNat % 256 * 2 ^ 24 + low.toNat := by
  have hshift : (count <<< 24).toNat = count.toNat % 256 * 2 ^ 24 := by
    rw [BitVec.toNat_shiftLeft]
    omega
  rw [BitVec.toNat_add]
  omega

/-- **The wrapped difference** of the counters. -/
theorem diff_eq (count count' low : Word) (hlow : low.toNat < 2 ^ 24) :
    ((count' - (((count <<< 24) + low) >>> 24)) &&& ((-1 : Word) >>> 24)).toNat =
      (count' - count).toNat % 256 := by
  have hfield : (((count <<< 24) + low) >>> 24).toNat = count.toNat % 256 := by
    rw [BitVec.toNat_ushiftRight, toNat_join count low hlow]
    omega
  rw [toNat_and_byte, BitVec.toNat_sub, BitVec.toNat_sub]
  omega

/-! ## Cookies -/

/-- A cookie is asked for. -/
structure Request where
  tuple : Tuple
  sseq : Word
  count : Word
  data : Word
  random : Fin 2 → Fin 18 → Word

/-- The state after a request. -/
def State.request (f : Transform) (s : State) (r : Request) : State :=
  (secureTcpSynCookie f r.random s r.tuple r.sseq r.count r.data).2

/-- The cookie for a request. -/
def State.cookie (f : Transform) (s : State) (r : Request) : Word :=
  (secureTcpSynCookie f r.random s r.tuple r.sseq r.count r.data).1

section Cookies

variable (f : Transform) (s : State) (r : Request)

theorem request_init : (s.request f r).init = true := by
  rw [State.request, secureTcpSynCookie]
  split
  · assumption
  · rfl

theorem request_of_init (h : s.init = true) : s.request f r = s := by
  rw [State.request, secureTcpSynCookie, if_pos h]

/-- **The secrets are drawn once**, and other cookies may be made in between. -/
theorem foldl_request_of_init (h : s.init = true) (l : List Request) :
    l.foldl (State.request f) s = s := by
  induction l with
  | nil => rfl
  | cons r l ih => rw [List.foldl_cons, request_of_init f s r h, ih]

/-- The cookie, with the secrets that there are when it has been made. -/
theorem cookie_eq : s.cookie f r = hash f (fill ((s.request f r).secret 0) r.tuple) + r.sseq +
    (r.count <<< 24) + ((hash f (update (fill ((s.request f r).secret 1) r.tuple) 3
      r.count) + r.data) &&& cookieMask) := rfl

variable {f s r}

/-- What is left of the cookie when the first hash and the sequence number are taken away. -/
theorem cookie_strip : s.cookie f r - (hash f (fill ((s.request f r).secret 0) r.tuple) + r.sseq) =
    (r.count <<< 24) + ((hash f (update (fill ((s.request f r).secret 1) r.tuple) 3
      r.count) + r.data) &&& cookieMask) := by
  rw [cookie_eq, BitVec.add_assoc (_ + r.sseq), BitVec.add_comm (_ + r.sseq), BitVec.add_sub_cancel]

/-- The counter of the cookie is found again if the other one is close to it. -/
theorem sub_diff_eq {count count' diff : Word} (hdiff : diff.toNat = (count' - count).toNat % 256)
    (hclose : (count' - count).toNat < 256) : count' - diff = count := by
  have heq : diff = count' - count := BitVec.eq_of_toNat_eq (by omega)
  rw [heq]
  abel

/-- The second hash is taken away from the low part. -/
theorem sub_and_cookieMask (count h data : Word) (hdata : data.toNat < 2 ^ 24) :
    ((count <<< 24) + ((h + data) &&& cookieMask) - h) &&& cookieMask = data := by
  have hlow : ((h + data) &&& cookieMask).toNat = (h + data).toNat % 2 ^ 24 :=
    toNat_and_cookieMask _
  refine BitVec.eq_of_toNat_eq ?_
  rw [toNat_and_cookieMask, BitVec.toNat_sub, toNat_join count _ (by omega), hlow, BitVec.toNat_add]
  omega

/-- What comes out of the check, with the secrets that the cookie was made with. -/
theorem checkTcpSynCookie_cookie (f : Transform) (s : State) (r : Request)
    (hdata : r.data.toNat < 8) (count maxdiff : Word) {result : Word}
    (hresult : checkTcpSynCookie f (s.request f r) (s.cookie f r) r.tuple r.sseq count maxdiff =
      result) :
    ((count - r.count).toNat % 256 < maxdiff.toNat → (count - r.count).toNat < 256 →
      result = r.data) ∧
    (maxdiff.toNat ≤ (count - r.count).toNat % 256 → result = -1) ∧
    ((count - r.count).toNat % 256 < maxdiff.toNat → result ≤ cookieMask) := by
  rw [checkTcpSynCookie, if_pos (request_init f s r)] at hresult
  dsimp only at hresult
  rw [cookie_strip] at hresult
  generalize hlow : (hash f (update (fill ((s.request f r).secret 1) r.tuple) 3 r.count) +
    r.data) &&& cookieMask = low at hresult
  have hlow_lt : low.toNat < 2 ^ 24 := by
    rw [← hlow, toNat_and_cookieMask]
    exact Nat.mod_lt _ (by norm_num)
  have hdiff := diff_eq r.count count low hlow_lt
  refine ⟨fun hlt hclose ↦ ?_, fun hge ↦ ?_, fun hlt ↦ ?_⟩
  · rw [if_neg (by rw [BitVec.le_def]; omega), sub_diff_eq hdiff hclose, ← hlow,
      sub_and_cookieMask _ _ _ (by omega)] at hresult
    exact hresult.symm
  · rw [if_pos (by rw [BitVec.le_def]; omega)] at hresult
    exact hresult.symm
  · rw [if_neg (by rw [BitVec.le_def]; omega)] at hresult
    rw [← hresult, BitVec.le_def, toNat_and_cookieMask,
      show cookieMask.toNat = 2 ^ 24 - 1 by decide]
    omega

/-- **SYN cookies verify.**  A cookie is made at the counter `r.count`, other cookies may be made,
and then it is checked at the counter `count`. -/
theorem check_cookie (f : Transform) (s : State) (r : Request) (hdata : r.data.toNat < 8)
    (l : List Request) (count maxdiff : Word) :
    let result := checkTcpSynCookie f ((r :: l).foldl (State.request f) s) (s.cookie f r) r.tuple
      r.sseq count maxdiff
    ((count - r.count).toNat % 256 < maxdiff.toNat → (count - r.count).toNat < 256 →
      result = r.data) ∧
    (maxdiff.toNat ≤ (count - r.count).toNat % 256 → result = -1) ∧
    ((count - r.count).toNat % 256 < maxdiff.toNat → result ≤ cookieMask) := by
  refine checkTcpSynCookie_cookie f s r hdata count maxdiff ?_
  rw [List.foldl_cons, foldl_request_of_init f (s.request f r) (request_init f s r) l]

/-- A cookie made at the last value of the counter, and checked two minutes later. -/
theorem check_cookie_wrap : checkTcpSynCookie (fun d _ ↦ d)
    ([⟨⟨1, 2, 3, 4⟩, 5, -1, 6, fun _ _ ↦ 7⟩].foldl (State.request fun d _ ↦ d)
      ⟨fun _ _ ↦ 0, false⟩)
    (State.cookie (fun d _ ↦ d) ⟨fun _ _ ↦ 0, false⟩ ⟨⟨1, 2, 3, 4⟩, 5, -1, 6, fun _ _ ↦ 7⟩)
    ⟨1, 2, 3, 4⟩ 5 1 4 = 6 :=
  (check_cookie (fun d _ ↦ d) ⟨fun _ _ ↦ 0, false⟩ ⟨⟨1, 2, 3, 4⟩, 5, -1, 6, fun _ _ ↦ 7⟩
    (by decide) [] 1 4).1 (by decide) (by decide)

end Cookies

/-! ## Segment sizes -/

/-- The search does not leave the table. -/
theorem mssIndex_lt (mss : BitVec 16) : mssIndex mss.toNat msstab.tail < numMss := by
  simp only [msstab, List.tail_cons, mssIndex, numMss]
  split_ifs <;> omega

/-- **The segment size comes back** within four minutes: what `cookie_check` gives for the
acknowledgement of the cookie is what `*mssp` was set to. -/
theorem cookieCheck_initSequence (f : Transform) (random : Fin 2 → Fin 18 → Word) (s : State)
    (t : Tuple) (seq count count' : Word) (mss : BitVec 16) (hclose : (count' - count).toNat < 4) :
    let r := cookieV4InitSequence f random s t seq count mss
    cookieCheck f r.2 t (seq + 1) r.1.1 count' = r.1.2 := by
  have hlt := mssIndex_lt mss
  rw [numMss] at hlt
  have hind : (BitVec.ofNat 32 (mssIndex mss.toNat msstab.tail)).toNat =
      mssIndex mss.toNat msstab.tail := by
    rw [BitVec.toNat_ofNat, Nat.mod_eq_of_lt (by omega)]
  obtain ⟨hcheck, -, -⟩ := checkTcpSynCookie_cookie f s
    ⟨t, seq, count, BitVec.ofNat 32 (mssIndex mss.toNat msstab.tail), random⟩
    (hind.symm ▸ hlt) count' counterTries rfl
  intro r
  have hr : checkTcpSynCookie f r.2 r.1.1 t seq count' counterTries =
      BitVec.ofNat 32 (mssIndex mss.toNat msstab.tail) :=
    hcheck (by change (count' - count).toNat % 256 < 4; omega)
      (by change (count' - count).toNat < 256; omega)
  have hmss : r.1.2 = msstab.getD (mssIndex mss.toNat msstab.tail) 0 + 1 := rfl
  have hseq : seq + 1 - 1 = seq := BitVec.add_sub_cancel seq 1
  rw [cookieCheck, hseq, hr, hind]
  exact if_pos hlt

/-- An acknowledgement after three minutes. -/
theorem cookieCheck_initSequence_three : let f : Transform := fun d _ ↦ d
    let r := cookieV4InitSequence f (fun _ _ ↦ 7) ⟨fun _ _ ↦ 0, false⟩ ⟨1, 2, 3, 4⟩ 5 9 1460
    cookieCheck f r.2 ⟨1, 2, 3, 4⟩ (5 + 1) r.1.1 12 = r.1.2 :=
  cookieCheck_initSequence _ _ _ _ 5 9 12 1460 (by decide)

end Linux24.SynCookies
