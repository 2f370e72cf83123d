import Linux24.Net.FragRuns

/-!
# Reassembly is exact

The fragments of one datagram arrive, in any order, with overlaps and more than once, and nothing
goes wrong.  `Piece` says what a fragment of the datagram is, and `Ipq.Fed` what a queue is that has
been fed with some: every fragment in it is a part of the datagram, a byte is in one of them just if
it was in one of the packets, and `LAST_IN` is set just if one of the packets went up to the end.

No fragment of a datagram is refused because of its bounds, so the one thing that can happen to a
packet on its way into the queue is that all of it is there already.  And the queue is complete as
soon as the packets cover the datagram: that byte `0` is there says `FIRST_IN`, that the last one is
there says `LAST_IN`, and that they all are says `meat == len`.
-/

set_option autoImplicit false

universe u

namespace Linux24.Frag

open Intervals List

/-- What comes after the header. -/
def Packet.payload (p : Packet) : List Byte := p.bytes.drop p.ihlen

/-- The packet is a fragment of a datagram with the payload `D`.  A packet that is at offset `0` and
has `MF` clear is not a fragment; that it may be given to `ip_defrag` all the same is of no harm if
it has a payload. -/
structure Piece (D : List Byte) (p : Packet) : Prop where
  header : p.ihlen ≤ p.bytes.length
  slice : p.payload = (D.drop p.offset).take p.payload.length
  inside : p.offset + p.payload.length ≤ D.length
  last : p.mf = false ↔ p.offset + p.payload.length = D.length
  aligned : p.mf = true → 8 ∣ p.payload.length
  fragment : p.mf = true ∨ p.offset ≠ 0 ∨ p.payload ≠ []
  /-- The header of the datagram is that of its first fragment. -/
  fits : p.offset = 0 → p.ihlen + D.length ≤ 65535

/-- The packets have all of the payload. -/
def Complete (D : List Byte) (ps : List Packet) : Prop :=
  ∀ x < D.length, ∃ p ∈ ps, p.offset ≤ x ∧ x < p.offset + p.payload.length

/-- No call fails. -/
structure Env.Fine (env : Env) : Prop where
  alloc : env.alloc = true
  pullHeader : env.pullHeader = true
  trim : env.trim = true
  pullFront : env.pullFront = true
  pullNext : env.pullNext = true
  expandHead : env.expandHead = true
  frags : env.frags ≠ some none

/-- The fragment has a part of the payload. -/
structure Skb.Carries (D : List Byte) (f : Skb) : Prop where
  slice : f.data = (D.drop f.offset).take f.data.length
  inside : f.stop ≤ D.length
  header : f.offset = 0 → f.pulled.length = f.ihl.toNat * 4 ∧ f.ihl.toNat * 4 + D.length ≤ 65535

theorem Skb.Carries.cut {D : List Byte} {f : Skb} {i : ℕ} (h : f.Carries D) (hpos : 0 < i)
    (hi : i ≤ f.data.length) : (f.cut i).Carries D where
  slice := by
    conv_lhs => rw [Skb.cut, h.slice]
    rw [drop_take, drop_drop, Skb.cut_length, Skb.cut_offset]
  inside := (Skb.cut_stop hi).trans_le h.inside
  header h0 := absurd h0 (by rw [Skb.cut_offset]; omega)

namespace Ipq

variable {D : List Byte} {ps : List Packet} {qp : Ipq} {env : Env} {p : Packet}

/-- The queue has been fed with the packets. -/
structure Fed (D : List Byte) (ps : List Packet) (qp : Ipq) : Prop where
  carries : ∀ f ∈ qp.fragments, f.Carries D
  holds : ∀ x, Holds qp.fragments x ↔ ∃ p ∈ ps, p.offset ≤ x ∧ x < p.offset + p.payload.length
  len_le : qp.len ≤ D.length
  len_eq : qp.lastIn → qp.len = D.length
  lastIn : ∀ p ∈ ps, p.mf = false → qp.lastIn

/-- **The queue is found complete just if the packets have everything.** -/
theorem Fed.full_iff (h : Fed D ps qp) (hok : qp.Ok) (hps : ∀ p ∈ ps, Piece D p)
    (hne : D ≠ []) : qp.Full ↔ Complete D ps := by
  have hlen : 0 < D.length := length_pos_of_ne_nil hne
  constructor
  · rintro ⟨-, hlast, hmeat⟩ x hx
    have hwhole := hok.row.tiles_iff_covers.1 (hok.whole_iff.2 hmeat)
    refine (h.holds x).1 (hwhole x zero_le ?_)
    rw [h.len_eq hlast]
    exact hx
  · intro hall
    obtain ⟨p, hp, -, hlt⟩ := hall (D.length - 1) (by omega)
    have hpiece := hps p hp
    have hlast := h.lastIn p hp (hpiece.last.2 (by have := hpiece.inside; omega))
    obtain ⟨f, hf, hf0, -⟩ := (h.holds 0).2 (hall 0 hlen)
    refine ⟨hok.firstIn f hf (Nat.le_zero.1 hf0), hlast, hok.whole_iff.1 ?_⟩
    refine hok.row.tiles_iff_covers.2 fun x _ hx ↦ (h.holds x).2 (hall x ?_)
    rwa [← h.len_eq hlast]

/-- **What is put together is the payload.** -/
theorem Fed.reasm (h : Fed D ps qp) (hok : qp.Ok) (hfull : qp.Full) (henv : env.Fine) {mem mem' : ℤ}
    {qp' : Ipq} {ret : Option Datagram} (hr : qp.ipFragReasm env mem = .ok (qp', mem', ret)) :
    ∃ d, ret = some d ∧ d.payload = D := by
  obtain ⟨hwhole, head, rest, hf, h0⟩ := hok.whole hfull
  have hlen := h.len_eq hfull.2.1
  have hhead := (h.carries head (hf ▸ mem_cons_self)).header h0
  have hdata : (qp.fragments.map Skb.data).flatten = D := by
    rw [Whole, hlen] at hwhole
    refine hwhole.flatten (fun f hf ↦ (hok.row.of_mem hf).2.1.le) fun f hf ↦ ?_
    rw [Skb.stop, Nat.add_sub_cancel_left]
    exact (h.carries f hf).slice
  rw [hf, map_cons, flatten_cons] at hdata
  simp only [ipFragReasm, ipqKill_fragments, ipqKill_len, hf, h0, henv.expandHead] at hr
  rw [if_neg (by simp), if_neg (by omega)] at hr
  cases hs : splitHead env.frags head rest mem with
  | none =>
    refine absurd ?_ henv.frags
    unfold splitHead at hs
    split at hs
    · cases hs
    · assumption
    · cases hs
  | some q =>
    obtain ⟨-, hihl, hpulled, hsplit⟩ := splitHead_eq_some hs
    simp only [hs] at hr
    obtain ⟨-, -, rfl⟩ := hr
    refine ⟨_, rfl, ?_⟩
    rw [Datagram.payload, append_assoc, hsplit, hdata, hpulled, hihl, ← hhead.1, drop_left]

/-! ## A packet is put into the queue -/

/-- The bounds of a fragment of the datagram are always accepted. -/
theorem Fed.setBounds (h : Fed D ps qp) (hp : Piece D p) : ∃ n last,
    qp.setBounds p = some ({ qp with len := n, lastIn := last },
      ((p.offset + p.payload.length : ℕ) : ℤ)) ∧
    n ≤ D.length ∧ (last → n = D.length) ∧ (p.mf = false → last) ∧ (qp.lastIn → last) ∧
    qp.len ≤ n ∧ p.offset + p.payload.length ≤ n := by
  have hstop : p.stop = ((p.offset + p.payload.length : ℕ) : ℤ) := by
    have hheader := hp.header
    simp only [Packet.stop, Packet.payload, length_drop]
    omega
  have hin := hp.inside
  have hle := h.len_le
  have heq := h.len_eq
  unfold Ipq.setBounds
  cases hmf : p.mf with
  | true =>
    obtain ⟨c, hc⟩ := hp.aligned hmf
    have hoff : p.offset = (p.fragOff &&& 0x1fff).toNat * 8 := rfl
    rw [hstop]
    simp only [if_true]
    rw [show ((p.offset + p.payload.length : ℕ) : ℤ) / 8 * 8 =
      ((p.offset + p.payload.length : ℕ) : ℤ) by omega]
    split
    · rename_i hlt
      have hlast : ¬ qp.lastIn = true := fun hlast ↦ by
        have := heq hlast
        omega
      rw [if_neg hlast]
      exact ⟨p.offset + p.payload.length, qp.lastIn, rfl, hin, fun h ↦ absurd h hlast, by simp,
        id, by omega, le_rfl⟩
    · exact ⟨qp.len, qp.lastIn, rfl, hle, heq, by simp, id, le_rfl, by omega⟩
  | false =>
    have hend := hp.last.1 hmf
    rw [if_neg (by simp), if_neg]
    · exact ⟨D.length, true, by rw [hstop, hend]; rfl, le_rfl, fun _ ↦ rfl, fun _ ↦ rfl,
        fun _ ↦ rfl, hle, hin⟩
    · rintro (hlt | ⟨hlast, hne⟩)
      · omega
      · have := heq hlast
        omega

/-- The packet without its header. -/
def fragment (p : Packet) : Skb where
  ihl := p.ihl
  pulled := p.bytes.take p.ihlen
  data := p.payload
  offset := p.offset
  truesize := p.truesize

theorem carries_fragment (hp : Piece D p) : (fragment p).Carries D where
  slice := hp.slice
  inside := hp.inside
  header h0 := by
    refine ⟨?_, hp.fits h0⟩
    rw [fragment, length_take, min_eq_left hp.header, Packet.ihlen]

/-- The first half of `ip_frag_queue`, for a fragment of the datagram. -/
theorem Fed.accept (h : Fed D ps qp) (hp : Piece D p) (henv : env.Fine) :
    ∃ qp', qp.accept env p = (qp', if p.payload = [] then none else some (fragment p)) ∧
      Fed D ps qp' ∧ (p.mf = false → qp'.lastIn) ∧ qp'.fragments = qp.fragments := by
  obtain ⟨n, last, hb, hn, hlast, hmf, hold, -, -⟩ := h.setBounds hp
  refine ⟨{ qp with len := n, lastIn := last }, ?_, ?_, hmf, rfl⟩
  · unfold Ipq.accept
    simp only [hb]
    by_cases hnil : p.payload = []
    · simp [hnil]
    · have hlen : 0 < p.payload.length := length_pos_of_ne_nil hnil
      rw [if_neg (by omega), if_neg hnil, henv.pullHeader, pskbPull_true hp.header]
      simp only [pskbTrim]
      rw [if_neg]
      · rfl
      · change ¬ _ < p.payload.length
        omega
  · exact ⟨h.carries, h.holds, hn, hlast, fun q hq hqmf ↦ hold (h.lastIn q hq hqmf)⟩

end Ipq

/-- The new fragment is not put into the queue if the one before it has all of it. -/
theorem cutFront_eq_none {prev : Option Skb} {skb : Skb} (h : cutFront true prev skb = none) :
    ∃ q ∈ prev, skb.stop ≤ q.stop := by
  cases prev with
  | none => exact absurd h (by simp [cutFront])
  | some q =>
    simp only [cutFront] at h
    split at h
    · split at h
      · exact ⟨q, rfl, by omega⟩
      · rename_i hlt hin
        rw [pskbPull_true (by rw [Skb.stop] at hin; omega)] at h
        cases h
    · cases h

theorem Skb.cut_zero (skb : Skb) : skb.cut 0 = skb := by simp [Skb.cut]

namespace Ipq

variable {D : List Byte} {ps : List Packet} {qp : Ipq} {env : Env} {p : Packet} {skb : Skb}
  {mem : ℤ}

/-- What is in the list afterwards was there, or is the new fragment, or is what was cut off. -/
theorem link_forall {P : Skb → Prop} (hP : ∀ f ∈ qp.fragments, P f) (hskb : P skb)
    (hcut : ∀ f i, P f → 0 < i → i < f.data.length → P (f.cut i)) :
    ∀ f ∈ (qp.link env mem skb).1.fragments, P f := by
  unfold link
  dsimp only
  have hprev : ∀ f ∈ qp.fragments.takeWhile fun f ↦ f.offset < skb.offset, P f := fun f hf ↦
    hP f ((takeWhile_sublist _).subset hf)
  have hnext : ∀ f ∈ qp.fragments.dropWhile fun f ↦ f.offset < skb.offset, P f := fun f hf ↦
    hP f ((dropWhile_sublist _).subset hf)
  split
  · exact hP
  · rename_i skb' hfront
    obtain ⟨i, rfl, hi, -, -⟩ := cutFront_eq_some hfront
    have hnew : P (skb.cut i) := by
      rcases Nat.eq_zero_or_pos i with rfl | hpos
      · rwa [Skb.cut_zero]
      · exact hcut skb i hskb hpos (hi.resolve_left hpos.ne')
    have hrest := eatNext_forall env.pullNext (skb.cut i).stop qp.meat mem hnext hcut
    split
    · exact forall_mem_append.2 ⟨hprev, forall_mem_cons.2 ⟨hnew, hrest⟩⟩
    · exact forall_mem_append.2 ⟨hprev, hrest⟩

/-- **If no call fails, the queue has what it had and what is new.** -/
theorem link_holds (hok : qp.Ok) (henv : env.Fine) (hpos : 0 < skb.data.length) (x : ℕ) :
    Holds (qp.link env mem skb).1.fragments x ↔
      Holds qp.fragments x ∨ (skb.offset ≤ x ∧ x < skb.stop) := by
  have hrow := hok.row
  have hbefore : ∀ f ∈ qp.fragments.takeWhile fun f ↦ f.offset < skb.offset,
      f.offset < skb.offset := fun f hf ↦ by simpa using mem_takeWhile_imp hf
  have hafter : ∀ f ∈ qp.fragments.dropWhile fun f ↦ f.offset < skb.offset,
      skb.offset ≤ f.offset := fun f hf ↦ hrow.le_of_mem_dropWhile hf
  have hsplit : qp.fragments.takeWhile (fun f ↦ f.offset < skb.offset) ++
      qp.fragments.dropWhile (fun f ↦ f.offset < skb.offset) = qp.fragments :=
    takeWhile_append_dropWhile
  unfold link
  generalize qp.fragments.takeWhile (fun f ↦ f.offset < skb.offset) = prev at *
  generalize qp.fragments.dropWhile (fun f ↦ f.offset < skb.offset) = next at *
  rw [← hsplit] at hrow ⊢
  have hcross := (pairwise_append.1 hrow.pairwise).2.2
  dsimp only
  split
  · rename_i hfront
    rw [henv.pullFront] at hfront
    obtain ⟨q, hq, hstop⟩ := cutFront_eq_none hfront
    have hmem := mem_of_getLast? hq
    rw [hsplit]
    refine (or_iff_left_of_imp fun hx ↦ ?_).symm
    refine ⟨q, hsplit ▸ mem_append_left next hmem, ?_, by omega⟩
    exact (hbefore q hmem).le.trans hx.1
  · rename_i skb' hfront
    obtain ⟨i, rfl, hi, hge, heq⟩ := cutFront_eq_some hfront
    have hstop : (skb.cut i).stop = skb.stop := Skb.cut_stop (by omega)
    have hgap : skb.offset ≤ x → x < skb.offset + i → Holds prev x := by
      intro hy hyi
      obtain ⟨q, hq, hqs⟩ := heq (by omega)
      have hmem := mem_of_getLast? hq
      exact ⟨q, hmem, (hbefore q hmem).le.trans hy, hqs ▸ hyi⟩
    have hclear : ∀ g ∈ next, skb.offset + i ≤ g.offset := by
      intro g hg
      rcases Nat.eq_zero_or_pos i with rfl | hipos
      · exact hafter g hg
      · obtain ⟨q, hq, hqs⟩ := heq hipos
        exact hqs.ge.trans (hcross q (mem_of_getLast? hq) g hg)
    obtain ⟨m, -, hnext⟩ := laid_append.1 hrow
    have hrest := (eatNext_spec env.pullNext (skb.cut i).stop qp.meat mem hnext).2.2.2
    have hkeep : ∀ y, (skb.cut i).stop ≤ y → _ := fun y hy ↦
      eatNext_holds (l := next) qp.meat mem hy
    have hokr := (hkeep _ le_rfl).1
    rw [henv.pullNext] at hrest ⊢
    generalize eatNext true (skb.cut i).stop next qp.meat mem = r at *
    rw [hstop] at hrest hkeep
    have hleft : Covers Skb.offset Skb.stop r.next x ↔ Holds next x ∧ skb.stop ≤ x := by
      rcases lt_or_ge x skb.stop with hx | hx
      · refine iff_of_false ?_ fun h ↦ not_lt.2 h.2 hx
        rintro ⟨f, hf, hfx, -⟩
        exact absurd (hrest hokr f hf) (by omega)
      · exact (hkeep x hx).2.trans (and_iff_left hx).symm
    have hbehind : Holds next x → skb.offset + i ≤ x :=
      fun ⟨f, hf, hfx, _⟩ ↦ (hclear f hf).trans hfx
    rw [if_pos hokr, Holds, Holds, covers_append, covers_append, covers_cons, Skb.cut_offset]
    grind

theorem link_bounds (qp : Ipq) (env : Env) (mem : ℤ) (skb : Skb) :
    (qp.link env mem skb).1.len = qp.len ∧ (qp.link env mem skb).1.lastIn = qp.lastIn := by
  unfold link
  dsimp only
  split
  · exact ⟨rfl, rfl⟩
  · split <;> exact ⟨rfl, rfl⟩

/-- **A fragment of the datagram arrives.** -/
theorem Fed.queue (h : Fed D ps qp) (hheld : qp.Held) (hp : Piece D p) (henv : env.Fine) (mem : ℤ) :
    Fed D (ps ++ [p]) (qp.ipFragQueue env mem p).1 := by
  obtain ⟨qp', hacc, hfed, hlast, -⟩ := h.accept hp henv
  have hok : qp'.Ok := by
    have hok := (accept_spec env p hheld.ok).1
    rwa [hacc] at hok
  rw [ipFragQueue, hheld.complete, if_neg (by simp), hacc]
  have hlast' : ∀ q ∈ ps ++ [p], q.mf = false → qp'.lastIn := by
    intro q hq
    rcases mem_append.1 hq with hq | hq
    · exact hfed.lastIn q hq
    · rw [mem_singleton.1 hq]
      exact hlast
  by_cases hnil : p.payload = []
  · rw [if_pos hnil]
    refine ⟨hfed.carries, fun x ↦ ?_, hfed.len_le, hfed.len_eq, hlast'⟩
    rw [hfed.holds x]
    simp only [mem_append, mem_singleton, or_and_right, exists_or, exists_eq_left, hnil, length_nil]
    exact (or_iff_left_of_imp fun hx ↦ absurd hx (by omega)).symm
  · rw [if_neg hnil]
    have hpos : 0 < (fragment p).data.length := length_pos_of_ne_nil hnil
    obtain ⟨hlen, hin⟩ := link_bounds qp' env mem (fragment p)
    refine ⟨link_forall hfed.carries (carries_fragment hp) fun f i hf hi hlt ↦ hf.cut hi hlt.le,
      fun x ↦ ?_, hlen ▸ hfed.len_le, fun h ↦ ?_, fun q hq hqmf ↦ hin ▸ hlast' q hq hqmf⟩
    · rw [link_holds hok henv hpos, hfed.holds x]
      simp only [mem_append, mem_singleton, or_and_right, exists_or, exists_eq_left]
      exact Iff.rfl
    · rw [hin] at h
      exact hlen.trans (hfed.len_eq h)

theorem Fed.create : Fed D [] ipFragCreate where
  carries := by simp [ipFragCreate, ipFragIntern]
  holds x := by simp [ipFragCreate, ipFragIntern]
  len_le := zero_le
  len_eq := by simp [ipFragCreate, ipFragIntern]
  lastIn := by simp

/-- The queue depends on the fragments, `len` and `LAST_IN` only. -/
theorem Fed.congr {qp' : Ipq} (h : Fed D ps qp) (hf : qp'.fragments = qp.fragments)
    (hl : qp'.len = qp.len) (hi : qp'.lastIn = qp.lastIn) : Fed D ps qp' where
  carries := hf ▸ h.carries
  holds := hf ▸ h.holds
  len_le := hl ▸ h.len_le
  len_eq := by rw [hl, hi]; exact h.len_eq
  lastIn := by rw [hi]; exact h.lastIn

end Ipq

/-! ## Runs -/

variable {κ : Type u} [DecidableEq κ] (sizeofIpq : ℕ)

/-- The queues, and the packets that have arrived for one of them since it was created. -/
structure Session (κ : Type u) where
  world : World κ
  received : List Packet

namespace Session

/-- The packets for the queue `k` are fragments of a datagram, and no call fails for them; the queue
is not evicted, and its timer does not go off.  With the other queues everything may happen. -/
def Legal (D : List Byte) (k : κ) (s : Session κ) (a : Action κ) : Prop :=
  s.world.Legal a ∧
    match a with
    | .defrag env j p => j = k → env.Fine ∧ Piece D p
    | .evict j => j ≠ k
    | .expire j => j ≠ k

/-- The packets that have arrived for the queue, after a step that leaves the queue as given. -/
def receive (k : κ) (s : Session κ) (a : Action κ) (qp : Option Ipq) : List Packet :=
  match qp, a with
  | none, _ => []
  | some _, .defrag _ j p => if j = k then s.received ++ [p] else s.received
  | some _, _ => s.received

def exec (k : κ) (s : Session κ) (a : Action κ) : Except Trap (Session κ) :=
  (s.world.exec sizeofIpq a).map fun w ↦ ⟨w, s.receive k a (w.queues k)⟩

/-- The runs in which the datagram `D` arrives at the queue `k`. -/
def machine (m₀ : ℤ) (D : List Byte) (k : κ) : Machine (Session κ) (Action κ) Trap where
  init s := s = ⟨World.start κ m₀, []⟩
  legal := Legal D k
  exec := exec sizeofIpq k

/-- What holds between two steps. -/
structure Ok (m₀ : ℤ) (D : List Byte) (k : κ) (s : Session κ) : Prop where
  world : s.world.Ok sizeofIpq m₀
  pieces : ∀ p ∈ s.received, Piece D p
  absent : s.world.queues k = none → s.received = []
  fed : ∀ qp, s.world.queues k = some qp → qp.Fed D s.received

variable {sizeofIpq} {m₀ : ℤ} {D : List Byte} {k : κ} {s : Session κ}

omit [DecidableEq κ] in
/-- Before a packet is put into the queue, the queue has been fed with those before it. -/
theorem Ok.find (h : s.Ok sizeofIpq m₀ D k) {env : Env} (henv : env.Fine) :
    ∃ qp mem, s.world.ipFind sizeofIpq env k = some (qp, mem) ∧ qp.Held ∧ qp.Fed D s.received := by
  cases hq : s.world.queues k with
  | none =>
    refine ⟨_, _, by rw [World.ipFind, hq]; simp only [henv.alloc, if_true]; rfl, .create, ?_⟩
    rw [h.absent hq]
    exact .create
  | some qp =>
    exact ⟨_, _, by rw [World.ipFind, hq], (h.world.live k qp hq).held,
      (h.fed qp hq).congr rfl rfl rfl⟩

/-- **A fragment of the datagram arrives**: either the queue has been fed with it, too, or the
datagram is complete, and it is returned. -/
theorem Ok.defrag (h : s.Ok sizeofIpq m₀ D k) {env : Env} (henv : env.Fine) {p : Packet}
    (hp : Piece D p) : ∃ w' ret, s.world.ipDefrag sizeofIpq env k p = .ok (w', ret) ∧
      ((¬ Complete D (s.received ++ [p]) ∧ ret = none ∧
        ∃ qp, w'.queues k = some qp ∧ qp.Fed D (s.received ++ [p])) ∨
      (Complete D (s.received ++ [p]) ∧ w'.queues k = none ∧
        ∃ d, ret = some d ∧ d.payload = D)) := by
  obtain ⟨qp, mem, hfind, hheld, hfed⟩ := h.find henv
  obtain ⟨hpart, hwhole⟩ := World.ipDefrag_found hheld p hfind
  have hheld' := hheld.queue env mem p
  have hfed' := hfed.queue hheld hp henv mem
  have hpieces : ∀ q ∈ s.received ++ [p], Piece D q := by
    intro q hq
    rcases mem_append.1 hq with hq | hq
    · exact h.pieces q hq
    · exact mem_singleton.1 hq ▸ hp
  have hne : D ≠ [] := by
    rintro rfl
    have hin := hp.inside
    have hlast := hp.last
    simp only [length_nil, Nat.le_zero, Nat.add_eq_zero_iff, length_eq_zero_iff] at hin
    rcases hp.fragment with hmf | h0 | hnil
    · rw [hlast.2 (by simp [hin])] at hmf
      cases hmf
    · exact h0 hin.1
    · exact hnil hin.2
  have hfull := hfed'.full_iff hheld'.ok hpieces hne
  by_cases hc : (qp.ipFragQueue env mem p).1.Full
  · obtain ⟨qp', mem', ret, hreasm, -, hdefrag⟩ := hwhole hc
    refine ⟨_, _, hdefrag, Or.inr ⟨hfull.1 hc, Function.update_self k none s.world.queues, ?_⟩⟩
    exact hfed'.reasm hheld'.ok hc henv hreasm
  · refine ⟨_, _, hpart hc, Or.inl ⟨fun hcomplete ↦ hc (hfull.2 hcomplete), rfl, _,
      Function.update_self k _ s.world.queues, hfed'.congr rfl rfl rfl⟩⟩

/-- A step that is about another queue. -/
theorem Ok.other (h : s.Ok sizeofIpq m₀ D k) {a : Action κ} (hk : a.key ≠ k) {w' : World κ}
    (hok : w'.Ok sizeofIpq m₀) (hframe : w'.queues k = s.world.queues k) :
    Ok sizeofIpq m₀ D k ⟨w', s.receive k a (w'.queues k)⟩ := by
  cases hq : s.world.queues k with
  | none =>
    rw [hframe, hq]
    exact ⟨hok, by simp [receive], fun _ ↦ rfl, fun qp hqp ↦
      absurd (hqp.symm.trans (hframe.trans hq)) (by simp)⟩
  | some qp =>
    have hreceive : s.receive k a (some qp) = s.received := by
      cases a with
      | defrag env j p => exact if_neg hk
      | evict j | expire j => rfl
    rw [hframe, hq, hreceive]
    exact ⟨hok, h.pieces, fun hnone ↦ absurd (hnone.symm.trans (hframe.trans hq)) (by simp),
      fun qp' hqp ↦ h.fed qp' (hframe ▸ hqp)⟩

/-- **One step.** -/
theorem Ok.step (h : s.Ok sizeofIpq m₀ D k) {a : Action κ} (hl : Legal D k s a) {t : Session κ}
    (he : exec sizeofIpq k s a = .ok t) : t.Ok sizeofIpq m₀ D k := by
  obtain ⟨w', hw', hok, hframe⟩ := h.world.step hl.1
  rw [exec, hw'] at he
  obtain rfl : (⟨w', s.receive k a (w'.queues k)⟩ : Session κ) = t := Except.ok.inj he
  by_cases hk : a.key = k
  · cases a with
    | defrag env j p =>
      obtain rfl : j = k := hk
      obtain ⟨henv, hp⟩ := hl.2 rfl
      obtain ⟨w'', ret, hdefrag, hcase⟩ := h.defrag henv hp
      rw [World.exec, hdefrag] at hw'
      cases hw'
      rcases hcase with ⟨-, -, qp, hq, hfed⟩ | ⟨-, hq, -⟩
      · have hreceive : s.receive j (.defrag env j p) (some qp) = s.received ++ [p] := if_pos rfl
        rw [hq, hreceive]
        refine ⟨hok, fun q hq ↦ ?_, fun hnone ↦ absurd (hnone.symm.trans hq) (by simp),
          fun qp' hqp ↦ ?_⟩
        · rcases mem_append.1 hq with hq | hq
          · exact h.pieces q hq
          · exact mem_singleton.1 hq ▸ hp
        · cases hq.symm.trans hqp
          exact hfed
      · rw [hq]
        exact ⟨hok, by simp [receive], fun _ ↦ rfl, fun qp hqp ↦
          absurd (hq.symm.trans hqp) (by simp)⟩
    | evict j | expire j => exact absurd hk hl.2
  · exact h.other hk hok (hframe k (Ne.symm hk))

theorem Ok.reachable (hs : (machine sizeofIpq m₀ D k).Reachable s) : s.Ok sizeofIpq m₀ D k := by
  refine hs.invariant ?_ fun s a t hs hl he ↦ hs.step hl he
  rintro s rfl
  exact ⟨.start, by simp, fun _ ↦ rfl, fun qp hqp ↦ absurd hqp (by simp [World.start])⟩

/-- **Reassembly is exact.**  In every run in which only fragments of the datagram arrive for the
queue, in any order, with overlaps and duplicates, no call fails for them and the queue neither
times out nor is evicted: the next fragment makes `ip_defrag` return a datagram just if the
fragments that have arrived since the queue was created cover the payload, and what is returned has
this payload. -/
theorem defrag_exact (hs : (machine sizeofIpq m₀ D k).Reachable s) {env : Env} (henv : env.Fine)
    {p : Packet} (hp : Piece D p) :
    ∃ w' ret, s.world.ipDefrag sizeofIpq env k p = .ok (w', ret) ∧
      (ret.isSome ↔ Complete D (s.received ++ [p])) ∧ ∀ d, ret = some d → d.payload = D := by
  obtain ⟨w', ret, hdefrag, hcase⟩ := (Ok.reachable hs).defrag henv hp
  refine ⟨w', ret, hdefrag, ?_⟩
  rcases hcase with ⟨hnot, rfl, -⟩ | ⟨hall, -, d, rfl, hd⟩
  · exact ⟨by simp [hnot], by simp⟩
  · refine ⟨by simp [hall], ?_⟩
    rintro _ ⟨⟩
    exact hd

/-- The last sixteen bytes of twenty-four arrive before the first sixteen. -/
theorem defrag_exact_overlap : ∃ s : Session Unit,
    (machine 64 0 payload24 ()).Reachable s ∧ s.received = [Packet.back] ∧
    ∃ w' d, s.world.ipDefrag 64 Env.fine () Packet.front = .ok (w', some d) ∧
      d.payload = payload24 := by
  have hfine : Env.fine.Fine := ⟨rfl, rfl, rfl, rfl, rfl, rfl, by simp [Env.fine]⟩
  have hback : Piece payload24 Packet.back := by constructor <;> decide
  have hfront : Piece payload24 Packet.front := by constructor <;> decide
  have hinit : (machine 64 0 payload24 ()).Reachable ⟨World.start Unit 0, []⟩ := .init rfl
  have hs := hinit.step (a := .defrag Env.fine () Packet.back)
    (by exact ⟨trivial, fun _ ↦ ⟨hfine, hback⟩⟩) rfl
  refine ⟨_, hs, rfl, ?_⟩
  obtain ⟨w', ret, hdefrag, hsome, hpayload⟩ := defrag_exact hs hfine hfront
  obtain ⟨d, rfl⟩ := Option.isSome_iff_exists.1 (hsome.2 (by
    change ∀ x < payload24.length, ∃ p ∈ [Packet.back, Packet.front], _
    decide))
  exact ⟨w', d, hdefrag, hpayload d rfl⟩

end Session

end Linux24.Frag
