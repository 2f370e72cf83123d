import Linux24.Lib.Tally
import Linux24.Net.FragQueue

/-!
# Runs of the reassembly code

Packets arrive, for any queue and with any of the calls failing, queues are evicted, and their
timers go off.  Between two of these steps a queue in the table is `Ipq.Live`: it is in order, and
it has two references, the table's and the timer's.  So what takes it out of the table takes these
two away, and the `ipq_put` at the end destroys it; no queue stays behind.  And `ip_frag_mem` is
what it was in the beginning and what the queues in the table count for.
-/

set_option autoImplicit false

universe u

namespace Linux24.Frag

open Finset Function

/-! ## References -/

namespace Ipq

/-- A queue in the table between two calls. -/
structure Live (qp : Ipq) : Prop where
  ok : qp.Ok
  complete : qp.complete = false
  refcnt : qp.refcnt = 2
  timer : qp.timer = true

/-- A queue in the table during a call, which has a reference, too. -/
structure Held (qp : Ipq) : Prop where
  ok : qp.Ok
  complete : qp.complete = false
  refcnt : qp.refcnt = 3
  timer : qp.timer = true

/-- A queue that only the call has a reference to. -/
structure Killed (qp : Ipq) : Prop where
  complete : qp.complete = true
  refcnt : qp.refcnt = 1
  timer : qp.timer = false

variable {qp : Ipq}

theorem Live.held (h : qp.Live) : Held { qp with refcnt := qp.refcnt + 1 } where
  ok := h.ok.congr rfl rfl rfl rfl
  complete := h.complete
  refcnt := by rw [h.refcnt]; rfl
  timer := h.timer

theorem Held.live (h : qp.Held) : Live { qp with refcnt := qp.refcnt - 1 } where
  ok := h.ok.congr rfl rfl rfl rfl
  complete := h.complete
  refcnt := by rw [h.refcnt]; rfl
  timer := h.timer

theorem Held.create : Held ipFragCreate where
  ok := .create
  complete := rfl
  refcnt := rfl
  timer := rfl

theorem Held.queue (h : qp.Held) (env : Env) (mem : ℤ) (p : Packet) :
    Held (qp.ipFragQueue env mem p).1 := by
  obtain ⟨hok, hrefs, -⟩ := ipFragQueue_spec env mem p h.ok
  exact ⟨hok, hrefs.complete.trans h.complete, hrefs.refcnt.trans h.refcnt,
    hrefs.timer.trans h.timer⟩

theorem ipqKill_fragments : qp.ipqKill.fragments = qp.fragments := by
  unfold ipqKill
  split <;> dsimp only <;> split <;> rfl

theorem ipqKill_len : qp.ipqKill.len = qp.len := by
  unfold ipqKill
  split <;> dsimp only <;> split <;> rfl

/-- `ipq_kill` takes away the references of the table and of the timer. -/
theorem Held.kill (h : qp.Held) : Killed qp.ipqKill := by
  simp only [ipqKill, h.timer, h.complete]
  exact ⟨rfl, by simp only [h.refcnt]; rfl, rfl⟩

/-- When the timer has gone off its reference is the handler's. -/
theorem Live.kill_expired (h : qp.Live) : Killed (ipqKill { qp with timer := false }) := by
  simp only [ipqKill, h.complete, Bool.false_eq_true, if_false]
  exact ⟨rfl, by simp only [h.refcnt]; rfl, rfl⟩

end Ipq

/-! ## `ip_frag_reasm` -/

/-- The first fragment is split without a change in what is counted. -/
theorem splitHead_eq_some {frags : Option (Option (ℕ × ℕ))} {head head' : Skb}
    {rest rest' : List Skb} {mem mem' : ℤ}
    (h : splitHead frags head rest mem = some (head', rest', mem')) :
    mem' - head'.truesize - truesizes rest' = mem - head.truesize - truesizes rest ∧
    head'.ihl = head.ihl ∧ head'.pulled = head.pulled ∧
    head'.data ++ (rest'.map Skb.data).flatten = head.data ++ (rest.map Skb.data).flatten := by
  unfold splitHead at h
  split at h
  · cases h
    exact ⟨rfl, rfl, rfl, rfl⟩
  · cases h
  · cases h
    refine ⟨?_, rfl, rfl, ?_⟩
    · rw [truesizes_cons]
      push_cast
      ring
    · rw [List.map_cons, List.flatten_cons, ← List.append_assoc, List.take_append_drop]

namespace Ipq

variable {qp : Ipq}

/-- **`ip_frag_reasm` of a queue that is found complete**: the `BUG_TRAP`s hold, the queue is
killed, and `ip_frag_mem` is changed by what leaves the queue. -/
theorem Held.reasm (h : qp.Held) (hfull : qp.Full) (env : Env) (mem : ℤ) :
    ∃ qp' mem' ret, qp.ipFragReasm env mem = .ok (qp', mem', ret) ∧ qp'.Killed ∧
      mem' - truesizes qp'.fragments = mem - truesizes qp.fragments := by
  obtain ⟨-, head, rest, hf, h0⟩ := h.ok.whole hfull
  have hkill : ∀ l, Killed { qp.ipqKill with fragments := l } := fun l ↦
    ⟨h.kill.complete, h.kill.refcnt, h.kill.timer⟩
  simp only [ipFragReasm, ipqKill_fragments, hf]
  split
  · contradiction
  · split
    · exact ⟨_, _, _, rfl, h.kill, by rw [ipqKill_fragments, hf]⟩
    · split
      · split
        · exact ⟨_, _, _, rfl, h.kill, by rw [ipqKill_fragments, hf]⟩
        · rename_i hsplit
          refine ⟨_, _, _, rfl, hkill [], ?_⟩
          have hmem := (splitHead_eq_some hsplit).1
          rw [truesizes_nil, truesizes_cons]
          push_cast
          linarith
      · exact ⟨_, _, _, rfl, h.kill, by rw [ipqKill_fragments, hf]⟩

end Ipq

/-! ## The table -/

variable {κ : Type u} [DecidableEq κ] (sizeofIpq : ℕ)

/-- What an entry of the table counts for in `ip_frag_mem`. -/
def size : Option Ipq → ℤ
  | none => 0
  | some qp => sizeofIpq + truesizes qp.fragments

namespace World

/-- What holds between two steps, if `ip_frag_mem` was `m₀` in the beginning. -/
structure Ok (m₀ : ℤ) (w : World κ) : Prop where
  live : ∀ k qp, w.queues k = some qp → qp.Live
  limbo : w.limbo = []
  mem : ∃ s : Finset κ, (∀ k ∉ s, w.queues k = none) ∧
    w.mem = m₀ + ∑ k ∈ s, size sizeofIpq (w.queues k)

variable {sizeofIpq} {m₀ : ℤ} {w : World κ} {k : κ}

variable {mem : ℤ}

/-- One entry changes, and the counter with it. -/
theorem Ok.update (h : w.Ok sizeofIpq m₀) {v : Option Ipq} (hv : ∀ qp, v = some qp → qp.Live)
    (hmem : mem - size sizeofIpq v = w.mem - size sizeofIpq (w.queues k)) :
    Ok sizeofIpq m₀ { w with queues := update w.queues k v, mem := mem } := by
  refine ⟨fun j qp (hj : Function.update w.queues k v j = some qp) ↦ ?_, h.limbo, ?_⟩
  · by_cases hjk : j = k
    · subst hjk
      rw [Function.update_self] at hj
      exact hv qp hj
    · rw [Function.update_of_ne hjk] at hj
      exact h.live j qp hj
  · obtain ⟨s, hs, hw⟩ := h.mem
    have hmore : ∑ j ∈ s, size sizeofIpq (w.queues j) =
        ∑ j ∈ insert k s, size sizeofIpq (w.queues j) := by
      refine sum_subset (subset_insert k s) fun j _ hj ↦ ?_
      rw [hs j hj, size]
    refine ⟨insert k s, fun j hj ↦ ?_, ?_⟩
    · rw [mem_insert, not_or] at hj
      exact (update_of_ne hj.1 v w.queues).trans (hs j hj.2)
    · rw [Tally.sum_update (mem_insert_self k s), ← hmore]
      linarith

theorem ipqPut_held {qp : Ipq} (hqp : qp.Held) (mem : ℤ) :
    w.ipqPut sizeofIpq k qp mem = .ok { w with
      queues := update w.queues k (some { qp with refcnt := qp.refcnt - 1 })
      mem := mem } := by
  simp [ipqPut, hqp.refcnt, hqp.complete]

theorem ipqPut_killed {qp : Ipq} (hqp : qp.Killed) (mem : ℤ) :
    w.ipqPut sizeofIpq k qp mem = .ok { w with
      queues := update w.queues k none
      mem := mem - truesizes qp.fragments - sizeofIpq } := by
  simp [ipqPut, hqp.refcnt, hqp.complete, hqp.timer]

omit [DecidableEq κ] in
/-- The queue that `ip_find` returns is counted. -/
theorem Ok.find (h : w.Ok sizeofIpq m₀) {env : Env} {qp : Ipq}
    (hfind : w.ipFind sizeofIpq env k = some (qp, mem)) :
    qp.Held ∧ mem - size sizeofIpq (some qp) = w.mem - size sizeofIpq (w.queues k) := by
  unfold ipFind at hfind
  split at hfind
  · rename_i qp₀ hq
    cases hfind
    exact ⟨(h.live k qp₀ hq).held, by rw [hq]; rfl⟩
  · rename_i hq
    split at hfind
    · cases hfind
      refine ⟨.create, ?_⟩
      simp [hq, size, ipFragCreate, Ipq.ipFragIntern]
    · cases hfind

/-- **A packet arrives**, and the queue for it is there or can be made: if this does not complete
the datagram, the queue is put back; otherwise it is destroyed. -/
theorem ipDefrag_found {env : Env} {qp : Ipq} (hqp : qp.Held) (p : Packet)
    (hfind : w.ipFind sizeofIpq env k = some (qp, mem)) :
    (¬ (qp.ipFragQueue env mem p).1.Full → w.ipDefrag sizeofIpq env k p = .ok ({ w with
      queues := update w.queues k (some { (qp.ipFragQueue env mem p).1 with
        refcnt := (qp.ipFragQueue env mem p).1.refcnt - 1 })
      mem := (qp.ipFragQueue env mem p).2 }, none)) ∧
    ((qp.ipFragQueue env mem p).1.Full → ∃ qp' mem' ret,
      (qp.ipFragQueue env mem p).1.ipFragReasm env (qp.ipFragQueue env mem p).2 =
        .ok (qp', mem', ret) ∧
      mem' - truesizes qp'.fragments =
        (qp.ipFragQueue env mem p).2 - truesizes (qp.ipFragQueue env mem p).1.fragments ∧
      w.ipDefrag sizeofIpq env k p = .ok ({ w with
        queues := update w.queues k none
        mem := mem' - truesizes qp'.fragments - sizeofIpq }, ret)) := by
  have hheld := hqp.queue env mem p
  constructor
  · intro hfull
    simp only [ipDefrag, hfind]
    rw [if_neg fun h ↦ hfull h.2, ipqPut_held hheld]
    rfl
  · intro hfull
    obtain ⟨qp', mem', ret, hreasm, hkilled, hmem⟩ :=
      hheld.reasm hfull env (qp.ipFragQueue env mem p).2
    refine ⟨qp', mem', ret, hreasm, hmem, ?_⟩
    simp only [ipDefrag, hfind]
    rw [if_pos ⟨hheld.complete, hfull⟩, hreasm]
    simp only [ipqPut_killed hkilled, Except.map]

/-- **A packet arrives**: no `BUG_TRAP` is hit, and everything is in order afterwards. -/
theorem Ok.defrag (h : w.Ok sizeofIpq m₀) (env : Env) (k : κ) (p : Packet) :
    ∃ w' ret, w.ipDefrag sizeofIpq env k p = .ok (w', ret) ∧ w'.Ok sizeofIpq m₀ ∧
      ∀ j, j ≠ k → w'.queues j = w.queues j := by
  cases hfind : w.ipFind sizeofIpq env k with
  | none => exact ⟨w, none, by simp only [ipDefrag, hfind], h, fun _ _ ↦ rfl⟩
  | some q =>
    obtain ⟨qp, mem⟩ := q
    obtain ⟨hqp, hmem⟩ := h.find hfind
    have hheld := hqp.queue env mem p
    have hqueue := (Ipq.ipFragQueue_spec env mem p hqp.ok).2.2
    obtain ⟨hpart, hwhole⟩ := ipDefrag_found hqp p hfind
    have hframe : ∀ v, ∀ j, j ≠ k → Function.update w.queues k v j = w.queues j :=
      fun v j hj ↦ update_of_ne hj v w.queues
    by_cases hfull : (qp.ipFragQueue env mem p).1.Full
    · obtain ⟨qp', mem', ret, -, hmem', hdefrag⟩ := hwhole hfull
      refine ⟨_, _, hdefrag, h.update (by simp) ?_, hframe _⟩
      simp only [size] at hmem ⊢
      linarith
    · refine ⟨_, _, hpart hfull, h.update ?_ ?_, hframe _⟩
      · rintro _ ⟨⟩
        exact hheld.live
      · simp only [size] at hmem ⊢
        linarith

/-- A queue is killed by the evictor or by its timer. -/
theorem Ok.destroy (h : w.Ok sizeofIpq m₀) {qp qp' : Ipq} (hq : w.queues k = some qp)
    (hkilled : qp'.Killed) (hf : qp'.fragments = qp.fragments) :
    ∃ w', w.ipqPut sizeofIpq k qp' w.mem = .ok w' ∧ w'.Ok sizeofIpq m₀ ∧
      ∀ j, j ≠ k → w'.queues j = w.queues j := by
  refine ⟨_, ipqPut_killed hkilled w.mem, h.update (by simp) ?_,
    fun j hj ↦ update_of_ne hj none w.queues⟩
  rw [hq, hf]
  simp only [size]
  ring

theorem Ok.evict (h : w.Ok sizeofIpq m₀) {qp : Ipq} (hq : w.queues k = some qp) :
    ∃ w', w.evict sizeofIpq k = .ok w' ∧ w'.Ok sizeofIpq m₀ ∧
      ∀ j, j ≠ k → w'.queues j = w.queues j := by
  have hlive := h.live k qp hq
  have hkilled := hlive.held.kill
  simp only [World.evict, hq]
  rw [if_neg (by simp [hlive.complete])]
  exact h.destroy hq hkilled Ipq.ipqKill_fragments

theorem Ok.expire (h : w.Ok sizeofIpq m₀) {qp : Ipq} (hq : w.queues k = some qp) :
    ∃ w', w.ipExpire sizeofIpq k = .ok w' ∧ w'.Ok sizeofIpq m₀ ∧
      ∀ j, j ≠ k → w'.queues j = w.queues j := by
  have hlive := h.live k qp hq
  have hkilled := hlive.kill_expired
  simp only [ipExpire, hq]
  rw [if_neg (by simp [hlive.complete])]
  exact h.destroy hq hkilled Ipq.ipqKill_fragments

end World

/-! ## The machine -/

/-- What happens to the queues. -/
inductive Action (κ : Type u)
  | defrag (env : Env) (k : κ) (p : Packet)
  | evict (k : κ)
  | expire (k : κ)

/-- The queue that the step is about. -/
def Action.key : Action κ → κ
  | .defrag _ k _ => k
  | .evict k => k
  | .expire k => k

namespace World

/-- No queues. -/
def start (κ : Type u) (m₀ : ℤ) : World κ where
  queues _ := none
  limbo := []
  mem := m₀

/-- The evictor takes a queue that it has found in the table, and a timer goes off if it is
pending. -/
def Legal (w : World κ) : Action κ → Prop
  | .defrag _ _ _ => True
  | .evict k => ∃ qp, w.queues k = some qp
  | .expire k => ∃ qp, w.queues k = some qp ∧ qp.timer

def exec (w : World κ) : Action κ → Except Trap (World κ)
  | .defrag env k p => (w.ipDefrag sizeofIpq env k p).map Prod.fst
  | .evict k => w.evict sizeofIpq k
  | .expire k => w.ipExpire sizeofIpq k

/-- The queues, when `ip_frag_mem` is `m₀` in the beginning. -/
def machine (m₀ : ℤ) : Machine (World κ) (Action κ) Trap where
  init w := w = start κ m₀
  legal := Legal
  exec := exec sizeofIpq

variable {sizeofIpq} {m₀ : ℤ} {w w' : World κ}

omit [DecidableEq κ] in
theorem Ok.start : (start κ m₀).Ok sizeofIpq m₀ where
  live _ _ h := absurd h (by simp [World.start])
  limbo := rfl
  mem := ⟨∅, fun _ _ ↦ rfl, by simp [World.start]⟩

/-- **One step.** -/
theorem Ok.step (h : w.Ok sizeofIpq m₀) {a : Action κ} (hl : w.Legal a) :
    ∃ w', w.exec sizeofIpq a = .ok w' ∧ w'.Ok sizeofIpq m₀ ∧
      ∀ j, j ≠ a.key → w'.queues j = w.queues j := by
  cases a with
  | defrag env k p =>
    obtain ⟨w', ret, hw', hok, hframe⟩ := h.defrag env k p
    exact ⟨w', by rw [exec, hw']; rfl, hok, hframe⟩
  | evict k =>
    obtain ⟨qp, hq⟩ := hl
    exact h.evict hq
  | expire k =>
    obtain ⟨qp, hq, -⟩ := hl
    exact h.expire hq

theorem Ok.reachable (hw : (machine sizeofIpq m₀).Reachable w) : w.Ok sizeofIpq m₀ := by
  refine hw.invariant ?_ ?_
  · rintro w rfl
    exact .start
  · intro w a t hw hl he
    obtain ⟨w', hw', hok, -⟩ := hw.step hl
    cases hw'.symm.trans he
    exact hok

end World

/-! ## The invariant, in so many words -/

/-- A payload of twenty-four bytes. -/
def payload24 : List Byte := (List.range 24).map (BitVec.ofNat 8)

/-- Its first sixteen bytes. -/
def Packet.front : Packet where
  fragOff := 0x2000
  ihl := 5
  bytes := List.replicate 20 0 ++ payload24.take 16
  truesize := 100

/-- Its last sixteen bytes. -/
def Packet.back : Packet where
  fragOff := 1
  ihl := 5
  bytes := List.replicate 20 0 ++ payload24.drop 8
  truesize := 100

/-- The fragments are sorted by offset, do not overlap, are not empty, and are inside of the
datagram, and `meat` is the number of bytes in them. -/
structure Ipq.InOrder (qp : Ipq) : Prop where
  sorted : qp.fragments.Pairwise fun f g ↦ f.offset < g.offset
  disjoint : qp.fragments.Pairwise fun f g ↦ f.offset + f.data.length ≤ g.offset
  nonempty : ∀ f ∈ qp.fragments, f.data ≠ []
  inside : ∀ f ∈ qp.fragments, f.offset + f.data.length ≤ qp.len
  meat : qp.meat = ((qp.fragments.map fun f ↦ f.data.length).sum : ℕ)

theorem Ipq.Ok.inOrder {qp : Ipq} (h : qp.Ok) : qp.InOrder where
  sorted := h.row.pairwise.imp_of_mem fun {f g} hf _ hfg ↦ (h.row.of_mem hf).2.1.trans_le hfg
  disjoint := h.row.pairwise
  nonempty f hf hnil := by
    have hlt := (h.row.of_mem hf).2.1
    simp [Skb.stop, hnil] at hlt
  inside f hf := (h.row.of_mem hf).2.2.1
  meat := h.meat

namespace World

variable {sizeofIpq} {m₀ : ℤ} {w : World κ}

/-- **Hostile fragments cannot break a queue.**  Whatever packets arrive, whichever calls fail, and
whenever queues are evicted or time out: the queues are in order; so is a queue after
`ip_frag_queue`, on whichever way out, and if `ip_defrag` then finds it complete its fragments fill
the datagram from offset `0` to its end; no `BUG_TRAP` is hit; and when there are no queues any more
`ip_frag_mem` is what it was in the beginning. -/
theorem frag_invariant (hw : (machine sizeofIpq m₀).Reachable w) :
    (∀ k qp, w.queues k = some qp → qp.InOrder) ∧
    (∀ env k qp mem p, w.ipFind sizeofIpq env k = some (qp, mem) →
      (qp.ipFragQueue env mem p).1.InOrder ∧
      ((qp.ipFragQueue env mem p).1.Full → (qp.ipFragQueue env mem p).1.Whole ∧
        ∃ head rest, (qp.ipFragQueue env mem p).1.fragments = head :: rest ∧ head.offset = 0)) ∧
    (∀ a, w.Legal a → ∃ w', w.exec sizeofIpq a = .ok w') ∧
    ((∀ k, w.queues k = none) → w.limbo = [] ∧ w.mem = m₀) := by
  have h := Ok.reachable hw
  refine ⟨fun k qp hq ↦ (h.live k qp hq).ok.inOrder, ?_, ?_, fun hnone ↦ ⟨h.limbo, ?_⟩⟩
  · intro env k qp mem p hfind
    have hok := ((h.find hfind).1.queue env mem p).ok
    exact ⟨hok.inOrder, hok.whole⟩
  · intro a hl
    obtain ⟨w', hw', -⟩ := h.step hl
    exact ⟨w', hw'⟩
  · obtain ⟨s, -, hmem⟩ := h.mem
    rw [hmem, sum_eq_zero fun k _ ↦ by rw [hnone k, size], add_zero]

/-- The last sixteen bytes of a datagram of twenty-four have arrived, and then the first sixteen do:
with the eight bytes that they have in common cut off, the row is complete. -/
theorem frag_invariant_overlap : ∃ w : World Unit, (machine 64 0).Reachable w ∧
    ∃ qp mem, w.ipFind 64 Env.fine () = some (qp, mem) ∧
      (qp.ipFragQueue Env.fine mem Packet.front).1.Whole := by
  have hw : (machine 64 0).Reachable _ :=
    .step (a := .defrag Env.fine () Packet.back) (.init rfl) trivial rfl
  refine ⟨_, hw, _, _, rfl, ?_⟩
  exact (((frag_invariant hw).2.1 Env.fine () _ _ Packet.front rfl).2
    ⟨by decide, by decide, by decide⟩).1

end World

end Linux24.Frag
