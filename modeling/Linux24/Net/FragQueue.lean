import Linux24.Net.Frag

/-!
# A queue of fragments stays in order

`Ipq.Ok` is what holds of a queue whatever arrives: the fragments stand in a row between `0` and
`len`, `meat` is the number of bytes in them, and `FIRST_IN` is as it should be.  A call of
`ip_frag_queue` preserves it, and changes `ip_frag_mem` by what the fragments of the queue count
for. This holds on each of the ways out of the function, since what has been done to the fragments
that follow by the time a call fails leaves the row in order.

A row of fragments whose lengths add up to `len` has no gaps.  So when `ip_defrag` finds the queue
complete, the fragments are the whole datagram.
-/

set_option autoImplicit false

universe u

namespace Linux24.Frag

open Intervals List

/-! ## Fragments -/

/-- The number of bytes in the fragments of a list. -/
def lengths (l : List Skb) : ℕ := (l.map fun f ↦ f.data.length).sum

/-- The fragments stand in a row. -/
abbrev Row (lo : ℕ) (l : List Skb) (hi : ℕ) : Prop := Laid Skb.offset Skb.stop 1 lo l hi

/-- One of the fragments has the byte. -/
abbrev Holds (l : List Skb) (x : ℕ) : Prop := Covers Skb.offset Skb.stop l x

section Lists

variable {l r : List Skb} {f : Skb}

@[simp] theorem lengths_cons : lengths (f :: l) = f.data.length + lengths l := by simp [lengths]

@[simp] theorem lengths_append : lengths (l ++ r) = lengths l + lengths r := by simp [lengths]

@[simp] theorem truesizes_nil : truesizes [] = 0 := rfl

@[simp] theorem truesizes_cons : truesizes (f :: l) = f.truesize + truesizes l := by
  simp [truesizes]

@[simp] theorem truesizes_append : truesizes (l ++ r) = truesizes l + truesizes r := by
  simp [truesizes]

theorem lengths_eq_sum : lengths l = (l.map fun f ↦ f.stop - f.offset).sum := by
  simp [lengths, Skb.stop]

end Lists

/-- The fragment without its first `i` bytes. -/
def Skb.cut (skb : Skb) (i : ℕ) : Skb :=
  { skb with
    pulled := skb.pulled ++ skb.data.take i
    data := skb.data.drop i
    offset := skb.offset + i }

section Cut

variable {skb skb' : Skb} {ok : Bool} {n i : ℕ}

@[simp] theorem Skb.cut_offset : (skb.cut i).offset = skb.offset + i := rfl

@[simp] theorem Skb.cut_length : (skb.cut i).data.length = skb.data.length - i :=
  length_drop

theorem Skb.cut_stop (hi : i ≤ skb.data.length) : (skb.cut i).stop = skb.stop := by
  rw [Skb.stop, Skb.stop, cut_length, cut_offset]
  omega

theorem pskbPull_eq_some (h : pskbPull ok skb n = some skb') : n ≤ skb.data.length ∧
    skb' = { skb with pulled := skb.pulled ++ skb.data.take n, data := skb.data.drop n } := by
  unfold pskbPull at h
  split at h
  · cases h
  · split at h
    · exact ⟨by omega, (Option.some.inj h).symm⟩
    · cases h

theorem pskbPull_true (hn : n ≤ skb.data.length) : pskbPull true skb n =
    some { skb with pulled := skb.pulled ++ skb.data.take n, data := skb.data.drop n } := by
  rw [pskbPull, if_neg (by omega), if_pos rfl]

/-- The new fragment after the check for overlap: it starts where the one before ends, if this is
inside of it. -/
theorem cutFront_eq_some {prev : Option Skb} (h : cutFront ok prev skb = some skb') :
    ∃ i, skb' = skb.cut i ∧ (i = 0 ∨ i < skb.data.length) ∧
      (∀ q ∈ prev, q.stop ≤ skb'.offset) ∧ (0 < i → ∃ q ∈ prev, q.stop = skb'.offset) := by
  have hzero : skb = skb.cut 0 := by simp [Skb.cut]
  cases prev with
  | none =>
    cases h
    exact ⟨0, hzero, Or.inl rfl, by simp, by simp⟩
  | some q =>
    simp only [cutFront] at h
    split at h
    · rename_i hlt
      split at h
      · cases h
      · rename_i hin
        obtain ⟨s, hs, rfl⟩ := Option.map_eq_some_iff.1 h
        obtain ⟨-, rfl⟩ := pskbPull_eq_some hs
        rw [Skb.stop, Skb.stop] at hin
        rw [Skb.stop] at hlt
        refine ⟨q.stop - skb.offset, rfl, Or.inr ?_, ?_, fun _ ↦ ⟨q, rfl, ?_⟩⟩
        · rw [Skb.stop]
          omega
        · rintro _ ⟨⟩
          simp only [Skb.stop]
          omega
        · simp only [Skb.stop]
          omega
    · rename_i hlt
      cases h
      refine ⟨0, hzero, Or.inl rfl, ?_, by simp⟩
      rintro _ ⟨⟩
      exact not_lt.1 hlt

end Cut

/-! ## The loop over the fragments that follow -/

section Eat

variable {ok : Bool} {stop lo hi : ℕ} {l : List Skb} (meat mem : ℤ)

/-- **The loop keeps the row and the accounts**, whether a call fails in it or not, and if none
does, nothing is left that starts before the new fragment ends. -/
theorem eatNext_spec (ok : Bool) (stop : ℕ) (meat mem : ℤ) (h : Row lo l hi) :
    Row lo (eatNext ok stop l meat mem).next hi ∧
    (eatNext ok stop l meat mem).meat - lengths (eatNext ok stop l meat mem).next =
      meat - lengths l ∧
    (eatNext ok stop l meat mem).mem - truesizes (eatNext ok stop l meat mem).next =
      mem - truesizes l ∧
    ((eatNext ok stop l meat mem).ok →
      ∀ f ∈ (eatNext ok stop l meat mem).next, stop ≤ f.offset) := by
  induction l generalizing lo meat mem with
  | nil => exact ⟨h, rfl, rfl, by simp [eatNext]⟩
  | cons next rest ih =>
    have hnext := h.1
    rw [eatNext]
    split
    · dsimp only
      split
      · rename_i hi
        split
        · exact ⟨h, rfl, rfl, by simp⟩
        · rename_i next' hpull
          obtain ⟨-, rfl⟩ := pskbPull_eq_some hpull
          have hstop := Skb.cut_stop hi.le
          refine ⟨⟨⟨?_, ?_, one_dvd _, one_dvd _⟩, ?_⟩, ?_, ?_, fun _ ↦ ?_⟩
          · exact hnext.1.trans (Nat.le_add_right _ _)
          · change (next.cut (stop - next.offset)).offset < (next.cut (stop - next.offset)).stop
            rw [hstop, Skb.stop, Skb.cut_offset]
            omega
          · change Row (next.cut (stop - next.offset)).stop rest _
            rw [hstop]
            exact h.2
          · simp only [lengths_cons, length_drop]
            omega
          · simp
          · rintro f (_ | ⟨_, hf⟩)
            · change stop ≤ next.offset + (stop - next.offset)
              omega
            · have hf := (h.2.of_mem hf).1
              rw [Skb.stop] at hf
              omega
      · obtain ⟨hrow, hmeat, hmem, hge⟩ :=
          ih (meat - next.data.length) (mem - next.truesize) h.2
        refine ⟨hrow.mono (hnext.1.trans hnext.2.1.le) le_rfl, ?_, ?_, hge⟩
        · rw [hmeat, lengths_cons]
          push_cast
          ring
        · rw [hmem, truesizes_cons]
          push_cast
          ring
    · rename_i hge
      refine ⟨h, rfl, rfl, fun _ f hf ↦ ?_⟩
      rcases mem_cons.1 hf with rfl | hf
      · exact not_lt.1 hge
      · exact (not_lt.1 hge).trans (hnext.2.1.le.trans (h.2.of_mem hf).1)

/-- What is left in the list was there, or is what was cut off. -/
theorem eatNext_forall (ok : Bool) (stop : ℕ) (meat mem : ℤ) {P : Skb → Prop} (hP : ∀ f ∈ l, P f)
    (hcut : ∀ f i, P f → 0 < i → i < f.data.length → P (f.cut i)) :
    ∀ f ∈ (eatNext ok stop l meat mem).next, P f := by
  induction l generalizing meat mem with
  | nil => simp [eatNext]
  | cons next rest ih =>
    have hrest : ∀ f ∈ rest, P f := fun f hf ↦ hP f (mem_cons_of_mem next hf)
    rw [eatNext]
    split
    · dsimp only
      split
      · rename_i hi
        split
        · exact hP
        · rename_i next' hpull
          obtain ⟨-, rfl⟩ := pskbPull_eq_some hpull
          refine forall_mem_cons.2 ⟨?_, hrest⟩
          exact hcut next (stop - next.offset) (hP next mem_cons_self) (by omega) hi
      · exact ih _ _ hrest
    · exact hP

/-- If no call fails, what the fragments have from the end of the new one on they keep. -/
theorem eatNext_holds {x : ℕ} (hx : stop ≤ x) :
    (eatNext true stop l meat mem).ok = true ∧
    (Holds (eatNext true stop l meat mem).next x ↔ Holds l x) := by
  induction l generalizing meat mem with
  | nil => simp [eatNext]
  | cons next rest ih =>
    rw [eatNext]
    split
    · dsimp only
      split
      · rename_i hi
        rw [pskbPull_true hi.le]
        refine ⟨rfl, ?_⟩
        change Holds (next.cut (stop - next.offset) :: rest) x ↔ _
        rw [Holds, Holds, covers_cons, covers_cons, Skb.cut_stop hi.le, Skb.cut_offset]
        refine or_congr (and_congr_left' ?_) Iff.rfl
        omega
      · obtain ⟨hok, hholds⟩ := ih (meat - next.data.length) (mem - next.truesize)
        refine ⟨hok, hholds.trans ?_⟩
        rw [Holds, Holds, covers_cons, Skb.stop]
        exact ⟨Or.inr, fun h ↦ h.resolve_left (by omega)⟩
    · exact ⟨rfl, Iff.rfl⟩

end Eat

/-! ## The invariant of a queue -/

/-- What holds of a queue whatever arrives. -/
structure Ipq.Ok (qp : Ipq) : Prop where
  row : Row 0 qp.fragments qp.len
  meat : qp.meat = lengths qp.fragments
  len_pos : qp.firstIn → 0 < qp.len
  firstIn : ∀ f ∈ qp.fragments, f.offset = 0 → qp.firstIn

/-- The two queues agree in what `ip_frag_queue` does not change. -/
structure Ipq.SameRefs (qp qp' : Ipq) : Prop where
  complete : qp'.complete = qp.complete
  refcnt : qp'.refcnt = qp.refcnt
  timer : qp'.timer = qp.timer

namespace Ipq

variable {qp qp' : Ipq} (env : Env) {p : Packet} {skb : Skb} (mem : ℤ)

theorem Ok.create : Ok ipFragCreate where
  row := le_rfl
  meat := rfl
  len_pos := by simp [ipFragCreate, ipFragIntern]
  firstIn := by simp [ipFragCreate, ipFragIntern]

/-- The queue depends on the fragments, the flags and the counters only. -/
theorem Ok.congr (h : qp.Ok) (hf : qp'.fragments = qp.fragments) (hl : qp'.len = qp.len)
    (hm : qp'.meat = qp.meat) (hi : qp'.firstIn = qp.firstIn) : qp'.Ok where
  row := hf ▸ hl ▸ h.row
  meat := by rw [hm, hf, h.meat]
  len_pos := by rw [hi, hl]; exact h.len_pos
  firstIn := by rw [hi, hf]; exact h.firstIn

/-- The length of the datagram may turn out to be greater than it seemed. -/
theorem Ok.grow (h : qp.Ok) {n : ℕ} (hn : qp.len ≤ n) (last : Bool) :
    Ok { qp with len := n, lastIn := last } where
  row := h.row.mono le_rfl hn
  meat := h.meat
  len_pos hf := (h.len_pos hf).trans_le hn
  firstIn := h.firstIn

/-- What `setBounds` does if it accepts the packet. -/
theorem setBounds_eq_some {stop : ℤ} (h : qp.setBounds p = some (qp', stop)) :
    (∃ n last, qp.len ≤ n ∧ stop ≤ n ∧ qp' = { qp with len := n, lastIn := last }) ∧
    stop ≤ p.stop ∧ (p.stop < p.offset ∨ p.offset ≤ stop) := by
  have hoff : (p.offset : ℤ) = (p.fragOff &&& 0x1fff).toNat * 8 := by simp [Packet.offset]
  unfold setBounds at h
  split at h
  · dsimp only at h
    split at h
    · split at h
      · cases h
      · cases h
        refine ⟨⟨_, qp.lastIn, ?_, ?_, rfl⟩, ?_, ?_⟩ <;> omega
    · cases h
      refine ⟨⟨qp.len, qp.lastIn, le_rfl, ?_, rfl⟩, ?_, ?_⟩ <;> omega
  · split at h
    · cases h
    · cases h
      refine ⟨⟨_, true, ?_, ?_, rfl⟩, ?_, ?_⟩ <;> omega

/-- The new fragment, when the first half of `ip_frag_queue` is through with it. -/
structure Fits (qp : Ipq) (skb : Skb) : Prop where
  pos : 0 < skb.data.length
  stop : skb.stop ≤ qp.len

theorem accept_spec (p : Packet) (h : qp.Ok) : (qp.accept env p).1.Ok ∧
    (qp.accept env p).1.fragments = qp.fragments ∧ qp.SameRefs (qp.accept env p).1 ∧
    ∀ skb, (qp.accept env p).2 = some skb → (qp.accept env p).1.Fits skb := by
  unfold accept
  split
  · exact ⟨h, rfl, ⟨rfl, rfl, rfl⟩, by simp⟩
  · rename_i qp' stop hb
    obtain ⟨⟨n, last, hn, hlen, rfl⟩, hle, hoff⟩ := setBounds_eq_some hb
    have hok := h.grow hn last
    split
    · exact ⟨hok, rfl, ⟨rfl, rfl, rfl⟩, by simp⟩
    · split
      · exact ⟨hok, rfl, ⟨rfl, rfl, rfl⟩, by simp⟩
      · rename_i skb hpull
        obtain ⟨hih, rfl⟩ := pskbPull_eq_some hpull
        refine ⟨hok, rfl, ⟨rfl, rfl, rfl⟩, fun skb' htrim ↦ ?_⟩
        have hih : p.ihlen ≤ p.bytes.length := hih
        unfold Packet.stop at hle hoff
        simp only [pskbTrim, Packet.skb, length_drop] at htrim
        split at htrim
        · split at htrim
          · cases htrim
            constructor <;> simp [Skb.stop] <;> omega
          · cases htrim
        · cases htrim
          constructor <;> simp [Skb.stop] <;> omega

/-- **The second half of `ip_frag_queue`.** -/
theorem link_spec (h : qp.Ok) (hfit : qp.Fits skb) :
    (qp.link env mem skb).1.Ok ∧ qp.SameRefs (qp.link env mem skb).1 ∧
    (qp.link env mem skb).2 - truesizes (qp.link env mem skb).1.fragments =
      mem - truesizes qp.fragments := by
  have hsplit : qp.fragments.takeWhile (fun f ↦ f.offset < skb.offset) ++
      qp.fragments.dropWhile (fun f ↦ f.offset < skb.offset) = qp.fragments :=
    takeWhile_append_dropWhile
  unfold link
  generalize qp.fragments.takeWhile (fun f ↦ f.offset < skb.offset) = prev at hsplit ⊢
  generalize qp.fragments.dropWhile (fun f ↦ f.offset < skb.offset) = next at hsplit ⊢
  have hrow := h.row
  have hmeat := h.meat
  have hfirst := h.firstIn
  rw [← hsplit] at hrow hmeat hfirst ⊢
  obtain ⟨m, hprev, hnext⟩ := laid_append.1 hrow
  dsimp only
  split
  · exact ⟨h, ⟨rfl, rfl, rfl⟩, by rw [hsplit]⟩
  · rename_i skb' hcut
    obtain ⟨i, rfl, hi, hge, -⟩ := cutFront_eq_some hcut
    obtain ⟨hrest, heaten, hmem, hstop⟩ :=
      eatNext_spec env.pullNext (skb.cut i).stop qp.meat mem hnext
    have hfirst' : ∀ f ∈ (eatNext env.pullNext (skb.cut i).stop next qp.meat mem).next,
        f.offset = 0 → qp.firstIn := by
      refine eatNext_forall _ _ _ _ (fun f hf ↦ hfirst f (mem_append_right prev hf)) ?_
      intro f j _ hj _ h0
      exact absurd h0 (by rw [Skb.cut_offset]; omega)
    rw [lengths_append] at hmeat
    have hi' : i < skb.data.length := by
      have hpos := hfit.pos
      omega
    split
    · rename_i hok
      refine ⟨⟨?_, ?_, ?_, ?_⟩, ⟨rfl, rfl, rfl⟩, ?_⟩
      · refine (laid_append.2 ⟨m, hprev, hrest⟩).insert (hprev.le_of_getLast hge) (hstop hok) ?_
        refine ⟨⟨zero_le, ?_, one_dvd _, one_dvd _⟩, ?_⟩
        · rw [Skb.cut_stop hi'.le, Skb.stop, Skb.cut_offset]
          omega
        · exact (Skb.cut_stop hi'.le).trans_le hfit.stop
      · simp
        omega
      · intro hin
        rcases Bool.or_eq_true_iff.1 hin with hin | -
        · exact h.len_pos hin
        · have hstop := hfit.stop
          rw [Skb.stop] at hstop
          change 0 < qp.len
          omega
      · intro f hf h0
        rcases mem_append.1 hf with hf | hf
        · simp [hfirst f (mem_append_left next hf) h0]
        · rcases mem_cons.1 hf with rfl | hf
          · exact Bool.or_eq_true_iff.2 (Or.inr (decide_eq_true h0))
          · simp [hfirst' f hf h0]
      · simp
        omega
    · refine ⟨⟨laid_append.2 ⟨m, hprev, hrest⟩, ?_, h.len_pos, ?_⟩, ⟨rfl, rfl, rfl⟩, ?_⟩
      · simp
        omega
      · intro f hf h0
        rcases mem_append.1 hf with hf | hf
        · exact hfirst f (mem_append_left next hf) h0
        · exact hfirst' f hf h0
      · simp
        omega

/-- **A call of `ip_frag_queue` keeps the queue in order**, and `ip_frag_mem` right. -/
theorem ipFragQueue_spec (p : Packet) (h : qp.Ok) :
    (qp.ipFragQueue env mem p).1.Ok ∧ qp.SameRefs (qp.ipFragQueue env mem p).1 ∧
    (qp.ipFragQueue env mem p).2 - truesizes (qp.ipFragQueue env mem p).1.fragments =
      mem - truesizes qp.fragments := by
  unfold ipFragQueue
  split
  · exact ⟨h, ⟨rfl, rfl, rfl⟩, rfl⟩
  · obtain ⟨hok, hfr, hrefs, hfit⟩ := accept_spec env p h
    split
    · rename_i hacc
      rw [hacc] at hok hfr hrefs
      exact ⟨hok, hrefs, by rw [hfr]⟩
    · rename_i hacc
      rw [hacc] at hok hfr hrefs hfit
      obtain ⟨hok', hrefs', hmem⟩ := link_spec env mem hok (hfit _ rfl)
      refine ⟨hok', ⟨?_, ?_, ?_⟩, by rw [hmem, hfr]⟩
      · rw [hrefs'.complete, hrefs.complete]
      · rw [hrefs'.refcnt, hrefs.refcnt]
      · rw [hrefs'.timer, hrefs.timer]

/-! ## Complete queues -/

/-- `ip_defrag` finds the datagram complete. -/
def Full (qp : Ipq) : Prop := qp.firstIn ∧ qp.lastIn ∧ qp.meat = qp.len

/-- The fragments are the whole datagram, in order and without gaps or overlaps. -/
abbrev Whole (qp : Ipq) : Prop := Tiles Skb.offset Skb.stop 0 qp.fragments qp.len

/-- There are as many bytes as the datagram has just if there is every byte. -/
theorem Ok.whole_iff (h : qp.Ok) : qp.Whole ↔ qp.meat = qp.len := by
  rw [Whole, h.row.tiles_iff_sum, h.meat, lengths_eq_sum]
  omega

/-- **A queue that is found complete has a first fragment at offset `0`**, and the others follow it
without gaps. -/
theorem Ok.whole (h : qp.Ok) (hfull : qp.Full) :
    qp.Whole ∧ ∃ head rest, qp.fragments = head :: rest ∧ head.offset = 0 := by
  have htiles := h.whole_iff.2 hfull.2.2
  refine ⟨htiles, ?_⟩
  have hpos := h.len_pos hfull.1
  cases hf : qp.fragments with
  | nil =>
    rw [Whole, hf] at htiles
    exact absurd (show 0 = qp.len from htiles) hpos.ne
  | cons head rest =>
    rw [Whole, hf] at htiles
    exact ⟨head, rest, rfl, htiles.1⟩

end Ipq

end Linux24.Frag
