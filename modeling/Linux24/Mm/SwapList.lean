import Linux24.Lib.Linked
import Linux24.Mm.SwapSlots

/-!
# The list of swap devices

The devices that can be written to are on a list, highest priority first, and `swap_list.next` is
where `get_swap_page` begins.  It does not begin at the head of the list, because devices of the
same priority are to be used in turn; what makes it right nevertheless is that no device whose
priority is above that of `swap_list.next` has a free slot (`State.Cursor`).

Two things break this.  `swap_info_get` moves `swap_list.next` to any device of higher priority in
which a slot is freed, even if the device is being removed and is not on the list any more; and a
device that is put on the list behind its head does not become `swap_list.next`, even if its
priority is higher.  `Careful` excludes them, and then the order is kept in every run.
-/

set_option autoImplicit false

namespace Linux24.Swap

open List Function

/-! ## The list -/

/-- The device has no free slot. -/
def SwapInfo.Full (p : SwapInfo) : Prop := ∀ o < p.max, p.swapMap o ≠ 0

/-- The device is where it was on the list and has no new free slots. -/
structure SwapInfo.Kept (p q : SwapInfo) : Prop where
  flags : q.flags = p.flags
  prio : q.prio = p.prio
  next : q.next = p.next
  full : p.Full → q.Full

theorem SwapInfo.Kept.refl (p : SwapInfo) : p.Kept p := ⟨rfl, rfl, rfl, id⟩

theorem SwapInfo.Kept.trans {p q r : SwapInfo} (h : p.Kept q) (h' : q.Kept r) : p.Kept r :=
  ⟨h'.flags.trans h.flags, h'.prio.trans h.prio, h'.next.trans h.next, h'.full ∘ h.full⟩

theorem SwapInfo.Refreshed.kept {p q : SwapInfo} (h : p.Refreshed q) : p.Kept q := by
  obtain ⟨_, _, _, _, rfl⟩ := h
  exact ⟨rfl, rfl, rfl, id⟩

theorem SwapInfo.kept_setSlot (p : SwapInfo) (o : ℕ) {v : ℕ} (hv : v ≠ 0) :
    p.Kept (p.setSlot o v) := by
  refine ⟨rfl, rfl, rfl, fun hfull i hi ↦ ?_⟩
  show update p.swapMap o v i ≠ 0
  rcases eq_or_ne i o with rfl | hne
  · simpa using hv
  · simpa [hne] using hfull i hi

namespace State

variable {s s' : State} {l : List ℕ}

/-- The links between the devices. -/
def links (s : State) (i : ℕ) : Option ℕ := (s.info i).next

/-- The list of the devices that can be written to, highest priority first. -/
structure Listed (s : State) (l : List ℕ) : Prop where
  chain : Linked.Seg s.links s.head l none
  nodup : l.Nodup
  mem : ∀ i, i ∈ l ↔ (s.info i).flags = .writeok
  sorted : l.Pairwise fun a b ↦ (s.info b).prio ≤ (s.info a).prio

/-- `swap_list.next` is on the list, and what is above it is full. -/
def Cursor (s : State) (l : List ℕ) : Prop :=
  (s.next = none ∧ l = []) ∨
    ∃ n ∈ l, s.next = some n ∧ ∀ b ∈ l, (s.info n).prio < (s.info b).prio → (s.info b).Full

/-- The list only depends on what is on it, and on what can be written to. -/
theorem Listed.congr (h : s.Listed l)
    (hsame : ∀ i ∈ l, (s'.info i).prio = (s.info i).prio ∧ (s'.info i).next = (s.info i).next)
    (hmem : ∀ i, i ∈ l ↔ (s'.info i).flags = .writeok) (hhead : s'.head = s.head) :
    s'.Listed l := by
  refine ⟨?_, h.nodup, hmem, ?_⟩
  · rw [hhead]
    exact h.chain.congr fun i hi ↦ (hsame i hi).2
  · refine h.sorted.imp_of_mem fun ha hb hab ↦ ?_
    rwa [(hsame _ ha).1, (hsame _ hb).1]

/-- What is above `swap_list.next` was above it and full, and still is. -/
theorem Cursor.imp (h : s.Cursor l) (hnext : s'.next = s.next)
    (habove : ∀ n ∈ l, s.next = some n → ∀ b ∈ l, (s'.info n).prio < (s'.info b).prio →
      (s.info n).prio < (s.info b).prio ∧ ((s.info b).Full → (s'.info b).Full)) : s'.Cursor l := by
  rcases h with ⟨hnone, rfl⟩ | ⟨n, hn, hsome, hfull⟩
  · exact Or.inl ⟨hnext.trans hnone, rfl⟩
  · refine Or.inr ⟨n, hn, hnext.trans hsome, fun b hb hlt ↦ ?_⟩
    obtain ⟨hlt', hkeep⟩ := habove n hn hsome b hb hlt
    exact hkeep (hfull b hb hlt')

theorem Listed.kept (h : s.Listed l) (hkept : ∀ i, (s.info i).Kept (s'.info i))
    (hhead : s'.head = s.head) : s'.Listed l :=
  h.congr (fun i _ ↦ ⟨(hkept i).prio, (hkept i).next⟩)
    (fun i ↦ by rw [(hkept i).flags]; exact h.mem i) hhead

theorem Cursor.kept (h : s.Cursor l) (hkept : ∀ i, (s.info i).Kept (s'.info i))
    (hnext : s'.next = s.next) : s'.Cursor l := by
  refine h.imp hnext fun n _ _ b _ hlt ↦ ⟨?_, (hkept b).full⟩
  rwa [(hkept _).prio, (hkept _).prio] at hlt

/-- The head of the list is above all. -/
theorem Listed.le_head (h : s.Listed l) {a b : ℕ} (ha : s.head = some a) (hb : b ∈ l) :
    (s.info b).prio ≤ (s.info a).prio := by
  match l with
  | [] => simp at hb
  | c :: l =>
    cases h.chain.1.symm.trans ha
    rcases mem_cons.1 hb with rfl | hb
    · exact le_rfl
    · exact rel_of_pairwise_cons h.sorted hb

theorem Listed.cursor_head (h : s.Listed l) (hnext : s.next = s.head) : s.Cursor l := by
  match l with
  | [] => exact Or.inl ⟨hnext.trans h.chain, rfl⟩
  | a :: l =>
    have hhead := h.chain.1
    exact Or.inr ⟨a, mem_cons_self, hnext.trans hhead,
      fun b hb hlt ↦ absurd hlt (not_lt.2 (h.le_head hhead hb))⟩

variable {d : ℤ} {o fuel file : ℕ} {r : Option (ℕ × ℕ)}

theorem Listed.length_le (h : s.Listed l) (hinv : s.Inv d) : l.length ≤ maxSwapfiles := by
  have hsub : l.toFinset ⊆ Finset.range maxSwapfiles := by
    intro i hi
    have hflags := (h.mem i).1 (mem_toFinset.1 hi)
    exact Finset.mem_range.2 ((hinv.lt (by simp [hflags])).trans_le hinv.le)
  have hcard := Finset.card_le_card hsub
  rwa [toFinset_card_of_nodup h.nodup, Finset.card_range] at hcard

/-! ## The search for a slot -/

theorem tryDevice_kept {a : ℕ} (hs : (s.info a).Sound) (hflags : (s.info a).flags = .writeok)
    (h : s.tryDevice a = (o, s')) : s'.head = s.head ∧ s'.next = s.next ∧
      (∀ i, (s.info i).Kept (s'.info i)) ∧ (o = 0 → (s.info a).Full) := by
  rw [tryDevice, if_pos hflags] at h
  have hscan := hs.scanSwapMap
  rcases hq : (s.info a).scanSwapMap with ⟨o', p⟩
  rw [hq] at h hscan
  simp only [Prod.mk.injEq] at h
  obtain ⟨rfl, rfl⟩ := h
  refine ⟨rfl, rfl, fun i ↦ ?_, fun h0 ↦ (hscan.none h0).1⟩
  rcases eq_or_ne i a with rfl | hne
  · have hkept : (s.info i).Kept p := by
      by_cases h0 : o' = 0
      · exact (hscan.none h0).2.kept
      · exact ((s.info i).kept_setSlot o' one_ne_zero).trans (hscan.some h0).2.2.kept
    simpa [setInfo] using hkept
  · simpa [setInfo, hne] using SwapInfo.Kept.refl _

/-- What the search does to the list: `r` is the slot that it returns. -/
structure Served (s : State) (l : List ℕ) (r : Option (ℕ × ℕ)) (s' : State) : Prop where
  head : s'.head = s.head
  kept : ∀ i, (s.info i).Kept (s'.info i)
  out : r = none → s'.next = s.next
  slot : ∀ t o, r = some (t, o) → t ∈ l ∧
    (∀ b ∈ l, (s.info t).prio < (s.info b).prio → (s.info b).Full) ∧
    (s'.next = s.head ∨ ∃ m ∈ l, s'.next = some m ∧ (s.info m).prio = (s.info t).prio)

/-- The search goes on after a device in which there is nothing. -/
theorem Served.of_quiet {s₁ : State} (hq : s.Quiet s₁)
    (hkept : ∀ i, (s.info i).Kept (s₁.info i)) (hhead : s₁.head = s.head)
    (hnext : s₁.next = s.next) (h : s₁.Served l r s') : s.Served l r s' := by
  refine ⟨h.head.trans hhead, fun i ↦ (hkept i).trans (h.kept i), fun hr ↦ (h.out hr).trans hnext,
    fun t o hr ↦ ?_⟩
  obtain ⟨ht, habove, hcursor⟩ := h.slot t o hr
  simp only [(hkept _).prio] at habove hcursor
  refine ⟨ht, fun b hb hlt i hi ↦ ?_, hhead ▸ hcursor⟩
  have hfull := habove b hb hlt i (by rwa [(hq.same b).max])
  rwa [(hq.same b).swapMap] at hfull

/-- At the end of a group nothing that follows has the same priority; otherwise the next one
does. -/
theorem Listed.endOfGroup_false {l₁ l₂ : List ℕ} {a : ℕ} (h : s.Listed (l₁ ++ a :: l₂))
    (hend : s.endOfGroup (s.info a) = false) :
    ∃ m l₃, l₂ = m :: l₃ ∧ (s.info a).next = some m ∧ (s.info m).prio = (s.info a).prio := by
  have hnext : (s.info a).next = l₂.head? := h.chain.next_eq
  match l₂ with
  | [] =>
    rw [endOfGroup, hnext] at hend
    simp at hend
  | m :: l₃ =>
    rw [endOfGroup, hnext] at hend
    simp only [List.head?_cons, decide_eq_false_iff_not, not_not] at hend
    exact ⟨m, l₃, rfl, hnext, hend.symm⟩

/-- What is above a device is before it. -/
theorem Listed.above_before {l₁ l₂ : List ℕ} {a : ℕ} (h : s.Listed (l₁ ++ a :: l₂))
    (hsplit : l = l₁ ++ a :: l₂) (hfull : ∀ b ∈ l₁, (s.info b).Full) :
    ∀ b ∈ l, (s.info a).prio < (s.info b).prio → (s.info b).Full := by
  intro b hb hlt
  rw [hsplit] at hb
  rcases mem_append.1 hb with hb | hb
  · exact hfull b hb
  · have hsorted := (pairwise_append.1 h.sorted).2.1
    rcases mem_cons.1 hb with rfl | hb
    · exact absurd hlt (lt_irrefl _)
    · exact absurd hlt (not_lt.2 (rel_of_pairwise_cons hsorted hb))

/-- **The loop of `get_swap_page`**, from a device of the list on.  In the first round nothing above
that device has a free slot; in the second one nothing before it has. -/
theorem Listed.getLoop {a : ℕ} {l₁ l₂ : List ℕ} {wrapped : Bool}
    (hs : ∀ i, (s.info i).flags ≠ .unused → (s.info i).Sound) (hl : s.Listed l)
    (hsplit : l = l₁ ++ a :: l₂) (hfuel : (if wrapped then 0 else l.length) + l₂.length < fuel)
    (hfull : wrapped = true → ∀ b ∈ l₁, (s.info b).Full)
    (habove : wrapped = false → ∀ b ∈ l, (s.info a).prio < (s.info b).prio → (s.info b).Full) :
    ∃ r s', State.getLoop fuel s (some a) wrapped = .ok (r, s') ∧ s.Served l r s' := by
  induction fuel generalizing s a l₁ l₂ wrapped with
  | zero => exact absurd hfuel (Nat.not_lt_zero _)
  | succ fuel ih =>
    have ha : a ∈ l := by simp [hsplit]
    have hflags := (hl.mem a).1 ha
    have hsound : (s.info a).Sound := hs a (by simp [hflags])
    rcases htry : s.tryDevice a with ⟨o, s₁⟩
    obtain ⟨hhead, hnext, hkept, hempty⟩ := tryDevice_kept hsound hflags htry
    have hprio : ∀ i, (s₁.info i).prio = (s.info i).prio := fun i ↦ (hkept i).prio
    have hl₁ := hl.kept hkept hhead
    have hinfo : s₁.endOfGroup (s.info a) = s₁.endOfGroup (s₁.info a) := by
      rw [endOfGroup, endOfGroup, (hkept a).next, (hkept a).prio]
    rw [getLoop, htry]
    dsimp only
    split
    · -- a slot has been found
      refine ⟨_, _, rfl, hhead, hkept, by simp, fun t o' hr ↦ ?_⟩
      obtain ⟨rfl, -⟩ := hr
      refine ⟨ha, ?_, ?_⟩
      · cases wrapped with
        | false => exact habove rfl
        | true => exact (hsplit ▸ hl).above_before hsplit (hfull rfl)
      · split
        · exact Or.inl hhead
        · rename_i hend
          rw [hinfo, Bool.not_eq_true] at hend
          obtain ⟨m, l₃, rfl, hm, hprio'⟩ := (hsplit ▸ hl₁).endOfGroup_false hend
          rw [(hkept a).next] at hm
          rw [hprio, hprio] at hprio'
          exact Or.inr ⟨m, by simp [hsplit], hm, hprio'⟩
    · rename_i h0
      rw [not_not] at h0
      have hq := (tryDevice_spec hs htry).2.1 h0
      have hs₁ := hq.all_sound hs
      have haFull : (s.info a).Full := hempty h0
      have hquiet : ∀ x : Except Fault (Option (ℕ × ℕ) × State),
          (∃ r s', x = .ok (r, s') ∧ s₁.Served l r s') →
          ∃ r s', x = .ok (r, s') ∧ s.Served l r s' := by
        rintro x ⟨r, s', hok, hserved⟩
        exact ⟨r, s', hok, hserved.of_quiet hq hkept hhead hnext⟩
      refine hquiet _ ?_
      have hnexta : (s.info a).next = l₂.head? := (hsplit ▸ hl).chain.next_eq
      cases wrapped with
      | false =>
        simp only [Bool.false_eq_true, ↓reduceIte] at hfuel
        cases hend : s₁.endOfGroup (s.info a) with
        | true =>
          -- back to the head of the list
          have hadv : s₁.advance (s.info a) false = some (s₁.head, true) := by
            rw [advance, if_pos rfl, if_pos hend]
          rw [hadv]
          obtain ⟨c, l', hcons⟩ := exists_cons_of_ne_nil (ne_nil_of_mem ha)
          have hc : s₁.head = some c := by rw [hl₁.chain.eq_head?, hcons, head?_cons]
          have hlen : l'.length < l.length := by simp [hcons]
          rw [hc]
          have hcons' : l = [] ++ c :: l' := hcons
          exact ih hs₁ hl₁ hcons' (by simp; omega) (fun _ b hb ↦ by simp at hb) (by simp)
        | false =>
          rw [hinfo] at hend
          obtain ⟨m, l₃, rfl, -, hprio'⟩ := (hsplit ▸ hl₁).endOfGroup_false hend
          have hadv : s₁.advance (s.info a) false = some (some m, false) := by
            rw [advance, hinfo, hend, hnexta]
            rfl
          rw [hadv]
          have hsplit' : l = (l₁ ++ [a]) ++ m :: l₃ := by simp [hsplit]
          refine ih hs₁ hl₁ hsplit' ?_ (by simp)
            fun _ b hb hlt ↦ (hkept b).full (habove rfl b hb ?_)
          · simp only [length_cons] at hfuel
            simpa using (by omega : l.length + l₃.length < fuel)
          · rwa [hprio', hprio, hprio] at hlt
      | true =>
        cases l₂ with
        | nil =>
          have hadv : s₁.advance (s.info a) true = none := by
            simp [advance, hnexta]
          rw [hadv]
          exact ⟨none, s₁, rfl, rfl, fun i ↦ .refl _, fun _ ↦ rfl, by simp⟩
        | cons m l₃ =>
          have hadv : s₁.advance (s.info a) true = some (some m, true) := by
            rw [advance, hnexta]
            rfl
          rw [hadv]
          have hsplit' : l = (l₁ ++ [a]) ++ m :: l₃ := by simp [hsplit]
          refine ih hs₁ hl₁ hsplit' ?_
            (fun _ b hb ↦ (hkept b).full ?_) (by simp)
          · simp only [length_cons] at hfuel
            simpa using (by omega : l₃.length < fuel)
          · rcases mem_append.1 hb with hb | hb
            · exact hfull rfl b hb
            · exact mem_singleton.1 hb ▸ haFull

/-- **The search for a slot ends**, and finds one in a device above which all are full. -/
theorem Listed.getSwapPage (hl : s.Listed l) (hinv : s.Inv d) (hc : s.Cursor l) :
    ∃ r s', s.getSwapPage = .ok (r, s') ∧ s.Served l r s' := by
  have hstay : s.Served l none s := ⟨rfl, fun i ↦ .refl _, fun _ ↦ rfl, by simp⟩
  rw [State.getSwapPage]
  split
  · exact ⟨_, _, rfl, hstay⟩
  split
  · exact ⟨_, _, rfl, hstay⟩
  rcases hc with ⟨hnone, -⟩ | ⟨n, hn, hsome, habove⟩
  · contradiction
  · obtain ⟨l₁, l₂, hsplit⟩ := append_of_mem hn
    have hlen := hl.length_le hinv
    have hlen₂ : l₂.length < l.length := by
      rw [hsplit, length_append, length_cons]
      omega
    rw [hsome]
    refine hl.getLoop hinv.sound hsplit ?_ (by simp) fun _ ↦ habove
    simp only [Bool.false_eq_true, ↓reduceIte]
    omega

theorem Served.listed (h : s.Served l r s') (hl : s.Listed l) : s'.Listed l :=
  hl.kept h.kept h.head

theorem Served.cursor (h : s.Served l r s') (hl : s.Listed l) (hc : s.Cursor l) : s'.Cursor l := by
  match r with
  | none => exact hc.kept h.kept (h.out rfl)
  | some (t, o) =>
    obtain ⟨-, habove, hcursor⟩ := h.slot t o rfl
    rcases hcursor with hhead | ⟨m, hm, hnext, hprio⟩
    · exact (h.listed hl).cursor_head (hhead.trans h.head.symm)
    · refine Or.inr ⟨m, hm, hnext, fun b hb hlt ↦ (h.kept b).full (habove b hb ?_)⟩
      rwa [(h.kept _).prio, (h.kept _).prio, hprio] at hlt

/-! ## Putting a device on the list -/

theorem findPlace_spec (prio : ℤ) (prev : Option ℕ) {i : Option ℕ}
    (hchain : Linked.Seg s.links i l none) (hfuel : l.length < fuel) :
    ∃ l₁ l₂, l = l₁ ++ l₂ ∧
      s.findPlace prio fuel prev i = .ok (l₁.getLast?.or prev, l₂.head?) ∧
      (∀ b ∈ l₁, prio < (s.info b).prio) ∧ ∀ b, l₂.head? = some b → (s.info b).prio ≤ prio := by
  induction l generalizing fuel prev i with
  | nil =>
    obtain ⟨fuel, rfl⟩ := Nat.exists_eq_add_of_lt hfuel
    obtain rfl : i = none := hchain
    exact ⟨[], [], rfl, by simp [findPlace], by simp, by simp⟩
  | cons a l ih =>
    match fuel with
    | 0 => exact absurd hfuel (Nat.not_lt_zero _)
    | fuel + 1 =>
      obtain ⟨rfl, hrest⟩ := hchain
      rw [findPlace]
      split
      · rename_i hle
        refine ⟨[], a :: l, rfl, by simp, by simp, fun b hb ↦ ?_⟩
        simp only [List.head?_cons, Option.some.injEq] at hb
        exact hb ▸ hle
      · rename_i hlt
        obtain ⟨l₁, l₂, rfl, hfind, hbefore, hafter⟩ :=
          ih (some a) hrest (by simpa using hfuel)
        refine ⟨a :: l₁, l₂, rfl, ?_, ?_, hafter⟩
        · show s.findPlace prio fuel (some a) (s.links a) = _
          rw [hfind, getLast?_cons]
          cases l₁.getLast? <;> rfl
        · intro b hb
          rcases mem_cons.1 hb with rfl | hb
          · exact not_le.1 hlt
          · exact hbefore b hb

/-- Where a device is put. -/
structure Inserted (s : State) (l : List ℕ) (t : ℕ) (s' : State) (l₁ l₂ : List ℕ) : Prop where
  split : l = l₁ ++ l₂
  before : ∀ b ∈ l₁, (s.info t).prio < (s.info b).prio
  after : ∀ b, l₂.head? = some b → (s.info b).prio ≤ (s.info t).prio
  info : ∀ i, ∃ n, s'.info i = { s.info i with next := n }
  chain : Linked.Seg s'.links s'.head (l₁ ++ t :: l₂) none
  cursor : s'.next = if l₁ = [] then some t else s.next

theorem insertSwap_inserted {t : ℕ} (hchain : Linked.Seg s.links s.head l none) (hnodup : l.Nodup)
    (ht : t ∉ l) (hlen : l.length ≤ maxSwapfiles) :
    ∃ s' l₁ l₂, s.insertSwap t = .ok s' ∧ s.Inserted l t s' l₁ l₂ := by
  obtain ⟨l₁, l₂, rfl, hfind, hbefore, hafter⟩ :=
    findPlace_spec (s.info t).prio none hchain (Nat.lt_succ_of_le hlen)
  rcases hlast : l₁.getLast? with _ | q
  · obtain rfl := getLast?_eq_none_iff.1 hlast
    have hins : s.insertSwap t = .ok { s.setInfo t { s.info t with next := l₂.head? } with
        head := some t
        next := some t } := by
      rw [insertSwap, hfind]
      rfl
    refine ⟨_, [], l₂, hins, rfl, hbefore, hafter, (insertSwap_spec hins).1, ?_, rfl⟩
    refine Linked.Seg.insert hchain hnodup ?_ (by simp) fun b hb _ ↦ ?_
    · simp [links, setInfo]
    · have hne : b ≠ t := ne_of_mem_of_not_mem hb ht
      simp [links, setInfo, hne]
  · have hq : q ∈ l₁ := mem_of_getLast? hlast
    have hne : q ≠ t := ne_of_mem_of_not_mem (mem_append_left l₂ hq) ht
    have hins : s.insertSwap t = .ok ((s.setInfo t { s.info t with next := l₂.head? }).setInfo q
        { s.info q with next := some t }) := by
      rw [insertSwap, hfind, hlast]
      simp [bind, Except.bind, setInfo, hne]
    have hl₁ : l₁ ≠ [] := ne_nil_of_mem hq
    refine ⟨_, l₁, l₂, hins, rfl, hbefore, hafter, (insertSwap_spec hins).1, ?_, ?_⟩
    · have hhead : s.head = (l₁ ++ t :: l₂).head? := by
        rw [hchain.eq_head?]
        cases l₁ with
        | nil => exact absurd rfl hl₁
        | cons c l₁ => rfl
      show Linked.Seg _ s.head _ none
      rw [hhead]
      refine Linked.Seg.insert hchain hnodup ?_ (fun q' hq' ↦ ?_) fun b hb hb' ↦ ?_
      · simp [links, setInfo, hne.symm]
      · rw [hlast, Option.some.injEq] at hq'
        simp [links, setInfo, ← hq']
      · have hbt : b ≠ t := ne_of_mem_of_not_mem hb ht
        have hbq : b ≠ q := by
          rintro rfl
          exact hb' hlast
        simp [links, setInfo, hbt, hbq]
    · rw [if_neg hl₁]
      rfl

/-- The list, when `t` is not on it and may or may not be one that can be written to. -/
structure ListedBut (s : State) (l : List ℕ) (t : ℕ) : Prop where
  chain : Linked.Seg s.links s.head l none
  nodup : l.Nodup
  notMem : t ∉ l
  mem : ∀ i ≠ t, (i ∈ l ↔ (s.info i).flags = .writeok)
  sorted : l.Pairwise fun a b ↦ (s.info b).prio ≤ (s.info a).prio

/-- A device of this priority would be behind the head of the list, but before `swap_list.next`. -/
def Overtakes (s : State) (prio : ℤ) : Prop :=
  ∃ n h, s.next = some n ∧ s.head = some h ∧ (s.info n).prio < prio ∧ prio < (s.info h).prio

variable {l₁ l₂ : List ℕ} {t : ℕ} {s₁ : State}

/-- What remains to be done after a device has been put on the list. -/
structure Completed (s₁ s' : State) (t : ℕ) : Prop where
  head : s'.head = s₁.head
  next : s'.next = s₁.next
  self : (s'.info t).flags = .writeok
  links : s'.links = s₁.links
  flags : ∀ i ≠ t, (s'.info i).flags = (s₁.info i).flags
  rest : ∀ i, (s'.info i).prio = (s₁.info i).prio ∧ (s'.info i).max = (s₁.info i).max ∧
    (s'.info i).swapMap = (s₁.info i).swapMap

theorem Inserted.prio_eq (h : s.Inserted l t s₁ l₁ l₂) (hc : s₁.Completed s' t) (i : ℕ) :
    (s'.info i).prio = (s.info i).prio := by
  obtain ⟨n, hn⟩ := h.info i
  rw [(hc.rest i).1, hn]

theorem Inserted.listed (h : s.Inserted l t s₁ l₁ l₂) (hl : s.ListedBut l t)
    (hc : s₁.Completed s' t) : s'.Listed (l₁ ++ t :: l₂) := by
  have hsplit := h.split
  have hperm : (l₁ ++ t :: l₂).Perm (t :: l) := by
    rw [hsplit]
    exact perm_middle
  refine ⟨?_, ?_, fun i ↦ ?_, ?_⟩
  · rw [hc.links, hc.head]
    exact h.chain
  · rw [hperm.nodup_iff]
    exact nodup_cons.2 ⟨hl.notMem, hl.nodup⟩
  · rw [hperm.mem_iff, mem_cons]
    rcases eq_or_ne i t with rfl | hne
    · simp [hc.self]
    · obtain ⟨n, hn⟩ := h.info i
      rw [hc.flags i hne, hn, hl.mem i hne]
      simp [hne]
  · simp only [h.prio_eq hc]
    have hsorted := pairwise_append.1 (hsplit ▸ hl.sorted)
    have hafter : ∀ b ∈ l₂, (s.info b).prio ≤ (s.info t).prio := by
      intro b hb
      match l₂ with
      | c :: l₂ =>
        have hc' := h.after c rfl
        rcases mem_cons.1 hb with rfl | hb
        · exact hc'
        · exact (rel_of_pairwise_cons hsorted.2.1 hb).trans hc'
    refine pairwise_append.2 ⟨hsorted.1, pairwise_cons.2 ⟨hafter, hsorted.2.1⟩, ?_⟩
    intro a ha b hb
    rcases mem_cons.1 hb with rfl | hb
    · exact (h.before a ha).le
    · exact hsorted.2.2 a ha b hb

theorem Inserted.cursor_ok (h : s.Inserted l t s₁ l₁ l₂) (hl : s.ListedBut l t)
    (hc : s₁.Completed s' t) (hcursor : s.Cursor l)
    (hcare : ¬ s.Overtakes (s.info t).prio ∨ (s.info t).Full) : s'.Cursor (l₁ ++ t :: l₂) := by
  have hnext := hc.next.trans h.cursor
  have hfull : ∀ i, (s.info i).Full → (s'.info i).Full := by
    intro i hi o ho
    obtain ⟨n, hn⟩ := h.info i
    rw [(hc.rest i).2.1, hn] at ho
    rw [(hc.rest i).2.2, hn]
    exact hi o ho
  split at hnext
  · rename_i hnil
    subst hnil
    have hlisted := h.listed hl hc
    exact hlisted.cursor_head (hnext.trans hlisted.chain.1.symm)
  · rename_i hne
    have hsplit := h.split
    rcases hcursor with ⟨-, rfl⟩ | ⟨n, hn, hsome, habove⟩
    · exact absurd (append_eq_nil_iff.1 hsplit.symm).1 hne
    refine Or.inr ⟨n, ?_, hnext.trans hsome, fun b hb hlt ↦ hfull b ?_⟩
    · rw [hsplit] at hn
      rcases mem_append.1 hn with hn | hn <;> simp [hn]
    · rw [h.prio_eq hc, h.prio_eq hc] at hlt
      have hmem : b = t ∨ b ∈ l := by
        rw [hsplit]
        simpa [or_left_comm] using hb
      rcases hmem with rfl | hb
      · -- the new device itself: the head of the list is above it
        refine hcare.resolve_left fun hno ↦ hno ?_
        obtain ⟨c, l', hcons⟩ := exists_cons_of_ne_nil hne
        refine ⟨n, c, hsome, ?_, hlt, h.before c (by simp [hcons])⟩
        rw [hl.chain.eq_head?, hsplit, hcons]
        rfl
      · exact habove b hb hlt

/-! ## Taking a device off the list -/

theorem findFile_split (file : ℕ) (prev : Option ℕ) {type : Option ℕ}
    (hchain : Linked.Seg s.links type l none) (hfuel : l.length < fuel) :
    (∃ q, s.findFile file fuel prev type = .ok (q, none)) ∨
    ∃ l₁ t l₂, l = l₁ ++ t :: l₂ ∧
      s.findFile file fuel prev type = .ok (l₁.getLast?.or prev, some t) := by
  induction l generalizing fuel prev type with
  | nil =>
    obtain ⟨fuel, rfl⟩ := Nat.exists_eq_add_of_lt hfuel
    obtain rfl : type = none := hchain
    exact Or.inl ⟨prev, by simp [findFile]⟩
  | cons a l ih =>
    cases fuel with
    | zero => exact absurd hfuel (Nat.not_lt_zero _)
    | succ fuel =>
      obtain ⟨rfl, hrest⟩ := hchain
      rw [findFile]
      split
      · exact Or.inr ⟨[], a, l, rfl, by simp⟩
      · rcases ih (some a) hrest (by simpa using hfuel) with hnone | ⟨l₁, t, l₂, rfl, hfind⟩
        · exact Or.inl hnone
        · refine Or.inr ⟨a :: l₁, t, l₂, rfl, ?_⟩
          show s.findFile file fuel (some a) (s.links a) = _
          rw [hfind, getLast?_cons]
          cases l₁.getLast? <;> rfl

/-- How a device is taken off the list. -/
structure Removed (s s' : State) (l₁ : List ℕ) (t : ℕ) : Prop where
  info : ∀ i, ∃ n, s'.info i = { s.info i with
    next := n
    flags := if i = t then .used else (s.info i).flags }
  prev : ∀ q, l₁.getLast? = some q → s'.links q = s.links t
  other : ∀ i, i ≠ t → l₁.getLast? ≠ some i → s'.links i = s.links i
  head : s'.head = if l₁ = [] then s.links t else s.head
  cursor : s'.next = if s.next = some t then s'.head else s.next

theorem swapoffStart_removed
    (hfind : s.findFile file (maxSwapfiles + 1) none s.head = .ok (l₁.getLast?, some t)) :
    ∃ s', s.swapoffStart file = .ok s' ∧ s.Removed s' l₁ t := by
  obtain ⟨s', hoff, hinfo, hhead, hnext, -⟩ := swapoffStart_found hfind
  refine ⟨s', hoff, fun i ↦ ⟨_, hinfo i⟩, fun q hq ↦ ?_, fun i _ hi ↦ ?_, ?_, hnext⟩
  · rw [links, hinfo, if_pos hq, links]
  · rw [links, hinfo, if_neg hi, links]
  · simpa only [getLast?_eq_none_iff, links] using hhead

theorem Removed.listed (h : s.Removed s' l₁ t) (hl : s.Listed (l₁ ++ t :: l₂)) :
    s'.Listed (l₁ ++ l₂) := by
  have hperm : (l₁ ++ t :: l₂).Perm (t :: (l₁ ++ l₂)) := perm_middle
  obtain ⟨ht, hnodup⟩ := nodup_cons.1 (hperm.nodup_iff.1 hl.nodup)
  have hprio : ∀ i, (s'.info i).prio = (s.info i).prio := by
    intro i
    obtain ⟨n, hn⟩ := h.info i
    rw [hn]
  have hhead : s'.head = (l₁ ++ l₂).head? := by
    rw [h.head]
    match l₁ with
    | [] => exact Linked.Seg.next_eq (show Linked.Seg _ _ ([] ++ t :: l₂) none from hl.chain)
    | c :: l₁ => exact hl.chain.eq_head?
  refine ⟨?_, hnodup, fun i ↦ ?_, ?_⟩
  · rw [hhead]
    exact hl.chain.remove hl.nodup h.prev fun b hb hb' ↦ h.other b (ne_of_mem_of_not_mem hb ht) hb'
  · obtain ⟨n, hn⟩ := h.info i
    rw [hn]
    rcases eq_or_ne i t with rfl | hne
    · simp [ht]
    · rw [if_neg hne, ← hl.mem i, hperm.mem_iff]
      simp [hne]
  · simp only [hprio]
    exact hl.sorted.sublist (Sublist.append_left (sublist_cons_self t l₂) l₁)

theorem Removed.cursor_ok (h : s.Removed s' l₁ t) (hl : s.Listed (l₁ ++ t :: l₂))
    (hc : s.Cursor (l₁ ++ t :: l₂)) : s'.Cursor (l₁ ++ l₂) := by
  have hnext := h.cursor
  split at hnext
  · exact (h.listed hl).cursor_head hnext
  · rename_i hne
    rcases hc with ⟨-, hnil⟩ | ⟨n, hn, hsome, habove⟩
    · simp at hnil
    refine Or.inr ⟨n, ?_, hnext.trans hsome, fun b hb hlt ↦ ?_⟩
    · rcases mem_append.1 hn with hn | hn
      · exact mem_append_left _ hn
      · rcases mem_cons.1 hn with rfl | hn
        · exact absurd hsome hne
        · exact mem_append_right _ hn
    · obtain ⟨_, hb'⟩ := h.info b
      obtain ⟨_, hn'⟩ := h.info n
      rw [hb', hn'] at hlt
      rw [hb']
      refine habove b ?_ hlt
      rcases mem_append.1 hb with hb | hb <;> simp [hb]

/-- **A device is taken off the list.** -/
theorem Listed.swapoffStart (file : ℕ) (hl : s.Listed l) (hlen : l.length ≤ maxSwapfiles)
    (hc : s.Cursor l) : ∃ s' l', s.swapoffStart file = .ok s' ∧ s'.Listed l' ∧ s'.Cursor l' := by
  rcases findFile_split file none hl.chain (Nat.lt_succ_of_le hlen) with
    ⟨q, hfind⟩ | ⟨l₁, t, l₂, rfl, hfind⟩
  · exact ⟨s, l, by rw [State.swapoffStart, hfind]; rfl, hl, hc⟩
  · rw [Option.or_none] at hfind
    obtain ⟨s', hoff, hremoved⟩ := swapoffStart_removed hfind
    exact ⟨s', l₁ ++ l₂, hoff, hremoved.listed hl, hremoved.cursor_ok hl hc⟩

/-! ## The other calls -/

/-- A device that is not on the list changes. -/
theorem Listed.but (hl : s.Listed l) (ht : t ∉ l) (hother : ∀ i ≠ t, s'.info i = s.info i)
    (hhead : s'.head = s.head) : s'.ListedBut l t := by
  have hmem : ∀ b ∈ l, s'.info b = s.info b := fun b hb ↦ hother b (ne_of_mem_of_not_mem hb ht)
  refine ⟨?_, hl.nodup, ht, fun i hi ↦ ?_, ?_⟩
  · rw [hhead]
    exact hl.chain.congr fun b hb ↦ congrArg SwapInfo.next (hmem b hb)
  · rw [hother i hi]
    exact hl.mem i
  · refine hl.sorted.imp_of_mem fun ha hb hab ↦ ?_
    rwa [hmem _ ha, hmem _ hb]

theorem ListedBut.listed (hl : s.ListedBut l t) (hflags : (s.info t).flags ≠ .writeok) :
    s.Listed l := by
  refine ⟨hl.chain, hl.nodup, fun i ↦ ?_, hl.sorted⟩
  rcases eq_or_ne i t with rfl | hne
  · simp [hl.notMem, hflags]
  · exact hl.mem i hne

theorem Cursor.off (hc : s.Cursor l) (ht : t ∉ l) (hother : ∀ i ≠ t, s'.info i = s.info i)
    (hnext : s'.next = s.next) : s'.Cursor l := by
  have hmem : ∀ b ∈ l, s'.info b = s.info b := fun b hb ↦ hother b (ne_of_mem_of_not_mem hb ht)
  refine hc.imp hnext fun n hn _ b hb hlt ↦ ?_
  rw [hmem b hb, hmem n hn] at hlt
  rw [hmem b hb]
  exact ⟨hlt, id⟩

theorem sysSwapon_cases {size : ℕ} {prefer : Option ℕ} {header : Header} {ok : Bool}
    (h : s.sysSwapon file prefer size header ok = .ok s') : s' = s ∨
    ((∀ i ≠ s.freeType, s'.info i = s.info i) ∧ (s'.info s.freeType).flags = .unused ∧
      s'.head = s.head ∧ s'.next = s.next) ∨
    ∃ s₁ : State, s₁.insertSwap s.freeType = .ok s' ∧ (∀ i ≠ s.freeType, s₁.info i = s.info i) ∧
      (s₁.info s.freeType).flags = .writeok ∧ s₁.head = s.head ∧ s₁.next = s.next ∧
      (s₁.info s.freeType).prio = prefer.elim (s.leastPriority - 1) fun prio ↦ (prio : ℤ) := by
  rw [sysSwapon] at h
  dsimp only at h
  split at h
  · simp only [Except.ok.injEq] at h
    exact Or.inl h.symm
  split at h
  · simp at h
  · cases h
    refine Or.inr (Or.inl ⟨fun i hi ↦ ?_, ?_, rfl, rfl⟩)
    · simp [setInfo, hi]
    · simp [setInfo]
  · refine Or.inr (Or.inr ⟨_, h, fun i hi ↦ ?_, ?_, rfl, rfl, ?_⟩)
    · simp [setInfo, hi]
    · simp [setInfo]
    · simp [setInfo]

theorem Listed.sysSwapon {size : ℕ} {prefer : Option ℕ} {header : Header} {ok : Bool}
    (hl : s.Listed l) (hinv : s.Inv d) (hc : s.Cursor l)
    (h : s.sysSwapon file prefer size header ok = .ok s')
    (hcare : ¬ s.Overtakes (prefer.elim (s.leastPriority - 1) fun prio ↦ (prio : ℤ))) :
    ∃ l', s'.Listed l' ∧ s'.Cursor l' := by
  have hfree := (freeType_spec hinv.above).2
  have ht : s.freeType ∉ l := by simp [hl.mem, hfree]
  rcases sysSwapon_cases h with rfl | ⟨hother, hflags, hhead, hnext⟩ |
    ⟨s₁, hins, hother, hflags, hhead, hnext, hprio⟩
  · exact ⟨l, hl, hc⟩
  · exact ⟨l, (hl.but ht hother hhead).listed (by simp [hflags]), hc.off ht hother hnext⟩
  · have hmem : ∀ b ∈ l, s₁.info b = s.info b := fun b hb ↦ hother b (ne_of_mem_of_not_mem hb ht)
    have hl₁ := hl.but ht hother hhead
    obtain ⟨s₂, l₁, l₂, hins', hinserted⟩ :=
      insertSwap_inserted hl₁.chain hl₁.nodup ht (hl.length_le hinv)
    cases hins.symm.trans hins'
    obtain ⟨n, hself⟩ := hinserted.info s.freeType
    have hdone : s'.Completed s' s.freeType :=
      ⟨rfl, rfl, by rw [hself]; exact hflags, rfl, fun _ _ ↦ rfl, fun _ ↦ ⟨rfl, rfl, rfl⟩⟩
    refine ⟨_, hinserted.listed hl₁ hdone, hinserted.cursor_ok hl₁ hdone
      (hc.off ht hother hnext) (Or.inl fun hover ↦ ?_)⟩
    -- the devices concerned are the same before
    obtain ⟨m, q, hm, hq, hlt, hgt⟩ := hover
    have hcursor := hc
    rcases hcursor with ⟨hnone, -⟩ | ⟨m', hm', hsome, -⟩
    · rw [hnext, hnone] at hm
      simp at hm
    obtain rfl : m' = m := Option.some.inj (hsome.symm.trans (hnext.symm.trans hm))
    have hqmem : q ∈ l := by
      rw [hhead, hl.chain.eq_head?] at hq
      exact mem_of_mem_head? hq
    rw [hmem _ hm'] at hlt
    rw [hmem _ hqmem] at hgt
    exact hcare ⟨m', q, hsome, hhead ▸ hq, hprio ▸ hlt, hprio ▸ hgt⟩

theorem Listed.swapoffFail (hl : s.Listed l) (hinv : s.Inv d) (hc : s.Cursor l)
    (hflags : (s.info t).flags = .used) (h : s.swapoffFail t = .ok s')
    (hcare : ¬ s.Overtakes (s.info t).prio ∨ (s.info t).Full) :
    ∃ l', s'.Listed l' ∧ s'.Cursor l' := by
  have ht : t ∉ l := by simp [hl.mem, hflags]
  have hl₁ := hl.but ht (fun _ _ ↦ rfl) rfl
  obtain ⟨s₂, l₁, l₂, hins, hinserted⟩ :=
    insertSwap_inserted hl₁.chain hl₁.nodup ht (hl.length_le hinv)
  rw [State.swapoffFail, hins] at h
  simp only [bind, Except.bind, Except.ok.injEq] at h
  subst h
  set s' : State := { s₂.setInfo t { s₂.info t with flags := .writeok } with
    nrSwapPages := s₂.nrSwapPages + (s₂.info t).pages
    totalSwapPages := s₂.totalSwapPages + (s₂.info t).pages }
  have hself : s'.info t = { s₂.info t with flags := .writeok } := update_self _ _ _
  have hother : ∀ i ≠ t, s'.info i = s₂.info i := fun i hi ↦ update_of_ne hi _ _
  have hdone : s₂.Completed s' t := by
    refine ⟨rfl, rfl, by rw [hself], funext fun i ↦ ?_, fun i hi ↦ by rw [hother i hi], fun i ↦ ?_⟩
    · rcases eq_or_ne i t with rfl | hne
      · rw [links, hself, links]
      · rw [links, hother i hne, links]
    · rcases eq_or_ne i t with rfl | hne
      · rw [hself]
        exact ⟨rfl, rfl, rfl⟩
      · rw [hother i hne]
        exact ⟨rfl, rfl, rfl⟩
  exact ⟨_, hinserted.listed hl₁ hdone, hinserted.cursor_ok hl₁ hdone hc hcare⟩

/-- What `swap_info_get` compares the priority of a device with. -/
def cursorPrio (s : State) (junk : ℤ) : ℤ := s.next.elim junk fun n ↦ (s.info n).prio

theorem Cursor.swapInfoGet (junk : ℤ) (hl : s.Listed l) (hc : s.Cursor l)
    (hcare : (s.info t).flags ≠ .writeok → (s.info t).prio ≤ s.cursorPrio junk) :
    (s.swapInfoGet t junk).Cursor l ∧ ∀ n, (s.swapInfoGet t junk).next = some n →
      t ∈ l → (s.info t).prio ≤ (s.info n).prio := by
  rw [State.swapInfoGet]
  split
  · rename_i hlt
    have ht : t ∈ l := by
      rw [hl.mem]
      by_contra hno
      exact absurd hlt (not_lt.2 (hcare hno))
    refine ⟨Or.inr ⟨t, ht, rfl, fun b hb hlt' ↦ ?_⟩, fun n hn _ ↦ ?_⟩
    · rcases hc with ⟨-, rfl⟩ | ⟨n, -, hsome, habove⟩
      · simp at ht
      · rw [hsome] at hlt
        exact habove b hb (lt_trans hlt hlt')
    · rw [Option.some.inj hn]
  · rename_i hle
    refine ⟨hc, fun n hn _ ↦ ?_⟩
    rw [hn] at hle
    exact not_lt.1 hle

theorem swapEntryFree_frame (s : State) (t o i : ℕ) :
    ((s.swapEntryFree t o).info i).prio = (s.info i).prio ∧
      ((s.swapEntryFree t o).info i).next = (s.info i).next ∧
      ((s.swapEntryFree t o).info i).flags = (s.info i).flags ∧
      (i ≠ t → (s.swapEntryFree t o).info i = s.info i) := by
  rw [swapEntryFree]
  rcases eq_or_ne i t with rfl | hne
  · split_ifs <;> simp [setInfo]
  · split_ifs <;> simp [setInfo, hne]

theorem swapEntryFree_ends (s : State) (t o : ℕ) :
    (s.swapEntryFree t o).head = s.head ∧ (s.swapEntryFree t o).next = s.next := by
  rw [swapEntryFree]
  split_ifs <;> exact ⟨rfl, rfl⟩

/-- A slot of a device below `swap_list.next` is freed. -/
theorem Cursor.swapEntryFree (hc : s.Cursor l)
    (hbelow : ∀ n, s.next = some n → t ∈ l → (s.info t).prio ≤ (s.info n).prio) :
    (s.swapEntryFree t o).Cursor l := by
  have hframe := s.swapEntryFree_frame t o
  refine hc.imp (s.swapEntryFree_ends t o).2 fun n _ hsome b hb hlt ↦ ?_
  rw [(hframe n).1, (hframe b).1] at hlt
  rcases eq_or_ne b t with rfl | hne
  · exact absurd hlt (not_lt.2 (hbelow n hsome hb))
  · rw [(hframe b).2.2.2 hne]
    exact ⟨hlt, id⟩

theorem Listed.swapEntryFree (hl : s.Listed l) (o : ℕ) : (s.swapEntryFree t o).Listed l := by
  have hframe := s.swapEntryFree_frame t o
  refine hl.congr (fun i _ ↦ ⟨(hframe i).1, (hframe i).2.1⟩) (fun i ↦ ?_)
    (s.swapEntryFree_ends t o).1
  rw [(hframe i).2.2.1]
  exact hl.mem i

theorem Listed.swapFree {junk : ℤ} (hl : s.Listed l) (hc : s.Cursor l)
    (hcare : (s.info t).flags = .used → s.valid t o → (s.info t).prio ≤ s.cursorPrio junk) :
    (s.swapFree t o junk).Listed l ∧ (s.swapFree t o junk).Cursor l := by
  rw [State.swapFree]
  split
  · rename_i hvalid
    have hused : (s.info t).flags ≠ .unused := by
      simp only [valid, decide_eq_true_eq] at hvalid
      exact hvalid.2.2.1
    obtain ⟨hc', hbelow⟩ := Cursor.swapInfoGet (t := t) junk hl hc fun hno ↦ by
      cases hflags : (s.info t).flags with
      | unused => exact absurd hflags hused
      | used => exact hcare hflags hvalid
      | writeok => exact absurd hflags hno
    have hinfo := swapInfoGet_info (s := s) t junk
    have hhead : (s.swapInfoGet t junk).head = s.head := by
      rw [State.swapInfoGet]
      split <;> rfl
    have hl' : (s.swapInfoGet t junk).Listed l :=
      hl.kept (fun i ↦ by rw [hinfo]; exact .refl _) hhead
    exact ⟨hl'.swapEntryFree o, hc'.swapEntryFree (by rwa [hinfo])⟩
  · exact ⟨hl, hc⟩

/-- One counter changes, but not to zero. -/
theorem kept_setInfo {v : ℕ} (hv : v ≠ 0) (i : ℕ) :
    (s.info i).Kept ((s.setInfo t ((s.info t).setSlot o v)).info i) := by
  rcases eq_or_ne i t with rfl | hne
  · simpa [setInfo] using (s.info i).kept_setSlot o hv
  · simpa [setInfo, hne] using SwapInfo.Kept.refl _

theorem swapDuplicate_kept (t o : ℕ) : (∀ i, (s.info i).Kept ((s.swapDuplicate t o).2.info i)) ∧
    (s.swapDuplicate t o).2.head = s.head ∧ (s.swapDuplicate t o).2.next = s.next := by
  rw [swapDuplicate]
  split
  · split
    · exact ⟨kept_setInfo (Nat.succ_ne_zero _), rfl, rfl⟩
    split
    · exact ⟨kept_setInfo (by decide), rfl, rfl⟩
    · exact ⟨fun i ↦ .refl _, rfl, rfl⟩
  · exact ⟨fun i ↦ .refl _, rfl, rfl⟩

end State

/-! ## Runs -/

/-- What keeps the order: a device that is put on the list does not come between its head and
`swap_list.next`, unless it is full, and no slot of a device that is being removed is freed whose
priority is above that of `swap_list.next`. -/
def Careful (w : World) : Call → Prop
  | .sysSwapon _ prefer _ _ _ =>
    ¬ w.st.Overtakes (prefer.elim (w.st.leastPriority - 1) fun prio ↦ (prio : ℤ))
  | .swapFree t o junk => (w.st.info t).flags = .used → w.st.valid t o →
    (w.st.info t).prio ≤ w.st.cursorPrio junk
  | .swapoffFail t => ¬ w.st.Overtakes (w.st.info t).prio ∨ (w.st.info t).Full
  | _ => True

namespace World

variable {w w' : World} {a : Call}

theorem listed_step {d : ℤ} (hinv : w.st.Inv d) (hl : Legal w a) (hcare : Careful w a)
    (he : w.exec a = .ok w') (h : ∃ l, w.st.Listed l ∧ w.st.Cursor l) :
    ∃ l, w'.st.Listed l ∧ w'.st.Cursor l := by
  obtain ⟨l, hlist, hcursor⟩ := h
  match a with
  | .sysSwapon file prefer size header ok =>
    obtain ⟨s', hon, rfl⟩ := bind_return he
    exact hlist.sysSwapon hinv hcursor hon hcare
  | .getSwapPage =>
    obtain ⟨⟨r, s'⟩, hget, rfl⟩ := bind_return he
    obtain ⟨r', s'', hget', hserved⟩ := hlist.getSwapPage hinv hcursor
    cases hget.symm.trans hget'
    match r with
    | none => exact ⟨l, hserved.listed hlist, hserved.cursor hlist hcursor⟩
    | some (t, o) => exact ⟨l, hserved.listed hlist, hserved.cursor hlist hcursor⟩
  | .swapDuplicate t o =>
    simp only [exec, Except.ok.injEq] at he
    obtain ⟨hkept, hhead, hnext⟩ := State.swapDuplicate_kept t o
    rw [← he, (w.duplicated_st t o _).1]
    exact ⟨l, hlist.kept hkept hhead, hcursor.kept hkept hnext⟩
  | .swapFree t o junk =>
    cases he
    exact ⟨l, hlist.swapFree hcursor hcare⟩
  | .swapoffStart file =>
    obtain ⟨s', hoff, rfl⟩ := bind_return he
    obtain ⟨s'', l', hoff', hlist', hcursor'⟩ :=
      hlist.swapoffStart file (hlist.length_le hinv) hcursor
    cases hoff.symm.trans hoff'
    exact ⟨l', hlist', hcursor'⟩
  | .resetOverflow t o =>
    cases he
    have hkept : ∀ i, (w.st.info i).Kept ((w.st.resetOverflow t o).info i) :=
      State.kept_setInfo one_ne_zero
    exact ⟨l, hlist.kept hkept rfl, hcursor.kept hkept rfl⟩
  | .swapoffFail t =>
    obtain ⟨s', hoff, rfl⟩ := bind_return he
    exact hlist.swapoffFail hinv hcursor hl hoff hcare
  | .swapoffDone t =>
    cases he
    have ht : t ∉ l := by simp [hlist.mem, hl.1]
    have hother : ∀ i ≠ t, (w.st.swapoffDone t).info i = w.st.info i :=
      fun i hi ↦ update_of_ne hi _ _
    refine ⟨l, (hlist.but ht hother rfl).listed ?_, hcursor.off ht hother rfl⟩
    simp [State.swapoffDone, State.setInfo]

theorem listed_of_path (h : machine.Path Careful initial w) :
    ∃ l, w.st.Listed l ∧ w.st.Cursor l := by
  induction h with
  | refl => exact ⟨[], ⟨rfl, nodup_nil, fun _ ↦ by simp [initial], .nil⟩, Or.inl ⟨rfl, rfl⟩⟩
  | step hpath hl hcare he ih =>
    exact listed_step (inv_of_reachable (hpath.reachable (.init rfl))) hl hcare he ih

end World

/-- What the list and `swap_list.next` are for. -/
structure State.Ordered (s : State) : Prop where
  /-- `swap_list.next` is on the list, if there is anything on it. -/
  cursor : s.next = none ∨ ∃ l n, Linked.Seg s.links s.head l none ∧ n ∈ l ∧ s.next = some n
  /-- `get_swap_page` comes to an end. -/
  returns : ∃ r, s.getSwapPage = .ok r
  /-- Its slot is of a device that can be written to, and no device of a higher priority that can be
  written to has a free slot. -/
  best : ∀ t o s', s.getSwapPage = .ok (some (t, o), s') → (s.info t).flags = .writeok ∧
    ∀ i, (s.info i).flags = .writeok → (∃ o < (s.info i).max, (s.info i).swapMap o = 0) →
      (s.info i).prio ≤ (s.info t).prio

theorem State.Listed.ordered {s : State} {l : List ℕ} {d : ℤ} (hl : s.Listed l) (hinv : s.Inv d)
    (hc : s.Cursor l) : s.Ordered := by
  obtain ⟨r, s', hget, hserved⟩ := hl.getSwapPage hinv hc
  refine ⟨?_, ⟨_, hget⟩, fun t o s'' hget' ↦ ?_⟩
  · rcases hc with ⟨hnone, -⟩ | ⟨n, hn, hsome, -⟩
    · exact Or.inl hnone
    · exact Or.inr ⟨l, n, hl.chain, hn, hsome⟩
  · simp only [hget, Except.ok.injEq, Prod.mk.injEq] at hget'
    obtain ⟨ht, habove, -⟩ := hserved.slot t o hget'.1
    refine ⟨(hl.mem t).1 ht, fun i hi hfree ↦ ?_⟩
    obtain ⟨o', ho', h0⟩ := hfree
    by_contra hlt
    exact habove i ((hl.mem i).2 hi) (not_le.1 hlt) o' ho' h0

/-- **Priority order.**  In every run of careful calls `swap_list.next` is on the list, and a slot
is handed out from a device of the highest priority of those that have one. -/
theorem swap_ordered {w : World} (h : machine.Path Careful initial w) : w.st.Ordered := by
  obtain ⟨l, hl, hc⟩ := World.listed_of_path h
  exact hl.ordered (World.inv_of_reachable (h.reachable (.init rfl))) hc

/-- Two devices, of which the one with the higher priority is being used. -/
theorem swap_ordered_pair : ∃ w, machine.Path Careful initial w ∧ w.st.head = some 0 ∧
    (w.st.info 0).next = some 1 ∧ w.st.Ordered := by
  have hfirst : machine.Path Careful initial _ :=
    Machine.Path.refl.step (a := .sysSwapon 0 (some 5) 0 (.v2 1 3 []) true) (by decide)
      (fun hover ↦ by
        obtain ⟨n, h, hn, -⟩ := hover
        exact absurd hn (by simp [initial])) rfl
  have hsecond : machine.Path Careful initial _ :=
    hfirst.step (a := .sysSwapon 1 (some 1) 0 (.v2 1 3 []) true) (by decide)
      (fun hover ↦ by
        obtain ⟨n, h, hn, hh, hlt, hgt⟩ := hover
        cases hn
        cases hh
        exact absurd (hlt.trans hgt) (lt_irrefl _)) rfl
  have hpath : machine.Path Careful initial _ :=
    hsecond.step (a := .getSwapPage) trivial trivial rfl
  exact ⟨_, hpath, rfl, rfl, swap_ordered hpath⟩

/-- A slot is freed in a device that is being removed, and `swap_list.next` is not on the list; a
device is added behind a full one, and a slot is handed out from one of lower priority. -/
theorem swap_disordered :
    (∃ w, machine.Reachable w ∧ ¬ w.st.Ordered ∧ w.st.next = some 0 ∧ w.st.head = some 1 ∧
      (w.st.info 1).next = none) ∧
    ∃ w s', machine.Reachable w ∧ ¬ w.st.Ordered ∧ w.st.getSwapPage = .ok (some (1, 1), s') ∧
      (w.st.info 1).prio = 1 ∧ (w.st.info 3).prio = 5 ∧ (w.st.info 3).flags = .writeok ∧
      (w.st.info 3).swapMap 1 = 0 ∧ (w.st.info 3).max = 3 := by
  constructor
  · have h : machine.trace initial [.sysSwapon 0 (some 5) 0 (.v2 1 2 []) true,
        .sysSwapon 1 (some 1) 0 (.v2 1 2 []) true, .getSwapPage, .swapoffStart 0,
        .swapFree 0 1 0] = some _ := rfl
    refine ⟨_, (Machine.Reachable.init rfl).trace h, fun hord ↦ ?_, rfl, rfl, rfl⟩
    rcases hord.cursor with hnone | ⟨l, n, hchain, hn, hsome⟩
    · exact absurd hnone (by decide)
    · cases hsome
      obtain rfl : l = [1] := hchain.unique ⟨rfl, rfl⟩
      exact absurd hn (by decide)
  · have h : machine.trace initial [.sysSwapon 0 (some 10) 0 (.v2 1 2 []) true,
        .sysSwapon 1 (some 1) 0 (.v2 1 3 []) true, .sysSwapon 2 (some 1) 0 (.v2 1 3 []) true,
        .getSwapPage, .getSwapPage, .sysSwapon 3 (some 5) 0 (.v2 1 3 []) true] = some _ := rfl
    refine ⟨_, _, (Machine.Reachable.init rfl).trace h, fun hord ↦ ?_, rfl, rfl, rfl, rfl, rfl, rfl⟩
    have hle := (hord.best 1 1 _ rfl).2 3 rfl ⟨1, by decide, rfl⟩
    exact absurd hle (by decide)

end Linux24.Swap
