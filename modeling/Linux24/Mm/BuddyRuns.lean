import Linux24.Mm.Buddy

/-!
# Every run of the buddy allocator

`Linux24.Mm.Buddy` says what one call does to the invariant of a zone.  This file closes the loop
around it: the blocks that are not on a free list are *held* — handed out, or parked on some
`local_pages` — and `WorldInv` says that the listed and the held blocks together cover the released
pages, each once.

* `buddy_safe` is the safety of the allocator: disjoint, aligned blocks inside the zone, a correct
  page counter, and no `BUG()` and no stray bit in any legal call.
* `buddy_complete` says that coalescing never misses anything: what is on the lists is exactly the
  set of maximal aligned free blocks.  In particular the lists are a function of the set of free
  pages, whatever the order of the calls.
-/

set_option autoImplicit false

open Blocks

namespace Linux24.PageAlloc

open List

/-! ## Blocks of a world -/

/-- The listed blocks, as (first page, order). -/
def listed (s : State) : List (ℕ × ℕ) :=
  (List.range maxOrder).flatMap fun o ↦ (s.freeList o).map fun p ↦ (p, o)

/-- The blocks that are out of the zone's hands.  A block that `__free_pages_ok` parks on
`current->local_pages` has not been given back yet. -/
def World.held (w : World) : List (ℕ × ℕ) := w.outstanding ++ w.zone.localPages

/-- All blocks. -/
def World.blocks (w : World) : List (ℕ × ℕ) := listed w.zone ++ w.held

/-- How many blocks of the list contain `q`. -/
def cover (l : List (ℕ × ℕ)) (q : ℕ) : ℕ := (l.map fun b ↦ ind b.1 b.2 q).sum

@[simp] theorem cover_nil (q : ℕ) : cover [] q = 0 := rfl

@[simp] theorem cover_cons (b : ℕ × ℕ) (l : List (ℕ × ℕ)) (q : ℕ) :
    cover (b :: l) q = ind b.1 b.2 q + cover l q := rfl

@[simp] theorem cover_append (l m : List (ℕ × ℕ)) (q : ℕ) :
    cover (l ++ m) q = cover l q + cover m q := by
  simp [cover]

variable {l : List (ℕ × ℕ)} {b : ℕ × ℕ} {q o : ℕ} {z : Zone} {w : World}

theorem cover_erase (h : b ∈ l) (q : ℕ) :
    ind b.1 b.2 q + cover (l.erase b) q = cover l q :=
  ((perm_cons_erase h).map fun c : ℕ × ℕ ↦ ind c.1 c.2 q).sum_eq.symm

theorem mem_listed {s : State} :
    b ∈ listed s ↔ b.2 < maxOrder ∧ b.1 ∈ s.freeList b.2 := by
  obtain ⟨p, o⟩ := b
  simp only [listed, mem_flatMap, mem_range, mem_map, Prod.mk.injEq]
  constructor
  · rintro ⟨o', ho', p', hp', rfl, rfl⟩
    exact ⟨ho', hp'⟩
  · rintro ⟨ho, hp⟩
    exact ⟨o, ho, p, hp, rfl, rfl⟩

/-- A sum over the free lists is a sum over the list of listed blocks. -/
theorem total_eq (f : ℕ → ℕ → ℕ) (s : State) :
    total f s.freeList = ((listed s).map fun b ↦ f b.2 b.1).sum := by
  have h : ∀ l : List ℕ, (l.map fun o ↦ ((s.freeList o).map (f o)).sum).sum =
      ((l.flatMap fun o ↦ (s.freeList o).map fun p ↦ (p, o)).map fun b ↦ f b.2 b.1).sum := by
    intro l
    induction l with
    | nil => rfl
    | cons o l ih => simp [ih, Function.comp_def]
  exact h (range maxOrder)

theorem count_eq_cover (s : State) (q : ℕ) : count s.freeList q = cover (listed s) q :=
  total_eq (fun o p ↦ ind p o q) s

/-- Blocks that are counted at most once are pairwise disjoint. -/
theorem pairwise_of_cover_le (h : ∀ q, cover l q ≤ 1) :
    l.Pairwise fun b c ↦ ∀ q, Covers b.1 b.2 q → ¬ Covers c.1 c.2 q := by
  induction l with
  | nil => exact .nil
  | cons b l ih =>
    refine .cons (fun c hc q hb hq ↦ ?_) (ih fun q ↦ ?_)
    · have h1 := h q
      have h2 : ind c.1 c.2 q ≤ cover l q :=
        single_le_sum (by simp) _ (mem_map_of_mem hc)
      rw [cover_cons, ind_eq_one hb] at h1
      rw [ind_eq_one hq] at h2
      omega
    · have := h q
      rw [cover_cons] at this
      omega

theorem cover_pos_iff :
    0 < cover l q ↔ ∃ b ∈ l, Covers b.1 b.2 q := by
  induction l with
  | nil => simp
  | cons b l ih =>
    rw [exists_mem_cons_iff, ← ih]
    by_cases hb : Covers b.1 b.2 q
    · simp [ind_eq_one hb, hb]
    · simp [ind_eq_zero hb, hb]

/-! ## The invariant of a run -/

/-- What holds in every state of every run. -/
structure WorldInv (z : Zone) (w : World) : Prop where
  /-- The zone is in order, given what is held. -/
  zone : ZoneInv z w.zone (cover w.held)
  /-- The page counter is right. -/
  counter : CounterOk w.zone
  /-- Held blocks are aligned and of a legal order. -/
  held : ∀ b ∈ w.held, b.2 < maxOrder ∧ 2 ^ b.2 ∣ b.1
  /-- Exactly the released pages are in a block. -/
  released : ∀ q, count w.zone.freeList q + cover w.held q = if q ∈ w.released then 1 else 0

theorem worldInv_init (z : Zone) : WorldInv z ⟨freeAreaInit, [], []⟩ := by
  have h0 : ∀ q, count freeAreaInit.freeList q = 0 := fun q ↦ by simp [count, total, freeAreaInit]
  refine ⟨⟨by simp [freeAreaInit], fun q ↦ ?_, fun q _ ↦ ?_, ?_, ?_⟩, ?_, by simp [World.held,
    freeAreaInit], fun q ↦ ?_⟩
  · rw [h0]; simp [World.held, freeAreaInit]
  · rw [h0]; simp [World.held, freeAreaInit]
  · intro o _ p _; simp [freeAreaInit]
  · intro o _ p hp; simp [freeAreaInit] at hp
  · simp [CounterOk, listedPages, total, freeAreaInit]
  · rw [h0]; simp [World.held, freeAreaInit]

/-- What `__free_pages_ok` can do with a block the zone does not have: refuse the page for its
flags, park it, or give it to the zone. -/
theorem freePagesOk_spec {s : State} {rest : ℕ → ℕ} {x : ℕ} (cur : Current)
    (pg : PageStatus) (ho : o < maxOrder) (hx : 2 ^ o ∣ x)
    (h : ZoneInv z s fun q ↦ ind x o q + rest q) (hc : CounterOk s) :
    freePagesOk z cur pg x o s = .error .pageStatus ∨
    freePagesOk z cur pg x o s = .ok { s with localPages := (x, o) :: s.localPages } ∨
    ∃ s', freePagesOk z cur pg x o s = .ok s' ∧ ZoneInv z s' rest ∧ CounterOk s' ∧
      (∀ q, count s'.freeList q = count s.freeList q + ind x o q) ∧
      s'.localPages = s.localPages := by
  have hxz : x < z.size := h.lt_size (by rw [ind_self]; omega)
  have hvalid : ¬ z.maxMapnr ≤ z.zoneStartMapnr + x := by have := z.le_maxMapnr; omega
  simp only [freePagesOk]
  repeat' split
  · exact .inl rfl
  · exact .inl rfl
  · exact .inl rfl
  · exact .inr (.inl rfl)
  · exact .inr (.inr (freeToZone_spec ho hx h hc))

/-- Giving `(x, o)` back, from a world in which everything but `(x, o)` is accounted for. -/
theorem worldInv_free {x : ℕ} {out : List (ℕ × ℕ)} {rel : List ℕ}
    {s' : State} (cur : Current) (pg : PageStatus) (ho : o < maxOrder) (hx : 2 ^ o ∣ x)
    (h : ZoneInv z w.zone fun q ↦ ind x o q + cover (out ++ w.zone.localPages) q)
    (hc : CounterOk w.zone) (hheld : ∀ b ∈ out ++ w.zone.localPages, b.2 < maxOrder ∧ 2 ^ b.2 ∣ b.1)
    (hrel : ∀ q, count w.zone.freeList q + (ind x o q + cover (out ++ w.zone.localPages) q) =
      if q ∈ rel then 1 else 0)
    (he : freePagesOk z cur pg x o w.zone = .ok s') : WorldInv z ⟨s', out, rel⟩ := by
  rcases freePagesOk_spec cur pg ho hx h hc with hr | hr | ⟨t, hr, hinv, hcnt, hcount, hlp⟩
  · rw [hr] at he; cases he
  · -- the block is parked: it moves from one held list to the other
    rw [hr] at he
    cases he
    have hcov : ∀ q, cover (out ++ (x, o) :: w.zone.localPages) q =
        ind x o q + cover (out ++ w.zone.localPages) q := fun q ↦ by
      simp; omega
    refine ⟨?_, hc, fun b hb ↦ ?_, fun q ↦ ?_⟩
    · have h' := h.congr hcov
      exact ⟨h'.aligned, h'.tight, h'.inZone, h'.bits, h'.exclusive⟩
    · change b ∈ out ++ (x, o) :: w.zone.localPages at hb
      rw [mem_append, mem_cons] at hb
      rcases hb with hb | rfl | hb
      · exact hheld b (mem_append_left _ hb)
      · exact ⟨ho, hx⟩
      · exact hheld b (mem_append_right _ hb)
    · change count w.zone.freeList q + cover (out ++ (x, o) :: w.zone.localPages) q = _
      rw [hcov]
      exact hrel q
  · rw [hr] at he
    cases he
    refine ⟨?_, hcnt, fun b hb ↦ ?_, fun q ↦ ?_⟩
    · rw [World.held, hlp]; exact hinv
    · rw [World.held, hlp] at hb; exact hheld b hb
    · have h1 := hrel q
      have h2 := hcount q
      rw [World.held, hlp]
      change count s'.freeList q + cover (out ++ w.zone.localPages) q = if q ∈ rel then 1 else 0
      omega

/-- A page that has not been released is in no block, so it can be the block in hand. -/
theorem WorldInv.fresh (h : WorldInv z w) {page : ℕ} (hp : page < z.size)
    (hnr : page ∉ w.released) : ZoneInv z w.zone fun q ↦ ind page 0 q + cover w.held q := by
  have hind : ∀ q, q ≠ page → ind page 0 q = 0 := fun q hq ↦
    ind_eq_zero fun hc ↦ hq (by simpa [Covers] using hc)
  refine ⟨h.zone.aligned, fun q ↦ ?_, fun q hq ↦ ?_, h.zone.bits, h.zone.exclusive⟩
  · by_cases hqp : q = page
    · subst hqp
      have := h.released q
      rw [if_neg hnr] at this
      rw [ind_self]; omega
    · rw [hind q hqp]
      have := h.zone.tight q
      omega
  · rw [hind q (by omega)]
    have := h.zone.inZone q hq
    omega

/-- A held block can be the block in hand. -/
theorem WorldInv.inHand (h : WorldInv z w) (hb : b ∈ w.outstanding) :
    ZoneInv z w.zone fun q ↦ ind b.1 b.2 q + cover (w.outstanding.erase b ++ w.zone.localPages) q :=
  h.zone.congr fun q ↦ by
    have := cover_erase hb q
    simp only [World.held, cover_append]
    omega

/-- **Every legal call preserves the invariant.** -/
theorem worldInv_exec {w' : World} {a : Call} (h : WorldInv z w) (hl : Legal z w a)
    (he : exec z w a = .ok w') : WorldInv z w' := by
  cases a with
  | release cur pg page =>
    obtain ⟨hp, hnr⟩ := hl
    simp only [exec] at he
    cases hs : freePagesOk z cur pg page 0 w.zone with
    | error f => rw [hs] at he; cases he
    | ok s' =>
      rw [hs] at he
      cases he
      refine worldInv_free cur pg (by decide) (by simp) (h.fresh hp hnr) h.counter h.held
        (fun q ↦ ?_) hs
      have h1 := h.released q
      by_cases hqp : q = page
      · subst hqp
        rw [if_neg hnr] at h1
        rw [if_pos mem_cons_self, ind_self]
        change _ + (1 + cover w.held q) = 1
        omega
      · have hind : ind page 0 q = 0 := ind_eq_zero fun hc ↦ hqp (by simpa [Covers] using hc)
        rw [hind, zero_add]
        simp only [mem_cons, hqp, false_or]
        exact h1
  | alloc pg order =>
    simp only [exec, rmqueue] at he
    rcases rmqueueLoop_spec pg (maxOrder - order) rfl le_rfl h.zone h.counter with
      hr | hr | ⟨y, s', hr, ht⟩
    · rw [hr] at he; cases he
    · rw [hr] at he; cases he; exact h
    · rw [hr] at he
      cases he
      have hcov : ∀ q, cover ([(y, order)] ++ w.outstanding ++ s'.localPages) q =
          ind y order q + cover w.held q := fun q ↦ by
        simp [World.held, ht.localPages]
      refine ⟨ht.inv.congr hcov, ht.counter, fun b hb ↦ ?_, fun q ↦ ?_⟩
      · change b ∈ (y, order) :: (w.outstanding ++ s'.localPages) at hb
        rw [ht.localPages, mem_cons] at hb
        rcases hb with rfl | hb
        · exact ⟨hl, ht.aligned⟩
        · exact h.held b hb
      · have h1 := h.released q
        have h2 := ht.count q
        have h3 := hcov q
        change count s'.freeList q + cover ([(y, order)] ++ w.outstanding ++ s'.localPages) q =
          if q ∈ w.released then 1 else 0
        omega
  | free cur pg page order =>
    simp only [exec] at he
    cases hs : freePagesOk z cur pg page order w.zone with
    | error f => rw [hs] at he; cases he
    | ok s' =>
      rw [hs] at he
      cases he
      have hb := h.held (page, order) (mem_append_left _ hl)
      refine worldInv_free cur pg hb.1 hb.2 (h.inHand hl) h.counter (fun b hb ↦ ?_)
        (fun q ↦ ?_) hs
      · refine h.held b ?_
        rcases mem_append.1 hb with hb | hb
        · exact mem_append_left _ (mem_of_mem_erase hb)
        · exact mem_append_right _ hb
      · have h1 := h.released q
        have h2 : ind page order q + _ = _ := cover_erase hl q
        simp only [World.held, cover_append] at h1 ⊢
        omega
  | takeLocal page order =>
    cases he
    have hcov : ∀ q, cover ((page, order) :: (w.outstanding ++
        w.zone.localPages.erase (page, order))) q = cover w.held q := fun q ↦ by
      have : ind page order q + _ = _ := cover_erase hl q
      simp only [World.held, cover_cons, cover_append]
      omega
    have hzone := h.zone.congr hcov
    refine ⟨⟨hzone.aligned, hzone.tight, hzone.inZone, hzone.bits, hzone.exclusive⟩, h.counter,
      fun b hb ↦ ?_, fun q ↦ ?_⟩
    · change b ∈ (page, order) :: (w.outstanding ++ w.zone.localPages.erase (page, order)) at hb
      rw [mem_cons, mem_append] at hb
      rcases hb with rfl | hb | hb
      · exact h.held _ (mem_append_right _ hl)
      · exact h.held b (mem_append_left _ hb)
      · exact h.held b (mem_append_right _ (mem_of_mem_erase hb))
    · change count w.zone.freeList q + cover ((page, order) :: (w.outstanding ++
        w.zone.localPages.erase (page, order))) q = _
      rw [hcov]
      exact h.released q

theorem worldInv_of_reachable (h : (machine z).Reachable w) :
    WorldInv z w :=
  h.invariant (P := WorldInv z) (by rintro _ rfl; exact worldInv_init z)
    fun _ _ _ hi hl he ↦ worldInv_exec hi hl he

/-! ## Safety -/

theorem WorldInv.cover_blocks (h : WorldInv z w) (q : ℕ) :
    cover w.blocks q = if q ∈ w.released then 1 else 0 := by
  rw [World.blocks, cover_append, ← count_eq_cover]
  exact h.released q

theorem WorldInv.aligned (h : WorldInv z w)
    (hb : b ∈ w.blocks) : b.2 < maxOrder ∧ 2 ^ b.2 ∣ b.1 := by
  rcases mem_append.1 hb with hb | hb
  · obtain ⟨ho, hp⟩ := mem_listed.1 hb
    exact ⟨ho, h.zone.aligned _ ho _ hp⟩
  · exact h.held b hb

theorem WorldInv.lt_size (h : WorldInv z w) (hq : q ∈ w.released) : q < z.size := by
  by_contra hc
  have h1 := h.released q
  have h2 := h.zone.inZone q (by omega)
  rw [if_pos hq] at h1
  omega

theorem WorldInv.mem_released_iff (h : WorldInv z w) (q : ℕ) :
    q ∈ w.released ↔ ∃ b ∈ w.blocks, Covers b.1 b.2 q := by
  rw [← cover_pos_iff, h.cover_blocks]
  split <;> simp [*]

theorem WorldInv.le_size (h : WorldInv z w) (hb : b ∈ w.blocks) : b.1 + 2 ^ b.2 ≤ z.size := by
  have hpos : 0 < 2 ^ b.2 := Nat.two_pow_pos b.2
  -- the last page of the block has been released, so it is in the zone
  have hcov : Covers b.1 b.2 (b.1 + 2 ^ b.2 - 1) :=
    (covers_iff_of_dvd (h.aligned hb).2).2 ⟨by omega, by omega⟩
  have := h.lt_size ((h.mem_released_iff _).2 ⟨b, hb, hcov⟩)
  omega

/-- The only fault of a legal call is a page whose flags are wrong. -/
theorem WorldInv.fault_eq (h : WorldInv z w) {a : Call} {f : Fault}
    (hl : Legal z w a) (he : exec z w a = .error f) : f = .pageStatus := by
  cases a with
  | release cur pg page =>
    simp only [exec] at he
    rcases freePagesOk_spec cur pg (show 0 < maxOrder by decide) (by simp) (h.fresh hl.1 hl.2)
      h.counter with hr | hr | ⟨t, hr, -⟩ <;> rw [hr] at he <;> cases he
    rfl
  | alloc pg order =>
    simp only [exec, rmqueue] at he
    rcases rmqueueLoop_spec pg (maxOrder - order) rfl le_rfl h.zone h.counter with
      hr | hr | ⟨y, s', hr, -⟩ <;> rw [hr] at he <;> cases he
    rfl
  | free cur pg page order =>
    simp only [exec] at he
    have hb := h.held (page, order) (mem_append_left _ hl)
    rcases freePagesOk_spec cur pg hb.1 hb.2 (h.inHand hl) h.counter with
      hr | hr | ⟨t, hr, -⟩ <;> rw [hr] at he <;> cases he
    rfl
  | takeLocal page order => simp only [exec] at he; cases he

/-- **The buddy allocator is safe.**  In every reachable state of a zone of any size the listed and
the held blocks are pairwise disjoint, inside the zone, aligned, and cover the released pages; the
page counter is the number of listed pages; and no legal call trips over a range, an alignment, a
list or a bitmap. -/
theorem buddy_safe {z : Zone} {w : World} (h : (machine z).Reachable w) :
    (w.blocks.Pairwise fun b c ↦ b.1 + 2 ^ b.2 ≤ c.1 ∨ c.1 + 2 ^ c.2 ≤ b.1) ∧
    (∀ b ∈ w.blocks, b.2 < maxOrder ∧ 2 ^ b.2 ∣ b.1 ∧ b.1 + 2 ^ b.2 ≤ z.size) ∧
    (∀ q, q ∈ w.released ↔ ∃ b ∈ w.blocks, b.1 ≤ q ∧ q < b.1 + 2 ^ b.2) ∧
    w.zone.freePages = ((listed w.zone).map fun b ↦ 2 ^ b.2).sum ∧
    ∀ a f, Legal z w a → exec z w a = .error f → f = .pageStatus := by
  have hi := worldInv_of_reachable h
  have hcov : ∀ b ∈ w.blocks, ∀ q, Covers b.1 b.2 q ↔ b.1 ≤ q ∧ q < b.1 + 2 ^ b.2 :=
    fun b hb q ↦ covers_iff_of_dvd (hi.aligned hb).2
  refine ⟨?_, fun b hb ↦ ⟨(hi.aligned hb).1, (hi.aligned hb).2, hi.le_size hb⟩, fun q ↦ ?_,
    hi.counter.trans (total_eq (fun o _ ↦ 2 ^ o) w.zone), fun a f hl he ↦ hi.fault_eq hl he⟩
  · have hle : ∀ q, cover w.blocks q ≤ 1 := fun q ↦ by
      rw [hi.cover_blocks]; split <;> omega
    refine (pairwise_of_cover_le hle).imp_of_mem fun {b c} hb hc hbc ↦ ?_
    by_contra hcon
    have hb0 : 0 < 2 ^ b.2 := Nat.two_pow_pos b.2
    have hc0 : 0 < 2 ^ c.2 := Nat.two_pow_pos c.2
    -- overlapping intervals share the later of the two first pages
    refine hbc (max b.1 c.1) ((hcov b hb _).2 ?_) ((hcov c hc _).2 ?_) <;> omega
  · rw [hi.mem_released_iff]
    exact exists_congr fun b ↦ and_congr_right fun hb ↦ hcov b hb q

/-- A zone of three pages: the last one has no buddy. -/
def raggedZone : Zone where
  zoneStartMapnr := 0
  size := 3
  maxMapnr := 3
  pageZone _ := true
  size_pos := by decide
  le_maxMapnr := by decide
  maxMapnr_lt := by decide
  pageZone_of_mem _ _ _ := rfl

/-- Releasing the three pages of `raggedZone` and allocating two single pages splits the pair. -/
theorem raggedZone_reachable : ∃ w, (machine raggedZone).Reachable w ∧ w.released = [2, 1, 0] ∧
    w.outstanding = [(1, 0), (2, 0)] ∧ listed w.zone = [(0, 0)] ∧ w.zone.localPages = [] := by
  let cur : Current := ⟨false, 0, false⟩
  let pg : PageStatus := ⟨false, false, false, false, false⟩
  have h0 : (machine raggedZone).Reachable ⟨freeAreaInit, [], []⟩ := .init rfl
  have h : (machine raggedZone).trace ⟨freeAreaInit, [], []⟩ [.release cur pg 0, .release cur pg 1,
      .release cur pg 2, .alloc pg 0, .alloc pg 0] = some _ := rfl
  exact ⟨_, h0.trace h, rfl, rfl, rfl, rfl⟩

theorem buddy_safe_raggedZone : ∃ w, (machine raggedZone).Reachable w ∧ w.blocks = [(0, 0), (1, 0),
    (2, 0)] ∧ w.zone.freePages = 1 ∧
    ∀ a f, Legal raggedZone w a → exec raggedZone w a = .error f → f = .pageStatus := by
  obtain ⟨w, h, -, hout, hlist, hloc⟩ := raggedZone_reachable
  obtain ⟨-, -, -, hfree, hfault⟩ := buddy_safe h
  refine ⟨w, h, ?_, ?_, hfault⟩
  · rw [World.blocks, World.held, hout, hlist, hloc]; rfl
  · rw [hfree, hlist]; rfl

/-! ## Completeness of coalescing -/

/-- A page is free when it has been released and nobody holds it. -/
def FreePage (w : World) (q : ℕ) : Prop :=
  q ∈ w.released ∧ ∀ b ∈ w.held, ¬ (b.1 ≤ q ∧ q < b.1 + 2 ^ b.2)

/-- `(p, o)` is an aligned block, of an order the allocator has, all of whose pages are free. -/
def FreeBlock (w : World) (p o : ℕ) : Prop :=
  o < maxOrder ∧ 2 ^ o ∣ p ∧ ∀ q, p ≤ q → q < p + 2 ^ o → FreePage w q

/-- No other free block contains this one. -/
def MaximalFree (w : World) (p o : ℕ) : Prop :=
  FreeBlock w p o ∧ ∀ p' o', FreeBlock w p' o' → p' ≤ p → p + 2 ^ o ≤ p' + 2 ^ o' →
    p' = p ∧ o' = o

theorem WorldInv.freePage_iff (h : WorldInv z w) (q : ℕ) :
    FreePage w q ↔ ∃ o < maxOrder, ∃ p ∈ w.zone.freeList o, Covers p o q := by
  have hheld : (∀ b ∈ w.held, ¬ (b.1 ≤ q ∧ q < b.1 + 2 ^ b.2)) ↔ cover w.held q = 0 := by
    have := (cover_pos_iff (l := w.held) (q := q)).not
    rw [not_lt, Nat.le_zero] at this
    rw [this]
    push Not
    refine forall₂_congr fun b hb ↦ ?_
    rw [covers_iff_of_dvd (h.held b hb).2]
    push Not
    rfl
  have hlist : (∃ o < maxOrder, ∃ p ∈ w.zone.freeList o, Covers p o q) ↔
      0 < count w.zone.freeList q := by
    rw [count_eq_cover, cover_pos_iff]
    constructor
    · rintro ⟨o, ho, p, hp, hc⟩
      exact ⟨(p, o), mem_listed.2 ⟨ho, hp⟩, hc⟩
    · rintro ⟨b, hb, hc⟩
      exact ⟨b.2, (mem_listed.1 hb).1, b.1, (mem_listed.1 hb).2, hc⟩
  have h1 := h.released q
  rw [FreePage, hheld, hlist]
  by_cases hq : q ∈ w.released
  · rw [if_pos hq] at h1
    simp only [hq, true_and]
    omega
  · rw [if_neg hq] at h1
    simp only [hq, false_and, false_iff]
    omega

theorem WorldInv.freeBlock_of_mem (h : WorldInv z w) {p : ℕ}
    (ho : o < maxOrder) (hp : p ∈ w.zone.freeList o) : FreeBlock w p o := by
  have ha := h.zone.aligned o ho p hp
  exact ⟨ho, ha, fun q h1 h2 ↦
    (h.freePage_iff q).2 ⟨o, ho, p, hp, (covers_iff_of_dvd ha).2 ⟨h1, h2⟩⟩⟩

/-- **A free block is part of a listed one.**  By induction on the order: both halves of a free
block are part of listed blocks; if neither of these is larger than a half, they are the two halves
themselves, and buddies are never listed together. -/
theorem WorldInv.exists_listed (h : WorldInv z w) (o : ℕ) :
    ∀ p, FreeBlock w p o →
      ∃ o', o ≤ o' ∧ o' < maxOrder ∧ ∃ p' ∈ w.zone.freeList o', Covers p' o' p := by
  induction o with
  | zero =>
    rintro p ⟨-, -, hf⟩
    obtain ⟨o', ho', p', hp', hc⟩ := (h.freePage_iff p).1 (hf p le_rfl (by simp))
    exact ⟨o', zero_le, ho', p', hp', hc⟩
  | succ o ih =>
    rintro p ⟨ho, hp, hf⟩
    have hpo : 2 ^ o ∣ p := (pow_dvd_pow 2 (Nat.le_succ o)).trans hp
    have hbo : 2 ^ o ∣ p ^^^ 2 ^ o := dvd_xor_two_pow hpo
    have hb := add_two_pow_eq_xor hp
    obtain ⟨o₁, h₁, hm₁, p₁, hp₁, hc₁⟩ := ih p
      ⟨by omega, hpo, fun q hq hq' ↦ hf q hq (by omega)⟩
    obtain ⟨o₂, h₂, hm₂, p₂, hp₂, hc₂⟩ := ih (p ^^^ 2 ^ o)
      ⟨by omega, hbo, fun q hq hq' ↦ hf q (by omega) (by omega)⟩
    by_cases hbig₁ : o < o₁
    · exact ⟨o₁, hbig₁, hm₁, p₁, hp₁, hc₁⟩
    by_cases hbig₂ : o < o₂
    · refine ⟨o₂, hbig₂, hm₂, p₂, hp₂, hc₂.trans ?_⟩
      exact Covers.mono ((covers_succ_iff _ _ _).2 (.inr (by rw [xor_two_pow_xor]; rfl))) hbig₂
    obtain rfl : o₁ = o := by omega
    obtain rfl : o₂ = o₁ := by omega
    -- both halves are listed
    have e₁ : p₁ = p := ((Nat.div_left_inj hpo (h.zone.aligned _ hm₁ _ hp₁)).1 hc₁).symm
    have e₂ : p₂ = p ^^^ 2 ^ o₂ := ((Nat.div_left_inj hbo (h.zone.aligned _ hm₂ _ hp₂)).1 hc₂).symm
    subst e₁
    rw [e₂] at hp₂
    exact absurd hp₂ (h.zone.exclusive o₂ (by omega) p₁ hp₁)

/-- Two listed blocks with a common page are the same. -/
theorem WorldInv.listed_unique (h : WorldInv z w) {o' p p' : ℕ}
    (ho : o < maxOrder) (ho' : o' < maxOrder) (hp : p ∈ w.zone.freeList o)
    (hp' : p' ∈ w.zone.freeList o') (hc : Covers p o q) (hc' : Covers p' o' q) :
    o' = o ∧ p' = p := by
  by_contra hne
  have h1 : ind p o q + ind p' o' q ≤ count w.zone.freeList q :=
    add_le_total (f := fun o p' ↦ ind p' o q) ho ho' hp hp' fun hc ↦ hne ⟨hc.1.symm, hc.2.symm⟩
  have h2 := h.zone.tight q
  rw [ind_eq_one hc, ind_eq_one hc'] at h1
  omega

theorem WorldInv.mem_freeList_iff (h : WorldInv z w)
    (ho : o < maxOrder) (p : ℕ) : p ∈ w.zone.freeList o ↔ MaximalFree w p o := by
  have hle : ∀ {a b : ℕ}, a ≤ b → 2 ^ a ≤ 2 ^ b := Nat.pow_le_pow_right (by norm_num)
  constructor
  · intro hp
    refine ⟨h.freeBlock_of_mem ho hp, fun p' o' hf hle1 hle2 ↦ ?_⟩
    have hcp : Covers p' o' p := (covers_iff_of_dvd hf.2.1).2
      ⟨hle1, by have := Nat.two_pow_pos o; omega⟩
    obtain ⟨o₁, h₁, hm₁, p₁, hp₁, hc₁⟩ := h.exists_listed o' p' hf
    have hc₁p : Covers p₁ o₁ p := hc₁.trans (hcp.mono h₁)
    obtain ⟨rfl, rfl⟩ := h.listed_unique ho hm₁ hp hp₁ (covers_self p o) hc₁p
    -- the listed block is no larger than the one it is contained in
    have hoo : o' = o₁ := by
      by_contra hne
      have : 2 ^ o' < 2 ^ o₁ := Nat.pow_lt_pow_right (by norm_num) (by omega)
      omega
    exact ⟨by rw [hoo] at hle2; omega, hoo⟩
  · rintro ⟨hf, hmax⟩
    obtain ⟨o₁, h₁, hm₁, p₁, hp₁, hc₁⟩ := h.exists_listed o p hf
    have ha₁ := h.zone.aligned o₁ hm₁ p₁ hp₁
    have hin := (covers_iff_of_dvd ha₁).1 hc₁
    have hend : p + 2 ^ o ≤ p₁ + 2 ^ o₁ := by
      have hlast : Covers p₁ o₁ (p + 2 ^ o - 1) := by
        refine hc₁.trans (Covers.mono ((covers_iff_of_dvd hf.2.1).2 ?_) h₁)
        have := Nat.two_pow_pos o
        omega
      have := (covers_iff_of_dvd ha₁).1 hlast
      omega
    obtain ⟨rfl, rfl⟩ := hmax p₁ o₁ (h.freeBlock_of_mem hm₁ hp₁) hin.1 hend
    exact hp₁

/-- **Coalescing is complete.**  In every reachable state a bit below the last order is set exactly
when one of the two buddies is listed, the two are never listed together, and the listed blocks are
the maximal free ones; so two runs — of any two zones — that end with the same free pages end with
the same blocks on every list. -/
theorem buddy_complete {z : Zone} {w : World} (h : (machine z).Reachable w) :
    (∀ o < maxOrder - 1, ∀ k, w.zone.map o k = true ↔
      Xor (2 * k * 2 ^ o ∈ w.zone.freeList o) ((2 * k + 1) * 2 ^ o ∈ w.zone.freeList o)) ∧
    (∀ o < maxOrder - 1, ∀ k, ¬ (2 * k * 2 ^ o ∈ w.zone.freeList o ∧
      (2 * k + 1) * 2 ^ o ∈ w.zone.freeList o)) ∧
    (∀ o < maxOrder, ∀ p, p ∈ w.zone.freeList o ↔ MaximalFree w p o) ∧
    ∀ (z' : Zone) (w' : World), (machine z').Reachable w' →
      (∀ q, FreePage w q ↔ FreePage w' q) →
      ∀ o < maxOrder, ∀ p, p ∈ w.zone.freeList o ↔ p ∈ w'.zone.freeList o := by
  have hi := worldInv_of_reachable h
  have hbuddy : ∀ o k, (2 * k + 1) * 2 ^ o = (2 * k * 2 ^ o) ^^^ 2 ^ o := fun o k ↦ by
    rw [← add_two_pow_eq_xor (by rw [pow_succ]; exact ⟨k, by ring⟩)]; ring
  refine ⟨fun o ho k ↦ ?_, fun o ho k hk ↦ ?_, fun o ho p ↦ hi.mem_freeList_iff ho p,
    fun z' w' h' hfree o ho p ↦ ?_⟩
  · have hbit := hi.zone.bits o ho (2 * k * 2 ^ o) (Dvd.intro_left _ rfl)
    have hk : 2 * k * 2 ^ o / 2 ^ (1 + o) = k := by
      rw [pow_add, show 2 * k * 2 ^ o = 2 * 2 ^ o * k by ring]
      exact Nat.mul_div_cancel_left k (by positivity)
    rw [hk] at hbit
    rw [hbit, hbuddy]
    by_cases h1 : 2 * k * 2 ^ o ∈ w.zone.freeList o <;>
      by_cases h2 : (2 * k * 2 ^ o) ^^^ 2 ^ o ∈ w.zone.freeList o <;> simp [h1]
  · rw [hbuddy] at hk
    exact hi.zone.exclusive o ho _ hk.1 hk.2
  · have hi' := worldInv_of_reachable h'
    have hblock : ∀ p o, FreeBlock w p o ↔ FreeBlock w' p o := fun p o ↦ by
      simp only [FreeBlock, hfree]
    rw [hi.mem_freeList_iff ho, hi'.mem_freeList_iff ho]
    simp only [MaximalFree, hblock]

theorem buddy_complete_raggedZone : ∃ w, (machine raggedZone).Reachable w ∧
    MaximalFree w 0 0 ∧ w.zone.map 0 0 = true := by
  obtain ⟨w, h, -, -, hlist, -⟩ := raggedZone_reachable
  obtain ⟨hbits, -, hmax, -⟩ := buddy_complete h
  have h0 : ∀ p o, p ∈ w.zone.freeList o ∧ o < maxOrder ↔ p = 0 ∧ o = 0 := fun p o ↦ by
    rw [and_comm, ← mem_listed (b := (p, o)), hlist]; simp
  have h00 : 0 ∈ w.zone.freeList 0 := ((h0 0 0).2 ⟨rfl, rfl⟩).1
  have h10 : 1 ∉ w.zone.freeList 0 := fun hc ↦ by simpa using (h0 1 0).1 ⟨hc, by decide⟩
  refine ⟨w, h, (hmax 0 (by decide) 0).1 h00, (hbits 0 (by decide) 0).2 (.inl ⟨?_, ?_⟩)⟩
  · simpa using h00
  · simpa using h10

end Linux24.PageAlloc
