import Linux24.Lib.Machine
import Linux24.Lib.Marking

/-!
# Garbage collection of `AF_UNIX` sockets: `net/unix/garbage.c`

A descriptor of a socket may be in a message that is queued on another socket, and that one's
descriptor in a message on the first.  When nobody else has the two open any more, the messages have
to be found and thrown away: that is `unix_gc`.  It marks what can be reached from the sockets that
are open for other reasons than being in flight, and takes the messages with descriptors off the
queues of all the others.

There is one pointer in a socket for the purpose, `gc_tree`.  It is `GC_ORPHAN` until the socket has
been found; then it is the socket below it on the stack, or `GC_HEAD`, and it stays when the socket
has been popped.  `Threaded` says that the pointers make a stack, and `Marked` how this stack and
the sockets that are done are to be read off the pointers; the rest is `Marking`.

The sockets are the elements of some type, all of which are in the table, each once.  What happens
when the messages are freed, which may close the files in them, is left out.
-/

set_option autoImplicit false

universe u

namespace Linux24.UnixGc

open Marking List Function

variable {σ : Type u} [DecidableEq σ]

/-! ## The code -/

/-- A message: its descriptors, each of which may be that of a socket, and the socket it belongs to;
in the queue of a listening socket that is the one to be accepted. -/
structure Skb (σ : Type u) where
  /-- `UNIXCB(skb).fp`, and `unix_get_socket` of each file. -/
  fp : Option (List (Option σ))
  sk : σ

/-- What `gc_tree` and `gc_current` point to. -/
inductive GcPtr (σ : Type u)
  /-- `GC_HEAD`. -/
  | head
  /-- `GC_ORPHAN`. -/
  | orphan
  | sock (s : σ)
deriving DecidableEq

/-- The sockets, with the fields that `unix_gc` only reads. -/
structure Sockets (σ : Type u) where
  /-- The sockets in the order of `forall_unix_sockets`. -/
  table : List σ
  nodup : table.Nodup
  complete : ∀ s, s ∈ table
  /-- `file_count(s->socket->file)`, if there is such a file. -/
  fileCount : σ → Option ℕ
  inflight : σ → ℤ
  /-- `state == TCP_LISTEN`. -/
  listening : σ → Bool

/-- The fields that `unix_gc` writes, and `gc_current`. -/
structure Mem (σ : Type u) where
  gcTree : σ → GcPtr σ
  refcnt : σ → ℤ
  receiveQueue : σ → List (Skb σ)
  gcCurrent : GcPtr σ

namespace Mem

variable (m : Mem σ)

def maybeUnmarkAndPush (x : σ) : Mem σ :=
  if m.gcTree x ≠ .orphan then m
  else
    { m with
      refcnt := update m.refcnt x (m.refcnt x + 1)
      gcTree := update m.gcTree x m.gcCurrent
      gcCurrent := .sock x }

/-- What the mark phase does with one message of the socket. -/
def scanSkb (listening : Bool) (skb : Skb σ) : Mem σ :=
  let m := match skb.fp with
    | none => m
    | some fds => fds.foldl (fun m fd ↦
        match fd with
        | some sk => m.maybeUnmarkAndPush sk
        | none => m) m
  if listening then m.maybeUnmarkAndPush skb.sk else m

/-- One round of the mark phase, when `pop_stack` has returned `x`. -/
def visit (listening : Bool) (x : σ) : Mem σ :=
  let m := (m.receiveQueue x).foldl (fun m skb ↦ m.scanSkb listening skb) m
  -- `sock_put`
  { m with refcnt := update m.refcnt x (m.refcnt x - 1) }

end Mem

variable (k : Sockets σ)

/-- The mark phase. -/
def markPhase : (fuel : ℕ) → Mem σ → Option (Mem σ)
  | 0, m => if m.gcCurrent = .head then some m else none
  | fuel + 1, m =>
    match m.gcCurrent with
    | .head => some m
    -- a wild pointer
    | .orphan => none
    | .sock x => markPhase fuel ({ m with gcCurrent := m.gcTree x }.visit (k.listening x) x)

def openCount (s : σ) : ℤ := ((k.fileCount s).getD 0 : ℕ)

/-- The root set is pushed. -/
def pushRoots (m : Mem σ) : Mem σ :=
  k.table.foldl (fun m s ↦ if openCount k s > k.inflight s then m.maybeUnmarkAndPush s else m) m

/-- The loop over the queue of a socket that has not been found: what stays in the queue, and the
hitlist. -/
def unlinkSkbs : List (Skb σ) → List (Skb σ) → List (Skb σ) × List (Skb σ)
  | [], hitlist => ([], hitlist)
  | skb :: queue, hitlist =>
    if skb.fp.isSome then unlinkSkbs queue (hitlist ++ [skb])
    else ((skb :: (unlinkSkbs queue hitlist).1), (unlinkSkbs queue hitlist).2)

/-- The last loop over the sockets, for one of them. -/
def sweepOne (r : Mem σ × List (Skb σ)) (s : σ) : Mem σ × List (Skb σ) :=
  let m := r.1
  if m.gcTree s = .orphan then
    let q := unlinkSkbs (m.receiveQueue s) r.2
    ({ m with
      receiveQueue := update m.receiveQueue s q.1
      gcTree := update m.gcTree s .orphan }, q.2)
  else ({ m with gcTree := update m.gcTree s .orphan }, r.2)

/-- `unix_gc`, when it has got `unix_gc_sem`: the sockets, and the messages that are purged. -/
def unixGc (m : Mem σ) : Option (Mem σ × List (Skb σ)) :=
  let m := k.table.foldl (fun m s ↦ { m with gcTree := update m.gcTree s .orphan }) m
  let m := pushRoots k m
  match markPhase k (k.table.length + 1) m with
  | none => none
  | some m => some (k.table.foldl sweepOne (m, []))

/-! ## What is reachable -/

/-- The socket is open for other reasons than being in flight. -/
def Root (s : σ) : Prop := k.inflight s < openCount k s

instance (s : σ) : Decidable (Root k s) := inferInstanceAs (Decidable (_ < _))

/-- The sockets that a message leads to, in the queue of a listening socket or of another one. -/
def Skb.sockets (listening : Bool) (skb : Skb σ) : List σ :=
  (match skb.fp with
  | none => []
  | some fds => fds.reduceOption) ++ if listening then [skb.sk] else []

/-- The second socket can be reached from the first one through a descriptor in its queue, or, if it
is a listening one, as one to be accepted. -/
def Leads (queue : σ → List (Skb σ)) (x y : σ) : Prop :=
  ∃ skb ∈ queue x, (∃ fds, skb.fp = some fds ∧ some y ∈ fds) ∨ (k.listening x = true ∧ skb.sk = y)

omit [DecidableEq σ] in
theorem mem_sockets {k : Sockets σ} {queue : σ → List (Skb σ)} {x y : σ} :
    y ∈ (queue x).flatMap (Skb.sockets (k.listening x)) ↔ Leads k queue x y := by
  refine mem_flatMap.trans (exists_congr fun skb ↦ and_congr_right fun _ ↦ ?_)
  refine mem_append.trans (or_congr ?_ ?_)
  · cases skb.fp with
    | none => simp
    | some fds => simp [reduceOption_mem_iff]
  · by_cases hl : k.listening x = true
    · simp [hl, eq_comm]
    · simp [hl]

/-! ## The stack in the sockets -/

/-- The pointers lead from `p` through the sockets of the stack to `GC_HEAD`. -/
def Threaded (tree : σ → GcPtr σ) : GcPtr σ → List σ → Prop
  | p, [] => p = .head
  | p, x :: l => p = .sock x ∧ Threaded tree (tree x) l

omit [DecidableEq σ] in
theorem Threaded.congr {tree tree' : σ → GcPtr σ} {p : GcPtr σ} {l : List σ}
    (h : Threaded tree p l) (heq : ∀ x ∈ l, tree' x = tree x) : Threaded tree' p l := by
  induction l generalizing p with
  | nil => exact h
  | cons x l ih =>
    refine ⟨h.1, ?_⟩
    rw [heq x mem_cons_self]
    exact ih h.2 fun y hy ↦ heq y (mem_cons_of_mem x hy)

/-- The pointers say what is on the stack and what is done.  What is on the stack has one reference
more than it had. -/
structure Marked (refs : σ → ℤ) (queue : σ → List (Skb σ)) (m : Mem σ) (stack done : List σ) :
    Prop where
  threaded : Threaded m.gcTree m.gcCurrent stack
  found : ∀ v, m.gcTree v ≠ .orphan ↔ v ∈ stack ++ done
  refcnt : ∀ v, m.refcnt v = refs v + if v ∈ stack then 1 else 0
  queue : m.receiveQueue = queue
  nodup : (stack ++ done).Nodup

section Marking

variable {k : Sockets σ} {refs : σ → ℤ} {queue : σ → List (Skb σ)} {m : Mem σ}
  {stack done : List σ} {x : σ}

/-- `maybe_unmark_and_push` of a socket that has been found. -/
theorem Marked.push_of_mem (h : Marked refs queue m stack done) (hx : x ∈ stack ++ done) :
    m.maybeUnmarkAndPush x = m := if_pos ((h.found x).2 hx)

/-- `maybe_unmark_and_push` of a socket that has not. -/
theorem Marked.push_of_notMem (h : Marked refs queue m stack done) (hx : x ∉ stack ++ done) :
    Marked refs queue (m.maybeUnmarkAndPush x) (x :: stack) done := by
  have horphan : ¬m.gcTree x ≠ .orphan := fun hc ↦ hx ((h.found x).1 hc)
  have hstack : ∀ y ∈ stack, y ≠ x := fun y hy hc ↦ hx (hc ▸ mem_append_left _ hy)
  rw [Mem.maybeUnmarkAndPush, if_neg horphan]
  refine ⟨⟨rfl, ?_⟩, fun v ↦ ?_, fun v ↦ ?_, h.queue, nodup_cons.2 ⟨hx, h.nodup⟩⟩
  · dsimp only
    rw [update_self]
    exact h.threaded.congr fun y hy ↦ update_of_ne (hstack y hy) _ _
  · by_cases hv : v = x
    · subst hv
      have hcur : m.gcCurrent ≠ .orphan := by
        have hthreaded := h.threaded
        cases stack with
        | nil => rw [show m.gcCurrent = .head from hthreaded]; nofun
        | cons y l => rw [hthreaded.1]; nofun
      simp [hcur]
    · simp only [update_of_ne hv, cons_append, mem_cons, hv, false_or]
      exact h.found v
  · by_cases hv : v = x
    · subst hv
      have hnot : v ∉ stack := fun hc ↦ hx (mem_append_left _ hc)
      have hold := h.refcnt v
      rw [if_neg hnot] at hold
      simp [hold]
    · simp only [update_of_ne hv, mem_cons, hv, false_or]
      exact h.refcnt v

/-- Several sockets are pushed, as far as they are new. -/
theorem Marked.pushAll (h : Marked refs queue m stack done) (cs : List σ) : ∃ new,
    Marked refs queue (cs.foldl Mem.maybeUnmarkAndPush m) (new ++ stack) done ∧
      (∀ v ∈ new, v ∈ cs) ∧ ∀ v ∈ cs, v ∈ new ++ stack ++ done := by
  induction cs generalizing m stack with
  | nil => exact ⟨[], h, nofun, nofun⟩
  | cons c cs ih =>
    by_cases hc : c ∈ stack ++ done
    · obtain ⟨new, hmarked, hsub, hall⟩ := ih h
      rw [foldl_cons, h.push_of_mem hc]
      refine ⟨new, hmarked, fun v hv ↦ mem_cons_of_mem c (hsub v hv), fun v hv ↦ ?_⟩
      rcases mem_cons.1 hv with rfl | hv
      · rw [append_assoc]
        exact mem_append_right _ hc
      · exact hall v hv
    · obtain ⟨new, hmarked, hsub, hall⟩ := ih (h.push_of_notMem hc)
      have hassoc : new ++ c :: stack = (new ++ [c]) ++ stack := by simp
      rw [hassoc] at hmarked hall
      refine ⟨new ++ [c], hmarked, fun v hv ↦ ?_, fun v hv ↦ ?_⟩
      · rcases mem_append.1 hv with hv | hv
        · exact mem_cons_of_mem c (hsub v hv)
        · exact mem_singleton.1 hv ▸ mem_cons_self
      · rcases mem_cons.1 hv with rfl | hv
        · simp
        · exact hall v hv

/-- The loops over the messages of a socket and their descriptors push what they lead to. -/
theorem scan_eq (m : Mem σ) (q : List (Skb σ)) (listening : Bool) :
    q.foldl (fun m skb ↦ m.scanSkb listening skb) m =
      (q.flatMap (Skb.sockets listening)).foldl Mem.maybeUnmarkAndPush m := by
  rw [foldl_flatMap]
  congr 1
  funext m skb
  have hfds : ∀ (fds : List (Option σ)) (m : Mem σ), fds.foldl (fun m fd ↦
      match fd with
      | some sk => m.maybeUnmarkAndPush sk
      | none => m) m = fds.reduceOption.foldl Mem.maybeUnmarkAndPush m := by
    intro fds
    induction fds with
    | nil => exact fun m ↦ rfl
    | cons fd fds ih =>
      intro m
      cases fd with
      | none => exact ih m
      | some sk => exact ih _
  rw [Mem.scanSkb, Skb.sockets, foldl_append]
  cases skb.fp with
  | none => cases listening <;> rfl
  | some fds =>
    dsimp only
    rw [hfds]
    cases listening <;> rfl

/-- **One round of the mark phase.** -/
theorem Marked.visit (h : Marked refs queue m (x :: stack) done) : ∃ new,
    Marked refs queue ({ m with gcCurrent := m.gcTree x }.visit (k.listening x) x) (new ++ stack)
      (x :: done) ∧
      (∀ v ∈ new, Leads k queue x v) ∧ ∀ v, Leads k queue x v → v ∈ new ++ stack ++ x :: done := by
  obtain ⟨hthreaded, hfound, hrefcnt, hqueue, hnodup⟩ := h
  have hperm : ((x :: stack) ++ done).Perm (stack ++ x :: done) := perm_middle.symm
  have hx : x ∉ stack := fun hc ↦
    (nodup_cons.1 hnodup).1 (mem_append_left _ hc)
  -- the reference of `x` is given back at the end of the round
  have hpopped : Marked (update refs x (refs x + 1)) queue
      { m with gcCurrent := m.gcTree x } stack (x :: done) := by
    refine ⟨hthreaded.2, fun v ↦ (hfound v).trans hperm.mem_iff, fun v ↦ ?_, hqueue,
      hperm.nodup_iff.1 hnodup⟩
    rw [hrefcnt v]
    by_cases hv : v = x
    · subst hv
      simp [hx]
    · simp [hv]
  obtain ⟨new, hmarked, hsub, hall⟩ := hpopped.pushAll ((queue x).flatMap
    (Skb.sockets (k.listening x)))
  have hxnew : x ∉ new ++ stack := fun hc ↦
    (nodup_append'.1 hmarked.nodup).2.2 hc mem_cons_self
  rw [← hqueue, ← scan_eq] at hmarked
  refine ⟨new, ⟨hmarked.threaded, hmarked.found, fun v ↦ ?_, hmarked.queue.trans hqueue,
    hmarked.nodup⟩, fun v hv ↦ mem_sockets.1 (hsub v hv), fun v hv ↦ hall v (mem_sockets.2 hv)⟩
  have href := hmarked.refcnt
  rw [Mem.visit]
  dsimp only at href ⊢
  by_cases hv : v = x
  · subst hv
    rw [update_self, href, update_self]
    ring
  · rw [update_of_ne hv, href, update_of_ne hv]

/-- **The mark phase** comes to an end. -/
theorem markPhase_spec (fuel : ℕ) (h : Marked refs queue m stack done)
    (hinv : Inv (Root k) (Leads k queue) stack done) (hfuel : k.table.length ≤ fuel + done.length) :
    ∃ m' done', markPhase k fuel m = some m' ∧ Marked refs queue m' [] done' ∧
      Inv (Root k) (Leads k queue) [] done' ∧ ∀ v ∈ stack ++ done, v ∈ done' := by
  induction fuel generalizing m stack done with
  | zero =>
    have hle : (stack ++ done).length ≤ k.table.length :=
      (h.nodup.subperm fun v _ ↦ k.complete v).length_le
    rw [length_append] at hle
    obtain rfl : stack = [] := length_eq_zero_iff.1 (by omega)
    exact ⟨m, done, if_pos h.threaded, h, hinv, fun v hv ↦ hv⟩
  | succ fuel ih =>
    have hthreaded := h.threaded
    cases stack with
    | nil =>
      rw [markPhase, show m.gcCurrent = .head from hthreaded]
      exact ⟨m, done, rfl, h, hinv, fun v hv ↦ hv⟩
    | cons x stack =>
      rw [markPhase, hthreaded.1]
      obtain ⟨new, hmarked, hnew, hall⟩ := h.visit
      obtain ⟨m', done', heq, hmarked', hinv', hsub⟩ := ih hmarked
        (hinv.visit hmarked.nodup hnew hall) (by rw [length_cons]; omega)
      refine ⟨m', done', heq, hmarked', hinv', fun v hv ↦ hsub v ?_⟩
      rw [append_assoc]
      exact mem_append_right _ (perm_middle.mem_iff.2 hv)

theorem pushRoots_spec (h : Marked refs queue m [] []) : ∃ stack,
    Marked refs queue (pushRoots k m) stack [] ∧ Inv (Root k) (Leads k queue) stack [] ∧
      ∀ r, Root k r → r ∈ stack := by
  have hfold : pushRoots k m =
      (k.table.filter fun s ↦ decide (Root k s)).foldl Mem.maybeUnmarkAndPush m := by
    rw [pushRoots, foldl_filter]
    congr 1
    funext m s
    by_cases hs : Root k s
    · rw [if_pos (show openCount k s > k.inflight s from hs), if_pos (decide_eq_true hs)]
    · rw [if_neg (show ¬openCount k s > k.inflight s from hs), if_neg (by simp [hs])]
  obtain ⟨stack, hmarked, hsub, hall⟩ := h.pushAll (k.table.filter fun s ↦ decide (Root k s))
  rw [← hfold] at hmarked
  rw [append_nil] at hmarked hall
  have hroot : ∀ r ∈ stack, Root k r := fun r hr ↦
    of_decide_eq_true (mem_filter.1 (hsub r hr)).2
  refine ⟨stack, hmarked, ⟨hmarked.nodup, fun v hv ↦ ?_, nofun⟩, fun r hr ↦ ?_⟩
  · rw [append_nil] at hv
    exact ⟨v, hroot v hv, .refl⟩
  · rw [append_nil] at hall
    exact hall r (mem_filter.2 ⟨k.complete r, decide_eq_true hr⟩)

end Marking

/-! ## The sweep -/

section Sweep

variable {m : Mem σ} {l : List σ} {hitlist : List (Skb σ)}

omit [DecidableEq σ] in
theorem unlinkSkbs_eq (q hitlist : List (Skb σ)) : unlinkSkbs q hitlist =
    (q.filter (·.fp.isNone), hitlist ++ q.filter (·.fp.isSome)) := by
  induction q generalizing hitlist with
  | nil => simp [unlinkSkbs]
  | cons skb q ih =>
    rw [unlinkSkbs, ih, ih]
    cases hfp : skb.fp <;> simp [hfp]

/-- All the marks are removed, at the beginning. -/
theorem foldl_orphan (hall : ∀ s, s ∈ l) :
    l.foldl (fun m s ↦ { m with gcTree := update m.gcTree s .orphan }) m =
      { m with gcTree := fun _ ↦ .orphan } := by
  have hpart : ∀ (l : List σ) (m : Mem σ),
      l.foldl (fun m s ↦ { m with gcTree := update m.gcTree s .orphan }) m =
        { m with gcTree := fun s ↦ if s ∈ l then .orphan else m.gcTree s } := by
    intro l
    induction l with
    | nil => exact fun m ↦ by simp
    | cons x l ih =>
      intro m
      rw [foldl_cons, ih]
      congr 1
      funext s
      by_cases hs : s = x
      · subst hs
        simp
      · simp [hs]
  rw [hpart]
  congr 1
  funext s
  rw [if_pos (hall s)]

theorem sweepOne_spec (m : Mem σ) (hitlist : List (Skb σ)) (x : σ) : ∃ m',
    sweepOne (m, hitlist) x = (m', hitlist ++
      if m.gcTree x = .orphan then (m.receiveQueue x).filter (·.fp.isSome) else []) ∧
    m'.refcnt = m.refcnt ∧ m'.gcCurrent = m.gcCurrent ∧
    (∀ s, s ≠ x → m'.gcTree s = m.gcTree s ∧ m'.receiveQueue s = m.receiveQueue s) ∧
    m'.receiveQueue x = if m.gcTree x = .orphan then
      (m.receiveQueue x).filter (·.fp.isNone) else m.receiveQueue x := by
  rw [sweepOne, unlinkSkbs_eq]
  split
  · refine ⟨_, rfl, rfl, rfl, fun s hs ↦ ⟨?_, ?_⟩, ?_⟩
    · exact update_of_ne hs _ _
    · exact update_of_ne hs _ _
    · exact update_self ..
  · refine ⟨_, congrArg _ (append_nil _).symm, rfl, rfl, fun s hs ↦ ⟨?_, rfl⟩, rfl⟩
    exact update_of_ne hs _ _

/-- **The sweep**, over some of the sockets. -/
theorem sweep_spec (m : Mem σ) (hitlist : List (Skb σ)) (hl : l.Nodup) :
    ∃ m', l.foldl sweepOne (m, hitlist) = (m', hitlist ++
      (l.filter fun s ↦ decide (m.gcTree s = .orphan)).flatMap fun s ↦
        (m.receiveQueue s).filter (·.fp.isSome)) ∧
    m'.refcnt = m.refcnt ∧ m'.gcCurrent = m.gcCurrent ∧
    ∀ s, m'.receiveQueue s = if s ∈ l ∧ m.gcTree s = .orphan then
      (m.receiveQueue s).filter (·.fp.isNone) else m.receiveQueue s := by
  induction l generalizing m hitlist with
  | nil => exact ⟨m, by simp, rfl, rfl, fun s ↦ by simp⟩
  | cons x l ih =>
    obtain ⟨hx, hl⟩ := nodup_cons.1 hl
    have hne : ∀ s ∈ l, s ≠ x := fun s hs hc ↦ hx (hc ▸ hs)
    obtain ⟨m₁, heq₁, href₁, hcur₁, hsame, hqx⟩ := sweepOne_spec m hitlist x
    obtain ⟨m', heq, href, hcur, hq⟩ := ih m₁ (hitlist ++
      if m.gcTree x = .orphan then (m.receiveQueue x).filter (·.fp.isSome) else []) hl
    rw [foldl_cons, heq₁, heq]
    refine ⟨m', congrArg _ ?_, href.trans href₁, hcur.trans hcur₁, fun s ↦ ?_⟩
    · have hdead : (l.filter fun s ↦ decide (m₁.gcTree s = .orphan)) =
          l.filter fun s ↦ decide (m.gcTree s = .orphan) :=
        filter_congr fun s hs ↦ by rw [(hsame s (hne s hs)).1]
      have hskbs : ((l.filter fun s ↦ decide (m.gcTree s = .orphan)).flatMap fun s ↦
          (m₁.receiveQueue s).filter (·.fp.isSome)) =
          (l.filter fun s ↦ decide (m.gcTree s = .orphan)).flatMap fun s ↦
            (m.receiveQueue s).filter (·.fp.isSome) := by
        rw [flatMap_congr]
        intro s hs
        rw [(hsame s (hne s (mem_filter.1 hs).1)).2]
      rw [hdead, hskbs]
      by_cases hxo : m.gcTree x = .orphan
      · simp [hxo]
      · simp [hxo]
    · rw [hq]
      by_cases hs : s = x
      · subst hs
        rw [if_neg fun hc ↦ hx hc.1, hqx]
        simp
      · rw [(hsame s hs).1, (hsame s hs).2]
        simp [hs]

end Sweep

/-! ## Calls of `unix_gc`

Between two calls the sockets, their queues and their counters may become anything; only
`gc_current` is not touched by anybody else. -/

/-- What happens. -/
inductive Event (σ : Type u)
  /-- Whatever the rest of the kernel does. -/
  | other (k : Sockets σ) (m : Mem σ)
  /-- A call of `unix_gc`. -/
  | gc

/-- Runs. -/
def machine (σ : Type u) [DecidableEq σ] : Machine (Sockets σ × Mem σ) (Event σ) Unit where
  init s := s.2.gcCurrent = .head
  legal s
    | .other _ m => m.gcCurrent = s.2.gcCurrent
    | .gc => True
  exec s
    | .other k m => .ok (k, m)
    | .gc =>
      match unixGc s.1 s.2 with
      | none => .error ()
      | some (m, _) => .ok (s.1, m)

/-- The messages with descriptors are gone from the queues of the sockets that are not reachable. -/
structure Collected (k : Sockets σ) (m m' : Mem σ) (purged : List (Skb σ)) : Prop where
  gcCurrent : m'.gcCurrent = .head
  refcnt : m'.refcnt = m.refcnt
  live : ∀ s, Live (Root k) (Leads k m.receiveQueue) s → m'.receiveQueue s = m.receiveQueue s
  dead : ∀ s, ¬Live (Root k) (Leads k m.receiveQueue) s →
    m'.receiveQueue s = (m.receiveQueue s).filter (·.fp.isNone)
  purged : ∃ dead : List σ, dead.Nodup ∧
    (∀ s, s ∈ dead ↔ ¬Live (Root k) (Leads k m.receiveQueue) s) ∧
    purged = dead.flatMap fun s ↦ (m.receiveQueue s).filter (·.fp.isSome)

/-- **One call.** -/
theorem unixGc_spec (k : Sockets σ) {m : Mem σ} (hcur : m.gcCurrent = .head) :
    ∃ m' purged, unixGc k m = some (m', purged) ∧ Collected k m m' purged := by
  have hstart : Marked m.refcnt m.receiveQueue { m with gcTree := fun _ ↦ .orphan } [] [] :=
    ⟨hcur, fun v ↦ by simp, fun v ↦ by simp, rfl, nodup_nil⟩
  obtain ⟨stack, hmarked, hinv, hroots⟩ := pushRoots_spec (k := k) hstart
  obtain ⟨m₁, done, heq₁, hmarked₁, hinv₁, hsub⟩ :=
    markPhase_spec (k.table.length + 1) hmarked hinv (by simp)
  have hdone : ∀ s, m₁.gcTree s = .orphan ↔ ¬Live (Root k) (Leads k m.receiveQueue) s := by
    intro s
    rw [← hinv₁.mem_iff (fun r hr ↦ hsub r (mem_append_left _ (hroots r hr))) s]
    exact not_iff_not.1 ((hmarked₁.found s).trans not_not.symm)
  obtain ⟨m', heq, href, hcur', hqueue⟩ := sweep_spec m₁ [] k.nodup
  have hrefs : m₁.refcnt = m.refcnt := by
    funext v
    have := hmarked₁.refcnt v
    simpa using this
  rw [unixGc, foldl_orphan k.complete, heq₁]
  refine ⟨_, _, congrArg some heq, hcur'.trans hmarked₁.threaded, href.trans hrefs, fun s hs ↦ ?_,
    fun s hs ↦ ?_, k.table.filter fun s ↦ decide (m₁.gcTree s = .orphan), k.nodup.filter _,
    fun s ↦ ?_, ?_⟩
  · rw [hqueue, if_neg fun hc ↦ (hdone s).1 hc.2 hs, hmarked₁.queue]
  · rw [hqueue, if_pos ⟨k.complete s, (hdone s).2 hs⟩, hmarked₁.queue]
  · rw [mem_filter, decide_eq_true_eq, hdone]
    exact and_iff_right (k.complete s)
  · rw [nil_append, hmarked₁.queue]

theorem gcCurrent_of_reachable {s : Sockets σ × Mem σ} (h : (machine σ).Reachable s) :
    s.2.gcCurrent = .head := by
  refine h.invariant (P := fun s ↦ s.2.gcCurrent = .head) (fun s hs ↦ hs)
    fun s event s' hs hlegal hexec ↦ ?_
  cases event with
  | other k m =>
    cases hexec
    exact hlegal.trans hs
  | gc =>
    obtain ⟨m', purged, heq, hcollected⟩ := unixGc_spec s.1 hs
    change (match unixGc s.1 s.2 with
      | none => Except.error ()
      | some (m, _) => .ok (s.1, m)) = .ok s' at hexec
    rw [heq] at hexec
    cases hexec
    exact hcollected.gcCurrent

/-- **`unix_gc` is exact.**  Whatever the sockets, it comes to an end; it purges the messages with
descriptors on the sockets that are not reachable, each once, and nothing else, and the queues of
the others are as before. -/
theorem unix_gc_exact {k : Sockets σ} {m : Mem σ} (h : (machine σ).Reachable (k, m)) :
    ∃ m' purged, unixGc k m = some (m', purged) ∧ Collected k m m' purged :=
  unixGc_spec k (gcCurrent_of_reachable h)

/-- Three sockets, all of them in flight once.  Only the last one is open otherwise. -/
def threeSockets : Sockets (Fin 3) :=
  ⟨[0, 1, 2], by decide, by decide, ![some 1, some 1, some 2], fun _ ↦ 1, fun _ ↦ false⟩

/-- The first two have each other's descriptor in their queue, and the first one that of the last
one, too. -/
def passedAround : Mem (Fin 3) :=
  ⟨fun _ ↦ .orphan, fun _ ↦ 1, ![[⟨some [some 1], 1⟩, ⟨some [none, some 2], 1⟩], [⟨none, 0⟩,
    ⟨some [some 0], 0⟩], [⟨none, 0⟩]], .head⟩

/-- The messages of the first two are purged. -/
theorem unix_gc_exact_cycle : (machine (Fin 3)).Reachable (threeSockets, passedAround) ∧
    (unixGc threeSockets passedAround).map (·.2.length) = some 3 ∧
    ∃ m' purged, unixGc threeSockets passedAround = some (m', purged) ∧
      Collected threeSockets passedAround m' purged := by
  have hinit : (machine (Fin 3)).Reachable (threeSockets, passedAround) := .init rfl
  exact ⟨hinit, rfl, unix_gc_exact hinit⟩

end Linux24.UnixGc
