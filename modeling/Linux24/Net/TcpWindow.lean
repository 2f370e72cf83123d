import Linux24.Lib.Machine
import Linux24.Lib.Word

/-!
# The window that TCP offers

`tcp_select_window` never takes back what it has offered: if less is free than there was, the window
is what is left of the old one.  But what the peer gets to see is not `rcv_wnd`.  It is shifted to
the right by `rcv_wscale` on its way into the header, and what is shifted out is lost.  So with
scaling the edge that the peer sees can move back, by less than one unit of the scale, when data has
arrived that is not a multiple of it.  Without scaling it can move back when the window gets greater
than 65535, since there are 16 bits in the header.  Nothing prevents this: `TCP_WINDOW_CLAMP` sets
`window_clamp` to any number, and `tcp_grow_window` increases `rcv_ssthresh` up to there.
-/

set_option autoImplicit false

namespace Linux24.Tcp

/-- `struct tcp_opt`. -/
structure TcpOpt where
  rcvNxt : ℕ
  rcvWup : ℕ
  rcvWnd : ℕ
  rcvWscale : ℕ
  windowClamp : ℕ
  rcvSsthresh : ℕ
  rcvMss : ℕ
  advmss : ℕ

/-- What `tcp_space` and `tcp_full_space` return, and `tcp_memory_pressure`. -/
structure Space where
  free : ℤ
  full : ℕ
  pressure : Bool

/-- The first sequence number is before the second one. -/
abbrev before (seq1 seq2 : ℕ) : Prop := 2147483648 ≤ sub32 seq1 seq2

namespace TcpOpt

variable (tp : TcpOpt) (sp : Space)

/-- The numbers have their types, and the window and its threshold are within the bound. -/
def Within (bound : ℕ) : Prop :=
  tp.rcvWnd ≤ bound ∧ tp.rcvSsthresh ≤ bound ∧
    tp.rcvWnd < 2147483648 ∧ tp.rcvSsthresh < 2147483648 ∧
    tp.windowClamp < 2147483648 ∧ tp.rcvMss < 65536 ∧ tp.advmss < 65536

def tcpReceiveWindow : ℕ :=
  let win := sub32 (add32 tp.rcvWup tp.rcvWnd) tp.rcvNxt
  if 2147483648 ≤ win then 0 else win

/-- `__tcp_select_window`.  It faults if it divides by `0`. -/
def rawSelectWindow : Except Unit (ℕ × TcpOpt) :=
  let fullSpace := min tp.windowClamp sp.full
  let mss := min tp.rcvMss fullSpace
  let low : Bool := sp.free < (fullSpace / 2 : ℕ)
  let tp := if low ∧ sp.pressure then { tp with rcvSsthresh := min tp.rcvSsthresh (4 * tp.advmss) }
    else tp
  if low ∧ sp.free < mss then .ok (0, tp)
  else
    -- here `free_space` is not negative
    let freeSpace := min sp.free.toNat tp.rcvSsthresh
    if tp.rcvWnd + mss ≤ freeSpace ∨ freeSpace < tp.rcvWnd then
      if mss = 0 then .error () else .ok (freeSpace / mss * mss, tp)
    else .ok (tp.rcvWnd, tp)

/-- `tcp_select_window` returns an `u16`. -/
def tcpSelectWindow : Except Unit (ℕ × TcpOpt) :=
  let curWin := tp.tcpReceiveWindow
  match tp.rawSelectWindow sp with
  | .error e => .error e
  | .ok (newWin, tp) =>
    let newWin := if newWin < curWin then curWin else newWin
    .ok (newWin >>> tp.rcvWscale % 65536, { tp with rcvWnd := newWin, rcvWup := tp.rcvNxt })

end TcpOpt

/-- A connection, and the right edge of the window that the peer has seen last. -/
structure Conn where
  tp : TcpOpt
  edge : Option ℕ

inductive Event
  /-- Data in the window is accepted. -/
  | data (n : ℕ)
  /-- A segment is sent. -/
  | send (sp : Space)
  /-- `TCP_WINDOW_CLAMP`, `tcp_grow_window`, `tcp_clamp_window`, `tcp_measure_rcv_mss`, …. -/
  | tune (windowClamp rcvSsthresh rcvMss advmss : ℕ)

namespace Conn

def tune (c : Conn) (windowClamp rcvSsthresh rcvMss advmss : ℕ) : Conn :=
  { c with tp := { c.tp with windowClamp, rcvSsthresh, rcvMss, advmss } }

def exec (c : Conn) : Event → Except Unit Conn
  | .data n => .ok { c with tp := { c.tp with rcvNxt := add32 c.tp.rcvNxt n } }
  | .send sp =>
    match c.tp.tcpSelectWindow sp with
    | .error e => .error e
    | .ok (win, tp) => .ok ⟨tp, some (add32 tp.rcvNxt (win * 2 ^ tp.rcvWscale))⟩
  | .tune windowClamp rcvSsthresh rcvMss advmss =>
    .ok (c.tune windowClamp rcvSsthresh rcvMss advmss)

/-- The histories of a connection with this scale, from where the window has just been offered, in
which the window and its threshold are within the bound. -/
def machine (wscale bound : ℕ) : Machine Conn Event Unit where
  init c := c.tp.rcvWscale = wscale ∧ c.tp.rcvWup = c.tp.rcvNxt ∧ c.tp.rcvNxt < 4294967296 ∧
    c.tp.Within bound ∧ c.edge = none
  legal c
    | .data n => n ≤ c.tp.tcpReceiveWindow
    | .send _ => True
    | .tune windowClamp rcvSsthresh rcvMss advmss =>
      (c.tune windowClamp rcvSsthresh rcvMss advmss).tp.Within bound
  exec := exec

/-- In every history the edge never moves back. -/
def NeverShrinks (wscale bound : ℕ) : Prop :=
  ∀ c, (machine wscale bound).Reachable c → ∀ sp t e e', c.exec (.send sp) = .ok t →
    c.edge = some e → t.edge = some e' → ¬ before e' e

/-- Without scaling the peer sees what is offered, as long as it has room in 16 bits. -/
structure Ok (c : Conn) : Prop where
  wscale : c.tp.rcvWscale = 0
  wnd : c.tp.rcvWnd ≤ 65535
  ssthresh : c.tp.rcvSsthresh ≤ 65535
  wup : c.tp.rcvWup < 4294967296
  nxt : ∃ k ≤ c.tp.rcvWnd, c.tp.rcvNxt = add32 c.tp.rcvWup k
  edge : ∀ e, c.edge = some e → e = add32 c.tp.rcvWup c.tp.rcvWnd

end Conn

/-- The window is not greater than `rcv_ssthresh`, and nothing else changes. -/
theorem TcpOpt.rawSelectWindow_spec {tp tp' : TcpOpt} {sp : Space} {win : ℕ}
    (h : tp.rawSelectWindow sp = .ok (win, tp')) : win ≤ tp.rcvSsthresh ∧
      ∃ n ≤ tp.rcvSsthresh, tp' = { tp with rcvSsthresh := n } := by
  unfold rawSelectWindow at h
  extract_lets fullSpace mss low tq freeSpace at h
  obtain ⟨n, hn, htq⟩ : ∃ n ≤ tp.rcvSsthresh, tq = { tp with rcvSsthresh := n } := by
    by_cases hlow : low ∧ sp.pressure
    · exact ⟨_, min_le_left _ _, if_pos hlow⟩
    · exact ⟨_, le_rfl, if_neg hlow⟩
  have hfree : freeSpace ≤ tp.rcvSsthresh := (min_le_right _ _).trans (by rw [htq]; exact hn)
  split at h
  · obtain ⟨rfl, htp⟩ := Prod.mk.inj (Except.ok.inj h)
    exact ⟨zero_le, n, hn, htp.symm.trans htq⟩
  · split at h
    · split at h
      · cases h
      · obtain ⟨rfl, htp⟩ := Prod.mk.inj (Except.ok.inj h)
        exact ⟨(Nat.div_mul_le_self _ _).trans hfree, n, hn, htp.symm.trans htq⟩
    · obtain ⟨rfl, htp⟩ := Prod.mk.inj (Except.ok.inj h)
      exact ⟨by omega, n, hn, htp.symm.trans htq⟩

namespace Conn

variable {c t : Conn}

/-- What is left of the window. -/
theorem Ok.receiveWindow (h : c.Ok) {k : ℕ} (hk : k ≤ c.tp.rcvWnd)
    (hnxt : c.tp.rcvNxt = add32 c.tp.rcvWup k) : c.tp.tcpReceiveWindow = c.tp.rcvWnd - k := by
  have hwnd := h.wnd
  simp only [TcpOpt.tcpReceiveWindow, hnxt, add32, sub32]
  rw [if_neg] <;> omega

/-- **A segment is sent**: the edge stays, or moves on. -/
theorem Ok.send (h : c.Ok) {sp : Space} (he : c.exec (.send sp) = .ok t) :
    t.Ok ∧ ∀ e e', c.edge = some e → t.edge = some e' → ¬ before e' e := by
  obtain ⟨k, hk, hnxt⟩ := h.nxt
  have hcur := h.receiveWindow hk hnxt
  have hwnd := h.wnd
  have hss := h.ssthresh
  simp only [exec, TcpOpt.tcpSelectWindow] at he
  cases hraw : c.tp.rawSelectWindow sp with
  | error e =>
    rw [hraw] at he
    cases he
  | ok r =>
    obtain ⟨win, tp'⟩ := r
    obtain ⟨hwin, n, hn, rfl⟩ := TcpOpt.rawSelectWindow_spec hraw
    rw [hraw] at he
    cases he
    set new := if win < c.tp.tcpReceiveWindow then c.tp.tcpReceiveWindow else win with hnew
    have hle : new ≤ 65535 ∧ c.tp.rcvWnd - k ≤ new := by
      rw [hnew]
      split <;> omega
    have hedge : add32 c.tp.rcvNxt (new >>> c.tp.rcvWscale % 65536 * 2 ^ c.tp.rcvWscale) =
        add32 c.tp.rcvNxt new := by
      rw [h.wscale, Nat.shiftRight_zero, Nat.mod_eq_of_lt (by omega), pow_zero, mul_one]
    refine ⟨⟨h.wscale, hle.1, hn.trans hss, hnxt ▸ add32_lt _ _, ⟨0, zero_le, ?_⟩, ?_⟩, ?_⟩
    · simp only [hnxt, add32]
      omega
    · rintro e ⟨⟩
      exact hedge
    · rintro e e' heq ⟨⟩
      rw [hedge, h.edge e heq, hnxt]
      simp only [before, add32, sub32]
      omega

theorem Ok.reachable {bound : ℕ} (hb : bound ≤ 65535) (hc : (machine 0 bound).Reachable c) :
    c.Ok := by
  refine hc.invariant (fun c hc ↦ ?_) fun c a t hc hl he ↦ ?_
  · obtain ⟨hscale, hwup, hnxt, ⟨hwnd, hss, -⟩, hedge⟩ := hc
    refine ⟨hscale, hwnd.trans hb, hss.trans hb, by omega, ⟨0, zero_le, ?_⟩, by simp [hedge]⟩
    rw [hwup, add32_of_lt (by omega), add_zero]
  · cases a with
    | data n =>
      cases he
      obtain ⟨k, hk, hnxt⟩ := hc.nxt
      have hn : n ≤ c.tp.rcvWnd - k := (hc.receiveWindow hk hnxt) ▸ hl
      refine { hc with nxt := ⟨k + n, by simp only; omega, ?_⟩ }
      simp only [hnxt, add32]
      omega
    | send sp => exact (hc.send he).1
    | tune windowClamp rcvSsthresh rcvMss advmss =>
      cases he
      exact { hc with ssthresh := hl.2.1.trans hb }

/-- With scaling, one byte is accepted while nothing is free, and the edge moves back. -/
theorem exists_moves_back {wscale bound : ℕ} (hpos : 1 ≤ wscale) (hle : wscale ≤ 14)
    (hb : 2 ^ wscale ≤ bound) : ∃ c t,
    (machine wscale bound).Reachable c ∧ c.edge = some (2 ^ wscale) ∧
      c.exec (.send ⟨0, 2, false⟩) = .ok t ∧ t.edge = some 1 := by
  have hlt : 2 ^ wscale < 2147483648 := (Nat.pow_le_pow_right two_pos hle).trans_lt (by decide)
  have hinit : (machine wscale bound).Reachable ⟨⟨0, 0, 2 ^ wscale, wscale, 2, 0, 1, 0⟩, none⟩ :=
    .init ⟨rfl, rfl, Nat.zero_lt_succ _, ⟨hb, zero_le, hlt, by norm_num⟩, rfl⟩
  interval_cases wscale
  all_goals
    have hsent := hinit.step (a := Event.send ⟨0, 2, false⟩) trivial rfl
    have hdata := hsent.step (a := Event.data 1) (Nat.le_of_ble_eq_true rfl) rfl
    exact ⟨_, _, hdata, rfl, rfl, rfl⟩

/-- Without scaling, the threshold grows while the window is 65535, and the window becomes `0` in
the header. -/
theorem exists_wraps {bound : ℕ} (hb : 65535 < bound) : ∃ c t,
    (machine 0 bound).Reachable c ∧ c.edge = some 65535 ∧
      c.exec (.send ⟨65536, 65536, false⟩) = .ok t ∧ t.edge = some 0 := by
  have hinit : (machine 0 bound).Reachable ⟨⟨0, 0, 65535, 0, 65535, 65535, 1, 0⟩, none⟩ :=
    .init ⟨rfl, rfl, by decide, ⟨hb.le, hb.le, by decide⟩, rfl⟩
  have hsent := hinit.step (a := Event.send ⟨65535, 65535, false⟩) trivial rfl
  have htuned := hsent.step (a := Event.tune 65536 65536 1 0) ⟨hb.le, hb, by decide⟩ rfl
  exact ⟨_, _, htuned, rfl, rfl, rfl⟩

/-- **When the edge never moves back**: without scaling, if the window and its threshold have room
in 16 bits. -/
theorem neverShrinks_iff {wscale bound : ℕ} (hle : wscale ≤ 14) (hb : 2 ^ wscale ≤ bound) :
    NeverShrinks wscale bound ↔ wscale = 0 ∧ bound ≤ 65535 := by
  constructor
  · intro hnever
    have hzero : wscale = 0 := by
      by_contra hne
      obtain ⟨c, t, hc, hedge, he, hedge'⟩ := exists_moves_back (Nat.pos_of_ne_zero hne) hle hb
      refine hnever c hc _ t _ _ he hedge hedge' ?_
      interval_cases wscale <;> simp_all [sub32]
    subst hzero
    refine ⟨rfl, not_lt.1 fun hlt ↦ ?_⟩
    obtain ⟨c, t, hc, hedge, he, hedge'⟩ := exists_wraps hlt
    exact hnever c hc _ t _ _ he hedge hedge' (by decide)
  · rintro ⟨rfl, hbound⟩ c hc sp t e e' he hedge hedge'
    exact ((Ok.reachable hbound hc).send he).2 e e' hedge hedge'

theorem neverShrinks_zero : NeverShrinks 0 65535 :=
  (neverShrinks_iff (by decide) (by decide)).2 ⟨rfl, le_rfl⟩

/-- The peer is told of a window up to 2, and then of one up to 1. -/
theorem edge_moves_back : ∃ c t, (machine 1 65535).Reachable c ∧ c.edge = some 2 ∧
    c.exec (.send ⟨0, 2, false⟩) = .ok t ∧ t.edge = some 1 :=
  exists_moves_back le_rfl (by decide) (by decide)

end Conn

end Linux24.Tcp
