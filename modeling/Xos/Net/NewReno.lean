import Mathlib.Algebra.Order.Group.Nat
import Mathlib.Data.List.Basic

/-!
# Window growth of NewReno

`newreno_ack_received` of `bsd/compat/compat_shims.c`.  In congestion avoidance an acknowledgement
should open the window by `mss * mss / cwnd` bytes, at least one.  The two branches are exchanged:
up to `mss * mss` a window grows by one byte, and above it not at all.

* **A run** — the window after any number of acknowledgements (`cwnd_acks`);
* **One window** — when a window's worth of acknowledgements opens it by about a segment
  (`window_growth_iff`), and the usual window of ten segments, where it does not
  (`ten_segments_grow_ten`).
-/

namespace Xos.Net.NewReno

/-- The signals that come with an acknowledgement. -/
inductive CcSignal
  | ack
  | dupAck
  | partialAck
  | sack
  deriving DecidableEq

/-- `t_maxseg`, `snd_cwnd` and `snd_ssthresh` of a connection. -/
structure Tcpcb where
  maxseg : ℕ
  cwnd : ℕ
  ssthresh : ℕ

/-- `newreno_ack_received`. -/
def newrenoAckReceived (type : CcSignal) (tp : Tcpcb) (bytesThisAck : ℕ) : Tcpcb :=
  if type = .ack then
    if tp.cwnd < tp.ssthresh then
      { tp with cwnd := (tp.cwnd + min bytesThisAck tp.maxseg) % 2 ^ 32 }
    else
      let incr := tp.maxseg * tp.maxseg % 2 ^ 32
      let incr := if incr < tp.cwnd then incr / tp.cwnd else 1
      { tp with cwnd := (tp.cwnd + incr) % 2 ^ 32 }
  else tp

/-- Consecutive acknowledgements. -/
def acks (tp : Tcpcb) (bytes : List ℕ) : Tcpcb := bytes.foldl (newrenoAckReceived .ack) tp

variable {mss cwnd ssthresh : ℕ}

theorem sq_lt (hmss : mss ≤ 65535) : mss * mss < 2 ^ 32 - 1 :=
  lt_of_le_of_lt (Nat.mul_le_mul hmss hmss) (by decide)

/-- **One acknowledgement** opens a window of up to `mss * mss` bytes by one byte. -/
theorem ack_avoidance (hmss : mss ≤ 65535) (hss : ssthresh ≤ cwnd) (hle : cwnd ≤ mss * mss + 1)
    (b : ℕ) : newrenoAckReceived .ack ⟨mss, cwnd, ssthresh⟩ b =
      ⟨mss, min (cwnd + 1) (mss * mss + 1), ssthresh⟩ := by
  have hsq := sq_lt hmss
  simp only [newrenoAckReceived, if_true, if_neg (Nat.not_lt.mpr hss),
    Tcpcb.mk.injEq, true_and, and_true]
  split_ifs with h
  · rw [Nat.div_eq_of_lt h]
    omega
  · omega

/-- **A run of acknowledgements.** -/
theorem cwnd_acks (hmss : mss ≤ 65535) (bytes : List ℕ) (hss : ssthresh ≤ cwnd)
    (hle : cwnd ≤ mss * mss + 1) :
    (acks ⟨mss, cwnd, ssthresh⟩ bytes).cwnd = min (cwnd + bytes.length) (mss * mss + 1) := by
  induction bytes generalizing cwnd with
  | nil => simp [acks, hle]
  | cons b bytes ih =>
    have hnext := @ih (min (cwnd + 1) (mss * mss + 1)) (by omega) (by omega)
    rw [acks, List.foldl_cons, ack_avoidance hmss hss hle, ← acks, List.length_cons]
    omega

/-- **Growth over one window.**  The acknowledgements of one window raise it by at least a sixth of
a segment and at most two segments if and only if the window is at least about a sixth of
`mss * mss` and not within a sixth of a segment of it. -/
theorem window_growth_iff (hmss : 1 ≤ mss ∧ mss ≤ 65535) (hcwnd : mss ≤ cwnd ∧ cwnd ≤ mss * mss)
    (hss : ssthresh ≤ cwnd) (bytes : List ℕ) (hlen : bytes.length = (cwnd + mss - 1) / mss) :
    (mss ≤ 6 * ((acks ⟨mss, cwnd, ssthresh⟩ bytes).cwnd - cwnd) ∧
      (acks ⟨mss, cwnd, ssthresh⟩ bytes).cwnd - cwnd ≤ 2 * mss) ↔
    mss ≤ 6 * ((cwnd + mss - 1) / mss) ∧ mss ≤ 6 * (mss * mss + 1 - cwnd) := by
  have hacks : (cwnd + mss - 1) / mss ≤ mss :=
    Nat.lt_succ_iff.mp ((Nat.div_lt_iff_lt_mul hmss.1).mpr (by rw [Nat.succ_mul]; omega))
  rw [cwnd_acks hmss.2 bytes hss (by omega)]
  omega

/-- A window of half of `mss * mss` bytes. -/
theorem wide_window_grows : (acks ⟨100, 5000, 0⟩ (List.replicate 50 100)).cwnd = 5050 ∧
    100 ≤ 6 * ((acks ⟨100, 5000, 0⟩ (List.replicate 50 100)).cwnd - 5000) := by
  refine ⟨by decide +kernel, ?_⟩
  exact ((window_growth_iff (by decide) (by decide) (by decide) _ (by decide)).mpr (by decide)).1

/-- Ten segments of 1460 bytes grow by ten bytes, not by a segment. -/
theorem ten_segments_grow_ten : (14600 + 1460 - 1) / 1460 = 10 ∧
    (acks ⟨1460, 14600, 0⟩ (List.replicate 10 1460)).cwnd = 14610 ∧ ¬ 1460 ≤ 6 * (14610 - 14600) := by
  decide +kernel

end Xos.Net.NewReno
