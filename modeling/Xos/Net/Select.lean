import Mathlib.Algebra.Order.Group.Nat
import Mathlib.Data.List.Induction
import Mathlib.Data.Nat.Find
import Mathlib.Logic.Function.Basic
import Mathlib.Tactic.Set

/-!
# What poll and select return

`sys_poll_impl` and `sys_select_impl` of `kernel/bsd/syscalls.c`, from the arguments to the caller's
memory.  Both are one loop (`rounds`): ask every descriptor, return if one is ready, look at the
clock, wait and try again.  What the descriptors answer and what the clock shows is up to the rest
of the system (`Env`).

* **Reports** — a call leaves what its last scan found in the caller's memory if it found something,
  or if there was nothing to clear there, and in no other case (`reports_iff`): a return of 0 leaves
  the sets as they were (`nothing_ready_not_reported`).
* **Timeouts** — `poll` keeps its timeout on every clock exactly if the deadline is a whole number of
  ticks that is computed without wrapping; `select` only if the timeout is zero or there is none
  (`timeouts_kept_iff`).  With any other timeout `select` computes its deadline anew in every round,
  and does not come back (`select_timeout_not_kept`).
-/

namespace Xos.Select

open Function

/-- What a call sees of the rest of the system. -/
structure Env where
  /-- `xos_poll_fd(fd, events)` in round `k`. -/
  pollFd : ℕ → ℤ → BitVec 16 → BitVec 16
  /-- `POLLIN` and `POLLOUT` are only reported to those who ask. -/
  asked : ∀ k fd events i, i = 0 ∨ i = 2 → (pollFd k fd events).getLsbD i = true →
    events.getLsbD i = true
  /-- The values that the calls of `timer_ticks()` return, one after the other. -/
  ticks : ℕ → ℕ
  mono : ∀ i, ticks i ≤ ticks (i + 1)
  /-- `timer_ticks_hz()`. -/
  hz : ℕ

/-- The loop of both calls, from round `k` on: `found k` is the result if round `k` found something
ready, `expired k` is whether it gives up with `nothing`.  It has not returned after `fuel` rounds if
the result is `none`. -/
def rounds {α : Type} (found : ℕ → Option α) (expired : ℕ → Bool) (nothing : α) : ℕ → ℕ → Option α
  | 0, _ => none
  | fuel + 1, k =>
    match found k with
    | some r => some r
    | none => if expired k then some nothing else rounds found expired nothing fuel (k + 1)

/-! ## Poll -/

/-- `struct xos_pollfd`. -/
structure PollFd where
  fd : ℤ
  events : BitVec 16
  revents : BitVec 16
  deriving DecidableEq

/-- The scan of one entry. -/
def pollOne (env : Env) (k : ℕ) (p : PollFd) : PollFd :=
  { p with revents := if p.fd < 0 then 0 else env.pollFd k p.fd p.events }

/-- The scan: the entries, and `ready_count`. -/
def pollScan (env : Env) (k : ℕ) (pfds : List PollFd) : List PollFd × ℕ :=
  pfds.foldl (fun acc p => (acc.1 ++ [pollOne env k p],
    if (pollOne env k p).revents ≠ 0 then acc.2 + 1 else acc.2)) ([], 0)

/-- `deadline_ticks`, and in each round of `select` its `deadline`. -/
def deadline (env : Env) (now ms : ℕ) : ℕ := (now + ms * env.hz % 2 ^ 64 / 1000) % 2 ^ 64

/-- What `poll` returns in round `k` if something is ready. -/
def pollFound (env : Env) (fds : List PollFd) (k : ℕ) : Option (ℕ × List PollFd) :=
  let r := pollScan env k fds
  if 0 < r.2 then some (r.2, r.1) else none

/-- Whether `poll` gives up in round `k`. -/
def pollExpired (env : Env) (timeout k : ℕ) : Bool :=
  timeout = 0 || deadline env (env.ticks 0) timeout ≤ env.ticks (k + 1)

/-- `sys_poll`: the value returned and the caller's array.  The array is copied in before the loop,
and every round writes every `revents`. -/
def sysPoll (env : Env) (fds : List PollFd) (timeout fuel : ℕ) : Option (ℕ × List PollFd) :=
  if fds.length = 0 ∨ 256 < fds.length then some (0, fds)
  else rounds (pollFound env fds) (pollExpired env timeout) (0, fds) fuel 0

/-! ## Select -/

/-- The words of an `fd_set`. -/
abbrev FdSet := ℕ → BitVec 64

/-- `fd_set_bit`. -/
def fdSetBit (set : FdSet) (fd : ℕ) : FdSet :=
  update set (fd / 64) (set (fd / 64) ||| 1#64 <<< (fd % 64))

/-- `fd_test_bit`. -/
def fdTestBit (set : FdSet) (fd : ℕ) : Bool := (set (fd / 64)).getLsbD (fd % 64)

/-- The events that are asked for. -/
def eventsOf (rset wset : FdSet) (fd : ℕ) : BitVec 16 :=
  (if fdTestBit rset fd then 0x001#16 else 0#16) ||| if fdTestBit wset fd then 0x004#16 else 0#16

/-- What the descriptor answers, if it is asked. -/
def reventsOf (env : Env) (k : ℕ) (rset wset : FdSet) (fd : ℕ) : BitVec 16 :=
  if eventsOf rset wset fd = 0 then 0 else env.pollFd k fd (eventsOf rset wset fd)

/-- `out_rset`, `out_wset` and `ready_count`. -/
structure Found where
  rset : FdSet
  wset : FdSet
  count : ℕ

/-- The scan of one descriptor that answers `revents`. -/
def Found.add (x : Found) (fd : ℕ) (revents : BitVec 16) : Found :=
  let x := if revents.getLsbD 0 then
    { x with rset := fdSetBit x.rset fd, count := x.count + 1 } else x
  if revents.getLsbD 2 then { x with wset := fdSetBit x.wset fd, count := x.count + 1 } else x

/-- The scan. -/
def selectScan (env : Env) (k : ℕ) (rset wset : FdSet) (nfds : ℕ) : Found :=
  (List.range nfds).foldl (fun x fd => x.add fd (reventsOf env k rset wset fd))
    ⟨fun _ => 0, fun _ => 0, 0⟩

/-- `timeout_ms`: -1 without a `timeval`, and an `int` of seconds and microseconds. -/
def timeoutMs : Option (ℕ × ℕ) → ℤ
  | none => -1
  | some (sec, usec) => (BitVec.ofNat 32 (sec * 1000 + usec / 1000)).toInt

/-- Whether `select` gives up in round `k`: the deadline is computed in the round. -/
def selectExpired (env : Env) (timeout : Option (ℕ × ℕ)) (k : ℕ) : Bool :=
  timeoutMs timeout = 0 || 0 < timeoutMs timeout &&
    deadline env (env.ticks (2 * k)) (timeoutMs timeout).toNat ≤ env.ticks (2 * k + 1)

/-- The kernel's copy of a set, `rset` or `wset`: a missing one is empty. -/
def copyOf (set : Option FdSet) : FdSet := set.getD fun _ => 0

/-- What `select` returns in round `k` if something is ready. -/
def selectFound (env : Env) (nfds : ℕ) (readfds writefds : Option FdSet) (k : ℕ) :
    Option (ℕ × Option FdSet × Option FdSet) :=
  let x := selectScan env k (copyOf readfds) (copyOf writefds) nfds
  if 0 < x.count then some (x.count, readfds.map fun _ => x.rset, writefds.map fun _ => x.wset)
  else none

/-- `sys_select`: the value returned and the caller's sets; a set may be missing. -/
def sysSelect (env : Env) (nfds : ℕ) (readfds writefds : Option FdSet) (timeout : Option (ℕ × ℕ))
    (fuel : ℕ) : Option (ℕ × Option FdSet × Option FdSet) :=
  if nfds = 0 ∨ 256 < nfds then some (0, readfds, writefds)
  else rounds (selectFound env nfds readfds writefds) (selectExpired env timeout)
    (0, readfds, writefds) fuel 0

variable {env : Env} {α : Type} {found : ℕ → Option α} {expired : ℕ → Bool} {nothing r : α}
  {fuel j k fd nfds timeout hz start : ℕ} {fds : List PollFd} {rset wset : FdSet}
  {readfds writefds : Option FdSet} {tv : Option (ℕ × ℕ)}

/-! ## Rounds -/

/-- The loop goes on as long as nothing is ready and the time is not over. -/
theorem rounds_eq_none_iff : rounds found expired nothing fuel k = none ↔
    ∀ j, k ≤ j → j < k + fuel → found j = none ∧ expired j = false := by
  induction fuel generalizing k with
  | zero => exact iff_of_true rfl fun j h1 h2 => by omega
  | succ fuel ih =>
    have hsplit : (∀ j, k ≤ j → j < k + (fuel + 1) → found j = none ∧ expired j = false) ↔
        (found k = none ∧ expired k = false) ∧
          ∀ j, k + 1 ≤ j → j < k + 1 + fuel → found j = none ∧ expired j = false := by
      refine ⟨fun h => ⟨h k le_rfl (by omega), fun j h1 h2 => h j (by omega) (by omega)⟩,
        fun h j h1 h2 => ?_⟩
      obtain rfl | h1 := Nat.eq_or_lt_of_le h1
      exacts [h.1, h.2 j h1 (by omega)]
    rw [hsplit, ← ih, rounds]
    cases found k <;> cases expired k <;> simp

/-- The round after `fuel` rounds without a result. -/
theorem rounds_succ (h : rounds found expired nothing fuel k = none) :
    rounds found expired nothing (fuel + 1) k =
      (found (k + fuel)).or (if expired (k + fuel) then some nothing else none) := by
  induction fuel generalizing k with
  | zero =>
    rw [rounds]
    cases found k <;> cases expired k <;> simp [rounds]
  | succ fuel ih =>
    obtain ⟨hf, he⟩ := rounds_eq_none_iff.1 h k le_rfl (by omega)
    have hstep : ∀ n, rounds found expired nothing (n + 1) k =
        rounds found expired nothing n (k + 1) := by
      intro n
      rw [rounds, hf, he]
      rfl
    rw [hstep] at h ⊢
    rw [ih h, show k + 1 + fuel = k + (fuel + 1) by omega]

/-- While nothing is ready the loop is about the clock. -/
theorem rounds_quiet : rounds (fun _ => none) expired nothing fuel k = some nothing ↔
    ∃ j, k ≤ j ∧ j < k + fuel ∧ expired j = true := by
  induction fuel generalizing k with
  | zero => exact iff_of_false nofun fun ⟨j, h1, h2, _⟩ => by omega
  | succ fuel ih =>
    rw [rounds]
    cases he : expired k with
    | true => exact iff_of_true rfl ⟨k, le_rfl, by omega, he⟩
    | false =>
      refine ih.trans ⟨fun ⟨j, h1, h2, h⟩ => ⟨j, by omega, by omega, h⟩, fun ⟨j, h1, h2, h⟩ => ?_⟩
      obtain rfl | h1 := Nat.eq_or_lt_of_le h1
      · rw [he] at h
        cases h
      · exact ⟨j, h1, by omega, h⟩

/-! ## Scans -/

theorem pollScan_eq : pollScan env k fds = (fds.map (pollOne env k),
    (fds.map (pollOne env k)).countP fun p => p.revents ≠ 0) := by
  unfold pollScan
  induction fds using List.reverseRecOn with
  | nil => rfl
  | append_singleton fds p ih =>
    rw [List.foldl_append, ih, List.map_append, List.countP_append]
    simp only [List.foldl_cons, List.map_cons, List.map_nil,
      List.countP_singleton, decide_eq_true_eq]
    split <;> rfl

theorem fdTestBit_fdSetBit :
    fdTestBit (fdSetBit rset j) fd = (decide (fd = j) || fdTestBit rset fd) := by
  unfold fdTestBit fdSetBit
  by_cases hw : fd / 64 = j / 64
  · have hbit : j % 64 = fd % 64 ↔ fd = j := by omega
    have hlt : j % 64 < 64 := Nat.mod_lt _ (by omega)
    rw [hw, update_self, BitVec.getLsbD_or, Bool.or_comm, ← BitVec.twoPow_eq,
      BitVec.getLsbD_twoPow, decide_eq_true hlt, Bool.true_and, decide_eq_decide.mpr hbit]
  · have hne : fd ≠ j := fun h => hw (h ▸ rfl)
    rw [update_of_ne hw, decide_eq_false hne, Bool.false_or]

/-- The set of the descriptors below `nfds` that answer, with one more of them. -/
theorem fdTestBit_succ {p : ℕ → Bool} (h : ∀ fd, fdTestBit rset fd = (decide (fd < nfds) && p fd))
    (h' : ∀ fd, fdTestBit wset fd = (decide (fd = nfds) && p nfds || fdTestBit rset fd)) :
    (∀ fd, fdTestBit wset fd = (decide (fd < nfds + 1) && p fd)) ∧
    (List.range (nfds + 1)).countP (fdTestBit wset) =
      (List.range nfds).countP (fdTestBit rset) + if p nfds then 1 else 0 := by
  constructor
  · intro fd
    rw [h', h]
    rcases lt_trichotomy fd nfds with hlt | rfl | hgt
    · simp [hlt, hlt.ne, Nat.lt_succ_of_lt hlt]
    · simp
    · simp [hgt.ne', hgt.not_gt, show ¬fd < nfds + 1 by omega]
  · rw [List.range_succ, List.countP_append, List.countP_singleton, h' nfds, h nfds]
    congr 1
    · refine List.countP_congr fun fd hfd => ?_
      rw [h', decide_eq_false (List.mem_range.mp hfd).ne, Bool.false_and, Bool.false_or]
    · simp

theorem Found.add_spec (x : Found) (e : BitVec 16) : (∀ fd, fdTestBit (x.add j e).rset fd =
      (decide (fd = j) && e.getLsbD 0 || fdTestBit x.rset fd)) ∧
    (∀ fd, fdTestBit (x.add j e).wset fd =
      (decide (fd = j) && e.getLsbD 2 || fdTestBit x.wset fd)) ∧
    (x.add j e).count =
      x.count + ((if e.getLsbD 0 then 1 else 0) + if e.getLsbD 2 then 1 else 0) := by
  unfold Found.add
  cases e.getLsbD 0 <;> cases e.getLsbD 2 <;> simp [fdTestBit_fdSetBit]

/-- **The scan of `select`** finds the descriptors that answer, and counts them. -/
theorem selectScan_spec (env : Env) (k : ℕ) (rset wset : FdSet) (nfds : ℕ) :
    (∀ fd, fdTestBit (selectScan env k rset wset nfds).rset fd =
      (decide (fd < nfds) && (reventsOf env k rset wset fd).getLsbD 0)) ∧
    (∀ fd, fdTestBit (selectScan env k rset wset nfds).wset fd =
      (decide (fd < nfds) && (reventsOf env k rset wset fd).getLsbD 2)) ∧
    (selectScan env k rset wset nfds).count =
      (List.range nfds).countP (fdTestBit (selectScan env k rset wset nfds).rset) +
      (List.range nfds).countP (fdTestBit (selectScan env k rset wset nfds).wset) := by
  induction nfds with
  | zero => simp [selectScan, fdTestBit]
  | succ nfds ih =>
    have hstep : selectScan env k rset wset (nfds + 1) =
        (selectScan env k rset wset nfds).add nfds (reventsOf env k rset wset nfds) := by
      unfold selectScan
      rw [List.range_succ, List.foldl_append]
      rfl
    obtain ⟨hr, hw, hc⟩ := ih
    obtain ⟨hr', hw', hc'⟩ := (selectScan env k rset wset nfds).add_spec
      (reventsOf env k rset wset nfds) (j := nfds)
    obtain ⟨hr, hrc⟩ := fdTestBit_succ hr hr'
    obtain ⟨hw, hwc⟩ := fdTestBit_succ hw hw'
    rw [hstep]
    exact ⟨hr, hw, by omega⟩

/-- Who asks for one bit asks for it in its set. -/
theorem asked_of_reventsOf :
    ((reventsOf env k rset wset fd).getLsbD 0 = true → fdTestBit rset fd = true) ∧
    ((reventsOf env k rset wset fd).getLsbD 2 = true → fdTestBit wset fd = true) := by
  have hask : ∀ i, i = 0 ∨ i = 2 → (reventsOf env k rset wset fd).getLsbD i = true →
      (eventsOf rset wset fd).getLsbD i = true := by
    intro i hi h
    unfold reventsOf at h
    split at h
    · simp at h
    · exact env.asked _ _ _ _ hi h
  refine ⟨fun h => ?_, fun h => ?_⟩
  · have := hask 0 (.inl rfl) h
    revert this
    unfold eventsOf
    cases fdTestBit rset fd <;> cases fdTestBit wset fd <;> simp
  · have := hask 2 (.inr rfl) h
    revert this
    unfold eventsOf
    cases fdTestBit rset fd <;> cases fdTestBit wset fd <;> simp

/-- A system in which every descriptor has the events of `answer`, and where the clock goes on by 10
milliseconds with every other look at it. -/
def steady (answer : BitVec 16) : Env where
  pollFd _ _ events := events &&& answer
  asked _ _ _ _ _ h := by
    rw [BitVec.getLsbD_and, Bool.and_eq_true] at h
    exact h.1
  ticks i := 10 * (i / 2)
  mono i := by omega
  hz := 1000

/-! ## Reports -/

/-- In the round in which `poll` returns, the caller's array is what the scan found. -/
def PollReports (env : Env) (fds : List PollFd) (timeout : ℕ) : Prop :=
  ∀ k ret mem, sysPoll env fds timeout k = none → sysPoll env fds timeout (k + 1) = some (ret, mem) →
    mem = fds.map (pollOne env k) ∧ ret = mem.countP fun p => p.revents ≠ 0

/-- In the round in which `select` returns, the caller's sets are what the scan found. -/
def SelectReports (env : Env) (nfds : ℕ) (readfds writefds : Option FdSet)
    (timeout : Option (ℕ × ℕ)) : Prop :=
  ∀ k ret rmem wmem, sysSelect env nfds readfds writefds timeout k = none →
    sysSelect env nfds readfds writefds timeout (k + 1) = some (ret, rmem, wmem) →
    (∀ fd, fdTestBit (copyOf rmem) fd = true ↔ fd < nfds ∧ fdTestBit (copyOf readfds) fd = true ∧
      (reventsOf env k (copyOf readfds) (copyOf writefds) fd).getLsbD 0 = true) ∧
    (∀ fd, fdTestBit (copyOf wmem) fd = true ↔ fd < nfds ∧ fdTestBit (copyOf writefds) fd = true ∧
      (reventsOf env k (copyOf readfds) (copyOf writefds) fd).getLsbD 2 = true) ∧
    ret = (List.range nfds).countP (fdTestBit (copyOf rmem)) +
      (List.range nfds).countP (fdTestBit (copyOf wmem))

/-- Some entry has an answer in round `j`. -/
def PollReady (env : Env) (fds : List PollFd) (j : ℕ) : Prop :=
  ∃ p ∈ fds, 0 ≤ p.fd ∧ env.pollFd j p.fd p.events ≠ 0

/-- Some descriptor below `nfds` is readable or writable, as asked, in round `j`. -/
def SelectReady (env : Env) (nfds : ℕ) (rset wset : FdSet) (j : ℕ) : Prop :=
  ∃ fd < nfds, (reventsOf env j rset wset fd).getLsbD 0 = true ∨
    (reventsOf env j rset wset fd).getLsbD 2 = true

/-- The round in which a loop ends: something is ready, or the time is over for the first time. -/
theorem rounds_end_iff : (rounds found expired nothing k 0 = none ∧
      rounds found expired nothing (k + 1) 0 = some r) ↔
    (∀ j < k, found j = none ∧ expired j = false) ∧
      (found k = some r ∨ found k = none ∧ expired k = true ∧ nothing = r) := by
  have hbefore : rounds found expired nothing k 0 = none ↔
      ∀ j < k, found j = none ∧ expired j = false := by
    simp [rounds_eq_none_iff]
  rw [← hbefore]
  refine and_congr_right fun h => ?_
  rw [rounds_succ h, Nat.zero_add]
  cases found k <;> cases expired k <;> simp

/-- A loop whose results are right when it finds something is right in every round exactly if what it
gives up with is right, or it never gives up. -/
theorem rounds_report_iff (nothing : α) (Right : ℕ → α → Prop) {Fine : Prop}
    (hfound : ∀ k r, found k = some r → Right k r)
    (hnothing : ∀ k, found k = none → (Right k nothing ↔ Fine)) :
    (∀ k r, rounds found expired nothing k 0 = none →
      rounds found expired nothing (k + 1) 0 = some r → Right k r) ↔
    Fine ∨ ∀ k, expired k = true → ∃ j ≤ k, found j ≠ none := by
  constructor
  · intro h
    by_contra hno
    push Not at hno
    obtain ⟨hfine, hk⟩ := hno
    classical
    -- the first round in which the time is over is the last one
    have hlast := Nat.find_spec hk
    have hfirst : ∀ j < Nat.find hk, found j = none ∧ expired j = false := by
      intro j hj
      refine ⟨hlast.2 j hj.le, ?_⟩
      by_contra he
      exact Nat.find_min hk hj ⟨by simpa using he, fun i hi => hlast.2 i (by omega)⟩
    have hnone := hlast.2 _ le_rfl
    obtain ⟨h1, h2⟩ := rounds_end_iff.2 ⟨hfirst, .inr ⟨hnone, hlast.1, rfl⟩⟩
    exact hfine ((hnothing _ hnone).1 (h _ _ h1 h2))
  · intro h k r h1 h2
    obtain ⟨hbefore, hf | ⟨hf, he, rfl⟩⟩ := rounds_end_iff.1 ⟨h1, h2⟩
    · exact hfound k r hf
    refine (hnothing k hf).2 (h.resolve_right fun h => ?_)
    obtain ⟨j, hj, hfj⟩ := h k he
    obtain rfl | hj := Nat.eq_or_lt_of_le hj
    exacts [hfj hf, hfj (hbefore j hj).1]

theorem pollFound_eq_none_iff : pollFound env fds k = none ↔ ¬ PollReady env fds k := by
  have hpos : 0 < (pollScan env k fds).2 ↔ PollReady env fds k := by
    rw [pollScan_eq, List.countP_pos_iff]
    simp only [List.mem_map, exists_exists_and_eq_and, pollOne, decide_eq_true_eq, PollReady]
    refine exists_congr fun p => and_congr_right fun _ => ?_
    split <;> simp <;> omega
  simp [pollFound, ← hpos]

/-- The bits of a set that is copied back if the caller gave one. -/
theorem fdTestBit_copyOf_map {set : Option FdSet} (h : set = none → fdTestBit rset fd = false) :
    fdTestBit (copyOf (set.map fun _ => rset)) fd = fdTestBit rset fd := by
  cases set with
  | none => simp [copyOf, fdTestBit, ← h rfl]
  | some => rfl

theorem selectFound_eq_none_iff : selectFound env nfds readfds writefds k = none ↔
    ¬ SelectReady env nfds (copyOf readfds) (copyOf writefds) k := by
  have hpos : 0 < (selectScan env k (copyOf readfds) (copyOf writefds) nfds).count ↔
      SelectReady env nfds (copyOf readfds) (copyOf writefds) k := by
    obtain ⟨hr, hw, hc⟩ := selectScan_spec env k (copyOf readfds) (copyOf writefds) nfds
    rw [hc, Nat.add_pos_iff_pos_or_pos, List.countP_pos_iff, List.countP_pos_iff]
    simp only [hr, hw, List.mem_range, Bool.and_eq_true, decide_eq_true_eq, SelectReady]
    constructor
    · rintro (⟨fd, h, -, h'⟩ | ⟨fd, h, -, h'⟩)
      exacts [⟨fd, h, .inl h'⟩, ⟨fd, h, .inr h'⟩]
    · rintro ⟨fd, h, h' | h'⟩
      exacts [.inl ⟨fd, h, h, h'⟩, .inr ⟨fd, h, h, h'⟩]
  simp [selectFound, ← hpos]

theorem pollReports_iff (h0 : 0 < fds.length) (h256 : fds.length ≤ 256) :
    PollReports env fds timeout ↔ (∀ p ∈ fds, p.revents = 0) ∨
      ∀ k, pollExpired env timeout k = true → ∃ j ≤ k, PollReady env fds j := by
  have hrun : ∀ fuel, sysPoll env fds timeout fuel =
      rounds (pollFound env fds) (pollExpired env timeout) (0, fds) fuel 0 := fun fuel =>
    if_neg (by omega)
  have hready : ∀ j, PollReady env fds j ↔ pollFound env fds j ≠ none := fun j => by
    rw [Ne, pollFound_eq_none_iff, not_not]
  unfold PollReports
  simp only [hrun, hready]
  refine Iff.trans ?_ (rounds_report_iff (0, fds) (fun k r =>
    r.2 = fds.map (pollOne env k) ∧ r.1 = r.2.countP fun p => p.revents ≠ 0) ?_ ?_)
  · simp only [Prod.forall]
  · intro k r h
    unfold pollFound at h
    simp only [pollScan_eq] at h
    split at h <;> cases h
    exact ⟨rfl, rfl⟩
  · intro k h
    -- a round that finds nothing would report zeros
    have hzero : ∀ p ∈ fds, (pollOne env k p).revents = 0 := by
      intro p hp
      by_contra hne
      refine pollFound_eq_none_iff.1 h ⟨p, hp, ?_⟩
      unfold pollOne at hne
      split at hne
      · exact absurd rfl hne
      · exact ⟨by omega, hne⟩
    constructor
    · rintro ⟨hmem, -⟩ p hp
      have hself := List.map_eq_map_iff.1 ((List.map_id fds).trans hmem) p hp
      rw [show p = pollOne env k p from hself]
      exact hzero p hp
    · intro hfds
      have hself : ∀ p ∈ fds, p = pollOne env k p := fun p hp => by
        rw [pollOne, show (if p.fd < 0 then 0 else env.pollFd k p.fd p.events) = p.revents from
          (hzero p hp).trans (hfds p hp).symm]
      refine ⟨(List.map_id fds).symm.trans (List.map_congr_left hself),
        (List.countP_eq_zero.2 fun p hp => ?_).symm⟩
      simp [hfds p hp]

theorem selectReports_iff (h0 : 0 < nfds) (h256 : nfds ≤ 256) :
    SelectReports env nfds readfds writefds tv ↔
      (∀ fd, fdTestBit (copyOf readfds) fd = false ∧ fdTestBit (copyOf writefds) fd = false) ∨
      ∀ k, selectExpired env tv k = true →
        ∃ j ≤ k, SelectReady env nfds (copyOf readfds) (copyOf writefds) j := by
  have hrun : ∀ fuel, sysSelect env nfds readfds writefds tv fuel =
      rounds (selectFound env nfds readfds writefds) (selectExpired env tv) (0, readfds, writefds)
        fuel 0 := fun fuel => if_neg (by omega)
  have hready : ∀ j, SelectReady env nfds (copyOf readfds) (copyOf writefds) j ↔
      selectFound env nfds readfds writefds j ≠ none := fun j => by
    rw [Ne, selectFound_eq_none_iff, not_not]
  have hnone : ∀ {set : Option FdSet} {fd}, set = none → fdTestBit (copyOf set) fd ≠ true := by
    rintro _ fd rfl
    simp [copyOf, fdTestBit]
  unfold SelectReports
  simp only [hrun, hready]
  refine Iff.trans ?_ (rounds_report_iff (0, readfds, writefds) (fun k r =>
    (∀ fd, fdTestBit (copyOf r.2.1) fd = true ↔ fd < nfds ∧ fdTestBit (copyOf readfds) fd = true ∧
      (reventsOf env k (copyOf readfds) (copyOf writefds) fd).getLsbD 0 = true) ∧
    (∀ fd, fdTestBit (copyOf r.2.2) fd = true ↔ fd < nfds ∧ fdTestBit (copyOf writefds) fd = true ∧
      (reventsOf env k (copyOf readfds) (copyOf writefds) fd).getLsbD 2 = true) ∧
    r.1 = (List.range nfds).countP (fdTestBit (copyOf r.2.1)) +
      (List.range nfds).countP (fdTestBit (copyOf r.2.2))) ?_ ?_)
  · simp only [Prod.forall]
  · intro k r h
    unfold selectFound at h
    simp only at h
    split at h <;> cases h
    obtain ⟨hr, hw, hc⟩ := selectScan_spec env k (copyOf readfds) (copyOf writefds) nfds
    -- a set that is missing asks for nothing, so nothing is found for it
    have hr' : ∀ fd, fdTestBit (copyOf (readfds.map fun _ =>
        (selectScan env k (copyOf readfds) (copyOf writefds) nfds).rset)) fd =
        fdTestBit (selectScan env k (copyOf readfds) (copyOf writefds) nfds).rset fd := fun fd =>
      fdTestBit_copyOf_map fun hset => by
        rw [hr, Bool.and_eq_false_iff]
        exact .inr (by_contra fun h => hnone hset (asked_of_reventsOf.1 (by simpa using h)))
    have hw' : ∀ fd, fdTestBit (copyOf (writefds.map fun _ =>
        (selectScan env k (copyOf readfds) (copyOf writefds) nfds).wset)) fd =
        fdTestBit (selectScan env k (copyOf readfds) (copyOf writefds) nfds).wset fd := fun fd =>
      fdTestBit_copyOf_map fun hset => by
        rw [hw, Bool.and_eq_false_iff]
        exact .inr (by_contra fun h => hnone hset (asked_of_reventsOf.2 (by simpa using h)))
    refine ⟨fun fd => ?_, fun fd => ?_, ?_⟩
    · rw [hr', hr, Bool.and_eq_true, decide_eq_true_eq]
      exact and_congr_right fun _ => (and_iff_right_of_imp asked_of_reventsOf.1).symm
    · rw [hw', hw, Bool.and_eq_true, decide_eq_true_eq]
      exact and_congr_right fun _ => (and_iff_right_of_imp asked_of_reventsOf.2).symm
    · rw [funext hr', funext hw']
      exact hc
  · intro k h
    have hquiet := selectFound_eq_none_iff.1 h
    have hno : ∀ fd, fd < nfds →
        (reventsOf env k (copyOf readfds) (copyOf writefds) fd).getLsbD 0 ≠ true ∧
        (reventsOf env k (copyOf readfds) (copyOf writefds) fd).getLsbD 2 ≠ true := fun fd hfd =>
      ⟨fun hbit => hquiet ⟨fd, hfd, .inl hbit⟩, fun hbit => hquiet ⟨fd, hfd, .inr hbit⟩⟩
    constructor
    · rintro ⟨hr, hw, -⟩ fd
      exact ⟨Bool.eq_false_iff.2 fun hbit => (hno fd ((hr fd).1 hbit).1).1 ((hr fd).1 hbit).2.2,
        Bool.eq_false_iff.2 fun hbit => (hno fd ((hw fd).1 hbit).1).2 ((hw fd).1 hbit).2.2⟩
    · intro hempty
      refine ⟨fun fd => by simp [(hempty fd).1], fun fd => by simp [(hempty fd).2], ?_⟩
      simp [List.countP_eq_zero.2, hempty]

/-- **What is reported.**  Each call leaves in the caller's memory exactly what its last round found
if and only if there was nothing to clear in that memory, or some round finds something ready no
later than the first one in which the time is over. -/
theorem reports_iff (env : Env) :
    (∀ fds timeout, 0 < fds.length → fds.length ≤ 256 → (PollReports env fds timeout ↔
      (∀ p ∈ fds, p.revents = 0) ∨
        ∀ k, pollExpired env timeout k = true → ∃ j ≤ k, PollReady env fds j)) ∧
    ∀ nfds readfds writefds tv, 0 < nfds → nfds ≤ 256 →
      (SelectReports env nfds readfds writefds tv ↔
        (∀ fd, fdTestBit (copyOf readfds) fd = false ∧ fdTestBit (copyOf writefds) fd = false) ∨
        ∀ k, selectExpired env tv k = true →
          ∃ j ≤ k, SelectReady env nfds (copyOf readfds) (copyOf writefds) j) :=
  ⟨fun _ _ => pollReports_iff, fun _ _ _ _ => selectReports_iff⟩

/-- `poll` for two descriptors, one of them asked whether it is readable, and `select` for
descriptor 3. -/
theorem readable_reported : PollReports (steady 1) [⟨3, 1, 7⟩, ⟨4, 4, 7⟩] 0 ∧
    SelectReports (steady 1) 4 (some fun _ => 8) none (some (0, 0)) := by
  refine ⟨((reports_iff (steady 1)).1 _ _ (by decide) (by decide)).2 (.inr fun k _ => ?_),
    ((reports_iff (steady 1)).2 _ _ _ _ (by decide) (by decide)).2 (.inr fun k _ => ?_)⟩
  · exact ⟨0, Nat.zero_le k, ⟨3, 1, 7⟩, by decide, by decide, by decide⟩
  · exact ⟨0, Nat.zero_le k, 3, by decide, .inl (by decide)⟩

/-- The returns of 0 copy nothing back: what stood in `revents` stays, and so does descriptor 3 in
the read set, although neither call found anything ready. -/
theorem nothing_ready_not_reported : sysPoll (steady 0) [⟨3, 1, 7⟩] 0 1 = some (0, [⟨3, 1, 7⟩]) ∧
    sysSelect (steady 0) 4 (some fun _ => 8) none (some (0, 0)) 1 = some (0, some fun _ => 8, none) ∧
    fdTestBit (fun _ => 8) 3 = true ∧ (pollOne (steady 0) 0 ⟨3, 1, 7⟩).revents = 0 :=
  ⟨by decide, rfl, by decide, by decide⟩

/-! ## Timeouts -/

/-- No descriptor ever becomes ready. -/
def Env.Quiet (env : Env) : Prop := ∀ k fd events, env.pollFd k fd events = 0

/-- Called at the tick `start`, `poll` returns 0 with the first look at the clock at which the timeout
has passed, whatever the clock does; with a negative timeout it does not return 0. -/
def PollKept (fds : List PollFd) (timeout hz start : ℕ) : Prop :=
  ∀ env : Env, env.Quiet → env.hz = hz → env.ticks 0 = start → ∀ fuel,
    sysPoll env fds timeout (fuel + 1) = some (0, fds) ↔
      timeout < 2 ^ 63 ∧ ∃ k ≤ fuel, 1000 * start + timeout * hz ≤ 1000 * env.ticks (k + 1)

/-- `select` returns 0 with the first look at the clock at which the timeout has passed, whatever the
clock does; without a timeout it does not return 0. -/
def SelectKept (nfds : ℕ) (readfds writefds : Option FdSet) (timeout : Option (ℕ × ℕ)) (hz : ℕ) :
    Prop :=
  ∀ env : Env, env.Quiet → env.hz = hz → ∀ fuel,
    sysSelect env nfds readfds writefds timeout (fuel + 1) = some (0, readfds, writefds) ↔
      ∃ sec usec, timeout = some (sec, usec) ∧ ∃ k ≤ fuel,
        1000000 * env.ticks 0 + (1000000 * sec + usec) * hz ≤ 1000000 * env.ticks (2 * k + 1)

section Quiet

variable (hquiet : env.Quiet)
include hquiet

/-- While nothing is ready, `poll` is about the clock. -/
theorem sysPoll_quiet : sysPoll env fds timeout fuel = some (0, fds) ↔
    (fds.length = 0 ∨ 256 < fds.length) ∨ ∃ k < fuel, pollExpired env timeout k = true := by
  have hnone : pollFound env fds = fun _ => none := funext fun k =>
    pollFound_eq_none_iff.2 fun ⟨p, _, _, hp⟩ => hp (hquiet k p.fd p.events)
  unfold sysPoll
  split
  · next h => exact iff_of_true rfl (.inl h)
  · next h =>
    rw [or_iff_right h, hnone, rounds_quiet]
    simp

/-- While nothing is ready, `select` is about the clock. -/
theorem sysSelect_quiet :
    sysSelect env nfds readfds writefds tv fuel = some (0, readfds, writefds) ↔
      (nfds = 0 ∨ 256 < nfds) ∨ ∃ k < fuel, selectExpired env tv k = true := by
  have hnone : selectFound env nfds readfds writefds = fun _ => none := funext fun k =>
    selectFound_eq_none_iff.2 fun ⟨fd, _, hfd⟩ => by simp [reventsOf, hquiet k] at hfd
  unfold sysSelect
  split
  · next h => exact iff_of_true rfl (.inl h)
  · next h =>
    rw [or_iff_right h, hnone, rounds_quiet]
    simp

end Quiet

/-- A quiet system whose clock shows `t` in the looks up to number `a`, and `t'` after them. -/
def jump (hz a t t' : ℕ) (h : t ≤ t') : Env where
  pollFd _ _ _ := 0
  asked _ _ _ _ _ h := by simp at h
  ticks i := if i ≤ a then t else t'
  mono i := by
    split <;> split <;> omega
  hz := hz

/-- `poll` keeps its timeout if it does so for every value that its look at the clock may have. -/
theorem pollKept_iff_looks : PollKept fds timeout hz start ↔ ∀ t, start ≤ t →
    ((fds.length = 0 ∨ 256 < fds.length) ∨ timeout = 0 ∨
        (start + timeout * hz % 2 ^ 64 / 1000) % 2 ^ 64 ≤ t ↔
      timeout < 2 ^ 63 ∧ 1000 * start + timeout * hz ≤ 1000 * t) := by
  constructor
  · intro h t ht
    have hone := h (jump hz 0 start t ht) (fun _ _ _ => rfl) rfl rfl 0
    rw [sysPoll_quiet fun _ _ _ => rfl] at hone
    simpa [pollExpired, deadline, jump] using hone
  · rintro h env hquiet rfl rfl fuel
    have hmono : ∀ k, env.ticks 0 ≤ env.ticks (k + 1) := fun k =>
      monotone_nat_of_le_succ env.mono (Nat.zero_le _)
    have hlook : ∀ k, pollExpired env timeout k = true ↔ timeout = 0 ∨
        (env.ticks 0 + timeout * env.hz % 2 ^ 64 / 1000) % 2 ^ 64 ≤ env.ticks (k + 1) := fun k => by
      rw [pollExpired, Bool.or_eq_true, decide_eq_true_eq, decide_eq_true_eq, deadline]
    rw [sysPoll_quiet hquiet]
    constructor
    · rintro (hout | ⟨k, hk, he⟩)
      · obtain ⟨hneg, hend⟩ := (h _ (hmono 0)).1 (.inl hout)
        exact ⟨hneg, 0, Nat.zero_le _, hend⟩
      · obtain ⟨hneg, hend⟩ := (h _ (hmono k)).1 (.inr ((hlook k).1 he))
        exact ⟨hneg, k, by omega, hend⟩
    · rintro ⟨hneg, k, hk, hend⟩
      rcases (h _ (hmono k)).2 ⟨hneg, hend⟩ with hout | he
      · exact .inl hout
      · exact .inr ⟨k, by omega, (hlook k).2 he⟩

/-- **Timeouts of `poll`.**  They are kept exactly if the deadline is a whole number of ticks and is
computed without wrapping. -/
theorem pollKept_iff (hhz : 0 < hz) : PollKept fds timeout hz start ↔ timeout < 2 ^ 63 ∧
    (timeout = 0 ∨ 0 < fds.length ∧ fds.length ≤ 256 ∧ timeout * hz < 2 ^ 64 ∧
      1000 ∣ timeout * hz ∧ start + timeout * hz / 1000 < 2 ^ 64) := by
  rw [pollKept_iff_looks]
  have hpos : timeout = 0 ∨ 0 < timeout * hz := by
    obtain h | h := Nat.eq_zero_or_pos timeout
    exacts [.inl h, .inr (Nat.mul_pos h hhz)]
  have hzero : timeout = 0 → timeout * hz = 0 := fun h => by rw [h, Nat.zero_mul]
  generalize timeout * hz = m at hpos hzero ⊢
  have hmod : m % 2 ^ 64 ≤ m := Nat.mod_le _ _
  constructor
  · intro h
    -- a clock that reaches the computed deadline, and one that stands still
    have hreach := h (max start ((start + m % 2 ^ 64 / 1000) % 2 ^ 64)) (le_max_left _ _)
    have hstill := h start le_rfl
    obtain ⟨hneg, hend⟩ := hreach.1 (.inr (.inr (le_max_right _ _)))
    refine ⟨hneg, ?_⟩
    rcases hpos with h0 | hpos
    · exact .inl h0
    have hin : ¬ (fds.length = 0 ∨ 256 < fds.length) := fun hout => by
      have := (hstill.1 (.inl hout)).2
      omega
    have hle : (start + m % 2 ^ 64 / 1000) % 2 ^ 64 ≤ start + m % 2 ^ 64 / 1000 := Nat.mod_le _ _
    refine .inr ⟨by omega, by omega, ?_⟩
    rcases max_cases start ((start + m % 2 ^ 64 / 1000) % 2 ^ 64) with ⟨hm, -⟩ | ⟨hm, -⟩
    · rw [hm] at hend
      omega
    · rw [hm] at hend
      omega
  · rintro ⟨hneg, h0 | ⟨h0, h256, hwrap, hdvd, hend⟩⟩ t ht
    · have := hzero h0
      exact iff_of_true (.inr (.inl h0)) ⟨hneg, by omega⟩
    · rw [Nat.mod_eq_of_lt hwrap, Nat.mod_eq_of_lt hend]
      omega

theorem selectExpired_iff : selectExpired env tv k = true ↔ timeoutMs tv = 0 ∨ 0 < timeoutMs tv ∧
    deadline env (env.ticks (2 * k)) (timeoutMs tv).toNat ≤ env.ticks (2 * k + 1) := by
  simp [selectExpired]

/-- No timeout `m` that has not passed at once is kept by `select`, as four clocks show. -/
theorem select_not_kept (tv : Option (ℕ × ℕ)) {m : ℕ} {out : Prop} (hpos : 0 < m) (h : ∀ a t fuel,
    out ∨ (∃ k < fuel + 1, selectExpired (jump hz a 0 t (Nat.zero_le t)) tv k = true) ↔
      ∃ k ≤ fuel, m ≤ 1000000 * if 2 * k + 1 ≤ a then 0 else t) : False := by
  -- the clock stands still
  have hstill : ¬ (out ∨ ∃ k < 0 + 1, selectExpired (jump hz 0 0 0 le_rfl) tv k = true) := by
    intro hret
    obtain ⟨k, -, hend⟩ := (h 0 0 0).1 hret
    simp at hend
    omega
  obtain ⟨hin, hwait⟩ := not_or.1 hstill
  simp only [selectExpired_iff, deadline, jump, or_iff_right hin] at h hwait
  generalize hq : (timeoutMs tv).toNat * hz % 2 ^ 64 / 1000 = q at h hwait
  have hq64 : q < 2 ^ 63 := by omega
  have hms : timeoutMs tv ≠ 0 := fun h0 => hwait ⟨0, by omega, .inl h0⟩
  rcases lt_or_gt_of_ne hms with hneg | hms'
  · -- a negative number of milliseconds is no timeout
    obtain ⟨k, -, h0 | ⟨h0, -⟩⟩ := (h 0 m 0).2 ⟨0, le_rfl, by simp; omega⟩
    all_goals omega
  have hq0 : 0 < q := by
    by_contra h0
    refine hwait ⟨0, by omega, .inr ⟨hms', ?_⟩⟩
    simp
    omega
  -- the clock reaches the deadline within the first round
  have hend : m ≤ 1000000 * q := by
    obtain ⟨k, hk, hend⟩ := (h 0 q 0).1 ⟨0, by omega, .inr ⟨hms', by simp; omega⟩⟩
    simpa using hend
  -- the clock reaches it between two rounds
  obtain ⟨k, hk, h0 | ⟨-, hdead⟩⟩ := (h 1 q 1).2 ⟨1, le_rfl, by simpa using hend⟩
  · exact hms h0
  · obtain rfl | rfl : k = 0 ∨ k = 1 := by omega
    all_goals simp at hdead; omega

/-- **Timeouts of `select`.**  Only an empty one and none at all are kept. -/
theorem selectKept_iff (hhz : 0 < hz) : SelectKept nfds readfds writefds tv hz ↔
    tv = none ∧ 0 < nfds ∧ nfds ≤ 256 ∨ tv = some (0, 0) := by
  constructor
  · intro h
    have hkept : ∀ a t fuel, (nfds = 0 ∨ 256 < nfds) ∨ (∃ k < fuel + 1,
        selectExpired (jump hz a 0 t (Nat.zero_le t)) tv k = true) ↔
        ∃ sec usec, tv = some (sec, usec) ∧ ∃ k ≤ fuel,
          (1000000 * sec + usec) * hz ≤ 1000000 * if 2 * k + 1 ≤ a then 0 else t := fun a t fuel => by
      rw [← sysSelect_quiet fun _ _ _ => rfl, h (jump hz a 0 t _) (fun _ _ _ => rfl) rfl fuel]
      simp [jump]
    rcases tv with _ | ⟨sec, usec⟩
    · have hin : ¬ (nfds = 0 ∨ 256 < nfds) := fun hout => by
        obtain ⟨_, _, ⟨⟩, _⟩ := (hkept 0 0 0).1 (.inl hout)
      exact .inl ⟨rfl, by omega, by omega⟩
    · refine .inr (by_contra fun hne => ?_)
      have hpos : 0 < (1000000 * sec + usec) * hz := by
        refine Nat.mul_pos (Nat.pos_of_ne_zero fun h0 => hne ?_) hhz
        rw [show sec = 0 by omega, show usec = 0 by omega]
      refine select_not_kept (some (sec, usec)) hpos fun a t fuel => (hkept a t fuel).trans ?_
      simp [and_assoc]
  · rintro (⟨rfl, h0, h256⟩ | rfl) env hquiet rfl fuel
    · rw [sysSelect_quiet hquiet]
      refine iff_of_false ?_ (by simp)
      simp [selectExpired, timeoutMs]
      omega
    · rw [sysSelect_quiet hquiet]
      refine iff_of_true (.inr ⟨0, by omega, by simp [selectExpired, timeoutMs]⟩)
        ⟨0, 0, rfl, 0, Nat.zero_le _, ?_⟩
      have hfirst := env.mono 0
      simp only [Nat.mul_zero, Nat.zero_mul, Nat.add_zero, Nat.zero_add] at hfirst ⊢
      omega

/-- **Timeouts that are kept**, while nothing is ready. -/
theorem timeouts_kept_iff (hz : ℕ) (hhz : 0 < hz) :
    (∀ fds timeout start, PollKept fds timeout hz start ↔ timeout < 2 ^ 63 ∧
      (timeout = 0 ∨ 0 < fds.length ∧ fds.length ≤ 256 ∧ timeout * hz < 2 ^ 64 ∧
        1000 ∣ timeout * hz ∧ start + timeout * hz / 1000 < 2 ^ 64)) ∧
    ∀ nfds readfds writefds tv, SelectKept nfds readfds writefds tv hz ↔
      tv = none ∧ 0 < nfds ∧ nfds ≤ 256 ∨ tv = some (0, 0) :=
  ⟨fun _ _ _ => pollKept_iff hhz, fun _ _ _ _ => selectKept_iff hhz⟩

/-- `poll` for 25 milliseconds, and `select` without a timeout. -/
theorem poll_timeout_kept : PollKept [⟨3, 1, 7⟩] 25 1000 0 ∧
    SelectKept 4 (some fun _ => 8) none none 1000 :=
  ⟨((timeouts_kept_iff 1000 (by decide)).1 _ _ _).2 (by decide),
    ((timeouts_kept_iff 1000 (by decide)).2 _ _ _ _).2 (.inl ⟨rfl, by decide, by decide⟩)⟩

/-- A `select` for half a second has not returned after 2 ^ 60 rounds, while the half second is over
after 50 of them. -/
theorem select_timeout_not_kept : (steady 0).hz = 1000 ∧ (steady 0).ticks (2 * 50) = 500 ∧
    ∀ fuel ≤ 2 ^ 60, sysSelect (steady 0) 4 (some fun _ => 8) none (some (0, 500000)) fuel = none := by
  refine ⟨rfl, rfl, fun fuel hfuel => ?_⟩
  have hnone : selectFound (steady 0) 4 (some fun _ => 8) none = fun _ => none := funext fun k =>
    selectFound_eq_none_iff.2 fun ⟨fd, _, hfd⟩ => by simp [reventsOf, steady] at hfd
  rw [sysSelect, if_neg (by omega), hnone, rounds_eq_none_iff]
  refine fun k _ hk => ⟨rfl, ?_⟩
  have hms : timeoutMs (some (0, 500000)) = 500 := by decide
  have hdiv : 2 * k / 2 = k ∧ (2 * k + 1) / 2 = k := by omega
  simp [selectExpired, deadline, steady, hms]
  omega

end Xos.Select
