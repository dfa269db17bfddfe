import Xos.Ipc.Port
import Xos.Lib.Count
import Xos.Sched.Channels

/-!
# Blocking on ports

`port_send`, `port_recv` and `port_close` over the scheduler.  The sections under `ipc_lock` are
those of `Xos.Ipc.Port`; between them a thread sleeps on the port's wait channel, or is about to
wake one.  `port_recv` keeps `ipc_lock` from the count of its waiter to `sched_block_on`, which
releases it.

A handle is used again after `port_close`.  The model counts the times it has been opened:
`incarnation h`; each message carries the incarnation it was sent to, and each `port_recv` the one
it started on.

* **No wake-up is lost and no incarnations are mixed** where a port is closed only while no thread
  is in a `port_recv` on it — `ports_wake_and_separate`.
* Without that, a receiver of the closed port takes a message of the next one —
  `received_from_next_port`.
-/

namespace Xos.Ipc.Blocking

open Xos.Lib Xos.Sched Function

variable {n : ℕ} {M : Type*}

/-! ## The model -/

/-- Where a thread is in the port calls. -/
inductive Pc where
  /-- In none of them. -/
  | user
  /-- `port_send` has stored its message and is about to wake the receivers of `h`. -/
  | sendWake (h : ℕ)
  /-- `port_recv(h, out, block)`, about to take `ipc_lock` for a pass of its loop.  It started on
  the incarnation `start`, if the port was open. -/
  | recv (h : ℕ) (block : Bool) (start : Option ℕ)
  /-- It has counted itself as a waiter, and holds the lock. -/
  | recvWait (h : ℕ) (block : Bool) (start : Option ℕ)
  /-- It is in `sched_block_on`, or back from it. -/
  | recvSlept (h : ℕ) (block : Bool) (start : Option ℕ)
  /-- It has a message and is about to wake the senders of `h`. -/
  | recvWake (h : ℕ)
  /-- `port_close` has cleared the port and is about to wake the channels of `h`. -/
  | closeWake (h : ℕ) (rq sq : Bool)
  deriving DecidableEq

/-- A message that was received: the incarnation that the call started on, and the message with
the one it was sent to. -/
structure Received (M : Type*) where
  start : Option ℕ
  msg : ℕ × M

/-- The machine, the ports, and where each thread is.  `recvq h` and `sendq h` are the addresses of
the two wait channels of port `h`; `log` lists the messages received. -/
structure State (n : ℕ) (M : Type*) where
  mach : Machine n
  ports : Ports (ℕ × M)
  incarnation : ℕ → ℕ
  ipcLock : Option ProcId
  pc : ProcId → Pc
  recvq : ℕ → ℕ
  sendq : ℕ → ℕ
  log : List (Received M)

/-- Thread `p` goes on to `k`. -/
def State.goto (s : State n M) (p : ProcId) (k : Pc) : State n M :=
  { s with pc := update s.pc p k }

/-- The incarnation of `h` that a call starts on. -/
def State.start (s : State n M) (h : ℕ) : Option ℕ :=
  if (s.ports h).used then some (s.incarnation h) else none

/-- `port_create`. -/
def create (s : State n M) (ownerPid : ℕ) : State n M :=
  let r := portCreate s.ports ownerPid
  { s with
    ports := r.1
    incarnation := if r.2 = 0 then s.incarnation
      else update s.incarnation r.2 (s.incarnation r.2 + 1) }

/-- The locked section of `port_send`. -/
def send (s : State n M) (p : ProcId) (h : ℕ) (msg : M) : State n M :=
  let r := portSend s.ports h (s.incarnation h, msg)
  { s with ports := r.1 }.goto p (if r.2.2 then .sendWake h else .user)

/-- One pass of the loop of `port_recv`. -/
def recvPass (s : State n M) (p : ProcId) (h : ℕ) (block : Bool) (start : Option ℕ) :
    State n M :=
  match portRecvTry s.ports h block with
  | (ports, .fail) => { s with ports := ports }.goto p .user
  | (ports, .got d wake) =>
    { s with ports := ports, log := s.log ++ [Received.mk start d] }.goto p
      (if wake then .recvWake h else .user)
  | (ports, .wait) =>
    { s with ports := ports, ipcLock := some p }.goto p (.recvWait h block start)

/-- The locked section of `port_close`; `zero` is the all-zero message. -/
def close (zero : M) (s : State n M) (p : ProcId) (h : ℕ) : State n M :=
  let r := portClose (0, zero) s.ports h
  { s with ports := r.1 }.goto p
    (if r.2.1 || r.2.2 then .closeWake h r.2.1 r.2.2 else .user)

/-- One step of thread `p` on CPU `c`, or of the scheduler. -/
inductive Label (n : ℕ) (M : Type*) where
  | sched (l : Sched.Label n)
  | create (c : Fin n) (p : ProcId) (ownerPid : ℕ)
  | send (c : Fin n) (p : ProcId) (h : ℕ) (msg : M)
  | sendWake (c : Fin n) (p : ProcId)
  | recv (c : Fin n) (p : ProcId) (h : ℕ) (block : Bool)
  | recvPass (c : Fin n) (p : ProcId)
  | recvBlock (c : Fin n) (p : ProcId) (hz tick : ℕ) (now : ProcId → ℕ)
  | recvWoken (c : Fin n) (p : ProcId)
  | recvWake (c : Fin n) (p : ProcId)
  | close (c : Fin n) (p : ProcId) (h : ℕ)
  /-- `sched_wake_chan` of `port_close` on the receivers, then on the senders. -/
  | closeWakeRecv (c : Fin n) (p : ProcId)
  | closeWakeSend (c : Fin n) (p : ProcId)

/-- A thread inside a port call. -/
def State.busy (s : State n M) (p : ProcId) : Prop := s.pc p ≠ .user

/-- The steps of the system. -/
inductive Step (zero : M) (s : State n M) : Label n M → State n M → Prop
  | sched {l m} (hb : Background s.busy s.mach l) (hm : Sched.Step s.mach l m) :
      Step zero s (.sched l) { s with mach := m }
  | create {c p owner} (hp : Executes s.mach c p) (hpc : s.pc p = .user)
      (hl : s.ipcLock = none) : Step zero s (.create c p owner) (create s owner)
  | send {c p h msg} (hp : Executes s.mach c p) (hpc : s.pc p = .user) (hl : s.ipcLock = none) :
      Step zero s (.send c p h msg) (send s p h msg)
  | sendWake {c p h m} (hp : Executes s.mach c p) (hpc : s.pc p = .sendWake h)
      (hm : Sched.Step s.mach (.schedWakeChan c (s.recvq h)) m) :
      Step zero s (.sendWake c p) ({ s with mach := m }.goto p .user)
  | recv {c p h block} (hp : Executes s.mach c p) (hpc : s.pc p = .user) :
      Step zero s (.recv c p h block) (s.goto p (.recv h block (s.start h)))
  | recvPass {c p h block start} (hp : Executes s.mach c p) (hpc : s.pc p = .recv h block start)
      (hl : s.ipcLock = none) : Step zero s (.recvPass c p) (recvPass s p h block start)
  | recvBlock {c p h block start hz tick now m} (hp : Executes s.mach c p)
      (hpc : s.pc p = .recvWait h block start)
      (hm : Sched.Step s.mach (.schedBlockOn c (s.recvq h) 0 hz tick now) m) :
      Step zero s (.recvBlock c p hz tick now)
        ({ s with mach := m, ipcLock := none }.goto p (.recvSlept h block start))
  | recvWoken {c p h block start} (hp : Executes s.mach c p)
      (hpc : s.pc p = .recvSlept h block start) (hl : s.ipcLock = none) :
      Step zero s (.recvWoken c p)
        ({ s with ports := portRecvWoken s.ports h }.goto p (.recv h block start))
  | recvWake {c p h m} (hp : Executes s.mach c p) (hpc : s.pc p = .recvWake h)
      (hm : Sched.Step s.mach (.schedWakeChan c (s.sendq h)) m) :
      Step zero s (.recvWake c p) ({ s with mach := m }.goto p .user)
  | close {c p h} (hp : Executes s.mach c p) (hpc : s.pc p = .user) (hl : s.ipcLock = none) :
      Step zero s (.close c p h) (close zero s p h)
  | closeWakeRecv {c p h sq m} (hp : Executes s.mach c p) (hpc : s.pc p = .closeWake h true sq)
      (hm : Sched.Step s.mach (.schedWakeChan c (s.recvq h)) m) :
      Step zero s (.closeWakeRecv c p)
        ({ s with mach := m }.goto p (if sq then .closeWake h false true else .user))
  | closeWakeSend {c p h m} (hp : Executes s.mach c p) (hpc : s.pc p = .closeWake h false true)
      (hm : Sched.Step s.mach (.schedWakeChan c (s.sendq h)) m) :
      Step zero s (.closeWakeSend c p) ({ s with mach := m }.goto p .user)

/-- A running system after `ipc_init`: no port is open and no thread is in a port call. -/
structure Initial (s : State n M) : Prop where
  reached : Reached s.mach
  closed : ∀ h, (s.ports h).used = false ∧ (s.ports h).recvWaiters = 0
  pc : ∀ p, s.pc p = .user
  lock : s.ipcLock = none
  log : s.log = []

/-- The thread is in a `port_recv` on `h`, that started on `start`. -/
def Pc.receives (h : ℕ) (start : Option ℕ) : Pc → Prop
  | .recv h' _ st | .recvWait h' _ st | .recvSlept h' _ st => h' = h ∧ st = start
  | _ => False

/-- The use under which ports are safe: a port is closed only while no thread receives on it. -/
def Guard (s : State n M) : Label n M → Prop
  | .close _ _ h => ∀ x start, ¬ (s.pc x).receives h start
  | _ => True

/-! ## The invariant -/

/-- The thread counts as a waiter of `h`. -/
def Pc.counts (h : ℕ) : Pc → Bool
  | .recvWait h' _ _ | .recvSlept h' _ _ => h' == h
  | _ => false

/-- The number of threads that count as waiters of `h`. -/
def countOf (pc : ProcId → Pc) (h : ℕ) : ℕ := count fun p => (pc p).counts h

/-- Thread `p` sleeps in a `port_recv` on `h`. -/
def Sleeps (s : State n M) (p : ProcId) (h : ℕ) : Prop :=
  (∃ block start, s.pc p = .recvSlept h block start) ∧ blockedOn s.mach p = some (s.recvq h)

/-- What holds between any two steps of a guarded run. -/
structure Inv (s : State n M) : Prop where
  mach : Undisturbed s.mach
  rings : RingsWF s.ports
  waiters : ∀ h, (s.ports h).recvWaiters = countOf s.pc h
  opened : ∀ p h, (s.pc p).counts h = true → (1 ≤ h ∧ h < maxPorts) ∧ (s.ports h).used = true
  /-- A thread about to block holds the lock, and the port is empty. -/
  locked : ∀ p h b st, s.pc p = .recvWait h b st → s.ipcLock = some p ∧
    (s.ports h).queue.count = 0
  /-- Where a message waits for a sleeper, a send is about to wake it. -/
  asleep : ∀ p h, Sleeps s p h → 0 < (s.ports h).queue.count → ∃ q, s.pc q = .sendWake h
  /-- The port a call started on is still the same one. -/
  started : ∀ p h k, (s.pc p).receives h (some k) →
    (s.ports h).used = true ∧ s.incarnation h = k
  tags : ∀ h, ∀ d ∈ waitingMsgs s.ports h, d.1 = s.incarnation h
  log : ∀ e ∈ s.log, ∀ k, e.start = some k → e.msg.1 = k

/-! ### Counting threads -/

/-- The number of waiters changes with the thread that moves. -/
theorem countOf_exchange (pc : ProcId → Pc) (p : ProcId) (k : Pc) (h : ℕ) :
    countOf (update pc p k) h + ((pc p).counts h).toNat = countOf pc h + (k.counts h).toNat := by
  have hrest : ∀ x, x ≠ p → (update pc p k x).counts h = (pc x).counts h := by
    intro x hx
    rw [update_of_ne hx]
  have hex := count_exchange hrest
  rwa [update_self] at hex

variable {pc : ProcId → Pc} {k : Pc}

theorem countOf_pos (hp : (pc p).counts h = true) : 0 < countOf pc h := by
  apply count_pos (p := p)
  exact hp

theorem countOf_update (hk : k.counts h = (pc p).counts h) :
    countOf (update pc p k) h = countOf pc h := by
  have hex := countOf_exchange pc p k h
  rw [hk] at hex
  exact Nat.add_right_cancel hex

/-! ## The steps keep it -/

variable {s s' : State n M} {c : Fin n} {p q x : ProcId} {h : ℕ} {m : Machine n} {block : Bool}
  {start : Option ℕ}

@[simp] theorem goto_pc_self (k : Pc) : (s.goto p k).pc p = k := update_self ..

theorem Initial.inv (hi : Initial s) : Inv s where
  mach := hi.reached.undisturbed
  rings h hu := by simp [(hi.closed h).1] at hu
  waiters h := by
    rw [(hi.closed h).2, countOf, count_eq_zero.mpr fun p => by rw [hi.pc p]; rfl]
  opened p h hp := by simp [hi.pc p, Pc.counts] at hp
  locked p h b st hp := by simp [hi.pc p] at hp
  asleep p h hp := by simp [Sleeps, hi.pc p] at hp
  started p h k hp := by simp [hi.pc p, Pc.receives] at hp
  tags h d hd := by simp [waitingMsgs, (hi.closed h).1] at hd
  log e he := by simp [hi.log] at he

section

variable (hi : Inv s)
include hi

/-- While `ipc_lock` is free nobody is between counting itself and blocking. -/
theorem Inv.not_recvWait (hl : s.ipcLock = none) (p : ProcId) (h : ℕ) (b : Bool)
    (st : Option ℕ) : s.pc p ≠ .recvWait h b st :=
  fun hp => by simpa [hl] using (hi.locked p h b st hp).1

/-- **The scheduler goes on**: nobody in a `port_recv` falls asleep. -/
theorem Inv.setMach (hm : Undisturbed m)
    (hb : ∀ x h, (∃ b st, s.pc x = .recvSlept h b st) → blockedOn m x = some (s.recvq h) →
      blockedOn s.mach x = some (s.recvq h)) : Inv { s with mach := m } :=
  { hi with
    mach := hm
    asleep := fun x h hx => hi.asleep x h ⟨hx.1, hb x h hx.1 hx.2⟩ }

/-- **A thread moves on** to `k`.  Every port stays what it is, up to the number of its waiters.  A
thread that is about to block has taken the lock, one that goes to sleep leaves an empty port, and
if the thread was about to wake a port, nobody sleeps there. -/
theorem Inv.move {t : State n M} (hm : Undisturbed t.mach) (hpc : t.pc = update s.pc p k)
    (hsame : ∀ h, (t.ports h).used = (s.ports h).used ∧ (t.ports h).queue = (s.ports h).queue)
    (hrest : t.incarnation = s.incarnation ∧ t.log = s.log)
    (hwait : ∀ h, (t.ports h).recvWaiters = countOf t.pc h)
    (hopen : ∀ h, k.counts h = true → (1 ≤ h ∧ h < maxPorts) ∧ (s.ports h).used = true)
    (hlock : t.ipcLock = s.ipcLock ∨ ∀ x h b st, x ≠ p → s.pc x ≠ .recvWait h b st)
    (hkw : ∀ h b st, k = .recvWait h b st → t.ipcLock = some p ∧ (s.ports h).queue.count = 0)
    (hks : ∀ h b st, k = .recvSlept h b st → (s.ports h).queue.count = 0)
    (hbl : ∀ x h, x ≠ p → blockedOn t.mach x = some (t.recvq h) →
      blockedOn s.mach x = some (s.recvq h)) (hw : ∀ h, s.pc p = .sendWake h → ∀ x, ¬ Sleeps s x h)
    (hs : ∀ h j, k.receives h (some j) → (s.ports h).used = true ∧ s.incarnation h = j) :
    Inv t where
  mach := hm
  rings h hu := by
    rw [(hsame h).2]
    exact hi.rings h ((hsame h).1 ▸ hu)
  waiters := hwait
  opened x h hx := by
    rw [(hsame h).1]
    rw [hpc, update_apply] at hx
    split at hx
    · exact hopen h hx
    · exact hi.opened x h hx
  locked x h b st hx := by
    rw [(hsame h).2]
    rw [hpc, update_apply] at hx
    split at hx
    case isTrue hxp => exact hxp ▸ hkw h b st hx
    case isFalse hxp =>
      rw [hlock.resolve_right fun hn => hn x h b st hxp hx]
      exact hi.locked x h b st hx
  asleep x h hx hc := by
    obtain ⟨⟨b, st, hx⟩, hb⟩ := hx
    rw [(hsame h).2] at hc
    rw [hpc] at hx ⊢
    rw [update_apply] at hx
    split at hx
    · exact absurd (hks h b st hx) hc.ne'
    next hxp =>
    have hx' : Sleeps s x h := ⟨⟨b, st, hx⟩, hbl x h hxp hb⟩
    obtain ⟨q, hq⟩ := hi.asleep x h hx' hc
    have hqp : q ≠ p := by
      rintro rfl
      exact hw h hq x hx'
    exact ⟨q, (update_of_ne hqp ..).trans hq⟩
  started x h j hx := by
    rw [(hsame h).1, hrest.1]
    rw [hpc, update_apply] at hx
    split at hx
    · exact hs h j hx
    · exact hi.started x h j hx
  tags h d hd := by
    rw [hrest.1]
    rw [waitingMsgs, (hsame h).1, (hsame h).2] at hd
    exact hi.tags h d hd
  log := hrest.2 ▸ hi.log

/-- A thread moves between places where it does not count as a waiter. -/
theorem Inv.goto (hp : ∀ h, (s.pc p).counts h = false) (hk : ∀ h, k.counts h = false)
    (hw : ∀ h, s.pc p = .sendWake h → ∀ x, ¬ Sleeps s x h)
    (hs : ∀ h j, k.receives h (some j) → (s.ports h).used = true ∧ s.incarnation h = j) :
    Inv (s.goto p k) := by
  have hnot : ∀ h, k.counts h ≠ true := by simp [hk]
  refine hi.move hi.mach rfl (fun _ => ⟨rfl, rfl⟩) ⟨rfl, rfl⟩ (fun h => ?_)
    (fun h hc => absurd hc (hnot h)) (.inl rfl) (fun h b st he => absurd ?_ (hnot h))
    (fun h b st he => absurd ?_ (hnot h)) (fun _ _ _ => id) hw hs
  · exact (hi.waiters h).trans (countOf_update ((hk h).trans (hp h).symm)).symm
  · simp [he, Pc.counts]
  · simp [he, Pc.counts]

/-- A place outside of `port_recv`, or after its loop. -/
def Pc.Out : Pc → Prop
  | .recv .. | .recvWait .. | .recvSlept .. => False
  | _ => True

/-- A thread moves out of `port_recv`. -/
theorem Inv.leave (hp : ∀ h, (s.pc p).counts h = false) (hk : k.Out)
    (hw : ∀ h, s.pc p = .sendWake h → ∀ x, ¬ Sleeps s x h) : Inv (s.goto p k) := by
  refine hi.goto hp (fun h => ?_) hw fun h j hj => ?_
  all_goals cases k
  all_goals simp_all [Pc.Out, Pc.counts, Pc.receives]

theorem Inv.sched (hb : Background s.busy s.mach l) (hm : Sched.Step s.mach l m) :
    Inv { s with mach := m } := by
  refine hi.setMach (hi.mach.step hm hb.plain) fun x h hx hbl => ?_
  obtain ⟨b, st, hx⟩ := hx
  exact hb.asleep_before hi.mach hm (by simp [State.busy, hx]) hbl

/-- A wake of any channel. -/
theorem Inv.wake (hm : Sched.Step s.mach (.schedWakeChan c chan) m) : Inv { s with mach := m } := by
  refine hi.setMach (hi.mach.step hm trivial) fun x h _ hbl => ?_
  obtain ⟨-, ev, hex⟩ := hm
  have hplain : (Sched.Label.schedWakeChan c chan).Plain := trivial
  exact (asleep_before hi.mach hplain hex hbl).resolve_right nofun

theorem Inv.sendWake (hpc : s.pc p = .sendWake h)
    (hm : Sched.Step s.mach (.schedWakeChan c (s.recvq h)) m) :
    Inv ({ s with mach := m }.goto p .user) := by
  refine (hi.wake hm).leave (by simp [hpc, Pc.counts]) trivial fun h' hw x hx => ?_
  obtain rfl : h = h' := by simpa [hpc] using hw
  obtain ⟨-, ev, hex⟩ := hm
  exact not_asleep_of_wake hi.mach hex x hx.2

/-- A wake at the end of `port_recv` or in `port_close`. -/
theorem Inv.otherWake (hp : ∀ h, (s.pc p).counts h = false) (hs : ∀ h, s.pc p ≠ .sendWake h)
    (hk : k.Out) (hm : Sched.Step s.mach (.schedWakeChan c chan) m) :
    Inv ({ s with mach := m }.goto p k) :=
  (hi.wake hm).leave hp hk fun h hw => absurd hw (hs h)

theorem Inv.recv (hpc : s.pc p = .user) (h : ℕ) (block : Bool) :
    Inv (s.goto p (.recv h block (s.start h))) := by
  refine hi.goto (by simp [hpc, Pc.counts]) (fun _ => rfl) (by simp [hpc]) ?_
  rintro h' j ⟨rfl, hst⟩
  simpa [State.start] using hst

theorem Inv.recvBlock {ms hz tick : ℕ} {now : ProcId → ℕ} (hp : Executes s.mach c p)
    (hpc : s.pc p = .recvWait h block start)
    (hm : Sched.Step s.mach (.schedBlockOn c (s.recvq h) ms hz tick now) m) :
    Inv ({ s with mach := m, ipcLock := none }.goto p (.recvSlept h block start)) := by
  have hempty := (hi.locked p h block start hpc).2
  -- the thread keeps its place among the waiters
  have hcount : ∀ h', (Pc.recvSlept h block start).counts h' = (s.pc p).counts h' := by
    intro h'
    rw [hpc]
    rfl
  have hother : ∀ x h' b st, x ≠ p → s.pc x ≠ .recvWait h' b st := by
    intro x h' b st hxp hx
    have h1 := (hi.locked x h' b st hx).1
    rw [(hi.locked p h block start hpc).1] at h1
    exact hxp (Option.some.inj h1).symm
  refine hi.move (hi.mach.step hm trivial) rfl (fun _ => ⟨rfl, rfl⟩) ⟨rfl, rfl⟩ (fun h' => ?_)
    (fun h' hc => ?_) (.inr hother) nofun ?_ (fun x h' hxp hbl => ?_) (by simp [hpc]) ?_
  · exact (hi.waiters h').trans (countOf_update (hcount h')).symm
  · rw [hcount h'] at hc
    exact hi.opened p h' hc
  · rintro h' b st ⟨⟩
    exact hempty
  · exact (hp.asleep_before hi.mach hm hbl).resolve_right fun he => hxp he.1
  · intro h' j hj
    exact hi.started p h' j (hpc ▸ hj)

end

theorem receives_of_counts (hk : k.counts h = true) : ∃ st, k.receives h st := by
  cases k with
  | recvWait h' b st | recvSlept h' b st => exact ⟨st, by simpa [Pc.counts] using hk, rfl⟩
  | _ => cases hk

theorem Sleeps.counts (hx : Sleeps s x h) : (s.pc x).counts h = true := by
  obtain ⟨⟨b, st, hx⟩, -⟩ := hx
  simp [hx, Pc.counts]

section

variable (hi : Inv s) (hl : s.ipcLock = none)
include hi hl

/-- **One port changes**, with the number of its waiters as it was.  Either nobody receives on it,
or it stays open as the same incarnation. -/
theorem Inv.setPort (hring : P.used = true → P.queue.WF portDepth)
    (hwait : P.recvWaiters = (s.ports h).recvWaiters)
    (hinc : ∀ h', h' ≠ h → inc h' = s.incarnation h') (huse : (∀ x st, ¬ (s.pc x).receives h st) ∨
      ((s.ports h).used = true → P.used = true ∧ inc h = s.incarnation h))
    (hcount : 0 < P.queue.count → ∀ x, Sleeps s x h → ∃ q, s.pc q = .sendWake h)
    (htags : P.used = true → ∀ d ∈ P.queue.toList portDepth, d.1 = inc h) :
    Inv { s with ports := update s.ports h P, incarnation := inc } where
  mach := hi.mach
  rings := hi.rings.update hring
  waiters h' := by
    by_cases hh : h' = h
    · subst hh
      simp [hwait, hi.waiters]
    · simp [hh, hi.waiters]
  opened x h' hx := by
    dsimp only
    by_cases hh : h' = h
    · subst hh
      rw [update_self]
      obtain ⟨st, hst⟩ := receives_of_counts hx
      obtain ⟨hr, hu⟩ := hi.opened x h' hx
      exact ⟨hr, (huse.resolve_left (fun hn => hn x st hst) hu).1⟩
    · rw [update_of_ne hh]
      exact hi.opened x h' hx
  locked x h' b st hx := absurd hx (hi.not_recvWait hl x h' b st)
  asleep x h' hx hc := by
    by_cases hh : h' = h
    · subst hh
      exact hcount (by simpa using hc) x hx
    · exact hi.asleep x h' hx (by simpa [hh] using hc)
  started x h' j hx := by
    obtain ⟨hu, hj⟩ := hi.started x h' j hx
    dsimp only
    by_cases hh : h' = h
    · subst hh
      rw [update_self]
      obtain ⟨hu', hinc'⟩ := huse.resolve_left (fun hn => hn x _ hx) hu
      exact ⟨hu', hinc'.trans hj⟩
    · rw [update_of_ne hh]
      exact ⟨hu, (hinc h' hh).trans hj⟩
  tags h' d hd := by
    rw [waitingMsgs_update] at hd
    split at hd
    · next hh =>
        subst hh
        split at hd
        · next hu => exact htags hu d hd
        · cases hd
    · next hh =>
        rw [hi.tags h' d hd]
        exact (hinc h' hh).symm
  log := hi.log

theorem Inv.create (ownerPid : ℕ) : Inv (create s ownerPid) := by
  unfold Blocking.create
  rcases portCreate_cases s.ports ownerPid with he | ⟨i, hr, hu, he⟩
  · rw [he]
    exact hi
  rw [he]
  dsimp only
  rw [if_neg (by omega : ¬ i = 0)]
  exact hi.setPort hl (fun _ => RingBuf.wf_empty _ (by decide)) rfl (fun h' hh => update_of_ne hh ..)
    (.inr (by simp [hu])) (by simp) (by simp [RingBuf.toList])

theorem Inv.close (hpc : s.pc p = .user) (zero : M)
    (hg : ∀ x st, ¬ (s.pc x).receives h st) : Inv (close zero s p h) := by
  have hnone : ∀ x, (s.pc x).counts h = false := by
    intro x
    by_contra hx
    obtain ⟨st, hst⟩ := receives_of_counts (Bool.not_eq_false _ ▸ hx)
    exact hg x st hst
  have hports : Inv { s with ports := (portClose (0, zero) s.ports h).1 } := by
    rcases portClose_cases (0, zero) s.ports h with he | ⟨-, hu, he⟩
    · rw [he]
      exact hi
    rw [he]
    refine hi.setPort hl nofun ?_ (fun _ _ => rfl) (.inl hg) (by simp [Port.cleared]) nofun
    rw [hi.waiters h, countOf, count_eq_zero.mpr hnone]
    rfl
  exact hports.leave (by simp [hpc, Pc.counts]) (by split <;> trivial) (by simp [hpc])

theorem Inv.send (hpc : s.pc p = .user) (h : ℕ) (msg : M) : Inv (send s p h msg) := by
  -- first the thread moves to where it will wake the port, then the port changes
  have hmove : ∀ k : Pc, k.Out → Inv (s.goto p k) :=
    fun k hk => hi.leave (by simp [hpc, Pc.counts]) hk (by simp [hpc])
  unfold Blocking.send
  rcases portSend_cases s.ports h (s.incarnation h, msg) with he | ⟨hr, hu, hc, he⟩
  · rw [he]
    exact hmove .user trivial
  rw [he]
  set k : Pc := if decide (0 < (s.ports h).recvWaiters) = true then .sendWake h else .user with hk
  have hik : Inv (s.goto p k) := by
    apply hmove
    rw [hk]
    split <;> trivial
  have hset : ∀ P : Port (ℕ × M), Inv { s.goto p k with
      ports := update s.ports h P, incarnation := s.incarnation } →
      Inv ({ s with ports := update s.ports h P }.goto p k) := fun _ => id
  refine hset _ (hik.setPort hl (fun _ => (hi.rings h hu).push hc) rfl (fun _ _ => rfl)
    (.inr fun _ => ⟨hu, rfl⟩) ?_ ?_)
  · intro _ x hx
    -- a sleeper is counted, so the sender has seen it
    have hpos : 0 < (s.ports h).recvWaiters := by
      have hpos := countOf_pos hx.counts
      rwa [← hik.waiters h] at hpos
    exact ⟨p, by simp [hk, hpos]⟩
  · intro _ d hd
    rw [RingBuf.toList_push (hi.rings h hu) hc, List.mem_append, List.mem_singleton] at hd
    rcases hd with hd | rfl
    · exact hi.tags h d (by simpa [waitingMsgs, hu] using hd)
    · rfl

/-- **The number of waiters changes** with the thread that joins or leaves them; the port is open
and keeps its messages. -/
theorem Inv.recount {r : ℕ} {lock : Option ProcId}
    (hh : 1 ≤ h ∧ h < maxPorts) (hu : (s.ports h).used = true)
    (hr : r = countOf (update s.pc p k) h)
    (hother : ∀ h', h' ≠ h → k.counts h' = (s.pc p).counts h')
    (hrec : ∀ h' st, k.receives h' st → (s.pc p).receives h' st) (hsw : ∀ h', s.pc p ≠ .sendWake h')
    (hsl : ∀ h' b st, k ≠ .recvSlept h' b st)
    (hkw : ∀ h' b st, k = .recvWait h' b st → lock = some p ∧ (s.ports h').queue.count = 0) :
    Inv ({ s with ports := update s.ports h { s.ports h with recvWaiters := r },
                  ipcLock := lock }.goto p k) := by
  refine hi.move hi.mach rfl (fun h' => ?_) ⟨rfl, rfl⟩ (fun h' => ?_) (fun h' hc => ?_)
    (.inr fun x h' b st _ => hi.not_recvWait hl x h' b st) hkw
    (fun h' b st hk => absurd hk (hsl h' b st)) (fun _ _ _ => id)
    (fun h' hw => absurd hw (hsw h')) fun h' j hj => hi.started p h' j (hrec h' _ hj)
  · simp only [State.goto, update_apply]
    split <;> simp [*]
  · show (update s.ports h _ h').recvWaiters = countOf (update s.pc p k) h'
    by_cases hh' : h' = h
    · subst hh'
      rw [update_self]
      exact hr
    · rw [update_of_ne hh', hi.waiters h', countOf_update (hother h' hh')]
  · by_cases hh' : h' = h
    · exact hh' ▸ ⟨hh, hu⟩
    · rw [hother h' hh'] at hc
      exact hi.opened p h' hc

theorem Inv.recvWoken (hpc : s.pc p = .recvSlept h block start) :
    Inv ({ s with ports := portRecvWoken s.ports h }.goto p (.recv h block start)) := by
  have hcnt : (s.pc p).counts h = true := by simp [hpc, Pc.counts]
  obtain ⟨hr, hu⟩ := hi.opened p h hcnt
  -- one waiter less
  have hrem := countOf_exchange s.pc p (.recv h block start) h
  rw [hcnt] at hrem
  simp only [Pc.counts, Bool.toNat_true, Bool.toNat_false] at hrem
  have hw := hi.waiters h
  have hports : portRecvWoken s.ports h =
      update s.ports h { s.ports h with recvWaiters := (s.ports h).recvWaiters - 1 } := by
    unfold portRecvWoken
    rw [portGet_eq_some.mpr ⟨hr, hu, rfl⟩]
    exact if_pos (by omega)
  rw [hports]
  refine hi.recount hl hr hu (by omega) ?_ (fun h' st hst => hpc ▸ hst) (by simp [hpc]) nofun nofun
  intro h' hne
  simp [hpc, Pc.counts, Ne.symm hne]

end

/-- A message is taken and noted. -/
theorem Inv.addLog (hi : Inv s) (he : ∀ k, e.start = some k → e.msg.1 = k) :
    Inv { s with log := s.log ++ [e] } :=
  { hi with
    log := by simpa [or_imp, forall_and] using ⟨hi.log, he⟩ }

theorem Inv.recvPass (hi : Inv s) (hl : s.ipcLock = none) (hpc : s.pc p = .recv h block start) :
    Inv (recvPass s p h block start) := by
  have hcnt : ∀ h', (s.pc p).counts h' = false := by simp [hpc, Pc.counts]
  have hsw : ∀ h', s.pc p ≠ .sendWake h' := by simp [hpc]
  unfold Blocking.recvPass
  rcases portRecvTry_cases s.ports h block with he | ⟨hr, hu, hc, he⟩ | ⟨hr, hu, hc, rfl, he⟩
  · rw [he]
    exact hi.leave hcnt trivial fun h' hw => absurd hw (hsw h')
  · have hgot := congrArg Prod.snd he
    rw [he]
    -- the message, from the port that the call started on
    have hmem := mem_waitingMsgs_of_got hi.rings hgot
    have hlog := hi.addLog (e := ⟨start, (s.ports h).queue.buf (s.ports h).queue.head⟩) (by
      rintro k rfl
      have hst := hi.started p h k (by rw [hpc]; exact ⟨rfl, rfl⟩)
      exact (hi.tags h _ hmem).trans hst.2)
    have hpop : Inv { s with
        ports := update s.ports h { s.ports h with queue := (s.ports h).queue.pop portDepth }
        log := s.log ++ [⟨start, (s.ports h).queue.buf (s.ports h).queue.head⟩] } := by
      refine hlog.setPort hl (fun _ => (hi.rings h hu).pop hc) rfl (fun _ _ => rfl)
        (.inr fun _ => ⟨hu, rfl⟩) (fun _ x hx => hi.asleep x h hx hc) ?_
      intro _ d hd
      refine hi.tags h d ?_
      rw [waitingMsgs, if_pos hu, RingBuf.toList_pop hc (hi.rings h hu).head]
      exact List.mem_cons_of_mem _ hd
    exact hpop.leave hcnt (by split <;> trivial) fun h' hw => absurd hw (hsw h')
  · rw [he]
    refine hi.recount hl hr hu ?_ ?_ (fun h' st hst => hpc ▸ hst) hsw (by simp) (by simp [hc])
    · have hadd := countOf_exchange s.pc p (.recvWait h true start) h
      rw [hcnt h] at hadd
      simp only [Pc.counts, beq_self_eq_true, Bool.toNat_true, Bool.toNat_false] at hadd
      rw [hi.waiters h]
      omega
    · intro h' hne
      simp [hpc, Pc.counts, Ne.symm hne]

/-- **Every guarded step keeps the invariant.** -/
theorem Inv.step (hi : Inv s) (hg : Guard s l) (hs : Step zero s l s') : Inv s' := by
  cases hs with
  | sched hb hm => exact hi.sched hb hm
  | create hp hpc hl => exact hi.create hl _
  | send hp hpc hl => exact hi.send hl hpc _ _
  | sendWake hp hpc hm => exact hi.sendWake hpc hm
  | recv hp hpc => exact hi.recv hpc _ _
  | recvPass hp hpc hl => exact hi.recvPass hl hpc
  | recvBlock hp hpc hm => exact hi.recvBlock hp hpc hm
  | recvWoken hp hpc hl => exact hi.recvWoken hl hpc
  | recvWake hp hpc hm | closeWakeSend hp hpc hm =>
    exact hi.otherWake (by simp [hpc, Pc.counts]) (by simp [hpc]) trivial hm
  | close hp hpc hl => exact hi.close hl hpc _ hg
  | closeWakeRecv hp hpc hm =>
    exact hi.otherWake (by simp [hpc, Pc.counts]) (by simp [hpc]) (by split <;> trivial) hm

/-- **No wake-up is lost, and incarnations are not mixed.**  In every state that a run reaches in
which no port is closed under a receiver: a thread that sleeps in `port_recv` while no `port_send`
on the port is in progress sleeps on an empty port; and every message received by a call that
started on an incarnation of its port was sent to that incarnation. -/
theorem ports_wake_and_separate {zero : M} {s₀ : State n M} {ls : List (Label n M)}
    (h₀ : Initial s₀) (hrun : Run (Step zero) Guard s₀ ls s) :
    (∀ p h, (∀ q, s.pc q ≠ .sendWake h) → Sleeps s p h → (s.ports h).queue.count = 0) ∧
      ∀ e ∈ s.log, ∀ k, e.start = some k → e.msg.1 = k := by
  have hi : Inv s := hrun.invariant h₀.inv fun _ _ _ ht hg hs => ht.step hg hs
  refine ⟨fun p h hq hp => ?_, hi.log⟩
  by_contra hc
  obtain ⟨q, hsw⟩ := hi.asleep p h hp (Nat.pos_of_ne_zero hc)
  exact hq q hsw

/-- **Waiters are counted.**  In every state that such a run reaches, `recv_waiters` of a port is the
number of threads between its increment and its decrement in `port_recv`; each of them is on an open
port, and one that has not blocked yet holds the lock and has found the port empty. -/
theorem waiters_counted {zero : M} {s₀ : State n M} {ls : List (Label n M)} (h₀ : Initial s₀)
    (hrun : Run (Step zero) Guard s₀ ls s) (h : ℕ) :
    (s.ports h).recvWaiters = countOf s.pc h ∧ ∀ p, (s.pc p).counts h = true →
      (s.ports h).used = true ∧ ∀ b st, s.pc p = .recvWait h b st →
        s.ipcLock = some p ∧ (s.ports h).queue.count = 0 := by
  have hi : Inv s := hrun.invariant h₀.inv fun _ _ _ ht hg hs => ht.step hg hs
  exact ⟨hi.waiters h, fun p hp => ⟨(hi.opened p h hp).2, hi.locked p h⟩⟩

/-! ## Two threads and a port -/

local instance twoCpus : NeZero 2 := ⟨two_ne_zero⟩

/-- Two threads on two CPUs, no port open, and numbers for messages. -/
def noPorts : State 2 ℕ where
  mach := twoThreads
  ports _ := Port.cleared (0, 0)
  incarnation _ := 0
  ipcLock := none
  pc _ := .user
  recvq h := 2 * h
  sendq h := 2 * h + 1
  log := []

theorem noPorts_initial : Initial noPorts :=
  ⟨twoThreads_reached, fun _ => ⟨rfl, rfl⟩, fun _ => rfl, rfl, rfl⟩

/-- The first thread has found port 1 empty and is about to block. -/
def aboutToBlock : State 2 ℕ :=
  let s := create noPorts 7
  recvPass (s.goto 2 (.recv 1 true (s.start 1))) 2 1 true (some 1)

/-- The machine on which it sleeps. -/
@[irreducible] def asleepMach : Machine 2 :=
  twoThreads.after (.schedBlockOn 0 2 0 100 0 fun _ => 0)

theorem asleepMach_step :
    Sched.Step twoThreads (.schedBlockOn 0 2 0 100 0 fun _ => 0) asleepMach := by
  unfold asleepMach
  exact twoThreads_left.step_block twoThreads_reached.undisturbed _ _ _ _ _

theorem asleepMach_undisturbed : Undisturbed asleepMach :=
  twoThreads_reached.undisturbed.step asleepMach_step trivial

theorem asleepMach_right : Executes asleepMach 1 3 := by decide +kernel

/-- It sleeps. -/
def receiverAsleep : State 2 ℕ :=
  { aboutToBlock with mach := asleepMach, ipcLock := none }.goto 2 (.recvSlept 1 true (some 1))

theorem receiverAsleep_run : Run (Step 0) Guard noPorts
    [.create 1 3 7, .recv 0 2 1 true, .recvPass 0 2, .recvBlock 0 2 100 0 fun _ => 0]
    receiverAsleep :=
  Run.cons trivial (.create twoThreads_right rfl rfl) <|
    Run.cons trivial (.recv twoThreads_left rfl) <|
    Run.cons trivial (.recvPass twoThreads_left rfl rfl) <|
    Run.cons trivial (.recvBlock twoThreads_left rfl asleepMach_step) .nil

theorem receiverAsleep_counted : countOf receiverAsleep.pc 1 = 1 :=
  (waiters_counted noPorts_initial receiverAsleep_run 1).1.symm.trans rfl

/-- The machine after the second thread has woken it. -/
@[irreducible] def awakeMach : Machine 2 := asleepMach.after (.schedWakeChan 1 2)

theorem awakeMach_step : Sched.Step asleepMach (.schedWakeChan 1 2) awakeMach := by
  unfold awakeMach
  exact asleepMach_right.step_wake asleepMach_undisturbed _

theorem awakeMach_right : Executes awakeMach 1 3 := by decide +kernel

theorem awakeMach_undisturbed : Undisturbed awakeMach :=
  asleepMach_undisturbed.step awakeMach_step trivial

/-- The second thread sends a message to a sleeper and wakes it: the message waits, no send is in
progress, and nobody sleeps on the port. -/
theorem sender_wakes : Sleeps receiverAsleep 2 1 ∧
      ∃ s : State 2 ℕ, Run (Step 0) Guard receiverAsleep [.send 1 3 1 5, .sendWake 1 3] s ∧
        (s.ports 1).queue.count = 1 ∧ ¬ Sleeps s 2 1 := by
  have hasleep : Sleeps receiverAsleep 2 1 := ⟨⟨true, some 1, rfl⟩, by decide +kernel⟩
  have hrun : Run (Step 0) Guard receiverAsleep [.send 1 3 1 5, .sendWake 1 3]
      ({ send receiverAsleep 3 1 5 with mach := awakeMach }.goto 3 .user) :=
    Run.cons trivial (.send asleepMach_right rfl rfl) <|
      Run.cons trivial (.sendWake asleepMach_right rfl awakeMach_step) .nil
  have hcount : (({ send receiverAsleep 3 1 5 with mach := awakeMach }.goto 3 .user).ports
      1).queue.count = 1 := rfl
  refine ⟨hasleep, _, hrun, hcount, fun hs => ?_⟩
  have hall := (ports_wake_and_separate noPorts_initial (receiverAsleep_run.trans hrun)).1 2 1
    (by decide +kernel) hs
  simp [hcount] at hall

/-- The first thread is back on its CPU. -/
@[irreducible] def backMach : Machine 2 :=
  ((awakeMach.after (.contextSaved 0)).after (.schedYield 0 fun _ => 0)).after (.contextSaved 0)

theorem backMach_left : Executes backMach 0 2 := by decide +kernel

/-- The steps that bring it there put nobody to sleep. -/
theorem backMach_run : Run Sched.Step (fun m l => l.Plain ∧ l.sleeper m = none) awakeMach
    [.contextSaved 0, .schedYield 0 fun _ => 0, .contextSaved 0] backMach := by
  have h1 : enabled awakeMach (.contextSaved 0) := by
    show (awakeMach.act 0).saved.isSome = true
    decide +kernel
  have hu1 := awakeMach_undisturbed.step (awakeMach_undisturbed.step_after h1 trivial) trivial
  have h2 : enabled (awakeMach.after (.contextSaved 0)) (.schedYield 0 fun _ => 0) :=
    .inl (by decide +kernel)
  have hu2 := hu1.step (hu1.step_after h2 trivial) trivial
  have h3 : enabled ((awakeMach.after (.contextSaved 0)).after (.schedYield 0 fun _ => 0))
      (.contextSaved 0) := by
    show (((awakeMach.after (.contextSaved 0)).after (.schedYield 0 fun _ => 0)).act
      0).saved.isSome = true
    decide +kernel
  unfold backMach
  exact Run.cons ⟨trivial, rfl⟩ (awakeMach_undisturbed.step_after h1 trivial) <|
    Run.cons ⟨trivial, rfl⟩ (hu1.step_after h2 trivial) <|
    Run.cons ⟨trivial, rfl⟩ (hu2.step_after h3 trivial) .nil

/-- The scheduler runs while the threads stay where they are. -/
theorem sched_run (hrun : Run Sched.Step (fun m l => l.Plain ∧ l.sleeper m = none) s.mach ls m) :
    Run (Step zero) Guard s (ls.map .sched) { s with mach := m } := by
  induction hrun with
  | nil => exact .nil
  | @snoc as t a u _ hg hs ih =>
    rw [List.map_append]
    have hb : Background s.busy t a := by
      refine ⟨hg.1, fun p chan hp => ?_⟩
      simp [hg.2] at hp
    exact ih.snoc trivial (.sched hb hs)

/-- **A message of the next port.**  The first thread sleeps in `port_recv` on port 1; the second
closes the port, opens a new one, which gets the same handle, and sends to it.  The first thread
wakes up and returns the message, which was sent to the second incarnation. -/
theorem received_from_next_port : ∃ (s : State 2 ℕ) (ls : List (Label 2 ℕ)), Initial noPorts ∧
      Run (Step 0) (fun _ _ => True) noPorts ls s ∧ s.log = [⟨some 1, (2, 5)⟩] := by
  have hclose : ∃ s : State 2 ℕ, Run (Step 0) (fun _ _ => True) receiverAsleep
      [.close 1 3 1, .closeWakeRecv 1 3, .create 1 3 7, .send 1 3 1 5] s ∧ s.mach = awakeMach ∧
      s.pc 2 = .recvSlept 1 true (some 1) ∧ s.ipcLock = none ∧
      portRecvWoken s.ports 1 = s.ports ∧ s.log = [] ∧
      (portRecvTry s.ports 1 true).2 = .got (2, 5) false :=
    ⟨_, Run.cons trivial (.close asleepMach_right rfl rfl) <|
      Run.cons trivial (.closeWakeRecv asleepMach_right rfl awakeMach_step) <|
      Run.cons trivial (.create awakeMach_right rfl rfl) <|
      Run.cons trivial (.send awakeMach_right rfl rfl) .nil, rfl, rfl, rfl, rfl, rfl, rfl⟩
  obtain ⟨s, hrun, hm, hpc, hl, hwoken, hlog, hgot⟩ := hclose
  have hback : Run (Step 0) (fun _ _ => True) s _ { s with mach := backMach } :=
    (sched_run (hm ▸ backMach_run)).mono fun _ _ _ => trivial
  have hend : Run (Step 0) (fun _ _ => True) { s with mach := backMach }
      [.recvWoken 0 2, .recvPass 0 2] _ :=
    Run.cons trivial (.recvWoken backMach_left hpc hl) <|
      Run.cons trivial (.recvPass backMach_left (goto_pc_self _) hl) .nil
  refine ⟨_, _, noPorts_initial,
    ((receiverAsleep_run.mono fun _ _ _ => trivial).trans hrun).trans (hback.trans hend), ?_⟩
  have htry : portRecvTry (portRecvWoken s.ports 1) 1 true =
      ((portRecvTry s.ports 1 true).1, .got (2, 5) false) := by
    rw [hwoken, ← hgot]
  unfold recvPass
  simp only [State.goto]
  rw [htry]
  simp [hlog]

end Xos.Ipc.Blocking
