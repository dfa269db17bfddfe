import Xos.Lib.Bytes
import Xos.Lib.RingBuf

/-!
# Ports

The mailboxes of `kernel/ipc/ipc.c`: a table of `IPC_MAX_PORTS` ports, each a ring of
`IPC_PORT_DEPTH` messages.  Every function here is what the code does between taking and
releasing `ipc_lock`.  The code copies messages and never looks into one, so the port table
is over an arbitrary type `M` of messages.

A blocking `port_recv` is a loop; `portRecvTry` is one pass of it and `portRecvWoken` what
it does between waking up and the next pass.
-/

namespace Xos.Ipc

open Xos.Lib Function

/-- `IPC_MAX_PORTS`. -/
def maxPorts : ℕ := 64

/-- `IPC_PORT_DEPTH`. -/
def portDepth : ℕ := 64

/-- `ipc_msg_t`. -/
structure Msg where
  type : ℕ
  senderPid : ℕ
  caps : ℕ → ℕ
  capCount : ℕ
  payloadLen : ℕ
  payload : Bytes

/-- `port_t`; `queue` is `buf`, `head`, `tail` and `count`. -/
structure Port (M : Type*) where
  used : Bool
  ownerPid : ℕ
  queue : RingBuf M
  recvWaiters : ℕ
  sendWaiters : ℕ

variable {M : Type*}

/-- The port table. -/
abbrev Ports (M : Type*) := ℕ → Port M

/-- A port after `memset(p, 0, sizeof(*p))`; `zero` is the all-zero message. -/
def Port.cleared (zero : M) : Port M where
  used := false
  ownerPid := 0
  queue := ⟨fun _ => zero, 0, 0, 0⟩
  recvWaiters := 0
  sendWaiters := 0

/-- `port_get(h)`. -/
def portGet (ports : Ports M) (h : ℕ) : Option (Port M) :=
  if h < 1 ∨ maxPorts ≤ h then none
  else if (ports h).used then some (ports h) else none

/-- `port_create(owner_pid)`: the handle, `0` when the table is full. -/
def portCreate (ports : Ports M) (ownerPid : ℕ) : Ports M × ℕ :=
  match (List.range' 1 (maxPorts - 1)).find? fun i => !(ports i).used with
  | some i =>
    let p := ports i
    (update ports i
      { p with used := true, ownerPid := ownerPid, queue := ⟨p.queue.buf, 0, 0, 0⟩ }, i)
  | none => (ports, 0)

/-- `port_send(h, msg)`: whether the message was stored, and whether a receiver is woken. -/
def portSend (ports : Ports M) (h : ℕ) (msg : M) : Ports M × Bool × Bool :=
  match portGet ports h with
  | none => (ports, false, false)
  | some p =>
    if portDepth ≤ p.queue.count then (ports, false, false)
    else
      (update ports h { p with queue := p.queue.push portDepth msg }, true,
        0 < p.recvWaiters)

/-- What a pass of `port_recv` comes to. -/
inductive RecvPass (M : Type*) where
  /-- It returns false: there is no port, or no message and the call does not block. -/
  | fail
  /-- It returns a message; `wake` says whether a sender is woken. -/
  | got (msg : M) (wake : Bool)
  /-- It goes to sleep on the port. -/
  | wait

/-- The message that a pass returns. -/
def RecvPass.taken : RecvPass M → List M
  | .got msg _ => [msg]
  | _ => []

/-- One pass of the loop of `port_recv(h, out, block)`. -/
def portRecvTry (ports : Ports M) (h : ℕ) (block : Bool) : Ports M × RecvPass M :=
  match portGet ports h with
  | none => (ports, .fail)
  | some p =>
    if 0 < p.queue.count then
      (update ports h { p with queue := p.queue.pop portDepth },
        .got (p.queue.buf p.queue.head) (0 < p.sendWaiters))
    else if block then
      (update ports h { p with recvWaiters := p.recvWaiters + 1 }, .wait)
    else (ports, .fail)

/-- What `port_recv` does after it was woken, before the next pass. -/
def portRecvWoken (ports : Ports M) (h : ℕ) : Ports M :=
  match portGet ports h with
  | none => ports
  | some p =>
    if 0 < p.recvWaiters then update ports h { p with recvWaiters := p.recvWaiters - 1 }
    else ports

/-- `port_close(h)`: which of the two wait channels are woken. -/
def portClose (zero : M) (ports : Ports M) (h : ℕ) : Ports M × Bool × Bool :=
  match portGet ports h with
  | none => (ports, false, false)
  | some p => (update ports h (Port.cleared zero), 0 < p.recvWaiters, 0 < p.sendWaiters)

/-! ## What the functions do to the table -/

variable {ports : Ports M} {h i : ℕ} {p : Port M} {msg d : M}

theorem portGet_eq_some :
    portGet ports h = some p ↔ (1 ≤ h ∧ h < maxPorts) ∧ (ports h).used = true ∧ ports h = p := by
  unfold portGet
  split_ifs with hr hu
  · simp only [false_iff]
    omega
  · simp only [Option.some.injEq]
    constructor
    · intro he
      exact ⟨by omega, hu, he⟩
    · intro he
      exact he.2.2
  · simp only [false_iff]
    intro he
    exact hu he.2.1

/-- Every open port's ring is well formed. -/
def RingsWF (ports : Ports M) : Prop := ∀ h, (ports h).used = true → (ports h).queue.WF portDepth

/-- The messages waiting in port `h`, oldest first. -/
def waitingMsgs (ports : Ports M) (h : ℕ) : List M :=
  if (ports h).used then (ports h).queue.toList portDepth else []

/-- **`port_create` opens an unused port, empty, and touches no other.** -/
theorem portCreate_cases (ports : Ports M) (ownerPid : ℕ) : portCreate ports ownerPid = (ports, 0) ∨
      ∃ i, (1 ≤ i ∧ i < maxPorts) ∧ (ports i).used = false ∧
        portCreate ports ownerPid = (update ports i { ports i with
            used := true, ownerPid := ownerPid, queue := ⟨(ports i).queue.buf, 0, 0, 0⟩ }, i) := by
  unfold portCreate
  cases hf : (List.range' 1 (maxPorts - 1)).find? fun i => !(ports i).used with
  | none => exact .inl rfl
  | some i =>
    have hmem := List.mem_of_find?_eq_some hf
    have hun := List.find?_some hf
    rw [List.mem_range'_1] at hmem
    refine .inr ⟨i, ⟨hmem.1, ?_⟩, by simpa using hun, rfl⟩
    omega

/-- **`port_send` stores in one open port or does nothing.** -/
theorem portSend_cases (ports : Ports M) (h : ℕ) (msg : M) :
    portSend ports h msg = (ports, false, false) ∨
      ((1 ≤ h ∧ h < maxPorts) ∧ (ports h).used = true ∧ (ports h).queue.count < portDepth ∧
        portSend ports h msg =
          (update ports h { ports h with queue := (ports h).queue.push portDepth msg }, true,
            decide (0 < (ports h).recvWaiters))) := by
  unfold portSend
  cases hg : portGet ports h with
  | none => exact .inl rfl
  | some =>
    obtain ⟨hr, hu, rfl⟩ := portGet_eq_some.mp hg
    dsimp only
    split_ifs with hfull
    · exact .inl rfl
    · exact .inr ⟨hr, hu, by omega, rfl⟩

/-- **A pass of `port_recv`** fails, takes the oldest message, or counts itself as a waiter. -/
theorem portRecvTry_cases (ports : Ports M) (h : ℕ) (block : Bool) :
    portRecvTry ports h block = (ports, .fail) ∨
      ((1 ≤ h ∧ h < maxPorts) ∧ (ports h).used = true ∧ 0 < (ports h).queue.count ∧
        portRecvTry ports h block =
          (update ports h { ports h with queue := (ports h).queue.pop portDepth },
            .got ((ports h).queue.buf (ports h).queue.head) (0 < (ports h).sendWaiters))) ∨
      ((1 ≤ h ∧ h < maxPorts) ∧ (ports h).used = true ∧ (ports h).queue.count = 0 ∧ block = true ∧
        portRecvTry ports h block =
          (update ports h { ports h with recvWaiters := (ports h).recvWaiters + 1 }, .wait)) := by
  unfold portRecvTry
  cases hg : portGet ports h with
  | none => exact .inl rfl
  | some =>
    obtain ⟨hr, hu, rfl⟩ := portGet_eq_some.mp hg
    dsimp only
    split_ifs with hc hb
    · exact .inr (.inl ⟨hr, hu, hc, rfl⟩)
    · exact .inr (.inr ⟨hr, hu, by omega, hb, rfl⟩)
    · exact .inl rfl

theorem portRecvWoken_cases (ports : Ports M) (h : ℕ) : portRecvWoken ports h = ports ∨
      (ports h).used = true ∧ portRecvWoken ports h =
        update ports h { ports h with recvWaiters := (ports h).recvWaiters - 1 } := by
  unfold portRecvWoken
  cases hg : portGet ports h with
  | none => exact .inl rfl
  | some =>
    obtain ⟨-, hu, rfl⟩ := portGet_eq_some.mp hg
    dsimp only
    split_ifs
    · exact .inr ⟨hu, rfl⟩
    · exact .inl rfl

theorem portClose_cases (zero : M) (ports : Ports M) (h : ℕ) :
    portClose zero ports h = (ports, false, false) ∨
      ((1 ≤ h ∧ h < maxPorts) ∧ (ports h).used = true ∧
        portClose zero ports h = (update ports h (Port.cleared zero),
          decide (0 < (ports h).recvWaiters), decide (0 < (ports h).sendWaiters))) := by
  unfold portClose
  cases hg : portGet ports h with
  | none => exact .inl rfl
  | some =>
    obtain ⟨hr, hu, rfl⟩ := portGet_eq_some.mp hg
    exact .inr ⟨hr, hu, rfl⟩

/-! ## The waiting messages -/

/-- Replacing one port replaces its waiting messages. -/
theorem waitingMsgs_update (ports : Ports M) (i : ℕ) (q : Port M) (h : ℕ) :
    waitingMsgs (update ports i q) h =
      if h = i then (if q.used then q.queue.toList portDepth else []) else waitingMsgs ports h := by
  unfold waitingMsgs
  by_cases hi : h = i
  · subst hi
    rw [update_self, if_pos rfl]
  · rw [update_of_ne hi, if_neg hi]

section

variable (hw : RingsWF ports)
include hw

theorem RingsWF.update (hq : q.used = true → q.queue.WF portDepth) :
    RingsWF (update ports i q) := by
  intro h
  by_cases hi : h = i
  · subst hi
    rw [update_self]
    exact hq
  · rw [update_of_ne hi]
    exact hw h

theorem ringsWF_portCreate (ownerPid : ℕ) : RingsWF (portCreate ports ownerPid).1 := by
  obtain he | ⟨i, -, -, he⟩ := portCreate_cases ports ownerPid <;> rw [he]
  · exact hw
  · exact hw.update fun _ => RingBuf.wf_empty _ (by decide)

theorem ringsWF_portSend (h : ℕ) (msg : M) : RingsWF (portSend ports h msg).1 := by
  obtain he | ⟨-, hu, hc, he⟩ := portSend_cases ports h msg <;> rw [he]
  · exact hw
  · exact hw.update fun _ => (hw h hu).push hc

theorem ringsWF_portRecvTry (h : ℕ) (block : Bool) : RingsWF (portRecvTry ports h block).1 := by
  obtain he | ⟨-, hu, hc, he⟩ | ⟨-, hu, -, -, he⟩ := portRecvTry_cases ports h block <;> rw [he]
  · exact hw
  · exact hw.update fun _ => (hw h hu).pop hc
  · exact hw.update fun _ => hw h hu

theorem ringsWF_portRecvWoken (h : ℕ) : RingsWF (portRecvWoken ports h) := by
  obtain he | ⟨hu, he⟩ := portRecvWoken_cases ports h <;> rw [he]
  · exact hw
  · exact hw.update fun _ => hw h hu

theorem ringsWF_portClose (zero : M) (h : ℕ) : RingsWF (portClose zero ports h).1 := by
  obtain he | ⟨-, -, he⟩ := portClose_cases zero ports h <;> rw [he]
  · exact hw
  · exact hw.update fun hu => absurd hu (by simp [Port.cleared])

end

theorem waitingMsgs_portCreate (ports : Ports M) (ownerPid h : ℕ) :
    waitingMsgs (portCreate ports ownerPid).1 h = waitingMsgs ports h := by
  obtain he | ⟨i, -, hun, he⟩ := portCreate_cases ports ownerPid <;> rw [he]
  rw [waitingMsgs_update]
  by_cases hi : h = i
  · simp [hi, waitingMsgs, hun, RingBuf.toList]
  · simp [hi]

/-- **A send appends** to the messages of its port. -/
theorem waitingMsgs_portSend (hw : RingsWF ports) (k : ℕ) (msg : M) (h : ℕ) :
    waitingMsgs (portSend ports k msg).1 h = waitingMsgs ports h ++
      if h = k ∧ (portSend ports k msg).2.1 = true then [msg] else [] := by
  obtain he | ⟨-, hu, hc, he⟩ := portSend_cases ports k msg <;> rw [he]
  · simp
  · rw [waitingMsgs_update]
    by_cases hi : h = k
    · subst hi
      simp [waitingMsgs, hu, RingBuf.toList_push (hw h hu) hc]
    · simp [hi]

/-- **A receive takes the first message** of its port. -/
theorem waitingMsgs_portRecvTry (hw : RingsWF ports) (k : ℕ) (block : Bool) (h : ℕ) :
    waitingMsgs ports h = (if h = k then (portRecvTry ports k block).2.taken else []) ++
      waitingMsgs (portRecvTry ports k block).1 h := by
  obtain he | ⟨-, hu, hc, he⟩ | ⟨-, hu, -, -, he⟩ := portRecvTry_cases ports k block <;> rw [he]
  · simp [RecvPass.taken]
  · rw [waitingMsgs_update]
    by_cases hi : h = k
    · subst hi
      simp [waitingMsgs, hu, RecvPass.taken, RingBuf.toList_pop hc (hw h hu).head]
    · simp [hi]
  · rw [waitingMsgs_update]
    by_cases hi : h = k
    · subst hi
      simp [waitingMsgs, RecvPass.taken]
    · simp [hi]

/-- A message that is received was waiting. -/
theorem mem_waitingMsgs_of_got (hw : RingsWF ports)
    (hg : (portRecvTry ports h block).2 = .got d wake) : d ∈ waitingMsgs ports h := by
  rw [waitingMsgs_portRecvTry hw h block h, hg]
  simp [RecvPass.taken]

theorem waitingMsgs_portRecvWoken (ports : Ports M) (k h : ℕ) :
    waitingMsgs (portRecvWoken ports k) h = waitingMsgs ports h := by
  obtain he | ⟨-, he⟩ := portRecvWoken_cases ports k <;> rw [he]
  rw [waitingMsgs_update]
  by_cases hi : h = k
  · simp [hi, waitingMsgs]
  · simp [hi]

theorem waitingMsgs_portClose (zero : M) (ports : Ports M) (k h : ℕ) :
    waitingMsgs (portClose zero ports k).1 h = waitingMsgs ports h ∨
      h = k ∧ waitingMsgs (portClose zero ports k).1 h = [] := by
  obtain he | ⟨-, -, he⟩ := portClose_cases zero ports k <;> rw [he]
  · exact .inl rfl
  · rw [waitingMsgs_update]
    by_cases hi : h = k
    · exact .inr ⟨hi, by simp [hi, Port.cleared]⟩
    · exact .inl (if_neg hi)

/-! ## Which ports are open -/

theorem used_update (hq : q.used = (ports i).used) (h : ℕ) :
    (update ports i q h).used = (ports h).used := by
  by_cases hi : h = i
  · subst hi
    rw [update_self, hq]
  · rw [update_of_ne hi]

theorem used_portSend (ports : Ports M) (k : ℕ) (msg : M) (h : ℕ) :
    ((portSend ports k msg).1 h).used = (ports h).used := by
  obtain he | ⟨-, -, -, he⟩ := portSend_cases ports k msg <;> rw [he]
  exact used_update (by rfl) h

theorem used_portRecvTry (ports : Ports M) (k : ℕ) (block : Bool) (h : ℕ) :
    ((portRecvTry ports k block).1 h).used = (ports h).used := by
  obtain he | ⟨-, -, -, he⟩ | ⟨-, -, -, -, he⟩ := portRecvTry_cases ports k block <;> rw [he]
  · exact used_update (by rfl) h
  · exact used_update (by rfl) h

theorem used_portRecvWoken (ports : Ports M) (k h : ℕ) :
    (portRecvWoken ports k h).used = (ports h).used := by
  obtain he | ⟨-, he⟩ := portRecvWoken_cases ports k <;> rw [he]
  exact used_update (by rfl) h

/-! ## First in, first out -/

/-- A section under `ipc_lock`.  A `port_recv` is any number of passes, with `recvWoken` between
them; other sections come in between. -/
inductive Section (M : Type*) where
  | create (ownerPid : ℕ)
  | send (h : ℕ) (msg : M)
  | recvTry (h : ℕ) (block : Bool)
  | recvWoken (h : ℕ)
  | close (h : ℕ)

/-- The ports, with the messages that were stored in one of them and those taken out of it. -/
structure Traffic (M : Type*) where
  ports : Ports M
  sent : List M
  received : List M

/-- The state after `ipc_init`. -/
def Traffic.init (zero : M) : Traffic M := ⟨fun _ => Port.cleared zero, [], []⟩

/-- One section, by any process, and what it moves through port `h`. -/
def Traffic.step (zero : M) (h : ℕ) (s : Traffic M) : Section M → Traffic M
  | .create ownerPid => { s with ports := (portCreate s.ports ownerPid).1 }
  | .send k msg =>
    let r := portSend s.ports k msg
    { s with ports := r.1, sent := s.sent ++ if h = k ∧ r.2.1 = true then [msg] else [] }
  | .recvTry k block =>
    let r := portRecvTry s.ports k block
    { s with ports := r.1, received := s.received ++ if h = k then r.2.taken else [] }
  | .recvWoken k => { s with ports := portRecvWoken s.ports k }
  | .close k => { s with ports := (portClose zero s.ports k).1 }

/-- Port `h` is open, and what was sent is what was received and then what waits. -/
structure Carries (h : ℕ) (s : Traffic M) : Prop where
  rings : RingsWF s.ports
  opened : (s.ports h).used = true
  fifo : s.sent = s.received ++ waitingMsgs s.ports h

variable {s : Traffic M} {zero : M} {a : Section M}

theorem ringsWF_step (hw : RingsWF s.ports) (zero : M) (h : ℕ) (a : Section M) :
    RingsWF (s.step zero h a).ports := by
  cases a with
  | create ownerPid => exact ringsWF_portCreate hw ownerPid
  | send k msg => exact ringsWF_portSend hw k msg
  | recvTry k block => exact ringsWF_portRecvTry hw k block
  | recvWoken k => exact ringsWF_portRecvWoken hw k
  | close k => exact ringsWF_portClose hw zero k

/-- **A section that does not close the port keeps the order.** -/
theorem Carries.step (hi : Carries h s) (ha : a ≠ .close h) : Carries h (s.step zero h a) := by
  refine ⟨ringsWF_step hi.rings zero h a, ?_, ?_⟩
  · cases a with
    | create ownerPid =>
      obtain he | ⟨i, -, -, he⟩ := portCreate_cases s.ports ownerPid <;>
        simp only [Traffic.step, he]
      · exact hi.opened
      · by_cases hhi : h = i
        · simp [hhi]
        · simpa [hhi] using hi.opened
    | send k msg => exact (used_portSend s.ports k msg h).trans hi.opened
    | recvTry k block => exact (used_portRecvTry s.ports k block h).trans hi.opened
    | recvWoken k => exact (used_portRecvWoken s.ports k h).trans hi.opened
    | close k =>
      have hk : h ≠ k := fun he => ha (he ▸ rfl)
      obtain he | ⟨-, -, he⟩ := portClose_cases zero s.ports k <;> simp only [Traffic.step, he]
      · exact hi.opened
      · simpa [hk] using hi.opened
  · cases a with
    | create => simp [Traffic.step, waitingMsgs_portCreate, hi.fifo]
    | send => simp [Traffic.step, waitingMsgs_portSend hi.rings, hi.fifo]
    | recvTry =>
      simp only [Traffic.step]
      rw [List.append_assoc, ← waitingMsgs_portRecvTry hi.rings]
      exact hi.fifo
    | recvWoken => simp [Traffic.step, waitingMsgs_portRecvWoken, hi.fifo]
    | close k =>
      rcases waitingMsgs_portClose zero s.ports k h with he | ⟨he, -⟩
      · simp [Traffic.step, he, hi.fifo]
      · exact absurd (he ▸ rfl) ha

theorem ringsWF_foldl (hw : RingsWF s.ports) (zero : M) (h : ℕ) (as : List (Section M)) :
    RingsWF (as.foldl (Traffic.step zero h) s).ports := by
  induction as generalizing s with
  | nil => exact hw
  | cons a as ih => exact ih (ringsWF_step hw zero h a)

/-- A new port carries nothing. -/
theorem Carries.created (hw : RingsWF old) (hopen : portCreate old ownerPid = (ports, h))
    (hh : h ≠ 0) :
    (1 ≤ h ∧ h < maxPorts) ∧ Carries h ⟨ports, [], []⟩ := by
  have hrings := ringsWF_portCreate hw ownerPid
  obtain he | ⟨i, hr, -, he⟩ := portCreate_cases old ownerPid
  · exact absurd (congrArg Prod.snd (hopen.symm.trans he)) hh
  obtain ⟨rfl, rfl⟩ := Prod.mk.inj (hopen.symm.trans he)
  rw [he] at hrings
  exact ⟨hr, hrings, by simp, by simp [waitingMsgs, RingBuf.toList]⟩

/-- **Ports are first in, first out.**  A port is opened in any state that sections lead to from
`ipc_init`; after it come any sections of any processes that do not close it.  Then the messages
sent are those received, in the same order, followed by those that wait; the indices of the ring
fit together; and a send fails exactly if 64 messages wait. -/
theorem port_fifo {before sections : List (Section M)} {ownerPid : ℕ}
    (hopen : portCreate (before.foldl (Traffic.step zero 0) (.init zero)).ports ownerPid = (ports, h))
    (hh : h ≠ 0) (hclose : .close h ∉ sections) :
    let t := sections.foldl (Traffic.step zero h) ⟨ports, [], []⟩
    let q := (t.ports h).queue
    t.sent = t.received ++ q.toList 64 ∧ q.tail = (q.head + q.count) % 64 ∧ q.count ≤ 64 ∧
      ∀ msg, (portSend t.ports h msg).2.1 = false ↔ q.count = 64 := by
  have hinit : RingsWF (Traffic.init zero).ports := fun k hk => by cases hk
  obtain ⟨hr, hstart⟩ := Carries.created (ringsWF_foldl hinit zero 0 before) hopen hh
  have hend : Carries h (sections.foldl (Traffic.step zero h) ⟨ports, [], []⟩) :=
    List.foldlRecOn sections _ hstart fun s hs a ha => hs.step fun he => hclose (he ▸ ha)
  intro t q
  obtain ⟨-, htail, hcount⟩ := hend.rings h hend.opened
  refine ⟨?_, htail, hcount, fun msg => ?_⟩
  · rw [hend.fifo, waitingMsgs, if_pos hend.opened]
    rfl
  · rw [portSend, portGet_eq_some.mpr ⟨hr, hend.opened, rfl⟩]
    dsimp only
    split_ifs with hfull
    · exact iff_of_true rfl (le_antisymm hcount hfull)
    · exact iff_of_false (fun he => by cases he) fun he => hfull he.ge

/-- Two messages and a receive: the first one comes out. -/
theorem port_fifo_two :
    let t := [Section.send 1 7, .send 1 8, .recvTry 1 true].foldl (Traffic.step 0 1)
      ⟨(portCreate (Traffic.init 0).ports 5).1, [], []⟩
    t.sent = [7, 8] ∧ t.received = [7] ∧ t.sent = t.received ++ (t.ports 1).queue.toList 64 :=
  ⟨rfl, rfl, (port_fifo (show portCreate ([].foldl (Traffic.step 0 0) (.init 0)).ports 5 = _ from rfl)
    (by decide) (by simp)).1⟩

end Xos.Ipc
