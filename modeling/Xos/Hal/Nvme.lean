import Mathlib.Data.Nat.Bitwise
import Mathlib.Data.List.Nodup
import Xos.Lib.Run

/-!
# Commands to the disk

`kernel/hal/block/nvme.c`: `nvme_read_block` and `nvme_write_block` take a bounce frame for each
block, submit a command that names it, and poll the completion queue for an entry with the number of
the command (CID).

* **The driver** — `allocCid`, `ioRead`, `ioWrite`, the two halves `submit` and `matched` of
  `submit_io`, and where the loops of a call stand (`Pc`);
* **The controller** — it has the commands that were submitted and not completed (`outstanding`), and
  completes any of them at any time, with an entry in the next slot of the completion queue;
* **Names** — commands are counted as they are submitted, so that a command is known by its
  `serial` and not only by its CID, which is used again.

As long as no polling loop runs out, every command is matched with its own completion and no frame is
freed that the controller may still write to (`io_matches`).  After a timeout neither holds:
`timeout_frees_live_frame`.

What the transfers move is left out, and so are locks, barriers and the interrupt.
-/

namespace Xos.Hal.Nvme

open Xos.Lib Function

/-! ## The driver -/

/-- `nvme_cmd_t`, without the words that are always zero. -/
structure Cmd where
  dw0 : ℕ
  nsid : ℕ
  prp1 : ℕ
  cdw10 : ℕ
  cdw11 : ℕ
  cdw12 : ℕ
  deriving DecidableEq

/-- `nvme_cqe_t`, as far as `submit_io` reads it. -/
structure Cqe where
  cid : ℕ
  phaseStatus : ℕ

/-- The part of `nvme_ctrl_t` for commands to the disk. -/
structure Ctrl where
  ioSq : ℕ → Cmd
  ioSqTail : ℕ
  ioCq : ℕ → Cqe
  ioCqHead : ℕ
  ioCqPhase : ℕ
  nsid : ℕ
  lbaShift : ℕ
  nextCid : ℕ

/-- `io_sq_size`. -/
def ioSqSize : ℕ := 64

/-- `io_cq_size`. -/
def ioCqSize : ℕ := 64

/-- The turns of the polling loop. -/
def maxSpins : ℕ := 100000000

/-- `alloc_cid`. -/
def allocCid (c : Ctrl) : ℕ × Ctrl :=
  let cid := c.nextCid
  let next := (cid + 1) % 2 ^ 16
  (cid, { c with nextCid := if next = 0 then 1 else next })

/-- The command that `io_read` and `io_write` build. -/
def ioCommand (opcode : ℕ) (c : Ctrl) (cid lba count bufPhys : ℕ) : Cmd where
  dw0 := opcode ||| cid <<< 16
  nsid := c.nsid
  prp1 := bufPhys
  cdw10 := lba % 2 ^ 32
  cdw11 := lba / 2 ^ 32 % 2 ^ 32
  cdw12 := (count + 2 ^ 32 - 1) % 2 ^ 32

/-- The command of `io_read`, with `IO_OPCODE_READ`. -/
def ioRead : Ctrl → ℕ → ℕ → ℕ → ℕ → Cmd := ioCommand 2

/-- The command of `io_write`, with `IO_OPCODE_WRITE`. -/
def ioWrite : Ctrl → ℕ → ℕ → ℕ → ℕ → Cmd := ioCommand 1

/-- `my_cid`. -/
def Cmd.cid (cmd : Cmd) : ℕ := cmd.dw0 / 2 ^ 16 % 2 ^ 16

/-- The status that the polling loop takes, if the entry at the head is for the command.  Either
phase is accepted. -/
def matched (c : Ctrl) (cmd : Cmd) : Option ℕ :=
  let cqe := c.ioCq c.ioCqHead
  let phase := cqe.phaseStatus % 2
  if cqe.cid = cmd.cid ∧ (phase = c.ioCqPhase ∨ phase = c.ioCqPhase ^^^ 1) then
    some (cqe.phaseStatus / 2 % 2 ^ 15)
  else none

/-- The head moves on. -/
def advance (c : Ctrl) : Ctrl :=
  let head := (c.ioCqHead + 1) % ioCqSize
  { c with
    ioCqHead := head
    ioCqPhase := if head = 0 then c.ioCqPhase ^^^ 1 else c.ioCqPhase }

/-! ## Runs -/

inductive Op where
  | read
  | write
  deriving DecidableEq

/-- A call of `nvme_read_block` or `nvme_write_block`. -/
structure Call where
  op : Op
  lba : ℕ
  count : ℕ
  deriving DecidableEq

/-- Where the driver is. -/
inductive Pc where
  | idle
  /-- Before block `i` of the call. -/
  | loop (call : Call) (i : ℕ)
  /-- In the polling loop of `submit_io`, after so many turns. -/
  | polling (call : Call) (i bounce serial : ℕ) (cmd : Cmd) (spins : ℕ)
  deriving DecidableEq

structure State where
  ctrl : Ctrl
  pc : Pc
  /-- The number of commands that were submitted. -/
  serial : ℕ
  /-- The commands that the controller has not completed. -/
  outstanding : List (ℕ × Cmd)
  /-- The slot of the next completion. -/
  cqTail : ℕ
  /-- The commands that were completed, with their status. -/
  done : List (ℕ × ℕ)

inductive Label where
  | call (op : Op) (lba count : ℕ)
  /-- The next block of the call, where `pmm_alloc_frame` returns `bounce`. -/
  | turn (bounce : ℕ)
  /-- A turn of the polling loop, or its end. -/
  | poll
  /-- The controller completes a command. -/
  | complete (k phaseStatus : ℕ)

/-- What a step lets others see. -/
inductive Event where
  | quiet
  /-- The call returns. -/
  | returned (ok : Bool)
  /-- `submit_io` returns, and the bounce frame is given back. -/
  | finished (serial bounce : ℕ) (ok : Bool)

/-- The first half of `submit_io`: the command is stored, and the doorbell rung. -/
def submit (s : State) (cmd : Cmd) : State :=
  { s with
    ctrl := { s.ctrl with
      ioSq := update s.ctrl.ioSq s.ctrl.ioSqTail cmd
      ioSqTail := (s.ctrl.ioSqTail + 1) % ioSqSize }
    serial := s.serial + 1
    outstanding := s.outstanding ++ [(s.serial, cmd)] }

/-- The command for block `i` of a call. -/
def Call.command (call : Call) (c : Ctrl) (cid i bounce : ℕ) : Cmd :=
  let nvmeLba := (call.lba + i) * 2 ^ (12 - c.lbaShift) % 2 ^ 64
  let sectors := 2 ^ (12 - c.lbaShift)
  match call.op with
  | .read => ioRead c cid nvmeLba sectors bounce
  | .write => ioWrite c cid nvmeLba sectors bounce

/-- After `submit_io`: the frame is freed, and the call goes on or returns. -/
def finish (s : State) (call : Call) (i bounce serial : ℕ) (ok : Bool) : Event × State :=
  (.finished serial bounce ok, { s with pc := if ok then .loop call (i + 1) else .idle })

/-- The state after a step, and what can be seen of it. -/
def exec (s : State) : Label → Option (Event × State)
  | .call op lba count =>
    match s.pc with
    | .idle => some (.quiet, { s with pc := .loop ⟨op, lba, count⟩ 0 })
    | _ => none
  | .turn bounce =>
    match s.pc with
    | .loop call i =>
      if i < call.count then
        if bounce = 0 then some (.returned false, { s with pc := .idle })
        else
          let (cid, ctrl) := allocCid s.ctrl
          let cmd := call.command ctrl cid i bounce
          some (.quiet, { submit { s with ctrl := ctrl } cmd with
            pc := .polling call i bounce s.serial cmd 0 })
      else some (.returned true, { s with pc := .idle })
    | _ => none
  | .poll =>
    match s.pc with
    | .polling call i bounce serial cmd spins =>
      if spins < maxSpins then
        match matched s.ctrl cmd with
        | none => some (.quiet, { s with pc := .polling call i bounce serial cmd (spins + 1) })
        | some status =>
          some (finish { s with ctrl := advance s.ctrl } call i bounce serial
            (decide (status = 0)))
      else some (finish s call i bounce serial false)
    | _ => none
  | .complete k phaseStatus =>
    match s.outstanding[k]? with
    | none => none
    | some (serial, cmd) =>
      some (.quiet, { s with
        ctrl := { s.ctrl with
          ioCq := update s.ctrl.ioCq s.cqTail ⟨cmd.cid, phaseStatus⟩ }
        cqTail := (s.cqTail + 1) % ioCqSize
        outstanding := s.outstanding.eraseIdx k
        done := (serial, phaseStatus / 2 % 2 ^ 15) :: s.done })

def Step (s : State) (l : Label) (t : State) : Prop := ∃ e, exec s l = some (e, t)

/-- No polling loop runs out: it turns only while there are turns left. -/
def Guard (s : State) (l : Label) : Prop :=
  match l, s.pc with
  | .poll, .polling _ _ _ _ _ spins => spins < maxSpins
  | _, _ => True

/-- After `nvme_probe`, whose five commands had the numbers from 1 on. -/
def probed (lbaShift : ℕ) : State where
  ctrl :=
    { ioSq := fun _ => ⟨0, 0, 0, 0, 0, 0⟩, ioSqTail := 0, ioCq := fun _ => ⟨0, 0⟩, ioCqHead := 0,
      ioCqPhase := 0, nsid := 1, lbaShift := lbaShift, nextCid := 6 }
  pc := .idle
  serial := 0
  outstanding := []
  cqTail := 0
  done := []

/-! ## Numbers of commands -/

/-- The CID of the command with a serial number. -/
def cidAt (n : ℕ) : ℕ := (n + 5) % 65535 + 1

theorem cidAt_lt (n : ℕ) : 0 < cidAt n ∧ cidAt n < 2 ^ 16 := by
  unfold cidAt
  omega

variable {n bounce : ℕ} {cq : ℕ → Cqe} {cmd : Cmd}

/-- CIDs come back after 65535 commands, and not earlier. -/
theorem cidAt_ne (hlt : m < n) (hnear : n < m + 65535) : cidAt m ≠ cidAt n := by
  unfold cidAt
  omega

/-- `alloc_cid` goes through the CIDs in order. -/
theorem allocCid_spec (h : c.nextCid = cidAt n) :
    allocCid c = (cidAt n, { c with nextCid := cidAt (n + 1) }) := by
  have hnext : (if (cidAt n + 1) % 2 ^ 16 = 0 then 1 else (cidAt n + 1) % 2 ^ 16) =
      cidAt (n + 1) := by
    unfold cidAt
    split <;> omega
  unfold allocCid
  dsimp only
  rw [h, hnext]

theorem cid_ioCommand (hop : opcode < 2 ^ 16) (hcid : cid < 2 ^ 16) (c : Ctrl)
    (lba count bufPhys : ℕ) : (ioCommand opcode c cid lba count bufPhys).cid = cid := by
  show (opcode ||| cid <<< 16) / 2 ^ 16 % 2 ^ 16 = cid
  rw [Nat.or_comm, ← Nat.shiftLeft_add_eq_or_of_lt hop]
  omega

theorem cid_command (hcid : cid < 2 ^ 16) (call : Call) (c : Ctrl) (i bounce : ℕ) :
    (call.command c cid i bounce).cid = cid ∧ (call.command c cid i bounce).prp1 = bounce := by
  unfold Call.command
  cases call.op with
  | read | write => exact ⟨cid_ioCommand (by decide) hcid .., rfl⟩

/-! ## The invariant -/

/-- Slot `p` has not been used, or was last used by one of the last 64 commands before `n`. -/
def Stale (n : ℕ) (cq : ℕ → Cqe) (p : ℕ) : Prop :=
  (cq p).cid = 0 ∨ ∃ m, m % ioCqSize = p ∧ m < n ∧ n ≤ m + ioCqSize ∧ (cq p).cid = cidAt m

theorem Stale.cid_ne (h : Stale n cq p) :
    (cq p).cid ≠ cidAt n := by
  rcases h with h | ⟨m, -, hlt, hle, h⟩
  · rw [h]
    exact (cidAt_lt n).1.ne
  rw [h]
  unfold ioCqSize at hle
  exact cidAt_ne hlt (by omega)

/-- The slot of another command is as old for the next command. -/
theorem Stale.succ (h : Stale n cq p) (hp : p ≠ n % ioCqSize) :
    Stale (n + 1) cq p := by
  rcases h with h | ⟨m, hm, hlt, hle, h⟩
  · exact .inl h
  refine .inr ⟨m, hm, by omega, ?_, h⟩
  by_contra hgt
  apply hp
  rw [← hm, show n = m + ioCqSize by omega, Nat.add_mod_right]

theorem Stale.update (h : Stale n cq p) (hne : p ≠ q) :
    Stale n (update cq q x) p := by
  unfold Stale
  rw [update_of_ne hne]
  exact h

/-- The queues between two commands: everything is completed and taken. -/
structure Quiet (s : State) : Prop where
  outstanding : s.outstanding = []
  head : s.ctrl.ioCqHead = s.serial % ioCqSize
  tail : s.cqTail = s.ctrl.ioCqHead
  stale : ∀ p < ioCqSize, Stale s.serial s.ctrl.ioCq p

/-- The queues while the last command is polled for. -/
structure Waiting (s : State) (n bounce : ℕ) (cmd : Cmd) : Prop where
  serial : s.serial = n + 1
  cid : cmd.cid = cidAt n
  prp1 : cmd.prp1 = bounce
  head : s.ctrl.ioCqHead = n % ioCqSize
  stale : ∀ p < ioCqSize, p ≠ n % ioCqSize → Stale n s.ctrl.ioCq p
  /-- The command is outstanding, or its completion is in the queue. -/
  state : (s.outstanding = [(n, cmd)] ∧ s.cqTail = n % ioCqSize ∧
      Stale n s.ctrl.ioCq (n % ioCqSize) ∧ ∀ e ∈ s.done, e.1 ≠ n) ∨
    (s.outstanding = [] ∧ s.cqTail = (n + 1) % ioCqSize ∧
      (s.ctrl.ioCq (n % ioCqSize)).cid = cidAt n ∧
      (n, (s.ctrl.ioCq (n % ioCqSize)).phaseStatus / 2 % 2 ^ 15) ∈ s.done)

/-- The queues, by where the driver is. -/
def Queues (s : State) : Prop :=
  match s.pc with
  | .idle => Quiet s
  | .loop _ _ => Quiet s
  | .polling _ _ bounce n cmd _ => Waiting s n bounce cmd

structure Inv (s : State) : Prop where
  cid : s.ctrl.nextCid = cidAt s.serial
  phase : s.ctrl.ioCqPhase < 2
  done_lt : ∀ e ∈ s.done, e.1 < s.serial
  nodup : (s.done.map Prod.fst).Nodup
  queues : Queues s

theorem inv_probed (lbaShift : ℕ) : Inv (probed lbaShift) where
  cid := rfl
  phase := Nat.zero_lt_two
  done_lt := fun _ he => absurd he List.not_mem_nil
  nodup := List.nodup_nil
  queues := ⟨rfl, rfl, rfl, fun _ _ => .inl rfl⟩

namespace Inv

variable {s t : State} {e : Event}

section

variable (h : Inv s)
include h

theorem quiet_of_idle (hpc : s.pc = .idle) : Quiet s := by
  simpa [Queues, hpc] using h.queues

theorem quiet_of_loop (hpc : s.pc = .loop call i) : Quiet s := by
  simpa [Queues, hpc] using h.queues

theorem waiting (hpc : s.pc = .polling call i bounce n cmd spins) : Waiting s n bounce cmd := by
  simpa [Queues, hpc] using h.queues

/-- Between commands the driver may go anywhere but into the polling loop. -/
theorem goto (hq : Quiet s) (hpc : pc = .idle ∨ ∃ call i, pc = .loop call i) :
    Inv { s with pc := pc } :=
  { h with queues := by rcases hpc with rfl | ⟨call, i, rfl⟩ <;> exact { hq with } }

/-! ### Each step -/

theorem call {op : Op} {lba count : ℕ}
    (hexec : exec s (.call op lba count) = some (e, t)) : Inv t ∧ e = .quiet := by
  cases hpc : s.pc with
  | loop | polling => simp [exec, hpc] at hexec
  | idle =>
    simp only [exec, hpc] at hexec
    cases hexec
    exact ⟨h.goto (h.quiet_of_idle hpc) (.inr ⟨_, _, rfl⟩), rfl⟩

/-- A command is submitted. -/
theorem submit (hq : Quiet s) (call : Call) (i bounce : ℕ) :
    let cmd := call.command { s.ctrl with nextCid := cidAt (s.serial + 1) } (cidAt s.serial) i
      bounce
    Inv { Nvme.submit { s with ctrl := { s.ctrl with nextCid := cidAt (s.serial + 1) } } cmd with
      pc := .polling call i bounce s.serial cmd 0 } := by
  obtain ⟨hcid, hprp⟩ := cid_command (cidAt_lt s.serial).2 call
    { s.ctrl with nextCid := cidAt (s.serial + 1) } i bounce
  exact
    { h with
      cid := rfl
      done_lt := fun e he => Nat.lt_succ_of_lt (h.done_lt e he)
      queues :=
        { serial := rfl
          cid := hcid
          prp1 := hprp
          head := hq.head
          stale := fun p hp _ => hq.stale p hp
          state := .inl ⟨by simp [Nvme.submit, hq.outstanding], hq.tail.trans hq.head,
            hq.stale _ (Nat.mod_lt _ (by decide)), fun e he => (h.done_lt e he).ne⟩ } }

theorem turn (hexec : exec s (.turn bounce) = some (e, t)) :
    Inv t ∧ ∀ n b ok, e ≠ .finished n b ok := by
  cases hpc : s.pc with
  | idle | polling => simp [exec, hpc] at hexec
  | loop call i =>
    have hq := h.quiet_of_loop hpc
    simp only [exec, hpc] at hexec
    by_cases hi : i < call.count
    · by_cases hb : bounce = 0
      · rw [if_pos hi, if_pos hb] at hexec
        cases hexec
        exact ⟨h.goto hq (.inl rfl), fun _ _ _ => nofun⟩
      rw [if_pos hi, if_neg hb, allocCid_spec h.cid] at hexec
      cases hexec
      exact ⟨h.submit hq call i bounce, fun _ _ _ => nofun⟩
    · rw [if_neg hi] at hexec
      cases hexec
      exact ⟨h.goto hq (.inl rfl), fun _ _ _ => nofun⟩

/-- The controller completes the command that is polled for, if there is one. -/
theorem complete (hexec : exec s (.complete k phaseStatus) = some (e, t)) : Inv t ∧ e = .quiet := by
  unfold exec at hexec
  dsimp only at hexec
  cases hget : s.outstanding[k]? with
  | none =>
    rw [hget] at hexec
    cases hexec
  | some o =>
    rw [hget] at hexec
    cases hexec
    refine ⟨?_, rfl⟩
    have hquiet : ¬Quiet s := fun hq => by simp [hq.outstanding] at hget
    cases hpc : s.pc with
    | idle => exact absurd (h.quiet_of_idle hpc) hquiet
    | loop => exact absurd (h.quiet_of_loop hpc) hquiet
    | polling call i bounce n cmd =>
      have hw := h.waiting hpc
      rcases hw.state with ⟨hout, htail, -, hfresh⟩ | ⟨hout, -⟩
      · -- it is the only one that is outstanding
        obtain ⟨rfl, rfl⟩ : k = 0 ∧ (n, cmd) = o := by
          simpa [hout, List.getElem?_singleton] using hget
        exact
          { h with
            done_lt := by
              intro e he
              rcases List.mem_cons.mp he with rfl | he
              · exact hw.serial ▸ Nat.lt_succ_self n
              · exact h.done_lt e he
            nodup := by
              rw [List.map_cons, List.nodup_cons]
              exact ⟨by simpa using fun x hx => hfresh _ hx rfl, h.nodup⟩
            queues :=
              { hw with
                stale := fun p hp hne => (hw.stale p hp hne).update (by rwa [htail])
                state := .inr ⟨by simp [hout], by simp [htail], by simp [htail, hw.cid],
                  by simp [htail]⟩ } }
      · simp [hout] at hget

/-- The entry at the head matches when the command was completed, and only then. -/
theorem matched_iff (hw : Waiting s n bounce cmd) :
    matched s.ctrl cmd = some status ↔ (n, status) ∈ s.done := by
  have hphase : ∀ x : ℕ, x % 2 = s.ctrl.ioCqPhase ∨ x % 2 = s.ctrl.ioCqPhase ^^^ 1 := by
    intro x
    have hx := Nat.mod_two_eq_zero_or_one x
    rcases Nat.le_one_iff_eq_zero_or_eq_one.mp (Nat.le_of_lt_succ h.phase) with hp | hp
    · simpa [hp] using hx
    · simpa [hp] using hx.symm
  unfold matched
  rw [hw.head, hw.cid]
  rcases hw.state with ⟨-, -, hstale, hfresh⟩ | ⟨-, -, hcid, hdone⟩
  · rw [if_neg (fun hm => hstale.cid_ne hm.1)]
    refine ⟨nofun, fun hin => absurd rfl (hfresh _ hin)⟩
  rw [if_pos ⟨hcid, hphase _⟩]
  constructor
  · intro heq
    rw [← Option.some.inj heq]
    exact hdone
  · intro hin
    have heq := List.inj_on_of_nodup_map h.nodup hdone hin rfl
    exact congrArg some (Prod.mk.inj heq).2

/-- The completion is taken. -/
theorem advance (hw : Waiting s n bounce cmd) (hdone : ∃ status, (n, status) ∈ s.done)
    (hpc : pc = .idle ∨ ∃ call i, pc = .loop call i) :
    Inv { s with ctrl := Nvme.advance s.ctrl, pc := pc } ∧ s.outstanding = [] := by
  obtain ⟨status, hdone⟩ := hdone
  rcases hw.state with ⟨-, -, -, hfresh⟩ | ⟨hout, htail, hcid, -⟩
  · exact absurd rfl (hfresh _ hdone)
  refine ⟨?_, hout⟩
  have hphase : (Nvme.advance s.ctrl).ioCqPhase < 2 := by
    have hlt := h.phase
    show (if (s.ctrl.ioCqHead + 1) % ioCqSize = 0 then s.ctrl.ioCqPhase ^^^ 1
      else s.ctrl.ioCqPhase) < 2
    split
    · exact Nat.xor_lt_two_pow (n := 1) hlt (by decide)
    · exact hlt
  have hhead : (Nvme.advance s.ctrl).ioCqHead = (n + 1) % ioCqSize := by
    show (s.ctrl.ioCqHead + 1) % ioCqSize = _
    rw [hw.head, Nat.mod_add_mod]
  have hq : Quiet { s with ctrl := Nvme.advance s.ctrl } :=
    { outstanding := hout
      head := by rw [hhead, hw.serial]
      tail := htail.trans hhead.symm
      stale := by
        intro p hp
        rw [hw.serial]
        by_cases hne : p = n % ioCqSize
        · exact .inr ⟨n, hne.symm, Nat.lt_succ_self n, by unfold ioCqSize; omega, hne ▸ hcid⟩
        · exact (hw.stale p hp hne).succ hne }
  have hinv : Inv { s with ctrl := Nvme.advance s.ctrl, pc := .idle } :=
    { h with
      phase := hphase
      queues := { hq with } }
  exact hinv.goto { hq with } hpc

/-- A turn of the polling loop. -/
theorem poll (hg : Guard s .poll) (hexec : exec s .poll = some (e, t)) :
    Inv t ∧ ∀ n b ok, e = .finished n b ok →
      s.outstanding = [] ∧ ∃ status, (n, status) ∈ s.done ∧ (ok = true ↔ status = 0) := by
  cases hpc : s.pc with
  | idle | loop => simp [exec, hpc] at hexec
  | polling call i bounce n cmd =>
    have hw := h.waiting hpc
    simp only [exec, Guard, hpc] at hexec hg
    rw [if_pos hg] at hexec
    cases hm : matched s.ctrl cmd with
    | none =>
      rw [hm] at hexec
      cases hexec
      exact ⟨{ h with queues := { hw with } }, nofun⟩
    | some status =>
      rw [hm] at hexec
      have hdone := (h.matched_iff hw).mp hm
      cases hexec
      have hpc' : ∀ b : Bool, (if b then Pc.loop call (i + 1) else .idle) = .idle ∨
          ∃ call' i', (if b then Pc.loop call (i + 1) else .idle) = .loop call' i' := by
        intro b
        cases b <;> simp
      obtain ⟨hinv, hout⟩ := h.advance hw ⟨status, hdone⟩ (hpc' (decide (status = 0)))
      refine ⟨hinv, ?_⟩
      intro n' b' ok heq
      obtain ⟨rfl, rfl, rfl⟩ := Event.finished.inj heq
      exact ⟨hout, status, hdone, decide_eq_true_iff⟩

/-- **One step.** -/
theorem step (hg : Guard s l) (hexec : exec s l = some (e, t)) :
    Inv t ∧ ∀ n b ok, e = .finished n b ok →
      s.outstanding = [] ∧ ∃ status, (n, status) ∈ s.done ∧ (ok = true ↔ status = 0) := by
  cases l with
  | call =>
    obtain ⟨hinv, rfl⟩ := h.call hexec
    exact ⟨hinv, nofun⟩
  | turn =>
    obtain ⟨hinv, hne⟩ := h.turn hexec
    exact ⟨hinv, fun n b ok heq => absurd heq (hne n b ok)⟩
  | poll => exact h.poll hg hexec
  | complete =>
    obtain ⟨hinv, rfl⟩ := h.complete hexec
    exact ⟨hinv, nofun⟩

end

end Inv

/-! ## The result -/

/-- **Commands and completions.**  In a run in which no polling loop runs out, every command is
completed at most once; when `submit_io` returns for command `n`, the controller has completed that
command, with status zero if and only if `submit_io` returns true, and no outstanding command names
the bounce frame that is freed; and a command that was completed is matched at the next turn. -/
theorem io_matches {lbaShift : ℕ} {ls : List Label} {s : State}
    (hrun : Run Step Guard (probed lbaShift) ls s) :
    (s.done.map Prod.fst).Nodup ∧
    (∀ l n b ok t, Guard s l → exec s l = some (.finished n b ok, t) →
      (∃ status, (n, status) ∈ s.done ∧ (ok = true ↔ status = 0)) ∧
        ∀ c ∈ s.outstanding, c.2.prp1 ≠ b) ∧
    ∀ call i b n cmd spins status, s.pc = .polling call i b n cmd spins → spins < maxSpins →
      (n, status) ∈ s.done → ∃ t, exec s .poll = some (.finished n b (decide (status = 0)), t) := by
  have h : Inv s := by
    refine hrun.invariant (inv_probed lbaShift) ?_
    intro s l t h hg hstep
    obtain ⟨e, hexec⟩ := hstep
    exact (h.step hg hexec).1
  refine ⟨h.nodup, ?_, ?_⟩
  · intro l n b ok t hg hexec
    obtain ⟨hout, hstatus⟩ := (h.step hg hexec).2 n b ok rfl
    exact ⟨hstatus, by simp [hout]⟩
  · intro call i b n cmd spins status hpc hlt hdone
    have hm := (h.matched_iff (h.waiting hpc)).mpr hdone
    simp only [exec, hpc, if_pos hlt, hm]
    exact ⟨_, rfl⟩

/-- The commands of two calls of `nvme_write_block`. -/
def writeCmds : Cmd × Cmd :=
  (ioWrite (probed 9).ctrl 6 0 8 0x5000, ioWrite (probed 9).ctrl 7 0 8 0x6000)

theorem first_write :
    ((exec (probed 9) (.call .write 0 1)).bind fun a => (exec a.2 (.turn 0x5000)).bind fun b =>
      (exec b.2 (.complete 0 1)).map fun c => decide (c.2.done = [(0, 0)] ∧
        c.2.pc = .polling ⟨.write, 0, 1⟩ 0 0x5000 0 writeCmds.1 0)) = some true := by
  decide +kernel

/-- A block is written. -/
theorem write_matches : ∃ s t,
    Run Step Guard (probed 9) [.call .write 0 1, .turn 0x5000, .complete 0 1] s ∧
      exec s .poll = some (.finished 0 0x5000 true, t) := by
  obtain ⟨⟨_, a⟩, ha, hrest⟩ := Option.bind_eq_some_iff.mp first_write
  obtain ⟨⟨_, b⟩, hb, hrest⟩ := Option.bind_eq_some_iff.mp hrest
  obtain ⟨⟨_, c⟩, hc, hfacts⟩ := Option.map_eq_some_iff.mp hrest
  obtain ⟨hdone, hpc⟩ := of_decide_eq_true hfacts
  have hrun : Run Step Guard (probed 9) [.call .write 0 1, .turn 0x5000, .complete 0 1] c :=
    Run.cons trivial ⟨_, ha⟩ (Run.cons trivial ⟨_, hb⟩ (Run.cons trivial ⟨_, hc⟩ .nil))
  have hmem : (0, 0) ∈ c.done := by
    rw [hdone]
    exact List.mem_cons_self
  obtain ⟨t, ht⟩ := (io_matches hrun).2.2 _ _ _ _ _ _ _ hpc (by decide) hmem
  exact ⟨c, t, hrun, ht⟩

/-! ## Timeouts -/

section Timeout

variable {s : State} {call : Call} {i b n k : ℕ} {cmd : Cmd}

/-- The polling loop turns without a match. -/
theorem poll_waits (hpc : s.pc = .polling call i b n cmd k) (hm : matched s.ctrl cmd = none) (m : ℕ)
    (hk : k + m ≤ maxSpins) :
    Run Step (fun _ _ => True) s (List.replicate m .poll)
      { s with pc := .polling call i b n cmd (k + m) } := by
  induction m with
  | zero =>
    rw [Nat.add_zero, ← hpc]
    exact .nil
  | succ m ih =>
    rw [List.replicate_succ']
    refine .snoc (ih (by omega)) trivial ⟨.quiet, ?_⟩
    unfold exec
    dsimp only
    rw [if_pos (by omega), hm, Nat.add_assoc]

/-- **The polling loop runs out.**  `submit_io` returns false, and the frame is freed. -/
theorem poll_timeout (hpc : s.pc = .polling call i b n cmd 0) (hm : matched s.ctrl cmd = none) :
    ∃ u, Run Step (fun _ _ => True) s (List.replicate maxSpins .poll) u ∧
      u.outstanding = s.outstanding ∧ u.done = s.done ∧
      exec u .poll = some (.finished n b false, { s with pc := .idle }) := by
  refine ⟨_, poll_waits hpc hm maxSpins (by omega), rfl, rfl, ?_⟩
  unfold exec
  dsimp only
  rfl

end Timeout

theorem late_completion :
    ((play exec (probed 9) [.call .write 0 1, .turn 0x5000]).bind fun s =>
      (play exec { s with pc := .idle }
        [.complete 0 1, .call .write 0 1, .turn 0x6000, .complete 0 1]).map fun u =>
      decide (s.pc = .polling ⟨.write, 0, 1⟩ 0 0x5000 0 writeCmds.1 0 ∧
        matched s.ctrl writeCmds.1 = none ∧ s.outstanding = [(0, writeCmds.1)] ∧
        u.pc = .polling ⟨.write, 0, 1⟩ 0 0x6000 1 writeCmds.2 0 ∧
        matched u.ctrl writeCmds.2 = none ∧ u.done = [(1, 0), (0, 0)])) = some true := by
  decide +kernel

/-- **A timeout.**  The controller does not complete the first command while `submit_io` polls: the
bounce frame `0x5000` is freed while the command that names it is outstanding.  The command is
completed later, and its entry stays at the head of the queue.  The next command is completed with
status zero, and `submit_io` returns false for it. -/
theorem timeout_frees_live_frame : ∃ s u v t w,
    Run Step (fun _ _ => True) (probed 9) [.call .write 0 1, .turn 0x5000] s ∧
    Run Step (fun _ _ => True) s (List.replicate maxSpins .poll) u ∧
    exec u .poll = some (.finished 0 0x5000 false, v) ∧
    u.outstanding = [(0, writeCmds.1)] ∧ writeCmds.1.prp1 = 0x5000 ∧
    Run Step (fun _ _ => True) v
      ([.complete 0 1, .call .write 0 1, .turn 0x6000, .complete 0 1] ++
        List.replicate maxSpins .poll) t ∧
    (1, 0) ∈ t.done ∧ exec t .poll = some (.finished 1 0x6000 false, w) := by
  obtain ⟨s, hs, hrest⟩ := Option.bind_eq_some_iff.mp late_completion
  obtain ⟨x, hx, hfacts⟩ := Option.map_eq_some_iff.mp hrest
  obtain ⟨hpc, hm, hout, hpc', hm', hdone⟩ := of_decide_eq_true hfacts
  obtain ⟨u, hu, huout, -, hfree⟩ := poll_timeout hpc hm
  obtain ⟨t, ht, -, htdone, hlost⟩ := poll_timeout hpc' hm'
  refine ⟨s, u, _, t, _, Run.of_play hs, hu, hfree, huout.trans hout, rfl,
    (Run.of_play hx).trans ht, ?_, hlost⟩
  rw [htdone, hdone]
  exact List.mem_cons_self

end Xos.Hal.Nvme
