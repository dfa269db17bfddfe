import Xos.Sched.Channels

/-!
# Poll and select

`sys_poll` and `sys_select` over the scheduler, with `selrecord` and `selwakeuppri` of the BSD
compatibility layer.  Both calls are one loop: name the caller's wait channel in a global, ask
every descriptor, clear the global, and block on the channel if none was ready.  A descriptor that
is not ready stores the channel that the global names *then* in its `selinfo`, which has room for
one; `selwakeuppri` wakes the channel it finds there.

`missed p x` is bookkeeping the kernel does not have: `selwakeuppri` was called on `x` since `p`
last asked about it.

* **Wake-ups reach the pollers** where a descriptor is asked only while the global names the
  caller's channel and nobody else listens at its `selinfo`, and a wake finds its poller asleep —
  `poll_wakeups_complete`.
* Without that, two pollers of one socket are enough: the second takes the place of the first —
  `second_poller_displaces`.
-/

namespace Xos.Poll

open Xos.Lib Xos.Sched Function

variable {n : ℕ}

/-! ## The model -/

/-- Where a process is in `sys_poll` or `sys_select`.  A descriptor is the list of the `selinfo`s
it is asked about: those of the receive and the send buffer of its socket. -/
inductive Pc where
  /-- In neither. -/
  | user
  /-- At the head of the loop, for the descriptors `fds`. -/
  | start (fds : List (List ℕ))
  /-- Has asked `done` and has still to ask `todo`; `found` says whether one was ready. -/
  | scanning (done todo : List (List ℕ)) (found : Bool)
  /-- About to call `sched_block_on`. -/
  | toBlock (fds : List (List ℕ))
  /-- In `sched_block_on`, or back from it. -/
  | blocked (fds : List (List ℕ))
  deriving DecidableEq

/-- Where a CPU is in `selwakeuppri`. -/
inductive Waker where
  | idle
  /-- Has read the channel `chan` from `x` and is about to wake it. -/
  | waking (x chan : ℕ)
  /-- Has woken it and is about to clear the slot of `x`. -/
  | clearing (x : ℕ)
  deriving DecidableEq

/-- The machine, the slots of the `selinfo`s, which of them are ready, the global, and where each
process and each CPU is.  `chan p` is the address of `wait_chan` on the stack of `p`. -/
structure State (n : ℕ) where
  mach : Machine n
  siMtx : ℕ → Option ℕ
  ready : ℕ → Bool
  gSelectChan : Option ℕ
  pc : ProcId → Pc
  waker : Fin n → Waker
  chan : ProcId → ℕ
  missed : ProcId → ℕ → Bool

/-- Process `p` goes on to `k`. -/
def State.goto (s : State n) (p : ProcId) (k : Pc) : State n :=
  { s with pc := update s.pc p k }

/-- CPU `c` goes on to `w`. -/
def State.wakerTo (s : State n) (c : Fin n) (w : Waker) : State n :=
  { s with waker := update s.waker c w }

/-- `selrecord(td, x)`. -/
def selrecord (s : State n) (x : ℕ) : State n :=
  match s.gSelectChan with
  | some chan => { s with siMtx := update s.siMtx x (some chan) }
  | none => s

/-- `xos_poll_fd` on a socket: whether it is ready; if not, its `selinfo`s are recorded. -/
def pollFd (s : State n) (fd : List ℕ) : State n × Bool :=
  if fd.any s.ready then (s, true) else (fd.foldl selrecord s, false)

/-- Process `p` has asked about the `selinfo`s of `fd`. -/
def State.asked (s : State n) (p : ProcId) (fd : List ℕ) : State n :=
  { s with missed := update s.missed p fun x => if x ∈ fd then false else s.missed p x }

/-- One turn of the scan. -/
def scanOne (s : State n) (p : ProcId) (done : List (List ℕ)) (fd : List ℕ)
    (todo : List (List ℕ)) (found : Bool) : State n :=
  let r := pollFd s fd
  (r.1.asked p fd).goto p (.scanning (done ++ [fd]) todo (found || r.2))

/-- The end of the scan; `expired` says whether the timeout is over. -/
def scanEnd (s : State n) (p : ProcId) (fds : List (List ℕ)) (found expired : Bool) : State n :=
  { s with gSelectChan := none }.goto p (if found || expired then .user else .toBlock fds)

/-- `x` becomes ready, and `selwakeuppri(x)` on CPU `c` reads its slot. -/
def selwakeuppri (s : State n) (c : Fin n) (x : ℕ) : State n :=
  let s := { s with
    ready := update s.ready x true
    missed := fun p => update (s.missed p) x true }
  match s.siMtx x with
  | some chan => s.wakerTo c (.waking x chan)
  | none => s

/-- One step of a process, of a CPU, or of the scheduler. -/
inductive Label (n : ℕ) where
  | sched (l : Sched.Label n)
  | poll (c : Fin n) (p : ProcId) (fds : List (List ℕ))
  | setChan (c : Fin n) (p : ProcId)
  | scanOne (c : Fin n) (p : ProcId)
  | scanEnd (c : Fin n) (p : ProcId) (expired : Bool)
  | block (c : Fin n) (p : ProcId) (hz tick : ℕ) (now : ProcId → ℕ)
  /-- Back from `sched_block_on`, to the head of the loop. -/
  | retry (c : Fin n) (p : ProcId)
  | selwakeuppri (c : Fin n) (x : ℕ)
  | wakeChan (c : Fin n)
  | clearSlot (c : Fin n)
  /-- The data is consumed: `x` is not ready any more. -/
  | consumed (x : ℕ)

/-- A process inside `sys_poll` or `sys_select`. -/
def State.busy (s : State n) (p : ProcId) : Prop := s.pc p ≠ .user

/-- The steps of the system. -/
inductive Step (s : State n) : Label n → State n → Prop
  | sched {l m} (hb : Background s.busy s.mach l) (hm : Sched.Step s.mach l m) :
      Step s (.sched l) { s with mach := m }
  | poll {c p fds} (hp : Executes s.mach c p) (hpc : s.pc p = .user) :
      Step s (.poll c p fds) (s.goto p (.start fds))
  | setChan {c p fds} (hp : Executes s.mach c p) (hpc : s.pc p = .start fds) :
      Step s (.setChan c p)
        ({ s with gSelectChan := some (s.chan p) }.goto p (.scanning [] fds false))
  | scanOne {c p done fd todo found} (hp : Executes s.mach c p)
      (hpc : s.pc p = .scanning done (fd :: todo) found) :
      Step s (.scanOne c p) (scanOne s p done fd todo found)
  | scanEnd {c p fds found expired} (hp : Executes s.mach c p)
      (hpc : s.pc p = .scanning fds [] found) :
      Step s (.scanEnd c p expired) (scanEnd s p fds found expired)
  | block {c p fds hz tick now m} (hp : Executes s.mach c p) (hpc : s.pc p = .toBlock fds)
      (hm : Sched.Step s.mach (.schedBlockOn c (s.chan p) 10 hz tick now) m) :
      Step s (.block c p hz tick now) ({ s with mach := m }.goto p (.blocked fds))
  | retry {c p fds} (hp : Executes s.mach c p) (hpc : s.pc p = .blocked fds) :
      Step s (.retry c p) (s.goto p (.start fds))
  | selwakeuppri {c x} (hc : s.mach.act c = .run) (hw : s.waker c = .idle) :
      Step s (.selwakeuppri c x) (selwakeuppri s c x)
  | wakeChan {c x chan m} (hw : s.waker c = .waking x chan)
      (hm : Sched.Step s.mach (.schedWakeChan c chan) m) :
      Step s (.wakeChan c) ({ s with mach := m }.wakerTo c (.clearing x))
  | clearSlot {c x} (hw : s.waker c = .clearing x) :
      Step s (.clearSlot c)
        ({ s with siMtx := update s.siMtx x none }.wakerTo c .idle)
  | consumed {x} : Step s (.consumed x) { s with ready := update s.ready x false }

/-- A running system in which nobody is in these calls. -/
structure Initial (s : State n) : Prop where
  reached : Reached s.mach
  pc : ∀ p, s.pc p = .user
  waker : ∀ c, s.waker c = .idle

/-- Process `p` sleeps in the call, and has `x` among its descriptors. -/
def Asleep (s : State n) (p : ProcId) (x : ℕ) : Prop :=
  ∃ fds, s.pc p = .blocked fds ∧ (∃ fd ∈ fds, x ∈ fd) ∧ blockedOn s.mach p = some (s.chan p)

/-- Process `p` has asked about `x`, has found nothing ready so far, and has not blocked yet. -/
def Pc.asking (x : ℕ) : Pc → Prop
  | .scanning done _ false => ∃ fd ∈ done, x ∈ fd
  | .toBlock fds => ∃ fd ∈ fds, x ∈ fd
  | _ => False

/-- Process `p` counts on a wake-up from `x`. -/
def Listens (s : State n) (p : ProcId) (x : ℕ) : Prop := (s.pc p).asking x ∨ Asleep s p x

/-- A CPU is in a `selwakeuppri` on `x`. -/
def Waker.on (x : ℕ) : Waker → Prop
  | .waking y _ | .clearing y => y = x
  | .idle => False

/-- The use under which wake-ups are complete.  A descriptor that is not ready is asked only while
the global names the caller's channel, nobody else listens there and no `selwakeuppri` is under
way; and `selwakeuppri` wakes its channel only when nobody who has asked has still to block. -/
def Guard (s : State n) : Label n → Prop
  | .scanOne _ p => ∀ done fd todo found, s.pc p = .scanning done (fd :: todo) found →
      fd.any s.ready = false → s.gSelectChan = some (s.chan p) ∧ ∀ x ∈ fd,
        (∀ q, q ≠ p → ¬ Listens s q x) ∧ ∀ c, ¬ (s.waker c).on x
  | .wakeChan c => ∀ x chan, s.waker c = .waking x chan → ∀ p, ¬ (s.pc p).asking x
  | _ => True

/-! ## The invariant -/

/-- What holds between any two steps of a guarded run. -/
structure Inv (s : State n) : Prop where
  mach : Undisturbed s.mach
  /-- Who listens at `x` is the one recorded there. -/
  slot : ∀ p x, Listens s p x → s.siMtx x = some (s.chan p)
  /-- A wake under way is for whoever listens. -/
  waking : ∀ c x chan p, s.waker c = .waking x chan → Listens s p x → chan = s.chan p
  /-- After it nobody listens. -/
  clearing : ∀ c x p, s.waker c = .clearing x → ¬ Listens s p x
  /-- What a listener has missed is about to wake it. -/
  owed : ∀ p x, Listens s p x → s.missed p x = true → ∃ c chan, s.waker c = .waking x chan

variable {s s' : State n} {c : Fin n} {p q : ProcId} {x : ℕ} {m : Machine n} {fds : List (List ℕ)}
  {found : Bool} {fd : List ℕ}

@[simp] theorem goto_pc_self (k : Pc) : (s.goto p k).pc p = k := update_self ..

@[simp] theorem goto_pc_of_ne (hq : q ≠ p) (k : Pc) : (s.goto p k).pc q = s.pc q :=
  update_of_ne hq ..

/-- A process outside the call does not listen. -/
theorem not_listens (hpc : s.pc p = k) (ha : ¬ k.asking x) (hb : ∀ fds, k ≠ .blocked fds) :
    ¬ Listens s p x := by
  rintro (hl | ⟨fds, hf, -⟩)
  · rw [hpc] at hl
    exact ha hl
  · exact hb fds (hpc.symm.trans hf)

theorem Initial.inv (h : Initial s) : Inv s := by
  have hnone : ∀ p x, ¬ Listens s p x := fun p x => not_listens (h.pc p) id nofun
  exact ⟨h.reached.undisturbed, by simp [hnone], by simp [h.waker], by simp [h.waker],
    by simp [hnone]⟩

/-- **Changes.**  Nobody listens after the step who did not before.  A new wake is for the channel
in the slot, and what a listener has missed is about to wake it. -/
theorem Inv.change (h : Inv s) (hm : Undisturbed s'.mach) (hc : s'.chan = s.chan)
    (hl : ∀ p x, Listens s' p x → Listens s p x)
    (hs : ∀ p x, Listens s' p x → s'.siMtx x = s.siMtx x)
    (hw : ∀ c x chan p, s'.waker c = .waking x chan → Listens s' p x →
      s.waker c = .waking x chan ∨ s.siMtx x = some chan)
    (hcl : ∀ c x p, s'.waker c = .clearing x → Listens s' p x → s.waker c = .clearing x)
    (ho : ∀ p x, Listens s' p x → s'.missed p x = true → (s.missed p x = true ∧
        ∀ c chan, s.waker c = .waking x chan → s'.waker c = .waking x chan) ∨
      ∃ c chan, s'.waker c = .waking x chan) : Inv s' where
  mach := hm
  slot p x hx := by
    rw [hs p x hx, hc]
    exact h.slot p x (hl p x hx)
  waking c x chan p hwk hx := by
    rw [hc]
    rcases hw c x chan p hwk hx with hwk | hslot
    · exact h.waking c x chan p hwk (hl p x hx)
    · exact Option.some.inj (hslot.symm.trans (h.slot p x (hl p x hx)))
  clearing c x p hwk hx := h.clearing c x p (hcl c x p hwk hx) (hl p x hx)
  owed p x hx hmiss := by
    rcases ho p x hx hmiss with ⟨hmiss, hkeep⟩ | hnew
    · obtain ⟨c, chan, hwk⟩ := h.owed p x (hl p x hx) hmiss
      exact ⟨c, chan, hkeep c chan hwk⟩
    · exact hnew

/-- **Fewer listeners.**  A step that leaves the slots and the wakers alone, and after which nobody
listens who did not before, keeps the invariant. -/
theorem Inv.shrink (h : Inv s) (hm : Undisturbed s'.mach) (hs : s'.siMtx = s.siMtx)
    (hw : s'.waker = s.waker) (hc : s'.chan = s.chan)
    (hi : ∀ p x, Listens s' p x → s'.missed p x = s.missed p x)
    (hl : ∀ p x, Listens s' p x → Listens s p x) : Inv s' :=
  h.change hm hc hl (fun _ _ _ => by rw [hs]) (fun _ _ _ _ hwk _ => .inl (hw ▸ hwk))
    (fun _ _ _ hwk _ => hw ▸ hwk) fun p x hx hmiss =>
      .inl ⟨hi p x hx ▸ hmiss, fun _ _ hwk => hw ▸ hwk⟩

/-- Somebody who does not move listens where they did. -/
theorem Listens.of_ne (hx : Listens s' q x) (hpc : s'.pc q = s.pc q) (hc : s'.chan = s.chan)
    (hb : (∃ fds, s.pc q = .blocked fds) → blockedOn s'.mach q = some (s.chan q) →
      blockedOn s.mach q = some (s.chan q)) : Listens s q x := by
  rcases hx with hx | ⟨fds, hf, hfd, hbl⟩
  · rw [hpc] at hx
    exact .inl hx
  rw [hpc] at hf
  rw [hc] at hbl
  exact .inr ⟨fds, hf, hfd, hb ⟨fds, hf⟩ hbl⟩

section

variable (h : Inv s)
include h

theorem Inv.sched (hb : Background s.busy s.mach l) (hm : Sched.Step s.mach l m) :
    Inv { s with mach := m } := by
  refine h.shrink (h.mach.step hm hb.plain) rfl rfl rfl (fun _ _ _ => rfl) fun q x hx => ?_
  refine hx.of_ne rfl rfl ?_
  rintro ⟨fds, hf⟩ hbl
  exact hb.asleep_before h.mach hm (by simp [State.busy, hf]) hbl

/-- A process moves on, and listens nowhere else than before. -/
theorem Inv.goto (hk : ∀ x, k.asking x → (s.pc p).asking x) (hb : ∀ fds, k ≠ .blocked fds) :
    Inv (s.goto p k) := by
  refine h.shrink h.mach rfl rfl rfl (fun _ _ _ => rfl) fun q x hx => ?_
  by_cases hq : q = p
  · subst hq
    rcases hx with hx | ⟨fds, hf, -⟩
    · exact .inl (hk x (by simpa using hx))
    · exact absurd (by simpa using hf) (hb fds)
  · exact hx.of_ne (goto_pc_of_ne hq k) rfl fun _ => id

theorem Inv.setGlobal (g : Option ℕ) : Inv { s with gSelectChan := g } :=
  h.shrink h.mach rfl rfl rfl (fun _ _ _ => rfl) fun _ _ => id

theorem Inv.setReady (r : ℕ → Bool) : Inv { s with ready := r } :=
  h.shrink h.mach rfl rfl rfl (fun _ _ _ => rfl) fun _ _ => id

theorem Inv.scanEnd (hpc : s.pc p = .scanning fds [] found) (expired : Bool) :
    Inv (scanEnd s p fds found expired) := by
  refine (h.setGlobal none).goto ?_ ?_
  · intro x hx
    rw [hpc]
    cases found <;> cases expired <;> first | exact absurd hx id | exact hx
  · split <;> exact nofun

theorem Inv.block (hp : Executes s.mach c p) (hpc : s.pc p = .toBlock fds)
    (hm : Sched.Step s.mach (.schedBlockOn c (s.chan p) ms hz tick now) m) :
    Inv ({ s with mach := m }.goto p (.blocked fds)) := by
  refine h.shrink (h.mach.step hm trivial) rfl rfl rfl (fun _ _ _ => rfl) fun q x hx => ?_
  by_cases hq : q = p
  · subst hq
    rcases hx with hx | ⟨fds', hf, hfd, -⟩
    · simp [Pc.asking] at hx
    · obtain rfl : fds = fds' := by simpa using hf
      exact .inl (by rw [hpc]; exact hfd)
  · refine hx.of_ne (goto_pc_of_ne hq _) rfl fun _ hbl => ?_
    exact (hp.asleep_before h.mach hm hbl).resolve_right fun he => hq he.1

end

/-! ### Asking and recording -/

theorem foldl_selrecord (hg : s.gSelectChan = some g) (fd : List ℕ) :
    fd.foldl selrecord s = { s with siMtx := fun x => if x ∈ fd then some g else s.siMtx x } := by
  induction fd generalizing s with
  | nil => simp
  | cons y fd ih =>
    have hrec : selrecord s y = { s with siMtx := update s.siMtx y (some g) } := by
      unfold selrecord
      rw [hg]
    rw [List.foldl_cons, hrec, ih (by exact hg)]
    congr 1
    funext x
    by_cases hx : x ∈ fd <;> by_cases hy : x = y <;> simp [hy]

/-- A ready descriptor: the process will not block. -/
theorem Inv.scanReady (h : Inv s) :
    Inv ((s.asked p fd).goto p (.scanning (done ++ [fd]) todo true)) := by
  have hne : ∀ q x, Listens ((s.asked p fd).goto p (.scanning (done ++ [fd]) todo true)) q x →
      q ≠ p := by
    rintro q x hx rfl
    exact not_listens (goto_pc_self _) id (by simp) hx
  refine h.shrink h.mach rfl rfl rfl (fun q x hx => ?_) fun q x hx => ?_
  · exact congrFun (update_of_ne (hne q x hx) ..) x
  · exact hx.of_ne (goto_pc_of_ne (hne q x hx) _) rfl fun _ => id

/-- A descriptor that is not ready is recorded. -/
theorem Inv.scanRecord (h : Inv s) (hpc : s.pc p = .scanning done (fd :: todo) found)
    (hg : ∀ x ∈ fd, (∀ q, q ≠ p → ¬ Listens s q x) ∧ ∀ c, ¬ (s.waker c).on x) :
    Inv (({ s with siMtx := fun x => if x ∈ fd then some (s.chan p) else s.siMtx x }.asked p
      fd).goto p (.scanning (done ++ [fd]) todo found)) := by
  set t := ({ s with siMtx := fun x => if x ∈ fd then some (s.chan p) else s.siMtx x }.asked p
    fd).goto p (.scanning (done ++ [fd]) todo found) with ht
  -- a listener is an old one elsewhere, or the process itself
  have hcases : ∀ q x, Listens t q x → (x ∉ fd ∧ Listens s q x) ∨ (x ∈ fd ∧ q = p) := by
    intro q x hx
    by_cases hq : q = p
    · subst hq
      by_cases hfd : x ∈ fd
      · exact .inr ⟨hfd, rfl⟩
      refine .inl ⟨hfd, .inl ?_⟩
      rcases hx with hx | ⟨fds, hf, -⟩
      · rw [goto_pc_self] at hx
        rw [hpc]
        cases found with
        | true => exact absurd hx id
        | false => simpa [Pc.asking, exists_or, hfd] using hx
      · simp [ht] at hf
    · have hx' : Listens s q x := hx.of_ne (goto_pc_of_ne hq _) rfl fun _ => id
      refine .inl ⟨fun hfd => (hg x hfd).1 q hq hx', hx'⟩
  refine ⟨h.mach, ?_, ?_, ?_, ?_⟩
  · intro q x hx
    show (if x ∈ fd then some (s.chan p) else s.siMtx x) = some (s.chan q)
    rcases hcases q x hx with ⟨hfd, hx⟩ | ⟨hfd, rfl⟩
    · rw [if_neg hfd]
      exact h.slot q x hx
    · rw [if_pos hfd]
  · intro c x chan q hw hx
    rcases hcases q x hx with ⟨hfd, hx⟩ | ⟨hfd, rfl⟩
    · exact h.waking c x chan q hw hx
    · exact absurd (hw ▸ rfl : (s.waker c).on x) ((hg x hfd).2 c)
  · intro c x q hw hx
    rcases hcases q x hx with ⟨hfd, hx⟩ | ⟨hfd, rfl⟩
    · exact h.clearing c x q hw hx
    · exact (hg x hfd).2 c (hw ▸ rfl : (s.waker c).on x)
  · intro q x hx hmiss
    change update s.missed p _ q x = true at hmiss
    rcases hcases q x hx with ⟨hfd, hx⟩ | ⟨hfd, rfl⟩
    · refine h.owed q x hx ?_
      by_cases hq : q = p
      · subst hq
        simpa [hfd] using hmiss
      · simpa [hq] using hmiss
    · simp [hfd] at hmiss

theorem Inv.scanOne (h : Inv s) (hpc : s.pc p = .scanning done (fd :: todo) found)
    (hg : fd.any s.ready = false → s.gSelectChan = some (s.chan p) ∧ ∀ x ∈ fd,
      (∀ q, q ≠ p → ¬ Listens s q x) ∧ ∀ c, ¬ (s.waker c).on x) :
    Inv (scanOne s p done fd todo found) := by
  unfold Poll.scanOne pollFd
  cases hr : fd.any s.ready with
  | true =>
    simp only [if_pos, Bool.or_true]
    exact h.scanReady
  | false =>
    obtain ⟨hchan, hx⟩ := hg hr
    simp only [Bool.false_eq_true, if_false, Bool.or_false]
    rw [foldl_selrecord hchan]
    exact h.scanRecord hpc hx

/-! ### Waking -/

@[simp] theorem wakerTo_self (w : Waker) : (s.wakerTo c w).waker c = w := update_self ..

@[simp] theorem wakerTo_of_ne (hc : c' ≠ c) (w : Waker) : (s.wakerTo c w).waker c' = s.waker c' :=
  update_of_ne hc ..

/-- The CPUs other than `c` are where they were. -/
theorem wakerTo_cases (h : (s.wakerTo c w).waker c' = w') :
    (c' ≠ c ∧ s.waker c' = w') ∨ (c' = c ∧ w = w') := by
  by_cases hc : c' = c
  · subst hc
    exact .inr ⟨rfl, (wakerTo_self w).symm.trans h⟩
  · exact .inl ⟨hc, (wakerTo_of_ne hc w).symm.trans h⟩

theorem Inv.selwakeuppri (h : Inv s) (hw : s.waker c = .idle) (x : ℕ) :
    Inv (selwakeuppri s c x) := by
  unfold Poll.selwakeuppri
  dsimp only
  have hmiss : ∀ p y, y ≠ x → update (s.missed p) x true y = s.missed p y :=
    fun p y hy => update_of_ne hy ..
  cases hs : s.siMtx x with
  | none =>
    -- nobody is recorded, so nobody listens
    refine h.shrink h.mach rfl rfl rfl (fun p y hy => ?_) fun p y => id
    refine hmiss p y ?_
    rintro rfl
    have hslot := h.slot p y hy
    simp [hs] at hslot
  | some chan =>
    refine h.change h.mach rfl (fun _ _ => id) (fun _ _ _ => rfl) ?_ ?_ ?_
    · intro c' y chan' p hwk _
      rcases wakerTo_cases hwk with ⟨-, hwk⟩ | ⟨-, ⟨⟩⟩
      exacts [.inl hwk, .inr hs]
    · intro c' y p hwk _
      exact ((wakerTo_cases hwk).resolve_right (by simp)).2
    · intro p y hl hm
      by_cases hy : y = x
      · subst hy
        exact .inr ⟨c, chan, wakerTo_self _⟩
      refine .inl ⟨(hmiss p y hy).symm.trans hm, fun c' chan' hc' => (wakerTo_of_ne ?_ _).trans hc'⟩
      rintro rfl
      simp [hw] at hc'

theorem Inv.wakeChan (h : Inv s) (hw : s.waker c = .waking x chan) (hg : ∀ p, ¬ (s.pc p).asking x)
    (hm : Sched.Step s.mach (.schedWakeChan c chan) m) :
    Inv ({ s with mach := m }.wakerTo c (.clearing x)) := by
  have hund := h.mach.step hm trivial
  obtain ⟨-, ev, hex⟩ := hm
  have hplain : (Sched.Label.schedWakeChan c chan).Plain := trivial
  have hold : ∀ p y, Listens ({ s with mach := m }.wakerTo c (.clearing x)) p y →
      Listens s p y := by
    intro p y hl
    refine hl.of_ne rfl rfl fun _ hbl => ?_
    exact (asleep_before h.mach hplain hex hbl).resolve_right nofun
  -- whoever listened was asleep on this very channel
  have hnone : ∀ p, ¬ Listens ({ s with mach := m }.wakerTo c (.clearing x)) p x := by
    intro p hl
    have hchan := h.waking c x chan p hw (hold p x hl)
    rcases hl with hl | ⟨fds, -, -, hbl⟩
    · exact hg p hl
    refine not_asleep_of_wake h.mach hex p ?_
    rw [hchan]
    exact hbl
  refine h.change hund rfl hold (fun _ _ _ => rfl) ?_ ?_ fun p y hl hmiss =>
    .inl ⟨hmiss, fun c' chan' hc' => (wakerTo_of_ne ?_ _).trans hc'⟩
  · intro c' y chan' p hwk _
    exact .inl ((wakerTo_cases hwk).resolve_right (by simp)).2
  · intro c' y p hwk hl
    rcases wakerTo_cases hwk with ⟨-, hwk⟩ | ⟨-, ⟨⟩⟩
    exacts [hwk, absurd hl (hnone p)]
  · rintro rfl
    rw [hw] at hc'
    cases hc'
    exact hnone p hl

theorem Inv.clearSlot (h : Inv s) (hw : s.waker c = .clearing x) :
    Inv ({ s with siMtx := update s.siMtx x none }.wakerTo c .idle) := by
  refine h.change h.mach rfl (fun _ _ => id) ?_ ?_ ?_ fun p y hl hmiss =>
    .inl ⟨hmiss, fun c' chan' hc' => (wakerTo_of_ne ?_ _).trans hc'⟩
  · intro p y hl
    have hy : y ≠ x := by
      rintro rfl
      exact h.clearing c y p hw hl
    exact update_of_ne hy ..
  · intro c' y chan' p hwk _
    exact .inl ((wakerTo_cases hwk).resolve_right (by simp)).2
  · intro c' y p hwk _
    exact ((wakerTo_cases hwk).resolve_right (by simp)).2
  · rintro rfl
    simp [hw] at hc'

/-- **Every guarded step keeps the invariant.** -/
theorem Inv.step (h : Inv s) (hg : Guard s l) (hs : Step s l s') : Inv s' := by
  cases hs with
  | sched hb hm => exact h.sched hb hm
  | poll | retry => exact h.goto (fun x hx => absurd hx id) nofun
  | setChan =>
    exact (h.setGlobal _).goto (by simp [Pc.asking]) nofun
  | scanOne hp hpc => exact h.scanOne hpc (hg _ _ _ _ hpc)
  | scanEnd hp hpc => exact h.scanEnd hpc _
  | block hp hpc hm => exact h.block hp hpc hm
  | selwakeuppri hc hw => exact h.selwakeuppri hw _
  | wakeChan hw hm => exact h.wakeChan hw (hg _ _ hw) hm
  | clearSlot hw => exact h.clearSlot hw
  | consumed => exact h.setReady _

/-- **Wake-ups reach the pollers.**  In every state that a guarded run reaches: a process that
sleeps in `sys_poll` or `sys_select`, with a socket in its set that became ready after it asked, is
about to be woken by the `selwakeuppri` of that socket; and when a `selwakeuppri` has woken its
channel, no process with the socket in its set sleeps. -/
theorem poll_wakeups_complete {s₀ : State n} {ls : List (Label n)} (h₀ : Initial s₀)
    (hrun : Run Step Guard s₀ ls s) :
    (∀ p x, Asleep s p x → s.missed p x = true → ∃ c, s.waker c = .waking x (s.chan p)) ∧
      ∀ c x, s.waker c = .clearing x → ∀ p, ¬ Asleep s p x := by
  have hi : Inv s := hrun.invariant h₀.inv fun _ _ _ ht hg hs => ht.step hg hs
  refine ⟨fun p x hp hm => ?_, fun c x hw p hp => hi.clearing c x p hw (.inr hp)⟩
  obtain ⟨c, chan, hw⟩ := hi.owed p x (.inr hp) hm
  rw [hi.waking c x chan p hw (.inr hp)] at hw
  exact ⟨c, hw⟩

/-! ## Two processes and a socket -/

local instance twoCpus : NeZero 2 := ⟨two_ne_zero⟩

/-- Two processes on two CPUs, no socket ready. -/
def twoPollers : State 2 where
  mach := twoThreads
  siMtx _ := none
  ready _ := false
  gSelectChan := none
  pc _ := .user
  waker _ := .idle
  chan p := 100 + p
  missed _ _ := false

theorem twoPollers_initial : Initial twoPollers := ⟨twoThreads_reached, fun _ => rfl, fun _ => rfl⟩

/-- The machine on which the first process sleeps in its call. -/
@[irreducible] def oneAsleep : Machine 2 :=
  twoThreads.after (.schedBlockOn 0 102 10 100 0 fun _ => 0)

theorem oneAsleep_step :
    Sched.Step twoThreads (.schedBlockOn 0 102 10 100 0 fun _ => 0) oneAsleep := by
  unfold oneAsleep
  exact twoThreads_left.step_block twoThreads_reached.undisturbed _ _ _ _ _

theorem oneAsleep_undisturbed : Undisturbed oneAsleep :=
  twoThreads_reached.undisturbed.step oneAsleep_step trivial

theorem oneAsleep_right : Executes oneAsleep 1 3 := by decide +kernel

/-- Process `p` has asked about `selinfo` 7 alone, found it not ready, and sleeps. -/
def pollSleep (s : State 2) (p : ProcId) (m : Machine 2) : State 2 :=
  let s := { s.goto p (.start [[7]]) with gSelectChan := some (s.chan p) }.goto p
    (.scanning [] [[7]] false)
  let s := scanEnd (scanOne s p [] [7] [] false) p [[7]] false false
  { s with mach := m }.goto p (.blocked [[7]])

/-- The steps of the first process. -/
def pollLabels (c : Fin 2) (p : ProcId) : List (Label 2) :=
  [.poll c p [[7]], .setChan c p, .scanOne c p, .scanEnd c p false, .block c p 100 0 fun _ => 0]

theorem firstSleeps_run : Run Step Guard twoPollers (pollLabels 0 2)
    (pollSleep twoPollers 2 oneAsleep) := by
  refine Run.cons trivial (.poll twoThreads_left rfl) <|
    Run.cons trivial (.setChan twoThreads_left rfl) <|
    Run.cons ?_ (.scanOne twoThreads_left rfl) <|
    Run.cons trivial (.scanEnd twoThreads_left rfl) <|
    Run.cons trivial (.block twoThreads_left rfl oneAsleep_step) .nil
  -- nobody else is in the call
  intro done fd todo found _ _
  refine ⟨rfl, fun x _ => ⟨fun q hq => ?_, fun c => id⟩⟩
  have hpc := (goto_pc_of_ne hq (.scanning [] [[7]] false)).trans
    (goto_pc_of_ne (s := twoPollers) hq (.start [[7]]))
  exact not_listens hpc id nofun

/-- The machine after a wake of the first process. -/
@[irreducible] def oneAwake : Machine 2 := oneAsleep.after (.schedWakeChan 1 102)

theorem oneAwake_step : Sched.Step oneAsleep (.schedWakeChan 1 102) oneAwake := by
  unfold oneAwake
  exact oneAsleep_right.step_wake oneAsleep_undisturbed _

/-- One process sleeps on a socket; the socket becomes ready; the process is awake. -/
theorem poller_woken : Asleep (pollSleep twoPollers 2 oneAsleep) 2 7 ∧
      ∃ s : State 2, Run Step Guard (pollSleep twoPollers 2 oneAsleep)
        [.selwakeuppri 1 7, .wakeChan 1] s ∧ ¬ Asleep s 2 7 := by
  have hasleep : Asleep (pollSleep twoPollers 2 oneAsleep) 2 7 :=
    ⟨[[7]], rfl, ⟨[7], by simp, by simp⟩, by decide +kernel⟩
  have hrun : Run Step Guard (pollSleep twoPollers 2 oneAsleep) [.selwakeuppri 1 7, .wakeChan 1]
      ({ selwakeuppri (pollSleep twoPollers 2 oneAsleep) 1 7 with mach := oneAwake }.wakerTo 1
        (.clearing 7)) := by
    refine Run.cons trivial (.selwakeuppri oneAsleep_right.act rfl) <|
      Run.cons ?_ (.wakeChan rfl oneAwake_step) .nil
    -- the only process in the call sleeps
    intro x chan _ p
    have hpc : ∀ p : ProcId, (selwakeuppri (pollSleep twoPollers 2 oneAsleep) 1 7).pc p = .user ∨
        (selwakeuppri (pollSleep twoPollers 2 oneAsleep) 1 7).pc p = .blocked [[7]] := by
      decide +kernel
    rcases hpc p with he | he <;> rw [he] <;> exact id
  refine ⟨hasleep, _, hrun, ?_⟩
  exact (poll_wakeups_complete twoPollers_initial (firstSleeps_run.trans hrun)).2 1 7
    (wakerTo_self _) 2

/-- The machine on which both processes sleep, and the first CPU has saved its context. -/
@[irreducible] def bothAsleep : Machine 2 :=
  (oneAsleep.after (.contextSaved 0)).after (.schedBlockOn 1 103 10 100 0 fun _ => 0)

/-- The machine after a wake of the second. -/
@[irreducible] def secondAwake : Machine 2 := bothAsleep.after (.schedWakeChan 0 103)

/-- **The second poller displaces the first.**  Two processes poll the same socket and sleep; the
socket becomes ready and `selwakeuppri` runs to its end.  The first process sleeps on, although the
socket in its set is ready and became so after it asked. -/
theorem second_poller_displaces : ∃ (s : State 2) (ls : List (Label 2)), Initial twoPollers ∧
      Run Step (fun _ _ => True) twoPollers ls s ∧ Asleep s 2 7 ∧ s.missed 2 7 = true ∧
      s.ready 7 = true ∧ ∀ c, s.waker c = .idle := by
  have hen : enabled oneAsleep (.contextSaved 0) := by
    show (oneAsleep.act 0).saved.isSome = true
    decide +kernel
  have hsaved := oneAsleep_undisturbed.step_after hen trivial
  have hund := oneAsleep_undisturbed.step hsaved trivial
  have hright : Executes (oneAsleep.after (.contextSaved 0)) 1 3 := by decide +kernel
  have hboth : Sched.Step (oneAsleep.after (.contextSaved 0))
      (.schedBlockOn 1 103 10 100 0 fun _ => 0) bothAsleep := by
    unfold bothAsleep
    exact hright.step_block hund _ _ _ _ _
  have hact : bothAsleep.act 0 = .run := by decide +kernel
  have hwake : Sched.Step bothAsleep (.schedWakeChan 0 103) secondAwake := by
    unfold secondAwake
    exact (hund.step hboth trivial).step_after hact trivial
  have hsched : Step (pollSleep twoPollers 2 oneAsleep) (.sched (.contextSaved 0))
      { pollSleep twoPollers 2 oneAsleep with mach := oneAsleep.after (.contextSaved 0) } :=
    .sched ⟨trivial, nofun⟩ hsaved
  have hsecond : ∃ s : State 2, Run Step (fun _ _ => True)
      { pollSleep twoPollers 2 oneAsleep with mach := oneAsleep.after (.contextSaved 0) }
      (pollLabels 1 3 ++ [.selwakeuppri 0 7, .wakeChan 0, .clearSlot 0]) s ∧ s.mach = secondAwake ∧
      s.pc 2 = .blocked [[7]] ∧ s.chan 2 = 102 ∧ s.missed 2 7 = true ∧ s.ready 7 = true ∧
      s.waker 0 = .idle ∧ s.waker 1 = .idle :=
    ⟨_, Run.cons trivial (.poll hright rfl) <| Run.cons trivial (.setChan hright rfl) <|
      Run.cons trivial (.scanOne hright rfl) <| Run.cons trivial (.scanEnd hright rfl) <|
      Run.cons trivial (.block hright rfl hboth) <| Run.cons trivial (.selwakeuppri hact rfl) <|
      Run.cons trivial (.wakeChan rfl hwake) <| Run.cons trivial (.clearSlot rfl) .nil,
      rfl, rfl, rfl, rfl, rfl, rfl, rfl⟩
  obtain ⟨s, hrun, hm, hpc, hchan, hmiss, hready, hw0, hw1⟩ := hsecond
  refine ⟨s, _, twoPollers_initial, (firstSleeps_run.mono fun _ _ _ => trivial).trans
    (Run.cons trivial hsched hrun), ⟨[[7]], hpc, ⟨[7], by simp, by simp⟩, ?_⟩, hmiss, hready, ?_⟩
  · rw [hm, hchan]
    decide +kernel
  · intro c
    fin_cases c
    exacts [hw0, hw1]

end Xos.Poll
