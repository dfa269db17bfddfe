import Xos.Lib.Count
import Xos.Lib.RingBuf
import Xos.Lib.Run

/-!
# Pipes

`kernel/ipc/pipe.c` with the calls that create and end processes.  The two descriptors of pipe `i`
are the numbers `64 + 2 * i` and `64 + 2 * i + 1` for every process: there is no table of
descriptors, and the code counts the holders of an end without knowing them.  The model keeps them:
`holds p fd` says that process `p` was given descriptor `fd` by its own `pipe_create`, or was forked
from a process that held it, and has not closed it since.

* **The counts are right** where descriptors are closed by those who hold them, processes end with
  nothing held, and a process that forks holds every end in use of the pipes it created, and nothing
  of others — `pipe_ends_counted`.
* `proc_exit` does not close anything, and so the counts of a process that just exits stay —
  `ends_of_the_dead`.
-/

namespace Xos.Pipes

open Xos.Lib Function

/-! ## The model -/

/-- `PIPE_MAX`, `PIPE_BUF_SIZE`, `PIPE_FD_BASE`. -/
def pipeMax : ℕ := 16
def pipeBufSize : ℕ := 4096
def pipeFdBase : ℤ := 64

/-- A process id: a slot of the process table. -/
abbrev Pid := Fin 256

/-- `pipe_t`; `ring` is `buf`, `read_pos`, `write_pos` and `data_bytes`. -/
structure Pipe where
  used : Bool
  creatorPid : ℕ
  readRefs : ℕ
  writeRefs : ℕ
  ring : RingBuf (BitVec 8)

/-- The pipes, the processes, and who holds which descriptor. -/
structure State where
  pipes : ℕ → Pipe
  alive : Pid → Bool
  holds : Pid → ℤ → Bool

/-- The two ends of a pipe. -/
inductive End where
  | read
  | write
  deriving DecidableEq

/-- The descriptor of an end of pipe `i`. -/
def fdOf (i : ℕ) : End → ℤ
  | .read => pipeFdBase + i * 2
  | .write => pipeFdBase + i * 2 + 1

/-- `read_refs` or `write_refs`. -/
def Pipe.refs (p : Pipe) : End → ℕ
  | .read => p.readRefs
  | .write => p.writeRefs

/-- The end that a descriptor number names: `(fd - PIPE_FD_BASE) & 1`. -/
def endOf (fd : ℤ) : End := if (fd - pipeFdBase) % 2 = 0 then .read else .write

/-- `pipe_lookup(fd)`: the index of the pipe. -/
def pipeLookup (pipes : ℕ → Pipe) (fd : ℤ) : Option ℕ :=
  if fd < pipeFdBase ∨ pipeFdBase + pipeMax * 2 ≤ fd then none
  else
    let idx := ((fd - pipeFdBase) / 2).toNat
    if (pipes idx).used then some idx else none

/-- The slot that `pipe_alloc` takes. -/
def freePipe (pipes : ℕ → Pipe) : Option ℕ := (List.range pipeMax).find? fun i => !(pipes i).used

/-- A pipe as `pipe_alloc` leaves it. -/
def freshPipe (pid : ℕ) : Pipe where
  used := true
  creatorPid := pid
  readRefs := 1
  writeRefs := 1
  ring := ⟨fun _ => 0, 0, 0, 0⟩

/-- The increment of a reference count that is not zero, in 32 bits. -/
def bump (refs : ℕ) : ℕ := if refs ≠ 0 then (refs + 1) % 2 ^ 32 else refs

/-- `pipe_fork_inherit(parent_pid)` on one pipe. -/
def inheritOne (parentPid : ℕ) (p : Pipe) : Pipe :=
  if p.used = false then p
  else if p.creatorPid ≠ parentPid then p
  else { p with readRefs := bump p.readRefs, writeRefs := bump p.writeRefs }

/-- `pipe_fork_inherit(parent_pid)`. -/
def pipeForkInherit (pipes : ℕ → Pipe) (parentPid : ℕ) (i : ℕ) : Pipe :=
  if i < pipeMax then inheritOne parentPid (pipes i) else pipes i

/-- `pipe_close` on the pipe it found. -/
def closeEnd (p : Pipe) (e : End) : Pipe :=
  let p := match e with
    | .read => { p with readRefs := p.readRefs - 1 }
    | .write => { p with writeRefs := p.writeRefs - 1 }
  if p.readRefs = 0 ∧ p.writeRefs = 0 then { p with used := false } else p

/-- `pipe_close(fd)`. -/
def pipeClose (pipes : ℕ → Pipe) (fd : ℤ) : ℕ → Pipe :=
  match pipeLookup pipes fd with
  | none => pipes
  | some i => update pipes i (closeEnd (pipes i) (endOf fd))

/-- What a pass of a loop comes to. -/
inductive Pass where
  /-- The call returns this number. -/
  | ret (r : ℤ)
  /-- The loop goes on. -/
  | again
  deriving DecidableEq

/-- One pass of the loop of `pipe_read(fd, buf, count)`, and the bytes it stores. -/
def pipeReadPass (p : Pipe) (count : ℕ) : Pipe × List (BitVec 8) × Pass :=
  if p.used = false then (p, [], .ret 0)
  else if 0 < p.ring.count then
    let toRead := min count p.ring.count
    ({ p with ring := (RingBuf.pop pipeBufSize)^[toRead] p.ring },
      (p.ring.toList pipeBufSize).take toRead, .ret toRead)
  else if p.writeRefs = 0 then (p, [], .ret 0)
  else (p, [], .again)

/-- One pass of the loop of `pipe_write(fd, src, count)` after `written` bytes, and the bytes
written now; the call returns `(int)written`. -/
def pipeWritePass (p : Pipe) (src : List (BitVec 8)) (written : ℕ) : Pipe × ℕ × Pass :=
  if p.used = false ∨ p.readRefs = 0 then
    (p, written, .ret (if written ≠ 0 then (written : ℤ).bmod (2 ^ 32) else -1))
  else if p.ring.count < pipeBufSize then
    let chunk := (src.drop written).take (pipeBufSize - p.ring.count)
    let p := { p with ring := chunk.foldl (RingBuf.push pipeBufSize) p.ring }
    let written := written + chunk.length
    (p, written, if written < src.length then .again else .ret ((written : ℤ).bmod (2 ^ 32)))
  else (p, written, .again)

/-- The calls of a process. -/
inductive Call where
  | pipeCreate
  /-- `proc_fork` or `proc_clone`, with the slot the child gets. -/
  | fork (child : Pid)
  | close (fd : ℤ)
  /-- `sys_dup` and `sys_dup2`, which touch no pipe. -/
  | dup (fd : ℤ)
  | dup2 (oldfd newfd : ℤ)
  | exec
  | exit
  | kill (target : Pid)
  /-- A pass of `pipe_read` and of `pipe_write`. -/
  | read (fd : ℤ) (count : ℕ)
  | write (fd : ℤ) (src : List (BitVec 8)) (written : ℕ)

/-- Process `p` ends: `proc_exit` does not look at its pipes. -/
def State.ends (s : State) (p : Pid) : State :=
  { s with
    alive := update s.alive p false
    holds := update s.holds p fun _ => false }

/-- `pipe_create` of process `p`. -/
def State.create (s : State) (p : Pid) : State :=
  match freePipe s.pipes with
  | none => s
  | some i =>
    { s with
      pipes := update s.pipes i (freshPipe p)
      holds := update s.holds p fun fd =>
        if fd = fdOf i .read ∨ fd = fdOf i .write then true else s.holds p fd }

/-- `proc_fork` or `proc_clone` of process `p`: the child holds what the parent holds. -/
def State.fork (s : State) (p child : Pid) : State where
  pipes := pipeForkInherit s.pipes p
  alive := update s.alive child true
  holds := update s.holds child (s.holds p)

/-- `sys_close` of process `p`. -/
def State.close (s : State) (p : Pid) (fd : ℤ) : State :=
  { s with
    pipes := pipeClose s.pipes fd
    holds := update s.holds p (update (s.holds p) fd false) }

/-- A pass on the pipe whose end `e` is `fd`. -/
def State.pass (s : State) (fd : ℤ) (e : End) (f : Pipe → Pipe) : State :=
  match pipeLookup s.pipes fd with
  | none => s
  | some i =>
    if endOf fd = e then { s with pipes := update s.pipes i (f (s.pipes i)) } else s

/-- The state after a call of process `p`. -/
def State.call (s : State) (p : Pid) : Call → State
  | .pipeCreate => s.create p
  | .fork child => s.fork p child
  | .close fd => s.close p fd
  | .dup _ | .dup2 _ _ | .exec => s
  | .exit => s.ends p
  | .kill target => s.ends target
  | .read fd count => s.pass fd .read fun q => (pipeReadPass q count).1
  | .write fd src written => s.pass fd .write fun q => (pipeWritePass q src written).1

/-- One call: its process is alive, and a child gets a free slot. -/
def Step (s : State) (a : Pid × Call) (s' : State) : Prop :=
  s.alive a.1 = true ∧ (∀ child, a.2 = .fork child → s.alive child = false) ∧ s' = s.call a.1 a.2

/-- After boot: no pipe, and nobody holds anything. -/
structure Initial (s : State) : Prop where
  pipes : ∀ i, (s.pipes i).used = false
  holds : ∀ p fd, s.holds p fd = false

/-- The use under which the counts are right. -/
def Guard (s : State) (a : Pid × Call) : Prop :=
  match a.2 with
  | .close fd => ∀ i, pipeLookup s.pipes fd = some i → s.holds a.1 fd = true
  | .fork _ => ∀ i e, i < pipeMax → (s.pipes i).used = true →
      (s.holds a.1 (fdOf i e) = true ↔ (s.pipes i).creatorPid = a.1 ∧ (s.pipes i).refs e ≠ 0)
  | .exit => ∀ fd, s.holds a.1 fd = false
  | .kill target => ∀ fd, s.holds target fd = false
  | _ => True

/-! ## Descriptor numbers -/

variable {e : End} {i : ℕ} {fd : ℤ} {pipes : ℕ → Pipe}

theorem fdOf_inj (h : fdOf i e = fdOf j e') : i = j ∧ e = e' := by
  cases e <;> cases e' <;> simp only [fdOf] at h <;> constructor <;> first | rfl | omega

theorem endOf_fdOf (i : ℕ) (e : End) : endOf (fdOf i e) = e := by
  cases e
  · exact if_pos (by simp only [fdOf]; omega)
  · exact if_neg (by simp only [fdOf]; omega)

/-- A descriptor that `pipe_lookup` knows is an end of an open pipe. -/
theorem pipeLookup_some (h : pipeLookup pipes fd = some i) :
    i < pipeMax ∧ (pipes i).used = true ∧ fd = fdOf i (endOf fd) := by
  unfold pipeLookup at h
  dsimp only at h
  split_ifs at h with hr hu
  cases h
  refine ⟨?_, hu, ?_⟩
  · omega
  · unfold endOf
    split_ifs <;> simp only [fdOf] <;> omega

theorem pipeLookup_fdOf (hi : i < pipeMax) (hu : (pipes i).used = true) (e : End) :
    pipeLookup pipes (fdOf i e) = some i := by
  have hidx : ((fdOf i e - pipeFdBase) / 2).toNat = i := by
    cases e <;> simp only [fdOf] <;> omega
  unfold pipeLookup
  rw [if_neg (by cases e <;> simp only [fdOf, pipeMax] at * <;> omega)]
  simp [hidx, hu]

/-! ## The invariant -/

/-- The number of processes that hold a descriptor. -/
def holders (s : State) (fd : ℤ) : ℕ := count fun p => s.holds p fd

/-- The counts of the open pipes are right, and nothing else is held. -/
structure Inv (s : State) : Prop where
  counted : ∀ i e, i < pipeMax → (s.pipes i).used = true → (s.pipes i).refs e = holders s (fdOf i e)
  free : ∀ i e, i < pipeMax → (s.pipes i).used = false → ∀ p, s.holds p (fdOf i e) = false
  dead : ∀ p, s.alive p = false → ∀ fd, s.holds p fd = false

theorem Initial.inv (h : Initial s) : Inv s where
  counted i e _ hu := by simp [h.pipes i] at hu
  free i e _ _ p := h.holds p _
  dead p _ fd := h.holds p fd

variable {s s' : State} {p : Pid} {q : Pipe}

/-! ## The calls keep it -/

/-- One process's descriptor changes hands: the number of holders follows. -/
theorem holders_exchange {h : Pid → ℤ → Bool} (hs' : ∀ x, x ≠ p → h x = s.holds x) (fd : ℤ) :
    (count fun x => h x fd) + (s.holds p fd).toNat = holders s fd + (h p fd).toNat :=
  count_exchange fun x hx => congrFun (hs' x hx) fd

/-- What is held after `p` has given `fd` back. -/
theorem drop_apply (p x : Pid) (fd fd' : ℤ) : update s.holds p (update (s.holds p) fd false) x fd' =
      if x = p ∧ fd' = fd then false else s.holds x fd' := by
  by_cases hx : x = p <;> simp [hx, update_apply]

theorem drop_eq_false (h : s.holds x fd' = false) :
    update s.holds p (update (s.holds p) fd false) x fd' = false := by
  rw [drop_apply, h, ite_self]

/-- One holder less of what was given back, and as many as before of the rest. -/
theorem holders_drop (p : Pid) (fd fd' : ℤ) :
    (count fun x => update s.holds p (update (s.holds p) fd false) x fd') =
      holders s fd' - if fd' = fd then (s.holds p fd).toNat else 0 := by
  have hex := holders_exchange (p := p) (h := update s.holds p (update (s.holds p) fd false))
    (fun x hx => update_of_ne hx ..) fd'
  by_cases hfd : fd' = fd <;> simp [hfd] at hex ⊢ <;> omega

theorem holders_drop_of_ne (p : Pid) (hne : fd' ≠ fd) :
    (count fun x => update s.holds p (update (s.holds p) fd false) x fd') = holders s fd' := by
  rw [holders_drop, if_neg hne, Nat.sub_zero]

theorem closeEnd_refs (q : Pipe) (e e' : End) :
    (closeEnd q e).refs e' = if e' = e then q.refs e' - 1 else q.refs e' := by
  cases e <;> cases e' <;> simp only [closeEnd] <;> split <;> simp [Pipe.refs]

/-- A pipe is given up when both ends are. -/
theorem closeEnd_used (e : End) (hu : q.used = true) :
    (closeEnd q e).used = true ∨ ∀ e', (closeEnd q e).refs e' = 0 := by
  cases e <;> simp only [closeEnd] <;> split
  all_goals next hz =>
    first
    | exact .inl hu
    | exact .inr fun e' => by cases e' <;> simp [Pipe.refs, hz.1, hz.2]

/-- Giving back a descriptor that one holds. -/
theorem Inv.closeHeld (h : Inv s) (hi : i < pipeMax) (hu : (s.pipes i).used = true)
    (hp : s.holds p (fdOf i e) = true) :
    Inv { s with
      pipes := update s.pipes i (closeEnd (s.pipes i) e)
      holds := update s.holds p (update (s.holds p) (fdOf i e) false) } := by
  -- the counts of this pipe follow its holders
  have hthis : ∀ e', (closeEnd (s.pipes i) e).refs e' =
      count fun x => update s.holds p (update (s.holds p) (fdOf i e) false) x (fdOf i e') := by
    intro e'
    rw [closeEnd_refs, h.counted i e' hi hu, holders_drop, hp]
    by_cases hee : e' = e
    · simp [hee]
    · rw [if_neg hee, if_neg fun he => hee (fdOf_inj he).2, Nat.sub_zero]
  refine ⟨fun j e' hj huj => ?_, fun j e' hj huj x => ?_,
    fun x hx fd => drop_eq_false (h.dead x hx fd)⟩
  · simp only [update_apply] at huj ⊢
    split_ifs at huj ⊢ with hji
    · subst hji
      exact hthis e'
    · have hne : fdOf j e' ≠ fdOf i e := fun he => hji (fdOf_inj he).1
      exact (h.counted j e' hj huj).trans (holders_drop_of_ne p hne).symm
  · simp only [update_apply] at huj
    split_ifs at huj with hji
    · -- both counts are zero, so both numbers of holders are
      subst hji
      have hzero := (closeEnd_used e hu).resolve_left (by simp [huj])
      exact count_eq_zero.mp ((hthis e').symm.trans (hzero e')) x
    · exact drop_eq_false (h.free j e' hj huj x)

/-- The pipes stay as they are, and a process gives back what is no end of an open pipe. -/
theorem Inv.closeOther (h : Inv s) (hl : pipeLookup s.pipes fd = none) :
    Inv { s with holds := update s.holds p (update (s.holds p) fd false) } := by
  refine ⟨fun i e hi hu => ?_, fun i e hi hu x => drop_eq_false (h.free i e hi hu x),
    fun x hx fd' => drop_eq_false (h.dead x hx fd')⟩
  have hne : fdOf i e ≠ fd := by
    rintro rfl
    simp [pipeLookup_fdOf hi hu] at hl
  exact (h.counted i e hi hu).trans (holders_drop_of_ne p hne).symm

theorem Inv.close (h : Inv s) (hg : ∀ i, pipeLookup s.pipes fd = some i → s.holds p fd = true) :
    Inv (s.close p fd) := by
  unfold State.close pipeClose
  cases hl : pipeLookup s.pipes fd with
  | none => exact h.closeOther hl
  | some i =>
    obtain ⟨hi, hu, hfd⟩ := pipeLookup_some hl
    have hp := hg i hl
    rw [hfd] at hp ⊢
    rw [endOf_fdOf]
    exact h.closeHeld hi hu hp

theorem freePipe_some (h : freePipe pipes = some i) : i < pipeMax ∧ (pipes i).used = false := by
  exact ⟨List.mem_range.mp (List.mem_of_find?_eq_some h), by simpa using List.find?_some h⟩

theorem Inv.create (h : Inv s) (hp : s.alive p = true) : Inv (s.create p) := by
  unfold State.create
  cases hf : freePipe s.pipes with
  | none => exact h
  | some i =>
    obtain ⟨hi, hfree⟩ := freePipe_some hf
    set h' := update s.holds p fun fd =>
      if fd = fdOf i .read ∨ fd = fdOf i .write then true else s.holds p fd with hh'
    have hother : ∀ x, x ≠ p → h' x = s.holds x := fun x hx => update_of_ne hx ..
    have hself : ∀ j e, h' p (fdOf j e) = if j = i then true else s.holds p (fdOf j e) := by
      intro j e
      rw [hh', update_self]
      by_cases hji : j = i
      · cases e <;> simp [hji]
      · rw [if_neg hji, if_neg]
        rintro (hc | hc) <;> exact hji (fdOf_inj hc).1
    refine ⟨fun j e hj hu => ?_, fun j e hj hu x => ?_, fun x hx fd => ?_⟩
    · show (update s.pipes i _ j).refs e = count fun x => h' x (fdOf j e)
      have hex := holders_exchange hother (fdOf j e)
      rw [hself] at hex
      simp only [update_apply] at hu ⊢
      split_ifs at hu hex ⊢ with hji
      · -- nobody held the free slot, so the creator is the only holder
        subst hji
        have hzero : holders s (fdOf j e) = 0 := count_eq_zero.mpr (h.free j e hj hfree)
        rw [h.free j e hj hfree p, hzero] at hex
        cases e <;> simpa [freshPipe, Pipe.refs] using hex.symm
      · exact (h.counted j e hj hu).trans (Nat.add_right_cancel hex).symm
    · simp only [update_apply] at hu
      split_ifs at hu with hji
      · cases hu
      show h' x (fdOf j e) = false
      obtain rfl | hxp := eq_or_ne x p
      · rw [hself, if_neg hji]
        exact h.free j e hj hu x
      · rw [hother x hxp]
        exact h.free j e hj hu x
    · have hxp : x ≠ p := by
        rintro rfl
        cases hp.symm.trans hx
      show h' x fd = false
      rw [hother x hxp]
      exact h.dead x hx fd

/-- What `pipe_fork_inherit` does to a count, when it is the number of holders. -/
theorem inheritOne_refs (parent : ℕ) (hu : q.used = true) (hle : q.refs e ≤ 256) :
    (inheritOne parent q).refs e =
      q.refs e + (decide (q.creatorPid = parent ∧ q.refs e ≠ 0)).toNat := by
  unfold inheritOne
  rw [if_neg (by rw [hu]; decide)]
  by_cases hc : q.creatorPid = parent
  · rw [if_neg (not_not.mpr hc)]
    cases e <;> simp only [Pipe.refs] at hle ⊢ <;> unfold bump <;> split
    all_goals next hz => simp_all <;> omega
  · simp [hc]

theorem inheritOne_used (parent : ℕ) (q : Pipe) : (inheritOne parent q).used = q.used := by
  unfold inheritOne
  split_ifs <;> rfl

theorem Inv.fork {child : Pid} (h : Inv s) (hc : s.alive child = false)
    (hg : ∀ i e, i < pipeMax → (s.pipes i).used = true →
      (s.holds p (fdOf i e) = true ↔ (s.pipes i).creatorPid = p ∧ (s.pipes i).refs e ≠ 0)) :
    Inv (s.fork p child) := by
  have hother : ∀ x, x ≠ child → (s.fork p child).holds x = s.holds x :=
    fun x hx => update_of_ne hx ..
  have hself : (s.fork p child).holds child = s.holds p := update_self ..
  have hpipes : ∀ i, i < pipeMax → (s.fork p child).pipes i = inheritOne p (s.pipes i) :=
    fun i hi => if_pos hi
  refine ⟨fun i e hi hu => ?_, fun i e hi hu x => ?_, fun x hx fd => ?_⟩
  · rw [hpipes i hi, inheritOne_used] at hu
    have hcount := h.counted i e hi hu
    have hle : (s.pipes i).refs e ≤ 256 := by
      have hcard := count_le_card (f := fun x => s.holds x (fdOf i e))
      rw [Fintype.card_fin] at hcard
      exact hcount.trans_le hcard
    -- the child held nothing before, and holds what the parent holds now
    have hex := holders_exchange hother (fdOf i e)
    rw [hself, h.dead child hc, Bool.toNat_false, Nat.add_zero] at hex
    have hiff : s.holds p (fdOf i e) =
        decide ((s.pipes i).creatorPid = p ∧ (s.pipes i).refs e ≠ 0) := by
      rw [Bool.eq_iff_iff, decide_eq_true_iff]
      exact hg i e hi hu
    rw [hpipes i hi, inheritOne_refs p hu hle, ← hiff, hcount]
    exact hex.symm
  · rw [hpipes i hi, inheritOne_used] at hu
    obtain rfl | hxc := eq_or_ne x child
    · rw [hself]
      exact h.free i e hi hu p
    · rw [hother x hxc]
      exact h.free i e hi hu x
  · have hxc : x ≠ child := by
      rintro rfl
      simp [State.fork] at hx
    rw [hother x hxc]
    exact h.dead x ((update_of_ne hxc ..).symm.trans hx) fd

theorem Inv.ends (h : Inv s) (hg : ∀ fd, s.holds p fd = false) : Inv (s.ends p) := by
  have hholds : (s.ends p).holds = s.holds := by
    funext x fd
    by_cases hxp : x = p <;> simp [State.ends, hxp, hg]
  refine ⟨fun i e hi hu => ?_, fun i e hi hu x => ?_, fun x hx fd => ?_⟩
  · unfold holders
    rw [hholds]
    exact h.counted i e hi hu
  · rw [hholds]
    exact h.free i e hi hu x
  · rw [hholds]
    obtain rfl | hxp := eq_or_ne x p
    exacts [hg fd, h.dead x ((update_of_ne hxp ..).symm.trans hx) fd]

/-- A pass that only moves data. -/
theorem Inv.pass (h : Inv s) (hf : ∀ q, (f q).used = q.used ∧ ∀ e', (f q).refs e' = q.refs e') :
    Inv (s.pass fd e f) := by
  unfold State.pass
  cases hl : pipeLookup s.pipes fd with
  | none => exact h
  | some i =>
    dsimp only
    split
    · have hpipe : ∀ j, (update s.pipes i (f (s.pipes i)) j).used = (s.pipes j).used ∧
          ∀ e', (update s.pipes i (f (s.pipes i)) j).refs e' = (s.pipes j).refs e' := by
        intro j
        by_cases hji : j = i <;> simp [hji, hf]
      refine ⟨fun j e' hj hu => ?_, fun j e' hj hu x => ?_, h.dead⟩
      · exact ((hpipe j).2 e').trans (h.counted j e' hj ((hpipe j).1.symm.trans hu))
      · exact h.free j e' hj ((hpipe j).1.symm.trans hu) x
    · exact h

theorem pipeReadPass_keeps (q : Pipe) (count : ℕ) : (pipeReadPass q count).1.used = q.used ∧
      ∀ e, (pipeReadPass q count).1.refs e = q.refs e := by
  unfold pipeReadPass
  repeat' split
  all_goals exact ⟨rfl, fun e => by cases e <;> rfl⟩

theorem pipeWritePass_keeps (q : Pipe) (src : List (BitVec 8)) (written : ℕ) :
    (pipeWritePass q src written).1.used = q.used ∧
      ∀ e, (pipeWritePass q src written).1.refs e = q.refs e := by
  unfold pipeWritePass
  repeat' split
  all_goals exact ⟨rfl, fun e => by cases e <;> rfl⟩

/-- **Every guarded call keeps the invariant.** -/
theorem Inv.step (h : Inv s) (hg : Guard s a) (hs : Step s a s') : Inv s' := by
  obtain ⟨p, call⟩ := a
  obtain ⟨hp, hchild, rfl⟩ := hs
  cases call with
  | pipeCreate => exact h.create hp
  | fork child => exact h.fork (hchild child rfl) hg
  | close => exact h.close hg
  | dup | dup2 | exec => exact h
  | exit | kill => exact h.ends hg
  | read fd count => exact h.pass fun q => pipeReadPass_keeps q count
  | write fd src written => exact h.pass fun q => pipeWritePass_keeps q src written

/-! ## The results -/

/-- A pass of `pipe_read` for one byte or more that returns 0. -/
theorem pipeReadPass_zero {count : ℕ} (hu : q.used = true) (hc : 0 < count) :
    (pipeReadPass q count).2.2 = .ret 0 ↔ q.ring.count = 0 ∧ q.refs .write = 0 := by
  unfold pipeReadPass
  rw [if_neg (by rw [hu]; decide)]
  split_ifs with hr hw
  · simp only [Pass.ret.injEq]
    omega
  · simp [Pipe.refs]
    omega
  · simp [Pipe.refs, hw]

/-- A first pass of `pipe_write` that fails. -/
theorem pipeWritePass_fails (hu : q.used = true) :
    (pipeWritePass q src 0).2.2 = .ret (-1) ↔ q.refs .read = 0 := by
  unfold pipeWritePass
  by_cases hr : q.readRefs = 0
  · simp [Pipe.refs, hr]
  rw [if_neg (by simp [hu, hr])]
  refine ⟨fun hfail => ?_, fun hz => absurd hz hr⟩
  dsimp only at hfail
  split_ifs at hfail
  have hlen : ((src.drop 0).take (pipeBufSize - q.ring.count)).length ≤ 4096 := by
    rw [List.length_take, pipeBufSize]
    omega
  have hneg := Pass.ret.inj hfail
  rw [Int.bmod_eq_of_le (by omega) (by omega)] at hneg
  omega

/-- **Pipe ends are counted.**  In every state that a guarded run of calls reaches: the two counts
of an open pipe are the numbers of processes that hold its descriptors; a `pipe_read` returns 0
exactly when the buffer is empty and nobody holds the write end; a `pipe_write` fails exactly when
nobody holds the read end; and `pipe_create` takes a pipe of which nobody holds an end. -/
theorem pipe_ends_counted {s₀ : State} {as : List (Pid × Call)} (h₀ : Initial s₀)
    (hrun : Run Step Guard s₀ as s) :
    (∀ i < pipeMax, (s.pipes i).used = true → ((s.pipes i).readRefs = holders s (fdOf i .read) ∧
        (s.pipes i).writeRefs = holders s (fdOf i .write)) ∧
      (∀ count, 0 < count → ((pipeReadPass (s.pipes i) count).2.2 = .ret 0 ↔
        (s.pipes i).ring.count = 0 ∧ ∀ p, s.holds p (fdOf i .write) = false)) ∧
      ∀ src, ((pipeWritePass (s.pipes i) src 0).2.2 = .ret (-1) ↔
        ∀ p, s.holds p (fdOf i .read) = false)) ∧
    ∀ i, freePipe s.pipes = some i → ∀ p e, s.holds p (fdOf i e) = false := by
  have hi : Inv s := hrun.invariant h₀.inv fun _ _ _ ht hg hs => ht.step hg hs
  refine ⟨fun i hlt hu => ⟨⟨hi.counted i .read hlt hu, hi.counted i .write hlt hu⟩, ?_, ?_⟩, ?_⟩
  · intro count hc
    rw [pipeReadPass_zero hu hc, hi.counted i .write hlt hu, holders, count_eq_zero]
  · intro src
    rw [pipeWritePass_fails hu, hi.counted i .read hlt hu, holders, count_eq_zero]
  · intro i hf p e
    obtain ⟨hlt, hu⟩ := freePipe_some hf
    exact hi.free i e hlt hu p

/-! ## Processes with a pipe -/

/-- No pipe is open, and process 1 is alive. -/
def noPipes : State where
  pipes _ := { freshPipe 0 with used := false }
  alive p := p == 1
  holds _ _ := false

theorem noPipes_initial : Initial noPipes := ⟨fun _ => rfl, fun _ _ => rfl⟩

/-- A pipeline: process 1 makes a pipe and forks; the parent keeps the read end, the child the
write end. -/
theorem pipeline_counted : ∃ s : State, Run Step Guard noPipes
        [(1, .pipeCreate), (1, .fork 2), (1, .close 65), (2, .close 64)] s ∧
      s.holds 1 64 = true ∧ s.holds 2 65 = true ∧
      (s.pipes 0).readRefs = holders s (fdOf 0 .read) ∧
      (s.pipes 0).writeRefs = holders s (fdOf 0 .write) := by
  -- process 1 has created the only pipe, and holds both ends
  have hfork : Guard (noPipes.create 1) (1, .fork 2) := by
    intro i e _ hu
    have hpipes : (noPipes.create 1).pipes = update noPipes.pipes 0 (freshPipe 1) := rfl
    by_cases h0 : i = 0
    · subst h0
      cases e <;> decide +kernel
    · rw [hpipes, update_of_ne h0] at hu
      cases hu
  have hrun : ∃ s : State, Run Step Guard noPipes
      [(1, .pipeCreate), (1, .fork 2), (1, .close 65), (2, .close 64)] s ∧
      s.holds 1 64 = true ∧ s.holds 2 65 = true ∧ (s.pipes 0).used = true :=
    ⟨_, Run.cons trivial ⟨rfl, nofun, rfl⟩ <|
      Run.cons hfork ⟨rfl, fun child hc => by cases hc; rfl, rfl⟩ <|
      Run.cons (fun _ _ => rfl) ⟨rfl, nofun, rfl⟩ <|
      Run.cons (fun _ _ => rfl) ⟨rfl, nofun, rfl⟩ .nil, rfl, rfl, rfl⟩
  obtain ⟨s, hrun, h1, h2, hu⟩ := hrun
  obtain ⟨hr, hw⟩ := ((pipe_ends_counted noPipes_initial hrun).1 0 (by decide) hu).1
  exact ⟨s, hrun, h1, h2, hr, hw⟩

/-- **The ends of the dead.**  Process 1 makes a pipe and exits.  Both counts stay 1, and nobody
holds an end. -/
theorem ends_of_the_dead : ∃ s : State, Initial noPipes ∧
      Run Step (fun _ _ => True) noPipes [(1, .pipeCreate), (1, .exit)] s ∧
      (s.pipes 0).used = true ∧ (s.pipes 0).readRefs = 1 ∧ holders s (fdOf 0 .read) = 0 ∧
      (s.pipes 0).writeRefs = 1 ∧ holders s (fdOf 0 .write) = 0 := by
  refine ⟨_, noPipes_initial, Run.cons trivial ⟨rfl, nofun, rfl⟩ <|
    Run.cons trivial ⟨rfl, nofun, rfl⟩ .nil, rfl, rfl, ?_, rfl, ?_⟩ <;> decide +kernel

end Xos.Pipes
