import Xos.Ipc.Pipe

/-!
# What a pipe carries

The bytes that go through one pipe of `Xos.Ipc.Pipe`, and when `select` and `poll` call it ready.
`pipe_write` appends a large buffer in several sections under `pipe_lock`; other writers and readers
come in between.

* **A byte stream** — `pipe_stream`: what was appended is what was read and then what is in the
  buffer, the bytes of a writer are appended in its own order, and a write returns when all of them
  are;
* **Readiness** — `poll_agrees_iff`: a descriptor is reported ready exactly if the call would not
  wait, if and only if the other end is open or there is something to read or room to write.  A reader
  at the end of the file and a writer of a full pipe without readers are not: `end_of_file_not_ready`.
-/

namespace Xos.Pipes

open Xos.Lib Function

variable {W : Type*} [DecidableEq W]

/-! ## The stream -/

/-- A step at the pipe, by any process. -/
inductive Act (W : Type*) where
  /-- A pass of the loop of `pipe_read(fd, buf, count)`. -/
  | read (count : ℕ)
  /-- `w` calls `pipe_write(fd, src, count)`. -/
  | call (w : W) (src : List (BitVec 8))
  /-- A pass of the loop of the call of `w`. -/
  | write (w : W)
  /-- Ends are inherited or closed elsewhere; both stay open. -/
  | ends (readers writers : ℕ)

/-- The pipe with the writes in progress and the number of bytes each has appended; `chunks` are the
pieces appended so far, `done` the writes that have returned, with what they returned, and `taken`
the bytes read. -/
structure Stream (W : Type*) where
  pipe : Pipe
  calls : W → Option (List (BitVec 8) × ℕ)
  chunks : List (W × List (BitVec 8))
  done : List ((W × List (BitVec 8)) × ℤ)
  taken : List (BitVec 8)

/-- A pipe that was just created. -/
def Stream.init (pid : ℕ) : Stream W := ⟨freshPipe pid, fun _ => none, [], [], []⟩

/-- One step. -/
def Stream.step (s : Stream W) : Act W → Stream W
  | .read count =>
    let r := pipeReadPass s.pipe count
    { s with pipe := r.1, taken := s.taken ++ r.2.1 }
  | .call w src =>
    if src = [] ∨ (s.calls w).isSome then s
    else { s with calls := update s.calls w (some (src, 0)) }
  | .write w =>
    match s.calls w with
    | none => s
    | some (src, k) =>
      let r := pipeWritePass s.pipe src k
      let s := { s with pipe := r.1, chunks := s.chunks ++ [(w, (src.take r.2.1).drop k)] }
      match r.2.2 with
      | .again => { s with calls := update s.calls w (some (src, r.2.1)) }
      | .ret n => { s with calls := update s.calls w none, done := s.done ++ [((w, src), n)] }
  | .ends readers writers =>
    { s with pipe := { s.pipe with readRefs := readers + 1, writeRefs := writers + 1 } }

/-- The bytes of `w`. -/
def bytesOf (w : W) (l : List (W × List (BitVec 8))) : List (BitVec 8) :=
  l.flatMap fun e => if e.1 = w then e.2 else []

/-- What the write that `w` is in has appended. -/
def Stream.begun (s : Stream W) (w : W) : List (BitVec 8) :=
  match s.calls w with
  | none => []
  | some (src, k) => src.take k

/-- A write that has not returned has bytes left. -/
def Unfinished (c : Option (List (BitVec 8) × ℕ)) : Prop :=
  ∀ src k, c = some (src, k) → k < src.length

/-- What every step keeps. -/
structure Stream.Inv (s : Stream W) : Prop where
  used : s.pipe.used = true
  readers : s.pipe.readRefs ≠ 0
  ring : s.pipe.ring.WF pipeBufSize
  stream : s.chunks.flatMap Prod.snd = s.taken ++ s.pipe.ring.toList pipeBufSize
  order : ∀ w, bytesOf w s.chunks = bytesOf w (s.done.map Prod.fst) ++ s.begun w
  calls : ∀ w, Unfinished (s.calls w)
  results : ∀ e ∈ s.done, e.2 = (e.1.2.length : ℤ).bmod (2 ^ 32)

variable {s : Stream W} {p : Pipe} {src : List (BitVec 8)} {k : ℕ} {w : W}

/-- **A pass of `pipe_write`** appends the next bytes, up to the `k'`-th, and the call returns if
these were the last. -/
theorem pipeWritePass_cases (hu : p.used = true) (hr : p.readRefs ≠ 0)
    (hw : p.ring.WF pipeBufSize) (hk : k < src.length) :
    ∃ k', (k ≤ k' ∧ k' ≤ src.length) ∧ p.ring.count + (k' - k) ≤ pipeBufSize ∧
      pipeWritePass p src k =
        ({ p with ring := ((src.take k').drop k).foldl (RingBuf.push pipeBufSize) p.ring }, k',
          if k' < src.length then .again else .ret ((k' : ℤ).bmod (2 ^ 32))) := by
  have hno : ¬ (p.used = false ∨ p.readRefs = 0) := by simp [hu, hr]
  unfold pipeWritePass
  rw [if_neg hno]
  by_cases hc : p.ring.count < pipeBufSize
  · rw [if_pos hc]
    refine ⟨k + min (pipeBufSize - p.ring.count) (src.length - k), by omega, by omega, ?_⟩
    have htake := List.take_eq_take_min (l := src.drop k) (i := pipeBufSize - p.ring.count)
    rw [List.length_drop] at htake
    simp [List.drop_take, ← htake]
  · rw [if_neg hc]
    refine ⟨k, ⟨le_rfl, hk.le⟩, by have := hw.count; omega, ?_⟩
    simp [hk]

theorem bytesOf_append (w : W) (l l' : List (W × List (BitVec 8))) :
    bytesOf w (l ++ l') = bytesOf w l ++ bytesOf w l' := List.flatMap_append ..

theorem Stream.Inv.read (h : s.Inv) (count : ℕ) : (s.step (.read count)).Inv := by
  have hused : ¬ s.pipe.used = false := by simp [h.used]
  simp only [Stream.step, pipeReadPass]
  split_ifs with hc hw
  · obtain ⟨hring, hlist⟩ := RingBuf.wf_iterate_pop h.ring (Nat.min_le_right count _)
    refine { h with ring := hring, stream := ?_ }
    simp only [hlist, List.append_assoc, List.take_append_drop]
    exact h.stream
  · simpa using h
  · simpa using h

theorem Stream.Inv.write (h : s.Inv) (w : W) : (s.step (.write w)).Inv := by
  simp only [Stream.step]
  cases hcall : s.calls w with
  | none => exact h
  | some c =>
    obtain ⟨src, k⟩ := c
    obtain ⟨k', ⟨hk, hk'⟩, hroom, he⟩ :=
      pipeWritePass_cases h.used h.readers h.ring (h.calls w src k hcall)
    have hlen : ((src.take k').drop k).length = k' - k := by
      rw [List.length_drop, List.length_take, min_eq_left hk']
    obtain ⟨hring, hlist⟩ := RingBuf.wf_foldl_push h.ring (hlen ▸ hroom)
    have hnow : src.take k ++ (src.take k').drop k = src.take k' := by
      have hsplit := List.take_append_drop k (src.take k')
      rwa [List.take_take, min_eq_left hk] at hsplit
    have hstream : (s.chunks ++ [(w, (src.take k').drop k)]).flatMap Prod.snd = s.taken ++
        (((src.take k').drop k).foldl (RingBuf.push pipeBufSize) s.pipe.ring).toList
          pipeBufSize := by
      simp [hlist, h.stream]
    -- what each writer has appended: the others nothing, this one up to `k'`
    have horder : ∀ x, bytesOf x (s.chunks ++ [(w, (src.take k').drop k)]) =
        bytesOf x (s.done.map Prod.fst) ++ if x = w then src.take k' else s.begun x := by
      intro x
      rw [bytesOf_append, h.order x]
      by_cases hx : x = w
      · subst hx
        simp [bytesOf, Stream.begun, hcall, hnow]
      · simp [bytesOf, hx, Ne.symm hx]
    simp only [he]
    by_cases hlast : k' < src.length
    · simp only [hlast, if_true]
      refine { h with ring := hring, stream := hstream, order := fun x => ?_, calls := ?_ }
      · rw [horder x]
        by_cases hx : x = w
        · simp [hx, Stream.begun]
        · simp [hx, Stream.begun]
      · refine (forall_update_iff _ fun _ c => Unfinished c).mpr ⟨?_, fun x _ => h.calls x⟩
        rintro _ _ ⟨⟩
        exact hlast
    obtain rfl : k' = src.length := by omega
    simp only [lt_irrefl, if_false]
    refine { h with ring := hring, stream := hstream, order := fun x => ?_, calls := ?_,
                    results := ?_ }
    · rw [horder x]
      by_cases hx : x = w
      · simp [hx, Stream.begun, bytesOf]
      · simp [hx, Stream.begun, bytesOf, Ne.symm hx]
    · exact (forall_update_iff _ fun _ c => Unfinished c).mpr ⟨nofun, fun x _ => h.calls x⟩
    · intro e he
      rcases List.mem_append.mp he with he | he
      · exact h.results e he
      · rw [List.mem_singleton.mp he]

theorem Stream.Inv.step (h : s.Inv) (a : Act W) : (s.step a).Inv := by
  cases a with
  | read count => exact h.read count
  | call w =>
    simp only [Stream.step]
    split_ifs with hno
    · exact h
    rw [not_or, Bool.not_eq_true, Option.isSome_eq_false_iff, Option.isNone_iff_eq_none] at hno
    refine { h with order := fun x => ?_, calls := ?_ }
    · rw [h.order x]
      by_cases hx : x = w
      · simp [hx, Stream.begun, hno.2]
      · simp [hx, Stream.begun]
    · refine (forall_update_iff _ fun _ c => Unfinished c).mpr ⟨?_, fun x _ => h.calls x⟩
      rintro _ _ ⟨⟩
      exact List.length_pos_iff.mpr hno.1
  | write w => exact h.write w
  | ends readers => exact { h with readers := Nat.succ_ne_zero readers }

/-- **A pipe is a byte stream.**  After any steps of any processes at a pipe whose ends stay open:
what was appended is what was read, followed by what the ring holds; the bytes that a process has
appended are those of its writes that have returned, in order, and the beginning of the one it is in;
every write that has returned has returned the number of all its bytes, as an `int`; and the indices
of the ring fit together. -/
theorem pipe_stream (pid : ℕ) (acts : List (Act W)) :
    let s := acts.foldl Stream.step (.init pid)
    s.chunks.flatMap Prod.snd = s.taken ++ s.pipe.ring.toList pipeBufSize ∧
      (∀ w, bytesOf w s.chunks = bytesOf w (s.done.map Prod.fst) ++ s.begun w) ∧
      (∀ e ∈ s.done, e.2 = (e.1.2.length : ℤ).bmod (2 ^ 32)) ∧
      s.pipe.ring.count ≤ 4096 ∧
      s.pipe.ring.tail = (s.pipe.ring.head + s.pipe.ring.count) % 4096 := by
  have hinit : (Stream.init pid : Stream W).Inv :=
    ⟨rfl, one_ne_zero, RingBuf.wf_empty _ (by decide), rfl, fun _ => rfl, nofun, nofun⟩
  have h : (acts.foldl Stream.step (.init pid : Stream W)).Inv :=
    List.foldlRecOn acts _ hinit fun s hs a _ => hs.step a
  exact ⟨h.stream, h.order, h.results, h.ring.count, h.ring.tail⟩

/-! ## Readiness -/

/-- `pipe_readable(fd)`. -/
def pipeReadable (pipes : ℕ → Pipe) (fd : ℤ) : Bool :=
  match pipeLookup pipes fd with
  | none => false
  | some i => endOf fd = .read && (0 < (pipes i).ring.count || !(pipes i).used)

/-- `pipe_writable(fd)`. -/
def pipeWritable (pipes : ℕ → Pipe) (fd : ℤ) : Bool :=
  match pipeLookup pipes fd with
  | none => false
  | some i => endOf fd = .write && (pipes i).ring.count < pipeBufSize

/-- `xos_poll_fd(fd, events)` for `fd >= 64`; bit 0 is `POLLIN` and bit 2 is `POLLOUT`. -/
def xosPollPipe (pipes : ℕ → Pipe) (fd : ℤ) (events : ℕ) : ℕ :=
  (if events.testBit 0 && pipeReadable pipes fd then 0x001 else 0) |||
    if events.testBit 2 && pipeWritable pipes fd then 0x004 else 0

variable {pipes : ℕ → Pipe} {i : ℕ}

/-- `poll` looks at the read end as at the number of bytes. -/
theorem xosPollPipe_read (hi : i < pipeMax) (hu : (pipes i).used = true) (events : ℕ) :
    (xosPollPipe pipes (fdOf i .read) events).testBit 0 = true ↔
      events.testBit 0 = true ∧ 0 < (pipes i).ring.count := by
  have hready : pipeReadable pipes (fdOf i .read) = decide (0 < (pipes i).ring.count) := by
    simp [pipeReadable, pipeLookup_fdOf hi hu, endOf_fdOf, hu]
  simp only [xosPollPipe, hready, pipeWritable, pipeLookup_fdOf hi hu, endOf_fdOf]
  cases events.testBit 0 <;> by_cases hc : 0 < (pipes i).ring.count <;> simp [hc]

/-- `poll` looks at the write end as at the free space. -/
theorem xosPollPipe_write (hi : i < pipeMax) (hu : (pipes i).used = true) (events : ℕ) :
    (xosPollPipe pipes (fdOf i .write) events).testBit 2 = true ↔
      events.testBit 2 = true ∧ (pipes i).ring.count < pipeBufSize := by
  have hready : pipeWritable pipes (fdOf i .write) =
      decide ((pipes i).ring.count < pipeBufSize) := by
    simp [pipeWritable, pipeLookup_fdOf hi hu, endOf_fdOf]
  simp only [xosPollPipe, hready, pipeReadable, pipeLookup_fdOf hi hu, endOf_fdOf]
  have hbit : Nat.testBit 4 2 = true := rfl
  cases events.testBit 2 <;> by_cases hc : (pipes i).ring.count < pipeBufSize <;>
    simp [hc, hbit]

theorem pipeReadPass_again (hu : p.used = true) (count : ℕ) :
    (pipeReadPass p count).2.2 ≠ .again ↔ 0 < p.ring.count ∨ p.writeRefs = 0 := by
  unfold pipeReadPass
  split_ifs <;> simp_all

theorem pipeWritePass_again (hu : p.used = true) (b : BitVec 8) :
    (pipeWritePass p [b] 0).2.2 ≠ .again ↔ p.ring.count < pipeBufSize ∨ p.readRefs = 0 := by
  unfold pipeWritePass
  split_ifs <;> simp_all
  omega

/-- **A pipe is reported ready exactly if the call would not wait** if and only if, for a read, the
pipe is not both empty and without writers, and for a write of one byte, it is not both full and
without readers. -/
theorem poll_agrees_iff (hi : i < pipeMax) (hu : (pipes i).used = true) (count : ℕ) (b : BitVec 8) :
    ((∀ events, (xosPollPipe pipes (fdOf i .read) events).testBit 0 = true ↔
        events.testBit 0 = true ∧ (pipeReadPass (pipes i) count).2.2 ≠ .again) ↔
      ((pipes i).ring.count = 0 → (pipes i).writeRefs ≠ 0)) ∧
    ((∀ events, (xosPollPipe pipes (fdOf i .write) events).testBit 2 = true ↔
        events.testBit 2 = true ∧ (pipeWritePass (pipes i) [b] 0).2.2 ≠ .again) ↔
      (pipeBufSize ≤ (pipes i).ring.count → (pipes i).readRefs ≠ 0)) := by
  simp only [xosPollPipe_read hi hu, xosPollPipe_write hi hu, pipeReadPass_again hu,
    pipeWritePass_again hu]
  constructor
  · constructor
    · intro h hempty hclosed
      have hin := (h 1).mpr ⟨rfl, .inr hclosed⟩
      omega
    · intro h events
      refine and_congr_right fun _ => ⟨.inl, fun hend => hend.elim id fun hclosed => ?_⟩
      exact Nat.pos_of_ne_zero fun hempty => h hempty hclosed
  · constructor
    · intro h hfull hclosed
      have hout := (h 4).mpr ⟨rfl, .inr hclosed⟩
      omega
    · intro h events
      refine and_congr_right fun _ => ⟨.inl, fun hend => hend.elim id fun hclosed => ?_⟩
      exact lt_of_not_ge fun hfull => h hfull hclosed

/-- A pipe with three bytes: both ends are ready. -/
theorem both_ends_ready :
    let p := { freshPipe 1 with ring := ⟨fun _ => 7, 0, 3, 3⟩ }
    (xosPollPipe (fun _ => p) (fdOf 0 .read) 1).testBit 0 = true ∧
      (xosPollPipe (fun _ => p) (fdOf 0 .write) 4).testBit 2 = true :=
  ⟨((poll_agrees_iff (by decide) rfl 5 0).1.mpr (by decide) 1).mpr ⟨rfl, by decide⟩,
    ((poll_agrees_iff (by decide) rfl 5 0).2.mpr (by decide) 4).mpr ⟨rfl, by decide⟩⟩

/-- **The end of the file.**  The last writer of an empty pipe has closed it: a read returns 0 at
once, and the descriptor is not reported ready; nor is a full pipe without readers, to which a write
fails at once. -/
theorem end_of_file_not_ready :
    let p := { freshPipe 1 with writeRefs := 0 }
    let q := { freshPipe 1 with readRefs := 0, ring := ⟨fun _ => 7, 0, 0, 4096⟩ }
    (pipeReadPass p 5).2.2 = .ret 0 ∧ xosPollPipe (fun _ => p) (fdOf 0 .read) 1 = 0 ∧
      (pipeWritePass q [7] 0).2.2 = .ret (-1) ∧ xosPollPipe (fun _ => q) (fdOf 0 .write) 4 = 0 := by
  decide

end Xos.Pipes
