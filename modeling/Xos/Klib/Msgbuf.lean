import Mathlib.Data.List.GetD
import Xos.Lib.Bytes
import Xos.Lib.RingBuf

/-!
# The kernel log

`kernel/lib/msgbuf.c`: every byte that is printed goes into a ring of `MSGBUF_SIZE` bytes, which
overwrites its oldest byte once it is full.  `msgbuf_copy` reads the ring from its oldest byte on.

* **The ring** — after any calls the byte number `i` that was written stands in cell
  `i % MSGBUF_SIZE`, unless it has been overwritten (`Holds`);
* **The copy** — it gives the last bytes written, oldest first (`msgbufCopy_eq`).
-/

namespace Xos.Klib

open Function Lib

/-- `MSGBUF_SIZE`. -/
def msgbufSize : ℕ := 16384

/-- `g_buf`, `g_head`, `g_count` and `g_ready`. -/
structure Msgbuf where
  buf : Bytes
  head : ℕ
  count : ℕ
  ready : Bool

namespace Msgbuf

/-- The variables before the first call. -/
def boot : Msgbuf := ⟨fun _ => 0, 0, 0, false⟩

/-- `msgbuf_init`. -/
def init (b : Msgbuf) : Msgbuf := { b with head := 0, count := 0, ready := true }

/-- `msgbuf_putc`. -/
def putc (b : Msgbuf) (c : Byte) : Msgbuf :=
  let b := if b.ready then b else b.init
  { b with
    buf := update b.buf b.head c
    head := (b.head + 1) % msgbufSize
    count := if b.count < msgbufSize then b.count + 1 else b.count }

/-- `msgbuf_write`; `none` is a null pointer. -/
def write (b : Msgbuf) (s : Option (List Byte)) : Msgbuf := (s.getD []).foldl putc b

/-- `msgbuf_copy`: the number of bytes, and the destination. -/
def copy (b : Msgbuf) (dst : Option Bytes) (max : ℕ) : ℕ × Option Bytes :=
  match dst with
  | none => (0, none)
  | some dst =>
    if max = 0 ∨ b.count = 0 then (0, some dst)
    else
      let n := if max < b.count then max else b.count
      let start := if b.count = msgbufSize then b.head else 0
      (n, some fun i => if i < n then b.buf ((start + i) % msgbufSize) else dst i)

/-- A call that writes. -/
inductive Call
  | putc (c : Byte)
  | write (s : Option (List Byte))

/-- The bytes that a call writes. -/
def Call.bytes : Call → List Byte
  | .putc c => [c]
  | .write s => s.getD []

/-- One call. -/
def exec (b : Msgbuf) : Call → Msgbuf
  | .putc c => b.putc c
  | .write s => b.write s

/-! ## The ring -/

/-- The ring after the bytes `l` have been written. -/
structure Holds (l : List Byte) (b : Msgbuf) : Prop where
  head : b.head = l.length % msgbufSize
  count : b.count = min l.length msgbufSize
  fresh : b.ready = false → l = []
  cells : ∀ i < l.length, l.length ≤ i + msgbufSize → b.buf (i % msgbufSize) = l.getD i 0#8

theorem holds_boot : Holds [] boot := ⟨rfl, rfl, fun _ => rfl, fun _ h => by cases h⟩

variable {l s : List Byte} {b : Msgbuf}

theorem Holds.putc (h : Holds l b) (c : Byte) : Holds (l ++ [c]) (b.putc c) := by
  -- the first call finds the variables as `msgbuf_init` leaves them
  have hinit : (if b.ready then b else b.init) = { b with ready := true } := by
    cases hr : b.ready with
    | true => rw [if_pos rfl, ← hr]
    | false =>
      have hhead := h.head
      have hcount := h.count
      rw [h.fresh hr] at hhead hcount
      rw [if_neg Bool.false_ne_true, init]
      congr 1
      · exact hhead.symm
      · exact hcount.symm
  unfold Msgbuf.putc
  rw [hinit]
  dsimp only
  refine ⟨?_, ?_, fun hr => (by cases hr), fun i hi hle => ?_⟩
  · rw [h.head, Nat.mod_add_mod, List.length_append, List.length_singleton]
  · rw [h.count, List.length_append, List.length_singleton]
    dsimp only
    split <;> omega
  · rw [List.length_append, List.length_singleton] at hi hle
    rw [h.head]
    rcases Nat.lt_or_eq_of_le (Nat.le_of_lt_succ hi) with hlt | rfl
    · have hne := RingBuf.cell_ne (a := i) (i := 0) (j := l.length - i) (d := msgbufSize)
        (by omega) (by omega)
      rw [Nat.add_zero, Nat.add_sub_of_le hlt.le] at hne
      refine (update_of_ne hne ..).trans ?_
      rw [h.cells i hlt (by omega), List.getD_append _ _ _ _ hlt]
    · simp

theorem Holds.write (h : Holds l b) (s : List Byte) : Holds (l ++ s) (s.foldl Msgbuf.putc b) := by
  induction s generalizing l b with
  | nil => rwa [List.append_nil]
  | cons c s ih =>
    rw [List.append_cons]
    exact ih (h.putc c)

theorem Holds.exec (h : Holds l b) (call : Call) : Holds (l ++ call.bytes) (b.exec call) := by
  cases call with
  | putc c => exact h.putc c
  | write s => exact h.write _

theorem Holds.run (h : Holds l b) (calls : List Call) :
    Holds (l ++ calls.flatMap Call.bytes) (calls.foldl Msgbuf.exec b) := by
  induction calls generalizing l b with
  | nil => rwa [List.flatMap_nil, List.append_nil]
  | cons call calls ih =>
    rw [List.flatMap_cons, ← List.append_assoc]
    exact ih (h.exec call)

/-- The cell that `msgbuf_copy` reads first has the oldest byte. -/
theorem Holds.read (h : Holds l b) (hi : i < b.count) :
    b.buf (((if b.count = msgbufSize then b.head else 0) + i) % msgbufSize) =
      (l.drop (l.length - msgbufSize)).getD i 0#8 := by
  have hcount := h.count
  rw [List.getD_eq_getElem?_getD, List.getElem?_drop, ← List.getD_eq_getElem?_getD,
    ← h.cells _ (by omega) (by omega)]
  refine congrArg b.buf ?_
  split_ifs with hfull
  · rw [h.head, Nat.mod_add_mod, ← Nat.add_mod_right (l.length - msgbufSize + i)]
    congr 1
    omega
  · rw [show l.length - msgbufSize = 0 by omega]

end Msgbuf

/-- **The log.**  `msgbuf_copy` gives the first bytes of what is left of everything that was
written, which is the last `MSGBUF_SIZE` bytes of it. -/
theorem msgbufCopy_eq (calls : List Msgbuf.Call) (dst : Bytes) (max : ℕ) :
    let written := calls.flatMap Msgbuf.Call.bytes
    (calls.foldl Msgbuf.exec .boot).copy (some dst) max =
      (min max (min written.length msgbufSize),
        some (memcpy dst 0 ((written.drop (written.length - msgbufSize)).take max))) := by
  intro written
  have h : Msgbuf.Holds written (calls.foldl Msgbuf.exec .boot) := Msgbuf.holds_boot.run calls
  generalize calls.foldl Msgbuf.exec .boot = b at h
  have hcount := h.count
  have hlen : ((written.drop (written.length - msgbufSize)).take max).length = min max b.count := by
    rw [List.length_take, List.length_drop]
    omega
  rw [← hcount]
  unfold Msgbuf.copy memcpy
  rw [hlen]
  dsimp only
  by_cases hnone : max = 0 ∨ b.count = 0
  · rw [if_pos hnone, show min max b.count = 0 by omega]
    simp
  · have hn : (if max < b.count then max else b.count) = min max b.count := by
      split <;> omega
    rw [if_neg hnone, hn]
    refine congrArg (fun f => (min max b.count, some f)) (funext fun i => ?_)
    by_cases hi : i < min max b.count
    · have hin : 0 ≤ i ∧ i < 0 + min max b.count := by omega
      rw [if_pos hi, h.read (by omega), if_pos hin, Nat.sub_zero, List.getD_eq_getElem?_getD,
        List.getD_eq_getElem?_getD, List.getElem?_take_of_lt (by omega)]
    · have hout : ¬(0 ≤ i ∧ i < 0 + min max b.count) := by omega
      rw [if_neg hi, if_neg hout]

end Xos.Klib
