import Mathlib.Data.Nat.Count

/-!
# Output to the shell bridge

`bridge_write` of `userspace/libc/syscalls.c` cuts a buffer into messages of at most 256 bytes and
sends each to the bridge port, with up to 64 attempts.  A message that is refused 64 times is
skipped, and counted as written.

* **Accounting** — the returned number is that of the delivered bytes, and these are a prefix of the
  buffer, if and only if no 64 sends in a row are refused before the last message is through
  (`bridgeWrite_iff`);
* **Loss** — a refused byte is reported as written (`refused_byte_counted`).
-/

namespace Xos.User.Bridge

/-- `IPC_MSG_MAX_PAYLOAD`. -/
def maxPayload : ℕ := 256

/-- The loop of `bridge_write`: the payloads that were delivered, and `remaining`.  `ok i` says
whether the port takes the message of the send `i` from here on. -/
def writeLoop (ok : ℕ → Bool) (p : List UInt8) : List (List UInt8) × ℕ :=
  if p = [] then ([], p.length)
  else match (List.range 64).find? ok with
    | none => writeLoop (fun i => ok (64 + i)) (p.drop maxPayload)
    | some tries =>
      let (out, remaining) := writeLoop (fun i => ok (tries + 1 + i)) (p.drop maxPayload)
      (p.take maxPayload :: out, remaining)
termination_by p.length
decreasing_by all_goals
  have := List.length_pos_of_ne_nil ‹p ≠ []›
  simp only [maxPayload, List.length_drop]
  omega

/-- `bridge_write`: the result, and what was delivered. -/
def bridgeWrite (ok : ℕ → Bool) (buf : List UInt8) : ℕ × List UInt8 :=
  (buf.length - (writeLoop ok buf).2, (writeLoop ok buf).1.flatten)

/-- Until `n` bytes have been taken, no 64 sends in a row are refused. -/
def Flows (ok : ℕ → Bool) (n : ℕ) : Prop :=
  ∀ i, Nat.count (fun j => ok j = true) i * maxPayload < n → ∃ k < 64, ok (i + k) = true

variable {ok : ℕ → Bool} {p : List UInt8} {n k : ℕ}

/-- The sends up to the first accepted one belong to the first message. -/
theorem flows_cons (hk : (List.range 64).find? ok = some k) :
    Flows ok n ↔ Flows (fun i => ok (k + 1 + i)) (n - maxPayload) := by
  obtain ⟨hok, hlt, hbefore⟩ := List.find?_range_eq_some.mp hk
  have hcount : Nat.count (fun j => ok j = true) (k + 1) = 1 := by
    rw [Nat.count_succ, if_pos hok, Nat.count_iff_forall_not.mpr fun j hj => by
      simpa using hbefore j hj]
  have hstep : ∀ i, Nat.count (fun j => ok j = true) (k + 1 + i) * maxPayload < n ↔
      Nat.count (fun j => ok (k + 1 + j) = true) i * maxPayload < n - maxPayload := fun i => by
    rw [Nat.count_add, hcount, Nat.add_mul, Nat.one_mul, Nat.add_comm, Nat.lt_sub_iff_add_lt]
  constructor
  · intro h i hi
    simpa only [Nat.add_assoc] using h (k + 1 + i) ((hstep i).mpr hi)
  · intro h i hi
    rcases Nat.lt_or_ge k i with hki | hki
    · obtain ⟨d, rfl⟩ := Nat.exists_eq_add_of_le (show k + 1 ≤ i from hki)
      simpa only [Nat.add_assoc] using h d ((hstep d).mp hi)
    refine ⟨k - i, ?_, ?_⟩
    · have := List.mem_range.mp hlt
      omega
    · rwa [Nat.add_sub_cancel' hki]

theorem writeLoop_remaining (ok : ℕ → Bool) (p : List UInt8) : (writeLoop ok p).2 = 0 := by
  fun_induction writeLoop ok p <;> simp_all

theorem writeLoop_length (ok : ℕ → Bool) (p : List UInt8) :
    (writeLoop ok p).1.flatten.length ≤ p.length := by
  fun_induction writeLoop ok p with
  | case1 => simp
  | case2 ok p hp hk ih => exact ih.trans (by simp)
  | case3 ok p hp k hk out rem heq ih =>
    simp only [heq, List.length_drop] at ih
    simp only [List.flatten_cons, List.length_append, List.length_take]
    omega

/-- Everything is delivered if and only if the sends flow. -/
theorem writeLoop_eq_iff (ok : ℕ → Bool) (p : List UInt8) :
    (writeLoop ok p).1.flatten = p ↔ Flows ok p.length := by
  fun_induction writeLoop ok p with
  | case1 => simp [Flows]
  | case2 ok p hp hk ih =>
    -- the message is lost, so fewer bytes arrive
    have hpos := List.length_pos_of_ne_nil hp
    have hle := writeLoop_length (fun i => ok (64 + i)) (p.drop maxPayload)
    refine iff_of_false (fun heq => ?_) fun hflow => ?_
    · rw [heq, List.length_drop, maxPayload] at hle
      omega
    · obtain ⟨k, hk', hok⟩ := hflow 0 (by simpa using hpos)
      simp_all
  | case3 ok p hp k hk out rem heq ih =>
    rw [flows_cons hk, ← List.length_drop, ← ih, heq, List.flatten_cons]
    refine Iff.trans ?_ (List.append_right_inj (p.take maxPayload))
    rw [List.take_append_drop]

/-- **Output accounting.**  The result is the number of delivered bytes, and these are a prefix of
the buffer, if and only if no 64 sends in a row are refused while a message is left. -/
theorem bridgeWrite_iff (ok : ℕ → Bool) (buf : List UInt8) :
    ((bridgeWrite ok buf).1 = (bridgeWrite ok buf).2.length ∧ (bridgeWrite ok buf).2 <+: buf) ↔
      Flows ok buf.length := by
  rw [← writeLoop_eq_iff, bridgeWrite, writeLoop_remaining]
  constructor
  · rintro ⟨hlen, hprefix⟩
    exact hprefix.eq_of_length hlen.symm
  · intro heq
    simp [heq]

/-- A byte that the port never takes. -/
theorem refused_byte_counted : bridgeWrite (fun _ => false) [65] = (1, []) := by
  have hrefused : (List.range 64).find? (fun _ => false) = none := by decide
  simp [bridgeWrite, writeLoop, maxPayload, hrefused]

end Xos.User.Bridge
