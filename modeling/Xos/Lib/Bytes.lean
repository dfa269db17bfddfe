import Mathlib.Algebra.Order.Group.Nat
import Mathlib.Data.Nat.ModEq
import Mathlib.Tactic.Ring

/-!
# Byte arrays: little-endian words and C strings

A buffer is a function from offsets to bytes.  What C code does to one is a store of a
fixed number of bytes at an offset, so every fact here is of one of two kinds: what a
read finds where a store went, and that a read elsewhere does not see it.

* **words** — `readLE` and `writeLE`, with `readLE_writeLE` (the round trip) and
  `readLE_writeLE_of_disjoint`;
* **copies** — `memcpy` and `strncpy`;
* **strings** — `strEq` is `strcmp(s, t) == 0`, and `cstr` the text of a field, with
  `strEq_iff_cstr`.
-/

namespace Xos.Lib

/-- A byte. -/
abbrev Byte := BitVec 8

/-- A buffer; only the offsets below its size mean anything. -/
abbrev Bytes := ℕ → Byte

/-! ## Words -/

/-- The little-endian number in the `n` bytes at `o`. -/
def readLE (a : Bytes) (o : ℕ) : ℕ → ℕ
  | 0 => 0
  | n + 1 => (a o).toNat + 256 * readLE a (o + 1) n

/-- Store the `n` low bytes of `v` at `o`. -/
def writeLE (a : Bytes) (o n v : ℕ) : Bytes := fun j =>
  if o ≤ j ∧ j < o + n then BitVec.ofNat 8 (v / 256 ^ (j - o)) else a j

variable {a b : Bytes} {o o' n n' v : ℕ} {j : ℕ} {src : List Byte}

theorem readLE_congr (h : ∀ j, o ≤ j → j < o + n → a j = b j) : readLE a o n = readLE b o n := by
  induction n generalizing o with
  | zero => rfl
  | succ n ih =>
    have htail : readLE a (o + 1) n = readLE b (o + 1) n :=
      ih fun j hj hj' => h j (by omega) (by omega)
    rw [readLE, readLE, h o le_rfl (by omega), htail]

theorem readLE_lt : readLE a o n < 256 ^ n := by
  induction n generalizing o with
  | zero => simp [readLE]
  | succ n ih =>
    have ht := ih (o := o + 1)
    rw [readLE]
    omega

theorem readLE_eq_zero (h : ∀ j, o ≤ j → j < o + n → a j = 0#8) : readLE a o n = 0 := by
  induction n generalizing o with
  | zero => rfl
  | succ n ih =>
    have htail : readLE a (o + 1) n = 0 := ih fun j hj hj' => h j (by omega) (by omega)
    rw [readLE, htail, h o le_rfl (by omega)]
    rfl

theorem writeLE_of_not_mem (h : j < o ∨ o + n ≤ j) : writeLE a o n v j = a j := by
  unfold writeLE
  rw [if_neg]
  omega

/-- **The round trip.**  A word reads back as the number stored, cut to its width. -/
theorem readLE_writeLE (a : Bytes) (o n v : ℕ) : readLE (writeLE a o n v) o n = v % 256 ^ n := by
  induction n generalizing o v a with
  | zero => simp [readLE, Nat.mod_one]
  | succ n ih =>
    -- the bytes after the first are a store of `v / 256`
    have htail : readLE (writeLE a o (n + 1) v) (o + 1) n = (v / 256) % 256 ^ n := by
      rw [← ih a (o + 1) (v / 256)]
      apply readLE_congr
      intro j hj hj'
      unfold writeLE
      rw [if_pos ⟨by omega, by omega⟩, if_pos ⟨hj, hj'⟩, Nat.div_div_eq_div_mul]
      have hexp : j - o = (j - (o + 1)) + 1 := by omega
      rw [hexp, pow_succ']
    have hhead : (writeLE a o (n + 1) v o).toNat = v % 256 := by
      unfold writeLE
      simp
    rw [readLE, htail, hhead, pow_succ', Nat.mod_mul]

theorem readLE_writeLE_of_disjoint (h : o' + n' ≤ o ∨ o + n ≤ o') :
    readLE (writeLE a o n v) o' n' = readLE a o' n' := by
  apply readLE_congr
  intro j hj hj'
  apply writeLE_of_not_mem
  omega

/-! ## Copies -/

/-- Copy the bytes `src` to the offset `o`. -/
def memcpy (a : Bytes) (o : ℕ) (src : List Byte) : Bytes := fun j =>
  if o ≤ j ∧ j < o + src.length then src.getD (j - o) 0#8 else a j

/-- `strncpy`: at most `n` bytes of the text `src`, filled up with zeros to `n`. -/
def strncpy (a : Bytes) (o : ℕ) (src : List Byte) (n : ℕ) : Bytes := fun j =>
  if o ≤ j ∧ j < o + n then src.getD (j - o) 0#8 else a j

/-- Store `n` zeros at `o`. -/
def zeroFill (a : Bytes) (o n : ℕ) : Bytes := fun j => if o ≤ j ∧ j < o + n then 0#8 else a j

theorem memcpy_of_not_mem (h : j < o ∨ o + src.length ≤ j) : memcpy a o src j = a j := by
  unfold memcpy
  rw [if_neg]
  omega

theorem strncpy_of_not_mem (h : j < o ∨ o + n ≤ j) : strncpy a o src n j = a j := by
  unfold strncpy
  rw [if_neg]
  omega

theorem zeroFill_of_not_mem (h : j < o ∨ o + n ≤ j) : zeroFill a o n j = a j := by
  unfold zeroFill
  rw [if_neg]
  omega

/-! ## Strings -/

/-- `strcmp` finds the string at `o` equal to the text `t`. -/
def strEq (a : Bytes) (o : ℕ) : List Byte → Bool
  | [] => a o == 0#8
  | c :: t => a o == c && strEq a (o + 1) t

/-- The text in a field of `n` bytes at `o`: what stands before the first zero. -/
def cstr (a : Bytes) (o : ℕ) : ℕ → List Byte
  | 0 => []
  | n + 1 => if a o = 0#8 then [] else a o :: cstr a (o + 1) n

theorem cstr_congr (h : ∀ j, o ≤ j → j < o + n → a j = b j) : cstr a o n = cstr b o n := by
  induction n generalizing o with
  | zero => rfl
  | succ n ih =>
    have htail : cstr a (o + 1) n = cstr b (o + 1) n := ih fun j hj hj' => h j (by omega) (by omega)
    rw [cstr, cstr, h o le_rfl (by omega), htail]

theorem strEq_congr (h : ∀ j, o ≤ j → j ≤ o + t.length → a j = b j) :
    strEq a o t = strEq b o t := by
  induction t generalizing o with
  | nil => rw [strEq, strEq, h o le_rfl (by simp)]
  | cons c t ih =>
    have htail : strEq a (o + 1) t = strEq b (o + 1) t := by
      apply ih
      intro j hj hj'
      rw [List.length_cons] at h
      exact h j (by omega) (by omega)
    rw [strEq, strEq, h o le_rfl (by omega), htail]

/-- For a text without zeros that is shorter than the field, `strcmp` compares with the
text of the field. -/
theorem strEq_iff_cstr (hlen : t.length < n) (hz : 0#8 ∉ t) :
    strEq a o t = true ↔ cstr a o n = t := by
  induction t generalizing o n with
  | nil =>
    cases n with
    | zero => simp at hlen
    | succ =>
      by_cases h0 : a o = 0#8 <;> simp [strEq, cstr]
  | cons c t ih =>
    cases n with
    | zero => simp at hlen
    | succ n =>
      rw [List.mem_cons, not_or] at hz
      have hrec := ih (o := o + 1) (n := n) (by simpa using hlen) hz.2
      by_cases hc : a o = c
      · have h0 : ¬ a o = 0#8 := fun h => hz.1 (h.symm.trans hc)
        simp [strEq, cstr, h0, hrec]
      by_cases h0 : a o = 0#8
      · simp [strEq, cstr, h0, hz.1]
      · simp [strEq, cstr, h0, hc]

/-- A text without zeros that fits reads back, if a zero follows the copy. -/
theorem cstr_strncpy (hlen : src.length ≤ m) (hz : 0#8 ∉ src) (hend : a (o + m) = 0#8) :
    cstr (strncpy a o src m) o (m + 1) = src := by
  induction src generalizing o m with
  | nil =>
    have h0 : strncpy a o [] m o = 0#8 := by
      cases m with
      | zero => simpa [strncpy] using hend
      | succ => simp [strncpy]
    rw [cstr, if_pos h0]
  | cons c t ih =>
    cases m with
    | zero => simp at hlen
    | succ m =>
      rw [List.mem_cons, not_or] at hz
      have hhead : strncpy a o (c :: t) (m + 1) o = c := by simp [strncpy]
      have htail : cstr (strncpy a o (c :: t) (m + 1)) (o + 1) (m + 1) = t := by
        have hend' : a (o + 1 + m) = 0#8 := by
          rw [← hend]; congr 1; omega
        refine Eq.trans (cstr_congr ?_) (ih (by simpa using hlen) hz.2 hend')
        intro j hj hj'
        unfold strncpy
        by_cases hjm : j < o + 1 + m
        · rw [if_pos ⟨by omega, by omega⟩, if_pos ⟨hj, hjm⟩]
          have hidx : j - o = (j - (o + 1)) + 1 := by omega
          rw [hidx, List.getD_cons_succ]
        · rw [if_neg (by omega), if_neg (by omega)]
      rw [cstr, hhead, if_neg (fun h => hz.1 h.symm), htail]

end Xos.Lib
