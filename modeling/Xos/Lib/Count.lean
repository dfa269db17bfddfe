import Mathlib.Algebra.BigOperators.Group.Finset.Basic
import Mathlib.Data.Fintype.Card
import Mathlib.Algebra.Order.BigOperators.Group.Finset

/-!
# Counting the members of a finite type

How many elements of a finite type pass a test, and how the number changes when the test changes at
one element (`count_exchange`).  A counter that a program keeps up to date is compared with such a
number.
-/

namespace Xos.Lib

variable {P : Type*} [Fintype P] {f f' : P → Bool} {p : P}

/-- The number of elements that pass the test `f`. -/
def count (f : P → Bool) : ℕ := ∑ x, (f x).toNat

/-- **Change at one element.**  Two tests that agree everywhere else differ in number by what they
say about that element. -/
theorem count_exchange (h : ∀ x, x ≠ p → f' x = f x) :
    count f' + (f p).toNat = count f + (f' p).toNat := by
  classical
  have hrest : ∑ x ∈ Finset.univ.erase p, (f' x).toNat = ∑ x ∈ Finset.univ.erase p, (f x).toNat := by
    refine Finset.sum_congr rfl fun x hx => ?_
    rw [h x (Finset.ne_of_mem_erase hx)]
  unfold count
  rw [← Finset.add_sum_erase _ (fun x => (f' x).toNat) (Finset.mem_univ p),
    ← Finset.add_sum_erase _ (fun x => (f x).toNat) (Finset.mem_univ p)]
  omega

/-- Nobody passes, nothing is counted. -/
theorem count_eq_zero : count f = 0 ↔ ∀ x, f x = false := by
  unfold count
  rw [Finset.sum_eq_zero_iff]
  constructor
  · intro h x
    exact Bool.toNat_eq_zero.mp (h x (Finset.mem_univ x))
  · intro h x _
    rw [h x]
    rfl

theorem count_pos (h : f p = true) : 0 < count f := by
  rw [Nat.pos_iff_ne_zero]
  intro h0
  rw [count_eq_zero.mp h0 p] at h
  cases h

theorem count_le_card : count f ≤ Fintype.card P := by
  calc ∑ x, (f x).toNat ≤ ∑ _x : P, 1 := Finset.sum_le_sum fun x _ => Bool.toNat_le (f x)
    _ = Fintype.card P := by simp

end Xos.Lib
