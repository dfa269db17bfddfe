import Mathlib.Data.List.Basic

/-!
# Files as lists

Reading and writing at an offset of a file, the file being the list of its bytes.

* `slice l o n` — at most `n` bytes from `o` on;
* `splice l o d` — `d` written at `o`, over what is there and beyond the end.  Written at most
  at the end, it is `l` outside of `d`'s range and `d` in it
  (`getElem?_splice_of_mem`, `getElem?_splice_of_not_mem`).
-/

namespace Xos.Lib

variable {α : Type*}

/-- At most `n` elements from `o` on. -/
def slice (l : List α) (o n : ℕ) : List α := (l.drop o).take n

/-- `d` written at `o`. -/
def splice (l : List α) (o : ℕ) (d : List α) : List α := l.take o ++ d ++ l.drop (o + d.length)

variable {l d : List α} {o n k : ℕ}

theorem length_slice : (slice l o n).length = min n (l.length - o) := by
  simp [slice]

theorem getElem?_slice (h : k < n) : (slice l o n)[k]? = l[o + k]? := by
  rw [slice, List.getElem?_take_of_lt h, List.getElem?_drop]

theorem getElem?_splice_of_mem (h : o ≤ l.length) (hk : o ≤ k) (hk' : k < o + d.length) :
    (splice l o d)[k]? = d[k - o]? := by
  have hlen : (l.take o).length = o := by simp [h]
  rw [splice, List.append_assoc, List.getElem?_append_right (by omega), hlen,
    List.getElem?_append_left (by omega)]

theorem getElem?_splice_of_not_mem (h : o ≤ l.length) (hk : k < o ∨ o + d.length ≤ k) :
    (splice l o d)[k]? = l[k]? := by
  have hlen : (l.take o).length = o := by simp [h]
  rcases hk with hk | hk
  · rw [splice, List.append_assoc, List.getElem?_append_left (by omega),
      List.getElem?_take_of_lt hk]
  rw [splice, List.getElem?_append_right (by rw [List.length_append]; omega),
    List.getElem?_drop, List.length_append]
  congr 1
  omega

theorem splice_nil : splice l o [] = l := by
  simp [splice]

end Xos.Lib
