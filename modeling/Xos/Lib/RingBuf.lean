import Mathlib.Data.Nat.ModEq
import Mathlib.Logic.Function.Basic

/-!
# Ring buffers

A queue kept in an array of `d` cells by a head, a tail and a count.  What it stands for is
the list of its elements, oldest first (`RingBuf.toList`); storing at the tail appends
(`toList_push`) and taking at the head removes the first element (`toList_pop`).  A ring may also be
addressed by two counters that run modulo a multiple of `d` (`RingBuf.ofCounters`).
-/

namespace Xos.Lib

open Function

/-- A queue in an array: `head` is the oldest element, `tail` the next free cell. -/
structure RingBuf (M : Type*) where
  buf : ℕ → M
  head : ℕ
  tail : ℕ
  count : ℕ

namespace RingBuf

variable {M : Type*} {d : ℕ} {r : RingBuf M} {m : M}

/-- Store at the tail. -/
def push (d : ℕ) (r : RingBuf M) (m : M) : RingBuf M where
  buf := update r.buf r.tail m
  head := r.head
  tail := (r.tail + 1) % d
  count := r.count + 1

/-- Give up the element at the head, which is `r.buf r.head`. -/
def pop (d : ℕ) (r : RingBuf M) : RingBuf M :=
  { r with head := (r.head + 1) % d, count := r.count - 1 }

/-- The elements, oldest first. -/
def toList (d : ℕ) (r : RingBuf M) : List M :=
  (List.range r.count).map fun i => r.buf ((r.head + i) % d)

/-- The indices fit together: the `count` cells from `head` on end at `tail`. -/
structure WF (d : ℕ) (r : RingBuf M) : Prop where
  head : r.head < d
  tail : r.tail = (r.head + r.count) % d
  count : r.count ≤ d

theorem wf_empty (buf : ℕ → M) (hd : 0 < d) : WF d ⟨buf, 0, 0, 0⟩ :=
  ⟨hd, (Nat.zero_mod d).symm, Nat.zero_le d⟩

theorem WF.push (h : WF d r) (hc : r.count < d) : WF d (r.push d m) where
  head := h.head
  tail := by
    show (r.tail + 1) % d = (r.head + (r.count + 1)) % d
    rw [h.tail, Nat.mod_add_mod, Nat.add_assoc]
  count := hc

theorem WF.pop (h : WF d r) (hc : 0 < r.count) : WF d (r.pop d) where
  head := Nat.mod_lt _ (Nat.lt_of_le_of_lt (Nat.zero_le _) h.head)
  tail := by
    show r.tail = ((r.head + 1) % d + (r.count - 1)) % d
    rw [h.tail, Nat.mod_add_mod]
    congr 1
    omega
  count := by
    have hle := h.count
    show r.count - 1 ≤ d
    omega

/-- Two cells of a ring that are less than `d` apart are different. -/
theorem cell_ne (hij : i < j) (hj : j < d) : (a + i) % d ≠ (a + j) % d := by
  intro h
  have hmod : i % d = j % d := Nat.ModEq.add_left_cancel' a h
  rw [Nat.mod_eq_of_lt (by omega), Nat.mod_eq_of_lt hj] at hmod
  omega

/-- **Storing appends.** -/
theorem toList_push (h : WF d r) (hc : r.count < d) : (r.push d m).toList d = r.toList d ++ [m] := by
  have hlast : (r.push d m).buf ((r.head + r.count) % d) = m := by
    rw [← h.tail]
    exact update_self ..
  have hrest : ∀ i ∈ List.range r.count,
      (r.push d m).buf ((r.head + i) % d) = r.buf ((r.head + i) % d) := by
    intro i hi
    rw [List.mem_range] at hi
    apply update_of_ne
    rw [h.tail]
    exact cell_ne hi hc
  show ((List.range (r.count + 1)).map fun i => (r.push d m).buf ((r.head + i) % d)) = _
  rw [List.range_succ, List.map_append, List.map_singleton, hlast, List.map_congr_left hrest]
  rfl

/-- **Taking removes the first element.** -/
theorem toList_pop (hc : 0 < r.count) (hh : r.head < d) :
    r.toList d = r.buf r.head :: (r.pop d).toList d := by
  obtain ⟨n, hn⟩ : ∃ n, r.count = n + 1 := ⟨r.count - 1, by omega⟩
  have htail : (r.pop d).count = n := by
    show r.count - 1 = n
    omega
  rw [toList, toList, hn, htail, List.range_succ_eq_map, List.map_cons, List.map_map, Nat.add_zero,
    Nat.mod_eq_of_lt hh]
  congr 1
  apply List.map_congr_left
  intro i _
  show r.buf ((r.head + (i + 1)) % d) = r.buf (((r.head + 1) % d + i) % d)
  rw [Nat.mod_add_mod]
  congr 2
  omega

/-- The newest element is the one before the tail. -/
theorem toList_last (hc : 0 < r.count) : r.toList d =
    ({ r with count := r.count - 1 } : RingBuf M).toList d ++
      [r.buf ((r.head + (r.count - 1)) % d)] := by
  have hn : r.count = r.count - 1 + 1 := by omega
  rw [toList, hn, List.range_succ, List.map_append]
  rfl

/-- Storing over the newest element. -/
theorem toList_setLast (hc : 0 < r.count) (hd : r.count ≤ d) :
    ({ r with buf := update r.buf ((r.head + (r.count - 1)) % d) m } : RingBuf M).toList d =
      ({ r with count := r.count - 1 } : RingBuf M).toList d ++ [m] := by
  refine (toList_last (r := ⟨update r.buf _ m, r.head, r.tail, r.count⟩) hc).trans ?_
  congr 1
  · apply List.map_congr_left
    intro i hi
    replace hi : i < r.count - 1 := List.mem_range.mp hi
    exact update_of_ne (cell_ne hi (by omega)) ..
  · exact congrArg (fun x => [x]) (update_self ..)

theorem length_toList (d : ℕ) (r : RingBuf M) : (r.toList d).length = r.count := by
  rw [toList, List.length_map, List.length_range]

theorem toList_of_count_eq_zero (h : r.count = 0) : r.toList d = [] := by
  rw [toList, h, List.range_zero, List.map_nil]

/-- Taking `k` elements removes the first `k`. -/
theorem wf_iterate_pop (h : WF d r) (hk : k ≤ r.count) :
    WF d ((pop d)^[k] r) ∧ ((pop d)^[k] r).toList d = (r.toList d).drop k := by
  induction k with
  | zero => exact ⟨h, rfl⟩
  | succ k ih =>
    obtain ⟨hw, hlist⟩ := ih (by omega)
    have hc : 0 < ((pop d)^[k] r).count := by
      rw [← length_toList d, hlist, List.length_drop, length_toList]
      omega
    rw [iterate_succ_apply']
    refine ⟨hw.pop hc, ?_⟩
    rw [← List.drop_drop, ← hlist, toList_pop hc hw.head, List.drop_one, List.tail_cons]

/-- Storing one after the other appends the list. -/
theorem wf_foldl_push (h : WF d r) (hl : r.count + l.length ≤ d) :
    WF d (l.foldl (push d) r) ∧ (l.foldl (push d) r).toList d = r.toList d ++ l := by
  induction l generalizing r with
  | nil => exact ⟨h, (List.append_nil _).symm⟩
  | cons m l ih =>
    rw [List.length_cons] at hl
    have hc : r.count < d := by omega
    have hl' : (r.push d m).count + l.length ≤ d := by
      show r.count + 1 + l.length ≤ d
      omega
    obtain ⟨hw, hlist⟩ := ih (h.push hc) hl'
    rw [toList_push h hc, List.append_assoc] at hlist
    exact ⟨hw, hlist⟩

/-! ## Counters -/

/-- The cells between two counters modulo `m`, of which each is taken modulo `d`. -/
def ofCounters (m d : ℕ) (buf : ℕ → M) (lo hi : ℕ) : RingBuf M where
  buf := buf
  head := lo % d
  tail := hi % d
  count := (hi + m - lo) % m

variable {k lo hi : ℕ} {buf : ℕ → M}

theorem wf_ofCounters (hd : 0 < d) (hdvd : d ∣ k) (hlo : lo < k)
    (hc : (ofCounters k d buf lo hi).count ≤ d) : WF d (ofCounters k d buf lo hi) where
  head := Nat.mod_lt _ hd
  tail := by
    show hi % d = (lo % d + (hi + k - lo) % k) % d
    rw [Nat.mod_add_mod, ← Nat.add_mod_mod, Nat.mod_mod_of_dvd _ hdvd, Nat.add_mod_mod,
      Nat.add_sub_of_le (by omega), Nat.add_mod, Nat.mod_eq_zero_of_dvd hdvd, Nat.add_zero,
      Nat.mod_mod]
  count := hc

/-- A store at the upper counter, which then moves on. -/
theorem ofCounters_push (hdvd : d ∣ k) (hlo : lo < k)
    (hc : (ofCounters k d buf lo hi).count + 1 < k) :
    ofCounters k d (update buf (hi % d) m) lo ((hi + 1) % k) =
      (ofCounters k d buf lo hi).push d m := by
  have htail : (hi + 1) % k % d = (hi % d + 1) % d := by
    rw [Nat.mod_mod_of_dvd _ hdvd, Nat.mod_add_mod]
  have hcount : ((hi + 1) % k + k - lo) % k = (hi + k - lo) % k + 1 := by
    have hc' : (hi + k - lo) % k + 1 < k := hc
    have hstep : ((hi + 1) % k + k - lo) % k = (hi + k - lo + 1) % k := by
      rw [Nat.add_sub_assoc (by omega), Nat.mod_add_mod]
      congr 1
      omega
    rw [hstep, ← Nat.mod_add_mod, Nat.mod_eq_of_lt hc']
  unfold ofCounters push
  rw [htail, hcount]

/-- The lower counter moves on. -/
theorem ofCounters_pop (hdvd : d ∣ k) (hlo : lo < k) (hhi : hi < k) (hne : lo ≠ hi) :
    ofCounters k d buf ((lo + 1) % k) hi = (ofCounters k d buf lo hi).pop d := by
  have hhead : (lo + 1) % k % d = (lo % d + 1) % d := by
    rw [Nat.mod_mod_of_dvd _ hdvd, Nat.mod_add_mod]
  have hcount : (hi + k - (lo + 1) % k) % k = (hi + k - lo) % k - 1 := by
    rcases Nat.lt_or_ge lo hi with hlt | hge
    · rw [Nat.mod_eq_of_lt (show lo + 1 < k by omega), show hi + k - lo = hi - lo + k by omega,
        show hi + k - (lo + 1) = hi - lo - 1 + k by omega, Nat.add_mod_right, Nat.add_mod_right,
        Nat.mod_eq_of_lt (by omega), Nat.mod_eq_of_lt (by omega)]
    rw [Nat.mod_eq_of_lt (show hi + k - lo < k by omega)]
    rcases Nat.lt_or_ge (lo + 1) k with hlast | hlast
    · rw [Nat.mod_eq_of_lt hlast, Nat.mod_eq_of_lt (by omega)]
      omega
    rw [show lo + 1 = k by omega, Nat.mod_self, Nat.sub_zero, Nat.add_mod_right,
      Nat.mod_eq_of_lt hhi]
    omega
  unfold ofCounters pop
  rw [hhead, hcount]

theorem ofCounters_empty (h : lo = hi) : (ofCounters k d buf lo hi).count = 0 := by
  show (hi + k - lo) % k = 0
  rw [h, Nat.add_sub_cancel_left, Nat.mod_self]

theorem ofCounters_count_pos (hlo : lo < k) (hhi : hi < k) (hne : lo ≠ hi) :
    0 < (ofCounters k d buf lo hi).count := by
  show 0 < (hi + k - lo) % k
  rcases Nat.lt_or_ge lo hi with hlt | hge
  · rw [show hi + k - lo = hi - lo + k by omega, Nat.add_mod_right, Nat.mod_eq_of_lt (by omega)]
    omega
  · rw [Nat.mod_eq_of_lt (by omega)]
    omega

theorem toList_ofCounters_pop (hd : 0 < d) (hdvd : d ∣ k) (hlo : lo < k) (hhi : hi < k)
    (hne : lo ≠ hi) : (ofCounters k d buf lo hi).toList d =
      buf (lo % d) :: (ofCounters k d buf ((lo + 1) % k) hi).toList d := by
  rw [ofCounters_pop hdvd hlo hhi hne]
  exact toList_pop (ofCounters_count_pos hlo hhi hne) (Nat.mod_lt _ hd)

theorem toList_ofCounters_push (h : WF d (ofCounters k d buf lo hi)) (hdvd : d ∣ k) (hlo : lo < k)
    (hdk : d < k) (hc : (ofCounters k d buf lo hi).count < d) :
    (ofCounters k d (update buf (hi % d) m) lo ((hi + 1) % k)).toList d =
      (ofCounters k d buf lo hi).toList d ++ [m] := by
  rw [ofCounters_push hdvd hlo (by omega), toList_push h hc]

end RingBuf

end Xos.Lib
