import Mathlib.Data.Fintype.Pigeonhole
import Mathlib.Logic.Function.Iterate

/-!
# The PCI capability list

`msix_parse` of `kernel/hal/pci/msix.c` follows the capability list of a device, whose links are
offsets that the device itself supplies, until it meets an MSI-X capability or the end of the list.
Nothing in the loop bounds the number of its turns.

* **A list that loops** — a capability that is linked to itself keeps the walk busy for ever
  (`msixParse_self_link`);
* **Every other list** — the walk ends, and reports an MSI-X capability exactly when one is on the
  list (`msixParse_iff`).  There are 256 offsets, so a list that does not come back to one of its
  offsets before it stops has stopped within 256 turns.
-/

namespace Xos.Hal.Msix

/-- What the walk reads of a `pci_dev_t`: its configuration space, by aligned offset, and its
base address registers (BARs). -/
structure PciDev where
  dwords : BitVec 8 → BitVec 32
  bar : ℕ → BitVec 64
  barValid : ℕ → Bool

/-- `msix_cap_t`; `table` is the physical address of the table that is mapped. -/
structure MsixCap where
  present : Bool := false
  capOffset : BitVec 8 := 0
  tableBar : BitVec 8 := 0
  tableOffset : BitVec 32 := 0
  pbaBar : BitVec 8 := 0
  pbaOffset : BitVec 32 := 0
  tableSize : BitVec 16 := 0
  table : Option (BitVec 64) := none

namespace PciDev

/-- `pci_read`, which clears the two low bits of the offset. -/
def pciRead (d : PciDev) (offset : BitVec 8) : BitVec 32 := d.dwords (offset &&& 0xFC#8)

/-- The head of the list, at `PCI_CAPABILITY_LIST`. -/
def head (d : PciDev) : BitVec 8 := (d.pciRead 0x34#8).setWidth 8

/-- `cap_id` of the capability at an offset. -/
def capId (d : PciDev) (capPtr : BitVec 8) : BitVec 8 := (d.pciRead capPtr &&& 0xFF#32).setWidth 8

/-- `next` of the capability at an offset. -/
def next (d : PciDev) (capPtr : BitVec 8) : BitVec 8 :=
  (d.pciRead capPtr >>> 8 &&& 0xFF#32).setWidth 8

/-- What `msix_parse` stores for the MSI-X capability at an offset. -/
def msixCap (d : PciDev) (capPtr : BitVec 8) : MsixCap :=
  let msgCtrl := d.pciRead capPtr >>> 16 &&& 0xFFFF#32
  let tblInfo := d.pciRead (capPtr + 4)
  let pbaInfo := d.pciRead (capPtr + 8)
  let tableBar := tblInfo &&& 0x07#32
  let tableOffset := tblInfo &&& 0xFFFFFFF8#32
  { present := true
    capOffset := capPtr
    tableBar := tableBar.setWidth 8
    tableOffset := tableOffset
    pbaBar := (pbaInfo &&& 0x07#32).setWidth 8
    pbaOffset := pbaInfo &&& 0xFFFFFFF8#32
    tableSize := ((msgCtrl &&& 0x7FF#32) + 1).setWidth 16
    table := if tableBar.toNat < 6 ∧ d.barValid tableBar.toNat then
      some (d.bar tableBar.toNat + tableOffset.setWidth 64) else none }

end PciDev

/-- `cap_ptr != 0 && cap_ptr < 0xFF`: there is a capability at the offset. -/
def Entry (capPtr : BitVec 8) : Prop := capPtr ≠ 0 ∧ capPtr < 0xFF#8

instance : DecidablePred Entry := fun _ => inferInstanceAs (Decidable (_ ∧ _))

/-- The loop of `msix_parse`, for at most `turns` turns; `none` if it has not ended by then. -/
def walk (d : PciDev) : ℕ → BitVec 8 → Option (Option MsixCap)
  | 0, _ => none
  | turns + 1, capPtr =>
    if Entry capPtr then
      if d.capId capPtr = 0x11#8 then some (some (d.msixCap capPtr))
      else walk d turns (d.next capPtr)
    else some none

/-- `msix_parse`: its result, and what it leaves in `*out`. -/
def msixParse (d : PciDev) (turns : ℕ) : Option (Bool × MsixCap) :=
  (walk d turns d.head).map fun r => (r.isSome, r.getD {})

/-! ## The list -/

/-- The offset that is `k` links away from the head. -/
def PciDev.link (d : PciDev) (k : ℕ) : BitVec 8 := d.next^[k] d.head

/-- An MSI-X capability is on the list: there is one behind `k` links, with a capability at each of
them. -/
def HasMsix (d : PciDev) : Prop :=
  ∃ k, (∀ i ≤ k, Entry (d.link i)) ∧ d.capId (d.link k) = 0x11#8

/-- The walk returns, and it reports an MSI-X capability exactly when one is on the list. -/
def Right (d : PciDev) : Prop :=
  ∃ turns ok out, msixParse d turns = some (ok, out) ∧ out.present = ok ∧ (ok = true ↔ HasMsix d)

/-- The walk stops at this offset. -/
def Stops (d : PciDev) (capPtr : BitVec 8) : Prop := Entry capPtr → d.capId capPtr = 0x11#8

/-- The list does not come back to one of its offsets before there was one to stop at. -/
def NoLoop (d : PciDev) : Prop :=
  ∀ i j, i < j → d.link i = d.link j → ∃ k < j, Stops d (d.link k)

variable {d : PciDev} {p : BitVec 8}

theorem walk_eq_none (h : ∀ i < n, ¬Stops d (d.next^[i] p)) : walk d n p = none := by
  induction n generalizing p with
  | zero => rfl
  | succ n ih =>
    obtain ⟨hentry, hid⟩ := Classical.not_imp.mp (h 0 n.succ_pos)
    rw [Function.iterate_zero_apply] at hentry hid
    rw [walk, if_pos hentry, if_neg hid]
    exact ih fun i hi => h (i + 1) (by omega)

theorem walk_of_stops (hk : Stops d (d.next^[k] p)) (hbefore : ∀ i < k, ¬Stops d (d.next^[i] p)) :
    walk d (k + 1) p =
      some (if Entry (d.next^[k] p) then some (d.msixCap (d.next^[k] p)) else none) := by
  induction k generalizing p with
  | zero =>
    rw [Function.iterate_zero_apply] at *
    by_cases hentry : Entry p
    · rw [walk, if_pos hentry, if_pos (hk hentry), if_pos hentry]
    · rw [walk, if_neg hentry, if_neg hentry]
  | succ k ih =>
    obtain ⟨hentry, hid⟩ := Classical.not_imp.mp (hbefore 0 k.succ_pos)
    rw [Function.iterate_zero_apply] at hentry hid
    rw [walk, if_pos hentry, if_neg hid, Function.iterate_succ_apply]
    exact ih hk fun i hi => hbefore (i + 1) (by omega)

/-- Among 257 links two lead to the same offset, so without a loop the walk stops. -/
theorem NoLoop.stops (h : NoLoop d) : ∃ k, Stops d (d.link k) := by
  obtain ⟨i, j, hne, heq⟩ := Fintype.exists_ne_map_eq_of_card_lt
    (fun i : Fin 257 => (d.link i).toFin) (by simp)
  have heq : d.link i = d.link j := BitVec.eq_of_toFin_eq heq
  rcases Nat.lt_or_gt_of_ne (Fin.val_ne_of_ne hne) with hlt | hgt
  · obtain ⟨k, -, hk⟩ := h i j hlt heq
    exact ⟨k, hk⟩
  · obtain ⟨k, -, hk⟩ := h j i hgt heq.symm
    exact ⟨k, hk⟩

/-- The first offset to stop at is met before the list repeats itself. -/
theorem noLoop_of_stops (hk : Stops d (d.link k)) (hbefore : ∀ i < k, ¬Stops d (d.link i)) :
    NoLoop d := by
  intro i j hij heq
  refine ⟨k, ?_, hk⟩
  by_contra hjk
  have hearlier : d.link k = d.link (k - j + i) := by
    have hsplit : k = k - j + j := by omega
    unfold PciDev.link at heq ⊢
    rw [Function.iterate_add_apply, heq, ← Function.iterate_add_apply, ← hsplit]
  exact hbefore (k - j + i) (by omega) (hearlier ▸ hk)

/-- **The walk.**  It returns with the right answer for exactly the devices whose list has no loop
in front of the place to stop. -/
theorem msixParse_iff (d : PciDev) : Right d ↔ NoLoop d := by
  classical
  constructor
  · rintro ⟨turns, ok, out, hparse, -⟩
    have hstop : ∃ k, Stops d (d.link k) := by
      by_contra hnone
      rw [not_exists] at hnone
      rw [msixParse, walk_eq_none fun i _ => hnone i] at hparse
      cases hparse
    exact noLoop_of_stops (Nat.find_spec hstop) fun i hi => Nat.find_min hstop hi
  · intro h
    obtain ⟨k, hk, hmin⟩ := Nat.findX h.stops
    refine ⟨k + 1, _, _, congrArg (Option.map _) (walk_of_stops hk hmin), ?_⟩
    by_cases hentry : Entry (d.next^[k] d.head)
    · rw [if_pos hentry]
      refine ⟨rfl, fun _ => ⟨k, fun i hi => ?_, hk hentry⟩, fun _ => rfl⟩
      -- the offsets in front of `k` are no places to stop, so there is a capability at each
      rcases Nat.lt_or_eq_of_le hi with hlt | rfl
      · exact (Classical.not_imp.mp (hmin i hlt)).1
      · exact hentry
    · rw [if_neg hentry]
      refine ⟨rfl, fun hok => (by cases hok), ?_⟩
      rintro ⟨m, hlisted, hid⟩
      -- a capability behind the end of the list is not on it
      have hkm : k ≤ m := by
        by_contra hlt
        exact hmin m (by omega) fun _ => hid
      exact absurd (hlisted k hkm) hentry

/-- A capability at `0x40` that is linked to itself. -/
theorem msixParse_self_link :
    ¬Right ⟨fun o => if o = 0x34#8 then 0x40#32 else 0x4005#32, fun _ => 0, fun _ => false⟩ := by
  rintro ⟨turns, ok, out, hparse, -⟩
  rw [msixParse, walk_eq_none] at hparse
  · cases hparse
  · intro i _
    rw [Function.iterate_fixed (by decide)]
    unfold Stops
    decide

end Xos.Hal.Msix
