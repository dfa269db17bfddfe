import Mathlib.Algebra.Order.Group.Nat
import Mathlib.Data.List.Basic

/-!
# The time since boot

`kernel/hal/timers/timer.c`: the time stamp counter (TSC) is read and converted with the frequency
that was found at boot.  The conversion multiplies before it divides, modulo `2 ^ 64`.

* **Exact** — if and only if the product fits into 64 bits the time is the floor of the exact
  quotient, so it never goes back, and microseconds are nanoseconds divided by 1000
  (`systime_exact_iff`);
* **Not exact** — a counter of 3 GHz is past that point after six seconds, and the time starts again
  at zero (`systimeNs_goes_back`).
-/

namespace Xos.Hal.Timer

/-- `g_tsc_freq_hz` and `g_tsc_boot`. -/
structure Tsc where
  freqHz : ℕ
  boot : ℕ

/-- `tsc_calibrate`: `tscKhz` is what CPUID says, `start` and `stop` are the readings 50 ticks apart,
`now` is the last reading. -/
def tscCalibrate (tscKhz start stop now : ℕ) : Tsc :=
  if 0 < tscKhz then ⟨tscKhz * 1000, now⟩
  else ⟨(stop + 2 ^ 64 - start) % 2 ^ 64 * 20 % 2 ^ 64, now⟩

/-- The time at the reading `tsc` in parts of a second; `perTick` is used without a frequency. -/
def systime (perSecond perTick : ℕ) (c : Tsc) (ticks tsc : ℕ) : ℕ :=
  if c.freqHz = 0 then ticks * perTick % 2 ^ 64
  else (tsc + 2 ^ 64 - c.boot) % 2 ^ 64 * perSecond % 2 ^ 64 / c.freqHz

/-- `systime_ns`. -/
def systimeNs : Tsc → ℕ → ℕ → ℕ := systime 1000000000 1000000

/-- `systime_us`. -/
def systimeUs : Tsc → ℕ → ℕ → ℕ := systime 1000000 1000

variable {c : Tsc} {ticks r : ℕ}

theorem systime_eq (hf : 0 < c.freqHz) (hr : c.boot ≤ r ∧ r < 2 ^ 64)
    (hfit : (r - c.boot) * perSecond < 2 ^ 64) :
    systime perSecond perTick c ticks r = (r - c.boot) * perSecond / c.freqHz := by
  have hdelta : (r + 2 ^ 64 - c.boot) % 2 ^ 64 = r - c.boot := by omega
  rw [systime, if_neg (Nat.ne_of_gt hf), hdelta, Nat.mod_eq_of_lt hfit]

/-- Floors of exact products never go back. -/
theorem pairwise_map_time {n : ℕ} {rs : List ℕ} {time : ℕ → ℕ} (hsorted : rs.Pairwise (· ≤ ·))
    (htime : ∀ r ∈ rs, time r = (r - c.boot) * n / c.freqHz) :
    (rs.map time).Pairwise (· ≤ ·) := by
  refine List.pairwise_map.mpr (hsorted.imp_of_mem ?_)
  intro a b ha hb hab
  rw [htime a ha, htime b hb]
  exact Nat.div_le_div_right (Nat.mul_le_mul_right _ (Nat.sub_le_sub_right hab _))

/-- What is asked of the clock over some readings: both times are floors of the exact quotients,
microseconds are nanoseconds divided by 1000, and neither time goes back. -/
def Exact (c : Tsc) (ticks : ℕ) (rs : List ℕ) : Prop :=
  (∀ r ∈ rs, systimeNs c ticks r = (r - c.boot) * 1000000000 / c.freqHz ∧
    systimeUs c ticks r = (r - c.boot) * 1000000 / c.freqHz ∧
    systimeUs c ticks r = systimeNs c ticks r / 1000) ∧
  (rs.map (systimeNs c ticks)).Pairwise (· ≤ ·) ∧
  (rs.map (systimeUs c ticks)).Pairwise (· ≤ ·)

theorem exact_of_fit {rs : List ℕ} (hf : 0 < c.freqHz) (hsorted : rs.Pairwise (· ≤ ·))
    (hr : ∀ r ∈ rs, c.boot ≤ r ∧ r < 2 ^ 64)
    (hfit : ∀ r ∈ rs, (r - c.boot) * 1000000000 < 2 ^ 64) : Exact c ticks rs := by
  have hns : ∀ r ∈ rs, systimeNs c ticks r = (r - c.boot) * 1000000000 / c.freqHz := by
    intro r hmem
    rw [systimeNs, systime_eq hf (hr r hmem) (hfit r hmem)]
  have hus : ∀ r ∈ rs, systimeUs c ticks r = (r - c.boot) * 1000000 / c.freqHz := by
    intro r hmem
    have hlt : (r - c.boot) * 1000000 < 2 ^ 64 :=
      Nat.lt_of_le_of_lt (Nat.mul_le_mul_left _ (by decide)) (hfit r hmem)
    rw [systimeUs, systime_eq hf (hr r hmem) hlt]
  refine ⟨fun r hmem => ⟨hns r hmem, hus r hmem, ?_⟩, pairwise_map_time hsorted hns,
    pairwise_map_time hsorted hus⟩
  -- a factor of 1000 goes from the product to the divisor
  rw [hns r hmem, hus r hmem, Nat.div_div_eq_div_mul,
    ← Nat.mul_div_mul_right _ c.freqHz (show 0 < 1000 by decide), Nat.mul_assoc]

/-- A product that wraps loses at least `2 ^ 64`, and so at least one unit of the quotient. -/
theorem fit_of_div_eq {x f : ℕ} (hf : 0 < f) (hf' : f < 2 ^ 64) (h : x % 2 ^ 64 / f = x / f) :
    x < 2 ^ 64 := by
  by_contra hx
  have hle : x % 2 ^ 64 + f ≤ x := by omega
  have hdiv : (x % 2 ^ 64 + f) / f ≤ x / f := Nat.div_le_div_right hle
  rw [Nat.add_div_right _ hf] at hdiv
  omega

/-- **The time is exact and does not go back** over readings at or after the boot value if and only
if every product of a difference with `10 ^ 9` fits into 64 bits. -/
theorem systime_exact_iff {rs : List ℕ} (hf : 0 < c.freqHz ∧ c.freqHz < 2 ^ 64)
    (hsorted : rs.Pairwise (· ≤ ·)) (hr : ∀ r ∈ rs, c.boot ≤ r ∧ r < 2 ^ 64) :
    Exact c ticks rs ↔ ∀ r ∈ rs, (r - c.boot) * 1000000000 < 2 ^ 64 := by
  refine ⟨fun h r hmem => ?_, exact_of_fit hf.1 hsorted hr⟩
  have hns := (h.1 r hmem).1
  have hdelta : (r + 2 ^ 64 - c.boot) % 2 ^ 64 = r - c.boot := by
    have := hr r hmem
    omega
  rw [systimeNs, systime, if_neg (Nat.ne_of_gt hf.1), hdelta] at hns
  exact fit_of_div_eq hf.1 hf.2 hns

/-- Two readings of a counter of 3 GHz, one and six seconds after boot. -/
theorem six_seconds_exact :
    [3000000000, 18446744073].map (systimeNs (tscCalibrate 3000000 0 0 0) 0) =
      [1000000000, 6148914691] ∧
    Exact (tscCalibrate 3000000 0 0 0) 0 [3000000000, 18446744073] :=
  ⟨by decide +kernel,
    (systime_exact_iff ⟨by decide, by decide⟩ (by decide) (by decide)).mpr (by decide)⟩

/-- **One more cycle, and the clock starts again.** -/
theorem systimeNs_goes_back : systimeNs (tscCalibrate 3000000 0 0 0) 0 18446744073 = 6148914691 ∧
    systimeNs (tscCalibrate 3000000 0 0 0) 0 18446744074 = 0 ∧
    18446744074 * 1000000000 / (tscCalibrate 3000000 0 0 0).freqHz = 6148914691 := by
  decide +kernel

end Xos.Hal.Timer
