import Mathlib.Data.Int.Notation
import Mathlib.Data.List.Basic
import Mathlib.Algebra.Order.Group.Nat
import Mathlib.Algebra.GroupWithZero.Nat

/-!
# Space of mbufs

`m_get2` and `mc_get` of `bsd/compat/compat_shims.c`.  An mbuf has 224 bytes of its own, 160 behind a
packet header, or a cluster of 2048 bytes.  `m_get2` compares with the space of a plain mbuf and
takes one with a header; `mc_get` subtracts a whole cluster from a remainder that may be smaller, and
the unsigned remainder wraps.

* **Capacity** — for which lengths and sizes the two functions keep their promise whatever the
  allocators do (`mbuf_capacity_iff`);
* **Failure** — 200 bytes in an mbuf of 160, and a chain for 300 bytes that does not end
  (`mbuf_short`).
-/

namespace Xos.Net.Bufs

/-- The flags `M_PKTHDR` and `M_EXT`. -/
structure Mbuf where
  pkthdr : Bool
  ext : Bool
  deriving DecidableEq

/-- `MHLEN` or `MLEN`. -/
def plainSpace (pkthdr : Bool) : ℕ := if pkthdr then 160 else 224

/-- The contiguous bytes of an mbuf; a cluster has `MCLBYTES`. -/
def Mbuf.space (m : Mbuf) : ℕ := if m.ext then 2048 else plainSpace m.pkthdr

/-- `m_get2`: `hdr` and `clust` say whether the two allocations succeed.  A length beyond a cluster
takes the same steps as one within it. -/
def mGet2 (len : ℤ) (hdr clust : Bool) : Option Mbuf :=
  if !hdr then none
  else if len ≤ 224 then some ⟨true, false⟩
  else if !clust then none
  else some ⟨true, true⟩

/-- The end of `mc_get`: success with a chain, or `ENOBUFS` after the mbufs were freed. -/
inductive Result
  | ok (chain : List Mbuf)
  | enobufs (freed : List Mbuf)
  deriving DecidableEq

/-- The loop of `mc_get` with the number of mbufs that it was given so far, its chain and what
remains; `get i` and `clust i` say whether the allocations for the mbuf number `i` succeed.  The
result comes with the number of mbufs it was given, and `none` says that the loop goes on after
`rounds` more of them. -/
def mcLoop (get clust : ℕ → Bool) (pkthdr : Bool) :
    ℕ → ℕ → List Mbuf → ℕ → Option (Result × ℕ)
  | rounds, gets, chain, remaining =>
    let hdr := pkthdr && chain.length == 0
    if remaining = 0 then some (.ok chain, gets)
    else if !get gets then some (.enobufs chain, gets)
    else match rounds with
      | 0 => none
      | rounds + 1 =>
        let m : Mbuf := ⟨hdr, clust gets⟩
        if remaining ≤ plainSpace hdr then some (.ok (chain ++ [⟨hdr, false⟩]), gets + 1)
        else mcLoop get clust pkthdr rounds (gets + 1) (chain ++ [m])
          ((remaining + 2 ^ 32 - m.space) % 2 ^ 32)

/-- `mc_get` as long as it is given at most `rounds` mbufs. -/
def mcGet (get clust : ℕ → Bool) (pkthdr : Bool) (rounds size : ℕ) : Option (Result × ℕ) :=
  mcLoop get clust pkthdr rounds 0 [] size

/-- What `mc_get` promises: it ends within `2 + size / MLEN` mbufs, with enough space or with as many
mbufs freed as it was given. -/
def Kept (get clust : ℕ → Bool) (pkthdr : Bool) (size : ℕ) : Prop :=
  ∃ r gets, mcGet get clust pkthdr (2 + size / 224) size = some (r, gets) ∧
    (∀ chain, r = .ok chain → size ≤ (chain.map Mbuf.space).sum) ∧
    ∀ freed, r = .enobufs freed → freed.length = gets

variable {get clust : ℕ → Bool} {pkthdr : Bool} {n k r gets size : ℕ} {chain freed : List Mbuf}

/-- **Nothing leaks**: the mbufs that are freed on `ENOBUFS` are as many as were allocated. -/
theorem mcLoop_enobufs (hchain : chain.length = k)
    (h : mcLoop get clust pkthdr n k chain r = some (.enobufs freed, gets)) :
    freed.length = gets := by
  induction n generalizing k chain r with
  | zero =>
    rw [mcLoop] at h
    split_ifs at h
    · cases h
    · cases h
      exact hchain
  | succ n ih =>
    rw [mcLoop] at h
    dsimp only at h
    split_ifs at h
    · cases h
    · cases h
      exact hchain
    · cases h
    · exact ih (by simp [hchain]) h

/-- A round that is not the last one. -/
theorem mcLoop_succ (hhdr : (pkthdr && chain.length == 0) = hdr) (hr : plainSpace hdr < r) :
    mcLoop (fun _ => true) clust pkthdr (n + 1) gets chain r =
      mcLoop (fun _ => true) clust pkthdr n (gets + 1) (chain ++ [⟨hdr, clust gets⟩])
        ((r + 2 ^ 32 - Mbuf.space ⟨hdr, clust gets⟩) % 2 ^ 32) := by
  rw [mcLoop]
  simp only [hhdr, Bool.not_true, Bool.false_eq_true, if_false]
  rw [if_neg (by omega), if_neg (by omega)]

/-- Rounds without clusters. -/
theorem mcLoop_plain (k : ℕ) (hchain : chain ≠ []) (hr : 224 * k < r) (hlt : r < 2 ^ 32)
    (hclust : ∀ i, gets ≤ i → i < gets + k → clust i = false) :
    mcLoop (fun _ => true) clust pkthdr (k + n) gets chain r =
      mcLoop (fun _ => true) clust pkthdr n (gets + k)
        (chain ++ List.replicate k ⟨false, false⟩) (r - 224 * k) := by
  induction k generalizing gets chain r with
  | zero => simp
  | succ k ih =>
    have hlen : (pkthdr && chain.length == 0) = false := by simp [hchain]
    have hmod : (r + 2 ^ 32 - Mbuf.space ⟨false, false⟩) % 2 ^ 32 = r - 224 := by
      simp only [Mbuf.space, plainSpace, Bool.false_eq_true, if_false]
      omega
    have hspace : plainSpace false < r := by
      simp only [plainSpace, Bool.false_eq_true, if_false]
      omega
    rw [Nat.add_right_comm, mcLoop_succ hlen hspace, hclust _ (Nat.le_refl _) (by omega), hmod,
      ih (by simp) (by omega) (by omega) fun i h1 h2 => hclust i (by omega) (by omega)]
    rw [List.append_assoc, List.singleton_append, ← List.replicate_succ, Nat.sub_sub,
      Nat.mul_succ, Nat.add_comm 224, Nat.add_assoc gets, Nat.add_comm 1]

/-- A loop with something left to allocate goes on. -/
theorem mcLoop_none (hchain : chain ≠ []) (hr : 224 * n < r) (hlt : r < 2 ^ 32)
    (hclust : ∀ i, gets ≤ i → clust i = false) :
    mcLoop (fun _ => true) clust pkthdr n gets chain r = none := by
  have h : mcLoop _ clust pkthdr (n + 0) gets chain r = _ :=
    mcLoop_plain n hchain hr hlt fun i h1 _ => hclust i h1
  rw [← Nat.add_zero n, h, mcLoop]
  simp
  omega

/-- **One cluster too large.**  A size beyond the first mbuf meets an allocator that gives mbufs for
ever and one cluster, in the round where less than a cluster is left. -/
theorem mcGet_wraps (hsize : plainSpace pkthdr < size) (hlt : size < 2 ^ 32) :
    ∃ clust, mcGet (fun _ => true) clust pkthdr (2 + size / 224) size = none := by
  have hplain : plainSpace pkthdr ≤ 224 := by cases pkthdr <;> decide
  have hhdr : (pkthdr && ([] : List Mbuf).length == 0) = pkthdr := by simp
  have hcluster : ∀ {hdr r}, r < 2048 → (r + 2 ^ 32 - Mbuf.space ⟨hdr, true⟩) % 2 ^ 32 =
      r + 2 ^ 32 - 2048 := fun hr => by
    simp only [Mbuf.space, if_true]
    omega
  by_cases hsmall : size < 2048
  · refine ⟨fun i => i == 0, ?_⟩
    rw [mcGet, show 2 + size / 224 = (1 + size / 224) + 1 by omega, mcLoop_succ hhdr hsize]
    exact (congrArg _ (hcluster hsmall)).trans
      (mcLoop_none (by simp) (by omega) (by omega) fun i hi => by simp at hi ⊢; omega)
  -- The plain mbufs before the cluster, the first of them apart.
  obtain ⟨k, r, hr, hk, hleft⟩ : ∃ k r, r < 2048 ∧ k ≤ size / 224 ∧ 1824 ≤ r ∧
      size - plainSpace pkthdr = r + 224 * k := by
    by_cases hone : size - plainSpace pkthdr < 2048
    · exact ⟨0, _, hone, by omega, by omega, rfl⟩
    · exact ⟨(size - plainSpace pkthdr - 2048) / 224 + 1,
        1824 + (size - plainSpace pkthdr - 2048) % 224, by omega, by omega, by omega, by omega⟩
  refine ⟨fun i => i == k + 1, ?_⟩
  have hfirst : (size + 2 ^ 32 - Mbuf.space ⟨pkthdr, false⟩) % 2 ^ 32 = r + 224 * k := by
    simp only [Mbuf.space, Bool.false_eq_true, if_false]
    omega
  rw [mcGet, show 2 + size / 224 = k + (size / 224 - k + 1) + 1 by omega,
    mcLoop_succ hhdr hsize, show (0 == k + 1) = false from rfl, hfirst,
    mcLoop_plain k (by simp) (by omega) (by omega) fun i _ hi => by simp at hi ⊢; omega,
    Nat.add_sub_cancel, mcLoop_succ (show _ = false by simp) (by simp [plainSpace]; omega)]
  have hlast : (0 + 1 + k == k + 1) = true := by simp [Nat.add_comm]
  rw [List.nil_append, hlast, hcluster hr]
  exact mcLoop_none (by simp) (by omega) (by omega) fun i hi => by simp at hi ⊢; omega

/-- **Capacity.**  Whatever the allocators do, `m_get2` returns nothing or enough contiguous space,
if and only if the length fits an mbuf with a packet header, or fits a cluster and not a plain mbuf.
`mc_get` ends within its bound, with enough space or with everything freed, if and only if the size
fits the first mbuf; and wherever it ends with `ENOBUFS`, everything it was given is freed. -/
theorem mbuf_capacity_iff (len : ℤ) (hlt : size < 2 ^ 32) :
    ((∀ hdr clust m, mGet2 len hdr clust = some m → len ≤ m.space) ↔
      len ≤ 160 ∨ 224 < len ∧ len ≤ 2048) ∧
    ((∀ get clust, Kept get clust pkthdr size) ↔ size ≤ plainSpace pkthdr) ∧
    ∀ get clust rounds freed gets,
      mcGet get clust pkthdr rounds size = some (.enobufs freed, gets) → freed.length = gets := by
  refine ⟨⟨fun h => ?_, ?_⟩, ⟨fun h => ?_, fun hsize get clust => ?_⟩,
    fun get clust rounds freed gets => mcLoop_enobufs rfl⟩
  · by_cases hle : len ≤ 224
    · have := h true true ⟨true, false⟩ (by simp [mGet2, hle])
      simp [Mbuf.space, plainSpace] at this
      omega
    have := h true true ⟨true, true⟩ (by simp [mGet2, hle])
    simp [Mbuf.space] at this
    omega
  · rintro hlen hdr clust m hm
    simp only [mGet2] at hm
    split_ifs at hm <;> cases hm <;> simp [Mbuf.space, plainSpace] <;> omega
  · by_contra hsize
    obtain ⟨clust, hnone⟩ := mcGet_wraps (Nat.lt_of_not_le hsize) hlt
    obtain ⟨r, gets, hr, -⟩ := h (fun _ => true) clust
    simp [hnone] at hr
  · rw [Kept, mcGet, Nat.add_comm, mcLoop]
    by_cases hzero : size = 0
    · simp [hzero]
    · cases get 0 <;> simp [hzero, hsize, Mbuf.space]

/-- A length and a size that meet the conditions. -/
theorem mbuf_capacity_small :
    ((∀ hdr clust m, mGet2 2000 hdr clust = some m → (2000 : ℤ) ≤ m.space) ↔
      (2000 : ℤ) ≤ 160 ∨ (224 : ℤ) < 2000 ∧ (2000 : ℤ) ≤ 2048) ∧
    ((∀ get clust, Kept get clust true 100) ↔ 100 ≤ plainSpace true) ∧
    mcGet (fun i => i == 0) (fun _ => true) true 9 9000 = some (.enobufs [⟨true, true⟩], 1) :=
  have h : _ ∧ ((∀ get clust, Kept get clust true 100) ↔ _) ∧ _ :=
    mbuf_capacity_iff 2000 (by decide)
  ⟨h.1, h.2.1, by decide⟩

/-- **Failure.**  200 bytes are given an mbuf of 160, and 300 bytes take more than the three mbufs
they may when every allocation succeeds. -/
theorem mbuf_short : mGet2 200 true true = some ⟨true, false⟩ ∧ Mbuf.space ⟨true, false⟩ = 160 ∧
      ¬ Kept (fun _ => true) (fun _ => true) false 300 := by
  refine ⟨rfl, rfl, ?_⟩
  rintro ⟨r, gets, hr, -⟩
  cases hr

end Xos.Net.Bufs
