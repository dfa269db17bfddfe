import Mathlib.Data.List.Nodup
import Xos.Lib.Bytes
import Xos.Lib.RingBuf
import Xos.Lib.Run

/-!
# The receive queue of the network card

`kernel/hal/net/virtio_net.c` on top of the virtqueue of `kernel/hal/virtio/virtio_pci.c`.  The
driver offers sixteen buffers to the card, each by a descriptor.  It takes what the card has used
from the used ring, finds the buffer by a table of its own, copies the packet out and offers the
buffer again.

* **The queue** — `virtqueueAddBuf`, `virtqueueGetUsed`;
* **The driver** — `rxSubmit`, `virtioNetInit`, `virtioNetRecv`;
* **The card** — it learns of a descriptor from the available ring (`fetch`) and at some later time
  writes to the buffer and posts a used entry (`use`), for the descriptors in any order.

Taking a used entry makes all descriptors free (`free_head = 0`), so the buffer is offered by
descriptor 0 again, whatever the card still has.  This is right as long as the entry that is taken
is the one of descriptor 0 (`receive_queue_intact`), and otherwise overwrites a descriptor that the
card was offered (`offered_descriptor_rewritten`).

The addresses of buffers are physical ones, and barriers and notifications are left out.
-/

namespace Xos.Net.Virtio

open Xos.Lib Function

/-! ## The queue -/

/-- `struct vring_desc`. -/
structure Desc where
  addr : ℕ
  len : ℕ
  flags : ℕ
  next : ℕ
  deriving DecidableEq

/-- `struct vring_used_elem`. -/
structure UsedElem where
  id : ℕ
  len : ℕ

/-- `virtqueue_t` with its rings. -/
structure Virtqueue where
  size : ℕ
  freeHead : ℕ
  lastUsed : ℕ
  desc : ℕ → Desc
  availRing : ℕ → ℕ
  availIdx : ℕ
  usedRing : ℕ → UsedElem
  usedIdx : ℕ

/-- `VRING_DESC_F_NEXT`. -/
def vringDescFNext : ℕ := 1

/-- `VRING_DESC_F_WRITE`. -/
def vringDescFWrite : ℕ := 2

/-- What a descriptor is to say of a buffer: its address, its length and the flags. -/
structure Buf where
  addr : ℕ
  len : ℕ
  flags : ℕ

/-- The loop of `virtqueue_add_buf`. -/
def describe : Virtqueue → List Buf → Virtqueue
  | q, [] => q
  | q, b :: bs =>
    let idx := q.freeHead
    let d : Desc :=
      if bs.isEmpty then ⟨b.addr, b.len, b.flags, 0⟩
      else ⟨b.addr, b.len, b.flags ||| vringDescFNext, (idx + 1) % 2 ^ 16⟩
    describe { q with
      desc := update q.desc idx d
      freeHead := (idx + 1) % 2 ^ 16 } bs

/-- `virtqueue_add_buf`. -/
def virtqueueAddBuf (q : Virtqueue) (bufs : List Buf) : Option (ℕ × Virtqueue) :=
  if q.size < q.freeHead + bufs.length then none
  else
    let head := q.freeHead
    let q := describe q bufs
    some (head, { q with
      availRing := update q.availRing (q.availIdx % q.size) head
      availIdx := (q.availIdx + 1) % 2 ^ 16 })

/-- `virtqueue_get_used`. -/
def virtqueueGetUsed (q : Virtqueue) : Option (UsedElem × Virtqueue) :=
  if q.lastUsed = q.usedIdx then none
  else
    let elem := q.usedRing (q.lastUsed % q.size)
    some (⟨elem.id % 2 ^ 16, elem.len⟩,
      { q with lastUsed := (q.lastUsed + 1) % 2 ^ 16, freeHead := 0 })

/-! ## The driver -/

/-- `RX_BUF_COUNT`. -/
def rxBufCount : ℕ := 16

/-- `VIRTIO_NET_HDR_SIZE`. -/
def hdrSize : ℕ := 12

/-- `VIRTIO_NET_BUF_SIZE`. -/
def bufSize : ℕ := hdrSize + 1514

/-- The driver, the card and memory. -/
structure State where
  rxq : Virtqueue
  /-- `g_rx_bufs`, with zero for `NULL`. -/
  rxBufs : ℕ → ℕ
  /-- `g_rx_desc_idx`. -/
  rxDescIdx : ℕ → ℕ
  mem : Bytes
  /-- How far the card has read the available ring. -/
  seen : ℕ
  /-- The descriptors the card has read and not used. -/
  taken : List (ℕ × Desc)
  /-- What the card wrote for the entries of the used ring that the driver has not taken. -/
  posted : List (ℕ × List Byte)

/-- `rx_submit`, where `kmalloc` would return `p`. -/
def rxSubmit (s : State) (slot p : ℕ) : Bool × State :=
  let s : State :=
    if s.rxBufs slot = 0 then
      { s with
        rxBufs := update s.rxBufs slot p
        mem := if p = 0 then s.mem else zeroFill s.mem p bufSize }
    else s
  if s.rxBufs slot = 0 then (false, s)
  else
    match virtqueueAddBuf s.rxq [⟨s.rxBufs slot, bufSize, vringDescFWrite⟩] with
    | none => (false, s)
    | some (descIdx, q) =>
      (true, { s with rxq := q, rxDescIdx := update s.rxDescIdx slot descIdx })

/-- The loop of `virtio_net_init` over the slots. -/
def submitAll (alloc : ℕ → ℕ) : List ℕ → State → State
  | [], s => s
  | i :: is, s =>
    let r := rxSubmit { s with rxBufs := update s.rxBufs i 0 } i (alloc i)
    if r.1 then submitAll alloc is r.2 else r.2

/-- After `virtio_pci_setup_queue`, with a queue of `size` descriptors. -/
def setupQueue (size : ℕ) (mem : Bytes) : State where
  rxq :=
    { size := size, freeHead := 0, lastUsed := 0, desc := fun _ => ⟨0, 0, 0, 0⟩,
      availRing := fun _ => 0, availIdx := 0, usedRing := fun _ => ⟨0, 0⟩, usedIdx := 0 }
  rxBufs := fun _ => 0
  rxDescIdx := fun _ => 0
  mem := mem
  seen := 0
  taken := []
  posted := []

/-- `virtio_net_init`, where `kmalloc` returns `alloc i` for the buffer of slot `i`. -/
def virtioNetInit (size : ℕ) (alloc : ℕ → ℕ) (mem : Bytes) : State :=
  submitAll alloc (List.range rxBufCount) (setupQueue size mem)

/-- `virtio_net_recv`: the bytes it copies, or nothing where it returns -1. -/
def virtioNetRecv (s : State) (maxlen p : ℕ) : Option (List Byte) × State :=
  match virtqueueGetUsed s.rxq with
  | none => (none, s)
  | some (elem, q) =>
    let s := { s with rxq := q }
    match (List.range rxBufCount).find? fun i => s.rxDescIdx i = elem.id with
    | none => (none, s)
    | some slot =>
      if s.rxBufs slot = 0 then (none, s)
      else
        let pktLen := min (elem.len - hdrSize) maxlen
        let data := (List.range pktLen).map fun j => s.mem (s.rxBufs slot + hdrSize + j)
        let s := { s with mem := zeroFill s.mem (s.rxBufs slot) bufSize }
        (some data, (rxSubmit s slot p).2)

/-! ## Runs -/

inductive Label where
  /-- The card reads the next entry of the available ring, and the descriptor. -/
  | fetch
  /-- The card writes to the buffer of a descriptor, and posts a used entry. -/
  | use (d : ℕ) (data : List Byte)
  | recv (maxlen p : ℕ)

/-- The state after a step, with what `virtio_net_recv` returned. -/
def exec (s : State) : Label → Option (Option (List Byte) × State)
  | .fetch =>
    if s.seen = s.rxq.availIdx then none
    else
      let d := s.rxq.availRing (s.seen % s.rxq.size)
      some (none, { s with
        seen := (s.seen + 1) % 2 ^ 16
        taken := s.taken ++ [(d, s.rxq.desc d)] })
  | .use d data =>
    match s.taken.find? fun e => e.1 = d with
    | none => none
    | some e =>
      -- the card writes at most the length of the descriptor
      if e.2.len < data.length then none
      else some (none, { s with
        rxq := { s.rxq with
          usedRing := update s.rxq.usedRing (s.rxq.usedIdx % s.rxq.size)
            ⟨d, data.length⟩
          usedIdx := (s.rxq.usedIdx + 1) % 2 ^ 16 }
        mem := memcpy s.mem e.2.addr data
        taken := s.taken.erase e
        posted := s.posted ++ [(d, data)] })
  | .recv maxlen p =>
    let posted := if s.rxq.lastUsed = s.rxq.usedIdx then s.posted else s.posted.tail
    some (virtioNetRecv { s with posted := posted } maxlen p)

def Step (s : State) (l : Label) (t : State) : Prop := ∃ r, exec s l = some (r, t)

/-- `virtio_net_recv` is called when the next used entry, if there is one, is for descriptor 0. -/
def Guard (s : State) : Label → Prop
  | .recv _ _ => s.rxq.lastUsed ≠ s.rxq.usedIdx →
      (s.rxq.usedRing (s.rxq.lastUsed % s.rxq.size)).id = 0
  | _ => True

namespace State

variable (s : State)

/-- The part of the available ring that the card has not read. -/
def avail : RingBuf ℕ :=
  .ofCounters (2 ^ 16) s.rxq.size s.rxq.availRing s.seen s.rxq.availIdx

/-- The part of the used ring that the driver has not taken. -/
def used : RingBuf UsedElem :=
  .ofCounters (2 ^ 16) s.rxq.size s.rxq.usedRing s.rxq.lastUsed s.rxq.usedIdx

/-- The descriptors that are offered to the card: those it has read and not used, and those it will
read. -/
def offered : List ℕ := s.taken.map Prod.fst ++ s.avail.toList s.rxq.size

end State

/-- What a step does to the packets: the card adds one, and `virtio_net_recv` returns the oldest,
without its header and cut off at `maxlen`. -/
def Delivers (s : State) (l : Label) (r : Option (List Byte)) (t : State) : Prop :=
  match l with
  | .fetch => t.posted = s.posted
  | .use d data => t.posted = s.posted ++ [(d, data)]
  | .recv maxlen _ =>
    match s.posted with
    | [] => r = none ∧ t.posted = []
    | e :: rest => r = some ((e.2.drop hdrSize).take maxlen) ∧ t.posted = rest

/-! ## The invariant -/

/-- The first `k` slots have a buffer.  Each of these is described by the descriptor of the same
number, which is offered or used and not taken, apart from the descriptors `out` that the driver has
to itself. -/
structure Inv (out : List ℕ) (k : ℕ) (s : State) : Prop where
  dvd : s.rxq.size ∣ 2 ^ 16
  small : s.rxq.size < 2 ^ 16
  room : k ≤ s.rxq.size
  slots : k ≤ rxBufCount
  bufs : ∀ d < k, s.rxBufs d ≠ 0
  apart : ∀ i j, i < k → j < k → i ≠ j →
    s.rxBufs i + bufSize ≤ s.rxBufs j ∨ s.rxBufs j + bufSize ≤ s.rxBufs i
  desc : ∀ d < k, d ∉ out → s.rxq.desc d = ⟨s.rxBufs d, bufSize, vringDescFWrite, 0⟩
  idx : ∀ d < k, d ∉ out → s.rxDescIdx d = d
  taken : ∀ e ∈ s.taken, e.2 = s.rxq.desc e.1
  seen_lt : s.seen < 2 ^ 16
  availIdx_lt : s.rxq.availIdx < 2 ^ 16
  lastUsed_lt : s.rxq.lastUsed < 2 ^ 16
  usedIdx_lt : s.rxq.usedIdx < 2 ^ 16
  all : (out ++ (s.offered ++ s.posted.map Prod.fst)).Perm (List.range k)
  used : s.used.toList s.rxq.size = s.posted.map fun e => ⟨e.1, e.2.length⟩
  written : ∀ e ∈ s.posted, e.2.length ≤ bufSize ∧
    ∀ j < e.2.length, s.mem (s.rxBufs e.1 + j) = e.2.getD j 0#8

namespace Inv

variable {out : List ℕ} {k : ℕ} {s t : State} {d : ℕ} {r : Option (List Byte)}

section

variable (h : Inv out k s)
include h

theorem size_pos : 0 < s.rxq.size := Nat.pos_of_dvd_of_pos h.dvd (by norm_num)

theorem total : out.length + (s.taken.length + s.avail.count + s.posted.length) = k := by
  simpa [State.offered, RingBuf.length_toList, Nat.add_assoc] using h.all.length_eq

theorem used_count : s.used.count = s.posted.length := by
  simpa [RingBuf.length_toList] using congrArg List.length h.used

theorem avail_wf : s.avail.WF s.rxq.size := by
  have htotal := h.total
  have hroom := h.room
  exact RingBuf.wf_ofCounters h.size_pos h.dvd h.seen_lt (show s.avail.count ≤ _ by omega)

theorem used_wf : s.used.WF s.rxq.size := by
  have htotal := h.total
  have hcount := h.used_count
  have hroom := h.room
  exact RingBuf.wf_ofCounters h.size_pos h.dvd h.lastUsed_lt (show s.used.count ≤ _ by omega)

theorem nodup : (out ++ (s.offered ++ s.posted.map Prod.fst)).Nodup :=
  h.all.nodup_iff.mpr List.nodup_range

theorem lt_of_mem (hd : d ∈ s.offered ++ s.posted.map Prod.fst) : d < k ∧ d ∉ out := by
  refine ⟨List.mem_range.mp (h.all.subset (List.mem_append_right _ hd)), fun hout => ?_⟩
  exact List.disjoint_of_nodup_append h.nodup hout hd

theorem of_offered (hd : d ∈ s.offered) : d < k ∧ d ∉ out := h.lt_of_mem (List.mem_append_left _ hd)

theorem of_posted (he : e ∈ s.posted) : e.1 < k ∧ e.1 ∉ out :=
  h.lt_of_mem (List.mem_append_right _ (List.mem_map_of_mem he))

/-- No buffer is described by two descriptors that are offered. -/
theorem addr_nodup : (s.offered.map fun d => (s.rxq.desc d).addr).Nodup := by
  have hnodup := List.Nodup.of_append_left (List.Nodup.of_append_right h.nodup)
  refine List.Nodup.map_on ?_ hnodup
  intro d hd d' hd' haddr
  by_contra hne
  obtain ⟨hlt, hout⟩ := h.of_offered hd
  obtain ⟨hlt', hout'⟩ := h.of_offered hd'
  rw [h.desc d hlt hout, h.desc d' hlt' hout'] at haddr
  have heq : s.rxBufs d = s.rxBufs d' := haddr
  have hapart := h.apart d d' hlt hlt' hne
  have hpos : 0 < bufSize := by decide
  omega

/-! ### The card -/

theorem fetch (hexec : exec s .fetch = some (r, t)) :
    Inv out k t ∧ t.rxq = s.rxq ∧ t.posted = s.posted := by
  unfold exec at hexec
  by_cases hne : s.seen = s.rxq.availIdx
  · rw [if_pos hne] at hexec
    cases hexec
  rw [if_neg hne] at hexec
  cases hexec
  refine ⟨?_, rfl, rfl⟩
  have hlist : s.avail.toList s.rxq.size = _ :: RingBuf.toList s.rxq.size _ :=
    RingBuf.toList_ofCounters_pop h.size_pos h.dvd h.seen_lt h.availIdx_lt hne
  exact { h with
      taken := by
        intro e he
        rcases List.mem_append.mp he with he | he
        · exact h.taken e he
        · rw [List.mem_singleton.mp he]
      seen_lt := Nat.mod_lt _ (by norm_num)
      all := by
        -- the descriptor moves from the ring to those the card has read
        refine List.Perm.trans (.append_left _ (.append_right _ (.of_eq ?_))) h.all
        rw [State.offered, State.offered, hlist, List.map_append, List.append_assoc]
        rfl }

theorem use (hexec : exec s (.use d data) = some (r, t)) :
    Inv out k t ∧ t.rxq.desc = s.rxq.desc ∧ t.posted = s.posted ++ [(d, data)] := by
  unfold exec at hexec
  dsimp only at hexec
  cases hfind : s.taken.find? fun e => e.1 = d with
  | none =>
    rw [hfind] at hexec
    cases hexec
  | some e =>
    rw [hfind] at hexec
    dsimp only at hexec
    by_cases hlen : e.2.len < data.length
    · rw [if_pos hlen] at hexec
      cases hexec
    rw [if_neg hlen] at hexec
    have hd : e.1 = d := by simpa using List.find?_some hfind
    have hmem : e ∈ s.taken := List.mem_of_find?_eq_some hfind
    have hoff : d ∈ s.offered := by
      rw [← hd]
      exact List.mem_append_left _ (List.mem_map_of_mem hmem)
    obtain ⟨hdk, hdout⟩ := h.of_offered hoff
    have hdesc : e.2 = ⟨s.rxBufs d, bufSize, vringDescFWrite, 0⟩ := by
      rw [h.taken e hmem, hd, h.desc d hdk hdout]
    rw [hdesc] at hlen hexec
    have hlen : data.length ≤ bufSize := Nat.not_lt.mp hlen
    have hfresh : ∀ e' ∈ s.posted, e'.1 ≠ d := by
      intro e' he' heq
      have hdisj := List.disjoint_of_nodup_append (List.Nodup.of_append_right h.nodup)
      exact hdisj hoff (heq ▸ List.mem_map_of_mem he')
    have htotal := h.total
    have hcount := h.used_count
    have hpos : 0 < s.taken.length := List.length_pos_of_mem hmem
    have hroom := h.room
    have hsmall := h.small
    have hlist := RingBuf.toList_ofCounters_push (m := (⟨d, data.length⟩ : UsedElem)) h.used_wf
      h.dvd h.lastUsed_lt hsmall (show s.used.count < s.rxq.size by omega)
    cases hexec
    refine ⟨?_, rfl, rfl⟩
    exact { h with
        taken := fun e' he' => h.taken e' (List.mem_of_mem_erase he')
        usedIdx_lt := Nat.mod_lt _ (by norm_num)
        all := by
          -- the descriptor moves from those the card has read to those that are posted
          have hperm : (s.offered).Perm
              (d :: ((s.taken.erase e).map Prod.fst ++ s.avail.toList s.rxq.size)) := by
            rw [← hd]
            exact ((List.perm_cons_erase hmem).map Prod.fst).append_right _
          refine List.Perm.trans (.append_left _ ?_) h.all
          rw [List.map_append]
          refine List.Perm.trans ?_ (hperm.symm.append_right _)
          rw [← List.append_assoc]
          exact List.perm_append_singleton _ _
        used := by
          rw [List.map_append]
          exact hlist.trans (congrArg (· ++ [_]) h.used)
        written := by
          intro e' he'
          rcases List.mem_append.mp he' with he' | he'
          · obtain ⟨hle, hbytes⟩ := h.written e' he'
            refine ⟨hle, fun j hj => ?_⟩
            have hapart := h.apart e'.1 d (h.of_posted he').1 hdk (hfresh e' he')
            rw [← hbytes j hj]
            exact memcpy_of_not_mem (by dsimp only; omega)
          rw [List.mem_singleton.mp he']
          refine ⟨hlen, fun j (hj : j < data.length) => ?_⟩
          show memcpy s.mem (s.rxBufs d) data (s.rxBufs d + j) = _
          unfold memcpy
          rw [if_pos ⟨by omega, by omega⟩, Nat.add_sub_cancel_left] }

end

/-! ### The driver -/

theorem addBuf_one (hroom : q.freeHead < q.size) :
    virtqueueAddBuf q [b] = some (q.freeHead, { q with
      desc := update q.desc q.freeHead ⟨b.addr, b.len, b.flags, 0⟩
      freeHead := (q.freeHead + 1) % 2 ^ 16
      availRing := update q.availRing (q.availIdx % q.size) q.freeHead
      availIdx := (q.availIdx + 1) % 2 ^ 16 }) := by
  unfold virtqueueAddBuf
  rw [if_neg (by show ¬ q.size < q.freeHead + 1; omega)]
  rfl

/-- The descriptor that the driver has to itself is made to describe its buffer, and offered. -/
theorem submit (h : Inv [d] k s) (hfree : s.rxq.freeHead = d) (p : ℕ) :
    ∃ t, rxSubmit s d p = (true, t) ∧ Inv [] k t ∧ t.rxq.freeHead = d + 1 ∧
      t.rxBufs = s.rxBufs ∧ t.posted = s.posted ∧
      ∀ d' ≠ d, t.rxq.desc d' = s.rxq.desc d' := by
  have hdk : d < k := by
    rw [← List.mem_range]
    exact h.all.subset (List.mem_append_left _ (List.mem_singleton_self d))
  have hroom := h.room
  have hsmall := h.small
  have htotal : 1 + (s.taken.length + s.avail.count + s.posted.length) = k := h.total
  have hadd := addBuf_one (q := s.rxq) (b := ⟨s.rxBufs d, bufSize, vringDescFWrite⟩) (by omega)
  have hlist := RingBuf.toList_ofCounters_push (m := d) h.avail_wf h.dvd h.seen_lt hsmall
    (show s.avail.count < s.rxq.size by omega)
  rw [hfree] at hadd
  have hsub : ∀ d' : ℕ, d' ∉ ([] : List ℕ) → d' ≠ d → d' ∉ [d] := by
    intro d' _ hne hmem
    exact hne (List.mem_singleton.mp hmem)
  unfold rxSubmit
  rw [if_neg (h.bufs d hdk), if_neg (h.bufs d hdk), hadd]
  refine ⟨_, rfl, ?_, Nat.mod_eq_of_lt (by omega), rfl, rfl, fun d' hne => update_of_ne hne ..⟩
  exact { h with
      desc := by
        intro d' hd' hout
        by_cases hd : d' = d
        · subst hd
          exact update_self ..
        · exact (update_of_ne hd ..).trans (h.desc d' hd' (hsub d' hout hd))
      idx := by
        intro d' hd' hout
        by_cases hd : d' = d
        · subst hd
          exact update_self ..
        · exact (update_of_ne hd ..).trans (h.idx d' hd' (hsub d' hout hd))
      taken := by
        intro e he
        have hout := (h.of_offered (List.mem_append_left _ (List.mem_map_of_mem he))).2
        rw [h.taken e he]
        exact (update_of_ne (fun hd => hout (List.mem_singleton.mpr hd)) ..).symm
      availIdx_lt := Nat.mod_lt _ (by norm_num)
      all := by
        refine List.Perm.trans ?_ h.all
        have hoff : s.taken.map Prod.fst ++ _ = s.offered ++ [d] :=
          (congrArg (_ ++ ·) hlist).trans (List.append_assoc ..).symm
        refine List.Perm.trans (.append_right (s.posted.map Prod.fst) (.of_eq hoff)) ?_
        rw [List.append_assoc]
        exact List.perm_append_comm_assoc _ _ _ }

/-- The bytes that are copied out of a buffer. -/
theorem copied {f : ℕ → Byte} {data : List Byte} {n m : ℕ}
    (hf : ∀ j < data.length, f j = data.getD j 0#8) :
    ((List.range (min (data.length - n) m)).map fun j => f (n + j)) = (data.drop n).take m := by
  apply List.ext_getElem
  · rw [List.length_map, List.length_range, List.length_take, List.length_drop, Nat.min_comm]
  · intro j hj _
    rw [List.length_map, List.length_range] at hj
    have hlt : n + j < data.length := by omega
    rw [List.getElem_map, List.getElem_range, List.getElem_take, List.getElem_drop, hf _ hlt,
      List.getD_eq_getElem?_getD, List.getElem?_eq_getElem hlt, Option.getD_some]

/-- **A packet is taken.** -/
theorem recv (h : Inv [] k s) {maxlen p : ℕ} (hg : Guard s (.recv maxlen p))
    (hexec : exec s (.recv maxlen p) = some (r, t)) :
    Inv [] k t ∧ (∀ d ∈ s.offered, t.rxq.desc d = s.rxq.desc d) ∧
      Delivers s (.recv maxlen p) r t := by
  have hexec := Option.some.inj hexec
  by_cases hne : s.rxq.lastUsed = s.rxq.usedIdx
  · -- there is none
    have hempty : s.posted = [] := by
      rw [← List.length_eq_zero_iff, ← h.used_count]
      exact RingBuf.ofCounters_empty hne
    rw [if_pos hne] at hexec
    unfold virtioNetRecv virtqueueGetUsed at hexec
    rw [if_pos hne] at hexec
    cases hexec
    refine ⟨h, fun _ _ => rfl, ?_⟩
    unfold Delivers
    rw [hempty]
    exact ⟨rfl, rfl⟩
  have hlist : s.used.toList s.rxq.size = _ :: RingBuf.toList s.rxq.size _ :=
    RingBuf.toList_ofCounters_pop h.size_pos h.dvd h.lastUsed_lt h.usedIdx_lt hne
  rw [h.used] at hlist
  cases hposted : s.posted with
  | nil => simp [hposted] at hlist
  | cons e rest =>
    rw [hposted] at hlist
    obtain ⟨helem, hrest⟩ := List.cons.inj hlist
    have helem : s.rxq.usedRing (s.rxq.lastUsed % s.rxq.size) = ⟨e.1, e.2.length⟩ := helem.symm
    have hzero : e.1 = 0 := by
      have hid := hg hne
      rwa [helem] at hid
    have he : e ∈ s.posted := by
      rw [hposted]
      exact List.mem_cons_self
    have hk : 0 < k := by
      have hlt := (h.of_posted he).1
      omega
    have hfind : ((List.range rxBufCount).find? fun i => s.rxDescIdx i = 0) = some 0 := by
      exact List.find?_cons_of_pos (by simpa using h.idx 0 hk List.not_mem_nil)
    have hbuf := h.bufs 0 hk
    rw [if_neg hne] at hexec
    unfold virtioNetRecv virtqueueGetUsed at hexec
    rw [if_neg hne] at hexec
    rw [helem, hzero] at hexec
    dsimp only at hexec
    rw [show 0 % 2 ^ 16 = 0 from rfl, hfind] at hexec
    dsimp only at hexec
    rw [if_neg hbuf, hposted, List.tail_cons] at hexec
    have hnodup := List.Nodup.of_append_right h.nodup
    rw [hposted, List.map_cons, hzero] at hnodup
    have hfresh : 0 ∉ s.offered ∧ 0 ∉ rest.map Prod.fst := by
      refine ⟨fun hmem => ?_, (List.nodup_cons.mp (List.Nodup.of_append_right hnodup)).1⟩
      exact List.disjoint_of_nodup_append hnodup hmem List.mem_cons_self
    have hbytes := (h.written e he).2
    rw [hzero] at hbytes
    have hdata : ((List.range (min (e.2.length - hdrSize) maxlen)).map fun j =>
        s.mem (s.rxBufs 0 + hdrSize + j)) = (e.2.drop hdrSize).take maxlen := by
      rw [← copied (f := fun j => s.mem (s.rxBufs 0 + j)) hbytes]
      simp only [Nat.add_assoc]
    rw [hdata] at hexec
    -- the driver has descriptor 0 to itself
    have hout : Inv [0] k { s with
        rxq := { s.rxq with lastUsed := (s.rxq.lastUsed + 1) % 2 ^ 16, freeHead := 0 }
        mem := zeroFill s.mem (s.rxBufs 0) bufSize
        posted := rest } :=
      { h with
        desc := fun d hd _ => h.desc d hd List.not_mem_nil
        idx := fun d hd _ => h.idx d hd List.not_mem_nil
        lastUsed_lt := Nat.mod_lt _ (by norm_num)
        all := by
          refine List.Perm.trans ?_ h.all
          rw [hposted, List.map_cons, hzero, List.singleton_append]
          exact List.perm_middle.symm
        used := hrest.symm
        written := by
          intro e' he'
          have he'' : e' ∈ s.posted := by
            rw [hposted]
            exact List.mem_cons_of_mem _ he'
          obtain ⟨hle, hbytes'⟩ := h.written e' he''
          have hne' : e'.1 ≠ 0 := fun h0 => hfresh.2 (h0 ▸ List.mem_map_of_mem he')
          have hapart := h.apart e'.1 0 (h.of_posted he'').1 hk hne'
          refine ⟨hle, fun j hj => ?_⟩
          rw [← hbytes' j hj]
          exact zeroFill_of_not_mem (by dsimp only; omega) }
    obtain ⟨t', hsub, hinv, -, -, hposted', hdesc⟩ := hout.submit rfl p
    rw [hsub] at hexec
    cases hexec
    refine ⟨hinv, fun d hd => hdesc d (fun h0 => hfresh.1 (h0 ▸ hd)), ?_⟩
    unfold Delivers
    rw [hposted]
    exact ⟨rfl, hposted'⟩

/-- **One step.** -/
theorem step (h : Inv [] k s) (hg : Guard s l) (hexec : exec s l = some (r, t)) :
    Inv [] k t ∧ (∀ d ∈ s.offered, t.rxq.desc d = s.rxq.desc d) ∧ Delivers s l r t := by
  cases l with
  | fetch =>
    obtain ⟨hinv, hq, hposted⟩ := h.fetch hexec
    exact ⟨hinv, fun d _ => by rw [hq], hposted⟩
  | use d =>
    obtain ⟨hinv, hdesc, hposted⟩ := h.use hexec
    exact ⟨hinv, fun d _ => by rw [hdesc], hposted⟩
  | recv => exact h.recv hg hexec

end Inv

/-! ## The start -/

/-- The blocks that `kmalloc` returns do not overlap. -/
def Apart (alloc : ℕ → ℕ) : Prop :=
  ∀ i j, i ≠ j → alloc i ≠ 0 → alloc j ≠ 0 →
    alloc i + bufSize ≤ alloc j ∨ alloc j + bufSize ≤ alloc i

section Start

variable {alloc : ℕ → ℕ} {size k : ℕ} {mem : Bytes} {s : State}

theorem setupQueue_rings :
    (setupQueue size mem).offered = [] ∧ (setupQueue size mem).used.toList size = [] := by
  have havail : (setupQueue size mem).avail.count = 0 := by
    exact RingBuf.ofCounters_empty rfl
  have hused : (setupQueue size mem).used.count = 0 := by
    exact RingBuf.ofCounters_empty rfl
  refine ⟨?_, RingBuf.toList_of_count_eq_zero hused⟩
  unfold State.offered
  rw [RingBuf.toList_of_count_eq_zero havail]
  rfl

/-- Before the first buffer. -/
theorem setupQueue_inv (hdvd : size ∣ 2 ^ 16) (hsmall : size < 2 ^ 16) :
    Inv [] 0 (setupQueue size mem) := by
  obtain ⟨hoffered, hused⟩ := @setupQueue_rings size mem
  refine ⟨hdvd, hsmall, ?_, ?_, ?_, ?_, ?_, ?_, ?_, ?_, ?_, ?_, ?_,
    by rw [hoffered]; exact .refl [], hused, ?_⟩
  all_goals simp [setupQueue]

/-- The state of the loop before slot `k`. -/
structure Filling (alloc : ℕ → ℕ) (k : ℕ) (s : State) : Prop where
  inv : Inv [] k s
  free : s.rxq.freeHead = k
  bufs : ∀ d < k, s.rxBufs d = alloc d
  quiet : s.posted = []

/-- Nothing that the invariant is about lies in the slots from `k` on. -/
theorem Filling.setBuf (h : Filling alloc k s) (p : ℕ) (m : Bytes) :
    Inv [] k { s with rxBufs := update s.rxBufs k p, mem := m } := by
  have hbuf : ∀ d < k, update s.rxBufs k p d = s.rxBufs d :=
    fun d hd => update_of_ne (Nat.ne_of_lt hd) ..
  exact { h.inv with
      bufs := fun d hd => by simpa only [hbuf d hd] using h.inv.bufs d hd
      apart := fun i j hi hj hne => by
        simpa only [hbuf i hi, hbuf j hj] using h.inv.apart i j hi hj hne
      desc := fun d hd hout => by simpa only [hbuf d hd] using h.inv.desc d hd hout
      written := by simp [h.quiet] }

/-- The buffer for slot `k` is there, and descriptor `k` is not yet used. -/
theorem Filling.ready (hA : Apart alloc) (h : Filling alloc k s) (hk : k < rxBufCount)
    (hroom : k < s.rxq.size) (hp : alloc k ≠ 0) (m : Bytes) :
    Inv [k] (k + 1) { s with rxBufs := update s.rxBufs k (alloc k), mem := m } := by
  have hbuf : ∀ d < k + 1, update s.rxBufs k (alloc k) d = alloc d := by
    intro d hd
    by_cases hdk : d = k
    · rw [hdk, update_self]
    · rw [update_of_ne hdk, h.bufs d (by omega)]
  have hnz : ∀ d < k + 1, alloc d ≠ 0 := by
    intro d hd
    by_cases hdk : d = k
    · rw [hdk]
      exact hp
    · rw [← h.bufs d (by omega)]
      exact h.inv.bufs d (by omega)
  have hlt : ∀ d < k + 1, d ∉ [k] → d < k := by
    intro d hd hout
    rw [List.mem_singleton] at hout
    omega
  have hold := h.setBuf (alloc k) m
  exact { hold with
      room := hroom
      slots := hk
      bufs := fun d hd => by simpa only [hbuf d hd] using hnz d hd
      apart := fun i j hi hj hij => by
        simpa only [hbuf i hi, hbuf j hj] using hA i j hij (hnz i hi) (hnz j hj)
      desc := fun d hd hout => hold.desc d (hlt d hd hout) List.not_mem_nil
      idx := fun d hd hout => hold.idx d (hlt d hd hout) List.not_mem_nil
      all := by
        rw [List.range_succ]
        exact List.Perm.trans (List.perm_append_comm) (hold.all.append_right [k]) }

/-- `rx_submit` when there is no descriptor left. -/
theorem addBuf_full (hroom : q.size ≤ q.freeHead) : virtqueueAddBuf q [b] = none := by
  unfold virtqueueAddBuf
  rw [if_pos (by show q.size < q.freeHead + 1; omega)]

theorem rxSubmit_null (h : s.rxBufs slot = 0) :
    rxSubmit s slot 0 = (false, { s with rxBufs := update s.rxBufs slot 0 }) := by
  unfold rxSubmit
  rw [if_pos h, if_pos rfl]
  rw [if_pos (update_self ..)]

theorem rxSubmit_alloc (h : s.rxBufs slot = 0) (hp : p ≠ 0) : rxSubmit s slot p = rxSubmit { s with
      rxBufs := update s.rxBufs slot p
      mem := zeroFill s.mem p bufSize } slot p := by
  have hne : ¬update s.rxBufs slot p slot = 0 := by rwa [update_self]
  unfold rxSubmit
  simp only [if_pos h, if_neg hp, if_neg hne]

theorem rxSubmit_full (h : s.rxBufs slot ≠ 0) (hroom : s.rxq.size ≤ s.rxq.freeHead) :
    rxSubmit s slot p = (false, s) := by
  unfold rxSubmit
  rw [if_neg h, if_neg h, addBuf_full hroom]

/-- One turn of the loop: the next slot is filled, or the loop ends. -/
theorem Filling.turn (hA : Apart alloc) (h : Filling alloc k s) (hk : k < rxBufCount) :
    let r := rxSubmit { s with rxBufs := update s.rxBufs k 0 } k (alloc k)
    (r.1 = true → Filling alloc (k + 1) r.2) ∧ (r.1 = false → Inv [] k r.2) := by
  have hnull : update s.rxBufs k 0 k = 0 := update_self ..
  by_cases hp : alloc k = 0
  · rw [hp, rxSubmit_null hnull]
    rw [update_idem]
    exact ⟨nofun, fun _ => h.setBuf 0 s.mem⟩
  rw [rxSubmit_alloc hnull hp]
  rw [update_idem]
  have hne : update s.rxBufs k (alloc k) k ≠ 0 := by rwa [update_self]
  by_cases hroom : k < s.rxq.size
  · have hready := h.ready hA hk hroom hp (zeroFill s.mem (alloc k) bufSize)
    obtain ⟨t, hsub, hinv, hfree, hbufs, hposted, -⟩ := hready.submit h.free (alloc k)
    rw [hsub]
    refine ⟨fun _ => ⟨hinv, hfree, fun d hd => ?_, hposted.trans h.quiet⟩, nofun⟩
    rw [hbufs]
    by_cases hdk : d = k
    · rw [hdk]
      exact update_self ..
    · exact (update_of_ne hdk ..).trans (h.bufs d (by omega))
  · rw [rxSubmit_full hne (by have hfree := h.free; dsimp only; omega)]
    exact ⟨nofun, fun _ => h.setBuf _ _⟩

theorem Filling.submitAll (hA : Apart alloc) (n : ℕ) (h : Filling alloc k s)
    (hn : k + n = rxBufCount) :
    ∃ k', Inv [] k' (Virtio.submitAll alloc (List.range' k n) s) := by
  induction n generalizing k s with
  | zero => exact ⟨k, h.inv⟩
  | succ n ih =>
    obtain ⟨hgo, hstop⟩ := h.turn hA (by omega)
    rw [List.range'_succ]
    unfold Virtio.submitAll
    dsimp only
    cases hres : (rxSubmit { s with rxBufs := update s.rxBufs k 0 } k (alloc k)).1 with
    | true =>
      exact ih (hgo hres) (by omega)
    | false =>
      exact ⟨k, hstop hres⟩

/-- **The start.** -/
theorem virtioNetInit_inv (mem : Bytes) (hA : Apart alloc) (hdvd : size ∣ 2 ^ 16)
    (hsmall : size < 2 ^ 16) :
    ∃ k, Inv [] k (virtioNetInit size alloc mem) := by
  unfold virtioNetInit
  rw [List.range_eq_range']
  refine Filling.submitAll hA _ ⟨setupQueue_inv hdvd hsmall, rfl, ?_, rfl⟩ rfl
  exact fun d hd => absurd hd (Nat.not_lt_zero d)

end Start

/-! ## The result -/

/-- **The receive queue stays intact.**  The queue has a power of two of descriptors, and
`virtio_net_recv` is only called when the next used entry is for descriptor 0.  Then in every state
that is reached no buffer is described by two offered descriptors, and no step rewrites a descriptor
that is offered; and the packets are returned in the order in which the card posted them, each once
and as it was written. -/
theorem receive_queue_intact {size : ℕ} {alloc : ℕ → ℕ} {mem : Bytes} {ls : List Label}
    {s t : State} {l : Label} {r : Option (List Byte)} (hdvd : size ∣ 2 ^ 16)
    (hsmall : size < 2 ^ 16) (hA : Apart alloc)
    (hrun : Run Step Guard (virtioNetInit size alloc mem) ls s) (hg : Guard s l)
    (hexec : exec s l = some (r, t)) :
    (s.offered.map fun d => (s.rxq.desc d).addr).Nodup ∧
      (∀ d ∈ s.offered, t.rxq.desc d = s.rxq.desc d) ∧ Delivers s l r t := by
  obtain ⟨k, hstart⟩ := virtioNetInit_inv mem hA hdvd hsmall
  have hinv : Inv [] k s := by
    refine hrun.invariant hstart ?_
    intro s l t h hg hstep
    obtain ⟨r, hexec⟩ := hstep
    exact (h.step hg hexec).1
  exact ⟨hinv.addr_nodup, (hinv.step hg hexec).2⟩

/-- A queue with 256 descriptors, and buffers 2048 bytes apart. -/
def card : State := virtioNetInit 256 (fun i => 0x10000 + 0x800 * i) fun _ => 0#8

/-- A header and one byte. -/
def packet (b : Byte) : List Byte := List.replicate hdrSize 0#8 ++ [b]

/-- Steps of the card need no guard. -/
theorem run_of_play (h : play exec s ls = some t) (hg : ∀ l ∈ ls, ∀ s, Guard s l) :
    Run Step Guard s ls t := by
  induction ls generalizing s with
  | nil =>
    cases h
    exact .nil
  | cons l ls ih =>
    obtain ⟨⟨r, u⟩, hu, hrest⟩ := Option.bind_eq_some_iff.mp h
    exact .cons (hg l List.mem_cons_self s) ⟨r, hu⟩
      (ih hrest fun l' hl' => hg l' (List.mem_cons_of_mem _ hl'))

/-- What the card does up to the second packet in the first buffer. -/
def again : List Label := List.replicate 16 .fetch ++ [.use 0 (packet 8#8)]

theorem card_again :
    ((play exec card [.fetch, .use 0 (packet 7#8)]).bind fun s => (exec s (.recv 1514 0)).bind
      fun a => (play exec a.2 again).bind fun u => (exec u (.recv 1514 0)).map fun _ =>
        decide ((s.rxq.usedRing (s.rxq.lastUsed % s.rxq.size)).id = 0 ∧
          (u.rxq.usedRing (u.rxq.lastUsed % u.rxq.size)).id = 0 ∧
          u.posted = [(0, packet 8#8)])) = some true := by decide +kernel

/-- Two packets in the first buffer, which is offered again in between. -/
theorem first_buffer_returned_twice : ∃ s t r, Run Step Guard card
      ([.fetch, .use 0 (packet 7#8)] ++ ([.recv 1514 0] ++ again)) s ∧
    exec s (.recv 1514 0) = some (r, t) ∧ r = some [8#8] := by
  obtain ⟨s, hs, hrest⟩ := Option.bind_eq_some_iff.mp card_again
  obtain ⟨⟨_, a⟩, ha, hrest⟩ := Option.bind_eq_some_iff.mp hrest
  obtain ⟨u, hu, hrest⟩ := Option.bind_eq_some_iff.mp hrest
  obtain ⟨⟨r, t⟩, hexec, hfacts⟩ := Option.map_eq_some_iff.mp hrest
  obtain ⟨hid, hid', hposted⟩ := of_decide_eq_true hfacts
  have hA : Apart fun i => 0x10000 + 0x800 * i := by
    intro i j hij _ _
    show 0x10000 + 0x800 * i + 1526 ≤ 0x10000 + 0x800 * j ∨
      0x10000 + 0x800 * j + 1526 ≤ 0x10000 + 0x800 * i
    omega
  have hrun : Run Step Guard card ([.fetch, .use 0 (packet 7#8)] ++ ([.recv 1514 0] ++ again)) u :=
    (run_of_play hs (by simp [Guard])).trans <|
      (Run.cons (fun _ => hid) ⟨_, ha⟩ .nil).trans (run_of_play hu (by simp [again, Guard]))
  have hg : Guard u (.recv 1514 0) := fun _ => hid'
  have hdvd : 256 ∣ 2 ^ 16 := by norm_num
  have hsmall : 256 < 2 ^ 16 := by decide
  have hdel := (receive_queue_intact hdvd hsmall hA hrun hg hexec).2.2
  unfold Delivers at hdel
  rw [hposted] at hdel
  exact ⟨u, t, r, hrun, hexec, hdel.1⟩

theorem card_second :
    ((play exec card [.fetch, .fetch, .use 0 (packet 1#8), .use 1 (packet 2#8), .recv 1514 0]).bind
      fun s => (exec s (.recv 1514 0)).bind fun a =>
      (play exec a.2 (List.replicate 15 .fetch ++ [.use 0 (packet 3#8)])).bind fun u =>
      (exec u (.recv 1514 0)).map fun b => decide (0 ∈ s.offered ∧
        (s.rxq.desc 0).addr ≠ (a.2.rxq.desc 0).addr ∧ a.2.offered.count 0 = 2 ∧
        u.posted = [(0, packet 3#8)] ∧ b.1 = some [0#8])) = some true := by decide +kernel

/-- **The second packet breaks the queue.**  The card uses descriptor 0 and then descriptor 1.  The
second `virtio_net_recv` offers the buffer of slot 1 by descriptor 0, which was offered to the card
with the buffer of slot 0, and is now offered twice.  The card writes the next packet to the buffer
of slot 1, and the driver returns the zeros it finds in that of slot 0. -/
theorem offered_descriptor_rewritten : ∃ s a r t u b, Run Step (fun _ _ => True) card
      [.fetch, .fetch, .use 0 (packet 1#8), .use 1 (packet 2#8), .recv 1514 0] s ∧
    0 ∈ s.offered ∧ exec s (.recv 1514 0) = some (r, a) ∧
    (s.rxq.desc 0).addr ≠ (a.rxq.desc 0).addr ∧ a.offered.count 0 = 2 ∧
    Run Step (fun _ _ => True) a (List.replicate 15 .fetch ++ [.use 0 (packet 3#8)]) u ∧
    u.posted = [(0, packet 3#8)] ∧ exec u (.recv 1514 0) = some (b, t) ∧ b = some [0#8] := by
  obtain ⟨s, hs, hrest⟩ := Option.bind_eq_some_iff.mp card_second
  obtain ⟨⟨r, a⟩, ha, hrest⟩ := Option.bind_eq_some_iff.mp hrest
  obtain ⟨u, hu, hrest⟩ := Option.bind_eq_some_iff.mp hrest
  obtain ⟨⟨b, t⟩, hb, hfacts⟩ := Option.map_eq_some_iff.mp hrest
  obtain ⟨hoff, haddr, htwice, hposted, hzeros⟩ := of_decide_eq_true hfacts
  exact ⟨s, a, r, t, u, b, Run.of_play hs, hoff, ha, haddr, htwice, Run.of_play hu, hposted, hb,
    hzeros⟩

end Xos.Net.Virtio
