import Xos.Kheap.Calls
import Xos.Lib.Run

/-!
# The kernel heap over whole runs

* **`Canonical`** — the free list is the list of the gaps that the live blocks leave, and `used_sz`
  the sum of their sizes;
* **`Inv.exec`** — one call: it returns, the heap is as before up to one block, and what other
  holders wrote stays;
* **`heap_canonical`** — every state of a run is canonical;
* **`allocation_honest`** — a pointer that a call returns has room for what was asked.  Requests
  within 32 bytes of the end of the number range wrap, and so do products: `kmalloc_wraps`.
-/

namespace Xos.Kheap

open Xos.Lib

variable {s t : State} {l : Label} {ls : List Label} {T : List Seg} {arena limit r : ℕ}
  {mem : Bytes} {h' : Heap} {p : ℕ} {h : Heap} {size : ℕ}

/-! ## What a run may do -/

/-- The bytes that follow the header of the block of `p`. -/
def Heap.payload (h : Heap) (p : ℕ) : ℕ := h.size (p - hdrSize) - hdrSize

/-- What the holder of `p` wrote there. -/
def Heap.contents (h : Heap) (p : ℕ) : List Byte := h.bytes p (h.payload p)

/-- The bytes that a call asks for. -/
def Label.requested : Label → ℕ
  | .malloc size => size
  | .calloc n size => n * size
  | .realloc _ size => size
  | .free _ => 0
  | .store _ _ _ => 0

/-- The block that a call is about. -/
def Label.subject : Label → ℕ
  | .malloc _ => 0
  | .calloc _ _ => 0
  | .realloc p _ => p
  | .free p => p
  | .store p _ _ => p

/-- Requests are at most `limit`; a pointer that is given back is `NULL` or held; and holders write
to their own blocks. -/
def Guard (limit : ℕ) (s : State) (l : Label) : Prop :=
  l.requested ≤ limit ∧ (l.subject = 0 ∨ l.subject ∈ s.held) ∧
    match l with
    | .store p offset data => p ∈ s.held ∧ offset + data.length ≤ s.heap.payload p
    | _ => True

/-- The heap after `heap_init`; nobody holds anything. -/
def start (mem : Bytes) (arena : ℕ) : State := ⟨heapInit mem arena, []⟩

/-- The form of the heap whose live blocks, in address order, are `L`. -/
structure Canonical (arena : ℕ) (s : State) (L : List (ℕ × ℕ)) : Prop where
  held : (s.held.map fun p => (p - hdrSize, s.heap.size (p - hdrSize))).Perm L
  ordered : L.Pairwise fun x y => x.1 + x.2 ≤ y.1
  freeList : s.heap.freeList = some (gaps arena (arena + arenaSz) L)
  sizes : ∀ x, x ∈ L ++ gaps arena (arena + arenaSz) L → 0 < x.2 ∧ 16 ∣ x.2
  apart : (gaps arena (arena + arenaSz) L).Pairwise fun x y => x.1 + x.2 < y.1
  tiles : ∀ a, arena ≤ a → a < arena + arenaSz →
    ∃! x, x ∈ L ++ gaps arena (arena + arenaSz) L ∧ x.1 ≤ a ∧ a < x.1 + x.2
  used : s.heap.usedSz = (L.map Prod.snd).sum

/-! ## The invariant -/

/-- The heap has the blocks `T`, and the live ones are those that somebody holds. -/
structure Inv (arena : ℕ) (s : State) (T : List Seg) : Prop where
  rep : Rep s.heap T
  held : s.held.Perm ((lives T).map fun x => x.1 + 16)
  arena : s.heap.arena = arena

theorem Inv.start (hlo : 0 < arena) (hhi : arena + arenaSz ≤ 2 ^ 64) :
    Inv arena (start mem arena) [⟨arena, arenaSz, false⟩] := by
  have hsize : (heapInit mem arena).size arena = arenaSz := by
    unfold heapInit
    rw [size_setLink_of_apart fun b hb => by cases hb; exact .inl le_rfl, size_setSize]
    rfl
  have hnext : (heapInit mem arena).link (.next arena) = none := by
    unfold heapInit
    exact link_setLink nofun
  refine ⟨⟨⟨?_, fun s hs => ?_, fun s hs => ?_, ⟨?_, hnext⟩, ?_, ?_⟩,
    List.isChain_singleton _, rfl⟩, List.Perm.nil, rfl⟩
  · exact ⟨rfl, by unfold arenaSz; simp only; omega, rfl⟩
  · obtain rfl := List.mem_singleton.mp hs
    show 16 ∣ arenaSz
    decide
  · obtain rfl := List.mem_singleton.mp hs
    exact hsize
  · exact ptr_pos hlo
  · exact hlo
  · exact hhi

/-- The free list as it is read. -/
theorem Rep.freeList (hR : Rep h T) :
    h.freeList = some (gaps h.arena (h.arena + arenaSz) (lives T)) := by
  unfold Heap.freeList
  rw [traverse_chain hR.shape.chain hR.shape.length_lt, Option.map_some, List.map_map,
    ← frees_eq_gaps hR.shape.tiled hR.sparse]
  refine congrArg some (List.map_congr_left (g := id) (fun x hx => ?_) |>.trans (List.map_id _))
  have hx' : h.size x.1 = x.2 := hR.shape.header ⟨x.1, x.2, false⟩ (mem_frees.mp hx)
  show (x.1, h.size x.1) = x
  rw [hx']

/-- **The invariant makes the heap canonical.** -/
theorem Inv.canonical (hI : Inv arena s T) : Canonical arena s (lives T) := by
  obtain ⟨hR, hheld, rfl⟩ := hI
  have hgaps := frees_eq_gaps hR.shape.tiled hR.sparse
  have hmem : ∀ x, x ∈ lives T ++ gaps s.heap.arena (s.heap.arena + arenaSz) (lives T) →
      ∃ live, (⟨x.1, x.2, live⟩ : Seg) ∈ T := by
    intro x hx
    rw [← hgaps] at hx
    rcases List.mem_append.mp hx with hx | hx
    · exact ⟨true, mem_lives.mp hx⟩
    · exact ⟨false, mem_frees.mp hx⟩
  refine ⟨?_, lives_apart hR.shape.tiled, hR.freeList, fun x hx => ?_, ?_, fun a h1 h2 => ?_,
    hR.used⟩
  · refine (hheld.map _).trans (List.Perm.of_eq ?_)
    rw [List.map_map]
    refine List.map_congr_left (g := id) (fun x hx => ?_) |>.trans (List.map_id _)
    have hx' : s.heap.size x.1 = x.2 := hR.shape.header ⟨x.1, x.2, true⟩ (mem_lives.mp hx)
    show (x.1 + 16 - 16, s.heap.size (x.1 + 16 - 16)) = x
    rw [Nat.add_sub_cancel, hx']
  · obtain ⟨live, hx⟩ := hmem x hx
    exact ⟨(hR.shape.tiled.bounds hx).2.2, hR.shape.aligned _ hx⟩
  · rw [← hgaps]
    exact frees_apart hR.shape.tiled hR.sparse
  · obtain ⟨u, ⟨hu, hu1, hu2⟩, huniq⟩ := hR.shape.tiled.exists_unique h1 h2
    refine ⟨(u.addr, u.size), ⟨?_, hu1, hu2⟩, ?_⟩
    · rw [← hgaps]
      obtain ⟨b, n, live⟩ := u
      cases live with
      | true => exact List.mem_append_left _ (mem_lives.mpr hu)
      | false => exact List.mem_append_right _ (mem_frees.mpr hu)
    · rintro x ⟨hx, hx1, hx2⟩
      obtain ⟨live, hx⟩ := hmem x hx
      rw [← huniq _ ⟨hx, hx1, hx2⟩]

/-! ## One call -/

/-- What a call leaves behind: the invariant, the blocks that it is not about, and, if it returned a
pointer, a block with room for what was asked. -/
structure Outcome (arena : ℕ) (s : State) (T : List Seg) (l : Label) (r : ℕ) (t : State)
    (T' : List Seg) : Prop where
  inv : Inv arena t T'
  others : ∀ x, x ∈ lives T → x.1 + 16 ≠ l.subject → x ∈ lives T' ∧ Keeps [x] s.heap t.heap
  room : r ≠ 0 → ∃ b k, r = b + 16 ∧ (b, k) ∈ lives T' ∧ l.requested + 16 ≤ k

theorem Keeps.single (hk : Keeps L h h') (hx : x ∈ L) : Keeps [x] h h' :=
  hk.mono fun _ hy => List.mem_singleton.mp hy ▸ hx

theorem Inv.ne_zero (hI : Inv arena s T) : 0 ∉ s.held := fun h0 => by
  obtain ⟨x, -, hx⟩ := List.mem_map.mp (hI.held.mem_iff.mp h0)
  omega

theorem handOut_null (s : State) (old : ℕ) (h : Heap) :
    (s.handOut old 0 h).held = s.held.erase old := rfl

theorem handOut_ptr (s : State) (old : ℕ) (h : Heap) (hp : p ≠ 0) :
    (s.handOut old p h).held = p :: s.held.erase old := if_neg hp

/-- A pointer that is held is that of a live block. -/
theorem Inv.live (hI : Inv arena s T) (hp : p ∈ s.held) : ∃ b n, p = b + 16 ∧ (b, n) ∈ lives T := by
  obtain ⟨⟨b, n⟩, hx, rfl⟩ := List.mem_map.mp (hI.held.mem_iff.mp hp)
  exact ⟨b, n, rfl, hx⟩

theorem Rep.payload_live (hR : Rep h T) (hb : (b, n) ∈ lives T) : h.payload (b + 16) = n - 16 := by
  unfold Heap.payload
  rw [show b + 16 - hdrSize = b from rfl, hR.size_live hb]
  rfl

theorem Inv.mem_held (hI : Inv arena s T) (hb : (b, n) ∈ lives T) : b + 16 ∈ s.held :=
  hI.held.mem_iff.mpr (List.mem_map_of_mem (f := fun x : ℕ × ℕ => x.1 + 16) hb)

section

variable (hI : Inv arena s T) (harena : h'.arena = arena)
include hI harena

/-- The state after an allocation. -/
theorem Inv.allocates (hreq : l.requested = size) (ha : Allocates s.heap T size p h') :
    ∃ T', Outcome arena s T l p (s.handOut 0 p h') T' := by
  have herase : s.held.erase 0 = s.held := List.erase_of_not_mem hI.ne_zero
  rcases ha with ⟨rfl, rfl⟩ | ⟨b, k, T', rfl, hR', hp, hk, hkeeps⟩
  · refine ⟨T, ⟨hI.rep, ?_, harena⟩, fun x hx _ => ⟨hx, Keeps.refl⟩, fun h0 => absurd rfl h0⟩
    rw [handOut_null, herase]
    exact hI.held
  refine ⟨T', ⟨hR', ?_, harena⟩, fun x hx _ => ⟨?_, hkeeps.single hx⟩,
    fun _ => ⟨b, k, rfl, ?_, ?_⟩⟩
  · rw [handOut_ptr s 0 h' (by omega), herase]
    exact (hI.held.cons _).trans (hp.map fun x : ℕ × ℕ => x.1 + 16).symm
  · exact hp.mem_iff.mpr (List.mem_cons_of_mem _ hx)
  · exact hp.mem_iff.mpr List.mem_cons_self
  · rw [hreq]
    exact hk

/-- The state after a block was given back. -/
theorem Inv.frees (hsubj : l.subject = b + 16) (hR' : Rep h' T')
    (hp : (lives T).Perm ((b, n) :: lives T')) (hkeeps : Keeps (lives T') s.heap h') :
    Outcome arena s T l 0 (s.handOut (b + 16) 0 h') T' := by
  have hheld : s.held.Perm ((b + 16) :: (lives T').map fun x => x.1 + 16) :=
    hI.held.trans (hp.map fun x => x.1 + 16)
  refine ⟨⟨hR', ?_, harena⟩, fun x hx hne => ?_, fun h0 => absurd rfl h0⟩
  · have := hheld.erase (b + 16)
    rwa [List.erase_cons_head] at this
  · rcases List.mem_cons.mp (hp.mem_iff.mp hx) with rfl | hx
    · exact absurd hsubj.symm hne
    · exact ⟨hx, hkeeps.single hx⟩

/-- The state after `krealloc` of a held pointer. -/
theorem Inv.reallocates (hb : (b, n) ∈ lives T) (hr : Reallocates s.heap T b n size p h') :
    ∃ T', Outcome arena s T (.realloc (b + 16) size) p
      (if p = 0 ∧ size ≠ 0 then { s with heap := h' } else s.handOut (b + 16) p h') T' := by
  cases hr with
  | @freed _ T' h0 hR' hp hkeeps =>
    refine ⟨T', ?_⟩
    rw [if_neg fun hc => hc.2 h0]
    exact hI.frees harena rfl hR' hp hkeeps
  | fits hpos hfit =>
    refine ⟨T, ?_⟩
    rw [if_neg fun hc => by omega]
    refine ⟨⟨hI.rep, ?_, harena⟩, fun x hx _ => ⟨hx, Keeps.refl⟩, fun _ => ⟨b, n, rfl, hb, hfit⟩⟩
    exact (List.perm_cons_erase (hI.mem_held hb)).symm.trans hI.held
  | fails =>
    refine ⟨T, ?_⟩
    rw [if_pos ⟨rfl, by omega⟩]
    exact ⟨⟨hI.rep, hI.held, harena⟩, fun x hx _ => ⟨hx, Keeps.refl⟩, fun h0 => absurd rfl h0⟩
  | @moves _ T' c k L hpos hR' hp hp' hk hkeeps =>
    refine ⟨T', ?_⟩
    rw [if_neg fun hc => by omega]
    have hheld : s.held.Perm ((b + 16) :: L.map fun x => x.1 + 16) :=
      hI.held.trans (hp.map fun x => x.1 + 16)
    refine ⟨⟨hR', ?_, harena⟩, fun x hx hne => ?_, fun _ => ⟨c, k, rfl, ?_, hk⟩⟩
    · have := hheld.erase (b + 16)
      rw [List.erase_cons_head] at this
      exact (this.cons _).trans (hp'.map fun x : ℕ × ℕ => x.1 + 16).symm
    · rcases List.mem_cons.mp (hp.mem_iff.mp hx) with rfl | hx
      · exact absurd rfl hne
      · exact ⟨hp'.mem_iff.mpr (List.mem_cons_of_mem _ hx), hkeeps.single hx⟩
    · exact hp'.mem_iff.mpr List.mem_cons_self

end

/-- **One call.**  It returns, and its outcome is as described. -/
theorem Inv.exec (hI : Inv arena s T) (hlimit : limit ≤ 2 ^ 64 - 32) (hg : Guard limit s l) :
    ∃ r t T', exec s l = some (r, t) ∧ Outcome arena s T l r t T' := by
  obtain ⟨hreq, hsubj, hown⟩ := hg
  cases l with
  | malloc size =>
    obtain ⟨p, h', hcall, harena, ha⟩ := hI.rep.kmalloc (show size ≤ _ from hreq.trans hlimit)
    obtain ⟨T', hout⟩ := hI.allocates (l := .malloc size) (harena.trans hI.arena) rfl ha
    exact ⟨p, _, T', by simp only [Kheap.exec, hcall]; rfl, hout⟩
  | calloc n size =>
    obtain ⟨p, h', hcall, harena, ha⟩ := hI.rep.kcalloc (hreq.trans hlimit)
    obtain ⟨T', hout⟩ := hI.allocates (l := .calloc n size) (harena.trans hI.arena) rfl ha
    exact ⟨p, _, T', by simp only [Kheap.exec, hcall]; rfl, hout⟩
  | realloc q size =>
    have hsize : size ≤ 2 ^ 64 - 32 := hreq.trans hlimit
    rcases hsubj with h0 | hq
    · subst h0
      -- a `NULL` pointer makes it `kmalloc`
      obtain ⟨p, h', hcall, harena, ha⟩ := hI.rep.kmalloc hsize
      have hcall' : krealloc s.heap 0 size = some (p, h') := hcall
      replace harena := harena.trans hI.arena
      obtain ⟨T', hout⟩ := hI.allocates (l := .realloc 0 size) harena rfl ha
      by_cases hfail : p = 0 ∧ size ≠ 0
      · obtain ⟨rfl, hne⟩ := hfail
        refine ⟨0, { s with heap := h' }, T', ?_, ⟨⟨hout.inv.rep, ?_, harena⟩, hout.others,
          hout.room⟩⟩
        · simp only [Kheap.exec, hcall', Option.map_some]
          rw [if_pos ⟨trivial, hne⟩]
        · have hheld := hout.inv.held
          rwa [handOut_null, List.erase_of_not_mem hI.ne_zero] at hheld
      · refine ⟨p, _, T', ?_, hout⟩
        simp only [Kheap.exec, hcall', Option.map_some]
        rw [if_neg hfail]
    · obtain ⟨b, n, rfl, hb⟩ := hI.live hq
      obtain ⟨p, h', hcall, harena, hr⟩ := hI.rep.krealloc hb hsize
      obtain ⟨T', hout⟩ := hI.reallocates (harena.trans hI.arena) hb hr
      exact ⟨p, _, T', by simp only [Kheap.exec, hcall]; rfl, hout⟩
  | free q =>
    rcases hsubj with h0 | hq
    · subst h0
      have hsame : s.handOut 0 0 s.heap = s := by
        have herase : s.held.erase 0 = s.held := List.erase_of_not_mem hI.ne_zero
        unfold State.handOut
        rw [if_pos rfl, herase]
      refine ⟨0, s, T, ?_, hI, fun x hx _ => ⟨hx, Keeps.refl⟩, fun h0 => absurd rfl h0⟩
      show some (0, s.handOut 0 0 s.heap) = _
      rw [hsame]
    · obtain ⟨b, n, rfl, hb⟩ := hI.live hq
      obtain ⟨h', T', hcall, harena, hR', hp, hkeeps⟩ := hI.rep.kfree hb
      exact ⟨0, _, T', by simp only [Kheap.exec, hcall]; rfl,
        hI.frees (harena.trans hI.arena) rfl hR' hp hkeeps⟩
  | store q offset data =>
    obtain ⟨hq, hlen⟩ := hown
    obtain ⟨b, n, rfl, hb⟩ := hI.live hq
    rw [hI.rep.payload_live hb] at hlen
    obtain ⟨hR', hother⟩ := hI.rep.store (m := memcpy s.heap.mem (b + 16 + offset) data) hb
      fun j hj => memcpy_of_not_mem (by omega)
    exact ⟨0, _, T, rfl, ⟨hR', hI.held, hI.arena⟩, fun x hx hne =>
      ⟨hx, hother x hx fun heq => hne (by rw [heq]; rfl)⟩, fun h0 => absurd rfl h0⟩

/-- The invariant along a run. -/
theorem Inv.run (hlo : 0 < arena) (hhi : arena + arenaSz ≤ 2 ^ 64) (hlimit : limit ≤ 2 ^ 64 - 32)
    (hrun : Run Step (Guard limit) (Kheap.start mem arena) ls s) : ∃ T, Inv arena s T := by
  refine hrun.invariant (I := fun s => ∃ T, Inv arena s T) ⟨_, Inv.start hlo hhi⟩ ?_
  rintro s l t ⟨T, hI⟩ hg ⟨r, hstep⟩
  obtain ⟨r', t', T', hexec, hout⟩ := hI.exec hlimit hg
  cases hexec.symm.trans hstep
  exact ⟨T', hout.inv⟩

/-- What a holder wrote, read off the bytes of the block. -/
theorem Keeps.contents (hk : Keeps [(b, n)] h h') (hn : h.size b = n) (hn' : h'.size b = n) :
    h'.contents (b + 16) = h.contents (b + 16) := by
  have hblk : b + 16 - hdrSize = b := rfl
  unfold Heap.contents Heap.payload
  rw [hblk, hn, hn']
  refine List.map_congr_left fun j hj => hk (b, n) List.mem_cons_self _ (by simp only; omega) ?_
  have := List.mem_range.mp hj
  omega

/-! ## The results -/

/-- **The heap is canonical.**  In every state that a run reaches, the free list is the list of the
gaps between the live blocks; and every further call returns and leaves what other holders wrote. -/
theorem heap_canonical (hlo : 0 < arena) (hhi : arena + arenaSz ≤ 2 ^ 64)
    (hrun : Run Step (Guard arenaSz) (Kheap.start mem arena) ls s) :
    (∃ L, Canonical arena s L) ∧ ∀ l, Guard arenaSz s l → ∃ r t, exec s l = some (r, t) ∧
        ∀ p, p ∈ s.held → p ≠ l.subject → p ∈ t.held ∧ t.heap.contents p = s.heap.contents p := by
  have hlimit : arenaSz ≤ 2 ^ 64 - 32 := by unfold arenaSz; omega
  obtain ⟨T, hI⟩ := Inv.run hlo hhi hlimit hrun
  refine ⟨⟨_, hI.canonical⟩, fun l hg => ?_⟩
  obtain ⟨r, t, T', hexec, hout⟩ := hI.exec hlimit hg
  refine ⟨r, t, hexec, fun p hp hne => ?_⟩
  obtain ⟨b, n, rfl, hb⟩ := hI.live hp
  obtain ⟨hb', hkeeps⟩ := hout.others _ hb hne
  exact ⟨hout.inv.mem_held hb', hkeeps.contents (hI.rep.size_live hb)
    (hout.inv.rep.size_live hb')⟩

/-- A heap over zeroed memory. -/
def blank : State := start (fun _ => 0#8) 0xffff800001000000

theorem blank_malloc_free :
    ((exec blank (.malloc 100)).bind fun r => exec r.2 (.free r.1)).map (fun r => r.2.held) =
      some [] := by decide +kernel

theorem blank_lo : 0 < 0xffff800001000000 := by norm_num

theorem blank_hi : 0xffff800001000000 + arenaSz ≤ 2 ^ 64 := by unfold arenaSz; norm_num

/-- A block is taken and given back. -/
theorem blank_run : ∃ p s, Run Step (Guard arenaSz) blank [.malloc 100, .free p] s ∧ s.held = [] := by
  obtain ⟨⟨q, s⟩, hcalls, hheld⟩ := Option.map_eq_some_iff.mp blank_malloc_free
  obtain ⟨⟨p, t⟩, hmalloc, hfree⟩ := Option.bind_eq_some_iff.mp hcalls
  have hg : Guard arenaSz blank (.malloc 100) :=
    ⟨by unfold Label.requested arenaSz; norm_num, .inl rfl, trivial⟩
  obtain ⟨p', t', T', hexec, hout⟩ :=
    (Inv.start blank_lo blank_hi).exec (by unfold arenaSz; omega) hg
  cases hexec.symm.trans hmalloc
  have hg' : Guard arenaSz t (.free p) := by
    refine ⟨Nat.zero_le _, ?_, trivial⟩
    by_cases h0 : p = 0
    · exact .inl h0
    · obtain ⟨b, k, rfl, hb, -⟩ := hout.room h0
      exact .inr (hout.inv.mem_held hb)
  exact ⟨p, s, Run.cons hg ⟨p, hmalloc⟩ (Run.cons hg' ⟨q, hfree⟩ .nil), hheld⟩

theorem canonical_malloc_free : ∃ p s, Run Step (Guard arenaSz) blank [.malloc 100, .free p] s ∧
    s.held = [] ∧ ∃ L, Canonical 0xffff800001000000 s L := by
  obtain ⟨p, s, hrun, hheld⟩ := blank_run
  exact ⟨p, s, hrun, hheld, (heap_canonical blank_lo blank_hi hrun).1⟩

/-- **Nothing is lost.**  However the heap was used while no request wrapped, once everything has
been given back the free list is the whole arena in one block, and nothing counts as used. -/
theorem heap_whole_again (hlo : 0 < arena) (hhi : arena + arenaSz ≤ 2 ^ 64)
    (hrun : Run Step (Guard (2 ^ 64 - 32)) (Kheap.start mem arena) ls s) (hheld : s.held = []) :
    s.heap.freeList = some [(arena, arenaSz)] ∧ s.heap.usedSz = 0 := by
  obtain ⟨T, hI⟩ := Inv.run hlo hhi le_rfl hrun
  have hlives : lives T = [] := List.map_eq_nil_iff.mp (List.nil_perm.mp (hheld ▸ hI.held))
  have hform := hlives ▸ hI.canonical
  refine ⟨?_, hform.used⟩
  rw [hform.freeList, gaps, if_pos (by unfold arenaSz; omega), Nat.add_sub_cancel_left]

/-- After the block was given back. -/
theorem whole_malloc_free : ∃ p s, Run Step (Guard arenaSz) blank [.malloc 100, .free p] s ∧
    s.heap.freeList = some [(0xffff800001000000, arenaSz)] ∧ s.heap.usedSz = 0 := by
  obtain ⟨p, s, hrun, hheld⟩ := blank_run
  have hlimit : arenaSz ≤ 2 ^ 64 - 32 := by unfold arenaSz; omega
  exact ⟨p, s, hrun, heap_whole_again blank_lo blank_hi
    (hrun.mono fun _ _ hg => ⟨hg.1.trans hlimit, hg.2⟩) hheld⟩

/-- **Allocations are honest.**  While no request wraps, a pointer that a call returns is held, has
room for what was asked, and its block is not on the free list. -/
theorem allocation_honest (hlo : 0 < arena) (hhi : arena + arenaSz ≤ 2 ^ 64)
    (hrun : Run Step (Guard (2 ^ 64 - 32)) (Kheap.start mem arena) ls s)
    (hg : Guard (2 ^ 64 - 32) s l) (hexec : exec s l = some (r, t)) (hr : r ≠ 0) :
    r ∈ t.held ∧ l.requested ≤ t.heap.payload r ∧
      ∃ free, t.heap.freeList = some free ∧ r - hdrSize ∉ free.map Prod.fst := by
  obtain ⟨T, hI⟩ := Inv.run hlo hhi le_rfl hrun
  obtain ⟨r', t', T', hexec', hout⟩ := hI.exec le_rfl hg
  cases hexec'.symm.trans hexec
  obtain ⟨b, k, rfl, hmem, hroom⟩ := hout.room hr
  have hR := hout.inv.rep
  have hpay := hR.payload_live hmem
  refine ⟨hout.inv.mem_held hmem, by omega, _, hR.freeList, fun hfree => ?_⟩
  rw [← frees_eq_gaps hR.shape.tiled hR.sparse] at hfree
  obtain ⟨u, hu, haddr, hlive⟩ := mem_frees_map hfree
  have heq := hR.shape.tiled.eq_of_addr hu (mem_lives.mp hmem) haddr
  rw [heq] at hlive
  cases hlive

theorem blank_malloc :
    (exec blank (.malloc 100)).map (fun r => decide (r.1 = 0)) = some false := by decide +kernel

/-- A hundred bytes from an empty heap. -/
theorem honest_malloc : ∃ r t, exec blank (.malloc 100) = some (r, t) ∧ r ≠ 0 ∧
    100 ≤ t.heap.payload r := by
  obtain ⟨⟨r, t⟩, hexec, hr⟩ := Option.map_eq_some_iff.mp blank_malloc
  have hr : r ≠ 0 := of_decide_eq_false hr
  have hg : Guard (2 ^ 64 - 32) blank (.malloc 100) :=
    ⟨by unfold Label.requested; norm_num, .inl rfl, trivial⟩
  have hhi : 0xffff800001000000 + arenaSz ≤ 2 ^ 64 := by unfold arenaSz; norm_num
  exact ⟨r, t, hexec, hr, (allocation_honest (by norm_num) hhi .nil hg hexec hr).2.1⟩

/-- **Requests wrap.**  Right after `heap_init`: `kmalloc(2^64 - 1)` returns a block without any
payload; `kmalloc(2^64 - 20)` one that is the only block of the free list and has the size zero;
and `kcalloc(2^63 + 1, 2)` one with 16 bytes. -/
theorem kmalloc_wraps :
    (∃ r t, exec blank (.malloc (2 ^ 64 - 1)) = some (r, t) ∧ r ≠ 0 ∧ t.heap.payload r = 0) ∧
    (∃ r t, exec blank (.malloc (2 ^ 64 - 20)) = some (r, t) ∧ r ≠ 0 ∧
      t.heap.freeList = some [(r - hdrSize, 0)]) ∧
    ∃ r t, exec blank (.calloc (2 ^ 63 + 1) 2) = some (r, t) ∧ r ≠ 0 ∧ t.heap.payload r = 16 := by
  have hsmall : (exec blank (.malloc (2 ^ 64 - 1))).map
      (fun r => decide (r.1 ≠ 0 ∧ r.2.heap.payload r.1 = 0)) = some true := by decide +kernel
  have hlisted : (exec blank (.malloc (2 ^ 64 - 20))).map
      (fun r => decide (r.1 ≠ 0 ∧ r.2.heap.freeList = some [(r.1 - hdrSize, 0)])) = some true := by
    decide +kernel
  have hproduct : (exec blank (.calloc (2 ^ 63 + 1) 2)).map
      (fun r => decide (r.1 ≠ 0 ∧ r.2.heap.payload r.1 = 16)) = some true := by decide +kernel
  refine ⟨?_, ?_, ?_⟩
  · obtain ⟨⟨r, t⟩, hexec, hres⟩ := Option.map_eq_some_iff.mp hsmall
    exact ⟨r, t, hexec, of_decide_eq_true hres⟩
  · obtain ⟨⟨r, t⟩, hexec, hres⟩ := Option.map_eq_some_iff.mp hlisted
    exact ⟨r, t, hexec, of_decide_eq_true hres⟩
  · obtain ⟨⟨r, t⟩, hexec, hres⟩ := Option.map_eq_some_iff.mp hproduct
    exact ⟨r, t, hexec, of_decide_eq_true hres⟩

end Xos.Kheap
