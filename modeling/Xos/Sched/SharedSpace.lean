import Xos.Sched.RunQueue

/-!
# The lifetime of a shared address space

`proc_clone` with `CLONE_VM` lets a new process run on its creator's page tables.
The count of users is a field of each `proc_t`: the clone raises the creator's count
and the new process starts with a count of its own, and `proc_exit` decides by the
count of the exiting process alone.

* **The count is not the number of users.**  A thread that exits destroys the tables
  its creator still runs on — `thread_exit_destroys_creator`.
* **A chain of threads is handled right.**  If only the thread created last creates
  the next one, and it outlives the others, the tables are destroyed exactly once,
  by the last exit — `chain_destroyed_once`.
-/

namespace Xos.Sched

open Xos.Lib Function

variable {n : ℕ} {s s' : Machine n} {L : Prio → List ProcId} {p : ProcId}

/-! ## Clone and exit as single steps -/

/-- `__atomic_add_fetch(&p->pml4_refcount, d)`. -/
def addRef (s : Machine n) (p : ProcId) (d : ℤ) : Machine n :=
  s.setProc p { s.procs p with pml4Refcount := (s.procs p).pml4Refcount + d }

/-- What `proc_clone` stores in the new slot. -/
def initClone (s : Machine n) (parent child : ProcId) (thread : Bool) (userRsp : ℕ) : Machine n :=
  s.setProc child { s.procs child with
    parentPid := if thread then (s.procs parent).parentPid else (s.procs parent).pid
    reaped := thread
    priority := (s.procs parent).priority
    tgid := if thread then (s.procs parent).tgid else (s.procs child).pid
    sleepUntil := userRsp }

/-- `proc_clone` by `parent`: the new process, if there is one.  `thread` is
`CLONE_THREAD`; without `CLONE_VM` (`share`) the child gets `newPml4`, what
`vmm_clone_user` returned.  `kstack` is what `kmalloc` returned. -/
def procClone (s : Machine n) (parent : ProcId) (share thread : Bool) (newPml4 kstack userRsp : ℕ) :
    Option (Machine n × Option ProcId) :=
  let pml4 := if share then (s.procs parent).pml4 else newPml4
  if share = false ∧ newPml4 = 0 then some (s, none)
  else
    let s := if share then addRef s parent 1 else s
    let undo := if share then addRef s parent (-1) else s
    if kstack = 0 then some (undo, none)
    else
      match procCreate s pml4 kstack with
      | none => some (undo, none)
      | some (s, child) =>
        (procMakeReady (initClone s parent child thread userRsp) child).map (·, some child)

/-- `proc_exit(p)` on CPU `c`, run to its end. -/
def procExit (s : Machine n) (c : Fin n) (p : ProcId) (chan : Option ℕ) :
    Option (Machine n × List Event) :=
  if (s.procs p).exiting then some (s, [])
  else do
    let s := s.setProc p { s.procs p with exiting := true, state := .dead, reaped := false }
    let s ← wakeJoiner s chan
    let (s, ev₁) := exitTables s p
    let (s, ev₂) := exitKstack s c p
    let s ← readyDequeue s p
    pure ({ s with links := update s.links (.next p) none }, ev₁ ++ ev₂)

/-! ## A group of threads -/

/-- A machine, the processes that were cloned from one another and have not exited,
newest first, and how often page tables `pml4` were destroyed. -/
structure Group (n : ℕ) where
  machine : Machine n
  members : List ProcId
  destroyed : ℕ

/-- What the members of a group do. -/
inductive ThreadOp (n : ℕ) where
  /-- `proc_clone` with `CLONE_VM`. -/
  | clone (parent : ProcId) (thread : Bool) (kstack userRsp : ℕ)
  /-- `proc_exit`, of the process itself or by a `proc_kill`. -/
  | exit (c : Fin n) (p : ProcId) (chan : Option ℕ)

/-- Does the event destroy the page tables `pml4`? -/
def Event.destroys (pml4 : ℕ) : Event → Bool
  | .freeTables _ x => x == pml4
  | _ => false

/-- One operation of a member of the group. -/
def groupStep (pml4 : ℕ) (g : Group n) : ThreadOp n → Group n → Prop
  | .clone parent thread kstack userRsp, g' =>
    parent ∈ g.members ∧
    ∃ s' child, procClone g.machine parent true thread 0 kstack userRsp = some (s', child) ∧
      g' = { g with machine := s', members := child.toList ++ g.members }
  | .exit c p chan, g' =>
    p ∈ g.members ∧ ∃ s' ev, procExit g.machine c p chan = some (s', ev) ∧
      g' = { machine := s', members := g.members.erase p,
             destroyed := g.destroyed + ev.countP (Event.destroys pml4) }

/-- **The chain condition.**  Only the member created last creates another one, and it
exits after all others. -/
def Chained (g : Group n) : ThreadOp n → Prop
  | .clone parent _ _ _ => g.members.head? = some parent
  | .exit _ p _ => g.members.head? = some p → g.members = [p]

/-- The start: one live process runs on `pml4`, counted once, and the queues are in
order. -/
structure SoleOwner (pml4 : ℕ) (g : Group n) : Prop where
  nonzero : pml4 ≠ 0
  queues : ∃ L, Queues g.machine.links L ∧ ∀ q, ∀ p ∈ L q, (g.machine.procs p).state ≠ .dead
  owner : ∃ p, g.members = [p] ∧ (g.machine.procs p).state ≠ .dead ∧
    (g.machine.procs p).exiting = false ∧ (g.machine.procs p).pml4Refcount = 1 ∧
    ∀ x, (g.machine.procs x).pml4 = pml4 ↔ x = p
  destroyed : g.destroyed = 0

/-! ## The invariant of a chain -/

/-- The members' counts: `1` for the newest, `2` for each of the others. -/
def Counts (s : Machine n) : List ProcId → Prop
  | [] => True
  | newest :: older => (s.procs newest).pml4Refcount = 1 ∧
      ∀ p ∈ older, (s.procs p).pml4Refcount = 2

/-- What a chained run keeps. -/
structure GroupInv (pml4 : ℕ) (g : Group n) : Prop where
  nonzero : pml4 ≠ 0
  queues : ∃ L, Queues g.machine.links L ∧ ∀ q, ∀ p ∈ L q, (g.machine.procs p).state ≠ .dead
  nodup : g.members.Nodup
  mem : ∀ p, p ∈ g.members ↔ (g.machine.procs p).pml4 = pml4
  live : ∀ p ∈ g.members, (g.machine.procs p).state ≠ .dead ∧
    (g.machine.procs p).exiting = false
  counts : Counts g.machine g.members
  destroyed : g.destroyed = if g.members = [] then 1 else 0

theorem SoleOwner.groupInv {pml4 : ℕ} {g : Group n} (h : SoleOwner pml4 g) : GroupInv pml4 g := by
  obtain ⟨p, hm, hst, hex, href, hown⟩ := h.owner
  refine ⟨h.nonzero, h.queues, by simp [hm], fun x => by simp [hm, hown], fun x hx => ?_, ?_, ?_⟩
  · rw [hm, List.mem_singleton] at hx
    subst hx; exact ⟨hst, hex⟩
  · rw [hm]; exact ⟨href, by simp⟩
  · simp [hm, h.destroyed]

/-! ### Clone -/

theorem addRef_undo (s : Machine n) (p : ProcId) : addRef (addRef s p 1) p (-1) = s := by
  simp [addRef, Machine.setProc]

/-- The state in which a shared clone leaves the machine, or its failure. -/
theorem procClone_spec (thread : Bool) (kstack userRsp : ℕ) (hq : Queues s.links L)
    (hl : ∀ q, ∀ p ∈ L q, (s.procs p).state ≠ .dead) (hpar : (s.procs parent).state ≠ .dead) :
    procClone s parent true thread 0 kstack userRsp = some (s, none) ∨
    ∃ s' L' child, procClone s parent true thread 0 kstack userRsp = some (s', some child) ∧
      Queues s'.links L' ∧ (∀ q, ∀ p ∈ L' q, (s'.procs p).state ≠ .dead) ∧
      (s.procs child).state = .dead ∧
      (∀ x, x ≠ child → x ≠ parent → s'.procs x = s.procs x) ∧
      s'.procs parent = { s.procs parent with pml4Refcount := (s.procs parent).pml4Refcount + 1 } ∧
      (s'.procs child).pml4 = (s.procs parent).pml4 ∧ (s'.procs child).pml4Refcount = 1 ∧
      (s'.procs child).state = .ready ∧ (s'.procs child).exiting = false := by
  by_cases hk : kstack = 0
  · simp [procClone, hk, addRef_undo]
  have hslot : ∀ i, freeSlot (addRef s parent 1) = some i → (s.procs i).state = .dead ∧
      i ≠ parent := by
    intro i hi
    obtain ⟨hd, -⟩ := freeSlot_spec hi
    have hne : i ≠ parent := by
      rintro rfl
      simp [addRef] at hd
      exact hpar hd
    exact ⟨by simpa [addRef, hne] using hd, hne⟩
  cases hfree : freeSlot (addRef s parent 1) with
  | none =>
    simp [procClone, procCreate, hfree, addRef_undo]
  | some child =>
    right
    obtain ⟨hd, hne⟩ := hslot child hfree
    have hunl : ∀ q, child ∉ L q := fun q hc => hl q child hc hd
    let s₁ := (addRef s parent 1).setProc child
      (freshProc ((addRef s parent 1).procs child) child (s.procs parent).pml4 kstack)
    let s₂ := (initClone s₁ parent child thread userRsp).setState child .ready
    have hlinks : s₂.links = s.links := rfl
    obtain ⟨m, henq, hm⟩ := readyEnqueue_spec (s := s₂) (p := child) (hlinks ▸ hq) hunl
    refine ⟨{ s₂ with links := m }, _, child, ?_, hm, fun q x hx => ?_, hd, fun x hx hx' => ?_,
      ?_, ?_, ?_, ?_, ?_⟩
    · have hclone : procMakeReady (initClone s₁ parent child thread userRsp) child =
          some { s₂ with links := m } := henq
      simp only [procClone, hk, procCreate, hfree, if_true, Option.map_some]
      rw [hclone]
      rfl
    · by_cases hxc : x = child
      · subst hxc; simp [s₂]
      have hxL : ∃ q', x ∈ L q' := by
        by_cases hqq : q = queueOf (s₂.procs child).priority
        · rw [hqq, update_self, List.mem_append] at hx
          rcases hx with hx | hx
          · exact ⟨_, hx⟩
          · exact absurd (List.mem_singleton.1 hx) hxc
        · rw [update_of_ne hqq] at hx
          exact ⟨q, hx⟩
      obtain ⟨q', hx⟩ := hxL
      have := hl q' x hx
      by_cases hxp : x = parent
      · subst hxp; simpa [s₂, s₁, initClone, addRef, hxc] using this
      · simpa [s₂, s₁, initClone, addRef, hxc, hxp] using this
    · simp [s₂, s₁, initClone, addRef, hx, hx']
    · simp [s₂, s₁, initClone, addRef, hne.symm]
    · simp [s₂, s₁, initClone, freshProc]
    · simp [s₂, s₁, initClone, freshProc]
    · simp [s₂]
    · simp [s₂, s₁, initClone, freshProc]

/-! ### Exit -/

theorem exitTables_spec (s : Machine n) (p : ProcId) : (exitTables s p).1.links = s.links ∧
      (∀ x, x ≠ p → (exitTables s p).1.procs x = s.procs x) ∧
      ((exitTables s p).1.procs p).pml4 = 0 ∧
      ((exitTables s p).1.procs p).state = (s.procs p).state ∧
      ∀ pml4, pml4 ≠ 0 → (exitTables s p).2.countP (Event.destroys pml4) =
        if (s.procs p).pml4 = pml4 ∧ (s.procs p).pml4Refcount ≤ 1 then 1 else 0 := by
  unfold exitTables
  split
  · rename_i h0
    refine ⟨rfl, fun _ _ => rfl, h0, rfl, fun pml4 hne => ?_⟩
    rw [if_neg (fun h => hne (h.1.symm.trans h0)), List.countP_nil]
  refine ⟨rfl, fun x hx => by simp [hx], by simp, by simp, fun pml4 _ => ?_⟩
  by_cases hr : (s.procs p).pml4Refcount - 1 ≤ 0
  · have hr' : (s.procs p).pml4Refcount ≤ 1 := by omega
    simp [hr', Event.destroys]
  · have hr' : ¬ (s.procs p).pml4Refcount ≤ 1 := by omega
    simp [hr']

theorem exitKstack_spec (s : Machine n) (c : Fin n) (p : ProcId) :
    (exitKstack s c p).1.links = s.links ∧ (∀ x, x ≠ p → (exitKstack s c p).1.procs x = s.procs x) ∧
      ((exitKstack s c p).1.procs p).pml4 = (s.procs p).pml4 ∧
      ((exitKstack s c p).1.procs p).state = (s.procs p).state ∧
      ∀ pml4, (exitKstack s c p).2.countP (Event.destroys pml4) = 0 := by
  unfold exitKstack
  split
  · exact ⟨rfl, fun x hx => by simp [hx], by simp, by simp, fun _ => by simp [Event.destroys]⟩
  · exact ⟨rfl, fun _ _ => rfl, rfl, rfl, fun _ => rfl⟩

/-- A whole `proc_exit`: it comes back, and destroys the tables if and only if the
process's own count says so. -/
theorem procExit_spec (c : Fin n) (chan : Option ℕ) (hq : Queues s.links L)
    (hl : ∀ q, ∀ p ∈ L q, (s.procs p).state ≠ .dead) (hex : (s.procs p).exiting = false) :
    ∃ s' ev L', procExit s c p chan = some (s', ev) ∧ Queues s'.links L' ∧
      (∀ q, ∀ p ∈ L' q, (s'.procs p).state ≠ .dead) ∧ (s'.procs p).pml4 = 0 ∧
      (∀ x, x ≠ p → (s'.procs x).pml4 = (s.procs x).pml4 ∧
        (s'.procs x).pml4Refcount = (s.procs x).pml4Refcount ∧
        (s'.procs x).exiting = (s.procs x).exiting ∧
        ((s'.procs x).state = .dead ↔ (s.procs x).state = .dead)) ∧
      ∀ pml4, pml4 ≠ 0 → ev.countP (Event.destroys pml4) =
        if (s.procs p).pml4 = pml4 ∧ (s.procs p).pml4Refcount ≤ 1 then 1 else 0 := by
  set s₁ := s.setProc p { s.procs p with exiting := true, state := .dead, reaped := false } with hs₁
  -- the claim, then the joiners
  obtain ⟨s₂, hs₂, hw⟩ := wakeJoiner_spec (s := s₁) chan hq
  have hp₂ : s₂.procs p = s₁.procs p := by
    rcases hw.procs p with he | ⟨-, hb, -⟩
    · exact he
    · simp [hs₁] at hb
  -- the tables and the kernel stack
  obtain ⟨tl, tne, tp, tst, tev⟩ := exitTables_spec s₂ p
  obtain ⟨kl, kne, kp, kst, kev⟩ := exitKstack_spec (exitTables s₂ p).1 c p
  set s₃ := (exitKstack (exitTables s₂ p).1 c p).1 with hs₃
  have hlinks : s₃.links = s.links := by rw [kl, tl, hw.links]; rfl
  obtain ⟨m, hdeq, hm⟩ := readyDequeue_spec (s := s₃) (hlinks ▸ hq) p
  have hunl : ∀ q, p ∉ (L q).erase p := fun q => (hq.nodup q).not_mem_erase
  have hrest : ∀ x, x ≠ p → s₃.procs x = s₂.procs x := fun x hx => by
    rw [kne x hx, tne x hx]
  have hsame : ∀ x, x ≠ p → (s₃.procs x).pml4 = (s.procs x).pml4 ∧
      (s₃.procs x).pml4Refcount = (s.procs x).pml4Refcount ∧
      (s₃.procs x).exiting = (s.procs x).exiting ∧
      ((s₃.procs x).state = .dead ↔ (s.procs x).state = .dead) := by
    intro x hx
    have h₁ : s₁.procs x = s.procs x := by simp [hs₁, hx]
    rw [hrest x hx]
    rcases hw.procs x with he | ⟨-, hb, _, _, he⟩
    · rw [he, h₁]; exact ⟨rfl, rfl, rfl, Iff.rfl⟩
    rw [h₁] at hb he
    rw [he, hb]
    exact ⟨rfl, rfl, rfl, by simp⟩
  refine ⟨{ s₃ with links := update m (.next p) none },
    (exitTables s₂ p).2 ++ (exitKstack (exitTables s₂ p).1 c p).2, _, ?_, hm.store_next hunl none,
    fun q x hx => ?_, kp.trans tp, hsame, fun pml4 hne => ?_⟩
  · simp only [procExit, hex, Bool.false_eq_true, if_false]
    rw [← hs₁]
    simp only [Option.bind_eq_bind, hs₂, Option.bind_some, ← hs₃, hdeq, Option.pure_def]
  · have hxp : x ≠ p := by rintro rfl; exact hunl q hx
    have hst := hl q x (List.mem_of_mem_erase hx)
    exact fun hd => hst ((hsame x hxp).2.2.2.1 hd)
  · rw [List.countP_append, tev pml4 hne, kev pml4, hp₂]
    simp [hs₁]

/-! ## Chained runs -/

section Chain

variable {pml4 : ℕ} {g g' : Group n}

/-- A clone by the newest member comes back and keeps the invariant. -/
theorem GroupInv.clone (h : GroupInv pml4 g) (hhead : g.members.head? = some parent) (thread : Bool)
    (kstack userRsp : ℕ) :
    ∃ s' child, procClone g.machine parent true thread 0 kstack userRsp = some (s', child) ∧
      GroupInv pml4 { g with machine := s', members := child.toList ++ g.members } := by
  obtain ⟨older, hm⟩ := List.head?_eq_some_iff.1 hhead
  have hpar : parent ∈ g.members := by simp [hm]
  obtain ⟨L, hq, hl⟩ := h.queues
  have hcounts := h.counts
  rw [hm] at hcounts
  rcases procClone_spec thread kstack userRsp hq hl
      (h.live parent hpar).1 with hfail | ⟨s', L', child, hs', hq', hl', hd, hrest, hp', hpm, href,
      hst, hex⟩
  · exact ⟨_, none, hfail, h⟩
  -- the slot was dead, so it belongs to no member
  have hfresh : child ∉ g.members := fun hc => (h.live child hc).1 hd
  refine ⟨s', some child, hs', h.nonzero, ⟨L', hq', hl'⟩, ?_, fun x => ?_, fun x hx => ?_,
    ⟨href, fun x hx => ?_⟩, ?_⟩
  · exact List.nodup_cons.2 ⟨hfresh, h.nodup⟩
  · change x ∈ child :: g.members ↔ (s'.procs x).pml4 = pml4
    by_cases hxc : x = child
    · subst hxc
      simp [hpm, (h.mem parent).1 hpar]
    by_cases hxp : x = parent
    · subst hxp; simp [hp', hxc, h.mem x]
    · rw [hrest x hxc hxp]; simp [hxc, h.mem x]
  · rcases List.mem_cons.1 hx with hxc | hx
    · subst hxc; exact ⟨by simp [hst], hex⟩
    have hxc : x ≠ child := fun he => hfresh (he ▸ hx)
    by_cases hxp : x = parent
    · subst hxp; change (s'.procs x).state ≠ _ ∧ _; rw [hp']; exact h.live x hx
    · rw [hrest x hxc hxp]; exact h.live x hx
  · -- the parent's own `1` becomes the `2` of an older member
    change x ∈ g.members at hx
    have hxc : x ≠ child := by rintro rfl; exact hfresh hx
    by_cases hxp : x = parent
    · subst hxp; simp [hp', hcounts.1]
    · rw [hrest x hxc hxp]
      exact hcounts.2 x (by simpa [hm, hxp] using hx)
  · have hnil : ¬ g.members = [] := by simp [hm]
    simpa [hnil] using h.destroyed

section

variable (h : GroupInv pml4 g) (hp : p ∈ g.members)
  (hlast : g.members.head? = some p → g.members = [p])
include h hp hlast

/-- In a chain, a member's count is at most `1` exactly when it is the only one left. -/
theorem GroupInv.count_le_one : (g.machine.procs p).pml4Refcount ≤ 1 ↔ g.members = [p] := by
  have hcounts := h.counts
  cases hm : g.members with
  | nil => simp [hm] at hp
  | cons newest =>
    rw [hm] at hcounts hp hlast
    rcases List.mem_cons.1 hp with rfl | hold
    · rw [hcounts.1]
      simpa using hlast rfl
    rw [hcounts.2 p hold]
    have hnd := h.nodup
    rw [hm] at hnd
    have hne : newest ≠ p := by
      rintro rfl; exact (List.nodup_cons.1 hnd).1 hold
    simp [hne]

/-- An exit that respects the chain comes back, keeps the invariant, and destroys the
tables exactly when the member is the last one. -/
theorem GroupInv.exit (c : Fin n) (chan : Option ℕ) :
    ∃ s' ev, procExit g.machine c p chan = some (s', ev) ∧
      ev.countP (Event.destroys pml4) = (if g.members = [p] then 1 else 0) ∧
      GroupInv pml4 { machine := s', members := g.members.erase p,
                      destroyed := g.destroyed + ev.countP (Event.destroys pml4) } := by
  obtain ⟨L, hq, hl⟩ := h.queues
  obtain ⟨s', ev, L', hs', hq', hl', hp0, hrest, hev⟩ := procExit_spec c chan hq hl (h.live p hp).2
  have hcount : ev.countP (Event.destroys pml4) = if g.members = [p] then 1 else 0 := by
    rw [hev pml4 h.nonzero]
    simp only [(h.mem p).1 hp, true_and, h.count_le_one hp hlast]
  have hmem : ∀ x, x ∈ g.members.erase p ↔ x ≠ p ∧ x ∈ g.members := fun x => h.nodup.mem_erase_iff
  refine ⟨s', ev, hs', hcount, h.nonzero, ⟨L', hq', hl'⟩, h.nodup.erase p, fun x => ?_,
    fun x hx => ?_, ?_, ?_⟩
  · rw [hmem x]
    by_cases hxp : x = p
    · subst hxp
      simp [hp0, h.nonzero.symm]
    · rw [(hrest x hxp).1]; simp [hxp, h.mem x]
  · obtain ⟨hxp, hx⟩ := (hmem x).1 hx
    obtain ⟨-, -, hex, hst⟩ := hrest x hxp
    exact ⟨fun hd => (h.live x hx).1 (hst.1 hd), hex.trans (h.live x hx).2⟩
  · -- the newest member stays the newest, or the group is empty
    have hcounts := h.counts
    cases hm : g.members with
    | nil => simp [hm] at hp
    | cons newest older =>
      rw [hm] at hcounts hlast
      by_cases hne : newest = p
      · subst hne
        rw [List.erase_cons_head]
        have : older = [] := by simpa using hlast rfl
        rw [this]; trivial
      rw [List.erase_cons_tail (by simpa using hne)]
      refine ⟨(hrest newest hne).2.1.trans hcounts.1, fun x hx => ?_⟩
      have hold := List.mem_of_mem_erase hx
      have hxp : x ≠ p := by
        have hnd := h.nodup
        rw [hm] at hnd
        exact ((List.nodup_cons.1 hnd).2.mem_erase_iff.1 hx).1
      exact (hrest x hxp).2.1.trans (hcounts.2 x hold)
  · have h0 : g.destroyed = 0 := by
      rw [h.destroyed, if_neg (List.ne_nil_of_mem hp)]
    have hiff : g.members.erase p = [] ↔ g.members = [p] := by
      rw [List.erase_eq_nil_iff]
      exact or_iff_right (List.ne_nil_of_mem hp)
    rw [h0, hcount, Nat.zero_add]
    simp only [hiff]

end

theorem GroupInv.step (h : GroupInv pml4 g) (hc : Chained g op) (hs : groupStep pml4 g op g') :
    GroupInv pml4 g' := by
  cases op with
  | clone parent thread kstack userRsp =>
    obtain ⟨-, s', child, hs', rfl⟩ := hs
    obtain ⟨s'', child', hs'', hinv⟩ := h.clone hc thread kstack userRsp
    obtain ⟨rfl, rfl⟩ := Prod.mk.inj (Option.some.inj (hs'.symm.trans hs''))
    exact hinv
  | exit c p chan =>
    obtain ⟨hp, s', ev, hs', rfl⟩ := hs
    obtain ⟨s'', ev', hs'', -, hinv⟩ := h.exit hp hc c chan
    obtain ⟨rfl, rfl⟩ := Prod.mk.inj (Option.some.inj (hs'.symm.trans hs''))
    exact hinv

/-- **A chain's tables are destroyed exactly once.**  In every state a chained run
reaches from a sole owner, the members are the live processes on `pml4`, and its tables
have been destroyed once if there is none left and never before; a clone comes back, and
so does an exit, which destroys the tables if and only if no other live process runs on
them. -/
theorem chain_destroyed_once {ops : List (ThreadOp n)} (h : SoleOwner pml4 g)
    (hr : Run (groupStep pml4) Chained g ops g') :
    (∀ p, p ∈ g'.members ↔ (g'.machine.procs p).state ≠ .dead ∧ (g'.machine.procs p).pml4 = pml4) ∧
    g'.destroyed = (if ∃ p, (g'.machine.procs p).state ≠ .dead ∧
      (g'.machine.procs p).pml4 = pml4 then 0 else 1) ∧
    (∀ parent thread kstack userRsp, parent ∈ g'.members →
      Chained g' (.clone parent thread kstack userRsp) →
      (procClone g'.machine parent true thread 0 kstack userRsp).isSome) ∧
    (∀ c p chan, p ∈ g'.members → Chained g' (.exit c p chan) →
      ∃ s' ev, procExit g'.machine c p chan = some (s', ev) ∧ ev.countP (Event.destroys pml4) =
          if ∃ x, x ≠ p ∧ (g'.machine.procs x).state ≠ .dead ∧
            (g'.machine.procs x).pml4 = pml4 then 0 else 1) := by
  have hinv : GroupInv pml4 g' := hr.invariant h.groupInv fun _ _ _ hi hc hs => hi.step hc hs
  have hmem : ∀ p, p ∈ g'.members ↔
      (g'.machine.procs p).state ≠ .dead ∧ (g'.machine.procs p).pml4 = pml4 := fun p =>
    ⟨fun hp => ⟨(hinv.live p hp).1, (hinv.mem p).1 hp⟩, fun hp => (hinv.mem p).2 hp.2⟩
  refine ⟨hmem, ?_, fun parent thread kstack userRsp _ hc => ?_, fun c p chan hp hc => ?_⟩
  · rw [hinv.destroyed]
    simp only [← hmem, List.eq_nil_iff_forall_not_mem]
    by_cases hex : ∃ p, p ∈ g'.members
    · rw [if_pos hex, if_neg (by simpa using hex)]
    · rw [if_neg hex, if_pos (by simpa using hex)]
  · obtain ⟨s', child, hs', -⟩ := hinv.clone hc thread kstack userRsp
    rw [hs']; rfl
  · obtain ⟨s', ev, hs', hcount, -⟩ := hinv.exit hp hc c chan
    refine ⟨s', ev, hs', ?_⟩
    have hiff : g'.members = [p] ↔ ¬ ∃ x, x ≠ p ∧ x ∈ g'.members := by
      constructor
      · rintro he ⟨x, hxp, hx⟩
        rw [he, List.mem_singleton] at hx
        exact hxp hx
      · intro hno
        have hall : ∀ x ∈ g'.members, x = p := fun x hx => by_contra fun hxp => hno ⟨x, hxp, hx⟩
        exact List.perm_singleton.1 ((List.perm_ext_iff_of_nodup hinv.nodup
          (List.nodup_singleton p)).2 fun x => ⟨fun hx => by simp [hall x hx],
            fun hx => by rw [List.mem_singleton.1 hx]; exact hp⟩)
    simp only [hcount, ← hmem]
    by_cases hex : ∃ x, x ≠ p ∧ x ∈ g'.members
    · rw [if_pos hex, if_neg (fun he => hiff.1 he hex)]
    · rw [if_neg hex, if_pos (hiff.2 hex)]

/-- The first process alone: created after boot and adopted by CPU 0. -/
def firstAlone (pml4 kstack : ℕ) : Group 2 where
  machine := { boot 2 two_le_procs 7 (fun _ => 9) with
    procs := update (boot 2 two_le_procs 7 (fun _ => 9)).procs 2
      { freshProc zeroProc 2 pml4 kstack with state := .running }
    current := ![some 2, some 1] }
  members := [2]
  destroyed := 0

/-- **The count is not the number of users.**  The first process creates a thread; the
thread exits, and that destroys the tables on which the first process still runs. -/
theorem thread_exit_destroys_creator :
    ∃ g : Group 2, Run (groupStep 21) (fun _ _ => True) (firstAlone 21 22)
        [.clone 2 true 32 0, .exit 1 3 none] g ∧
      g.destroyed = 1 ∧ (g.machine.procs 2).state = .running ∧ (g.machine.procs 2).pml4 = 21 :=
  ⟨_, Run.cons trivial ⟨List.mem_singleton.2 rfl, _, _, rfl, rfl⟩ <|
    Run.cons trivial ⟨List.mem_cons_self, _, _, rfl, rfl⟩ .nil, rfl, rfl, rfl⟩

/-- Three threads in a chain; the one created last exits last. -/
theorem chain_destroyed_once_three : ∃ g : Group 2, SoleOwner 21 (firstAlone 21 22) ∧
      Run (groupStep 21) Chained (firstAlone 21 22)
        [.clone 2 true 32 0, .clone 3 true 42 0, .exit 0 2 none, .exit 1 3 none, .exit 0 4 none] g ∧
      g.members = [] ∧ g.destroyed = 1 := by
  have hsole : SoleOwner 21 (firstAlone 21 22) := by
    refine ⟨by decide,
      ⟨_, (Inv.booted (boot_booted (n := 2) (by decide) 7 (fun _ => 9))).queues, by simp⟩,
      ⟨2, rfl, by decide, rfl, rfl, fun x => ?_⟩, rfl⟩
    by_cases hx : x = 2
    · subst hx; exact iff_of_true rfl rfl
    refine iff_of_false ?_ hx
    simp only [firstAlone, update_of_ne hx, boot]
    split <;> decide
  have hrun : ∃ g : Group 2, Run (groupStep 21) Chained (firstAlone 21 22)
        [.clone 2 true 32 0, .clone 3 true 42 0, .exit 0 2 none, .exit 1 3 none,
          .exit 0 4 none] g ∧ g.members = [] := by
    have h42 : (4 : ProcId) ≠ 2 := by decide
    have h43 : (4 : ProcId) ≠ 3 := by decide
    exact ⟨_, Run.cons rfl ⟨List.mem_singleton.2 rfl, _, _, rfl, rfl⟩ <|
      Run.cons rfl ⟨List.mem_cons_self, _, _, rfl, rfl⟩ <|
      -- the older two leave first
      Run.cons (fun h => absurd (Option.some.inj h) h42)
        ⟨.tail 4 (.tail 3 (.head [])), _, _, rfl, rfl⟩ <|
      Run.cons (fun h => absurd (Option.some.inj h) h43) ⟨.tail 4 (.head []), _, _, rfl, rfl⟩ <|
      Run.cons (fun _ => rfl) ⟨List.mem_singleton.2 rfl, _, _, rfl, rfl⟩ .nil, rfl⟩
  obtain ⟨g, hrun, hnil⟩ := hrun
  have hmain := chain_destroyed_once hsole hrun
  refine ⟨g, hsole, hrun, hnil, ?_⟩
  rw [hmain.2.1, if_neg]
  rintro ⟨p, hp⟩
  have := (hmain.1 p).2 hp
  simp [hnil] at this

end Chain

end Xos.Sched
