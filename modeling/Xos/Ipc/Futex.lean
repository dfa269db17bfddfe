import Xos.Sched.Channels

/-!
# Futexes

`kernel/ipc/futex.c` over the scheduler.  A `FUTEX_WAIT` compares the word, registers the thread
in the table of waiters and blocks on the address; a `FUTEX_WAKE` takes registered waiters out of
the table and wakes the address.  Each of these is a step of its own, taken by the thread that a
CPU executes, with `futex_lock` held where the source holds it.

* **No wake-up is lost** where no `FUTEX_WAKE` takes the lock while a thread is between its
  comparison and its `sched_block_on` on the same address — `futex_no_lost_wakeup`.
* Without that, the entry of a thread that is about to block is used up and the thread sleeps on —
  `futex_wakeup_lost`.
-/

namespace Xos.Futex

open Xos.Lib Xos.Sched Function

variable {n : ℕ}

/-! ## The model -/

/-- `FUTEX_MAX_WAITERS`. -/
abbrev futexMaxWaiters : ℕ := 256

/-- `FUTEX_WAIT` and `FUTEX_WAKE`. -/
def futexWait : ℕ := 0
def futexWake : ℕ := 1

/-- Where a thread is in `sys_futex_impl`. -/
inductive Pc where
  /-- Not in it; its last call returned `rax`. -/
  | user (rax : ℤ)
  /-- The word was `val`; about to take `futex_lock`. -/
  | checked (uaddr val timeoutNs : ℕ)
  /-- Its entry is in the table; about to call `sched_block_on`. -/
  | registered (uaddr val timeoutNs : ℕ)
  /-- In `sched_block_on`, or back from it and about to remove its entry. -/
  | waiting (uaddr val : ℕ)
  /-- In `FUTEX_WAKE`, about to take `futex_lock`. -/
  | toWake (uaddr val : ℕ)
  /-- Holds the lock, at slot `i` of the loop. -/
  | waking (uaddr val i woken : ℕ)
  /-- Holds the lock, has cleared slot `i` and is about to call `sched_wake_chan`. -/
  | wakingChan (uaddr val i woken : ℕ)
  deriving DecidableEq

/-- The machine, the futex words of each address space, the table, the holder of `futex_lock`
and where each thread is.  `space p` is the address space of `p`; a word that is not mapped is
`none`. -/
structure State (n : ℕ) where
  mach : Machine n
  space : ProcId → Option ℕ
  word : ℕ → ℕ → Option ℕ
  futexWaiters : Fin futexMaxWaiters → Option (ProcId × ℕ)
  futexLock : Option ProcId
  pc : ProcId → Pc

/-- Thread `p` goes on to `k`. -/
def State.goto (s : State n) (p : ProcId) (k : Pc) : State n :=
  { s with pc := update s.pc p k }

/-- The word at `uaddr` of the address space `sp` becomes `v`. -/
def State.setWord (s : State n) (sp uaddr : ℕ) (v : Option ℕ) : State n :=
  { s with word := update s.word sp (update (s.word sp) uaddr v) }

/-- `futex_resolve(p, uaddr)`, and the load from the address. -/
def futexResolve (s : State n) (p : ProcId) (uaddr : ℕ) : Option ℕ :=
  match s.space p with
  | none => none
  | some sp => if uaddr % 4 ≠ 0 then none else s.word sp uaddr

/-- `sys_futex_impl` up to the first lock. -/
def sysFutex (s : State n) (p : ProcId) (uaddr op val timeoutNs : ℕ) : State n :=
  match futexResolve s p uaddr with
  | none => s.goto p (.user (-1))
  | some current =>
    if op = futexWait then
      if current ≠ val then s.goto p (.user (-11))
      else s.goto p (.checked uaddr val timeoutNs)
    else if op = futexWake then s.goto p (.toWake uaddr val)
    else s.goto p (.user (-38))

/-- The first free slot of the table. -/
def freeWaiter (table : Fin futexMaxWaiters → Option (ProcId × ℕ)) :
    Option (Fin futexMaxWaiters) :=
  (List.finRange futexMaxWaiters).find? fun i => (table i).isNone

/-- The locked section that registers the thread. -/
def register (s : State n) (p : ProcId) (uaddr val timeoutNs : ℕ) : State n :=
  match freeWaiter s.futexWaiters with
  | none => s.goto p (.user (-12))
  | some slot =>
    { s with futexWaiters := update s.futexWaiters slot (some (p, uaddr)) }.goto p
      (.registered uaddr val timeoutNs)

/-- The first slot of `p`. -/
def waiterOf (table : Fin futexMaxWaiters → Option (ProcId × ℕ)) (p : ProcId) :
    Option (Fin futexMaxWaiters) :=
  (List.finRange futexMaxWaiters).find? fun i => (table i).map Prod.fst == some p

/-- The locked section after the wake-up. -/
def removeWaiter (s : State n) (p : ProcId) : State n :=
  match waiterOf s.futexWaiters p with
  | none => s.goto p (.user 0)
  | some slot =>
    { s with futexWaiters := update s.futexWaiters slot none }.goto p (.user 0)

/-- The next slot from `i` on with a waiter at `uaddr`. -/
def nextWaiter (table : Fin futexMaxWaiters → Option (ProcId × ℕ)) (uaddr i : ℕ) :
    Option (Fin futexMaxWaiters) :=
  (List.finRange futexMaxWaiters).find? fun j =>
    decide (i ≤ (j : ℕ)) && (table j).map Prod.snd == some uaddr

/-- `(int)val`. -/
def toInt (val : ℕ) : ℤ := (BitVec.ofNat 32 val).toInt

/-- The loop of `FUTEX_WAKE` from slot `i` to the next waiter it takes out, or to the end of
the call. -/
def wakeScan (s : State n) (p : ProcId) (uaddr val i woken : ℕ) : State n :=
  if (woken : ℤ) < toInt val then
    match nextWaiter s.futexWaiters uaddr i with
    | some j =>
      { s with futexWaiters := update s.futexWaiters j none }.goto p
        (.wakingChan uaddr val j woken)
    | none => { s with futexLock := none }.goto p (.user woken)
  else { s with futexLock := none }.goto p (.user woken)

/-- One step of thread `p` on CPU `c`, or of the scheduler. -/
inductive Label (n : ℕ) where
  | sched (l : Sched.Label n)
  /-- A store of the program. -/
  | store (c : Fin n) (p : ProcId) (uaddr val : ℕ)
  /-- The word changes by other means: through another mapping, or with the mapping. -/
  | poke (sp uaddr : ℕ) (val : Option ℕ)
  | sysFutex (c : Fin n) (p : ProcId) (uaddr op val timeoutNs : ℕ)
  | register (c : Fin n) (p : ProcId)
  | block (c : Fin n) (p : ProcId) (hz tick : ℕ) (now : ProcId → ℕ)
  | remove (c : Fin n) (p : ProcId)
  | lockWake (c : Fin n) (p : ProcId)
  | wakeScan (c : Fin n) (p : ProcId)
  | wakeChan (c : Fin n) (p : ProcId)

/-- A thread inside `sys_futex_impl`. -/
def State.busy (s : State n) (p : ProcId) : Prop := ∀ rax, s.pc p ≠ .user rax

/-- The steps of the system. -/
inductive Step (s : State n) : Label n → State n → Prop
  | sched {l m} (hb : Background s.busy s.mach l) (hm : Sched.Step s.mach l m) :
      Step s (.sched l) { s with mach := m }
  | store {c p uaddr val rax sp v} (hp : Executes s.mach c p) (hpc : s.pc p = .user rax)
      (hsp : s.space p = some sp) (hw : s.word sp uaddr = some v) :
      Step s (.store c p uaddr val) (s.setWord sp uaddr (some val))
  | poke {sp uaddr v} : Step s (.poke sp uaddr v) (s.setWord sp uaddr v)
  | sysFutex {c p uaddr op val timeoutNs rax} (hp : Executes s.mach c p)
      (hpc : s.pc p = .user rax) :
      Step s (.sysFutex c p uaddr op val timeoutNs) (sysFutex s p uaddr op val timeoutNs)
  | register {c p uaddr val timeoutNs} (hp : Executes s.mach c p)
      (hpc : s.pc p = .checked uaddr val timeoutNs) (hl : s.futexLock = none) :
      Step s (.register c p) (register s p uaddr val timeoutNs)
  | block {c p hz tick now uaddr val timeoutNs m} (hp : Executes s.mach c p)
      (hpc : s.pc p = .registered uaddr val timeoutNs)
      (hm : Sched.Step s.mach (.schedBlockOn c uaddr (timeoutNs / 1000000) hz tick now) m) :
      Step s (.block c p hz tick now) ({ s with mach := m }.goto p (.waiting uaddr val))
  | remove {c p uaddr val} (hp : Executes s.mach c p) (hpc : s.pc p = .waiting uaddr val)
      (hl : s.futexLock = none) : Step s (.remove c p) (removeWaiter s p)
  | lockWake {c p uaddr val} (hp : Executes s.mach c p) (hpc : s.pc p = .toWake uaddr val)
      (hl : s.futexLock = none) :
      Step s (.lockWake c p) ({ s with futexLock := some p }.goto p (.waking uaddr val 0 0))
  | wakeScan {c p uaddr val i woken} (hp : Executes s.mach c p)
      (hpc : s.pc p = .waking uaddr val i woken) :
      Step s (.wakeScan c p) (wakeScan s p uaddr val i woken)
  | wakeChan {c p uaddr val i woken m} (hp : Executes s.mach c p)
      (hpc : s.pc p = .wakingChan uaddr val i woken)
      (hm : Sched.Step s.mach (.schedWakeChan c uaddr) m) :
      Step s (.wakeChan c p)
        ({ s with mach := m }.goto p (.waking uaddr val (i + 1) (woken + 1)))

/-- A running system in which no thread has been in `sys_futex_impl` yet. -/
structure Initial (s : State n) : Prop where
  reached : Reached s.mach
  pc : ∀ p, ∃ rax, s.pc p = .user rax
  table : ∀ i, s.futexWaiters i = none
  lock : s.futexLock = none

/-- Thread `p` is between its comparison at `uaddr` and its `sched_block_on`. -/
def Pc.entering (uaddr : ℕ) : Pc → Prop
  | .checked a _ _ | .registered a _ _ => a = uaddr
  | _ => False

/-- The use under which no wake-up is lost: a `FUTEX_WAKE` takes the lock only while no thread
is about to block on its address. -/
def Guard (s : State n) : Label n → Prop
  | .lockWake _ p => ∀ uaddr val, s.pc p = .toWake uaddr val → ∀ x, ¬ (s.pc x).entering uaddr
  | _ => True

/-! ## The invariant -/

/-- Thread `p` sleeps in a `FUTEX_WAIT` for the value `val` at `uaddr`. -/
def Sleeps (s : State n) (p : ProcId) (uaddr val : ℕ) : Prop :=
  s.pc p = .waiting uaddr val ∧ blockedOn s.mach p = some uaddr

/-- Thread `p` is registered at `uaddr`, or sleeps on it. -/
def Listens (s : State n) (p : ProcId) (uaddr : ℕ) : Prop :=
  (∃ v t, s.pc p = .registered uaddr v t) ∨ ∃ v, Sleeps s p uaddr v

/-- The thread holds `futex_lock` in a `FUTEX_WAKE` on `uaddr`. -/
def Pc.wakes (uaddr : ℕ) : Pc → Prop
  | .waking a _ _ _ | .wakingChan a _ _ _ => a = uaddr
  | _ => False

/-- What holds between any two steps of a guarded run. -/
structure Inv (s : State n) : Prop where
  mach : Undisturbed s.mach
  /-- Whoever listens is in the table, or a wake of its address is on the way. -/
  entry : ∀ p a, Listens s p a →
    (∃ i, s.futexWaiters i = some (p, a)) ∨ ∃ q val i w, s.pc q = .wakingChan a val i w
  /-- A waker holds the lock, and nobody is about to block on its address. -/
  locked : ∀ q a, (s.pc q).wakes a → s.futexLock = some q
  settled : ∀ q a, (s.pc q).wakes a → ∀ p v t, s.pc p ≠ .registered a v t
  /-- After its first wake nobody sleeps on the address. -/
  woken : ∀ q a val i w, s.pc q = .waking a val i w → 1 ≤ w → ∀ p v, ¬ Sleeps s p a v
  /-- Before it, the slots it has passed hold no waiter of the address. -/
  passed : ∀ q a val i, s.pc q = .waking a val i 0 →
    ∀ j p, s.futexWaiters j = some (p, a) → i ≤ (j : ℕ)

variable {s s' : State n} {c : Fin n} {p q x : ProcId} {a val uaddr woken : ℕ} {k : Pc}
  {m : Machine n} {rax : ℤ} {i j : Fin futexMaxWaiters}
  {table : Fin futexMaxWaiters → Option (ProcId × ℕ)} {l : Label n}

@[simp] theorem goto_pc_self (k : Pc) : (s.goto p k).pc p = k := update_self ..

@[simp] theorem goto_pc_of_ne (h : x ≠ p) (k : Pc) : (s.goto p k).pc x = s.pc x :=
  update_of_ne h ..

theorem wakes_of_waking {i w : ℕ} (h : s.pc q = .waking a val i w) : (s.pc q).wakes a := by
  simp [h, Pc.wakes]

theorem wakes_of_wakingChan {i w : ℕ} (h : s.pc q = .wakingChan a val i w) : (s.pc q).wakes a := by
  simp [h, Pc.wakes]

/-- **Moves.**  A step that touches neither the table nor a waker, and after which nobody listens
who did not before, keeps the invariant. -/
theorem Inv.move (h : Inv s) (hm : Undisturbed s'.mach) (ht : s'.futexWaiters = s.futexWaiters)
    (hk : s'.futexLock = s.futexLock) (hl : ∀ x a, Listens s' x a → Listens s x a)
    (hr : ∀ x a v t, s'.pc x = .registered a v t → s.pc x = .registered a v t)
    (hw : ∀ x a, (s.pc x).wakes a ∨ (s'.pc x).wakes a → s'.pc x = s.pc x) : Inv s' where
  mach := hm
  entry x a hx := by
    rcases h.entry x a (hl x a hx) with ⟨i, hi⟩ | ⟨q, val, i, w, hq⟩
    · exact .inl ⟨i, by rw [ht, hi]⟩
    · refine .inr ⟨q, val, i, w, ?_⟩
      rw [hw q a (.inl (wakes_of_wakingChan hq)), hq]
  locked q a hq := by
    rw [hk]
    rw [hw q a (.inr hq)] at hq
    exact h.locked q a hq
  settled q a hq p v t hp := by
    rw [hw q a (.inr hq)] at hq
    exact h.settled q a hq p v t (hr p a v t hp)
  woken q a val i w hq h1 p v hp := by
    rw [hw q a (.inr (wakes_of_waking hq))] at hq
    rcases hl p a (.inr ⟨v, hp⟩) with ⟨v', t, hr'⟩ | ⟨v', hs⟩
    · exact h.settled q a (wakes_of_waking hq) p v' t hr'
    · exact h.woken q a val i w hq h1 p v' hs
  passed q a val i hq j p hj := by
    rw [hw q a (.inr (wakes_of_waking hq))] at hq
    rw [ht] at hj
    exact h.passed q a val i hq j p hj

/-- While the lock is free nobody wakes. -/
theorem Inv.no_waker (h : Inv s) (hl : s.futexLock = none) (q : ProcId) (a : ℕ) :
    ¬ (s.pc q).wakes a :=
  fun hq => by simpa [hl] using h.locked q a hq

/-- There is one waker at a time. -/
theorem Inv.one_waker (h : Inv s) (hp : (s.pc p).wakes a) (hq : (s.pc q).wakes b) : q = p :=
  Option.some.inj ((h.locked q b hq).symm.trans (h.locked p a hp))

/-- A state in which nobody wakes only has to have everybody who listens in the table. -/
theorem Inv.of_no_waker (hm : Undisturbed s.mach) (hn : ∀ q a, ¬ (s.pc q).wakes a)
    (he : ∀ p a, Listens s p a → ∃ i, s.futexWaiters i = some (p, a)) : Inv s where
  mach := hm
  entry p a hp := .inl (he p a hp)
  locked q a hq := absurd hq (hn q a)
  settled q a hq := absurd hq (hn q a)
  woken q a _ _ _ hq := absurd (wakes_of_waking hq) (hn q a)
  passed q a _ _ hq := absurd (wakes_of_waking hq) (hn q a)

/-- Where nobody wakes, whoever listens is in the table. -/
theorem Inv.entry_of_no_waker (h : Inv s) (hn : ∀ q a, ¬ (s.pc q).wakes a) (hp : Listens s p a) :
    ∃ i, s.futexWaiters i = some (p, a) := by
  rcases h.entry p a hp with hi | ⟨q, val, i, w, hq⟩
  · exact hi
  · exact absurd (wakes_of_wakingChan hq) (hn q a)

/-- While a waker looks for the next waiter, whoever listens is in the table. -/
theorem Inv.entry_of_waking {b i w : ℕ} (h : Inv s) (hpc : s.pc p = .waking b val i w)
    (hx : Listens s x a) : ∃ j, s.futexWaiters j = some (x, a) := by
  rcases h.entry x a hx with hi | ⟨q, val', j, w', hq⟩
  · exact hi
  · obtain rfl := h.one_waker (wakes_of_waking hpc) (wakes_of_wakingChan hq)
    simp [hpc] at hq

/-! ## The steps keep it -/

/-- Somebody else's move does not change who listens. -/
theorem Listens.of_ne (hx : Listens s' x a) (hpc : s'.pc x = s.pc x)
    (hb : (∃ v, s.pc x = .waiting a v) → blockedOn s'.mach x = some a →
      blockedOn s.mach x = some a) : Listens s x a := by
  rcases hx with ⟨v, t, hr⟩ | ⟨v, hw, hs⟩
  · exact .inl ⟨v, t, hpc ▸ hr⟩
  · rw [hpc] at hw
    exact .inr ⟨v, hw, hb ⟨v, hw⟩ hs⟩

/-- A place where a thread does not listen. -/
def Pc.Deaf : Pc → Prop
  | .registered .. | .waiting .. => False
  | _ => True

theorem not_listens (hpc : s.pc p = k) (hk : k.Deaf) : ¬ Listens s p a := by
  rintro (⟨v, t, he⟩ | ⟨v, he, -⟩) <;> simp [← hpc, he, Pc.Deaf] at hk

/-- Whoever listens after another thread has gone to a place where it does not listened before. -/
theorem Listens.of_goto (hx : Listens (s.goto p k) x a) (hk : k.Deaf) : x ≠ p ∧ Listens s x a := by
  have hxp : x ≠ p := by
    rintro rfl
    exact not_listens (goto_pc_self k) hk hx
  exact ⟨hxp, hx.of_ne (goto_pc_of_ne hxp k) fun _ => id⟩

/-- The thread that moves is the only one that may wake. -/
theorem wakes_of_goto (hn : ∀ q a, q ≠ p → ¬ (s.pc q).wakes a) (hq : ((s.goto p k).pc q).wakes a) :
    q = p ∧ k.wakes a := by
  by_cases hqp : q = p
  · subst hqp
    exact ⟨rfl, by simpa using hq⟩
  · exact absurd (by simpa [hqp] using hq) (hn q a hqp)

theorem goto_pc_cases (h : (s.goto p k).pc x = k') : s.pc x = k' ∨ x = p ∧ k = k' := by
  by_cases hxp : x = p
  · subst hxp
    exact .inr ⟨rfl, (goto_pc_self k).symm.trans h⟩
  · exact .inl ((goto_pc_of_ne hxp k).symm.trans h)

theorem Initial.inv (h : Initial s) : Inv s := by
  refine .of_no_waker h.reached.undisturbed (fun q a hq => ?_) fun p a hp => ?_
  · obtain ⟨rax, hpc⟩ := h.pc q
    simp [hpc, Pc.wakes] at hq
  · obtain ⟨rax, hpc⟩ := h.pc p
    exact absurd hp (not_listens hpc trivial)

theorem Inv.sched {l : Sched.Label n} (h : Inv s) (hb : Background s.busy s.mach l)
    (hm : Sched.Step s.mach l m) : Inv { s with mach := m } := by
  refine h.move (h.mach.step hm hb.plain) rfl rfl (fun x a hx => ?_) (fun x a v t => id)
    (fun x a _ => rfl)
  refine hx.of_ne rfl ?_
  rintro ⟨v, hw⟩ hs
  exact hb.asleep_before h.mach hm (by simp [State.busy, hw]) hs

/-- A thread that does not wake goes to a place where it neither listens nor wakes. -/
theorem Inv.goto (h : Inv s) (hp : ∀ a, ¬ (s.pc p).wakes a) (hk : ∀ a, ¬ k.wakes a)
    (hd : k.Deaf) : Inv (s.goto p k) := by
  refine h.move h.mach rfl rfl (fun x a hx => (hx.of_goto hd).2) ?_ ?_
  · intro x a v t hx
    exact (goto_pc_cases hx).resolve_right fun he => by simp [he.2, Pc.Deaf] at hd
  · intro x a hx
    by_cases hxp : x = p
    · subst hxp
      simp [hp a, hk a] at hx
    · exact goto_pc_of_ne hxp k

theorem Inv.setWord (h : Inv s) (sp uaddr : ℕ) (v : Option ℕ) : Inv (s.setWord sp uaddr v) :=
  h.move h.mach rfl rfl (fun _ _ => id) (fun _ _ _ _ => id) fun _ _ _ => rfl

theorem Inv.sysFutex (h : Inv s) (hpc : s.pc p = .user rax) (uaddr op val timeoutNs : ℕ) :
    Inv (sysFutex s p uaddr op val timeoutNs) := by
  have hp : ∀ a, ¬ (s.pc p).wakes a := by simp [hpc, Pc.wakes]
  unfold Futex.sysFutex
  repeat' split
  all_goals exact h.goto hp (fun _ => id) trivial

theorem freeWaiter_spec (h : freeWaiter table = some i) : table i = none := by
  have := List.find?_some h
  simpa using this

theorem Inv.register (h : Inv s) (hpc : s.pc p = .checked uaddr val timeoutNs)
    (hl : s.futexLock = none) :
    Inv (register s p uaddr val timeoutNs) := by
  have hn := h.no_waker hl
  unfold Futex.register
  split
  · exact h.goto (hn p) (fun _ => id) trivial
  next slot hslot =>
  have hfree := freeWaiter_spec hslot
  refine Inv.of_no_waker h.mach ?_ ?_
  · intro q a hq
    exact (wakes_of_goto (fun q a _ => hn q a) hq).2
  · intro x a hx
    by_cases hxp : x = p
    · subst hxp
      rcases hx with ⟨v, t, hr⟩ | ⟨v, hw, -⟩
      · obtain ⟨rfl, -⟩ : uaddr = a ∧ _ := by simpa using hr
        exact ⟨slot, update_self ..⟩
      · simp at hw
    obtain ⟨j, hj⟩ := h.entry_of_no_waker hn (hx.of_ne (goto_pc_of_ne hxp _) fun _ => id)
    have hne : j ≠ slot := by
      rintro rfl
      simp [hfree] at hj
    exact ⟨j, (update_of_ne hne ..).trans hj⟩

theorem Inv.block (h : Inv s) (hp : Executes s.mach c p)
    (hpc : s.pc p = .registered uaddr val timeoutNs)
    (hm : Sched.Step s.mach (.schedBlockOn c uaddr ms hz tick now) m) :
    Inv ({ s with mach := m }.goto p (.waiting uaddr val)) := by
  refine h.move (h.mach.step hm trivial) rfl rfl ?_ ?_ ?_
  · intro x a hx
    by_cases hxp : x = p
    · subst hxp
      rcases hx with ⟨v, t, hr⟩ | ⟨v, hw, -⟩
      · simp at hr
      · obtain ⟨rfl, -⟩ : uaddr = a ∧ _ := by simpa using hw
        exact .inl ⟨val, timeoutNs, hpc⟩
    · refine hx.of_ne (goto_pc_of_ne hxp _) fun _ hs => ?_
      exact (hp.asleep_before h.mach hm hs).resolve_right fun he => hxp he.1
  · intro x a v t hx
    exact (goto_pc_cases hx).resolve_right nofun
  · intro x a hx
    by_cases hxp : x = p
    · subst hxp
      simp [hpc, Pc.wakes] at hx
    · exact goto_pc_of_ne hxp _

theorem waiterOf_spec (h : waiterOf table p = some i) : ∃ a, table i = some (p, a) := by
  have := List.find?_some h
  simpa using this

theorem Inv.remove (h : Inv s) (hl : s.futexLock = none) : Inv (removeWaiter s p) := by
  have hn := h.no_waker hl
  unfold removeWaiter
  split
  · exact h.goto (hn p) (fun _ => id) trivial
  next slot hslot =>
  obtain ⟨b, hb⟩ := waiterOf_spec hslot
  refine Inv.of_no_waker h.mach ?_ ?_
  · intro q a hq
    exact (wakes_of_goto (fun q a _ => hn q a) hq).2
  · intro x a hx
    obtain ⟨hxp, hx⟩ := hx.of_goto trivial
    obtain ⟨j, hj⟩ := h.entry_of_no_waker hn hx
    have hne : j ≠ slot := by
      rintro rfl
      simp [hb, Ne.symm hxp] at hj
    exact ⟨j, (update_of_ne hne ..).trans hj⟩

/-- A state in which `p` is the only waker, at `uaddr`. -/
theorem Inv.of_one_waker (hm : Undisturbed s.mach)
    (honly : ∀ q a, (s.pc q).wakes a → q = p ∧ uaddr = a) (he : ∀ x a, Listens s x a →
      (∃ i, s.futexWaiters i = some (x, a)) ∨ ∃ q val i w, s.pc q = .wakingChan a val i w)
    (hk : s.futexLock = some p) (hr : ∀ x v t, s.pc x ≠ .registered uaddr v t)
    (hw : ∀ val i w, s.pc p = .waking uaddr val i w → 1 ≤ w → ∀ x v, ¬ Sleeps s x uaddr v)
    (hj : ∀ val i, s.pc p = .waking uaddr val i 0 →
      ∀ j x, s.futexWaiters j = some (x, uaddr) → i ≤ (j : ℕ)) : Inv s where
  mach := hm
  entry := he
  locked q a hq := by rw [(honly q a hq).1, hk]
  settled q a hq := by rw [← (honly q a hq).2]; exact hr
  woken q a val i w hq := by
    obtain ⟨rfl, rfl⟩ := honly q a (wakes_of_waking hq)
    exact hw val i w hq
  passed q a val i hq := by
    obtain ⟨rfl, rfl⟩ := honly q a (wakes_of_waking hq)
    exact hj val i hq

theorem not_registered_goto (hk : k.Deaf) (hr : ∀ x v t, s.pc x ≠ .registered a v t)
    (x : ProcId) (v t : ℕ) : (s.goto p k).pc x ≠ .registered a v t := by
  intro hx
  rcases goto_pc_cases hx with hx | ⟨-, rfl⟩
  · exact hr x v t hx
  · exact hk

theorem Inv.lockWake (h : Inv s) (hl : s.futexLock = none) (hg : ∀ x, ¬ (s.pc x).entering uaddr) :
    Inv ({ s with futexLock := some p }.goto p (.waking uaddr val 0 0)) := by
  have hn := h.no_waker hl
  refine Inv.of_one_waker h.mach (fun q a => wakes_of_goto fun q a _ => hn q a) ?_ rfl ?_ ?_ ?_
  · intro x a hx
    exact .inl (h.entry_of_no_waker hn (hx.of_goto trivial).2)
  · refine not_registered_goto trivial fun x v t hx => hg x ?_
    change s.pc x = _ at hx
    simp [hx, Pc.entering]
  · simp +contextual
  · simp +contextual

theorem nextWaiter_some {i : ℕ} (h : nextWaiter table uaddr i = some j) :
    ∃ x, table j = some (x, uaddr) := by
  have := List.find?_some h
  simp only [Bool.and_eq_true, beq_iff_eq, Option.map_eq_some_iff, Prod.exists,
    exists_eq_right] at this
  exact this.2

theorem nextWaiter_none {i : ℕ} (h : nextWaiter table uaddr i = none) (j : Fin futexMaxWaiters)
    (hj : i ≤ (j : ℕ)) :
    table j ≠ some (x, uaddr) := by
  intro ht
  have := List.find?_eq_none.mp h j (List.mem_finRange j)
  simp [hj, ht] at this

/-- The waker gives up the lock and returns. -/
theorem Inv.wakeReturn {i : ℕ} (h : Inv s) (hpc : s.pc p = .waking uaddr val i woken) (r : ℤ) :
    Inv ({ s with futexLock := none }.goto p (.user r)) := by
  have hp := wakes_of_waking hpc
  refine Inv.of_no_waker h.mach ?_ ?_
  · intro q a hq
    exact (wakes_of_goto (fun q a hne hq => hne (h.one_waker hp hq)) hq).2
  · intro x a hx
    exact h.entry_of_waking hpc (hx.of_goto trivial).2

/-- The waker takes a waiter out of the table. -/
theorem Inv.wakeTake {i : ℕ} (h : Inv s) (hpc : s.pc p = .waking uaddr val i woken)
    (hj : s.futexWaiters j = some (y, uaddr)) :
    Inv ({ s with futexWaiters := update s.futexWaiters j none }.goto p
      (.wakingChan uaddr val j woken)) := by
  have hp := wakes_of_waking hpc
  refine Inv.of_one_waker h.mach
    (fun q a => wakes_of_goto fun q a hne hq => hne (h.one_waker hp hq)) ?_ (h.locked p uaddr hp)
    (not_registered_goto trivial (h.settled p uaddr hp)) (by simp) (by simp)
  · intro x a hx
    obtain ⟨k, hk⟩ := h.entry_of_waking hpc (hx.of_goto trivial).2
    by_cases hkj : k = j
    · -- the slot that was cleared: its wake is on the way
      subst hkj
      rw [hj] at hk
      cases hk
      exact .inr ⟨p, val, k, woken, goto_pc_self _⟩
    · exact .inl ⟨k, (update_of_ne hkj ..).trans hk⟩

theorem Inv.wakeScan {i : ℕ} (h : Inv s) (hpc : s.pc p = .waking uaddr val i woken) :
    Inv (wakeScan s p uaddr val i woken) := by
  unfold Futex.wakeScan
  split
  · split
    · next j hj =>
        obtain ⟨y, hy⟩ := nextWaiter_some hj
        exact h.wakeTake hpc hy
    · exact h.wakeReturn hpc _
  · exact h.wakeReturn hpc _

theorem Inv.wakeChan {i : ℕ} (h : Inv s) (hpc : s.pc p = .wakingChan uaddr val i woken)
    (hm : Sched.Step s.mach (.schedWakeChan c uaddr) m) :
    Inv ({ s with mach := m }.goto p (.waking uaddr val (i + 1) (woken + 1))) := by
  have hp := wakes_of_wakingChan hpc
  have hund := h.mach.step hm trivial
  obtain ⟨-, ev, hex⟩ := hm
  refine Inv.of_one_waker hund
    (fun q a => wakes_of_goto fun q a hne hq => hne (h.one_waker hp hq)) ?_ (h.locked p uaddr hp)
    (not_registered_goto trivial (h.settled p uaddr hp)) ?_ (by simp)
  · intro x a hx
    by_cases hxp : x = p
    · subst hxp
      exact absurd hx (not_listens (goto_pc_self _) trivial)
    have hx' : Listens s x a := by
      refine hx.of_ne (goto_pc_of_ne hxp _) fun _ hs => ?_
      have hplain : (Label.schedWakeChan c uaddr).Plain := trivial
      exact (asleep_before h.mach hplain hex hs).resolve_right nofun
    rcases h.entry x a hx' with hi | ⟨q, v, k, w, hq⟩
    · exact .inl hi
    -- this is the wake that was on the way: nobody listens at its address any more
    obtain rfl := h.one_waker hp (wakes_of_wakingChan hq)
    rw [hpc] at hq
    cases hq
    rcases hx with ⟨v', t, hr⟩ | ⟨v', -, hs⟩
    · rw [goto_pc_of_ne hxp] at hr
      exact absurd hr (h.settled q uaddr hp x v' t)
    · exact absurd hs (not_asleep_of_wake h.mach hex x)
  · intro v k w hq h1 x v' hs
    exact not_asleep_of_wake h.mach hex x hs.2

/-- **Every guarded step keeps the invariant.** -/
theorem Inv.step (h : Inv s) (hg : Guard s l) (hs : Step s l s') : Inv s' := by
  cases hs with
  | sched hb hm => exact h.sched hb hm
  | store | poke => exact h.setWord _ _ _
  | sysFutex hp hpc => exact h.sysFutex hpc _ _ _ _
  | register hp hpc hl => exact h.register hpc hl
  | block hp hpc hm => exact h.block hp hpc hm
  | remove hp hpc hl => exact h.remove hl
  | lockWake hp hpc hl => exact h.lockWake hl (hg _ _ hpc)
  | wakeScan hp hpc => exact h.wakeScan hpc
  | wakeChan hp hpc hm => exact h.wakeChan hpc hm

theorem Inv.run (h₀ : Inv s₀) (hrun : Run Step Guard s₀ ls s) : Inv s :=
  hrun.invariant h₀ fun _ _ _ ht hg hs => ht.step hg hs

/-! ## How a thread gets where it is -/

/-- The steps that only move a thread and change the table or the lock. -/
def Label.Own : Label n → Prop
  | .sysFutex .. | .register .. | .remove .. | .lockWake .. | .wakeScan .. => True
  | _ => False

theorem Step.own (h : Step s l s') (hl : l.Own) :
    s'.space = s.space ∧ s'.word = s.word ∧ s'.mach = s.mach := by
  cases h with
  | sysFutex =>
    unfold Futex.sysFutex
    repeat' split
    all_goals exact ⟨rfl, rfl, rfl⟩
  | register =>
    unfold Futex.register
    split <;> exact ⟨rfl, rfl, rfl⟩
  | remove =>
    unfold removeWaiter
    split <;> exact ⟨rfl, rfl, rfl⟩
  | wakeScan =>
    unfold Futex.wakeScan
    repeat' split
    all_goals exact ⟨rfl, rfl, rfl⟩
  | lockWake => exact ⟨rfl, rfl, rfl⟩
  | _ => exact absurd hl id

theorem Step.space (h : Step s l s') : s'.space = s.space := by
  by_cases hl : l.Own
  · exact (h.own hl).1
  cases h with
  | sched | store | poke | block | wakeChan => rfl
  | _ => exact absurd trivial hl

/-- How one step of its own moves a thread. -/
inductive Moves (s : State n) (x : ProcId) : Label n → Pc → Pc → Prop
  | back {l k r} : Moves s x l k (.user r)
  | check {l r a v t} (hv : futexResolve s x a = some v) : Moves s x l (.user r) (.checked a v t)
  | toWake {l r a v} : Moves s x l (.user r) (.toWake a v)
  | register {l a v t} : Moves s x l (.checked a v t) (.registered a v t)
  | block {l a v t} : Moves s x l (.registered a v t) (.waiting a v)
  | lockWake {c a v} : Moves s x (.lockWake c x) (.toWake a v) (.waking a v 0 0)
  | take {l a v i w j} : Moves s x l (.waking a v i w) (.wakingChan a v j w)
  | wake {l a v i w} : Moves s x l (.wakingChan a v i w) (.waking a v (i + 1) (w + 1))

theorem update_moves (hpc : s.pc p = k₀) (hk : Moves s p l k₀ k) (x : ProcId) :
    update s.pc p k x = s.pc x ∨ Moves s x l (s.pc x) (update s.pc p k x) := by
  by_cases hxp : x = p
  · subst hxp
    rw [update_self, hpc]
    exact .inr hk
  · exact .inl (update_of_ne hxp ..)

theorem Step.moves (h : Step s l s') (x : ProcId) :
    s'.pc x = s.pc x ∨ Moves s x l (s.pc x) (s'.pc x) := by
  cases h with
  | sched | store | poke => exact .inl rfl
  | sysFutex hp hpc =>
    unfold Futex.sysFutex
    split
    · exact update_moves hpc .back x
    next cur hcur =>
    split
    · split
      · exact update_moves hpc .back x
      · next hne =>
          exact update_moves hpc (.check (by rw [hcur, not_not.mp hne])) x
    split
    · exact update_moves hpc .toWake x
    · exact update_moves hpc .back x
  | register hp hpc =>
    unfold Futex.register
    split
    · exact update_moves hpc .back x
    · exact update_moves hpc .register x
  | block hp hpc =>
    exact update_moves hpc .block x
  | remove hp hpc =>
    unfold removeWaiter
    split
    · exact update_moves hpc .back x
    · exact update_moves hpc .back x
  | lockWake hp hpc =>
    exact update_moves hpc .lockWake x
  | wakeScan hp hpc =>
    unfold Futex.wakeScan
    split
    · split
      · exact update_moves hpc .take x
      · exact update_moves hpc .back x
    · exact update_moves hpc .back x
  | wakeChan hp hpc =>
    exact update_moves hpc .wake x

/-- A thread past its comparison was so before, or has just seen the value. -/
theorem Step.checked (h : Step s l s') (hx : s'.pc x = .checked a v t) :
    s.pc x = .checked a v t ∨ futexResolve s x a = some v := by
  rcases h.moves x with he | hm
  · exact .inl (he.symm.trans hx)
  rw [hx] at hm
  generalize hk : s.pc x = k at hm
  cases hm with
  | check hv => exact .inr hv

theorem Step.registered (h : Step s l s') (hx : s'.pc x = .registered a v t) :
    s.pc x = .registered a v t ∨ s.pc x = .checked a v t := by
  rcases h.moves x with he | hm
  · exact .inl (he.symm.trans hx)
  rw [hx] at hm
  generalize hk : s.pc x = k at hm
  cases hm with
  | register => exact .inr rfl

theorem Step.wakes (h : Step s l s') (hx : (s'.pc x).wakes a) :
    (s.pc x).wakes a ∨ ∃ c val, l = .lockWake c x ∧ s.pc x = .toWake a val := by
  rcases h.moves x with he | hm
  · exact .inl (he ▸ hx)
  generalize hk : s.pc x = k at hm
  generalize hk' : s'.pc x = k' at hm hx
  cases hm with
  | lockWake =>
    obtain rfl : _ = a := hx
    exact .inr ⟨_, _, rfl, rfl⟩
  | take | wake => exact .inl hx
  | _ => exact absurd hx id

/-- A thread that sleeps in a `FUTEX_WAIT` was asleep before, or was registered. -/
theorem Step.sleeps (h : Step s l s') (hund : Undisturbed s.mach) (hx : Sleeps s' x a v) :
    Sleeps s x a v ∨ ∃ t, s.pc x = .registered a v t := by
  obtain ⟨hpc, hb⟩ := hx
  rcases h.moves x with he | hm
  · left
    have hpc' : s.pc x = .waiting a v := he.symm.trans hpc
    refine ⟨hpc', ?_⟩
    have hbusy : s.busy x := by simp [State.busy, hpc']
    have hown := h.own
    cases h with
    | sched hbg hm => exact hbg.asleep_before hund hm hbusy hb
    | block hp hpc₁ hm =>
      refine (hp.asleep_before hund hm hb).resolve_right ?_
      rintro ⟨rfl, -⟩
      simp [hpc'] at hpc₁
    | wakeChan hp hpc₁ hm =>
      obtain ⟨-, ev, hex⟩ := hm
      exact (asleep_before hund (by trivial) hex hb).resolve_right nofun
    | store | poke => exact hb
    | _ => rwa [(hown trivial).2.2] at hb
  · right
    rw [hpc] at hm
    generalize hk : s.pc x = k at hm
    cases hm with
    | block => exact ⟨_, rfl⟩

/-! ## No wake-up is lost -/

/-- The step does not change the word at `uaddr` of the address space `sp`. -/
def Label.Keeps (s : State n) (sp uaddr : ℕ) : Label n → Prop
  | .store _ p a _ => a = uaddr → s.space p ≠ some sp
  | .poke sp' a _ => sp' = sp → a ≠ uaddr
  | _ => True

theorem setWord_of_ne (h : sp' = sp → a' ≠ a) : (s.setWord sp' a' v).word sp a = s.word sp a := by
  unfold State.setWord
  by_cases hsp : sp = sp'
  · subst hsp
    simp [Ne.symm (h rfl)]
  · simp [hsp]

theorem Step.word (h : Step s l s') (hl : l.Keeps s sp a) : s'.word sp a = s.word sp a := by
  have hown := h.own
  cases h with
  | store hp hpc hsp =>
    refine setWord_of_ne fun he ha => hl ha ?_
    rw [hsp, he]
  | poke => exact setWord_of_ne hl
  | sched | block | wakeChan => rfl
  | _ => rw [(hown trivial).2.1]

/-- The value that a comparison sees is the value of the word. -/
theorem futexResolve_eq (hsp : s.space p = some sp) (hw : s.word sp a = some w)
    (hr : futexResolve s p a = some v) : v = w := by
  simp only [futexResolve, hsp] at hr
  split at hr
  · cases hr
  · exact Option.some.inj (hr.symm.trans hw)

/-- The guard of a run during which the word keeps its value. -/
def Steady (sp uaddr : ℕ) (s : State n) (l : Label n) : Prop := Guard s l ∧ l.Keeps s sp uaddr

/-- After the store of `w`: whoever passes its comparison while `q` wakes has seen `w`. -/
structure Stored (q : ProcId) (sp a w : ℕ) (s : State n) : Prop where
  inv : Inv s
  word : s.word sp a = some w
  checked : (s.pc q).wakes a → ∀ p, s.space p = some sp → ∀ v t, s.pc p = .checked a v t → v = w

theorem Stored.step (h : Stored q sp a w s) (hg : Steady sp a s l) (hs : Step s l s') :
    Stored q sp a w s' where
  inv := h.inv.step hg.1 hs
  word := (hs.word hg.2).trans h.word
  checked hq p hp v t hpc := by
    rw [hs.space] at hp
    rcases hs.checked hpc with hc | hr
    · rcases hs.wakes hq with hq | ⟨c, val, rfl, hw⟩
      · exact h.checked hq p hp v t hc
      · -- the guard: nobody is past its comparison when the waker takes the lock
        exact absurd (by simp [hc, Pc.entering]) (hg.1 a val hw p)
    · exact futexResolve_eq hp h.word hr

/-- After the wake: whoever is on the way to sleep, or asleep, waits for `w` itself. -/
structure Done (sp a w : ℕ) (s : State n) : Prop where
  inv : Inv s
  word : s.word sp a = some w
  checked : ∀ p, s.space p = some sp → ∀ v t, s.pc p = .checked a v t → v = w
  registered : ∀ p, s.space p = some sp → ∀ v t, s.pc p = .registered a v t → v = w
  sleeps : ∀ p, s.space p = some sp → ∀ v, Sleeps s p a v → v = w

theorem Done.step (h : Done sp a w s) (hg : Steady sp a s l) (hs : Step s l s') :
    Done sp a w s' where
  inv := h.inv.step hg.1 hs
  word := (hs.word hg.2).trans h.word
  checked p hp v t hpc := by
    rw [hs.space] at hp
    rcases hs.checked hpc with hc | hr
    · exact h.checked p hp v t hc
    · exact futexResolve_eq hp h.word hr
  registered p hp v t hpc := by
    rw [hs.space] at hp
    rcases hs.registered hpc with hr | hc
    · exact h.registered p hp v t hr
    · exact h.checked p hp v t hc
  sleeps p hp v hsl := by
    rw [hs.space] at hp
    rcases hs.sleeps h.inv.mach hsl with hsl | ⟨t, hr⟩
    · exact h.sleeps p hp v hsl
    · exact h.registered p hp v t hr

/-- When the loop of a `FUTEX_WAKE` for one or more waiters ends, nobody sleeps on the address. -/
theorem Inv.loop_end {i : ℕ} (h : Inv s) (hpc : s.pc q = .waking a val i woken)
    (hval : 1 ≤ toInt val) (hend : ¬ (woken : ℤ) < toInt val ∨ nextWaiter s.futexWaiters a i = none)
    (p : ProcId) (v : ℕ) :
    ¬ Sleeps s p a v := by
  rcases Nat.eq_zero_or_pos woken with rfl | hpos
  · have hnone : nextWaiter s.futexWaiters a i = none := by
      refine hend.resolve_left fun hlt => hlt ?_
      omega
    intro hs
    obtain ⟨j, hj⟩ := h.entry_of_waking hpc (.inr ⟨v, hs⟩)
    exact nextWaiter_none hnone j (h.passed q a val i hpc j p hj) hj
  · exact h.woken q a val i woken hpc hpos p v

/-- The return of a `FUTEX_WAKE` for one or more waiters. -/
theorem Stored.done {sp w i : ℕ} (h : Stored q sp a w s) (hpc : s.pc q = .waking a val i woken)
    (hval : 1 ≤ toInt val) (hs : Step s (.wakeScan c q) s') (hret : s'.pc q = .user r) :
    Done sp a w s' := by
  have hwq := wakes_of_waking hpc
  have hinv := h.inv.step (l := .wakeScan c q) trivial hs
  cases hs with
  | wakeScan hp hpc₁ =>
    rw [hpc] at hpc₁
    cases hpc₁
    -- of the three ways through the loop two return
    have hend : (¬ (woken : ℤ) < toInt val ∨ nextWaiter s.futexWaiters a i = none) ∧
        wakeScan s q a val i woken = { s with futexLock := none }.goto q (.user woken) := by
      unfold Futex.wakeScan at hret ⊢
      split at hret
      · next hlt =>
          split at hret
          · simp at hret
          next hnone =>
            rw [if_pos hlt, hnone]
            exact ⟨.inr rfl, rfl⟩
      · next hlt =>
          rw [if_neg hlt]
          exact ⟨.inl hlt, rfl⟩
    rw [hend.2] at hinv ⊢
    refine ⟨hinv, h.word, ?_, ?_, ?_⟩
    · intro p hp v t hx
      have hx' := goto_pc_cases hx
      exact h.checked hwq p hp v t (hx'.resolve_right nofun)
    · intro p hp v t hx
      exact absurd ((goto_pc_cases hx).resolve_right nofun) (h.inv.settled q a hwq p v t)
    · intro p hp v hx
      exact absurd ⟨(goto_pc_cases hx.1).resolve_right nofun, hx.2⟩
        (h.inv.loop_end hpc hval hend.1 p v)

/-- **No wake-up is lost.**  After any run, thread `q` stores `w` at the address `a` and makes a
`FUTEX_WAKE` there for one or more waiters, with any steps of the system before, between and
after.  Once the call has returned, and as long as the word is `w`, no thread of the address
space sleeps in a `FUTEX_WAIT` for another value, and a new one returns `EAGAIN`. -/
theorem futex_no_lost_wakeup {s₀ s₁ s₂ s₃ s₄ s₅ : State n} {as bs cs : List (Label n)}
    {c c' : Fin n} {q p : ProcId} {sp a w val i woken v : ℕ} {r : ℤ}
    (h₀ : Initial s₀) (hbefore : Run Step Guard s₀ as s₁) (hsp : s₁.space q = some sp)
    (hstore : Step s₁ (.store c q a w) s₂) (hbetween : Run Step (Steady sp a) s₂ bs s₃)
    (hpc : s₃.pc q = .waking a val i woken) (hval : 1 ≤ toInt val)
    (hcall : Step s₃ (.wakeScan c' q) s₄) (hret : s₄.pc q = .user r)
    (hafter : Run Step (Steady sp a) s₄ cs s₅) (hp : s₅.space p = some sp) (hv : v ≠ w) :
    ¬ Sleeps s₅ p a v ∧ ∀ t, a % 4 = 0 → (sysFutex s₅ p a futexWait v t).pc p = .user (-11) := by
  have h₁ : Inv s₁ := h₀.inv.run hbefore
  have h₂ : Stored q sp a w s₂ := by
    have hinv := h₁.step (l := .store c q a w) trivial hstore
    cases hstore with
    | store hq hpc₁ hsp₁ =>
      rw [hsp] at hsp₁
      cases hsp₁
      exact ⟨hinv, by simp [State.setWord], by simp [State.setWord, hpc₁, Pc.wakes]⟩
  have h₃ : Stored q sp a w s₃ := hbetween.invariant h₂ fun _ _ _ ht hg hs => ht.step hg hs
  have h₄ : Done sp a w s₄ := h₃.done hpc hval hcall hret
  have h₅ : Done sp a w s₅ := hafter.invariant h₄ fun _ _ _ ht hg hs => ht.step hg hs
  refine ⟨fun hs => hv (h₅.sleeps p hp v hs), fun t ha => ?_⟩
  have hres : futexResolve s₅ p a = some w := by simp [futexResolve, hp, ha, h₅.word]
  simp [sysFutex, hres, Ne.symm hv]

/-! ## Two threads -/

local instance twoCpus : NeZero 2 := ⟨two_ne_zero⟩

local instance : NeZero futexMaxWaiters := ⟨by decide⟩

/-- Two threads of one address space, on two CPUs, with every word 0. -/
def twoWaiters : State 2 where
  mach := twoThreads
  space _ := some 5
  word _ _ := some 0
  futexWaiters _ := none
  futexLock := none
  pc _ := .user 0

theorem twoWaiters_initial : Initial twoWaiters :=
  ⟨twoThreads_reached, fun _ => ⟨0, rfl⟩, fun _ => rfl, rfl⟩

/-- A call to wait for the value that the word has. -/
theorem Step.callWait (hp : Executes s.mach c p) (hpc : s.pc p = .user rax)
    (hr : futexResolve s p a = some v) :
    Step s (.sysFutex c p a futexWait v t) (s.goto p (.checked a v t)) := by
  have he : Futex.sysFutex s p a futexWait v t = s.goto p (.checked a v t) := by
    simp [Futex.sysFutex, hr]
  exact he ▸ .sysFutex hp hpc

theorem Step.callWake (hp : Executes s.mach c p) (hpc : s.pc p = .user rax)
    (hr : futexResolve s p a = some w) :
    Step s (.sysFutex c p a futexWake v t) (s.goto p (.toWake a v)) := by
  have he : Futex.sysFutex s p a futexWake v t = s.goto p (.toWake a v) := by
    simp [Futex.sysFutex, hr, futexWake, futexWait]
  exact he ▸ .sysFutex hp hpc

theorem Step.registerAt (hp : Executes s.mach c p) (hpc : s.pc p = .checked a v t)
    (hl : s.futexLock = none) (hf : freeWaiter s.futexWaiters = some i) :
    Step s (.register c p) ({ s with futexWaiters := update s.futexWaiters i (some (p, a)) }.goto p
        (.registered a v t)) := by
  have hs := Step.register hp hpc hl
  unfold Futex.register at hs
  rwa [hf] at hs

theorem Step.takeAt {i w : ℕ} (hp : Executes s.mach c p) (hpc : s.pc p = .waking a val i w)
    (hw : (w : ℤ) < toInt val) (hn : nextWaiter s.futexWaiters a i = some j) :
    Step s (.wakeScan c p) ({ s with futexWaiters := update s.futexWaiters j none }.goto p
        (.wakingChan a val j w)) := by
  have hs := Step.wakeScan hp hpc
  unfold Futex.wakeScan at hs
  rwa [if_pos hw, hn] at hs

theorem Step.return {i w : ℕ} (hp : Executes s.mach c p) (hpc : s.pc p = .waking a val i w)
    (hw : ¬ (w : ℤ) < toInt val) :
    Step s (.wakeScan c p) ({ s with futexLock := none }.goto p (.user w)) := by
  have hs := Step.wakeScan hp hpc
  unfold Futex.wakeScan at hs
  rwa [if_neg hw] at hs

/-- The first thread has registered for the word at 8. -/
def registeredOne : State 2 :=
  let s := twoWaiters.goto 2 (.checked 8 0 0)
  { s with futexWaiters := update s.futexWaiters 0 (some (2, 8)) }.goto 2
    (.registered 8 0 0)

theorem registeredOne_run : Run Step Guard twoWaiters
    [.sysFutex 0 2 8 futexWait 0 0, .register 0 2] registeredOne :=
  Run.cons trivial (.callWait twoThreads_left rfl rfl) <|
    Run.cons trivial (.registerAt twoThreads_left rfl rfl rfl) .nil

/-- It blocks. -/
def blockOne (s : State 2) : State 2 :=
  { s with mach := s.mach.after (.schedBlockOn 0 8 0 100 0 fun _ => 0) }.goto 2 (.waiting 8 0)

/-- The second thread stores 1 at 8, calls `FUTEX_WAKE` for one waiter, takes the first entry of
the table out and wakes the address. -/
def wakeTwo (s : State 2) : State 2 :=
  let s := (s.setWord 5 8 (some 1)).goto 3 (.toWake 8 1)
  let s := { s with futexLock := some 3 }.goto 3 (.waking 8 1 0 0)
  let s := { s with futexWaiters := update s.futexWaiters 0 none }.goto 3
    (.wakingChan 8 1 0 0)
  { s with mach := s.mach.after (.schedWakeChan 1 8) }.goto 3 (.waking 8 1 1 1)

/-- The call returns. -/
def returnTwo (s : State 2) : State 2 := { wakeTwo s with futexLock := none }.goto 3 (.user 1)

/-- The steps of the second thread from its store to its last turn of the loop. -/
theorem wakeTwo_run {s : State 2} (guard : State 2 → Label 2 → Prop) (hp : Executes s.mach 1 3)
    (hund : Undisturbed s.mach) (hpc : s.pc 3 = .user 0) (hl : s.futexLock = none)
    (hsp : s.space 3 = some 5) (hn : nextWaiter s.futexWaiters 8 0 = some 0)
    (hlock : guard ((s.setWord 5 8 (some 1)).goto 3 (.toWake 8 1)) (.lockWake 1 3))
    (hg : ∀ t, guard t (.sysFutex 1 3 8 futexWake 1 0) ∧ guard t (.wakeScan 1 3) ∧
      guard t (.wakeChan 1 3)) :
    Run Step guard (s.setWord 5 8 (some 1))
      [.sysFutex 1 3 8 futexWake 1 0, .lockWake 1 3, .wakeScan 1 3, .wakeChan 1 3] (wakeTwo s) := by
  have hres : futexResolve (s.setWord 5 8 (some 1)) 3 8 = some 1 := by
    simp [futexResolve, State.setWord, hsp]
  exact Run.cons (hg _).1 (.callWake hp hpc hres) <|
    Run.cons hlock (.lockWake hp (goto_pc_self _) hl) <|
    Run.cons (hg _).2.1 (.takeAt hp (goto_pc_self _) (by decide) hn) <|
    Run.cons (hg _).2.2 (.wakeChan hp (goto_pc_self _) (hp.step_wake hund _)) .nil

theorem returnTwo_step {s : State 2} (hp : Executes (s.mach.after (.schedWakeChan 1 8)) 1 3) :
    Step (wakeTwo s) (.wakeScan 1 3) (returnTwo s) :=
  .return hp (goto_pc_self _) (by decide)

/-- One thread waits for the word at 8 and sleeps; the other stores 1 there and wakes one waiter.
When the call returns the first is awake. -/
theorem futex_waiter_woken :
    Sleeps (blockOne registeredOne) 2 8 0 ∧ ¬ Sleeps (returnTwo (blockOne registeredOne)) 2 8 0 := by
  have hm : Undisturbed twoThreads := twoThreads_reached.undisturbed
  have hm₁ : Undisturbed (blockOne registeredOne).mach :=
    hm.step (twoThreads_left.step_block hm 8 0 100 0 fun _ => 0) trivial
  have hright : Executes (blockOne registeredOne).mach 1 3 := by decide +kernel
  have hblock : Step registeredOne (.block 0 2 100 0 fun _ => 0) (blockOne registeredOne) :=
    .block twoThreads_left rfl (twoThreads_left.step_block hm _ _ _ _ _)
  have hg : Guard registeredOne (.block 0 2 100 0 fun _ => 0) := trivial
  have hbefore := registeredOne_run.snoc hg hblock
  -- nobody is about to block when the second thread takes the lock
  have hguard : Guard (((blockOne registeredOne).setWord 5 8 (some 1)).goto 3 (.toWake 8 1))
      (.lockWake 1 3) := by
    intro uaddr val _ x hx
    by_cases h3 : x = 3
    · subst h3
      exact hx
    rw [goto_pc_of_ne h3] at hx
    by_cases h2 : x = 2
    · subst h2
      exact hx
    rw [show ((blockOne registeredOne).setWord 5 8 (some 1)).pc x = .user 0 by
      simp [State.setWord, blockOne, registeredOne, State.goto, h2, twoWaiters]] at hx
    exact hx
  have hbetween := wakeTwo_run (Steady 5 8) hright hm₁ rfl rfl rfl rfl ⟨hguard, trivial⟩
    fun t => ⟨⟨trivial, trivial⟩, ⟨trivial, trivial⟩, trivial, trivial⟩
  refine ⟨⟨rfl, by decide +kernel⟩, ?_⟩
  exact (futex_no_lost_wakeup twoWaiters_initial hbefore rfl (.store hright rfl rfl rfl) hbetween
    (goto_pc_self _) (by decide) (returnTwo_step (by decide +kernel)) (goto_pc_self _) .nil rfl
    (by decide)).1

/-- **A wake-up is lost.**  One thread compares the word and registers; the other stores 1, and
its `FUTEX_WAKE` takes the entry out and returns 1; then the first thread blocks.  It sleeps for a
value the word does not have, and no later wake finds it in the table. -/
theorem futex_wakeup_lost : ∃ s₅ : State 2, ∃ as bs cs : List (Label 2),
      Initial twoWaiters ∧ Run Step Guard twoWaiters as registeredOne ∧
      Step registeredOne (.store 1 3 8 1) (registeredOne.setWord 5 8 (some 1)) ∧
      Run Step (Label.Keeps · 5 8) (registeredOne.setWord 5 8 (some 1)) bs (wakeTwo registeredOne) ∧
      Step (wakeTwo registeredOne) (.wakeScan 1 3) (returnTwo registeredOne) ∧
      (returnTwo registeredOne).pc 3 = .user 1 ∧
      Run Step (Label.Keeps · 5 8) (returnTwo registeredOne) cs s₅ ∧
      s₅.space 2 = some 5 ∧ s₅.word 5 8 = some 1 ∧ Sleeps s₅ 2 8 0 ∧
      ∀ i, s₅.futexWaiters i = none := by
  have hm : Undisturbed twoThreads := twoThreads_reached.undisturbed
  have hm₁ := hm.step (twoThreads_right.step_wake hm 8) trivial
  have hleft : Executes (twoThreads.after (.schedWakeChan 1 8)) 0 2 := by decide +kernel
  refine ⟨blockOne (returnTwo registeredOne), _, _, [.block 0 2 100 0 fun _ => 0],
    twoWaiters_initial, registeredOne_run, .store twoThreads_right rfl rfl rfl,
    wakeTwo_run _ twoThreads_right hm rfl rfl rfl rfl trivial fun t => ⟨trivial, trivial, trivial⟩,
    returnTwo_step (by decide +kernel), goto_pc_self _, ?_, rfl, rfl, ⟨rfl, ?_⟩, ?_⟩
  · exact Run.cons trivial (.block hleft rfl (hleft.step_block hm₁ _ _ _ _ _)) .nil
  · decide +kernel
  · decide +kernel

end Xos.Futex
