import Xos.Lib.RingBuf
import Xos.Lib.Run

/-!
# The input queue

`input_push` and `input_poll` of `input.c` on a ring of 256 slots, of which 255 are used.  A pointer
move overwrites a move in the newest slot.  At a full queue `input_push` refuses moves and button
events; for every other type it gives up the oldest event, also when that is a key and the new event
comes from the wheel.

* **what a push does** — `inputPush_takes`: appended, merged, refused or in place of the oldest;
* **the queue over runs** — `input_queue`: under `Guard`, what was polled and is queued is a
  subsequence of what was pushed, and a pointer event never costs a key;
* **a key lost to the wheel** — `wheel_drops_key`.
-/

namespace Xos.Input

open Xos.Lib Function

inductive EventType where
  | mouseMove
  | mouseDown
  | mouseUp
  | keyDown
  | keyUp
  | mouseWheel
  deriving DecidableEq

/-- `input_event_t`. -/
structure Event where
  type : EventType
  x : ℤ
  y : ℤ
  dx : ℤ
  dy : ℤ
  button : ℕ
  buttons : ℕ
  scancode : ℕ
  ch : ℕ
  key : ℕ
  deriving DecidableEq

def Event.isKey (e : Event) : Bool := e.type = .keyDown ∨ e.type = .keyUp

/-- `QSIZE`. -/
def qsize : ℕ := 256

structure State where
  queue : ℕ → Event
  qhead : ℕ
  qtail : ℕ

/-- `input_push`. -/
def inputPush (s : State) (e : Event) : State :=
  let last := (s.qhead + qsize - 1) % qsize
  if e.type = .mouseMove ∧ s.qhead ≠ s.qtail ∧ (s.queue last).type = .mouseMove then
    { s with queue := update s.queue last e }
  else
    let n := (s.qhead + 1) % qsize
    if n = s.qtail then
      if e.type = .mouseMove ∨ e.type = .mouseDown ∨ e.type = .mouseUp then s
      else ⟨update s.queue s.qhead e, n, (s.qtail + 1) % qsize⟩
    else { s with queue := update s.queue s.qhead e, qhead := n }

/-- `input_poll`. -/
def inputPoll (s : State) : Option Event × State :=
  if s.qtail ≠ s.qhead then
    (some (s.queue s.qtail), { s with qtail := (s.qtail + 1) % qsize })
  else (none, s)

/-! ## The queued events -/

/-- The queued events, oldest first. -/
def State.events (s : State) : List Event :=
  (RingBuf.ofCounters qsize qsize s.queue s.qtail s.qhead).toList qsize

def State.Full (s : State) : Prop := (s.qhead + 1) % qsize = s.qtail

/-- The two indices are slots. -/
structure State.Bounded (s : State) : Prop where
  qhead : s.qhead < qsize
  qtail : s.qtail < qsize

variable {s t : State} {e : Event} {ps q q' out : List Event}

theorem State.Bounded.wf (h : s.Bounded) :
    RingBuf.WF qsize (RingBuf.ofCounters qsize qsize s.queue s.qtail s.qhead) :=
  RingBuf.wf_ofCounters (by decide) dvd_rfl h.qtail (Nat.mod_lt _ (by decide)).le

theorem events_append (h : s.Bounded) (hfull : ¬ s.Full) :
    State.events { s with queue := update s.queue s.qhead e, qhead := (s.qhead + 1) % qsize } =
      s.events ++ [e] := by
  obtain ⟨hhead, htail⟩ := h
  have hc : (RingBuf.ofCounters qsize qsize s.queue s.qtail s.qhead).count + 1 < qsize := by
    simp only [State.Full, RingBuf.ofCounters, qsize] at *
    omega
  have hpush := RingBuf.ofCounters_push (m := e) dvd_rfl htail hc
  rw [Nat.mod_eq_of_lt hhead] at hpush
  exact (congrArg (RingBuf.toList qsize) hpush).trans
    (RingBuf.toList_push (State.Bounded.wf ⟨hhead, htail⟩) (by omega))

theorem events_pop (h : s.Bounded) (hne : s.qtail ≠ s.qhead) :
    s.events = s.queue s.qtail :: State.events { s with qtail := (s.qtail + 1) % qsize } := by
  have hcell : s.queue s.qtail = s.queue (s.qtail % qsize) := by rw [Nat.mod_eq_of_lt h.qtail]
  rw [hcell]
  exact RingBuf.toList_ofCounters_pop (by decide) dvd_rfl h.qtail h.qhead hne

/-- The newest event, and a store over it. -/
theorem events_last (h : s.Bounded) (hne : s.qhead ≠ s.qtail) :
    ∃ l, s.events = l ++ [s.queue ((s.qhead + qsize - 1) % qsize)] ∧ ∀ e,
      State.events { s with queue := update s.queue ((s.qhead + qsize - 1) % qsize) e } =
        l ++ [e] := by
  obtain ⟨hhead, htail⟩ := h
  have hpos : 0 < (RingBuf.ofCounters qsize qsize s.queue s.qtail s.qhead).count :=
    RingBuf.ofCounters_count_pos htail hhead hne.symm
  have hcell : (s.qhead + qsize - 1) % qsize =
      (s.qtail % qsize + ((s.qhead + qsize - s.qtail) % qsize - 1)) % qsize := by
    simp only [qsize] at *
    omega
  rw [hcell]
  exact ⟨_, RingBuf.toList_last hpos, fun e =>
    RingBuf.toList_setLast hpos (Nat.mod_lt _ (by decide)).le⟩

/-! ## One push -/

/-- What a push of `e` after the events `ps` may make of the queue `q`. -/
inductive Takes (ps q : List Event) (full : Prop) (e : Event) : List Event → Prop
  | appended : Takes ps q full e (q ++ [e])
  /-- A move gives way to a move that was pushed directly after it. -/
  | merged {l : List Event} {m : Event} : q = l ++ [m] → m.type = .mouseMove →
      e.type = .mouseMove → ps.getLast? = some m → Takes ps q full e (l ++ [e])
  | refused : full → e.isKey = false → Takes ps q full e q
  | displaced {o : Event} {l : List Event} : full → e.isKey = true → q = o :: l →
      Takes ps q full e (l ++ [e])

/-- A move in the newest slot is the last event that was pushed. -/
def Fresh (ps q : List Event) : Prop :=
  ∀ m, q.getLast? = some m → m.type = .mouseMove → ps.getLast? = some m

theorem Fresh.snoc (ps q : List Event) (e : Event) : Fresh (ps ++ [e]) (q ++ [e]) := by
  intro m hm _
  simpa using hm

theorem Takes.sublist (h : Takes ps q s.Full e q') (hsub : (out ++ q).Sublist ps) :
    (out ++ q').Sublist (ps ++ [e]) := by
  have hdrop : ∀ {l}, l.Sublist q → (out ++ (l ++ [e])).Sublist (ps ++ [e]) := by
    intro l hl
    rw [← List.append_assoc]
    exact ((hl.append_left out).trans hsub).append (.refl _)
  cases h with
  | appended => exact hdrop (.refl q)
  | merged hq => exact hdrop (hq ▸ List.sublist_append_left _ _)
  | refused => exact hsub.trans (List.sublist_append_left _ _)
  | displaced _ _ hq => exact hdrop (hq ▸ List.sublist_cons_self _ _)

/-- A pointer event costs no key. -/
theorem Takes.keys (h : Takes ps q s.Full e q') (he : e.isKey = false) :
    q'.filter Event.isKey = q.filter Event.isKey := by
  cases h with
  | appended => simp [he]
  | @merged l m hq hm =>
    have hm' : m.isKey = false := by simp [Event.isKey, hm]
    simp [hq, he, hm']
  | refused => rfl
  | displaced _ hk => simp [he] at hk

/-- A key is the newest event after its push. -/
theorem Takes.key (h : Takes ps q s.Full e q') (hk : e.isKey = true) : q'.getLast? = some e := by
  cases h with
  | appended | merged | displaced => simp
  | refused _ hn => simp [hk] at hn

/-- A push or a poll with its result. -/
inductive Call where
  | push (e : Event)
  | poll (r : Option Event)

def Step (s : State) : Call → State → Prop
  | .push e, t => inputPush s e = t
  | .poll r, t => inputPoll s = (r, t)

/-- The wheel does not turn at a full queue, and no button changes at a full queue whose newest event
is a move. -/
def Guard (s : State) : Call → Prop
  | .push e => s.Full → e.type ≠ .mouseWheel ∧ (e.type = .mouseDown ∨ e.type = .mouseUp →
      (s.queue ((s.qhead + qsize - 1) % qsize)).type ≠ .mouseMove)
  | .poll _ => True

theorem inputPush_takes (h : s.Bounded) (hf : Fresh ps s.events) (hg : Guard s (.push e)) :
    Takes ps s.events s.Full e (inputPush s e).events ∧
      Fresh (ps ++ [e]) (inputPush s e).events ∧ (inputPush s e).Bounded := by
  unfold inputPush
  dsimp only
  split_ifs with hmerge hfull hpointer
  · obtain ⟨hmove, hne, hlast⟩ := hmerge
    obtain ⟨l, hl, hset⟩ := events_last h hne
    rw [hset e]
    exact ⟨.merged hl hlast hmove (hf _ (by simp [hl]) hlast), .snoc _ _ _, h.qhead, h.qtail⟩
  · have hne : s.qhead ≠ s.qtail := by
      simp only [qsize] at *
      omega
    obtain ⟨l, hl, -⟩ := events_last h hne
    refine ⟨.refused hfull ?_, fun m hm hmove => ?_, h⟩
    · rcases hpointer with hp | hp | hp <;> simp [Event.isKey, hp]
    · -- the newest event would have taken a move in, and the guard keeps buttons away from it
      obtain rfl : s.queue ((s.qhead + qsize - 1) % qsize) = m := by simpa [hl] using hm
      rcases hpointer with hp | hp
      · exact absurd ⟨hp, hne, hmove⟩ hmerge
      · exact absurd hmove ((hg hfull).2 hp)
  · have hkey : e.isKey = true := by
      have := (hg hfull).1
      cases ht : e.type <;> simp_all [Event.isKey]
    let u : State := { s with qtail := (s.qtail + 1) % qsize }
    have hu : u.Bounded := ⟨h.qhead, Nat.mod_lt _ (by decide)⟩
    have hroom : ¬ u.Full := by
      simp only [u, State.Full, qsize] at *
      omega
    have hne : s.qtail ≠ s.qhead := by
      simp only [qsize] at *
      omega
    have happ := events_append (e := e) hu hroom
    exact ⟨happ ▸ .displaced hfull hkey (events_pop h hne), happ ▸ .snoc _ _ _,
      Nat.mod_lt _ (by decide), hu.qtail⟩
  · rw [events_append h hfull]
    exact ⟨.appended, .snoc _ _ _, Nat.mod_lt _ (by decide), h.qtail⟩

theorem inputPoll_events (h : s.Bounded) (hp : inputPoll s = (r, t)) :
    s.events = r.toList ++ t.events ∧ (r = none → s.events = []) ∧ t.Bounded := by
  unfold inputPoll at hp
  split_ifs at hp with hne <;> obtain ⟨rfl, rfl⟩ := Prod.mk.inj hp
  · exact ⟨events_pop h hne, by simp, h.qhead, Nat.mod_lt _ (by decide)⟩
  · refine ⟨rfl, fun _ => RingBuf.toList_of_count_eq_zero (RingBuf.ofCounters_empty ?_), h⟩
    exact not_not.mp hne

/-! ## Runs -/

/-- The events that were pushed. -/
def pushes (cs : List Call) : List Event :=
  cs.filterMap fun | .push e => some e | .poll _ => none

/-- The events that were polled. -/
def polls (cs : List Call) : List Event :=
  cs.filterMap fun | .push _ => none | .poll r => r

/-- An empty queue. -/
def State.init (queue : ℕ → Event) : State := ⟨queue, 0, 0⟩

/-- What holds after the calls `cs`. -/
structure Inv (cs : List Call) (s : State) : Prop where
  bounded : s.Bounded
  sub : (polls cs ++ s.events).Sublist (pushes cs)
  fresh : Fresh (pushes cs) s.events

theorem events_init (queue : ℕ → Event) : (State.init queue).events = [] :=
  RingBuf.toList_of_count_eq_zero (RingBuf.ofCounters_empty rfl)

theorem inv_init (queue : ℕ → Event) : Inv [] (.init queue) where
  bounded := ⟨show 0 < 256 by decide, show 0 < 256 by decide⟩
  sub := by simp [polls, pushes, events_init]
  fresh := by simp [Fresh, events_init]

theorem Inv.step (h : Inv cs s) (hg : Guard s c) (hs : Step s c t) : Inv (cs ++ [c]) t := by
  cases c with
  | push e =>
    obtain ⟨htakes, hfresh, hb⟩ := inputPush_takes h.bounded h.fresh hg
    have hps : pushes (cs ++ [.push e]) = pushes cs ++ [e] := by simp [pushes]
    have hpl : polls (cs ++ [.push e]) = polls cs := by simp [polls]
    obtain rfl := hs
    exact ⟨hb, by rw [hps, hpl]; exact htakes.sublist h.sub, hps ▸ hfresh⟩
  | poll r =>
    obtain ⟨hev, -, hb⟩ := inputPoll_events h.bounded hs
    have hps : pushes (cs ++ [.poll r]) = pushes cs := by simp [pushes]
    have hpl : polls (cs ++ [.poll r]) = polls cs ++ r.toList := by cases r <;> simp [polls]
    refine ⟨hb, by rw [hps, hpl, List.append_assoc, ← hev]; exact h.sub, fun m hm hmove => ?_⟩
    rw [hps]
    exact h.fresh m (by rw [hev, List.getLast?_append, hm]; rfl) hmove

theorem Inv.of_run (h : Lib.Run Step Guard (.init queue) cs s) : Inv cs s := by
  induction h with
  | nil => exact inv_init queue
  | snoc _ hg hs ih => exact ih.step hg hs

/-- **The input queue.**  After every guarded run of pushes and polls, the events polled so far and
those still queued are in order a subsequence of the pushed ones.  The next push appends its event,
lets a move give way to the move pushed directly after it, or finds the queue full and refuses a
pointer event or gives up the oldest event for a key.  A pointer event leaves all keys, a key is
always queued, and a poll takes the oldest event. -/
theorem input_queue {queue : ℕ → Event} {cs : List Call}
    (hrun : Lib.Run Step Guard (.init queue) cs s) :
    (polls cs ++ s.events).Sublist (pushes cs) ∧
    (∀ e, Guard s (.push e) → Takes (pushes cs) s.events s.Full e (inputPush s e).events ∧
      (e.isKey = false → (inputPush s e).events.filter Event.isKey = s.events.filter Event.isKey) ∧
      (e.isKey = true → (inputPush s e).events.getLast? = some e)) ∧
    ∀ r t, inputPoll s = (r, t) → s.events = r.toList ++ t.events ∧ (r = none → s.events = []) := by
  have h := Inv.of_run hrun
  refine ⟨h.sub, fun e hg => ?_, fun r t hp => ?_⟩
  · have htakes := (inputPush_takes h.bounded h.fresh hg).1
    exact ⟨htakes, htakes.keys, htakes.key⟩
  · obtain ⟨hev, hnone, -⟩ := inputPoll_events h.bounded hp
    exact ⟨hev, hnone⟩

def event (type : EventType) (ch : ℕ) : Event := ⟨type, 0, 0, 0, 0, 0, 0, 0, ch, 0⟩

/-- A move, a second one over it, and a key behind them. -/
theorem input_queue_moves : ∃ s, Lib.Run Step Guard (.init fun _ => event .keyUp 0)
        [.push (event .mouseMove 0), .push (event .mouseMove 1)] s ∧
      (inputPush s (event .keyDown 2)).events.getLast? = some (event .keyDown 2) := by
  have hrun : ∃ s, Lib.Run Step Guard (.init fun _ => event .keyUp 0)
      [.push (event .mouseMove 0), .push (event .mouseMove 1)] s :=
    ⟨_, .cons (by simp [Guard, State.Full, State.init, qsize]) rfl <|
      .cons (by simp [Guard, State.Full, inputPush, State.init, qsize]) rfl .nil⟩
  obtain ⟨s, hs⟩ := hrun
  exact ⟨s, hs, ((input_queue hs).2.1 (event .keyDown 2) fun _ => by simp [event]).2.2 rfl⟩

theorem run_pushes (l : List Event) (s : State) :
    Lib.Run Step (fun _ _ => True) s (l.map .push) (l.foldl inputPush s) := by
  induction l generalizing s with
  | nil => exact .nil
  | cons e l ih => exact .cons trivial rfl (ih _)

/-- 255 keys fill the queue; then the wheel turns, and the first key is gone. -/
theorem wheel_drops_key : ∃ s, Lib.Run Step (fun _ _ => True) (.init fun _ => event .keyUp 0)
        (((List.range 255).map (event .keyDown)).map .push) s ∧
      event .keyDown 0 ∈ s.events ∧
      event .keyDown 0 ∉ (inputPush s (event .mouseWheel 0)).events := by
  exact ⟨_, run_pushes _ _, by decide +kernel, by decide +kernel⟩

end Xos.Input
