import Mathlib.Data.List.Forall2

/-!
# Guarded runs of a labelled transition system

A run is a list of labels that a step relation can follow, each step taken in a
state that meets a `guard`.  The guard is how a development says under which use a
property holds: with the guard that is always true the runs are all the runs of
the system.

* **the invariant rule** — `Run.invariant`, and `Run.pair` for two runs side by side;
* **runs in front of runs** — `Run.cons`, to write a concrete run down step by step,
  `Run.trans`, and `Run.of_play` for a run that is computed;
* **a run with more steps** — `Weave`: two runs side by side, of which the first takes steps
  that the second does not, with its rule `Weave.invariant`.
-/

namespace Xos.Lib

variable {S A : Type*}

/-- `Run step guard s as t`: the labels `as` lead from `s` to `t`, and every step
starts in a state that meets the guard. -/
inductive Run (step : S → A → S → Prop) (guard : S → A → Prop) (s : S) : List A → S → Prop
  | nil : Run step guard s [] s
  | snoc {as : List A} {t : S} {a : A} {u : S} :
      Run step guard s as t → guard t a → step t a u → Run step guard s (as ++ [a]) u

variable {step : S → A → S → Prop} {guard : S → A → Prop} {s t u : S} {as bs : List A}
  {R : S → S → Prop}

/-- **Invariants.**  What holds at the start and is kept by every guarded step
holds in every state a guarded run reaches. -/
theorem Run.invariant {I : S → Prop} (h0 : I s)
    (hstep : ∀ s a s', I s → guard s a → step s a s' → I s') (h : Run step guard s as t) :
    I t := by
  induction h with
  | nil => exact h0
  | snoc _ hg hs ih => exact hstep _ _ _ ih hg hs

/-- **Two runs.**  What relates the starts, and is kept by every pair of guarded steps with
related labels, relates the ends. -/
theorem Run.pair {Q : A → A → Prop} (h0 : R s s')
    (hstep : ∀ s s' a a' t t', R s s' → Q a a' → guard s a → guard s' a' → step s a t →
      step s' a' t' → R t t') (h : Run step guard s as t) (h' : Run step guard s' as' t')
    (hq : List.Forall₂ Q as as') :
    R t t' := by
  induction h generalizing as' t' with
  | nil =>
    cases hq
    generalize hl : ([] : List A) = l at h'
    cases h' with
    | nil => exact h0
    | snoc => simp at hl
  | snoc _ hg hs ih =>
    have hlen := hq.length_eq
    cases h' with
    | nil => simp at hlen
    | snoc hrun hg' hs' =>
      -- the last labels are related, and so are the rest
      rw [← List.forall₂_reverse_iff, List.reverse_append, List.reverse_append,
        List.reverse_singleton, List.reverse_singleton, List.singleton_append,
        List.singleton_append, List.forall₂_cons, List.forall₂_reverse_iff] at hq
      exact hstep _ _ _ _ _ _ (ih hrun hq.2) hq.1 hg hg' hs hs'

/-- A run may be continued by another one. -/
theorem Run.trans (h : Run step guard s as t) (h' : Run step guard t bs u) :
    Run step guard s (as ++ bs) u := by
  induction h' with
  | nil => rw [List.append_nil]; exact h
  | snoc _ hg hs ih => rw [← List.append_assoc]; exact ih.snoc hg hs

/-- A run with one more step at its start. -/
theorem Run.cons (hg : guard s a) (hs : step s a t) (h : Run step guard t as u) :
    Run step guard s (a :: as) u :=
  Run.trans (.snoc .nil hg hs) h

/-- A run under a guard is a run under a weaker one. -/
theorem Run.mono {guard' : S → A → Prop} (h : Run step guard s as t)
    (hg : ∀ s a, guard s a → guard' s a) : Run step guard' s as t := by
  induction h with
  | nil => exact .nil
  | snoc _ hg₁ hs ih => exact ih.snoc (hg _ _ hg₁) hs

/-- The state after some calls, each of which gives a result and the next state. -/
def play {R : Type*} (exec : S → A → Option (R × S)) (s : S) : List A → Option S
  | [] => some s
  | a :: as => (exec s a).bind fun r => play exec r.2 as

/-- Calls that can be played are a run. -/
theorem Run.of_play {R : Type*} {exec : S → A → Option (R × S)} (h : play exec s as = some t) :
    Run (fun s a t => ∃ r, exec s a = some (r, t)) (fun _ _ => True) s as t := by
  induction as generalizing s with
  | nil =>
    cases h
    exact .nil
  | cons a as ih =>
    obtain ⟨⟨r, u⟩, hexec, hrest⟩ := Option.bind_eq_some_iff.mp h
    exact Run.cons trivial ⟨r, hexec⟩ (ih hrest)

/-- Calls that always succeed are a run. -/
theorem Run.of_foldl : Run (fun s a t => f s a = t) (fun _ _ => True) s as (as.foldl f s) := by
  induction as generalizing s with
  | nil => exact .nil
  | cons a as ih => exact Run.cons trivial rfl ih

/-- Two runs from `s` side by side, the first with additional steps that `extra` admits.  The
list has, for each step that both take, the states before it and its label. -/
inductive Weave (step : S → A → S → Prop) (guard extra : S → A → Prop) (s : S) :
    List (S × S × A) → S → S → Prop
  | nil : Weave step guard extra s [] s s
  | both {l : List (S × S × A)} {t t' : S} {a : A} {u u' : S} :
      Weave step guard extra s l t t' → guard t a → guard t' a → step t a u → step t' a u' →
      Weave step guard extra s (l ++ [(t, t', a)]) u u'
  | left {l : List (S × S × A)} {t t' : S} {a : A} {u : S} :
      Weave step guard extra s l t t' → guard t a → extra t a → step t a u →
      Weave step guard extra s l u t'

/-- **A run with more steps.**  What relates the start to itself, is kept by a common step and
by an additional one, relates the two runs before every common step. -/
theorem Weave.invariant {extra : S → A → Prop} (h0 : R s s)
    (hboth : ∀ s s' a t t', R s s' → guard s a → guard s' a → step s a t → step s' a t' → R t t')
    (hleft : ∀ s s' a t, R s s' → guard s a → extra s a → step s a t → R t s')
    (h : Weave step guard extra s l t t') : R t t' ∧ ∀ e ∈ l, R e.1 e.2.1 := by
  induction h with
  | nil => exact ⟨h0, fun e he => by simp at he⟩
  | both _ hg hg' hs hs' ih =>
    refine ⟨hboth _ _ _ _ _ ih.1 hg hg' hs hs', fun e he => ?_⟩
    rcases List.mem_append.mp he with he | he
    · exact ih.2 e he
    · rw [List.mem_singleton.mp he]
      exact ih.1
  | left _ hg he hs ih => exact ⟨hleft _ _ _ _ ih.1 hg he hs, ih.2⟩

end Xos.Lib
