import Mathlib.Data.List.Basic

/-!
# Programs over a device

A program of reads and writes on a device with a value at each place, as a tree of its accesses
in order.  Each read has a kind, so that a statement can say what is read.

* **sequence** — programs are a monad, with `Prog.get` and `Prog.put` for single accesses;
* **running** — `Prog.eval`, and `Prog.eval_bind` for programs in sequence.
-/

namespace Xos.Lib

/-- A device in the state: a value of `V` at each place. -/
structure Device (S B V : Type) where
  read : S → B → V
  write : S → B → V → S
  /-- A write changes its place at most, to the value written. -/
  read_write : ∀ s b v c, (c = b ∧ read (write s b v) c = v) ∨ read (write s b v) c = read s c

/-- A program: its accesses in order, each read with its kind. -/
inductive Prog (K B V α : Type) where
  | ret (a : α)
  | read (kind : K) (b : B) (next : V → Prog K B V α)
  | write (b : B) (v : V) (next : Prog K B V α)

namespace Prog

variable {K B V S α β : Type}

protected def bind : Prog K B V α → (α → Prog K B V β) → Prog K B V β
  | .ret a, f => f a
  | .read k b next, f => .read k b fun v => (next v).bind f
  | .write b v next, f => .write b v (next.bind f)

instance : Monad (Prog K B V) where
  pure := .ret
  bind := .bind

/-- The read of one place. -/
def get (k : K) (b : B) : Prog K B V V := .read k b .ret

/-- The write of one place. -/
def put (b : B) (v : V) : Prog K B V Unit := .write b v (.ret ())

/-! ## Running -/

/-- The run of a program. -/
def eval (d : Device S B V) : Prog K B V α → S → α × S
  | .ret a, s => (a, s)
  | .read _ b next, s => (next (d.read s b)).eval d s
  | .write b v next, s => next.eval d (d.write s b v)

variable {d : Device S B V}

@[simp] theorem eval_pure (a : α) (s : S) : (pure a : Prog K B V α).eval d s = (a, s) := rfl

@[simp] theorem eval_bind (p : Prog K B V α) (f : α → Prog K B V β) (s : S) :
    (p >>= f).eval d s = (f (p.eval d s).1).eval d (p.eval d s).2 := by
  induction p generalizing s with
  | ret => rfl
  | read k b next ih => exact ih _ _
  | write b v next ih => exact ih _

@[simp] theorem eval_get (k : K) (b : B) (s : S) :
    (get k b : Prog K B V V).eval d s = (d.read s b, s) := rfl

@[simp] theorem eval_put (b : B) (v : V) (s : S) :
    (put b v : Prog K B V Unit).eval d s = ((), d.write s b v) := rfl

end Prog

end Xos.Lib
