import Mathlib.Data.List.TakeWhile

/-!
# `fetch`

The loop of `fetch_main` in `userspace/cmds/cmds_main.c` that receives a response. It looks for
the end of the headers in each piece that `recv` returns, and prints the first line of a piece when
the headers do not end in it.

* **`fetch_split`** — no response is printed right for all ways to split it; one whose headers come
  in the first piece is.
-/

namespace Xos.User.Fetch

abbrev Line := List UInt8

/-- The string in a buffer: the bytes before the first NUL. -/
def cstr (buf : Line) : Line := buf.takeWhile (· ≠ 0)

/-- The first place in the bytes of `pat`, which is not empty. -/
def memmem (pat : Line) : Line → Option ℕ
  | [] => none
  | c :: s => if pat <+: c :: s then some 0 else (memmem pat s).map (· + 1)

/-- `"\r\n"`. -/
def crlf : Line := [13, 10]

/-- `"\r\n\r\n"`. -/
def blank : Line := [13, 10, 13, 10]

/-- The locals of the loop, with the status lines and the body printed. -/
structure State where
  headerEnd : Bool
  total : ℕ
  status : List Line
  body : Line

/-- The status lines printed for a piece. -/
def statusLine (rbuf : Line) : List Line :=
  ((memmem crlf rbuf).map fun slen => cstr (rbuf.take slen)).toList

/-- One `recv` that returns bytes. -/
def recv (f : State) (rbuf : Line) : State :=
  if !f.headerEnd then
    match memmem blank rbuf with
    | some i =>
      { headerEnd := true, status := f.status ++ statusLine rbuf, body := f.body ++ rbuf.drop (i + 4)
        total := f.total + (rbuf.length - (i + 4)) }
    | none => if f.total = 0 then { f with status := f.status ++ statusLine rbuf } else f
  else { f with body := f.body ++ rbuf, total := f.total + rbuf.length }

def fetch (pieces : List Line) : State := pieces.foldl recv ⟨false, 0, [], []⟩

/-! ## The specification -/

/-- The ways in which `recv` may return the stream. -/
def Split (stream : Line) (pieces : List Line) : Prop :=
  pieces.flatten = stream ∧ ∀ p ∈ pieces, 1 ≤ p.length ∧ p.length ≤ 4095

/-- The status line once, then the bytes after the headers and their number. -/
def Right (stream : Line) (f : State) : Prop :=
  ∃ slen i, memmem crlf stream = some slen ∧ memmem blank stream = some i ∧
    f.status = [stream.take slen] ∧ f.body = stream.drop (i + 4) ∧ f.total = f.body.length

variable {pat s t : Line} {i : ℕ} {f : State}

theorem memmem_le (h : memmem pat s = some i) : i + pat.length ≤ s.length := by
  induction s generalizing i with
  | nil => cases h
  | cons c s ih =>
    unfold memmem at h
    split at h
    · next hp =>
      cases h
      simpa using hp.length_le
    obtain ⟨j, hj, rfl⟩ := Option.map_eq_some_iff.1 h
    have := ih hj
    rw [List.length_cons]
    omega

/-- What is found in a piece is found there in all that follows. -/
theorem memmem_append (h : memmem pat s = some i) : memmem pat (s ++ t) = some i := by
  induction s generalizing i with
  | nil => cases h
  | cons c s ih =>
    unfold memmem at h
    rw [List.cons_append, memmem, ← List.cons_append]
    split at h
    · next hp =>
      cases h
      exact if_pos (hp.trans (List.prefix_append _ t))
    next hp =>
    obtain ⟨j, hj, rfl⟩ := Option.map_eq_some_iff.1 h
    have hlen := memmem_le hj
    rw [if_neg fun hp' => hp (List.prefix_of_prefix_length_le hp' (List.prefix_append _ t)
      (by rw [List.length_cons]; omega)), ih hj, Option.map_some]

/-- Where there is an empty line there is an end of line. -/
theorem memmem_crlf (h : memmem blank s = some i) : ∃ slen, memmem crlf s = some slen := by
  induction s generalizing i with
  | nil => cases h
  | cons c s ih =>
    unfold memmem at h ⊢
    split at h
    · next hp => exact ⟨0, if_pos ((by decide : crlf <+: blank).trans hp)⟩
    obtain ⟨j, hj, -⟩ := Option.map_eq_some_iff.1 h
    obtain ⟨slen, hs⟩ := ih hj
    rw [hs]
    split
    · exact ⟨0, rfl⟩
    · exact ⟨slen + 1, rfl⟩

/-! ## The loop -/

/-- Single bytes never show an end of line. -/
theorem status_bytes (s : Line) (h : f.headerEnd = false) :
    ((s.map ([·])).foldl recv f).status = f.status := by
  induction s generalizing f with
  | nil => rfl
  | cons c s ih =>
    have hstep : (recv f [c]).status = f.status ∧ (recv f [c]).headerEnd = false := by
      simp only [recv, h, statusLine, memmem, blank, crlf]
      by_cases ht : f.total = 0 <;> simp [h, ht]
    rw [List.map_cons, List.foldl_cons, ih hstep.2, hstep.1]

/-- After the headers every piece is body. -/
theorem body_foldl (pieces : List Line) (h : f.headerEnd = true) :
    let g := pieces.foldl recv f
    g.status = f.status ∧ g.body = f.body ++ pieces.flatten ∧
      g.total = f.total + pieces.flatten.length := by
  induction pieces generalizing f with
  | nil => simp
  | cons p pieces ih =>
    have hstep : recv f p = { f with body := f.body ++ p, total := f.total + p.length } := by
      simp [recv, h]
    rw [List.foldl_cons, hstep]
    obtain ⟨hs, hb, ht⟩ := ih (f := { f with body := f.body ++ p, total := f.total + p.length }) h
    refine ⟨hs, ?_, ?_⟩
    · simp [hb]
    · simp [ht, Nat.add_assoc]

/-- A response is printed right when its headers come in the first piece, with no NUL in the status
line; and no response is printed right for all splits. -/
theorem fetch_split (stream : Line) :
    (¬ ∀ pieces, Split stream pieces → Right stream (fetch pieces)) ∧
      ∀ p pieces, Split stream (p :: pieces) → (memmem blank p).isSome →
        (∀ slen, memmem crlf p = some slen → 0 ∉ p.take slen) →
        Right stream (fetch (p :: pieces)) := by
  constructor
  · intro h
    have hsplit : Split stream (stream.map ([·])) := by
      refine ⟨by rw [← List.flatMap_def, List.flatMap_singleton'], fun p hp => ?_⟩
      obtain ⟨c, -, rfl⟩ := List.mem_map.1 hp
      exact ⟨le_rfl, by simp⟩
    obtain ⟨_, _, -, -, hstatus, -⟩ := h _ hsplit
    rw [fetch, status_bytes stream rfl] at hstatus
    cases hstatus
  · rintro p pieces ⟨rfl, -⟩ hblank h0
    obtain ⟨i, hi⟩ := Option.isSome_iff_exists.1 hblank
    obtain ⟨slen, hs⟩ := memmem_crlf hi
    have hle := memmem_le hi
    have hle' := memmem_le hs
    rw [show blank.length = 4 from rfl] at hle
    have hcstr : cstr (p.take slen) = p.take slen := List.takeWhile_eq_self_iff.2 fun c hc => by
      simpa using fun h : c = 0 => h0 slen hs (h ▸ hc)
    refine ⟨slen, i, memmem_append hs, memmem_append hi, ?_⟩
    have hrecv : recv ⟨false, 0, [], []⟩ p =
        ⟨true, p.length - (i + 4), [p.take slen], p.drop (i + 4)⟩ := by
      simp [recv, hi, statusLine, hs, hcstr]
    obtain ⟨hst, hb, ht⟩ := body_foldl (f := recv ⟨false, 0, [], []⟩ p) pieces (by rw [hrecv])
    rw [fetch, List.foldl_cons, hst, hb, ht, hrecv]
    refine ⟨by simp [List.take_append_of_le_length (show slen ≤ p.length by omega)], ?_, ?_⟩
    · simp [List.drop_append_of_le_length hle]
    · simp

/-- `"a\r\n\r\n\0b"` and `"c"`: the body has three bytes. -/
theorem fetch_two_pieces : Right [97, 13, 10, 13, 10, 0, 98, 99]
    (fetch [[97, 13, 10, 13, 10, 0, 98], [99]]) := by
  refine (fetch_split _).2 _ _ ⟨rfl, by decide⟩ (by decide) fun slen h => ?_
  obtain rfl : slen = 1 := (Option.some.inj h).symm
  decide

/-- `"a\r\n\r\nb"` in single bytes. -/
theorem fetch_bytes : Split [97, 13, 10, 13, 10, 98] [[97], [13], [10], [13], [10], [98]] ∧
    ¬ Right [97, 13, 10, 13, 10, 98] (fetch [[97], [13], [10], [13], [10], [98]]) :=
  ⟨⟨rfl, by decide⟩, fun ⟨_, _, _, _, h, _⟩ => by cases h⟩

end Xos.User.Fetch
