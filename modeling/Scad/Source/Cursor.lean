import Scad.Source.Position
import Scad.Text.Slice

/-!
# A cursor in a text

The part of a source that is still ahead, and the position reached. All movement goes forward, and
all of it is skipping: whatever else moves a cursor skips some number of characters.
-/

namespace Scad

/-- A point in a source text together with the text behind it. -/
structure Cursor where
  source : List Char
  ahead : List Char
  position : Position

namespace Cursor

/-- At the start of a text. -/
def start (source : List Char) : Cursor := ⟨source, source, {}⟩

def atEnd (c : Cursor) : Bool := c.ahead.isEmpty

/-- The next character, not taken. -/
def peek (c : Cursor) : Option Char := c.ahead.head?

/-- The character after the next one. -/
def peekSecond (c : Cursor) : Option Char := c.ahead.tail.head?

/-- Moves past the first `n` characters ahead. -/
def skip (c : Cursor) (n : Nat) : Cursor :=
  { c with ahead := c.ahead.drop n, position := c.position.after (c.ahead.take n) }

/-- Moves past the next character. -/
def advance (c : Cursor) : Cursor := c.skip 1

/-- Moves past the next character if it is `x`. -/
def eat (c : Cursor) (x : Char) : Bool × Cursor :=
  if c.peek = some x then (true, c.advance) else (false, c)

/-- Moves past the longest run of characters in a class. -/
def advanceWhile (c : Cursor) (p : Char → Bool) : Cursor := c.skip (c.ahead.takeWhile p).length

/-- The text from an earlier position up to this one. -/
def sliceFrom (c : Cursor) (mark : Position) : List Char :=
  (Text.slice? c.source mark.byte c.position.byte).getD []

/-! ## Skipping -/

variable {c : Cursor} {x : Char} {p : Char → Bool} {n : Nat}

@[simp]
theorem skip_zero (c : Cursor) : c.skip 0 = c := rfl

@[simp]
theorem skip_skip (c : Cursor) (m n : Nat) : (c.skip m).skip n = c.skip (m + n) := by
  simp only [skip, List.drop_drop, List.take_add, Position.after_append]

/-- The text passed and the text ahead make up the source, and the position counts the text
passed. -/
def Placed (c : Cursor) : Prop :=
  ∃ passed, c.source = passed ++ c.ahead ∧ c.position = ({} : Position).after passed

theorem placed_start (source : List Char) : (start source).Placed := ⟨[], rfl, rfl⟩

theorem Placed.skip (h : c.Placed) (n : Nat) : (c.skip n).Placed := by
  obtain ⟨passed, hsource, hposition⟩ := h
  refine ⟨passed ++ c.ahead.take n, ?_, ?_⟩
  · show c.source = passed ++ c.ahead.take n ++ c.ahead.drop n
    rw [List.append_assoc, List.take_append_drop, hsource]
  · show c.position.after (c.ahead.take n) = _
    rw [hposition, Position.after_append]

/-- The slice from where a skip began is the text skipped. -/
theorem sliceFrom_skip (h : c.Placed) (n : Nat) :
    (c.skip n).sliceFrom c.position = c.ahead.take n := by
  obtain ⟨passed, hsource, hposition⟩ := h
  have hstart : c.position.byte = Text.byteSize passed := by
    rw [hposition, Position.after_byte, Nat.zero_add]
  have hstop : (c.skip n).position.byte = Text.byteSize passed + Text.byteSize (c.ahead.take n) := by
    rw [← hstart]
    exact Position.after_byte _ _
  have hsplit : (c.skip n).source = passed ++ (c.ahead.take n ++ c.ahead.drop n) := by
    rw [List.take_append_drop]
    exact hsource
  rw [sliceFrom, hstart, hstop, hsplit, Text.slice?_append, Option.getD_some]

/-! ## Looking ahead -/

theorem peek_skip (c : Cursor) (n : Nat) : (c.skip n).peek = c.ahead[n]? :=
  List.head?_drop

theorem peekSecond_eq (c : Cursor) : c.peekSecond = c.advance.peek := by
  rw [advance, peek_skip, peekSecond, List.head?_tail]

theorem atEnd_iff : c.atEnd = true ↔ c.peek = none := by
  rw [atEnd, peek, List.isEmpty_iff, List.head?_eq_none_iff]

theorem atEnd_skip : (c.skip n).atEnd = true ↔ c.ahead.length ≤ n := by
  rw [atEnd_iff, peek_skip, List.getElem?_eq_none_iff]

/-! ## Moving on -/

theorem ahead_of_peek (h : c.peek = some x) : c.ahead = x :: c.advance.ahead := by
  obtain ⟨cs, hcs⟩ := List.head?_eq_some_iff.1 h
  simp [advance, skip, hcs]

theorem advance_position (h : c.peek = some x) : c.advance.position = c.position.next x := by
  show c.position.after (c.ahead.take 1) = _
  rw [ahead_of_peek h]
  rfl

/-- At the end there is nothing to pass. -/
theorem skip_of_atEnd (h : c.atEnd = true) (n : Nat) : c.skip n = c := by
  obtain ⟨source, ahead, position⟩ := c
  obtain rfl : ahead = [] := List.isEmpty_iff.1 h
  simp [skip]

/-- One character is skipped if it is the right one, and none otherwise. -/
theorem eat_eq (c : Cursor) (x : Char) :
    c.eat x = (c.peek == some x, c.skip (if c.peek = some x then 1 else 0)) := by
  unfold eat
  split <;> simp_all [advance]

/-- A run is passed one character after the other ... -/
theorem advanceWhile_of_peek (h : c.peek = some x) (hx : p x = true) :
    c.advanceWhile p = c.advance.advanceWhile p := by
  have hrun : c.ahead.takeWhile p = x :: c.advance.ahead.takeWhile p := by
    rw [ahead_of_peek h, List.takeWhile_cons_of_pos hx]
  rw [advanceWhile, hrun, advanceWhile, advance, skip_skip, List.length_cons, Nat.add_comm]

/-- ... up to the first one that is not in the class. -/
theorem advanceWhile_of_stop (h : ∀ x, c.peek = some x → p x = false) : c.advanceWhile p = c := by
  cases hpeek : c.peek with
  | none => exact skip_of_atEnd (atEnd_iff.2 hpeek) _
  | some x =>
    rw [advanceWhile, ahead_of_peek hpeek, List.takeWhile_cons_of_neg (by simp [h x hpeek])]
    rfl

/-- So it skips as many characters as there are in the class. -/
theorem advanceWhile_eq_skip (hall : ∀ x ∈ c.ahead.take n, p x = true)
    (hstop : ∀ x, (c.skip n).peek = some x → p x = false) : c.advanceWhile p = c.skip n := by
  induction n generalizing c with
  | zero => exact advanceWhile_of_stop hstop
  | succ n ih =>
    cases hpeek : c.peek with
    | none => rw [skip_of_atEnd (atEnd_iff.2 hpeek)]; exact skip_of_atEnd (atEnd_iff.2 hpeek) _
    | some x =>
      rw [ahead_of_peek hpeek, List.take_succ_cons, List.forall_mem_cons] at hall
      rw [Nat.add_comm, ← skip_skip] at hstop ⊢
      rw [advanceWhile_of_peek hpeek hall.1]
      exact ih hall.2 hstop

end Cursor
end Scad
