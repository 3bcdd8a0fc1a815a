/-!
# Slices by byte offset

A position in a text is a number of bytes of its UTF-8 form. A slice exists only between two
offsets at which characters start or end.
-/

namespace Scad.Text

/-- The number of bytes of a text in UTF-8. -/
def byteSize : List Char → Nat
  | [] => 0
  | c :: cs => c.utf8Size + byteSize cs

/-- What is left after the first `n` bytes, if a character ends there. -/
def dropBytes? : Nat → List Char → Option (List Char)
  | 0, cs => some cs
  | _ + 1, [] => none
  | n + 1, c :: cs => if c.utf8Size ≤ n + 1 then dropBytes? (n + 1 - c.utf8Size) cs else none

/-- The first `n` bytes, if a character ends there. -/
def takeBytes? : Nat → List Char → Option (List Char)
  | 0, _ => some []
  | _ + 1, [] => none
  | n + 1, c :: cs =>
    if c.utf8Size ≤ n + 1 then (takeBytes? (n + 1 - c.utf8Size) cs).map (c :: ·) else none

/-- The text from byte `start` up to byte `stop`. -/
def slice? (cs : List Char) (start stop : Nat) : Option (List Char) :=
  if start ≤ stop then (dropBytes? start cs).bind (takeBytes? (stop - start)) else none

/-! ## Slices of joined texts -/

@[simp]
theorem byteSize_nil : byteSize [] = 0 := rfl

@[simp]
theorem byteSize_cons (c : Char) (cs : List Char) :
    byteSize (c :: cs) = c.utf8Size + byteSize cs := rfl

@[simp]
theorem byteSize_append (a b : List Char) : byteSize (a ++ b) = byteSize a + byteSize b := by
  induction a with
  | nil => simp
  | cons c a ih => rw [List.cons_append, byteSize_cons, byteSize_cons, ih, Nat.add_assoc]

theorem dropBytes?_cons (n : Nat) (c : Char) (cs : List Char) :
    dropBytes? (c.utf8Size + n) (c :: cs) = dropBytes? n cs := by
  have pos := Char.utf8Size_pos c
  obtain ⟨k, hk⟩ : ∃ k, c.utf8Size + n = k + 1 := ⟨c.utf8Size + n - 1, by omega⟩
  rw [hk, dropBytes?, if_pos (by omega)]
  congr 1
  omega

theorem takeBytes?_cons (n : Nat) (c : Char) (cs : List Char) :
    takeBytes? (c.utf8Size + n) (c :: cs) = (takeBytes? n cs).map (c :: ·) := by
  have pos := Char.utf8Size_pos c
  obtain ⟨k, hk⟩ : ∃ k, c.utf8Size + n = k + 1 := ⟨c.utf8Size + n - 1, by omega⟩
  rw [hk, takeBytes?, if_pos (by omega)]
  congr 2
  omega

theorem dropBytes?_append (a b : List Char) : dropBytes? (byteSize a) (a ++ b) = some b := by
  induction a with
  | nil => simp [dropBytes?]
  | cons c a ih => rw [byteSize_cons, List.cons_append, dropBytes?_cons, ih]

theorem takeBytes?_append (a b : List Char) : takeBytes? (byteSize a) (a ++ b) = some a := by
  induction a with
  | nil => simp [takeBytes?]
  | cons c a ih => rw [byteSize_cons, List.cons_append, takeBytes?_cons, ih, Option.map_some]

/-- The slice between two offsets is the text that stands there. -/
theorem slice?_append (a b c : List Char) :
    slice? (a ++ (b ++ c)) (byteSize a) (byteSize a + byteSize b) = some b := by
  simp [slice?, dropBytes?_append, takeBytes?_append]

end Scad.Text
