import Scad.Proofs.Token.Spelling

/-!
# Quoting reads back

A value written as a literal is one token of kind `string`, and reading the literal gives the value
(`decode_encode`).
-/

namespace Scad.Text.Quoted

open Lexer

theorem letterMeaning?_of_escapeLetter? {c l : Char} (h : escapeLetter? c = some l) :
    letterMeaning? l = some c := by
  unfold escapeLetter? at h
  split at h
  case h_6 => cases h
  all_goals
    cases h
    rfl

theorem ne_of_escapeLetter?_none {c : Char} (h : escapeLetter? c = none) : c ≠ '"' ∧ c ≠ '\\' := by
  constructor
  · rintro rfl
    cases h
  · rintro rfl
    cases h

theorem unescape_cons {c : Char} (hc : c ≠ '\\') (cs : List Char) :
    unescape 0 (c :: cs) = c :: unescape 0 cs := by
  rw [unescape]
  exact fun _ _ h => absurd h hc

theorem unescape_escape (cs : List Char) : unescape 0 (escape cs) = cs := by
  induction cs with
  | nil => rfl
  | cons c cs ih =>
    cases hl : escapeLetter? c with
    | none => rw [escape, hl, unescape_cons (ne_of_escapeLetter?_none hl).2, ih]
    | some l =>
      rw [escape, hl]
      simp only [unescape, letterMeaning?_of_escapeLetter? hl, ih]

theorem decode_encode (cs : List Char) : decode (encode cs) = cs := by
  simp [decode, encode, stripQuotes, unescape_escape]

theorem stringTail_cons {c : Char} (h1 : c ≠ '"') (h2 : c ≠ '\\') (cs : List Char) :
    stringTail (c :: cs) = (c :: (stringTail cs).1, (stringTail cs).2) := by
  rw [stringTail]
  · exact h1
  · exact fun _ _ h => absurd h h2

theorem stringTail_escape (cs : List Char) :
    stringTail (escape cs ++ ['"']) = (escape cs ++ ['"'], true) := by
  induction cs with
  | nil => rfl
  | cons c cs ih =>
    cases hl : escapeLetter? c with
    | none =>
      obtain ⟨h1, h2⟩ := ne_of_escapeLetter?_none hl
      rw [escape, hl]
      simp only [List.cons_append, stringTail_cons h1 h2, ih]
    | some l =>
      rw [escape, hl]
      simp only [List.cons_append, stringTail, ih]

theorem encode_spelling (cs : List Char) : Spelling .string (encode cs) :=
  .string (stringTail_escape cs)

end Scad.Text.Quoted
