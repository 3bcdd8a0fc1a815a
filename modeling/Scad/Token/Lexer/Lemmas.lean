import Scad.Token.Lexer

/-!
# Scanners take the start of the text

Whatever a scanner gives back is the start of the text it was shown, and a token is never empty. So
nothing is lost or made up between the text and its tokens, and every round makes the rest shorter.
-/

namespace Scad.Lexer

/-- Two scanners one after the other take the start of the text if both do. -/
theorem append_starts {a b cs : List Char} (ha : a <+: cs) (hb : b <+: cs.drop a.length) :
    a ++ b <+: cs := by
  obtain ⟨r, rfl⟩ := ha
  rw [List.drop_left] at hb
  exact (List.prefix_append_right_inj a).2 hb

theorem cons_starts {x : Char} {a b : List Char} (h : a <+: b) : x :: a <+: x :: b :=
  List.cons_prefix_cons.2 ⟨rfl, h⟩

theorem gap_starts (g : Gap) (cs : List Char) : gap g cs <+: cs := by
  fun_induction gap g cs with
  | case1 => exact List.prefix_rfl
  | case2 _ _ ih => exact cons_starts ih
  | case3 _ ih => exact cons_starts (cons_starts ih)
  | case4 _ _ _ ih => exact cons_starts ih
  | case5 _ ih => exact cons_starts (cons_starts ih)
  | case6 _ ih => exact cons_starts (cons_starts ih)
  | case7 _ _ _ _ _ ih => exact cons_starts ih
  | case8 => exact List.nil_prefix

theorem digits_starts (cs : List Char) : digits cs <+: cs := List.takeWhile_prefix _

theorem fraction_starts (cs : List Char) : fraction cs <+: cs := by
  unfold fraction
  split
  · exact cons_starts (digits_starts _)
  · exact List.nil_prefix

theorem exponentSign_starts (cs : List Char) : exponentSign cs <+: cs := by
  unfold exponentSign
  split <;> simp

theorem exponent_starts (cs : List Char) : exponent cs <+: cs := by
  unfold exponent
  split
  · rename_i c cs
    split
    · dsimp only
      split
      · exact List.nil_prefix
      · exact cons_starts (append_starts (exponentSign_starts cs) (digits_starts _))
    · exact List.nil_prefix
  · exact List.nil_prefix

theorem numeral_starts (cs : List Char) : numeral cs <+: cs :=
  append_starts (append_starts (digits_starts _) (fraction_starts _)) (exponent_starts _)

theorem stringTail_starts (cs : List Char) : (stringTail cs).1 <+: cs := by
  fun_induction stringTail cs with
  | case1 => exact List.prefix_rfl
  | case2 => exact cons_starts List.nil_prefix
  | case3 _ _ _ ih => exact cons_starts (cons_starts ih)
  | case4 _ _ _ _ _ ih => exact cons_starts ih

theorem pathTail_starts (cs : List Char) : (pathTail cs).1 <+: cs := by
  unfold pathTail
  dsimp only
  split
  · rename_i h
    refine append_starts ?_ ?_
    · exact List.takeWhile_prefix _
    · rw [h]
      exact cons_starts List.nil_prefix
  · exact List.takeWhile_prefix _

theorem oneOrTwo_starts (x y : Char) (double single : TokenKind) (cs : List Char) :
    (oneOrTwo x y double single cs).2 <+: x :: cs := by
  unfold oneOrTwo
  split
  · cases cs <;> simp_all
  · exact cons_starts List.nil_prefix

theorem scanFrom_starts (c : Char) (cs : List Char) : (scanFrom c cs).2 <+: c :: cs := by
  unfold scanFrom
  split
  · exact cons_starts List.nil_prefix
  split
  case h_7 =>
    split
    · exact cons_starts List.nil_prefix
    · exact numeral_starts _
  case h_8 => exact cons_starts (stringTail_starts _)
  case h_9 => exact cons_starts ( List.takeWhile_prefix _)
  case h_10 =>
    split
    · exact numeral_starts _
    split
    · exact cons_starts ( List.takeWhile_prefix _)
    · exact cons_starts List.nil_prefix
  all_goals exact oneOrTwo_starts _ _ _ _ _

/-- A token is the start of the text at which it is scanned. -/
theorem scan_starts (path : Bool) (c : Char) (cs : List Char) :
    (scan path c cs).2 <+: c :: cs := by
  unfold scan
  split
  · rename_i h
    obtain rfl : c = '<' := h.2
    exact cons_starts (pathTail_starts _)
  · exact scanFrom_starts c cs

/-! ## Tokens are not empty -/

theorem digits_cons_ne_nil {c : Char} (h : c.isDigit) (cs : List Char) : digits (c :: cs) ≠ [] := by
  simp [digits, h]

theorem numeral_ne_nil {c : Char} (h : c.isDigit ∨ c = '.') (cs : List Char) :
    numeral (c :: cs) ≠ [] := by
  rcases h with h | rfl
  · simp [numeral, digits_cons_ne_nil h]
  · simp [numeral, digits, fraction, List.takeWhile]

theorem oneOrTwo_ne_nil (x y : Char) (double single : TokenKind) (cs : List Char) :
    (oneOrTwo x y double single cs).2 ≠ [] := by
  unfold oneOrTwo
  split <;> simp

theorem scanFrom_ne_nil (c : Char) (cs : List Char) : (scanFrom c cs).2 ≠ [] := by
  unfold scanFrom
  split
  · simp
  split
  case h_7 =>
    split
    · simp
    · exact numeral_ne_nil (.inr rfl) cs
  case h_8 => simp
  case h_9 => simp
  case h_10 =>
    split
    · rename_i h
      exact numeral_ne_nil (.inl h) cs
    split <;> simp
  all_goals exact oneOrTwo_ne_nil _ _ _ _ _

/-- A token has at least one character. -/
theorem scan_ne_nil (path : Bool) (c : Char) (cs : List Char) : (scan path c cs).2 ≠ [] := by
  unfold scan
  split
  · simp
  · exact scanFrom_ne_nil c cs

end Scad.Lexer
