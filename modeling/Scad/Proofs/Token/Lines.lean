import Scad.Proofs.Program.Legible
import Scad.Proofs.Token.Concat

/-!
# One token on each line

Where a token ends is decided by the token: what followed it in the source does not matter. So the
texts of the tokens of a source, each on a line of its own, have the same tokens again, faults
included (`tokenize_lines`). Only a string that is left open would take a line break up, and it is
the last token.
-/

namespace Scad
namespace Lexer

/-! ## A token scanned again -/

/-- A string that is left open reaches to the end of the text. -/
theorem stringTail_open (cs : List Char) : (stringTail cs).2 = false → (stringTail cs).1 = cs := by
  fun_induction stringTail cs with
  | case1 => intro _; rfl
  | case2 => intro h; cases h
  | case3 c cs tail ih =>
    intro h
    rw [ih h]
  | case4 c cs _ _ tail ih =>
    intro h
    rw [ih h]

/-- A path that is left open stays open without what follows it. -/
theorem pathTail_open {cs tail : List Char} (h : pathTail cs = (tail, false)) :
    pathTail tail = (tail, false) := by
  unfold pathTail at h
  dsimp only at h
  split at h
  · cases h
  · obtain ⟨rfl, -⟩ := Prod.mk.inj h
    unfold pathTail
    simp only [List.takeWhile_takeWhile, and_self, decide_eq_true_eq, List.drop_length]

/-- A fault is the same fault again without what follows it. -/
theorem scanFrom_error {c : Char} {cs text : List Char} (h : scanFrom c cs = (.error, text)) :
    ∃ tail, text = c :: tail ∧ scanFrom c tail = (.error, text) := by
  unfold scanFrom at h
  split at h
  · rename_i k hk
    obtain ⟨rfl, -⟩ := Prod.mk.inj h
    exact absurd (single?_eq_some hk).1 (by decide)
  · rename_i hsingle
    split at h
    case h_1 | h_2 | h_3 | h_4 =>
      unfold oneOrTwo at h
      split at h <;> cases h
    case h_5 | h_6 =>
      unfold oneOrTwo at h
      split at h
      · cases h
      · obtain ⟨-, rfl⟩ := Prod.mk.inj h
        exact ⟨[], rfl, rfl⟩
    · split at h <;> cases h
    · obtain ⟨hk, rfl⟩ := Prod.mk.inj h
      have hopen : (stringTail cs).2 = false := by
        by_contra hclosed
        rw [if_pos (by simpa using hclosed)] at hk
        cases hk
      refine ⟨cs, by rw [stringTail_open cs hopen], ?_⟩
      show (if (stringTail cs).2 then TokenKind.string else .error, '"' :: (stringTail cs).1) = _
      rw [hopen]
      rfl
    · cases h
    · split at h
      · cases h
      rename_i hdigit
      split at h
      · obtain ⟨hk, -⟩ := Prod.mk.inj h
        cases hword : TokenKind.keyword? (String.ofList (c :: cs.takeWhile isWordChar)) with
        | none =>
          rw [hword] at hk
          cases hk
        | some k =>
          rw [hword, Option.getD_some] at hk
          have hreserved := (TokenKind.keyword?_eq_some hword).1
          rw [hk] at hreserved
          cases hreserved
      · rename_i hword
        obtain ⟨-, rfl⟩ := Prod.mk.inj h
        refine ⟨[], rfl, ?_⟩
        unfold scanFrom
        rw [hsingle]
        dsimp only
        split
        case h_10 => rw [if_neg hdigit, if_neg hword]
        all_goals contradiction

/-- A token is the same token again without what follows it. -/
theorem scan_alone {path : Bool} {c : Char} {cs text : List Char} {k : TokenKind}
    (hg : gap .blank (c :: cs) = []) (h : scan path c cs = (k, text)) :
    ∃ tail, text = c :: tail ∧ gap .blank (c :: tail) = [] ∧ scan path c tail = (k, text) := by
  by_cases hk : k = .error
  · subst hk
    have hstart : ∀ tail, c ≠ '/' → gap .blank (c :: tail) = [] := fun tail hc =>
      (gap_eq_nil_iff c tail).2 ⟨((gap_eq_nil_iff c cs).1 hg).1, fun h => absurd h hc⟩
    unfold scan at h
    split at h
    · rename_i hp
      obtain ⟨hopen, rfl⟩ := Prod.mk.inj h
      have hpath : (pathTail cs).2 = false := by
        by_contra hclosed
        rw [if_pos (by simpa using hclosed)] at hopen
        cases hopen
      have hagain := @pathTail_open cs (pathTail cs).1 (by rw [← hpath])
      refine ⟨_, by rw [hp.2], hstart _ (by rw [hp.2]; decide), ?_⟩
      unfold scan
      rw [if_pos hp, hagain]
      rfl
    · rename_i hp
      obtain ⟨tail, rfl, hagain⟩ := scanFrom_error h
      refine ⟨tail, rfl, hstart _ ?_, ?_⟩
      · rintro rfl
        cases h
      · rwa [scan, if_neg hp]
  · obtain ⟨hspell, hfits⟩ := scan_spelling hg h hk
    obtain ⟨c', tail, htext, hgap, hscan⟩ := @Spelling.rescan _ _ hspell _ [] hfits (stops_none k)
    rw [List.append_nil] at htext
    have hstarts := scan_starts path c cs
    rw [h, htext] at hstarts
    obtain rfl := (List.cons_prefix_cons.1 hstarts).1
    exact ⟨tail, htext, hgap, hscan⟩

/-- A closed string is closed without what follows it. -/
theorem closed_alone {path : Bool} {cs tail : List Char} {k : TokenKind}
    (h : scan path '"' cs = (k, '"' :: tail)) (hclosed : (stringTail cs).2 = true) :
    (stringTail tail).2 = true := by
  rw [scan_eq_scanFrom (by simp)] at h
  obtain ⟨-, htail⟩ := Prod.mk.inj h
  obtain rfl := (List.cons.inj htail).2
  have hagain := @stringTail_append cs (stringTail cs).1 (by rw [← hclosed]) []
  rw [List.append_nil] at hagain
  rw [hagain]

/-- A token is the same token again on a line of its own, unless it is a string left open. -/
theorem scan_line {path : Bool} {c : Char} {cs text : List Char} {k : TokenKind}
    (hg : gap .blank (c :: cs) = []) (h : scan path c cs = (k, text))
    (hclosed : c = '"' → (stringTail cs).2 = true) (rest : List Char) :
    ∃ tail, text = c :: tail ∧ gap .blank (c :: (tail ++ '\n' :: rest)) = [] ∧
      scan path c (tail ++ '\n' :: rest) = (k, text) := by
  obtain ⟨tail, rfl, hgap, hscan⟩ := scan_alone hg h
  refine ⟨tail, rfl, ?_, ?_⟩
  · rw [gap_eq_nil_iff] at hgap ⊢
    refine ⟨hgap.1, fun hc => ?_⟩
    cases tail with
    | nil => simp
    | cons d tail => exact hgap.2 hc
  · rw [scan_break rest, hscan]
    rintro rfl
    exact closed_alone h (hclosed rfl)

/-! ## All tokens -/

/-- A line break in front of a text is part of the gap there. -/
theorem Lexes.breakBefore {path : Bool} {p : Position} {cs : List Char} {ts : List Token}
    {stop : Position} (h : Lexes path (p.next '\n') cs ts stop) :
    Lexes path p ('\n' :: cs) ts stop := by
  have hgap : ∀ ds, gap .blank ('\n' :: ds) = '\n' :: gap .blank ds := by simp [gap, Text.isBlank]
  cases h with
  | nil hg => exact @Lexes.nil _ p ('\n' :: cs) (by rw [hgap, hg])
  | @cons _ _ g x xs kind text rest ts _ hg hs hr h =>
    exact .cons (p := p) (g := '\n' :: g) (by rw [List.cons_append, hgap, hg]) hs hr h

theorem Lexes.eq_nil {path : Bool} {p : Position} {ts : List Token} {stop : Position}
    (h : Lexes path p [] ts stop) : ts = [] := by
  generalize hcs : [] = cs at h
  cases h with
  | nil => rfl
  | cons => simp at hcs

/-- The texts of tokens, each on a line of its own. -/
def lines (ts : List Token) : List Char := ['\n'].intercalate (ts.map (·.text.toList))

theorem lines_singleton (t : Token) : lines [t] = t.text.toList := by simp [lines]

theorem lines_cons (t t' : Token) (ts : List Token) :
    lines (t :: t' :: ts) = t.text.toList ++ '\n' :: lines (t' :: ts) := by
  simp [lines, List.intercalate]

/-- The lines of the tokens of a text have these tokens again, wherever they start. -/
theorem Lexes.lines {path : Bool} {p : Position} {cs : List Char} {ts : List Token} {stop : Position}
    (h : Lexes path p cs ts stop) : ∀ q, ∃ us stop', Lexes path q (lines ts) us stop' ∧
      us.map Token.word = ts.map Token.word := by
  induction h with
  | nil => exact fun q => ⟨[], _, @Lexes.nil _ q [] rfl, rfl⟩
  | @cons path p g x xs kind text rest ts stop hg hs hr hrest ih =>
    intro q
    have hnone := gap_behind .blank _ g x xs rfl hg
    cases ts with
    | nil =>
      obtain ⟨tail, rfl, hgap, hscan⟩ := scan_alone hnone hs
      rw [lines_singleton, String.toList_ofList]
      exact ⟨_, _, .cons (g := []) hgap hscan (List.append_nil _).symm (.nil rfl), rfl⟩
    | cons t ts =>
      -- a string left open would have taken the tokens behind it
      have hclosed : x = '"' → (stringTail xs).2 = true := by
        rintro rfl
        by_contra hopen
        have htext : text = '"' :: xs := by
          rw [scan_eq_scanFrom (by simp)] at hs
          rw [← (Prod.mk.inj hs).2, stringTail_open xs (by simpa using hopen)]
        rw [htext] at hr
        obtain rfl := List.self_eq_append_right.1 hr
        cases hrest.eq_nil
      obtain ⟨us, stop', hus, hwords⟩ := ih (((q.after text)).next '\n')
      obtain ⟨tail, rfl, hgap, hscan⟩ := scan_line hnone hs hclosed (Lexer.lines (t :: ts))
      rw [lines_cons, String.toList_ofList]
      refine ⟨_, stop', .cons (g := []) hgap hscan rfl hus.breakBefore, ?_⟩
      rw [List.map_cons, List.map_cons, hwords]
      rfl

end Lexer

/-- The texts of the tokens of a source, with a line break between each two of them, have the same
tokens, faults included. -/
theorem tokenize_lines (source : List Char) :
    (tokenize (['\n'].intercalate ((tokenize source).tokens.map (·.text.toList)))).all.map Token.word =
      (tokenize source).all.map Token.word := by
  obtain ⟨us, stop, hlexes, hwords⟩ := (Lexer.tokenize_lexes source).lines {}
  obtain ⟨htokens, -⟩ := (Lexer.tokenize_lexes _).unique hlexes rfl
  rw [Lexer.Tokens.all, Lexer.Tokens.all, List.map_append, List.map_append, ← hwords, ← htokens]
  rfl

end Scad
