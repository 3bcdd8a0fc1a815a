import Scad.Proofs.Number.Numeral
import Scad.Proofs.Token.Lexes
import Scad.Text.Quoted

/-!
# Spellings

How the tokens of each kind are spelled. The scanner gives only tokens with a right spelling
(`scan_spelling`), and it gives a token with a right spelling back whatever follows, as long as the
next character does not go on with the token (`Spelling.rescan`).
-/

namespace Scad

namespace TokenKind

/-- The marks, which have one spelling and are no words. -/
def isMark : TokenKind → Bool
  | plus | minus | star | slash | percent | caret | bang | assign | eqEq | bangEq | lt | gt | ltEq
  | gtEq | andAnd | orOr | question | colon | hash | lparen | rparen | lbracket | rbracket | lbrace
  | rbrace | semicolon | comma | dot => true
  | _ => false

/-- The reserved words. -/
def isReserved : TokenKind → Bool
  | kwTrue | kwFalse | kwUndef | kwModule | kwFunction | kwIf | kwElse | kwFor | kwLet | kwEach
  | kwInclude | kwUse => true
  | _ => false

/-- The kinds that have one spelling. -/
def isFixed (k : TokenKind) : Bool := k.isMark || k.isReserved

theorem mem_reserved (k : TokenKind) : k ∈ reserved ↔ k.isReserved = true := by
  cases k <;> decide

theorem keyword?_eq_some {word : String} {k : TokenKind} (h : keyword? word = some k) :
    k.isReserved = true ∧ k.text = word := by
  have hm := List.mem_of_find?_eq_some h
  have hp := List.find?_some h
  exact ⟨(mem_reserved k).1 hm, by simpa using hp⟩

end TokenKind

namespace Lexer

open TokenKind

/-- The tokens of a kind are spelled like this. -/
inductive Spelling : TokenKind → List Char → Prop
  | mark {k : TokenKind} (h : k.isMark = true) : Spelling k k.text.toList
  | keyword {k : TokenKind} (h : k.isReserved = true) : Spelling k k.text.toList
  | identifier {c : Char} {cs : List Char} (hb : Text.isBlank c = false) (hd : c.isDigit = false)
      (hc : startsWord c = true) (hcs : ∀ x ∈ cs, isWordChar x = true)
      (hk : keyword? (String.ofList (c :: cs)) = none) : Spelling .identifier (c :: cs)
  | special {cs : List Char} (hcs : ∀ x ∈ cs, isWordChar x = true) : Spelling .special ('$' :: cs)
  | number {w f e : List Char} (h : Numeral w f e) : Spelling .number (w ++ f ++ e)
  | string {cs : List Char} (h : stringTail cs = (cs, true)) : Spelling .string ('"' :: cs)
  | path {cs : List Char} (h : ∀ c ∈ cs, c ≠ '>' ∧ c ≠ '\n') :
      Spelling .path ('<' :: (cs ++ ['>']))

/-- Where a `<` opens a path there are paths, and elsewhere comparisons. -/
def Fits (path : Bool) (k : TokenKind) : Prop :=
  (k = .path → path = true) ∧ (k = .lt ∨ k = .ltEq → path = false)

/-- The next character does not go on with a token of this kind. -/
def Stops (k : TokenKind) (next : Option Char) : Prop :=
  match k with
  | .number => EndsNumber next
  | .assign | .bang | .lt | .gt => next ≠ some '='
  | .dot => ∀ c, next = some c → c.isDigit = false
  | .slash => next ≠ some '/' ∧ next ≠ some '*'
  | .identifier | .special => ∀ c, next = some c → isWordChar c = false
  | k => k.isReserved = true → ∀ c, next = some c → isWordChar c = false

/-! ## Parts of scanners -/

theorem gap_eq_nil_iff (x : Char) (xs : List Char) : gap .blank (x :: xs) = [] ↔
    Text.isBlank x = false ∧ (x = '/' → xs.head? ≠ some '/' ∧ xs.head? ≠ some '*') := by
  by_cases h1 : ∃ ys, x = '/' ∧ (xs = '/' :: ys ∨ xs = '*' :: ys)
  · obtain ⟨ys, rfl, rfl | rfl⟩ := h1 <;> simp [gap]
  · have hgap : gap .blank (x :: xs) = if Text.isBlank x then x :: gap .blank xs else [] := by
      rw [gap]
      · exact fun ys hx hxs => h1 ⟨ys, hx, .inl hxs⟩
      · exact fun ys hx hxs => h1 ⟨ys, hx, .inr hxs⟩
    have hslash : x = '/' → xs.head? ≠ some '/' ∧ xs.head? ≠ some '*' := by
      intro hx
      constructor
      · intro h
        obtain ⟨ys, hys⟩ := List.head?_eq_some_iff.1 h
        exact h1 ⟨ys, hx, .inl hys⟩
      · intro h
        obtain ⟨ys, hys⟩ := List.head?_eq_some_iff.1 h
        exact h1 ⟨ys, hx, .inr hys⟩
    rw [hgap]
    cases hb : Text.isBlank x with
    | true => simp
    | false => simpa using hslash

/-- A string that is closed stays closed, whatever follows. -/
theorem stringTail_append {cs tail : List Char} (h : stringTail cs = (tail, true))
    (rest : List Char) : stringTail (tail ++ rest) = (tail, true) := by
  induction cs using stringTail.induct generalizing tail with
  | case1 => simp [stringTail] at h
  | case2 cs =>
    obtain ⟨rfl, -⟩ := Prod.mk.inj h
    rfl
  | case3 c cs ih =>
    obtain ⟨rfl, ht⟩ := Prod.mk.inj h
    have := ih (show stringTail cs = ((stringTail cs).1, true) by rw [← ht])
    simp [stringTail, this]
  | case4 c cs hq hb ih =>
    rw [stringTail] at h
    · obtain ⟨rfl, ht⟩ := Prod.mk.inj h
      have := ih (show stringTail cs = ((stringTail cs).1, true) by rw [← ht])
      rw [List.cons_append, stringTail, this]
      · rintro rfl
        exact hq rfl
      · intro x xs hx hxs
        -- a backslash that stands last cannot be in a closed string
        cases cs with
        | nil => simp [stringTail] at ht
        | cons y ys => exact hb y ys hx rfl
    · exact hq
    · exact hb

theorem pathTail_append {cs : List Char} (h : ∀ c ∈ cs, c ≠ '>' ∧ c ≠ '\n') (rest : List Char) :
    pathTail (cs ++ '>' :: rest) = (cs ++ ['>'], true) := by
  have htake : (cs ++ '>' :: rest).takeWhile (fun c => c ≠ '>' ∧ c ≠ '\n') = cs := by
    refine takeWhile_append_stop (fun c hc => ?_) (fun c hc => ?_)
    · simpa using h c hc
    · obtain rfl : '>' = c := by simpa using hc
      decide
  unfold pathTail
  simp only [htake, List.drop_left]

theorem pathTail_spelling {cs tail : List Char} (h : pathTail cs = (tail, true)) :
    ∃ body, tail = body ++ ['>'] ∧ ∀ c ∈ body, c ≠ '>' ∧ c ≠ '\n' := by
  unfold pathTail at h
  dsimp only at h
  split at h
  · obtain ⟨rfl, -⟩ := Prod.mk.inj h
    refine ⟨_, rfl, fun c hc => ?_⟩
    simpa using List.mem_takeWhile_imp hc
  · simp at h

/-! ## What the scanner gives -/

theorem single?_eq_some {c : Char} {k : TokenKind} (h : single? c = some k) :
    k.isMark = true ∧ k.text.toList = [c] ∧ k ≠ .lt ∧ k ≠ .ltEq := by
  unfold single? at h
  split at h
  all_goals cases h
  all_goals decide

/-- A mark of one or two characters; without its second character it may be a fault. -/
theorem oneOrTwo_spelling {a b : Char} {double single k : TokenKind} {cs text : List Char}
    (hd : double.isMark = true ∧ double.text.toList = [a, b])
    (hs : single = .error ∨ single.isMark = true ∧ single.text.toList = [a])
    (h : oneOrTwo a b double single cs = (k, text)) (he : k ≠ .error) :
    Spelling k text ∧ (k = double ∨ k = single) := by
  unfold oneOrTwo at h
  split at h
  · obtain ⟨rfl, rfl⟩ := Prod.mk.inj h
    rw [← hd.2]
    exact ⟨.mark hd.1, .inl rfl⟩
  · obtain ⟨rfl, rfl⟩ := Prod.mk.inj h
    rcases hs with hs | hs
    · exact absurd hs he
    · rw [← hs.2]
      exact ⟨.mark hs.1, .inr rfl⟩

theorem scanFrom_spelling {c : Char} {cs : List Char} {k : TokenKind} {text : List Char}
    (hb : Text.isBlank c = false) (h : scanFrom c cs = (k, text)) (he : k ≠ .error) :
    Spelling k text ∧ k ≠ .path ∧ (k = .lt ∨ k = .ltEq → c = '<') := by
  unfold scanFrom at h
  split at h
  · rename_i k' hk
    obtain ⟨rfl, rfl⟩ := Prod.mk.inj h
    obtain ⟨hm, ht, h1, h2⟩ := single?_eq_some hk
    rw [← ht]
    refine ⟨.mark hm, ?_, by simp [h1, h2]⟩
    rintro rfl
    simp [isMark] at hm
  · split at h
    case h_1 | h_2 | h_3 | h_4 =>
      obtain ⟨hs, rfl | rfl⟩ := oneOrTwo_spelling ⟨rfl, rfl⟩ (.inr ⟨rfl, rfl⟩) h he <;>
        exact ⟨hs, by decide, by decide⟩
    case h_5 | h_6 =>
      obtain ⟨hs, rfl | rfl⟩ := oneOrTwo_spelling ⟨rfl, rfl⟩ (.inl rfl) h he <;>
        exact ⟨hs, by decide, by decide⟩
    · split at h
      · obtain ⟨rfl, rfl⟩ := Prod.mk.inj h
        exact ⟨.mark (k := .dot) rfl, by decide, by decide⟩
      · rename_i hd
        obtain ⟨rfl, rfl⟩ := Prod.mk.inj h
        obtain ⟨w, f, e, hn, hnum⟩ := numeral_isNumeral (c := '.') (.inr ⟨rfl, by simpa using hd⟩)
        rw [hn]
        exact ⟨.number hnum, by decide, by decide⟩
    · obtain ⟨hk, rfl⟩ := Prod.mk.inj h
      split at hk
      · rename_i ht
        subst hk
        have hst : stringTail cs = ((stringTail cs).1, true) := by rw [← ht]
        have := stringTail_append hst []
        rw [List.append_nil] at this
        exact ⟨.string this, by decide, by decide⟩
      · exact absurd hk.symm he
    · obtain ⟨rfl, rfl⟩ := Prod.mk.inj h
      exact ⟨.special fun x hx => List.mem_takeWhile_imp hx, by decide, by decide⟩
    · split at h
      · rename_i hd
        obtain ⟨rfl, rfl⟩ := Prod.mk.inj h
        obtain ⟨w, f, e, hn, hnum⟩ := @numeral_isNumeral c cs (.inl hd)
        rw [hn]
        exact ⟨.number hnum, by decide, by simp⟩
      · rename_i hd
        split at h
        · rename_i hw
          obtain ⟨hk, rfl⟩ := Prod.mk.inj h
          cases hkw : keyword? (String.ofList (c :: cs.takeWhile isWordChar)) with
          | none =>
            rw [hkw] at hk
            obtain rfl : TokenKind.identifier = k := hk
            refine ⟨.identifier hb (by simpa using hd) hw (fun x hx => ?_) hkw, by decide, by simp⟩
            exact List.mem_takeWhile_imp hx
          | some k' =>
            rw [hkw] at hk
            obtain rfl : k' = k := hk
            obtain ⟨hr, ht⟩ := keyword?_eq_some hkw
            have hs : Spelling k' k'.text.toList := .keyword hr
            rw [ht, String.toList_ofList] at hs
            refine ⟨hs, ?_, ?_⟩
            · rintro rfl
              simp [isReserved] at hr
            · rintro (rfl | rfl) <;> simp [isReserved] at hr
        · obtain ⟨rfl, -⟩ := Prod.mk.inj h
          exact absurd rfl he

/-- The tokens of the scanner are spelled right, and a path is found only where one may stand. -/
theorem scan_spelling {path : Bool} {c : Char} {cs : List Char} {k : TokenKind} {text : List Char}
    (hg : gap .blank (c :: cs) = []) (h : scan path c cs = (k, text)) (he : k ≠ .error) :
    Spelling k text ∧ Fits path k := by
  unfold scan at h
  split at h
  · rename_i hp
    obtain ⟨hk, rfl⟩ := Prod.mk.inj h
    split at hk
    · rename_i ht
      subst hk
      obtain ⟨body, hb, hbody⟩ := @pathTail_spelling cs (pathTail cs).1
        (by rw [← ht])
      rw [hb]
      exact ⟨.path hbody, fun _ => hp.1, by simp⟩
    · exact absurd hk.symm he
  · rename_i hp
    obtain ⟨hs, h1, h2⟩ := scanFrom_spelling ((gap_eq_nil_iff c cs).1 hg).1 h he
    refine ⟨hs, fun hk => absurd hk h1, fun hk => ?_⟩
    have := h2 hk
    simpa [this] using hp

/-! ## Scanning again -/

theorem scan_eq_scanFrom {path : Bool} {c : Char} {cs : List Char} (h : path = true → c ≠ '<') :
    scan path c cs = scanFrom c cs := by
  unfold scan
  rw [if_neg]
  exact fun hp => h hp.1 hp.2

theorem not_blank_of_digit {c : Char} (h : c.isDigit = true) : Text.isBlank c = false := by
  simp only [Char.isDigit, Bool.and_eq_true, decide_eq_true_eq, UInt32.le_iff_toNat_le] at h
  have h1 : 48 ≤ c.toNat := h.1
  have h2 : c.toNat ≤ 57 := h.2
  unfold Text.isBlank
  rw [if_pos (by omega)]
  simp only [Bool.or_eq_false_iff, Bool.and_eq_false_iff, beq_eq_false_iff_ne,
    decide_eq_false_iff_not]
  omega

/-- A character that is none of the marks is looked up among the words and numbers. -/
theorem scanFrom_word {c : Char} (cs : List Char)
    (h : ∀ x ∈ "()[]\x7b\x7d;,+-*/%^#?:=!<>&|.\"$".toList, c ≠ x) :
    scanFrom c cs =
      if c.isDigit then (.number, numeral (c :: cs))
      else if startsWord c then
        ((TokenKind.keyword? (String.ofList (c :: cs.takeWhile isWordChar))).getD .identifier,
          c :: cs.takeWhile isWordChar)
      else (.error, [c]) := by
  have hs : single? c = none := by
    unfold single?
    split
    case h_18 => rfl
    all_goals exact absurd rfl (h _ (by decide))
  unfold scanFrom
  rw [hs]
  dsimp only
  split
  case h_10 => rfl
  all_goals exact absurd rfl (h _ (by decide))

/-- A digit or a letter is none of the marks. -/
theorem ne_mark {p : Char → Bool} {c : Char} (hc : p c = true)
    (hp : "()[]\x7b\x7d;,+-*/%^#?:=!<>&|.\"$".toList.all (fun x => !p x) = true) :
    ∀ x ∈ "()[]\x7b\x7d;,+-*/%^#?:=!<>&|.\"$".toList, c ≠ x := by
  rintro x hx rfl
  have := List.all_eq_true.1 hp c hx
  simp [hc] at this

theorem scanFrom_digit {c : Char} (hd : c.isDigit = true) (cs : List Char) :
    scanFrom c cs = (.number, numeral (c :: cs)) := by
  rw [scanFrom_word cs (ne_mark (p := Char.isDigit) hd (by decide)), if_pos hd]

theorem scanFrom_letter {c : Char} (hd : c.isDigit = false) (hc : startsWord c = true)
    {cs rest : List Char} (hcs : ∀ x ∈ cs, isWordChar x = true)
    (hr : ∀ x, rest.head? = some x → isWordChar x = false) :
    scanFrom c (cs ++ rest) =
      ((TokenKind.keyword? (String.ofList (c :: cs))).getD .identifier, c :: cs) := by
  rw [scanFrom_word _ (ne_mark (p := startsWord) hc (by decide)), if_neg (by simp [hd]), if_pos hc,
    takeWhile_append_stop hcs hr]

theorem keyword_rescan {k : TokenKind} (hk : k.isReserved = true) {rest : List Char}
    (hr : ∀ x, rest.head? = some x → isWordChar x = false) :
    ∃ c cs, k.text.toList = c :: cs ∧ Text.isBlank c = false ∧ c ≠ '/' ∧ c ≠ '<' ∧
      scanFrom c (cs ++ rest) = (k, k.text.toList) := by
  have hall : reserved.all (fun k =>
      k.text.toList.head?.any (fun c =>
        !Text.isBlank c && c != '/' && c != '<' && !c.isDigit && startsWord c) &&
      k.text.toList.tail.all isWordChar && keyword? (String.ofList k.text.toList) == some k) = true := by
    decide
  have h := List.all_eq_true.1 hall k ((mem_reserved k).2 hk)
  cases ht : k.text.toList with
  | nil => simp [ht] at h
  | cons c cs =>
    rw [ht] at h
    simp only [List.head?_cons, Option.any_some, List.tail_cons, Bool.and_eq_true, Bool.not_eq_true',
      bne_iff_ne, beq_iff_eq] at h
    obtain ⟨⟨⟨⟨⟨⟨hb, h1⟩, h2⟩, hd⟩, hc⟩, hcs⟩, hkw⟩ := h
    refine ⟨c, cs, rfl, hb, h1, h2, ?_⟩
    rw [scanFrom_letter hd hc (List.all_eq_true.1 hcs) hr, hkw]
    rfl

/-- Most marks are single characters that go on with nothing. -/
theorem mark_cases {k : TokenKind} (hk : k.isMark = true) :
    k.text.toList.head?.bind single? = some k ∨
      k ∈ [assign, bang, lt, gt, dot, eqEq, bangEq, ltEq, gtEq, andAnd, orOr] := by
  revert hk
  cases k <;> decide

theorem single_rescan {c : Char} {k : TokenKind} (h : single? c = some k) {rest : List Char}
    (hs : Stops k rest.head?) (path : Bool) :
    gap .blank (c :: rest) = [] ∧ scan path c rest = (k, [c]) := by
  have hscan : scanFrom c rest = (k, [c]) := by
    unfold scanFrom
    rw [h]
  constructor
  · refine (gap_eq_nil_iff c rest).2 ⟨?_, ?_⟩
    · unfold single? at h
      split at h
      case h_18 => cases h
      all_goals decide
    · rintro rfl
      obtain rfl : slash = k := by simpa [single?] using h
      exact hs
  · rw [scan_eq_scanFrom, hscan]
    rintro - rfl
    simp [single?] at h

/-- A mark that is one character or two, depending on the character that follows. -/
theorem oneOrTwo_rescan (path : Bool) {a b : Char} {double single : TokenKind}
    (hb : Text.isBlank a = false) (ha : a ≠ '/') (hp : path = true → a ≠ '<')
    (hscan : ∀ cs, scanFrom a cs = oneOrTwo a b double single cs) (rest : List Char) :
    (gap .blank (a :: b :: rest) = [] ∧ scan path a (b :: rest) = (double, [a, b])) ∧
      (rest.head? ≠ some b → gap .blank (a :: rest) = [] ∧ scan path a rest = (single, [a])) := by
  have hgap : ∀ xs, gap .blank (a :: xs) = [] :=
    fun xs => (gap_eq_nil_iff a xs).2 ⟨hb, fun h => absurd h ha⟩
  refine ⟨⟨hgap _, ?_⟩, fun hr => ⟨hgap _, ?_⟩⟩
  · rw [scan_eq_scanFrom hp, hscan]
    exact if_pos rfl
  · rw [scan_eq_scanFrom hp, hscan]
    exact if_neg hr

theorem mark_rescan {k : TokenKind} (hk : k.isMark = true) {path : Bool} {rest : List Char}
    (hf : Fits path k) (hs : Stops k rest.head?) :
    ∃ c cs, k.text.toList = c :: cs ∧ gap .blank (c :: (cs ++ rest)) = [] ∧
      scan path c (cs ++ rest) = (k, k.text.toList) := by
  rcases mark_cases hk with h | h
  · obtain ⟨c, -, hc⟩ := Option.bind_eq_some_iff.1 h
    have ht := (single?_eq_some hc).2.1
    obtain ⟨hg, hscan⟩ := single_rescan hc hs path
    exact ⟨c, [], ht, hg, by rw [ht]; exact hscan⟩
  · have heq := oneOrTwo_rescan path (a := '=') (b := '=') (by decide) (by decide)
      (by simp) (fun _ => rfl) rest
    have hbang := oneOrTwo_rescan path (a := '!') (b := '=') (by decide) (by decide)
      (by simp) (fun _ => rfl) rest
    have hlt := fun hp : path = false => oneOrTwo_rescan path (a := '<') (b := '=')
      (by decide) (by decide) (by simp [hp]) (fun _ => rfl) rest
    have hgt := oneOrTwo_rescan path (a := '>') (b := '=') (by decide) (by decide)
      (by simp) (fun _ => rfl) rest
    have hand := oneOrTwo_rescan path (a := '&') (b := '&') (by decide) (by decide)
      (by simp) (fun _ => rfl) rest
    have hor := oneOrTwo_rescan path (a := '|') (b := '|') (by decide) (by decide)
      (by simp) (fun _ => rfl) rest
    simp only [List.mem_cons, List.not_mem_nil, or_false] at h
    rcases h with rfl | rfl | rfl | rfl | rfl | rfl | rfl | rfl | rfl | rfl | rfl
    · exact ⟨'=', [], rfl, heq.2 hs⟩
    · exact ⟨'!', [], rfl, hbang.2 hs⟩
    · exact ⟨'<', [], rfl, (hlt (hf.2 (.inl rfl))).2 hs⟩
    · exact ⟨'>', [], rfl, hgt.2 hs⟩
    · have hd : digits rest = [] := by
        cases rest with
        | nil => rfl
        | cons x xs =>
          have : x.isDigit = false := hs x rfl
          simp [digits, this]
      refine ⟨'.', [], rfl, (gap_eq_nil_iff _ _).2 ⟨by decide, by simp⟩, ?_⟩
      rw [scan_eq_scanFrom (by simp), List.nil_append]
      exact if_pos (by rw [hd]; rfl)
    · exact ⟨'=', ['='], rfl, heq.1⟩
    · exact ⟨'!', ['='], rfl, hbang.1⟩
    · exact ⟨'<', ['='], rfl, (hlt (hf.2 (.inr rfl))).1⟩
    · exact ⟨'>', ['='], rfl, hgt.1⟩
    · exact ⟨'&', ['&'], rfl, hand.1⟩
    · exact ⟨'|', ['|'], rfl, hor.1⟩

/-- A numeral that starts with a point goes on with a digit. -/
theorem Numeral.digits_behind_point {w f e cs : List Char} (h : Numeral w f e)
    (hcs : w ++ f ++ e = '.' :: cs) (rest : List Char) : digits (cs ++ rest) ≠ [] := by
  cases w with
  | cons x w =>
    have hx := h.whole x (by simp)
    obtain ⟨rfl, -⟩ := List.cons.inj hcs
    simp at hx
  | nil =>
    have hlen := h.digit
    rcases h.frac with rfl | ⟨ds, rfl, hds⟩
    · simp at hlen
    · obtain ⟨-, rfl⟩ := List.cons.inj hcs
      cases ds with
      | nil => simp at hlen
      | cons d ds =>
        have hd := hds d (by simp)
        simp [digits, hd]

/-- A text that starts with a numeral is scanned as a number. -/
theorem Numeral.scan_number {w f e : List Char} (h : Numeral w f e) (rest : List Char)
    (path : Bool) :
    ∃ c cs, w ++ f ++ e ++ rest = c :: cs ∧ gap .blank (c :: cs) = [] ∧
      scan path c cs = (.number, numeral (c :: cs)) := by
  obtain ⟨c, cs, hcs, hc⟩ := h.head
  have hpoint := @Numeral.digits_behind_point _ _ _ cs h
  rw [hcs] at hpoint ⊢
  refine ⟨c, cs ++ rest, rfl, ?_⟩
  rcases hc with hc | rfl
  · have h1 : c ≠ '/' := by rintro rfl; simp at hc
    have h2 : c ≠ '<' := by rintro rfl; simp at hc
    refine ⟨(gap_eq_nil_iff _ _).2 ⟨not_blank_of_digit hc, fun h => absurd h h1⟩, ?_⟩
    rw [scan_eq_scanFrom (fun _ => h2), scanFrom_digit hc]
  · refine ⟨(gap_eq_nil_iff _ _).2 ⟨by decide, by simp⟩, ?_⟩
    rw [scan_eq_scanFrom (by simp)]
    show (if (digits (cs ++ rest)).isEmpty then _ else _) = _
    rw [if_neg (by simpa using hpoint rfl rest)]

theorem Numeral.rescan {w f e rest : List Char} (h : Numeral w f e) (hs : EndsNumber rest.head?)
    (path : Bool) :
    ∃ c cs, w ++ f ++ e ++ rest = c :: cs ∧ gap .blank (c :: cs) = [] ∧
      scan path c cs = (.number, w ++ f ++ e) := by
  obtain ⟨c, cs, hcs, hgap, hscan⟩ := h.scan_number rest path
  refine ⟨c, cs, hcs, hgap, ?_⟩
  rw [hscan, ← hcs, h.numeral_append hs]

/-- The scanner gives a token back, whatever follows that does not go on with it. -/
theorem Spelling.rescan {k : TokenKind} {text : List Char} (h : Spelling k text) {path : Bool}
    {rest : List Char} (hf : Fits path k) (hs : Stops k rest.head?) :
    ∃ c cs, text ++ rest = c :: cs ∧ gap .blank (c :: cs) = [] ∧ scan path c cs = (k, text) := by
  have hgap : ∀ {c : Char} {xs : List Char}, Text.isBlank c = false → c ≠ '/' →
      gap .blank (c :: xs) = [] :=
    fun hb hc => (gap_eq_nil_iff _ _).2 ⟨hb, fun h => absurd h hc⟩
  cases h with
  | mark hk =>
    obtain ⟨c, cs, ht, hg, hscan⟩ := mark_rescan hk hf hs
    exact ⟨c, cs ++ rest, by rw [ht]; rfl, hg, hscan⟩
  | keyword hk =>
    have hr : ∀ x, rest.head? = some x → isWordChar x = false := by
      cases k <;> simp_all [Stops, isReserved]
    obtain ⟨c, cs, ht, hb, h1, h2, hscan⟩ := keyword_rescan hk hr
    refine ⟨c, cs ++ rest, by rw [ht]; rfl, hgap hb h1, ?_⟩
    rw [scan_eq_scanFrom (fun _ => h2), hscan]
  | @identifier c cs hb hd hc hcs hk =>
    have h1 : c ≠ '/' := by rintro rfl; exact absurd hc (by decide)
    have h2 : c ≠ '<' := by rintro rfl; exact absurd hc (by decide)
    refine ⟨c, cs ++ rest, rfl, hgap hb h1, ?_⟩
    rw [scan_eq_scanFrom (fun _ => h2), scanFrom_letter hd hc hcs hs, hk]
    rfl
  | @special cs hcs =>
    refine ⟨'$', cs ++ rest, rfl, hgap (by decide) (by decide), ?_⟩
    rw [scan_eq_scanFrom (by simp)]
    show (TokenKind.special, '$' :: (cs ++ rest).takeWhile isWordChar) = _
    rw [takeWhile_append_stop hcs hs]
  | number hn => exact hn.rescan hs path
  | @string cs hst =>
    refine ⟨'"', cs ++ rest, rfl, hgap (by decide) (by decide), ?_⟩
    rw [scan_eq_scanFrom (by simp)]
    show (if (stringTail (cs ++ rest)).2 then TokenKind.string else .error,
      '"' :: (stringTail (cs ++ rest)).1) = _
    rw [stringTail_append hst]
    rfl
  | @path cs hcs =>
    refine ⟨'<', cs ++ ['>'] ++ rest, rfl, hgap (by decide) (by decide), ?_⟩
    unfold scan
    rw [if_pos ⟨hf.1 rfl, rfl⟩, List.append_assoc]
    show (if (pathTail (cs ++ '>' :: rest)).2 then TokenKind.path else .error,
      '<' :: (pathTail (cs ++ '>' :: rest)).1) = _
    rw [pathTail_append hcs]
    rfl

theorem Scanned.spelling {k : TokenKind} {text : List Char} (h : Scanned k text) (he : k ≠ .error) :
    Spelling k text := by
  obtain ⟨path, x, xs, hg, hs⟩ := h
  exact (scan_spelling hg hs he).1

theorem Spelling.ne_eof {k : TokenKind} {text : List Char} (h : Spelling k text) : k ≠ .eof := by
  rintro rfl
  generalize hk : TokenKind.eof = k at h
  cases h with
  | mark hm | keyword hm => subst hk; simp [isMark, isReserved] at hm
  | _ => cases hk

/-- Only the closing token is an `eof`. -/
theorem Scanned.ne_eof {k : TokenKind} {text : List Char} (h : Scanned k text) : k ≠ .eof := by
  by_cases he : k = .error
  · rw [he]
    decide
  · exact (h.spelling he).ne_eof

/-- A kind with one spelling has that spelling. -/
theorem Spelling.text_eq {k : TokenKind} {text : List Char} (h : Spelling k text)
    (hk : k.isFixed = true) : text = k.text.toList := by
  cases h with
  | mark _ | keyword _ => rfl
  | _ => simp [isFixed, isMark, isReserved] at hk

end Lexer
end Scad
