import Scad.Proofs.Token.Spelling

/-!
# Tokens of two texts joined by a line break

A line break ends every token that is not an open string, and it ends a line comment. So the tokens
of two texts with a line break between them are those of the first text, followed by those of the
second one, moved. The one exception is a block comment that the first text leaves open.
-/

namespace Scad

/-! ## Moving -/

/-- The point that is this many bytes and lines further on, in the same column. -/
def Position.moved (bytes lines : Nat) (p : Position) : Position :=
  ⟨p.byte + bytes, p.line + lines, p.column⟩

def Region.moved (bytes lines : Nat) (r : Region) : Region :=
  ⟨r.start.moved bytes lines, r.stop.moved bytes lines⟩

def Token.moved (bytes lines : Nat) (t : Token) : Token :=
  { t with region := t.region.moved bytes lines }

section

variable (bytes lines : Nat)

theorem Position.moved_next (p : Position) (c : Char) :
    (p.moved bytes lines).next c = (p.next c).moved bytes lines := by
  unfold next
  split
  · simp [moved, Nat.add_right_comm]
  · simp [moved, Nat.add_right_comm]

theorem Position.moved_after (p : Position) (cs : List Char) :
    (p.moved bytes lines).after cs = (p.after cs).moved bytes lines := by
  induction cs generalizing p with
  | nil => rfl
  | cons c cs ih => rw [after_cons, after_cons, moved_next, ih]

end

/-- Behind a text and a line break everything stands where it stood, moved by the text. -/
theorem Position.after_break (cs : List Char) :
    (after {} cs).next '\n' =
      moved (Text.byteSize cs + 1) (cs.count '\n' + 1) {} := by
  have hline : ∀ (cs : List Char) (p : Position), (p.after cs).line = p.line + cs.count '\n' := by
    intro cs
    induction cs with
    | nil => intro p; rfl
    | cons c cs ih =>
      intro p
      rw [after_cons, ih, next]
      by_cases hc : c = '\n'
      · rw [if_pos hc, hc, List.count_cons_self]
        dsimp only
        omega
      · rw [if_neg hc, List.count_cons_of_ne hc]
  have hsize : '\n'.utf8Size = 1 := by decide
  rw [next, if_pos rfl, after_byte, hline, hsize]
  simp [moved]

namespace Lexer

theorem Lexes.moved (bytes lines : Nat) {path : Bool} {p : Position} {cs : List Char}
    {ts : List Token} {stop : Position} (h : Lexes path p cs ts stop) :
    Lexes path (p.moved bytes lines) cs (ts.map (Token.moved bytes lines))
      (stop.moved bytes lines) := by
  induction h with
  | nil hg =>
    rw [← Position.moved_after]
    exact .nil hg
  | @cons path p g x xs kind text rest ts stop hg hs hr _ ih =>
    rw [← Position.moved_after, ← Position.moved_after] at ih
    have hcons := Lexes.cons (p := p.moved bytes lines) hg hs hr ih
    rw [Position.moved_after, Position.moved_after] at hcons
    exact hcons

/-! ## Gaps -/

/-- Whether a text that is all gap ends inside a block comment. -/
def leavesComment : Gap → List Char → Bool
  | .blockComment, [] => true
  | _, [] => false
  | .lineComment, c :: cs => leavesComment (if c = '\n' then .blank else .lineComment) cs
  | .blockComment, '*' :: '/' :: cs => leavesComment .blank cs
  | .blockComment, _ :: cs => leavesComment .blockComment cs
  | .blank, '/' :: '/' :: cs => leavesComment .lineComment cs
  | .blank, '/' :: '*' :: cs => leavesComment .blockComment cs
  | .blank, _ :: cs => leavesComment .blank cs

theorem head_break {cs rest ys : List Char} {x : Char} (h : cs ++ '\n' :: rest = x :: ys)
    (hx : x ≠ '\n') : ∃ zs, cs = x :: zs := by
  cases cs with
  | nil => exact absurd (List.cons.inj h).1.symm hx
  | cons c cs => exact ⟨cs, by rw [(List.cons.inj h).1]⟩

/-- A gap goes on behind a line break as if the text started there. -/
theorem gap_break (st : Gap) (g rest : List Char) : gap st g = g → leavesComment st g = false →
    gap st (g ++ '\n' :: rest) = g ++ '\n' :: gap .blank rest := by
  fun_induction gap st g with
  | case1 st =>
    intro _ hc
    cases st with
    | blank => simp [gap, Text.isBlank]
    | lineComment => simp [gap]
    | blockComment => simp [leavesComment] at hc
  | case2 c cs ih =>
    intro hg hc
    simp only [List.cons.injEq, true_and] at hg
    rw [leavesComment] at hc
    rw [List.cons_append, gap, ih hg hc, List.cons_append]
  | case3 cs ih =>
    intro hg hc
    simp only [List.cons.injEq, true_and] at hg
    rw [leavesComment] at hc
    simp [gap, ih hg hc]
  | case4 c cs hne ih =>
    intro hg hc
    simp only [List.cons.injEq, true_and] at hg
    rw [leavesComment] at hc
    · rw [List.cons_append, gap, ih hg hc, List.cons_append]
      intro ys hstar h
      obtain ⟨zs, hcs⟩ := head_break h (by decide)
      exact hne zs hstar hcs
    · exact hne
  | case5 cs ih | case6 cs ih =>
    intro hg hc
    simp only [List.cons.injEq, true_and] at hg
    rw [leavesComment] at hc
    simp [gap, ih hg hc]
  | case7 c cs h1 h2 hb ih =>
    intro hg hc
    simp only [List.cons.injEq, true_and] at hg
    rw [leavesComment] at hc
    · rw [List.cons_append, gap, if_pos hb, ih hg hc, List.cons_append]
      · intro ys hslash h
        obtain ⟨zs, hcs⟩ := head_break h (by decide)
        exact h1 zs hslash hcs
      · intro ys hslash h
        obtain ⟨zs, hcs⟩ := head_break h (by decide)
        exact h2 zs hslash hcs
    · exact h1
    · exact h2
  | case8 c cs h1 h2 hb =>
    intro hg
    cases hg

/-- The gap in front of a token does not depend on what follows the first character of the token. -/
theorem gap_before (st : Gap) (cs : List Char) : ∀ g x xs ys, cs = g ++ x :: xs → gap st cs = g →
    gap .blank (x :: ys) = [] → gap st (g ++ x :: ys) = g := by
  -- what follows `g` starts with the same character in both texts
  have head : ∀ {g xs ys zs : List Char} {x y : Char}, g ++ x :: ys = y :: zs →
      ∃ zs', g ++ x :: xs = y :: zs' := by
    intro g xs ys zs x y h
    cases g with
    | nil => exact ⟨xs, by rw [(List.cons.inj h).1]; rfl⟩
    | cons c g => exact ⟨g ++ x :: xs, by rw [← (List.cons.inj h).1]; rfl⟩
  fun_induction gap st cs with
  | case1 st => intro g x xs ys e; simp at e
  | case2 c cs ih =>
    intro g x xs ys e h hy
    cases g with
    | nil => cases h
    | cons d g =>
      obtain ⟨rfl, rfl⟩ := List.cons.inj e
      rw [List.cons_append, gap, ih g x xs ys rfl (List.cons.inj h).2 hy]
  | case3 cs ih | case5 cs ih | case6 cs ih =>
    intro g x xs ys e h hy
    subst h
    rw [List.cons_append, List.cons_append, gap, ih _ x xs ys (by simpa using e) rfl hy]
  | case4 c cs hne ih =>
    intro g x xs ys e h hy
    cases g with
    | nil => cases h
    | cons d g =>
      obtain ⟨rfl, rfl⟩ := List.cons.inj e
      rw [List.cons_append, gap, ih g x xs ys rfl (List.cons.inj h).2 hy]
      intro zs hstar hzs
      obtain ⟨zs', hzs'⟩ := head hzs
      exact hne zs' hstar hzs'
  | case7 c cs h1 h2 hb ih =>
    intro g x xs ys e h hy
    cases g with
    | nil => cases h
    | cons d g =>
      obtain ⟨rfl, rfl⟩ := List.cons.inj e
      rw [List.cons_append, gap, if_pos hb, ih g x xs ys rfl (List.cons.inj h).2 hy]
      · intro zs hslash hzs
        obtain ⟨zs', hzs'⟩ := head hzs
        exact h1 zs' hslash hzs'
      · intro zs hslash hzs
        obtain ⟨zs', hzs'⟩ := head hzs
        exact h2 zs' hslash hzs'
  | case8 c cs h1 h2 hb =>
    intro g x xs ys e h hy
    subst h
    exact hy

/-! ## Scanners -/

/-- A token that starts with a quote is a string, or it is left open and a fault. -/
theorem closed_of_scan {path : Bool} {c : Char} {cs : List Char} {k : TokenKind} {text : List Char}
    (h : scan path c cs = (k, text)) (he : k ≠ .error) : c = '"' → (stringTail cs).2 = true := by
  rintro rfl
  by_contra hopen
  rw [scan_eq_scanFrom (by simp)] at h
  have hk := congrArg Prod.fst h
  simp only [scanFrom, single?, hopen] at hk
  exact he hk.symm

section

variable (rest : List Char)

theorem takeWhile_break {p : Char → Bool} (hp : p '\n' = false) (cs : List Char) :
    (cs ++ '\n' :: rest).takeWhile p = cs.takeWhile p := by
  induction cs with
  | nil => simp [hp]
  | cons c cs ih => simp only [List.cons_append, List.takeWhile_cons, ih]

theorem digits_break (cs : List Char) : digits (cs ++ '\n' :: rest) = digits cs :=
  takeWhile_break rest (by decide) cs

theorem drop_break {a cs : List Char} (h : a <+: cs) :
    (cs ++ '\n' :: rest).drop a.length = cs.drop a.length ++ '\n' :: rest :=
  List.drop_append_of_le_length h.length_le

theorem fraction_break (cs : List Char) : fraction (cs ++ '\n' :: rest) = fraction cs := by
  cases cs with
  | nil => rfl
  | cons c cs =>
    by_cases hc : c = '.'
    · rw [hc, List.cons_append, fraction, fraction, digits_break]
    · simp [fraction, hc]

theorem exponentSign_break (cs : List Char) :
    exponentSign (cs ++ '\n' :: rest) = exponentSign cs := by
  cases cs with
  | nil => rfl
  | cons c cs =>
    unfold exponentSign
    split <;> simp_all

theorem exponent_break (cs : List Char) : exponent (cs ++ '\n' :: rest) = exponent cs := by
  cases cs with
  | nil => rfl
  | cons c cs =>
    rw [List.cons_append, exponent, exponent, exponentSign_break]
    dsimp only
    rw [drop_break rest (exponentSign_starts cs), digits_break]

theorem numeral_break (cs : List Char) : numeral (cs ++ '\n' :: rest) = numeral cs := by
  unfold numeral
  dsimp only
  rw [digits_break, drop_break rest (digits_starts cs), fraction_break,
    drop_break rest (append_starts (digits_starts cs) (fraction_starts _)), exponent_break]

theorem stringTail_break (cs : List Char) : (stringTail cs).2 = true →
    stringTail (cs ++ '\n' :: rest) = stringTail cs := by
  fun_induction stringTail cs with
  | case1 => intro h; cases h
  | case2 cs => intro _; rfl
  | case3 c cs tail ih =>
    intro h
    rw [List.cons_append, List.cons_append, stringTail, ih h]
  | case4 c cs hq hb tail ih =>
    intro h
    rw [List.cons_append, stringTail, ih h]
    · exact hq
    · -- a backslash at the very end leaves the string open
      intro d ds hc hds
      cases cs with
      | nil => cases h
      | cons d cs => exact hb d cs hc rfl

theorem pathTail_break (cs : List Char) : pathTail (cs ++ '\n' :: rest) = pathTail cs := by
  unfold pathTail
  dsimp only
  rw [takeWhile_break rest (by decide), drop_break rest ( List.takeWhile_prefix _)]
  generalize cs.drop _ = ds
  cases ds with
  | nil => rfl
  | cons d ds =>
    split <;> simp_all

theorem oneOrTwo_break (x y : Char) (double single : TokenKind) (cs : List Char) (hy : y ≠ '\n') :
    oneOrTwo x y double single (cs ++ '\n' :: rest) = oneOrTwo x y double single cs := by
  cases cs with
  | nil => simp [oneOrTwo, hy.symm]
  | cons c cs => rfl

theorem scanFrom_break {c : Char} {cs : List Char}
    (hclosed : c = '"' → (stringTail cs).2 = true) :
    scanFrom c (cs ++ '\n' :: rest) = scanFrom c cs := by
  unfold scanFrom
  split
  · rfl
  split
  case h_7 =>
    rw [digits_break]
    split
    · rfl
    · rw [← List.cons_append, numeral_break]
  case h_8 => rw [stringTail_break rest cs (hclosed rfl)]
  case h_9 => rw [takeWhile_break rest (by decide)]
  case h_10 =>
    split
    · rw [← List.cons_append, numeral_break]
    split
    · dsimp only
      rw [takeWhile_break rest (by decide)]
    · rfl
  all_goals exact oneOrTwo_break rest _ _ _ _ _ (by decide)

/-- A line break behind the text changes no token in it, unless a string is left open. -/
theorem scan_break {path : Bool} {c : Char} {cs : List Char}
    (hclosed : c = '"' → (stringTail cs).2 = true) :
    scan path c (cs ++ '\n' :: rest) = scan path c cs := by
  unfold scan
  rw [pathTail_break, scanFrom_break rest hclosed]

end

/-! ## All tokens -/

theorem getLast?_cons_map {α : Type} (f : Token → α) (t : Token) (ts : List Token) (a : α) :
    ((t :: ts).getLast?.map f).getD a = (ts.getLast?.map f).getD (f t) := by
  cases ts with
  | nil => rfl
  | cons u us => simp [List.getLast?_cons]

/-- A text ends with a gap, behind its last token. If no comment is open there, the tokens of what
follows a line break are the tokens of a text of its own. -/
theorem Lexes.break {path : Bool} {p : Position} {cs : List Char} {ts : List Token}
    {stop : Position} (h : Lexes path p cs ts stop) (he : ∀ t ∈ ts, t.kind ≠ .error)
    (hpath : (ts.getLast?.map (·.kind.opensPath)).getD path = false) :
    ∃ front g, cs = front ++ g ∧
      (ts.getLast?.map (·.region.stop.byte)).getD p.byte = p.byte + Text.byteSize front ∧
      (leavesComment .blank g = false → ∀ rest us stop',
        Lexes false ((p.after cs).next '\n') rest us stop' →
          Lexes path p (cs ++ '\n' :: rest) (ts ++ us) stop') := by
  induction h with
  | @nil path p cs hg =>
    refine ⟨[], cs, rfl, rfl, fun hc rest us stop' hrest => ?_⟩
    have hgap := gap_break .blank cs rest hg hc
    cases hrest with
    | nil hg' =>
      rw [hg'] at hgap
      have hnil := @Lexes.nil path p _ hgap
      rwa [Position.after_append, Position.after_cons] at hnil
    | @cons _ _ g x xs kind text after us _ hg' hs hr hlex =>
      obtain rfl : path = false := hpath
      have hjoin : cs ++ '\n' :: (g ++ x :: xs) = (cs ++ '\n' :: g) ++ x :: xs := by simp
      rw [hg', hjoin] at hgap
      have hplace : p.after (cs ++ '\n' :: g) = ((p.after cs).next '\n').after g := by
        rw [Position.after_append, Position.after_cons]
      rw [← hplace] at hlex
      have hcons := Lexes.cons (p := p) hgap hs hr hlex
      rwa [hplace, ← hjoin] at hcons
  | @cons path p g x xs kind text rest ts stop hg hs hr _ ih =>
    rw [getLast?_cons_map] at hpath
    obtain ⟨front, g', rfl, hbyte, hgo⟩ := ih (fun t ht => he t (List.mem_cons_of_mem _ ht)) hpath
    refine ⟨g ++ text ++ front, g', by rw [hr]; simp, ?_, fun hc rest' us stop' hrest => ?_⟩
    · rw [getLast?_cons_map, hbyte]
      simp only [Position.after_byte, Text.byteSize_append]
      omega
    · have hplace : p.after (g ++ x :: xs) = ((p.after g).after text).after (front ++ g') := by
        rw [hr, Position.after_append, Position.after_append]
      rw [hplace] at hrest
      have hnone := gap_behind .blank _ g x xs rfl hg
      have hnone' : gap .blank (x :: (xs ++ '\n' :: rest')) = [] := by
        rw [gap_eq_nil_iff] at hnone ⊢
        refine ⟨hnone.1, fun hx => ?_⟩
        cases xs with
        | nil => simp
        | cons y ys => exact hnone.2 hx
      have hcons := Lexes.cons (p := p) (gap_before .blank _ g x xs _ rfl hg hnone')
        ((scan_break rest' (closed_of_scan hs (he _ (List.mem_cons_self ..)))).trans hs)
        (by rw [← List.cons_append, hr, List.append_assoc]) (hgo hc rest' us stop' hrest)
      simpa using hcons

end Lexer

/-- What stands behind the last token of a source. -/
def trailing (source : List Char) : List Char :=
  (Text.slice? source (((tokenize source).tokens.getLast?.map (·.region.stop.byte)).getD 0)
    (Text.byteSize source)).getD []

/-- Whether a source ends inside a block comment. -/
def endsInComment (source : List Char) : Bool := Lexer.leavesComment .blank (trailing source)

/-- The tokens of two texts with a line break between them. -/
theorem tokenize_break {a : List Char} (b : List Char)
    (he : ∀ t ∈ (tokenize a).tokens, t.kind ≠ .error)
    (hpath : ∀ t, (tokenize a).tokens.getLast? = some t → t.kind.opensPath = false)
    (hc : endsInComment a = false) :
    tokenize (a ++ '\n' :: b) =
      ⟨(tokenize a).tokens ++
          (tokenize b).tokens.map (Token.moved (Text.byteSize a + 1) (a.count '\n' + 1)),
        (tokenize b).stop.moved (Text.byteSize a + 1) (a.count '\n' + 1)⟩ := by
  obtain ⟨front, g, hsplit, hbyte, hgo⟩ := (Lexer.tokenize_lexes a).break he (by
    cases h : (tokenize a).tokens.getLast? with
    | none => rfl
    | some t => exact hpath t h)
  have htrailing : trailing a = g := by
    have hslice := Text.slice?_append front g []
    rw [List.append_nil, ← hsplit, ← Text.byteSize_append, ← hsplit] at hslice
    have hbyte : (Option.map (fun t => t.region.stop.byte) (tokenize a).tokens.getLast?).getD 0 =
        Text.byteSize front := by simpa using hbyte
    rw [trailing, hbyte, hslice]
    rfl
  rw [endsInComment, htrailing] at hc
  have hb := (Lexer.tokenize_lexes b).moved (Text.byteSize a + 1) (a.count '\n' + 1)
  rw [← Position.after_break] at hb
  obtain ⟨htokens, hstop⟩ := (Lexer.tokenize_lexes (a ++ '\n' :: b)).unique (hgo hc b _ _ hb) rfl
  generalize tokenize (a ++ '\n' :: b) = joined at htokens hstop
  obtain ⟨ts, stop⟩ := joined
  exact congrArg₂ Lexer.Tokens.mk htokens hstop

end Scad
