import Mathlib.Data.List.DropRight
import Scad.Proofs.Token.Spelling

/-!
# Nothing of a source is lost

The tokens of a source stand in order, each over its own text, and what is left out between them is
nothing but blanks and comments. Main statement: `tokenize_lossless`. It says what blanks and
comments are (`Filler`) and what the numbers in a position count (`Position.Marks`) without the
scanner.
-/

namespace Scad

/-! ## Positions -/

/-- A point between two characters of the source. Its byte is the size of the text before it, its
line counts the newlines in that text, and its column the characters since the last one. -/
def Position.Marks (source : List Char) (p : Position) : Prop :=
  ∃ before, before <+: source ∧
    p = ⟨Text.byteSize before, before.count '\n', (before.rtakeWhile (· ≠ '\n')).length⟩

namespace Position

/-- Where a text ends that starts at the origin. -/
theorem after_eq (cs : List Char) :
    Position.after {} cs =
      ⟨Text.byteSize cs, cs.count '\n', (cs.rtakeWhile (· ≠ '\n')).length⟩ := by
  induction cs using List.reverseRecOn with
  | nil => rfl
  | append_singleton cs c ih =>
    rw [after_append, ih]
    by_cases hc : c = '\n'
    · simp [next, hc]
    · simp [next, hc]

theorem marks_after (before after : List Char) :
    (Position.after {} before).Marks (before ++ after) :=
  ⟨before, List.prefix_append before after, after_eq before⟩

theorem Marks.byte_le {source : List Char} {p : Position} (h : p.Marks source) :
    p.byte ≤ Text.byteSize source := by
  obtain ⟨before, ⟨after, rfl⟩, rfl⟩ := h
  simp

end Position

/-! ## Blanks and comments -/

/-- A text of blanks and comments. A line comment goes up to the end of its line and a block comment
up to the first closing mark behind its opening one. Only where the source ends may a comment end
without its newline or its mark. -/
inductive Filler (atEnd : Prop) : List Char → Prop
  | nil : Filler atEnd []
  | blank {c : Char} {cs : List Char} (hc : Text.isBlank c = true) (h : Filler atEnd cs) :
      Filler atEnd (c :: cs)
  | line {body cs : List Char} (hb : '\n' ∉ body) (h : Filler atEnd cs) :
      Filler atEnd ('/' :: '/' :: (body ++ '\n' :: cs))
  | lastLine {body : List Char} (hb : '\n' ∉ body) (he : atEnd) : Filler atEnd ('/' :: '/' :: body)
  | block {body cs : List Char} (hb : ¬ ['*', '/'] <:+: body) (h : Filler atEnd cs) :
      Filler atEnd ('/' :: '*' :: (body ++ '*' :: '/' :: cs))
  | openBlock {body : List Char} (hb : ¬ ['*', '/'] <:+: body) (he : atEnd) :
      Filler atEnd ('/' :: '*' :: body)

theorem Filler.mono {p q : Prop} {g : List Char} (h : Filler p g) (hpq : p → q) : Filler q g := by
  induction h with
  | nil => exact .nil
  | blank hc _ ih => exact .blank hc ih
  | line hb _ ih => exact .line hb ih
  | lastLine hb he => exact .lastLine hb (hpq he)
  | block hb _ ih => exact .block hb ih
  | openBlock hb he => exact .openBlock hb (hpq he)

namespace Lexer

/-- What a gap is made of when it begins inside a line comment, inside a block comment, or outside of
both. -/
def Gap.Fills (atEnd : Prop) : Gap → List Char → Prop
  | .blank, g => Filler atEnd g
  | .lineComment, g =>
    ∃ body, '\n' ∉ body ∧ ((∃ cs, g = body ++ '\n' :: cs ∧ Filler atEnd cs) ∨ g = body ∧ atEnd)
  | .blockComment, g =>
    ∃ body, ¬ ['*', '/'] <:+: body ∧
      ((∃ cs, g = body ++ '*' :: '/' :: cs ∧ Filler atEnd cs) ∨ g = body ∧ atEnd)

/-- One more character in a comment does not close it, unless it makes up the closing mark. -/
theorem not_closes_cons {c : Char} {body : List Char} (hb : ¬ ['*', '/'] <:+: body)
    (hc : c = '*' → body.head? ≠ some '/') : ¬ ['*', '/'] <:+: c :: body := by
  intro h
  rcases List.infix_cons_iff.1 h with hstart | hinner
  · obtain ⟨hstar, rest, hrest⟩ := List.cons_prefix_cons.1 hstart
    exact hc hstar.symm (by rw [← hrest]; rfl)
  · exact hb hinner

/-- The gap at the start of a text consists of blanks and comments, and of all the text if a comment
is left open in it. -/
theorem gap_fills (st : Gap) (cs : List Char) : st.Fills (gap st cs = cs) (gap st cs) := by
  fun_induction gap st cs with
  | case1 st =>
    cases st with
    | blank => exact .nil
    | lineComment => exact ⟨[], by simp, .inr ⟨rfl, rfl⟩⟩
    | blockComment => exact ⟨[], by simp, .inr ⟨rfl, rfl⟩⟩
  | case2 c cs ih =>
    by_cases hc : c = '\n'
    · subst hc
      simp only [List.cons.injEq, true_and, if_true] at ih ⊢
      exact ⟨[], by simp, .inl ⟨_, rfl, ih⟩⟩
    · simp only [List.cons.injEq, true_and, if_neg hc] at ih ⊢
      obtain ⟨body, hb, h⟩ := ih
      refine ⟨c :: body, by simp [hb, Ne.symm hc], ?_⟩
      rcases h with ⟨rest, h, hf⟩ | ⟨h, he⟩
      · exact .inl ⟨rest, by rw [h]; rfl, hf⟩
      · exact .inr ⟨by rw [h], he⟩
  | case3 cs ih =>
    simp only [List.cons.injEq, true_and] at ih ⊢
    exact ⟨[], by simp, .inl ⟨_, rfl, ih⟩⟩
  | case4 c cs hcs ih =>
    simp only [List.cons.injEq, true_and] at ih ⊢
    obtain ⟨body, hb, h⟩ := ih
    -- the body goes on with what the text goes on with, and that is no closing mark
    have hbody : body <+: cs := by
      refine List.IsPrefix.trans ?_ (gap_starts .blockComment cs)
      rcases h with ⟨rest, h, -⟩ | ⟨h, -⟩
      · exact ⟨_, h.symm⟩
      · exact ⟨[], by simp [h]⟩
    have hb' : ¬ ['*', '/'] <:+: c :: body := by
      refine not_closes_cons hb fun hc hhead => ?_
      obtain ⟨ys, rfl⟩ := List.head?_eq_some_iff.1 hhead
      obtain ⟨zs, rfl⟩ := hbody
      exact hcs _ hc rfl
    refine ⟨c :: body, hb', ?_⟩
    rcases h with ⟨rest, h, hf⟩ | ⟨h, he⟩
    · exact .inl ⟨rest, by rw [h]; rfl, hf⟩
    · exact .inr ⟨by rw [h], he⟩
  | case5 cs ih =>
    simp only [List.cons.injEq, true_and] at ih ⊢
    obtain ⟨body, hb, ⟨rest, h, hf⟩ | ⟨h, he⟩⟩ := ih
    · show Filler _ _
      rw [h] at hf ⊢
      exact .line hb hf
    · show Filler _ _
      rw [h] at he ⊢
      exact .lastLine hb he
  | case6 cs ih =>
    simp only [List.cons.injEq, true_and] at ih ⊢
    obtain ⟨body, hb, ⟨rest, h, hf⟩ | ⟨h, he⟩⟩ := ih
    · show Filler _ _
      rw [h] at hf ⊢
      exact .block hb hf
    · show Filler _ _
      rw [h] at he ⊢
      exact .openBlock hb he
  | case7 c cs h1 h2 hb ih =>
    simp only [List.cons.injEq, true_and] at ih ⊢
    exact .blank hb ih
  | case8 => exact .nil

end Lexer

/-! ## Tokens and what stands between them -/

/-- In front of each token, from the end of the token before it, there are only blanks and comments.
The last token is the one at the end of the source. -/
def Token.Woven (source : List Char) : Nat → List Token → Prop
  | _, [] => True
  | start, t :: ts =>
    (∃ g, Text.slice? source start t.region.start.byte = some g ∧ Filler (ts = []) g) ∧
      Token.Woven source t.region.stop.byte ts

namespace Lexer

/-- The text in front of a position is the slice up to it. -/
theorem slice?_gap (before g rest : List Char) :
    Text.slice? (before ++ (g ++ rest)) (Position.after {} before).byte
      ((Position.after {} before).after g).byte = some g := by
  simpa [Position.after_byte] using Text.slice?_append before g rest

theorem Lexes.woven {path : Bool} {p : Position} {cs : List Char} {ts : List Token}
    {stop : Position} (h : Lexes path p cs ts stop) :
    ∀ before, p = Position.after {} before →
      Token.Woven (before ++ cs) p.byte (ts ++ [Token.eofAt stop]) := by
  induction h with
  | @nil path p cs hg =>
    rintro before rfl
    have hfills := gap_fills .blank cs
    rw [hg] at hfills
    refine ⟨⟨cs, ?_, ?_⟩, trivial⟩
    · simpa [Token.eofAt, Region.emptyAt] using slice?_gap before cs []
    · exact hfills.mono fun _ => rfl
  | @cons path p g x xs kind text rest ts stop hg hscan hr _ ih =>
    rintro before rfl
    have hfills := gap_fills .blank (g ++ x :: xs)
    rw [hg] at hfills
    have hrest := ih (before ++ g ++ text) (by simp [Position.after_append])
    rw [hr]
    refine ⟨⟨g, slice?_gap before g (text ++ rest), hfills.mono fun h => ?_⟩, ?_⟩
    · simp at h
    · simpa [Token.Woven] using hrest

/-- Both ends of a token are points of the source. -/
theorem Lexes.marks {path : Bool} {p : Position} {cs : List Char} {ts : List Token}
    {stop : Position} (h : Lexes path p cs ts stop) :
    ∀ before, p = Position.after {} before → ∀ t ∈ ts,
      t.region.start.Marks (before ++ cs) ∧ t.region.stop.Marks (before ++ cs) := by
  induction h with
  | nil => simp
  | @cons path p g x xs kind text rest ts stop hg hscan hr _ ih =>
    rintro before rfl t ht
    rw [hr]
    rcases List.mem_cons.1 ht with rfl | ht
    · constructor
      · simpa [Position.after_append] using Position.marks_after (before ++ g) (text ++ rest)
      · simpa [Position.after_append] using Position.marks_after (before ++ g ++ text) rest
    · simpa using ih (before ++ g ++ text) (by simp [Position.after_append]) t ht

end Lexer

theorem tokenize_marks (source : List Char) : ∀ t ∈ (tokenize source).all,
    t.region.start.Marks source ∧ t.region.stop.Marks source := by
  intro t ht
  rcases List.mem_append.1 ht with ht | ht
  · exact (Lexer.tokenize_lexes source).marks [] rfl t ht
  · obtain rfl := List.mem_singleton.1 ht
    have hstop : (tokenize source).stop.Marks source := by
      simpa [tokenize_stop] using Position.marks_after source []
    exact ⟨hstop, hstop⟩

theorem tokenize_all_ordered (source : List Char) : Token.Ordered (tokenize source).all := by
  refine List.pairwise_append.2 ⟨tokenize_ordered source, List.pairwise_singleton _ _, ?_⟩
  intro a ha b hb
  obtain rfl := List.mem_singleton.1 hb
  exact (Lexer.tokenize_lexes source).le_stop a ha

/-- The tokens of a source are in order and do not overlap. Each but the last stands over its own
text, which is not empty, and the last one is the only one that marks the end of the source. Between
the tokens there are only blanks and comments, and every end of a token is a point of the source with
its byte, line and column. -/
theorem tokenize_lossless (source : List Char) :
    Token.Ordered (tokenize source).all ∧
      (∀ t ∈ (tokenize source).tokens,
        t.region.start.byte < t.region.stop.byte ∧
          Text.slice? source t.region.start.byte t.region.stop.byte = some t.text.toList) ∧
      Token.Woven source 0 (tokenize source).all ∧
      (∃ p, p.byte = Text.byteSize source ∧
        (tokenize source).all.getLast? = some (Token.eofAt p) ∧
        (tokenize source).all.filter (·.kind = .eof) = [Token.eofAt p]) ∧
      ∀ t ∈ (tokenize source).all,
        t.region.start.Marks source ∧ t.region.stop.Marks source := by
  have hlexes := Lexer.tokenize_lexes source
  have hsound := tokenize_sound source
  refine ⟨tokenize_all_ordered source,
    fun t ht => ⟨(hsound t ht).start_lt_stop, (hsound t ht).slice⟩, hlexes.woven [] rfl, ?_,
    tokenize_marks source⟩
  refine ⟨(tokenize source).stop, by simp [tokenize_stop, Position.after_byte], ?_, ?_⟩
  · simp [Lexer.Tokens.all, Lexer.Tokens.eof]
  · have hnone : (tokenize source).tokens.filter (·.kind = .eof) = [] := by
      refine List.filter_eq_nil_iff.2 fun t ht => ?_
      simpa using (hsound t ht).scanned.ne_eof
    simp [Lexer.Tokens.all, Lexer.Tokens.eof, hnone, Token.eofAt]

end Scad
