import Scad.Proofs.Program.Words

/-!
# Printed words can be told apart

Between most words the printer puts a blank. Where it does not, the two words must not run together:
`joins` says for which kinds they do not, and a list of pieces is `legible` if that is so everywhere
in it. The text of a legible list of pieces has exactly its words for tokens (`lexes_render`).
-/

namespace Scad

namespace TokenKind

/-- Marks that go on with no other token. -/
def isDelimiter : TokenKind → Bool
  | lparen | rparen | lbracket | rbracket | comma | semicolon => true
  | _ => false

/-- Words that would go on with a letter. -/
def isWord : TokenKind → Bool
  | identifier | special => true
  | k => k.isReserved

/-- Whether a token of the second kind may stand right behind one of the first. -/
def joins (p k : TokenKind) : Bool :=
  k.isDelimiter ||
    match p with
    | number | assign | lt | gt | slash => false
    | bang => k != assign && k != eqEq
    | dot => k == identifier || k == special
    | p => !p.isWord || k == dot

/-- Whether a word of kind `k` may come next. `prev` is the word before it, and the flag tells that
nothing stands in between. Paths stand behind `include` and `use`, and nothing else does. -/
def follows (prev : Option TokenKind) (glued : Bool) (k : TokenKind) : Bool :=
  match prev with
  | none => k != path
  | some p => (!glued || p.joins k) && (k == path) == p.opensPath

end TokenKind

namespace Piece

open TokenKind

/-- No two words of the list run together. -/
def legible : Option TokenKind → Bool → List Piece → Bool
  | _, _, [] => true
  | prev, glued, word k _ :: ps => follows prev glued k && legible (some k) true ps
  | prev, glued, indent _ :: ps => legible prev glued ps
  | prev, _, _ :: ps => legible prev false ps

/-- The text of a list of pieces. -/
def render (width : Nat) (ps : List Piece) : List Char :=
  (ps.map fun p => (p.text width).toList).flatten

/-- All words of the list are spelled right. -/
def Spelled (ps : List Piece) : Prop := ∀ w ∈ words ps, Lexer.Spelling w.kind w.text.toList

end Piece

namespace Lexer

open TokenKind

/-! ## Kinds that may stand together -/

/-- A character that goes on with no token. -/
def Neutral (c : Char) : Prop :=
  isWordChar c = false ∧ c.isDigit = false ∧ c ≠ '.' ∧ c ≠ 'e' ∧ c ≠ 'E' ∧ c ≠ '=' ∧ c ≠ '/' ∧
    c ≠ '*'

theorem Neutral.stops {c : Char} (h : Neutral c) (k : TokenKind) : Stops k (some c) := by
  obtain ⟨h1, h2, h3, h4, h5, h6, h7, h8⟩ := h
  have hnum : EndsNumber (some c) := by
    intro x hx
    obtain rfl := Option.some.inj hx
    exact ⟨h2, h3, h4, h5⟩
  cases k <;> simp_all [Stops]

theorem stops_none (k : TokenKind) : Stops k none := by
  cases k <;> simp [Stops, EndsNumber]

theorem neutral_blank : Neutral ' ' := by unfold Neutral; decide

theorem neutral_newline : Neutral '\n' := by unfold Neutral; decide

theorem delimiter_head {k : TokenKind} (hk : k.isDelimiter = true) :
    ∃ c, k.text.toList = [c] ∧ Neutral c := by
  cases k with
  | lparen => exact ⟨'(', rfl, by unfold Neutral; decide⟩
  | rparen => exact ⟨')', rfl, by unfold Neutral; decide⟩
  | lbracket => exact ⟨'[', rfl, by unfold Neutral; decide⟩
  | rbracket => exact ⟨']', rfl, by unfold Neutral; decide⟩
  | comma => exact ⟨',', rfl, by unfold Neutral; decide⟩
  | semicolon => exact ⟨';', rfl, by unfold Neutral; decide⟩
  | _ => cases hk

theorem isFixed_of_isDelimiter {k : TokenKind} (hk : k.isDelimiter = true) : k.isFixed = true := by
  revert hk
  cases k <;> decide

/-- A token alone is scanned as itself. -/
theorem Spelling.alone {k : TokenKind} {text : List Char} (h : Spelling k text) :
    ∃ path c cs, text = c :: cs ∧ scan path c cs = (k, text) := by
  obtain ⟨c, cs, hc, -, hscan⟩ := @Spelling.rescan _ _ h (decide (k = .path)) []
    ⟨by simp, by rintro (rfl | rfl) <;> rfl⟩ (stops_none k)
  exact ⟨_, c, cs, by simpa using hc, hscan⟩

/-- Only two kinds start with an equality sign. -/
theorem Spelling.head_eq {k : TokenKind} {text : List Char} (h : Spelling k text)
    (ht : text.head? = some '=') : k = .assign ∨ k = .eqEq := by
  obtain ⟨path, c, cs, rfl, hscan⟩ := h.alone
  obtain rfl : c = '=' := by simpa using ht
  rw [scan_eq_scanFrom (by simp)] at hscan
  have : oneOrTwo '=' '=' .eqEq .assign cs = (k, '=' :: cs) := hscan
  unfold oneOrTwo at this
  split at this
  · exact .inr (Prod.mk.inj this).1.symm
  · exact .inl (Prod.mk.inj this).1.symm

theorem Spelling.head?_append {k : TokenKind} {text : List Char} (h : Spelling k text)
    (rest : List Char) : (text ++ rest).head? = text.head? := by
  obtain ⟨path, c, cs, rfl, -⟩ := h.alone
  rfl

/-- Kinds that may stand together are told apart. -/
theorem stops_of_joins {p k : TokenKind} (h : p.joins k = true) {text : List Char}
    (hk : Spelling k text) (rest : List Char) : Stops p (text ++ rest).head? := by
  rw [hk.head?_append]
  rcases Bool.or_eq_true_iff.1 h with hd | h
  · obtain ⟨c, hc, hn⟩ := delimiter_head hd
    rw [hk.text_eq (isFixed_of_isDelimiter hd), hc]
    exact hn.stops p
  · have word : ∀ {p : TokenKind}, (!p.isWord || k == dot) = true → p.isWord = true →
        ∀ c, text.head? = some c → isWordChar c = false := by
      intro p h hp c hc
      obtain rfl : k = dot := by simpa [hp] using h
      rw [hk.text_eq rfl] at hc
      obtain rfl : '.' = c := Option.some.inj hc
      decide
    cases p with
    | number | assign | lt | gt | slash => cases h
    | bang =>
      intro hc
      rcases hk.head_eq hc with rfl | rfl <;> simp at h
    | dot =>
      intro c hc
      have hk' : k = .identifier ∨ k = .special := by simpa using h
      rcases hk' with rfl | rfl
      · cases hk with
        | identifier _ hd _ _ _ =>
          obtain rfl := Option.some.inj hc
          exact hd
        | mark hm | keyword hm => cases hm
      · cases hk with
        | special _ =>
          obtain rfl := Option.some.inj hc
          decide
        | mark hm | keyword hm => cases hm
    | identifier | special => exact word h rfl
    | _ => exact fun hp => word h hp

end Lexer

/-! ## The text of pieces -/

namespace Piece

open Lexer

@[simp]
theorem render_nil (width : Nat) : render width [] = [] := rfl

@[simp]
theorem render_cons (width : Nat) (p : Piece) (ps : List Piece) :
    render width (p :: ps) = (p.text width).toList ++ render width ps := rfl

theorem toList_join (width : Nat) (ps : List Piece) :
    (String.join (ps.map (text width))).toList = render width ps := by
  rw [String.toList_join, List.flatMap_map, List.flatMap_def, render]

theorem Spelled.tail {p : Piece} {ps : List Piece} (h : Spelled (p :: ps)) : Spelled ps := by
  intro w hw
  refine h w ?_
  cases p <;> simp [hw]

theorem stops_of_legible {k : TokenKind} (width : Nat) {ps : List Piece}
    (h : legible (some k) true ps = true) (hs : Spelled ps) : Stops k (render width ps).head? := by
  induction ps with
  | nil => exact stops_none k
  | cons p ps ih =>
    cases p with
    | word k' s =>
      have hj : k.joins k' = true := by
        simp only [legible, TokenKind.follows, Bool.not_true, Bool.false_or, Bool.and_eq_true] at h
        exact h.1.1
      exact stops_of_joins hj (hs ⟨k', s⟩ (by simp)) _
    | blank => simpa [text] using neutral_blank.stops k
    | newline => simpa [text] using neutral_newline.stops k
    | indent d =>
      rw [render_cons, text, String.toList_ofList]
      cases d * width with
      | zero => exact ih h hs.tail
      | succ n => exact neutral_blank.stops k

/-- Blanks are a gap, up to the token behind them. -/
theorem gap_blanks {g cs : List Char} (hg : ∀ c ∈ g, c = ' ' ∨ c = '\n')
    (hc : gap .blank cs = []) : gap .blank (g ++ cs) = g := by
  induction g with
  | nil => exact hc
  | cons x g ih =>
    have ih := ih fun c hc => hg c (by simp [hc])
    rcases hg x (by simp) with rfl | rfl <;> simp [gap, Text.isBlank, ih]

/-- What is no word is blank. -/
theorem text_blank (width : Nat) {p : Piece} (hp : p.word? = none) :
    ∀ c ∈ (p.text width).toList, c = ' ' ∨ c = '\n' := by
  cases p with
  | word k s => cases hp
  | blank | newline => simp [text]
  | indent d =>
    intro c hc
    rw [text, String.toList_ofList] at hc
    exact .inl (List.eq_of_mem_replicate hc)

/-- The text of legible pieces, behind some blanks, has the words of the pieces for tokens. -/
theorem lexes_render (width : Nat) {ps : List Piece} {prev : Option TokenKind} {glued : Bool}
    (g : List Char) (p : Position) (h : legible prev glued ps = true) (hs : Spelled ps)
    (hg : ∀ c ∈ g, c = ' ' ∨ c = '\n') :
    ∃ ts stop, Lexes ((prev.map (·.opensPath)).getD false) p (g ++ render width ps) ts stop ∧
      ts.map Token.word = words ps := by
  induction ps generalizing prev glued g p with
  | nil =>
    have hgap := @gap_blanks _ [] hg (by simp [gap])
    rw [List.append_nil] at hgap
    exact ⟨[], _, by rw [render_nil, List.append_nil]; exact .nil hgap, rfl⟩
  | cons q ps ih =>
    -- what is no word goes into the gap in front of the next word
    have skip : ∀ {glued : Bool}, q.word? = none → legible prev glued ps = true →
        ∃ ts stop, Lexes ((prev.map (·.opensPath)).getD false) p (g ++ render width (q :: ps)) ts
          stop ∧ ts.map Token.word = words (q :: ps) := by
      intro glued hq hps
      obtain ⟨ts, stop, hl, hw⟩ := ih (g ++ (q.text width).toList) p hps hs.tail (by
        intro c hc
        rcases List.mem_append.1 hc with hc | hc
        · exact hg c hc
        · exact text_blank width hq c hc)
      refine ⟨ts, stop, by rw [render_cons, ← List.append_assoc]; exact hl, ?_⟩
      rw [hw, words, words, List.filterMap_cons_none hq]
    cases q with
    | blank | newline | indent d => exact skip rfl h
    | word k s =>
      simp only [legible, Bool.and_eq_true] at h
      have hfit : Fits ((prev.map (·.opensPath)).getD false) k := by
        have h1 := h.1
        cases prev with
        | none => exact ⟨fun hk => by simp [TokenKind.follows, hk] at h1, fun _ => rfl⟩
        | some p =>
          have hp : (k == .path) = p.opensPath := by
            simpa using (Bool.and_eq_true_iff.1 h1).2
          show Fits p.opensPath k
          rw [← hp]
          exact ⟨by simp, by rintro (rfl | rfl) <;> rfl⟩
      have hspell := hs ⟨k, s⟩ (by simp)
      obtain ⟨c, cs, hc, hgap, hscan⟩ := hspell.rescan hfit (stops_of_legible width h.2 hs.tail)
      obtain ⟨ts, stop, hl, hw⟩ := ih [] ((p.after g).after s.toList) h.2 hs.tail (by simp)
      refine ⟨⟨k, String.ofList s.toList, ⟨p.after g, (p.after g).after s.toList⟩⟩ :: ts, stop, ?_,
        by simp [Token.word, hw]⟩
      rw [render_cons, text, hc]
      refine Lexes.cons (gap_blanks hg hgap) hscan hc.symm ?_
      simpa using hl

/-- The tokens of the text of legible pieces. -/
theorem tokenize_render (width : Nat) {ps : List Piece} (h : legible none false ps = true)
    (hs : Spelled ps) : (tokenize (render width ps)).tokens.map Token.word = words ps := by
  obtain ⟨ts, stop, hl, hw⟩ := lexes_render width [] {} h hs (by simp)
  obtain ⟨ht, -⟩ := (tokenize_lexes (render width ps)).unique hl rfl
  rw [ht, hw]

end Piece
end Scad
