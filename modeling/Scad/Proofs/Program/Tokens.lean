import Scad.Proofs.Program.Verdict

/-!
# The tokens of a printed program

Printing keeps all that a source says. The tokens of a printed program are those of its source, but
for four changes that `tidy` makes: a comma at the end of a list goes, the body of a module gets
braces if it has none, and numbers and strings are spelled anew.
-/

namespace Scad

open Piece

/-! ## Respelled words -/

/-- A respelled word is spelled right. -/
theorem Lexer.Spelling.respell {w : Word} (h : Lexer.Spelling w.kind w.text.toList) :
    Lexer.Spelling w.respell.kind w.respell.text.toList := by
  obtain ⟨kind, text⟩ := w
  by_cases hn : kind = .number
  · subst hn
    generalize hcs : text.toList = cs at h
    cases h with
    | number hnum =>
      obtain ⟨d, hd⟩ := hnum.read?_eq
      obtain ⟨w', f', e', htext, hnum', -⟩ := d.toDouble_plain.text_numeral
      have hre : Word.respell ⟨.number, text⟩ = ⟨.number, String.ofList d.toDouble.text⟩ := by
        simp only [Word.respell, hcs, hd]
      rw [hre, String.toList_ofList, htext]
      exact .number hnum'
    | mark hm | keyword hm => cases hm
  · by_cases hs : kind = .string
    · subst hs
      have hre : Word.respell ⟨.string, text⟩ =
          ⟨.string, String.ofList (Text.Quoted.encode (Text.Quoted.decode text.toList))⟩ := rfl
      rw [hre, String.toList_ofList]
      exact Text.Quoted.encode_spelling _
    · rw [Word.respell_of_kind hn hs]
      exact h

theorem mem_tidy {bodies : List Region} {run : List Token} {next : TokenKind} {w : Word}
    (h : w ∈ tidy bodies run next) :
    w = .ofKind .lbrace ∨ w = .ofKind .rbrace ∨ ∃ t ∈ run, w = t.word.respell := by
  induction run with
  | nil => cases h
  | cons t run ih =>
    rw [tidy, List.mem_append] at h
    rcases h with h | h
    · simp only [tidyToken, braces, List.mem_append, List.mem_replicate] at h
      obtain (⟨-, h⟩ | h) | ⟨-, h⟩ := h
      · exact .inl h
      · split at h
        · cases h
        · exact .inr (.inr ⟨t, by simp, List.mem_singleton.1 h⟩)
      · exact .inr (.inl h)
    · obtain h | h | ⟨x, hx, h⟩ := ih h
      · exact .inl h
      · exact .inr (.inl h)
      · exact .inr (.inr ⟨x, by simp [hx], h⟩)

/-! ## Text and tokens -/

/-- The pieces that are written out: a newline at the end may be left out. -/
def Program.pieces (p : Program) (layout : Layout) : List Piece :=
  let lines := Item.lines 0 p.items
  if !layout.finalNewline && lines.getLast? == some newline then lines.dropLast else lines

theorem Program.print_toList (p : Program) (layout : Layout) :
    (p.print layout).toList = render layout.indent (p.pieces layout) := by
  rw [Program.print, printItems, toList_join]
  rfl

/-- Only a newline is left out. -/
theorem Program.lines_eq (p : Program) (layout : Layout) :
    p.pieces layout = Item.lines 0 p.items ∨ Item.lines 0 p.items = p.pieces layout ++ [newline] := by
  unfold Program.pieces
  dsimp only
  split
  · rename_i h
    rw [Bool.and_eq_true_iff, beq_iff_eq] at h
    obtain ⟨ls, hls⟩ := List.getLast?_eq_some_iff.1 h.2
    rw [hls, List.dropLast_concat]
    exact .inr rfl
  · exact .inl rfl

theorem Program.words_pieces (p : Program) (layout : Layout) :
    words (p.pieces layout) = words (Item.lines 0 p.items) := by
  rcases p.lines_eq layout with h | h
  · rw [h]
  · rw [h]
    simp

theorem Program.legible_pieces {p : Program} (h : ∀ i ∈ p.items, i.IsNeat) (layout : Layout) :
    Piece.legible none false (p.pieces layout) = true := by
  have hall := legible_lines h 0 calm_none (b := []) (fun _ _ => rfl)
  rw [List.append_nil] at hall
  rcases p.lines_eq layout with he | he
  · rwa [he]
  · rwa [he, legible_append_newline] at hall

namespace Program

/-- The tokens of a printed program are those of its source, tidied up. -/
theorem tokenize_print {source : List Char} {p : Program} (h : Program.parse source = .ok p)
    (layout : Layout) :
    (tokenize (p.print layout).toList).tokens.map Token.word =
      tidy (SyntaxTree.ofSource source).root.bareBodies (tokenize source).tokens .eof := by
  obtain ⟨q, hq, hneat, hbroken, hwords⟩ := parse_of_faultless (faultless_of_parse h)
  obtain rfl := Except.ok.inj (hq.symm.trans h)
  have hspelled : Spelled (q.pieces layout) := by
    intro w hw
    rw [words_pieces, hwords] at hw
    obtain rfl | rfl | ⟨t, ht, rfl⟩ := mem_tidy hw
    · exact .mark rfl
    · exact .mark rfl
    · have hsound := tokenize_sound source t ht
      exact Lexer.Spelling.respell (w := t.word) (hsound.scanned.spelling (hbroken t ht))
  rw [print_toList, tokenize_render _ (legible_pieces hneat layout) hspelled, words_pieces, hwords]

/-- Nothing of a source is lost and nothing is added: kinds and texts of all tokens of the printed
program, the end of the text included, are those of the source but for what `tidy` changes. -/
theorem print_keeps_tokens {source : List Char} {p : Program} (h : Program.parse source = .ok p)
    (layout : Layout) :
    (tokenize (p.print layout).toList).all.map Token.word =
      tidy (SyntaxTree.ofSource source).root.bareBodies (tokenize source).tokens .eof ++
        [(tokenize source).eof.word] := by
  rw [Lexer.Tokens.all, List.map_append, tokenize_print h layout]
  rfl

/-- A comma goes, a body gets braces, a number and a string are respelled. -/
theorem print_keeps_tokens_module :
    ∃ p, Program.parse "module m() text(\"a\\q\", .50,);".toList = .ok p ∧
      ∀ layout : Layout, (tokenize (p.print layout).toList).all.map Token.word =
        [.ofKind .kwModule, ⟨.identifier, "m"⟩, .ofKind .lparen, .ofKind .rparen, .ofKind .lbrace,
          ⟨.identifier, "text"⟩, .ofKind .lparen, ⟨.string, "\"a\\\\q\""⟩, .ofKind .comma,
          ⟨.number, "0.5"⟩, .ofKind .rparen, .ofKind .semicolon, .ofKind .rbrace, ⟨.eof, ""⟩] := by
  have hok : (SyntaxTree.ofSource "module m() text(\"a\\q\", .50,);".toList).faults = [] := by
    decide +kernel
  obtain ⟨p, hp, -⟩ := parse_of_faultless hok
  refine ⟨p, hp, fun layout => ?_⟩
  rw [print_keeps_tokens hp layout]
  decide +kernel

end Program
end Scad
