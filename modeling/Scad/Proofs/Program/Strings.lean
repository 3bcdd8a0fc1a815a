import Scad.Proofs.Program.Legible

/-!
# Written strings

A literal that is written out is one token, whatever its value contains (`Spelling.tokenize`). For
strings three readers of backslashes have to agree on it: the one that writes the escapes, the one
that looks for the closing quote and the one that decodes (`strings_read_back`).
-/

namespace Scad
namespace Lexer

/-- A text that is spelled like a token of some kind is one such token. -/
theorem Spelling.tokenize {k : TokenKind} {text : List Char} (h : Spelling k text)
    (hf : Fits false k) : (tokenize text).all =
      [⟨k, String.ofList text, ⟨{}, Position.after {} text⟩⟩, Token.eofAt (Position.after {} text)] := by
  obtain ⟨c, cs, htext, hgap, hscan⟩ := @Spelling.rescan _ _ h false [] hf (stops_none k)
  rw [List.append_nil] at htext
  subst htext
  have hone := Lexes.cons (p := {}) (g := []) hgap hscan (List.append_nil _).symm (.nil rfl)
  rw [List.nil_append] at hone
  obtain ⟨htokens, hstop⟩ := (tokenize_lexes _).unique hone rfl
  rw [Tokens.all, Tokens.eof, htokens, hstop]
  rfl

end Lexer

open Text Lexer

namespace Literal

/-- The text of a string as a literal. -/
def quoted (v : String) : String := (Literal.string v).piece.text 0

theorem quoted_toList (v : String) : (quoted v).toList = Quoted.encode v.toList :=
  String.toList_ofList

/-- A string is written as one token of its kind, and decoding the token gives the string. So the
value that any text is decoded to, escapes without a meaning included, is the value again once it is
written anew. -/
theorem strings_read_back :
    (∀ v : String, (tokenize (quoted v).toList).all =
        [⟨.string, quoted v, ⟨{}, Position.after {} (quoted v).toList⟩⟩,
          Token.eofAt (Position.after {} (quoted v).toList)] ∧
      Quoted.decode (quoted v).toList = v.toList) ∧
    ∀ source : List Char, ∀ t ∈ (tokenize source).tokens, t.kind = .string →
      Quoted.decode (quoted (String.ofList (Quoted.decode t.text.toList))).toList =
        Quoted.decode t.text.toList := by
  have hdecode (v : String) : Quoted.decode (quoted v).toList = v.toList := by
    rw [quoted_toList, Quoted.decode_encode]
  refine ⟨fun v => ⟨?_, hdecode v⟩, fun source t _ _ => ?_⟩
  · have hone := (Quoted.encode_spelling v.toList).tokenize ⟨by simp, by simp⟩
    rw [← quoted_toList, String.ofList_toList] at hone
    exact hone
  · rw [hdecode, String.toList_ofList]

/-- Backslashes that mean nothing are part of the value, and written anew they are escaped. -/
theorem strings_read_back_escapes :
    ∃ t ∈ (tokenize "x = \"a\\q\\x0\\u0041\";".toList).tokens, t.kind = .string ∧
      Quoted.decode t.text.toList = "a\\q\\x0A".toList ∧
      Quoted.decode (quoted (String.ofList (Quoted.decode t.text.toList))).toList =
        Quoted.decode t.text.toList := by
  obtain ⟨t, ht, hk, hv⟩ : ∃ t ∈ (tokenize "x = \"a\\q\\x0\\u0041\";".toList).tokens,
      t.kind = .string ∧ Quoted.decode t.text.toList = "a\\q\\x0A".toList := by
    decide +kernel
  exact ⟨t, ht, hk, hv, strings_read_back.2 _ t ht hk⟩

end Literal
end Scad
