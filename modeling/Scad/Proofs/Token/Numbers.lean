import Mathlib.Computability.Language
import Scad.Proofs.Token.Spelling

/-!
# Numbers are scanned as far as they go

The texts that are numbers are a regular language (`Number.language`), given here without the
scanner. A token is a number wherever the text ahead starts with one, and then it is the longest
start of the text that is one. So nothing that could belong to a number is left for the next token.
Main statement: `tokenize_numbers`.
-/

namespace Scad

open Computability

/-! ## The language of numbers -/

namespace Number

open Lexer (AllDigits IsFraction IsExponent Numeral)

/-- One of these characters. -/
def oneOf (cs : List Char) : Language Char := {w | ∃ c ∈ cs, w = [c]}

/-- One digit. -/
def digit : Language Char := {w | ∃ c : Char, c.isDigit = true ∧ w = [c]}

/-- One digit or more. -/
def digitRun : Language Char := digit * digit∗

/-- A mark, a sign that may be left out and one digit or more. -/
def exponentPart : Language Char := oneOf ['e', 'E'] * (1 + oneOf ['+', '-']) * digitRun

/-- All numbers. An exponent, which may be left out, stands behind digits, or behind digits, a point
and any digits, or behind a point and digits. -/
def language : Language Char :=
  digitRun * (1 + oneOf ['.'] * digit∗) * (1 + exponentPart) +
    oneOf ['.'] * digitRun * (1 + exponentPart)

variable {cs : List Char}

theorem mem_digit_kstar : cs ∈ digit∗ ↔ AllDigits cs := by
  rw [Language.mem_kstar]
  constructor
  · rintro ⟨ws, rfl, hws⟩ c hc
    obtain ⟨w, hw, hc⟩ := List.mem_flatten.1 hc
    obtain ⟨d, hd, rfl⟩ := hws w hw
    rwa [List.mem_singleton.1 hc]
  · intro h
    refine ⟨cs.map ([·]), (List.flatMap_singleton' cs).symm, ?_⟩
    intro w hw
    obtain ⟨c, hc, rfl⟩ := List.mem_map.1 hw
    exact ⟨c, h c hc, rfl⟩

theorem mem_digitRun : cs ∈ digitRun ↔ cs ≠ [] ∧ AllDigits cs := by
  simp only [digitRun, Language.mem_mul, mem_digit_kstar]
  constructor
  · rintro ⟨_, ⟨c, hc, rfl⟩, ds, hds, rfl⟩
    exact ⟨by simp, List.forall_mem_cons.2 ⟨hc, hds⟩⟩
  · rintro ⟨hne, h⟩
    obtain ⟨c, ds, rfl⟩ := List.exists_cons_of_ne_nil hne
    obtain ⟨hc, hds⟩ := List.forall_mem_cons.1 h
    exact ⟨[c], ⟨c, hc, rfl⟩, ds, hds, rfl⟩

/-- A point and digits behind it. -/
theorem mem_point_mul {l : Language Char} : cs ∈ oneOf ['.'] * l ↔ ∃ ds ∈ l, cs = '.' :: ds := by
  simp only [Language.mem_mul]
  constructor
  · rintro ⟨_, ⟨c, hc, rfl⟩, ds, hds, rfl⟩
    obtain rfl := List.mem_singleton.1 hc
    exact ⟨ds, hds, rfl⟩
  · rintro ⟨ds, hds, rfl⟩
    exact ⟨['.'], ⟨'.', by simp, rfl⟩, ds, hds, rfl⟩

theorem mem_fractionPart : cs ∈ 1 + oneOf ['.'] * digit∗ ↔ IsFraction cs := by
  rw [Language.mem_add, Language.mem_one, mem_point_mul]
  simp only [mem_digit_kstar, IsFraction, and_comm]

theorem mem_sign : cs ∈ 1 + oneOf ['+', '-'] ↔ cs = [] ∨ cs = ['+'] ∨ cs = ['-'] := by
  rw [Language.mem_add, Language.mem_one]
  refine or_congr_right ?_
  constructor
  · rintro ⟨c, hc, rfl⟩
    simpa using hc
  · rintro (rfl | rfl)
    · exact ⟨'+', by simp, rfl⟩
    · exact ⟨'-', by simp, rfl⟩

theorem mem_exponentPart : cs ∈ 1 + exponentPart ↔ IsExponent cs := by
  rw [Language.mem_add, Language.mem_one]
  refine or_congr_right ?_
  simp only [exponentPart, Language.mem_mul, mem_digitRun]
  constructor
  · rintro ⟨_, ⟨_, ⟨m, hm, rfl⟩, sign, hsign, rfl⟩, ds, ⟨hne, hds⟩, rfl⟩
    exact ⟨m, sign, ds, rfl, by simpa using hm, mem_sign.1 hsign, hne, hds⟩
  · rintro ⟨m, sign, ds, rfl, hm, hsign, hne, hds⟩
    exact ⟨m :: sign, ⟨[m], ⟨m, by simpa using hm, rfl⟩, sign, mem_sign.2 hsign, rfl⟩, ds,
      ⟨hne, hds⟩, rfl⟩

/-- The texts of the language are the numerals. -/
theorem mem_language : cs ∈ language ↔ ∃ w f e, cs = w ++ f ++ e ∧ Numeral w f e := by
  rw [language, Language.mem_add]
  constructor
  · rintro (h | h)
    · obtain ⟨_, hwf, e, he, rfl⟩ := Language.mem_mul.1 h
      obtain ⟨w, hw, f, hf, rfl⟩ := Language.mem_mul.1 hwf
      obtain ⟨hne, hw⟩ := mem_digitRun.1 hw
      exact ⟨w, f, e, rfl, hw, mem_fractionPart.1 hf, mem_exponentPart.1 he, .inl hne⟩
    · obtain ⟨_, hf, e, he, rfl⟩ := Language.mem_mul.1 h
      obtain ⟨ds, hds, rfl⟩ := mem_point_mul.1 hf
      obtain ⟨hne, hds⟩ := mem_digitRun.1 hds
      refine ⟨[], '.' :: ds, e, rfl, nofun, .inr ⟨ds, rfl, hds⟩, mem_exponentPart.1 he, .inr ?_⟩
      simpa using List.length_pos_iff.2 hne
  · rintro ⟨w, f, e, rfl, h⟩
    have he := mem_exponentPart.2 h.exp
    by_cases hw : w = []
    · subst hw
      rcases h.frac with rfl | ⟨ds, rfl, hds⟩
      · simpa using h.digit
      · have hne : ds ≠ [] := by simpa [List.length_pos_iff] using h.digit
        refine .inr (Language.append_mem_mul (mem_point_mul.2 ⟨ds, ?_, rfl⟩) he)
        exact mem_digitRun.2 ⟨hne, hds⟩
    · have hwhole : w ∈ digitRun := mem_digitRun.2 ⟨hw, h.whole⟩
      have hwf := Language.append_mem_mul hwhole (mem_fractionPart.2 h.frac)
      exact .inl (Language.append_mem_mul hwf he)

end Number

/-! ## The longest number -/

namespace Lexer

/-- Digits are the start of the digits ahead. -/
theorem AllDigits.starts {ds : List Char} (h : AllDigits ds) (rest : List Char) :
    ds <+: digits (ds ++ rest) := by
  rw [digits, List.takeWhile_append_of_pos h]
  exact List.prefix_append _ _

theorem IsFraction.starts {f : List Char} (h : IsFraction f) (rest : List Char) :
    f <+: fraction (f ++ rest) := by
  rcases h with rfl | ⟨ds, rfl, hds⟩
  · exact List.nil_prefix
  · exact cons_starts (hds.starts rest)

theorem IsExponent.starts {e : List Char} (h : IsExponent e) (rest : List Char) :
    e <+: exponent (e ++ rest) := by
  rcases h with rfl | ⟨m, sign, ds, rfl, hm, hs, hne, hds⟩
  · exact List.nil_prefix
  · have hsign := exponentSign_append rest hs hne hds
    obtain ⟨more, hmore⟩ := hds.starts rest
    have hexp : exponent (m :: (sign ++ ds) ++ rest) = m :: (sign ++ ds) ++ more := by
      simp only [List.cons_append, List.append_assoc, exponent, if_pos hm, hsign, List.drop_left,
        ← hmore]
      cases ds with
      | nil => exact absurd rfl hne
      | cons d ds => rfl
    rw [hexp]
    exact List.prefix_append _ _

/-- A numeral at the start of a text is a start of what the scanner takes there. -/
theorem Numeral.starts {w f e : List Char} (h : Numeral w f e) (rest : List Char) :
    w ++ f ++ e <+: numeral (w ++ f ++ e ++ rest) := by
  rcases h.exp with rfl | ⟨m, sign, ds, rfl, hm, hexp⟩
  · -- without an exponent the numeral may be cut off anywhere in its last run of digits
    rw [List.append_nil]
    refine List.IsPrefix.trans ?_ (List.prefix_append _ _)
    rcases h.frac with rfl | ⟨ds, rfl, hds⟩
    · rw [List.append_nil]
      exact (h.whole.starts rest).trans (List.prefix_append _ _)
    · have hwhole : digits (w ++ '.' :: ds ++ rest) = w := by
        rw [List.append_assoc]
        exact digits_append h.whole (by simp)
      rw [hwhole, List.append_assoc, List.drop_left, List.prefix_append_right_inj]
      exact h.frac.starts rest
  · -- with an exponent the digits before it are taken whole, as its mark is no digit
    have hmark : ∀ c, (m :: (sign ++ ds) ++ rest).head? = some c → c.isDigit = false ∧ c ≠ '.' := by
      intro c hc
      obtain rfl : m = c := by simpa using hc
      exact not_digit_of_mark hm
    rw [List.append_assoc (w ++ f), numeral_mantissa h.whole h.frac hmark,
      List.prefix_append_right_inj]
    exact h.exp.starts rest

theorem Spelling.mem_language {text : List Char} (h : Spelling .number text) :
    text ∈ Number.language := by
  generalize hk : TokenKind.number = k at h
  cases h with
  | number hnum => exact Number.mem_language.2 ⟨_, _, _, rfl, hnum⟩
  | mark hm | keyword hm => subst hk; cases hm
  | _ => cases hk

/-- The token is a number exactly if the text ahead starts with one, and then it is all that the
scanner takes for a numeral. -/
theorem scan_number_iff {path : Bool} {c : Char} {cs text : List Char} {k : TokenKind}
    (hg : gap .blank (c :: cs) = []) (h : scan path c cs = (k, text)) :
    (k = .number ↔ ∃ m ∈ Number.language, m <+: c :: cs) ∧
      (k = .number → text ∈ Number.language ∧ text = numeral (c :: cs)) := by
  have hscan : ∀ m ∈ Number.language, m <+: c :: cs → k = .number ∧ text = numeral (c :: cs) := by
    rintro m hm ⟨rest, hrest⟩
    obtain ⟨w, f, e, rfl, hnum⟩ := Number.mem_language.1 hm
    obtain ⟨c', cs', hcs, -, hnumber⟩ := hnum.scan_number rest path
    obtain ⟨rfl, rfl⟩ := List.cons.inj (hrest.symm.trans hcs)
    rw [h] at hnumber
    exact Prod.mk.inj hnumber
  have hnumber : k = .number → text ∈ Number.language := by
    rintro rfl
    exact (scan_spelling hg h (by decide)).1.mem_language
  have hstarts : text <+: c :: cs := by
    have := scan_starts path c cs
    rwa [h] at this
  refine ⟨⟨fun hk => ⟨text, hnumber hk, hstarts⟩, fun ⟨m, hm, hc⟩ => (hscan m hm hc).1⟩, ?_⟩
  exact fun hk => ⟨hnumber hk, (hscan text (hnumber hk) hstarts).2⟩

/-- The text is the longest start of what is ahead that is in the language. -/
structure Longest (l : Language Char) (ahead text : List Char) : Prop where
  mem : text ∈ l
  starts : text <+: ahead
  longest : ∀ m ∈ l, m <+: ahead → m.length ≤ text.length

theorem longest_numeral {cs : List Char} (h : numeral cs ∈ Number.language) :
    Longest Number.language cs (numeral cs) := by
  refine ⟨h, numeral_starts cs, ?_⟩
  rintro m hm ⟨rest, rfl⟩
  obtain ⟨w, f, e, rfl, hnum⟩ := Number.mem_language.1 hm
  exact (hnum.starts rest).length_le

/-- Each token was scanned from the text behind the point where it starts. -/
theorem Lexes.ahead {path : Bool} {p : Position} {cs : List Char} {ts : List Token}
    {stop : Position} (h : Lexes path p cs ts stop) :
    ∀ before, p.byte = Text.byteSize before → ∀ t ∈ ts, ∃ front path' x xs,
      before ++ cs = front ++ x :: xs ∧ t.region.start.byte = Text.byteSize front ∧
        gap .blank (x :: xs) = [] ∧ scan path' x xs = (t.kind, t.text.toList) := by
  induction h with
  | nil => simp
  | @cons path p g x xs kind text rest ts stop hg hscan hr _ ih =>
    intro before hp t ht
    rcases List.mem_cons.1 ht with rfl | ht
    · refine ⟨before ++ g, path, x, xs, (List.append_assoc ..).symm, ?_, ?_, ?_⟩
      · simp [Position.after_byte, hp]
      · exact gap_behind _ _ _ _ _ rfl hg
      · simpa using hscan
    · have hp : ((p.after g).after text).byte = Text.byteSize (before ++ (g ++ text)) := by
        simp [Position.after_byte, hp]
        omega
      obtain ⟨front, h⟩ := ih (before ++ (g ++ text)) hp t ht
      rw [List.append_assoc, List.append_assoc, ← hr] at h
      exact ⟨front, h⟩

end Lexer

/-- A token is a number exactly if the source starts with a number from there on. Then its text is
the longest start of the source from there on that is a number, and a number can be read from it. -/
theorem tokenize_numbers (source : List Char) (t : Token) (ht : t ∈ (tokenize source).tokens) :
    ∃ ahead, Text.slice? source t.region.start.byte (Text.byteSize source) = some ahead ∧
      (t.kind = .number ↔ ∃ m ∈ Number.language, m <+: ahead) ∧
      (t.kind = .number → Lexer.Longest Number.language ahead t.text.toList ∧
        ∃ x, Number.read? t.text.toList = some x) := by
  obtain ⟨front, path, x, xs, hsource, hstart, hg, hscan⟩ :=
    (Lexer.tokenize_lexes source).ahead [] rfl t ht
  obtain ⟨hiff, hnumber⟩ := Lexer.scan_number_iff hg hscan
  refine ⟨x :: xs, ?_, hiff, fun hk => ?_⟩
  · rw [List.nil_append] at hsource
    rw [hstart, hsource]
    simpa using Text.slice?_append front (x :: xs) []
  · obtain ⟨hmem, htext⟩ := hnumber hk
    refine ⟨?_, ?_⟩
    · rw [htext] at hmem ⊢
      exact Lexer.longest_numeral hmem
    · obtain ⟨w, f, e, hwfe, hnum⟩ := Number.mem_language.1 hmem
      obtain ⟨d, hd⟩ := hnum.read?_eq
      exact ⟨_, hwfe ▸ hd⟩

/-- Two points in a row, an exponent behind a point, and an exponent without digits. -/
theorem tokenize_numbers_points :
    ∃ t ∈ (tokenize "[1..5, 2.e5e+, .5.5]".toList).tokens, t.kind = .number ∧ t.text = "2.e5" ∧
      ∃ ahead, Text.slice? "[1..5, 2.e5e+, .5.5]".toList t.region.start.byte
          (Text.byteSize "[1..5, 2.e5e+, .5.5]".toList) = some ahead ∧
        Lexer.Longest Number.language ahead t.text.toList ∧
        ∃ x, Number.read? t.text.toList = some x := by
  have ht : (⟨.number, "2.e5", ⟨⟨7, 0, 7⟩, ⟨11, 0, 11⟩⟩⟩ : Token) ∈
      (tokenize "[1..5, 2.e5e+, .5.5]".toList).tokens := by
    decide +kernel
  obtain ⟨ahead, hslice, -, hnumber⟩ := tokenize_numbers _ _ ht
  exact ⟨_, ht, rfl, rfl, ahead, hslice, hnumber rfl⟩

end Scad
