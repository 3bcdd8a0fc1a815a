import Mathlib.Data.List.TakeWhile
import Scad.Number.Decimal
import Scad.Token.Lexer.Lemmas

/-!
# Numerals

The texts that are numbers: digits with at most one point, and an exponent that may be left out. The
scanner gives numerals only (`numeral_isNumeral`), takes the whole of a numeral whatever follows that
does not go on with it (`Numeral.numeral_append`), and every numeral can be read
(`Numeral.read?_eq`).
-/

namespace Scad
namespace Lexer

/-- A run of digits. -/
def AllDigits (cs : List Char) : Prop := ∀ c ∈ cs, c.isDigit = true

/-- A point and digits, or nothing. -/
def IsFraction (cs : List Char) : Prop := cs = [] ∨ ∃ ds, cs = '.' :: ds ∧ AllDigits ds

/-- A mark, a sign that may be left out and digits, or nothing. -/
def IsExponent (cs : List Char) : Prop :=
  cs = [] ∨ ∃ m sign ds, cs = m :: (sign ++ ds) ∧ (m = 'e' ∨ m = 'E') ∧
    (sign = [] ∨ sign = ['+'] ∨ sign = ['-']) ∧ ds ≠ [] ∧ AllDigits ds

/-- A number written as the digits `w`, the fraction `f` and the exponent `e`. -/
structure Numeral (w f e : List Char) : Prop where
  whole : AllDigits w
  frac : IsFraction f
  exp : IsExponent e
  digit : w ≠ [] ∨ 1 < f.length

/-- What does not go on with a number. -/
def EndsNumber (next : Option Char) : Prop :=
  ∀ c, next = some c → c.isDigit = false ∧ c ≠ '.' ∧ c ≠ 'e' ∧ c ≠ 'E'

/-! ## Runs of digits -/

theorem takeWhile_append_stop {p : Char → Bool} {a b : List Char} (ha : ∀ c ∈ a, p c = true)
    (hb : ∀ c, b.head? = some c → p c = false) : (a ++ b).takeWhile p = a := by
  rw [List.takeWhile_append_of_pos ha]
  cases b with
  | nil => simp
  | cons c b => simp [hb c rfl]

theorem digits_append {ds rest : List Char} (h : AllDigits ds)
    (hr : ∀ c, rest.head? = some c → c.isDigit = false) : digits (ds ++ rest) = ds :=
  takeWhile_append_stop h hr

theorem digits_allDigits (cs : List Char) : AllDigits (digits cs) :=
  fun _ hc => List.mem_takeWhile_imp hc

theorem not_digit_of_mark {m : Char} (h : m = 'e' ∨ m = 'E') : m.isDigit = false ∧ m ≠ '.' := by
  rcases h with rfl | rfl <;> decide

/-- What an exponent or the end of a number starts with is neither a digit nor a point. -/
theorem IsExponent.head {e rest : List Char} (he : IsExponent e) (hr : EndsNumber rest.head?)
    (c : Char) (hc : (e ++ rest).head? = some c) : c.isDigit = false ∧ c ≠ '.' := by
  rcases he with rfl | ⟨m, sign, ds, rfl, hm, -, -, -⟩
  · obtain ⟨h1, h2, -, -⟩ := hr c hc
    exact ⟨h1, h2⟩
  · obtain rfl : m = c := by simpa using hc
    exact not_digit_of_mark hm

theorem fraction_append {f tail : List Char} (hf : IsFraction f)
    (ht : ∀ c, tail.head? = some c → c.isDigit = false ∧ c ≠ '.') : fraction (f ++ tail) = f := by
  rcases hf with rfl | ⟨ds, rfl, hds⟩
  · rw [List.nil_append]
    unfold fraction
    split
    · exact absurd rfl (ht '.' rfl).2
    · rfl
  · show '.' :: digits (ds ++ tail) = '.' :: ds
    rw [digits_append hds fun c hc => (ht c hc).1]

theorem exponentSign_append {sign ds : List Char} (rest : List Char)
    (hs : sign = [] ∨ sign = ['+'] ∨ sign = ['-']) (hne : ds ≠ []) (hds : AllDigits ds) :
    exponentSign (sign ++ (ds ++ rest)) = sign := by
  rcases hs with rfl | rfl | rfl
  · obtain ⟨d, ds, rfl⟩ := List.exists_cons_of_ne_nil hne
    have hd : d.isDigit = true := hds d (by simp)
    have h1 : d ≠ '+' := by rintro rfl; exact absurd hd (by decide)
    have h2 : d ≠ '-' := by rintro rfl; exact absurd hd (by decide)
    simp [exponentSign, h1, h2]
  · rfl
  · rfl

theorem exponent_append {e rest : List Char} (he : IsExponent e) (hr : EndsNumber rest.head?) :
    exponent (e ++ rest) = e := by
  rcases he with rfl | ⟨m, sign, ds, rfl, hm, hs, hne, hds⟩
  · cases rest with
    | nil => rfl
    | cons c rest =>
      obtain ⟨-, -, h1, h2⟩ := hr c rfl
      simp [exponent, h1, h2]
  · have hsign := exponentSign_append rest hs hne hds
    have hdig : digits (ds ++ rest) = ds := digits_append hds fun c hc => (hr c hc).1
    simp only [List.cons_append, List.append_assoc, exponent, if_pos hm, hsign, List.drop_left,
      hdig]

/-- In front of what is neither a digit nor a point, the scanner takes digits and a fraction, and
goes on with the exponent. -/
theorem numeral_mantissa {w f tail : List Char} (hw : AllDigits w) (hf : IsFraction f)
    (ht : ∀ c, tail.head? = some c → c.isDigit = false ∧ c ≠ '.') :
    numeral (w ++ f ++ tail) = w ++ f ++ exponent tail := by
  have hwhole : digits (w ++ (f ++ tail)) = w := by
    refine digits_append hw fun c hc => ?_
    rcases hf with rfl | ⟨ds, rfl, -⟩
    · exact (ht c hc).1
    · obtain rfl : '.' = c := by simpa using hc
      decide
  have hdrop : (w ++ (f ++ tail)).drop (w ++ f).length = tail := by
    rw [← List.append_assoc, List.drop_left]
  simp only [numeral, List.append_assoc, hwhole, List.drop_left, fraction_append hf ht, hdrop]

/-- The scanner takes the whole of a numeral. -/
theorem Numeral.numeral_append {w f e rest : List Char} (h : Numeral w f e)
    (hr : EndsNumber rest.head?) : numeral (w ++ f ++ e ++ rest) = w ++ f ++ e := by
  rw [List.append_assoc (w ++ f), numeral_mantissa h.whole h.frac (h.exp.head hr),
    exponent_append h.exp hr]

theorem fraction_isFraction (cs : List Char) : IsFraction (fraction cs) := by
  unfold fraction
  split
  · exact .inr ⟨_, rfl, digits_allDigits _⟩
  · exact .inl rfl

theorem exponentSign_cases (cs : List Char) :
    exponentSign cs = [] ∨ exponentSign cs = ['+'] ∨ exponentSign cs = ['-'] := by
  unfold exponentSign
  split <;> simp

theorem exponent_isExponent (cs : List Char) : IsExponent (exponent cs) := by
  unfold exponent
  split
  · rename_i c cs
    split
    · rename_i hm
      dsimp only
      split
      · exact .inl rfl
      · rename_i ds hne
        refine .inr ⟨c, _, _, rfl, hm, exponentSign_cases cs, ?_, digits_allDigits _⟩
        exact fun h => hne h
    · exact .inl rfl
  · exact .inl rfl

/-- The scanner gives numerals, on a text that starts with a digit or with a point and a digit. -/
theorem numeral_isNumeral {c : Char} {cs : List Char}
    (h : c.isDigit = true ∨ (c = '.' ∧ digits cs ≠ [])) :
    ∃ w f e, numeral (c :: cs) = w ++ f ++ e ∧ Numeral w f e := by
  refine ⟨_, _, _, rfl, digits_allDigits _, fraction_isFraction _, exponent_isExponent _, ?_⟩
  rcases h with h | ⟨rfl, h⟩
  · exact .inl (digits_cons_ne_nil h cs)
  · refine .inr ?_
    have hnil : digits ('.' :: cs) = [] := rfl
    rw [hnil]
    show 1 < (digits cs).length + 1
    have := List.length_pos_iff.2 h
    omega

end Lexer

/-! ## Reading numerals -/

namespace Number

open Lexer

theorem dropWhile_append_stop {p : Char → Bool} {a b : List Char} (ha : ∀ c ∈ a, p c = true)
    (hb : ∀ c, b.head? = some c → p c = false) : (a ++ b).dropWhile p = b := by
  rw [List.dropWhile_append_of_pos ha]
  cases b with
  | nil => rfl
  | cons c b => simp [hb c rfl]

/-- A text that starts with a digit or a point is neither signed nor a number by name. -/
theorem read?_eq_readDecimal? {c : Char} {cs : List Char} (hc : c.isDigit = true ∨ c = '.') :
    read? (c :: cs) = (readDecimal? (c :: cs)).map Decimal.toDouble := by
  have hplus : c ≠ '+' := by rintro rfl; revert hc; decide
  have hminus : c ≠ '-' := by rintro rfl; revert hc; decide
  have hlower : c.toLower = c := by
    rcases hc with hc | rfl
    · unfold Char.toLower
      rw [dif_neg]
      simp only [Char.isDigit, Bool.and_eq_true, decide_eq_true_eq] at hc
      intro h
      have h1 := hc.2
      have h2 := h.1
      simp only [UInt32.le_iff_toNat_le] at h1 h2
      simp at h1 h2
      omega
    · decide
  have hi : c ≠ 'i' := by rintro rfl; revert hc; decide
  have hn : c ≠ 'n' := by rintro rfl; revert hc; decide
  have word : ∀ {x : Char} {s : String} {xs : List Char}, s.toList = x :: xs → c ≠ x →
      String.ofList ((c :: cs).map Char.toLower) ≠ s := by
    intro x s xs hs hne h
    rw [← h, String.toList_ofList, List.map_cons, hlower] at hs
    exact hne (List.cons.inj hs).1
  have hu : readUnsigned? (c :: cs) = (readDecimal? (c :: cs)).map Decimal.toDouble := by
    unfold readUnsigned?
    split
    · rename_i h
      exact absurd h (word rfl hi)
    · rename_i h
      exact absurd h (word rfl hi)
    · rename_i h
      exact absurd h (word rfl hn)
    · rfl
  unfold read?
  split
  · rename_i h
    exact absurd (by simpa using h : c = '+' ∧ _).1 hplus
  · rename_i h
    exact absurd (by simpa using h : c = '-' ∧ _).1 hminus
  · exact hu

end Number

namespace Lexer

theorem Numeral.head {w f e : List Char} (h : Numeral w f e) :
    ∃ c cs, w ++ f ++ e = c :: cs ∧ (c.isDigit = true ∨ c = '.') := by
  cases w with
  | cons c w => exact ⟨c, w ++ f ++ e, rfl, .inl (h.whole c (by simp))⟩
  | nil =>
    rcases h.frac with rfl | ⟨ds, rfl, -⟩
    · have := h.digit
      simp at this
    · exact ⟨'.', ds ++ e, rfl, .inr rfl⟩

open Number

/-- The value of an exponent, zero if it is left out. -/
def exponentValue? : List Char → Option Int
  | [] => some 0
  | _ :: cs => readExponent? cs

theorem IsExponent.value?_isSome {e : List Char} (h : IsExponent e) :
    (exponentValue? e).isSome = true := by
  rcases h with rfl | ⟨m, sign, ds, rfl, -, hs, hne, hds⟩
  · rfl
  · have hempty : ds.isEmpty = false := by simpa using hne
    have hall : ds.all Char.isDigit = true := List.all_eq_true.2 hds
    rcases hs with rfl | rfl | rfl
    · obtain ⟨d, ds, rfl⟩ := List.exists_cons_of_ne_nil hne
      have hd : d.isDigit = true := hds d (by simp)
      have h1 : d ≠ '+' := by rintro rfl; exact absurd hd (by decide)
      have h2 : d ≠ '-' := by rintro rfl; exact absurd hd (by decide)
      simp only [exponentValue?, readExponent?, List.nil_append]
      split <;> simp_all
    · simp [exponentValue?, readExponent?, hempty, hall]
    · simp [exponentValue?, readExponent?, hempty, hall]

/-- The decimal that a numeral is the text of. -/
theorem Numeral.readDecimal?_eq {w f e : List Char} (h : Numeral w f e) :
    readDecimal? (w ++ f ++ e) =
      (exponentValue? e).map fun x => ⟨digitsValue (w ++ f.tail), x - f.tail.length⟩ := by
  have hend : EndsNumber ([] : List Char).head? := fun c hc => by simp at hc
  have he : ∀ c, e.head? = some c → c.isDigit = false ∧ c ≠ '.' := by
    intro c hc
    exact h.exp.head hend c (by simpa using hc)
  unfold readDecimal?
  rw [List.append_assoc]
  rcases h.frac with rfl | ⟨ds, rfl, hds⟩
  · have hne : w ≠ [] := by simpa using h.digit
    have ht := takeWhile_append_stop h.whole fun c hc => (he c hc).1
    have hd := dropWhile_append_stop h.whole fun c hc => (he c hc).1
    rw [List.nil_append, ht, hd]
    rcases h.exp with rfl | ⟨m, sign, es, rfl, hm, -, -, -⟩
    · simp [hne, exponentValue?]
    · have hm' := (not_digit_of_mark hm).2
      simp [hne, hm, hm', exponentValue?]
  · have hdot : ∀ c, ('.' :: ds ++ e).head? = some c → c.isDigit = false := by
      intro c hc
      obtain rfl : '.' = c := by simpa using hc
      decide
    have ht := takeWhile_append_stop h.whole hdot
    have hd := dropWhile_append_stop h.whole hdot
    have h1 := takeWhile_append_stop hds fun c hc => (he c hc).1
    have h2 := dropWhile_append_stop hds fun c hc => (he c hc).1
    have hne : (w.isEmpty && ds.isEmpty) = false := by
      have := h.digit
      cases w <;> cases ds <;> simp_all
    rw [ht, hd]
    simp only [List.cons_append, h1, h2, hne, List.tail_cons]
    rcases h.exp with rfl | ⟨m, sign, es, rfl, hm, -, -, -⟩
    · simp [exponentValue?]
    · simp [hm, exponentValue?]

/-- Every numeral is the text of a decimal. -/
theorem Numeral.read?_eq {w f e : List Char} (h : Numeral w f e) :
    ∃ d : Decimal, read? (w ++ f ++ e) = some d.toDouble := by
  obtain ⟨x, hx⟩ := Option.isSome_iff_exists.1 h.exp.value?_isSome
  refine ⟨⟨digitsValue (w ++ f.tail), x - f.tail.length⟩, ?_⟩
  obtain ⟨c, cs, hcs, hc⟩ := h.head
  have hd := h.readDecimal?_eq
  rw [hx] at hd
  rw [hcs] at hd ⊢
  rw [read?_eq_readDecimal? hc, hd]
  rfl

end Lexer
end Scad
