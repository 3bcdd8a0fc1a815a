import Scad.Proofs.Number.Nearest
import Scad.Proofs.Number.Numeral

/-!
# Printed numbers read back

Numbers of a program are read from numerals, so they are neither negative nor NaN. How such a number
is written is a numeral again, and it reads back to the same number (`Double.Plain.text_numeral`).
-/

namespace Scad

/-- A number that a numeral can stand for: not negative and not NaN. -/
def Double.Plain (x : Double) : Prop := ∃ m ≤ Double.infinityBits, x = .ofMagnitude false m

theorem Decimal.toDouble_plain (d : Decimal) : d.toDouble.Plain :=
  ⟨d.toMagnitude, d.toMagnitude_le_infinityBits, rfl⟩

/-! ## Digits -/

namespace Number

theorem digitsValue_eq (ds : List Char) : digitsValue ds = Nat.ofDigitChars 10 ds 0 := rfl

theorem digitsValue_toDigits (n : Nat) : digitsValue (Nat.toDigits 10 n) = n :=
  Nat.ofDigitChars_ten_toDigits

theorem digitsValue_append_zeros (ds : List Char) (k : Nat) :
    digitsValue (ds ++ List.replicate k '0') = digitsValue ds * 10 ^ k := by
  rw [digitsValue_eq, Nat.ofDigitChars_append, Nat.ofDigitChars_replicate_zero, digitsValue_eq,
    Nat.mul_comm]

theorem digitsValue_zeros_append (k : Nat) (ds : List Char) :
    digitsValue (List.replicate k '0' ++ ds) = digitsValue ds := by
  rw [digitsValue_eq, Nat.ofDigitChars_append, Nat.ofDigitChars_replicate_zero, Nat.mul_zero,
    digitsValue_eq]

end Number

namespace Lexer

theorem allDigits_toDigits (n : Nat) : AllDigits (Nat.toDigits 10 n) :=
  fun _ hc => Nat.isDigit_of_mem_toDigits (by decide) (by decide) hc

theorem AllDigits.zeros (k : Nat) : AllDigits (List.replicate k '0') := by
  intro c hc
  rw [List.eq_of_mem_replicate hc]
  rfl

theorem AllDigits.append {a b : List Char} (ha : AllDigits a) (hb : AllDigits b) :
    AllDigits (a ++ b) := by
  intro c hc
  rcases List.mem_append.1 hc with h | h
  · exact ha c h
  · exact hb c h

end Lexer

open Lexer Number

/-! ## The shortest decimal reads back -/

namespace Decimal

/-- The zeros at the end of the digits of a number are factors of ten. -/
theorem normal_digits_mul (d : Decimal) :
    ∃ k : Nat, d.digits = d.normal.digits * 10 ^ k ∧ d.normal.exponent = d.exponent + k := by
  let ds := (Nat.toDigits 10 d.digits).reverse
  let zeros := (ds.takeWhile (· == '0')).length
  refine ⟨zeros, ?_, rfl⟩
  have htake : ds.takeWhile (· == '0') = List.replicate zeros '0' := by
    refine List.eq_replicate_iff.2 ⟨rfl, fun c hc => ?_⟩
    simpa using List.mem_takeWhile_imp hc
  have hsplit : Nat.toDigits 10 d.digits =
      (ds.dropWhile (· == '0')).reverse ++ List.replicate zeros '0' := by
    have h := List.takeWhile_append_dropWhile (p := (· == '0')) (l := ds)
    rw [htake] at h
    have := congrArg List.reverse h
    simpa [ds] using this.symm
  have hval : d.digits = digitsValue (ds.dropWhile (· == '0')).reverse * 10 ^ zeros := by
    rw [← digitsValue_append_zeros, ← hsplit, digitsValue_toDigits]
  show d.digits = d.digits / Nat.pow 10 zeros * 10 ^ zeros
  rw [Nat.pow_eq, Nat.div_mul_cancel]
  exact ⟨_, hval.trans (Nat.mul_comm _ _)⟩

theorem toMagnitude_normal (d : Decimal) : d.normal.toMagnitude = d.toMagnitude := by
  obtain ⟨k, hd, he⟩ := d.normal_digits_mul
  have hn : d.normal = ⟨d.normal.digits, d.exponent + k⟩ := by rw [← he]
  rw [hn, ← toMagnitude_shift, ← hd]

theorem toMagnitude_cut? {d c : Decimal} {m k : Nat} (h : d.cut? m k = some c) :
    c.toMagnitude = m := by
  unfold cut? at h
  dsimp only at h
  split at h
  · rename_i hd hu
    obtain rfl := Option.some.inj h
    split
    · exact beq_iff_eq.1 hu
    · exact beq_iff_eq.1 hd
  · rename_i hd _
    obtain rfl := Option.some.inj h
    exact beq_iff_eq.1 hd
  · rename_i _ hu
    obtain rfl := Option.some.inj h
    exact beq_iff_eq.1 hu
  · cases h

theorem toMagnitude_shortest {x : Double} (h0 : x.magnitude ≠ 0)
    (h : x.magnitude < Double.infinityBits) : (shortest x).toMagnitude = x.magnitude := by
  unfold shortest
  dsimp only
  rw [toMagnitude_normal]
  cases hf : (((List.range 17).map (· + 1)).filter (· < width (exact x).digits)).findSome?
      fun n => (exact x).cut? x.magnitude (width (exact x).digits - n) with
  | none => exact toMagnitude_exact h0 h
  | some c =>
    obtain ⟨n, -, hc⟩ := List.exists_of_findSome?_eq_some hf
    exact toMagnitude_cut? hc

/-! ## Positional notation -/

/-- A decimal in positional notation is a numeral for the same number. -/
theorem positional_numeral (d : Decimal) :
    ∃ w f, d.positional = w ++ f ++ [] ∧ Numeral w f [] ∧
      (⟨digitsValue (w ++ f.tail), -(f.tail.length : Int)⟩ : Decimal).toMagnitude =
        d.toMagnitude := by
  have hdig := allDigits_toDigits d.digits
  unfold positional
  dsimp only
  split
  · rename_i hp
    have hexp : (0 : Int) + d.exponent.toNat = d.exponent := by omega
    refine ⟨Nat.toDigits 10 d.digits ++ List.replicate d.exponent.toNat '0', [], by simp,
      ⟨hdig.append (.zeros _), .inl rfl, .inl rfl, ?_⟩, ?_⟩
    · exact .inl (by simp [Nat.toDigits_ne_nil])
    · rw [List.tail_nil, List.append_nil, digitsValue_append_zeros, digitsValue_toDigits,
        List.length_nil, Int.natCast_zero, Int.neg_zero, toMagnitude_shift, hexp]
  · rename_i hp
    have hexp : -((-d.exponent).toNat : Int) = d.exponent := by omega
    split
    · rename_i hlt
      let i := (Nat.toDigits 10 d.digits).length - (-d.exponent).toNat
      refine ⟨(Nat.toDigits 10 d.digits).take i, '.' :: (Nat.toDigits 10 d.digits).drop i,
        by simp [i], ⟨?_, .inr ⟨_, rfl, ?_⟩, .inl rfl, .inl ?_⟩, ?_⟩
      · exact fun c hc => hdig c (List.mem_of_mem_take hc)
      · exact fun c hc => hdig c (List.mem_of_mem_drop hc)
      · refine List.ne_nil_of_length_pos ?_
        rw [List.length_take]
        omega
      · have hlen : ((Nat.toDigits 10 d.digits).drop i).length = (-d.exponent).toNat := by
          rw [List.length_drop]
          omega
        rw [List.tail_cons, List.take_append_drop, digitsValue_toDigits, hlen, hexp]
    · rename_i hge
      refine ⟨['0'], '.' :: (List.replicate ((-d.exponent).toNat -
        (Nat.toDigits 10 d.digits).length) '0' ++ Nat.toDigits 10 d.digits),
        by simp, ⟨.zeros 1, .inr ⟨_, rfl, (AllDigits.zeros _).append hdig⟩, .inl rfl,
          .inl (by simp)⟩, ?_⟩
      have hlen : (List.replicate ((-d.exponent).toNat - (Nat.toDigits 10 d.digits).length) '0' ++
          Nat.toDigits 10 d.digits).length = (-d.exponent).toNat := by
        rw [List.length_append, List.length_replicate]
        omega
      rw [List.tail_cons, hlen, ← List.replicate_one, digitsValue_zeros_append,
        digitsValue_zeros_append, digitsValue_toDigits, hexp]

end Decimal

/-! ## Numbers -/

theorem Double.Plain.isNaN {x : Double} (h : x.Plain) : x.isNaN = false := by
  obtain ⟨m, hm, rfl⟩ := h
  unfold Double.isNaN
  rw [magnitude_ofMagnitude hm]
  exact decide_eq_false (by omega)

/-- A number is written as a numeral that reads back to it. -/
theorem Double.Plain.text_numeral {x : Double} (h : x.Plain) :
    ∃ w f e, x.text = w ++ f ++ e ∧ Numeral w f e ∧ read? x.text = some x := by
  have hnan := h.isNaN
  obtain ⟨m, hm, rfl⟩ := h
  have hmag := magnitude_ofMagnitude hm
  have hneg := isNegative_ofMagnitude hm
  unfold text
  rw [hnan, hneg]
  simp only [Bool.false_eq_true, if_false, List.nil_append]
  split
  · rename_i hinf
    have hinf : m = infinityBits := by simpa [isInfinite, hmag] using hinf
    subst hinf
    refine ⟨['1'], [], ['e', '4', '0', '0'], rfl, ⟨?_, .inl rfl, ?_, .inl (by simp)⟩,
      by decide +kernel⟩
    · simp [AllDigits]
    · exact .inr ⟨'e', [], ['4', '0', '0'], rfl, .inl rfl, .inl rfl, by simp,
        by simp [AllDigits]⟩
  · rename_i hinf
    have hinf : m ≠ infinityBits := by simpa [isInfinite, hmag] using hinf
    split
    · rename_i hz
      have hz : m = 0 := by simpa [isZero, hmag] using hz
      subst hz
      exact ⟨['0'], [], [], rfl, ⟨.zeros 1, .inl rfl, .inl rfl, .inl (by simp)⟩, by decide +kernel⟩
    · rename_i hz
      have hz : m ≠ 0 := by simpa [isZero, hmag] using hz
      obtain ⟨w, f, htext, hnum, hval⟩ := (Decimal.shortest (ofMagnitude false m)).positional_numeral
      refine ⟨w, f, [], htext, hnum, ?_⟩
      rw [Decimal.toMagnitude_shortest (by rwa [hmag]) (by rw [hmag]; omega), hmag] at hval
      have hread := hnum.readDecimal?_eq
      obtain ⟨c, cs, hcs, hc⟩ := hnum.head
      rw [htext, hcs, read?_eq_readDecimal? hc, ← hcs, hread]
      simp only [exponentValue?, Option.map_some, Int.zero_sub]
      rw [Decimal.toDouble, hval]

end Scad
