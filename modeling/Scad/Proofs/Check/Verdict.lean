import Scad.Failure
import Scad.Proofs.Number.ReadBack

/-!
# Verdicts that are the same

Two verdicts are the same if both let a program through or both refuse it for the same violation,
wherever it is found. Of a violation the rule and the text of the details are shown, and they tell it
apart from all others, so the same verdict is also one that shows the same (`sameVerdict_iff`).
-/

namespace Scad

/-- Both are let through, or both are refused for the same violation, which settles the rule and the
details, wherever this is found. -/
def SameVerdict {α β : Type} (x : Except Failure α) (y : Except Failure β) : Prop :=
  (∃ a b, x = .ok a ∧ y = .ok b) ∨
    ∃ v s t, x = .error (.violation v s) ∧ y = .error (.violation v t)

theorem SameVerdict.andThen {x y x' y' : Except Failure Unit} (h : SameVerdict x y)
    (h' : SameVerdict x' y') :
    SameVerdict (do let _ ← x; x') (do let _ ← y; y') := by
  obtain ⟨a, b, rfl, rfl⟩ | ⟨v, s, t, rfl, rfl⟩ := h
  · exact h'
  · exact .inr ⟨v, s, t, rfl, rfl⟩

/-! ## The text of a violation -/

/-- A number ends where its digits end. -/
theorem toDigits_append_inj {m n : Nat} {x y : Char} {a b : List Char} (hx : x.isDigit = false)
    (hy : y.isDigit = false)
    (h : Nat.toDigits 10 m ++ x :: a = Nat.toDigits 10 n ++ y :: b) :
    m = n ∧ x :: a = y :: b := by
  have htake : ∀ (k : Nat) {z : Char} {c : List Char}, z.isDigit = false →
      (Nat.toDigits 10 k ++ z :: c).takeWhile Char.isDigit = Nat.toDigits 10 k := by
    intro k z c hz
    rw [List.takeWhile_append_of_pos (Lexer.allDigits_toDigits k),
      List.takeWhile_cons_of_neg (Bool.eq_false_iff.1 hz), List.append_nil]
  have hdigits := congrArg (List.takeWhile Char.isDigit) h
  rw [htake m hx, htake n hy] at hdigits
  refine ⟨?_, ?_⟩
  · rw [← Number.digitsValue_toDigits m, hdigits, Number.digitsValue_toDigits]
  · rw [hdigits] at h
    exact List.append_cancel_left h

theorem toDigits_inj {m n : Nat} (h : Nat.toDigits 10 m = Nat.toDigits 10 n) : m = n := by
  rw [← Number.digitsValue_toDigits m, h, Number.digitsValue_toDigits]

theorem MatrixDefect.message_inj {d d' : MatrixDefect} (h : d.message = d'.message) : d = d' := by
  have hchars := congrArg String.toList h
  -- other pairs of texts differ before the first number
  cases d <;> cases d' <;> simp [message] at hchars ⊢
  case rows.rows => exact toDigits_inj hchars
  case rowNotList.rowNotList => exact toDigits_inj hchars
  case rowNotList.columns => cases (toDigits_append_inj rfl rfl hchars).2
  case columns.rowNotList => cases (toDigits_append_inj rfl rfl hchars).2
  case columns.columns =>
    obtain ⟨hindex, hrest⟩ := toDigits_append_inj rfl rfl hchars
    simp only [List.cons.injEq, true_and] at hrest
    exact ⟨hindex, (toDigits_append_inj rfl rfl hrest).1⟩

/-- The rule and the details that are shown tell violations apart. -/
theorem Violation.shown_inj {v w : Violation} (hrule : v.rule = w.rule)
    (hdetails : v.details = w.details) : v = w := by
  have hchars := congrArg String.toList hdetails
  cases v <;> cases w <;> simp [rule] at hrule <;> simp [details] at hchars ⊢
  case matrix.matrix => exact MatrixDefect.message_inj (String.toList_inj.1 hchars)
  all_goals exact String.toList_inj.1 hchars

/-- Verdicts are the same if and only if both let through or both refuse, by the same rule and with
the same text. -/
theorem sameVerdict_iff {α β : Type} {x : Except Failure α} {y : Except Failure β} :
    SameVerdict x y ↔ (∃ a b, x = .ok a ∧ y = .ok b) ∨
      ∃ v w s t, x = .error (.violation v s) ∧ y = .error (.violation w t) ∧ v.rule = w.rule ∧
        v.details = w.details := by
  refine or_congr_right ⟨?_, ?_⟩
  · rintro ⟨v, s, t, hx, hy⟩
    exact ⟨v, v, s, t, hx, hy, rfl, rfl⟩
  · rintro ⟨v, w, s, t, hx, hy, hrule, hdetails⟩
    obtain rfl := Violation.shown_inj hrule hdetails
    exact ⟨v, s, t, hx, hy⟩

end Scad
