import Scad.Proofs.Grammar.Placed

/-!
# Where a token can be missing

A closing token that is not written is noted behind the token passed last, and so in front of the
place that was reached. A rule is *late* if it looks for a closing token only after it has passed a
token. All phrases of the grammar are late, so that what they note stands behind the place where
they start.
-/

namespace Scad

namespace Stream

variable {s t : Stream} {run : List Token}

theorem gapPosition_of_last (h : s.last ≠ none) : s.gapPosition.byte = s.floor := by
  obtain ⟨x, hx⟩ := Option.ne_none_iff_exists'.1 h
  simp [gapPosition, floor, hx]

theorem Passes.last_ne_none (h : s.Passes run t) (hne : run ≠ []) : t.last ≠ none := by
  rw [h.last, List.getLast?_eq_some_getLast hne]
  simp

theorem Passes.gapPosition_eq (h : s.Passes [] t) : t.gapPosition = s.gapPosition := by
  have hlast : t.last = s.last := by simpa using h.last
  have hpeek : t.peek = s.peek := h.peek_eq (by simp [h.count])
  rw [gapPosition, gapPosition, hlast, position, position, hpeek]

theorem Even.gap_le (hs : s.Even) : s.gapPosition.byte ≤ s.position.byte := by
  by_cases h : s.last = none
  · simp [gapPosition, h]
  · rw [gapPosition_of_last h]
    exact hs.floor_le

/-- A token that is missing behind what was passed is missing behind where this began. -/
theorem Even.position_le_gap (hs : s.Even) (h : s.Passes run t) (hne : run ≠ []) :
    s.position.byte ≤ t.gapPosition.byte := by
  rw [gapPosition_of_last (h.last_ne_none hne)]
  exact (hs.position_lt_floor h hne).le

theorem Even.gap_mono (hs : s.Even) (h : s.Passes run t) :
    s.gapPosition.byte ≤ t.gapPosition.byte := by
  by_cases hne : run = []
  · subst hne
    rw [h.gapPosition_eq]
  · exact hs.gap_le.trans (hs.position_le_gap h hne)

end Stream

namespace Rule

/-- The rule passes a token before it looks for a closing one. The flag tells that a token is known
to be ahead. -/
@[simp]
def Late : Bool → Rule → Prop
  | _, closing _ => False
  | e, seq a b => a.Late e ∧ (a.Eats e ∨ b.Late e)
  | e, feed a b => a.Late e ∧ (a.Eats e ∨ b.Late e)
  | e, as _ a => a.Late e
  | e, build _ a => a.Late e
  | e, fresh a => a.Late e
  | _, look g => ∀ a, (g a).Late (a.kind ≠ .eof)
  | e, recover a => a.Late e
  | _, _ => True

end Rule

/-! ## The table -/

namespace Grammar

open Rule

theorem late_ite {p : Prop} [Decidable p] {a b : Rule} {e : Bool} :
    (if p then a else b).Late e ↔ if p then a.Late e else b.Late e := by
  split <;> rfl

theorem argumentList_late {e : Bool} : argumentList.Late e := by
  simp [argumentList, all, Eats]

theorem statement_late : statement.Late false := by
  rintro ⟨k, x, k2⟩
  cases k with
  | identifier =>
    show (namedStatement _).Late true
    unfold namedStatement
    split
    · split_ifs <;> simp [Eats, node, all, boundStatement, assertStatement, moduleCall]
    · simp [Eats, node, all, declaration]
    · simp [Eats, node, all, moduleCall]
  | _ =>
    simp [Eats, node, all, moduleItem, functionItem, boundStatement, ifStatement, fileStatement,
      unionBlock, declaration]

theorem argument_late : argument.Late false := by
  rintro ⟨k, x, k2⟩
  dsimp only
  split <;> simp [Eats, node, all, namedArgument, expression]

theorem named_late {g : Form → Rule} {w : Wanted} {e : Bool} (h : ∀ n, (g n).Late true) :
    (named g w).Late e := by
  rintro ⟨k, x, k2⟩
  cases k <;> simp [h]

theorem primary_late : primary.Late false := by
  rintro ⟨k, x, k2⟩
  cases k with
  | identifier =>
    dsimp only
    split_ifs <;> simp [Eats, node, all, guardExpression]
  | _ => simp [Eats, node, all, listOrRange]

theorem operators_late (l : Level) : (operators l).Late false := by
  rintro ⟨k, x, k2⟩
  dsimp only
  split
  · trivial
  · rename_i m hm
    have hk : k ≠ .eof := by
      rintro rfl
      simp [Level.ofToken?] at hm
    split_ifs <;> simp [Eats, all, hk]

/-- All phrases are late. -/
theorem rule_late (p : Phrase) : (rule p).Late false := by
  cases p with
  | items | blockItems =>
    rintro ⟨k, x, k2⟩
    cases k <;> simp
  | statement => exact statement_late
  | body =>
    intro a
    dsimp only
    split <;> trivial
  | arguments => exact ⟨argument_late, .inl (argument_eats false)⟩
  | bindings =>
    intro a
    dsimp only
    split
    case h_4 =>
      refine ⟨named_late fun n => ?_, .inl (named_eats (fun n => ?_) _)⟩
      · simp [Eats, node, all, binding]
      · simp [Eats, node, all, binding]
    all_goals trivial
  | parameters =>
    intro a
    dsimp only
    split
    case h_3 =>
      refine ⟨named_late fun n => ?_, .inl (named_eats (fun n => ?_) _)⟩
      · simp [Eats, node, all, parameter]
      · simp [Eats, node, all, parameter]
    all_goals trivial
  | element =>
    rintro ⟨k, x, k2⟩
    cases k <;> simp [Eats, node, all, expression]
  | elements =>
    rintro ⟨k, x, k2⟩
    cases k <;> simp [Eats]
  | expr l => exact ⟨trivial, .inl rfl⟩
  | unary =>
    rintro ⟨k, x, k2⟩
    cases k <;> simp [Eats, node, all]
  | primary => exact primary_late
  | operators l => exact operators_late l
  | suffixes =>
    rintro ⟨k, x, k2⟩
    cases k <;> simp [Eats, all, argumentList_late]

end Grammar
end Scad
