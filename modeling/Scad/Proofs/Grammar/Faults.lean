import Scad.Proofs.Grammar.Progress

/-!
# Faults show in the tree

Faults are noted in a list, and apart from it the tree gets a node for each place at which the source
breaks the grammar. Nodes made before a failure are thrown away with their statement. Still the two
agree: there is a fault in the list exactly if there is an error node or a missing token in the tree
(`ofTokens_faults`). The reason is that no rule of the table loses a node that it was given.
-/

namespace Scad

namespace Node

@[simp]
theorem anyError_nil : anyError [] = false := rfl

@[simp]
theorem anyError_cons (n : Node) (ns : List Node) :
    anyError (n :: ns) = (n.hasError || anyError ns) := rfl

@[simp]
theorem anyError_append (a b : List Node) : anyError (a ++ b) = (anyError a || anyError b) := by
  induction a with
  | nil => rfl
  | cons n a ih => rw [List.cons_append, anyError_cons, anyError_cons, ih, Bool.or_assoc]

@[simp]
theorem hasError_inRole (n : Node) (r : Role) : (n.inRole r).hasError = n.hasError := by
  cases n
  simp [inRole, hasError]

@[simp]
theorem anyError_map_inRole (ns : List Node) (r : Role) :
    anyError (ns.map (·.inRole r)) = anyError ns := by
  induction ns with
  | nil => rfl
  | cons n ns ih => rw [List.map_cons, anyError_cons, anyError_cons, ih, hasError_inRole]

@[simp]
theorem hasError_form (f : Form) (region : Region) (children : List Node) :
    hasError { kind := .form f, region, children } = anyError children := rfl

end Node

/-- Faults were noted exactly if an error is among the nodes. With the flag the nodes to the left
are among those given, and their errors count as well. -/
def Outcome.Honest (carried : Bool) (left : List Node) : Outcome → Prop
  | ok nodes fs _ =>
    Node.anyError nodes = true ↔ fs ≠ [] ∨ (carried = true ∧ Node.anyError left = true)
  | failed _ _ _ => True

/-- The phrases that go on from a node to their left. -/
def Phrase.carries : Phrase → Bool
  | .operators _ | .suffixes => true
  | _ => false

theorem append_faults {fs gs : List Fault} : fs ++ gs ≠ [] ↔ fs ≠ [] ∨ gs ≠ [] := by
  cases fs <;> simp

namespace Rule

/-- The rule gives the nodes to its left if the flag is set, and leaves them out if not. Nodes that
are fed to a rule are given by it. -/
@[simp]
def Carries : Bool → Rule → Prop
  | c, keep => c = true
  | c, seq a b => a.Carries c ∧ b.Carries false
  | c, feed a b => a.Carries c ∧ b.Carries true
  | c, as _ a => a.Carries c
  | c, build _ a => a.Carries c
  | c, fresh a => c = false ∧ a.Carries false
  | c, look g => ∀ a, (g a).Carries c
  | c, call p => c = p.carries
  | _, refuse _ => True
  | c, recover a => c = false ∧ a.Carries false
  | c, _ => c = false

theorem apply_honest {f : Phrases} (hf : ∀ p fr s, (f p fr s).Honest p.carries fr.left) :
    ∀ (r : Rule) (c : Bool) (fr : Frame) (s : Stream), r.Carries c →
      (r.apply f fr s).Honest c fr.left := by
  intro r
  induction r with
  | done | take | leaf =>
    intro c fr s hc
    have hc : c = false := hc
    simp [apply, Outcome.Honest, hc]
  | keep =>
    intro c fr s hc
    have hc : c = true := hc
    simp [apply, Outcome.Honest, hc]
  | refuse => intro c fr s hc; trivial
  | expect k =>
    intro c fr s hc
    have hc : c = false := hc
    simp only [apply]
    split
    · simp [Outcome.Honest, hc]
    · trivial
  | closing k =>
    intro c fr s hc
    have hc : c = false := hc
    simp only [apply]
    split
    · simp [Outcome.Honest, hc]
    · simp [Outcome.Honest, Node.absent, Node.hasError]
  | seq a b iha ihb =>
    rintro c fr s ⟨hx, hy⟩
    have ha := iha c fr s hx
    simp only [apply]
    split
    · rename_i n fa u e
      rw [e] at ha
      have hb := ihb false fr u hy
      cases eb : b.apply f fr u with
      | ok m fb t =>
        rw [eb] at hb
        simp only [Outcome.Honest, Outcome.map, Outcome.after, Node.anyError_append,
          Bool.or_eq_true] at ha hb ⊢
        rw [ha, hb, append_faults]
        grind
      | failed _ _ _ => trivial
    · trivial
  | feed a b iha ihb =>
    rintro c fr s ⟨hx, hy⟩
    have ha := iha c fr s hx
    simp only [apply]
    split
    · rename_i n fa u e
      rw [e] at ha
      have hb := ihb true { fr with left := n } u hy
      cases eb : b.apply f { fr with left := n } u with
      | ok m fb t =>
        rw [eb] at hb
        simp only [Outcome.Honest, Outcome.after, true_and] at ha hb ⊢
        rw [hb, ha, append_faults]
        grind
      | failed _ _ _ => trivial
    · trivial
  | as r a iha | build g a iha =>
    intro c fr s hc
    have ha := iha c fr s hc
    simp only [apply]
    cases e : a.apply f fr s with
    | ok n fs t =>
      rw [e] at ha
      simpa [Outcome.Honest, Outcome.map] using ha
    | failed _ _ _ => trivial
  | fresh a iha =>
    rintro c fr s ⟨rfl, hx⟩
    have ha := iha false { start := s.position } s hx
    simp only [apply]
    cases e : a.apply f { start := s.position } s with
    | ok n fs t =>
      rw [e] at ha
      simpa [Outcome.Honest] using ha
    | failed _ _ _ => trivial
  | look g ih =>
    intro c fr s hc
    exact ih s.look c fr s (hc s.look)
  | call p =>
    intro c fr s hc
    have hc : c = p.carries := hc
    rw [hc]
    exact hf p fr s
  | recover a iha =>
    rintro c fr s ⟨rfl, hc⟩
    have ha := iha false fr s hc
    simp only [apply]
    split
    · rename_i e
      rw [e] at ha
      exact ha
    · simp [Outcome.Honest, Node.hasError]

end Rule

namespace Grammar

open Rule

theorem assignments_carries : assignments.Carries false := by
  simp [assignments, node, all, Carries, Phrase.carries]

theorem bindingList_carries : bindingList.Carries false := by
  simp [bindingList, all, Carries, assignments_carries]

theorem parameterList_carries : parameterList.Carries false := by
  simp [parameterList, node, all, Carries, Phrase.carries]

theorem argumentList_carries : argumentList.Carries false := by
  refine ⟨rfl, ⟨rfl, fun a => ?_⟩, rfl⟩
  dsimp only
  split <;> simp [Carries, Phrase.carries]

theorem callTail_carries : callTail.Carries false := by
  intro a
  dsimp only
  split <;> simp [Carries, Phrase.carries]

theorem carries_ite {p : Prop} [Decidable p] {a b : Rule} {c : Bool} :
    (if p then a else b).Carries c ↔ if p then a.Carries c else b.Carries c := by
  split <;> rfl

theorem statement_carries : statement.Carries false := by
  rintro ⟨k, x, k2⟩
  cases k with
  | identifier =>
    show (namedStatement _).Carries false
    unfold namedStatement
    split
    · split_ifs <;> simp [Carries, Phrase.carries, node, all, boundStatement, assertStatement,
        moduleCall, bindingList_carries, argumentList_carries, callTail_carries]
    · simp [Carries, Phrase.carries, node, all, declaration, expression]
    · simp [Carries, node, all, moduleCall, argumentList_carries, callTail_carries]
  | _ =>
    simp [Carries, Phrase.carries, node, all, moduleItem, functionItem, boundStatement, ifStatement,
      fileStatement, unionBlock, declaration, expression, bindingList_carries,
      parameterList_carries, carries_ite]

theorem arguments_carries : arguments.Carries false := by
  refine ⟨fun a => ?_, fun a => ?_⟩
  · dsimp only
    split <;> simp [Carries, Phrase.carries, node, all, namedArgument, expression]
  · simp [Carries, Phrase.carries, carries_ite]

theorem named_carries {g : Form → Rule} {w : Wanted} (h : ∀ n, (g n).Carries false) :
    (named g w).Carries false := by
  rintro ⟨k, x, k2⟩
  cases k <;> simp [Carries, h]

theorem bindings_carries : bindings.Carries false := by
  intro a
  dsimp only
  split
  · rfl
  · rfl
  · rfl
  · refine ⟨named_carries fun n => ?_, ?_⟩
    · simp [Carries, Phrase.carries, node, all, binding, expression]
    · simp [Carries, Phrase.carries, carries_ite]

theorem parameters_carries : parameters.Carries false := by
  intro a
  dsimp only
  split
  · rfl
  · rfl
  · refine ⟨named_carries fun n => ?_, ?_⟩
    · simp [Carries, Phrase.carries, node, all, parameter, expression, carries_ite]
    · simp [Carries, Phrase.carries, carries_ite]

theorem loopHead_carries : loopHead.Carries false := by
  simp [loopHead, Carries, Phrase.carries, all, expression, carries_ite, assignments_carries]

theorem element_carries : element.Carries false := by
  rintro ⟨k, x, k2⟩
  cases k <;> simp [Carries, Phrase.carries, node, all, expression, carries_ite, loopHead_carries,
    bindingList_carries]

theorem operators_carries (l : Level) : (operators l).Carries true := by
  rintro ⟨k, x, k2⟩
  dsimp only
  split
  · rfl
  · split_ifs <;> simp [Carries, Phrase.carries, all, expression]

theorem suffixes_carries : suffixes.Carries true := by
  rintro ⟨k, x, k2⟩
  cases k <;> simp [Carries, Phrase.carries, all, expression, carries_ite, argumentList_carries]

theorem listOrRange_carries : listOrRange.Carries false := by
  refine ⟨rfl, rfl, fun a => ?_⟩
  dsimp only
  split <;> simp [Carries, Phrase.carries, all, expression, carries_ite, rangeBounds]

theorem primary_carries : primary.Carries false := by
  rintro ⟨k, x, k2⟩
  cases k with
  | identifier =>
    dsimp only
    split_ifs <;> simp [Carries, Phrase.carries, node, all, guardExpression, expression,
      carries_ite, argumentList_carries]
  | _ =>
    simp [Carries, Phrase.carries, node, all, expression, bindingList_carries,
      parameterList_carries, listOrRange_carries]

/-- No rule of the table loses a node. -/
theorem rule_carries (p : Phrase) : (rule p).Carries p.carries := by
  cases p with
  | items | blockItems =>
    rintro ⟨k, x, k2⟩
    cases k <;> simp [Carries, Phrase.carries]
  | statement => exact statement_carries
  | body =>
    intro a
    dsimp only
    split <;> simp [Carries, Phrase.carries]
  | arguments => exact arguments_carries
  | bindings => exact bindings_carries
  | parameters => exact parameters_carries
  | element => exact element_carries
  | elements => simp [rule, elements, Carries, Phrase.carries, carries_ite]
  | expr l => simp [rule, expr, Carries, Phrase.carries]
  | operators l => exact operators_carries l
  | unary =>
    rintro ⟨k, x, k2⟩
    cases k <;> simp [Carries, Phrase.carries, node, all]
  | primary => exact primary_carries
  | suffixes => exact suffixes_carries

theorem parsePhrase_honest (p : Phrase) (fr : Frame) (s : Stream) :
    (parsePhrase p fr s).Honest p.carries fr.left := by
  refine parsePhrase_induct (P := fun p fr _ o => o.Honest p.carries fr.left) ?_ ?_ p fr s
  · intro p fr s
    trivial
  · intro f hf p fr s
    exact apply_honest hf (rule p) p.carries fr s (rule_carries p)

end Grammar
end Scad
