import Scad.Proofs.Grammar.Inversion

/-!
# Children come in turn

The children of a node are found by their roles, and where a child stands among the others is
settled by its role: the condition of a choice comes before its branches, the name of a call before
its arguments. Every role has its turn, and in no node of the grammar does a child come before one
whose turn is earlier.
-/

namespace Scad

/-- The turn of a child among the children of its node. -/
def Role.turn : Role → Nat
  | name | modifier | path | function | expression | init | start | left => 0
  | operator | condition | step => 1
  | parameters | arguments | bindings | value | right | operand | update | consequence | stop
  | statement | default => 2
  | body | index | field | alternative => 3
  | other _ => 0

namespace Node

/-- The second node does not come before the turn of the first. A node without a role has no turn. -/
def InOrder (a b : Node) : Prop :=
  ∀ r r', a.role = some r → b.role = some r' → r.turn ≤ r'.turn

/-- In this tree all children come in turn. -/
inductive InTurn : Node → Prop
  | mk {n : Node} (turns : n.children.Pairwise InOrder) (inner : ∀ c ∈ n.children, c.InTurn) :
    InTurn n

theorem InTurn.inRole {n : Node} (h : n.InTurn) (r : Role) : (n.inRole r).InTurn := by
  obtain ⟨turns, inner⟩ := h
  exact .mk turns inner

theorem inTurn_leaf {n : Node} (h : n.children = []) : n.InTurn :=
  .mk (by simp [h]) (by simp [h])

/-- Nodes that have no role yet, with children in turn. -/
def Fresh (ns : List Node) : Prop := ∀ n ∈ ns, n.InTurn ∧ n.role = none

end Node

namespace Rule

/-- A node of this rule may be in this role. -/
@[simp]
def Puts : Rule → Role → Prop
  | as r _, q => q = r
  | seq a b, q => a.Puts q ∨ b.Puts q
  | feed _ b, q => b.Puts q
  | fresh a, q => a.Puts q
  | look g, q => ∃ a, (g a).Puts q
  | recover a, q => a.Puts q
  | _, _ => False

/-- The nodes of this rule come in turn, and those that are handed on have no role. -/
@[simp]
def InTurn : Rule → Prop
  | seq a b => a.InTurn ∧ b.InTurn ∧ ∀ q, a.Puts q → ∀ q', b.Puts q' → q.turn ≤ q'.turn
  | feed a b => a.InTurn ∧ b.InTurn ∧ ∀ q, ¬ a.Puts q
  | as _ a => a.InTurn
  | build _ a => a.InTurn
  | fresh a => a.InTurn
  | look g => ∀ a, (g a).InTurn
  | recover a => a.InTurn
  | _ => True

/-- What is known of the nodes of a rule. -/
structure Turned (r : Rule) (ns : List Node) : Prop where
  inner : ∀ n ∈ ns, n.InTurn
  roles : ∀ n ∈ ns, ∀ q, n.role = some q → r.Puts q
  turns : ns.Pairwise Node.InOrder

theorem turned_nil {r : Rule} : r.Turned [] := ⟨by simp, by simp, .nil⟩

/-- Nodes without roles come in any order. -/
theorem turned_of_fresh {r : Rule} {ns : List Node} (h : Node.Fresh ns) : r.Turned ns := by
  refine ⟨fun n hn => (h n hn).1, fun n hn q hq => ?_, ?_⟩
  · rw [(h n hn).2] at hq
    cases hq
  · refine List.Pairwise.imp_of_mem (fun {a b} ha _ _ q q' hq => ?_) (List.pairwise_of_forall
      (R := fun _ _ => True) fun _ _ => trivial)
    rw [(h a ha).2] at hq
    cases hq

theorem apply_turned {f : Phrases}
    (hf : ∀ p fr s ns fs t, Node.Fresh fr.left → f p fr s = .ok ns fs t → Node.Fresh ns) :
    ∀ (r : Rule) (fr : Frame) (s t : Stream) (ns : List Node) (fs : List Fault), r.InTurn →
      Node.Fresh fr.left → r.apply f fr s = .ok ns fs t → r.Turned ns := by
  have leaf : ∀ {r : Rule} {k : Kind} {region : Region} {missing : Bool},
      r.Turned [{ kind := k, region, missing }] := by
    intro r k region missing
    refine turned_of_fresh fun n hn => ?_
    obtain rfl := List.mem_singleton.1 hn
    exact ⟨Node.inTurn_leaf rfl, rfl⟩
  intro r
  induction r with
  | done | take =>
    intro fr s t ns fs _ _ h
    simp only [apply, Outcome.ok.injEq] at h
    obtain ⟨rfl, -⟩ := h
    exact turned_nil
  | keep =>
    intro fr s t ns fs _ hl h
    simp only [apply, Outcome.ok.injEq] at h
    obtain ⟨rfl, -⟩ := h
    exact turned_of_fresh hl
  | leaf g =>
    intro fr s t ns fs _ _ h
    simp only [apply, Outcome.ok.injEq] at h
    obtain ⟨rfl, -⟩ := h
    exact leaf
  | expect k =>
    intro fr s t ns fs _ _ h
    obtain ⟨-, rfl, -⟩ := expect_eq_ok.1 h
    exact turned_nil
  | closing k =>
    intro fr s t ns fs _ _ h
    rcases closing_eq_ok.1 h with ⟨-, rfl, -⟩ | ⟨-, rfl, -⟩
    · exact turned_nil
    · exact leaf
  | refuse w => intro fr s t ns fs _ _ h; simp [apply] at h
  | seq a b iha ihb =>
    intro fr s t ns fs hr hl h
    obtain ⟨m, gs, u, n, hs, ha, hb, rfl, -⟩ := seq_eq_ok.1 h
    have h1 := iha fr s u m gs hr.1 hl ha
    have h2 := ihb fr u t n hs hr.2.1 hl hb
    refine ⟨?_, ?_, List.pairwise_append.2 ⟨h1.turns, h2.turns, ?_⟩⟩
    · intro x hx
      exact (List.mem_append.1 hx).elim (h1.inner x) (h2.inner x)
    · intro x hx q hq
      exact (List.mem_append.1 hx).imp (h1.roles x · q hq) (h2.roles x · q hq)
    · intro x hx y hy q q' hq hq'
      exact hr.2.2 q (h1.roles x hx q hq) q' (h2.roles y hy q' hq')
  | feed a b iha ihb =>
    intro fr s t ns fs hr hl h
    obtain ⟨m, gs, u, hs, ha, hb, -⟩ := feed_eq_ok.1 h
    have h1 := iha fr s u m gs hr.1 hl ha
    have h2 := ihb _ u t ns hs hr.2.1 (fun n hn => ⟨h1.inner n hn, ?_⟩) hb
    · exact ⟨h2.inner, h2.roles, h2.turns⟩
    · rw [Option.eq_none_iff_forall_ne_some]
      intro q hq
      exact hr.2.2 q (h1.roles n hn q hq)
  | as r a iha =>
    intro fr s t ns fs hr hl h
    obtain ⟨m, ha, rfl⟩ := as_eq_ok.1 h
    have hm := iha fr s t m fs hr hl ha
    refine ⟨fun n hn => ?_, fun n hn q hq => ?_, List.pairwise_map.2 ?_⟩
    · obtain ⟨x, hx, rfl⟩ := List.mem_map.1 hn
      exact (hm.inner x hx).inRole r
    · obtain ⟨x, -, rfl⟩ := List.mem_map.1 hn
      exact (Option.some.inj hq).symm
    · refine List.pairwise_of_forall fun x y q q' hq hq' => ?_
      obtain rfl : r = q := Option.some.inj hq
      obtain rfl : r = q' := Option.some.inj hq'
      exact Nat.le_refl _
  | build g a iha =>
    intro fr s t ns fs hr hl h
    obtain ⟨m, ha, rfl⟩ := build_eq_ok.1 h
    have hm := iha fr s t m fs hr hl ha
    refine turned_of_fresh fun n hn => ?_
    obtain rfl := List.mem_singleton.1 hn
    exact ⟨.mk hm.turns hm.inner, rfl⟩
  | fresh a iha =>
    intro fr s t ns fs hr _ h
    have ha := iha _ s t ns fs hr (by simp [Node.Fresh]) h
    exact ⟨ha.inner, ha.roles, ha.turns⟩
  | look g ih =>
    intro fr s t ns fs hr hl h
    have hg := ih s.look fr s t ns fs (hr _) hl h
    exact ⟨hg.inner, fun n hn q hq => ⟨_, hg.roles n hn q hq⟩, hg.turns⟩
  | call p =>
    intro fr s t ns fs _ hl h
    exact turned_of_fresh (hf p fr s ns fs t hl h)
  | recover a iha =>
    intro fr s t ns fs hr hl h
    rcases recover_eq_ok.1 h with h | ⟨fault, gs, u, -, -, -, rfl⟩
    · have ha := iha fr s t ns fs hr hl h
      exact ⟨ha.inner, ha.roles, ha.turns⟩
    · exact leaf

end Rule

/-! ## The table -/

namespace Grammar

open Rule

theorem puts_ite {p : Prop} [Decidable p] {a b : Rule} {q : Role} :
    (if p then a else b).Puts q ↔ p ∧ a.Puts q ∨ ¬ p ∧ b.Puts q := by
  split <;> simp [*]

theorem inTurn_ite {p : Prop} [Decidable p] {a b : Rule} :
    (if p then a else b).InTurn ↔ if p then a.InTurn else b.InTurn := by
  split <;> rfl

theorem argumentList_puts {q : Role} : argumentList.Puts q ↔ q = .arguments := by
  simp [argumentList, all]

theorem argumentList_inTurn : argumentList.InTurn := by
  simp only [argumentList, all, node, InTurn, Puts]
  refine ⟨trivial, ⟨fun a => ?_, trivial, by simp⟩, by simp⟩
  split <;> trivial

theorem bindingList_puts {q : Role} : bindingList.Puts q ↔ q = .bindings := by
  simp [bindingList, all]

theorem bindingList_inTurn : bindingList.InTurn := by
  simp [bindingList, assignments, all, node]

theorem parameterList_puts {q : Role} : parameterList.Puts q ↔ q = .parameters := by
  simp [parameterList, all]

theorem parameterList_inTurn : parameterList.InTurn := by
  simp [parameterList, all, node]

theorem callTail_puts {q : Role} : callTail.Puts q ↔ q = .body := by
  constructor
  · rintro ⟨a, h⟩
    dsimp only at h
    split at h
    · exact h.elim
    · exact h.elim
    · exact h
  · rintro rfl
    exact ⟨⟨.lbrace, "", .eof⟩, rfl⟩

theorem callTail_inTurn : callTail.InTurn := by
  intro a
  dsimp only
  split <;> trivial

theorem statement_inTurn : statement.InTurn := by
  rintro ⟨k, x, k2⟩
  cases k with
  | identifier =>
    show (namedStatement _).InTurn
    unfold namedStatement
    split
    · split_ifs <;> simp +decide [node, all, boundStatement, assertStatement, moduleCall,
        bindingList_inTurn, bindingList_puts, argumentList_inTurn, argumentList_puts,
        callTail_inTurn, callTail_puts]
    · simp +decide [node, all, declaration, expression]
    · simp +decide [node, all, moduleCall, argumentList_inTurn, argumentList_puts,
        callTail_inTurn, callTail_puts]
  | _ =>
    simp +decide [node, all, moduleItem, functionItem, boundStatement, ifStatement, fileStatement,
      unionBlock, declaration, expression, bindingList_inTurn, bindingList_puts,
      parameterList_inTurn, parameterList_puts, inTurn_ite, puts_ite] <;> grind [Role.turn]

theorem named_inTurn {g : Form → Rule} {w : Wanted} (h : ∀ n, (g n).InTurn) :
    (named g w).InTurn := by
  rintro ⟨k, x, k2⟩
  cases k <;> simp [h]

theorem named_puts {g : Form → Rule} {w : Wanted} (h : ∀ n q, ¬ (g n).Puts q) (q : Role) :
    ¬ (named g w).Puts q := by
  rintro ⟨⟨k, x, k2⟩, hq⟩
  cases k <;> simp [h] at hq

theorem primary_inTurn : primary.InTurn := by
  rintro ⟨k, x, k2⟩
  cases k with
  | identifier =>
    dsimp only
    split_ifs <;> simp +decide [node, all, guardExpression, expression, argumentList_inTurn,
      argumentList_puts, inTurn_ite, puts_ite] <;> grind [Role.turn]
  | lbracket =>
    refine ⟨trivial, fun a => ?_, by simp⟩
    dsimp only
    split <;> simp +decide [all, rangeBounds, expression, inTurn_ite, puts_ite]
    grind [Role.turn]
  | _ =>
    simp +decide [node, all, expression, bindingList_inTurn, bindingList_puts,
      parameterList_inTurn, parameterList_puts]

/-- In no rule of the table does a node come before its turn. -/
theorem rule_inTurn (p : Phrase) : (rule p).InTurn := by
  cases p with
  | items | blockItems =>
    rintro ⟨k, x, k2⟩
    cases k <;> simp
  | statement => exact statement_inTurn
  | body =>
    intro a
    dsimp only
    split <;> trivial
  | arguments =>
    refine ⟨fun a => ?_, fun a => ?_, ?_⟩
    · dsimp only
      split <;> simp +decide [node, all, namedArgument, expression]
    · simp [inTurn_ite, puts_ite]
    · simp [puts_ite]
  | bindings =>
    intro a
    dsimp only
    split
    case h_4 =>
      refine ⟨named_inTurn fun n => ?_, fun a => ?_, ?_⟩
      · simp +decide [node, all, binding, expression]
      · simp [inTurn_ite]
      · simp [puts_ite]
    all_goals trivial
  | parameters =>
    intro a
    dsimp only
    split
    case h_3 =>
      refine ⟨named_inTurn fun n => ?_, fun a => ?_, ?_⟩
      · simp [node, all, parameter, expression, inTurn_ite, puts_ite]
        grind [Role.turn]
      · simp [inTurn_ite]
      · simp [puts_ite]
    all_goals trivial
  | element =>
    rintro ⟨k, x, k2⟩
    cases k <;> simp +decide [node, all, expression, loopHead, assignments, inTurn_ite, puts_ite,
      bindingList_inTurn, bindingList_puts] <;> grind [Role.turn]
  | elements => simp [rule, elements, inTurn_ite, puts_ite]
  | expr l => simp [rule, expr]
  | operators l =>
    intro a
    dsimp only
    split
    · trivial
    · split_ifs <;> simp +decide [all, expression]
  | unary =>
    rintro ⟨k, x, k2⟩
    cases k <;> simp +decide [node, all]
  | primary => exact primary_inTurn
  | suffixes =>
    rintro ⟨k, x, k2⟩
    cases k <;> simp +decide [all, expression, argumentList_inTurn, argumentList_puts, inTurn_ite,
      puts_ite]
    grind [Role.turn]

theorem statement_puts (q : Role) : ¬ statement.Puts q := by
  rintro ⟨⟨k, x, k2⟩, h⟩
  cases k with
  | identifier =>
    have h : (namedStatement _).Puts q := h
    unfold namedStatement at h
    split at h
    · split_ifs at h <;> exact h
    · exact h
    · exact h
  | _ => exact h

theorem primary_puts (q : Role) : ¬ primary.Puts q := by
  rintro ⟨⟨k, x, k2⟩, h⟩
  cases k with
  | identifier =>
    dsimp only at h
    split_ifs at h <;> exact h
  | lbracket =>
    obtain h | ⟨a, h⟩ := h
    · exact h
    · dsimp only at h
      split at h <;> simp [puts_ite] at h
  | _ => exact h

/-- The nodes of a phrase have no role: they get one where the phrase is called. -/
theorem rule_puts (p : Phrase) (q : Role) : ¬ (rule p).Puts q := by
  cases p with
  | items | blockItems =>
    rintro ⟨⟨k, x, k2⟩, h⟩
    cases k <;> simp at h
  | statement => exact statement_puts q
  | body =>
    rintro ⟨a, h⟩
    dsimp only at h
    split at h <;> exact h
  | arguments =>
    rintro (⟨a, h⟩ | ⟨a, h⟩)
    · dsimp only at h
      split at h <;> exact h
    · simp [puts_ite] at h
  | bindings =>
    rintro ⟨a, h⟩
    dsimp only at h
    split at h
    case h_4 =>
      refine h.elim (named_puts (fun _ _ => id) q) fun h => ?_
      simp [puts_ite] at h
    all_goals exact h
  | parameters =>
    rintro ⟨a, h⟩
    dsimp only at h
    split at h
    case h_3 =>
      refine h.elim (named_puts (fun _ _ => id) q) fun h => ?_
      simp [puts_ite] at h
    all_goals exact h
  | element =>
    rintro ⟨⟨k, x, k2⟩, h⟩
    cases k <;> exact h
  | elements => simp [rule, elements, puts_ite]
  | expr l => simp [rule, expr]
  | operators l =>
    rintro ⟨a, h⟩
    dsimp only at h
    split at h
    · exact h
    · split_ifs at h <;> exact h
  | unary =>
    rintro ⟨⟨k, x, k2⟩, h⟩
    cases k <;> exact h
  | primary => exact primary_puts q
  | suffixes =>
    rintro ⟨⟨k, x, k2⟩, h⟩
    cases k <;> exact h

/-- All that is parsed has its children in turn. -/
theorem parsePhrase_fresh (p : Phrase) (fr : Frame) (s t : Stream) (ns : List Node)
    (fs : List Fault) (hl : Node.Fresh fr.left) (h : parsePhrase p fr s = .ok ns fs t) :
    Node.Fresh ns := by
  refine parsePhrase_induct
    (P := fun _ fr _ o => ∀ ns fs t, Node.Fresh fr.left → o = .ok ns fs t → Node.Fresh ns)
    ?_ ?_ p fr s ns fs t hl h
  · intro p fr s ns fs t _ h
    cases h
  · intro f hf p fr s ns fs t hl h
    have hturned := apply_turned (fun p fr s => hf p fr s) (rule p) fr s t ns fs (rule_inTurn p) hl h
    refine fun n hn => ⟨hturned.inner n hn, ?_⟩
    rw [Option.eq_none_iff_forall_ne_some]
    exact fun q hq => rule_puts p q (hturned.roles n hn q hq)

/-- The statements of a file have their children in turn. -/
theorem items_inTurn {source : List Char} {nodes : List Node} {fs : List Fault} {t : Stream}
    (h : parsePhrase .items { start := {} } (.start (tokenize source)) = .ok nodes fs t) :
    ∀ n ∈ nodes, n.InTurn :=
  fun n hn => (parsePhrase_fresh .items _ _ t nodes fs (by simp [Node.Fresh]) h n hn).1

end Grammar
end Scad
