import Scad.Proofs.Check.Flag
import Scad.Proofs.Check.Verdict
import Scad.Proofs.Program.RoundTrip
import Scad.Proofs.Scope.Homes

/-!
# The verdict depends on structure only

Two programs that agree wherever things stand break the same rules, though names are looked up by
where they stand: a name is seen from the same scope in both, and each part of the one breaks what
the corresponding part of the other does. The step is one part (`findings_same`); the run over all
parts of a program follows from it (`Twin.visit`).
-/

namespace Scad

open Outline

/-- The same scopes, and names that are related by `W` are looked up from the same one. -/
structure Context.Mirrors (W : Name → Name → Prop) (c d : Context) : Prop where
  scopes : List.Forall₂ (Scope.Twin W) c.scopes d.scopes
  home : ∀ n n', W n n' → c.scopeAt n.span = d.scopeAt n'.span

variable {W : Name → Name → Prop} {c d : Context}

/-! ## Parts of twins -/

theorem Expr.outline_eq (e : Expr) : ∃ inner, e.outline = .part (.expr e) inner .nil := by
  cases e <;> exact ⟨_, rfl⟩

/-- Twin lists of which the first entry is an expression. -/
theorem Outline.Twin.head {e e' : Expr} {o o' : Outline}
    (h : Twin W (e.outline ++ o) (e'.outline ++ o')) :
    Twin W e.outline e'.outline ∧ Twin W o o' := by
  obtain ⟨inner, he⟩ := e.outline_eq
  obtain ⟨inner', he'⟩ := e'.outline_eq
  rw [he, he', part_append, part_append, nil_append, nil_append] at h
  rw [he, he']
  cases h with
  | part agree whole whole' hinner hnext => exact ⟨.part agree whole whole' hinner .nil, hnext⟩

theorem Expr.Twin.inner {e e' : Expr} {o o' : Outline} (h : e.Twin W e')
    (he : e.outline = .part (.expr e) o .nil) (he' : e'.outline = .part (.expr e') o' .nil) :
    Outline.Twin W o o' := by
  have ho := h.outline
  rw [he, he'] at ho
  cases ho with
  | part _ _ _ hinner _ => exact hinner

theorem Expr.twin_all {es es' : List Expr} (h : Expr.agreeAll .ignored es es' = true)
    (ho : Outline.Twin W (Expr.outlineAll es) (Expr.outlineAll es')) :
    List.Forall₂ (Expr.Twin W) es es' := by
  induction Expr.agreeAll_iff.1 h with
  | nil => exact .nil
  | cons he hes ih => exact .cons ⟨he, ho.head.1⟩ (ih (Expr.agreeAll_iff.2 hes) ho.head.2)

/-! ## Matrices -/

namespace Matrix

/-- Seen through parentheses and names, twins are still twins. -/
theorem resolve_twin (h : c.Mirrors W d) : ∀ (n : Nat) {e e' : Expr}, e.Twin W e' →
    Option.Rel (Expr.Twin W) (resolve c n e) (resolve d n e')
  | 0, _, _, _ => .none
  | n + 1, e, e', he => by
    cases Expr.matched he.agree with
    | paren s s' inner => exact resolve_twin h n ⟨inner, he.inner rfl rfl⟩
    | @ident x x' =>
      cases he.inner rfl rfl with
      | name text same _ =>
        simp only [resolve]
        rw [← text, ← h.home x x' same]
        -- the same name is looked up from the same scope
        exact rel_bind (rel_bind (Context.Twin.lookup h.scopes _ _) fun _ _ hb => hb)
          fun _ _ hv => resolve_twin h n hv
    | _ => exact .some he

theorem isGenerated_eq {e e' : Expr} (h : e.agree .ignored e' = true) :
    isGenerated e = isGenerated e' := by
  cases Expr.matched h <;> rfl

theorem any_isGenerated {es es' : List Expr} (h : List.Forall₂ (Expr.Twin W) es es') :
    es.any isGenerated = es'.any isGenerated := by
  induction h with
  | nil => rfl
  | cons he _ ih => rw [List.any_cons, List.any_cons, isGenerated_eq he.agree, ih]

theorem rowDefect_eq (h : c.Mirrors W d) (i : Nat) {e e' : Expr} (he : e.Twin W e') :
    rowDefect c i e = rowDefect d i e' := by
  have hr := resolve_twin h resolveDepth he
  unfold rowDefect
  generalize resolve c resolveDepth e = r at hr
  generalize resolve d resolveDepth e' = r' at hr
  cases hr with
  | none => rfl
  | some hv =>
    cases Expr.matched hv.agree with
    | list s s' elements =>
      have hes := Expr.twin_all elements (hv.inner rfl rfl)
      simp only [any_isGenerated hes, hes.length_eq]
    | _ => rfl

theorem rowsDefect_eq (h : c.Mirrors W d) {es es' : List Expr}
    (hes : List.Forall₂ (Expr.Twin W) es es') : ∀ i, rowsDefect c i es = rowsDefect d i es' := by
  induction hes with
  | nil => exact fun _ => rfl
  | cons he _ ih =>
    intro i
    simp only [rowsDefect, rowDefect_eq h i he, ih]

/-- Twins have the same defect. -/
theorem defect_eq (h : c.Mirrors W d) {e e' : Expr} (he : e.Twin W e') :
    defect c e = defect d e' := by
  have hr := resolve_twin h resolveDepth he
  unfold defect
  generalize resolve c resolveDepth e = r at hr
  generalize resolve d resolveDepth e' = r' at hr
  cases hr with
  | none => rfl
  | some hv =>
    cases Expr.matched hv.agree with
    | list s s' elements =>
      have hes := Expr.twin_all elements (hv.inner rfl rfl)
      simp only [any_isGenerated hes, hes.length_eq, rowsDefect_eq h hes]
    | _ => rfl

/-- The matrices of twin calls are twins. -/
theorem argument_twin {as as' : List Arg} (h : Arg.agreeAll .ignored as as' = true)
    {o o' : Outline} (ho : Outline.Twin W (Arg.outlineAll as ++ o) (Arg.outlineAll as' ++ o')) :
    Option.Rel (Expr.Twin W) (argument? as) (argument? as') := by
  induction Arg.agreeAll_iff.1 h with
  | nil => exact .none
  | cons ha has ih =>
    rw [Arg.outlineAll, Arg.outlineAll, append_assoc, append_assoc] at ho
    cases Arg.matched ha with
    | positional value => exact .some ⟨value, ho.head.1⟩
    | named _ _ text value =>
      simp only [argument?, text]
      split
      · exact .some ⟨value, ho.head.1⟩
      · exact ih (Arg.agreeAll_iff.2 has) ho.head.2

end Matrix

/-! ## Rules -/

/-- Entries with the same key. -/
def SameKey {α β γ : Type} (x : α × β) (y : α × γ) : Prop := x.1 = y.1

namespace Double

/-- Numbers that are equal are equal to the same ones. -/
theorem equal_congr {x y : Double} (h : x.equal y = true) (z : Double) : x.equal z = y.equal z := by
  simp only [equal, Bool.and_eq_true, Bool.or_eq_true, beq_iff_eq] at h
  obtain ⟨-, hbits | ⟨hx, hy⟩⟩ := h
  · rw [show x = y from congrArg mk hbits]
  · rw [equal_of_isZero hx, equal_of_isZero hy]

end Double

namespace AssertParam

/-- Which entry is the first one that repeats a key is up to the keys. -/
theorem firstRepeat_same {α β : Type} [DecidableEq α] {xs ys : List (α × β)}
    (h : List.Forall₂ SameKey xs ys) :
    ∀ seen, Option.Rel SameKey (firstRepeat seen xs) (firstRepeat seen ys) := by
  induction h with
  | nil => exact fun _ => .none
  | @cons x y xs ys hxy _ ih =>
    intro seen
    obtain ⟨k, a⟩ := x
    obtain ⟨l, b⟩ := y
    obtain rfl : k = l := hxy
    simp only [firstRepeat]
    split
    · exact .some rfl
    · exact ih _

theorem bindingsFrom_same {as as' : List Arg} (h : Arg.agreeAll .ignored as as' = true) :
    ∀ n, List.Forall₂ SameKey (bindingsFrom n as) (bindingsFrom n as') := by
  induction Arg.agreeAll_iff.1 h with
  | nil => exact fun _ => .nil
  | cons ha has ih =>
    intro n
    have ih := ih (Arg.agreeAll_iff.2 has)
    cases Arg.matched ha with
    | positional value =>
      simp only [bindingsFrom]
      split
      · exact .cons rfl (ih _)
      · exact ih _
    | named _ _ text value =>
      simp only [bindingsFrom, text]
      split
      · exact .cons rfl (ih _)
      · exact ih _

end AssertParam

namespace Strict

theorem repeated_same {xs ys : List (String × Span)} (h : List.Forall₂ SameKey xs ys) :
    Option.Rel SameKey (repeated xs) (repeated ys) :=
  AssertParam.firstRepeat_same h []

theorem ofBindings_same (keyword : String) {bs bs' : List Assignment}
    (h : Assignment.agreeAll .ignored bs bs' = true) (s s' : Span) :
    List.Forall₂ SameKey (ofBindings keyword bs s) (ofBindings keyword bs' s') := by
  cases Assignment.agreeAll_iff.1 h with
  | nil => exact .cons rfl .nil
  | cons => exact .nil

theorem ofLoop_same {l l' : LoopHead} (h : l.agree .ignored l' = true) (s s' : Span) :
    List.Forall₂ SameKey (ofLoop l s) (ofLoop l' s') := by
  cases LoopHead.matched h with
  | iterating bindings => exact ofBindings_same _ bindings s s'
  | counting => exact .nil

theorem ofClause_same {x x' : Clause} (h : x.agree .ignored x' = true) :
    List.Forall₂ SameKey (ofClause x) (ofClause x') := by
  cases Clause.matched h with
  | loop s s' head => exact ofLoop_same head s s'
  | filter => exact .nil
  | letIn s s' bindings => exact ofBindings_same _ bindings s s'

theorem ofParams_same {ps ps' : List Param} (h : Param.agreeAll .ignored ps ps' = true) :
    List.Forall₂ SameKey (ofParams ps) (ofParams ps') := by
  have hkeys : List.Forall₂ SameKey (ps.map fun p => (p.name.text, p.span))
      (ps'.map fun p => (p.name.text, p.span)) := by
    refine List.forall₂_map_left_iff.2 (List.forall₂_map_right_iff.2 ?_)
    refine (Param.agreeAll_iff.1 h).imp fun p p' hp => ?_
    cases Param.matched hp with
    | mk _ _ text _ => exact text
  have hrepeat := repeated_same hkeys
  unfold ofParams
  generalize repeated (ps.map _) = x at hrepeat
  generalize repeated (ps'.map _) = y at hrepeat
  cases hrepeat with
  | none => exact .nil
  | some hk => exact .cons (congrArg Violation.repeatedParameter hk) .nil

theorem ofArgs_same {as as' : List Arg} (h : Arg.agreeAll .ignored as as' = true) :
    List.Forall₂ SameKey (ofArgs as) (ofArgs as') := by
  have hkeys : List.Forall₂ SameKey
      (as.filterMap fun a => a.name?.map fun n => (n.text, a.span))
      (as'.filterMap fun a => a.name?.map fun n => (n.text, a.span)) := by
    refine List.rel_filterMap (fun a a' ha => ?_) (Arg.agreeAll_iff.1 h)
    cases Arg.matched ha with
    | positional => exact .none
    | named _ _ text _ => exact .some text
  have hrepeat := repeated_same hkeys
  unfold ofArgs
  generalize repeated (as.filterMap _) = x at hrepeat
  generalize repeated (as'.filterMap _) = y at hrepeat
  cases hrepeat with
  | none => exact .nil
  | some hk => exact .cons (congrArg Violation.repeatedArgument hk) .nil

theorem ofAssertArgs_same {as as' : List Arg} (h : Arg.agreeAll .ignored as as' = true) :
    List.Forall₂ SameKey (ofAssertArgs as) (ofAssertArgs as') := by
  have hrepeat := AssertParam.firstRepeat_same (AssertParam.bindingsFrom_same h 0) []
  unfold ofAssertArgs AssertParam.firstRebinding AssertParam.bindings
  refine List.rel_append (ofArgs_same h) ?_
  generalize AssertParam.firstRepeat [] (AssertParam.bindingsFrom 0 as) = x at hrepeat
  generalize AssertParam.firstRepeat [] (AssertParam.bindingsFrom 0 as') = y at hrepeat
  cases hrepeat with
  | none => exact .nil
  | some hk => exact .cons (congrArg (fun p => Violation.repeatedAssert (AssertParam.text p)) hk) .nil

theorem ofMatrix_same (h : c.Mirrors W d) {as as' : List Arg}
    (has : Arg.agreeAll .ignored as as' = true) {o o' : Outline}
    (ho : Outline.Twin W (Arg.outlineAll as ++ o) (Arg.outlineAll as' ++ o')) :
    List.Forall₂ SameKey (ofMatrix c as) (ofMatrix d as') := by
  have harg := Matrix.argument_twin has ho
  unfold ofMatrix
  generalize Matrix.argument? as = x at harg
  generalize Matrix.argument? as' = y at harg
  cases harg with
  | none => exact .nil
  | some hv =>
    simp only [Matrix.defect_eq h hv]
    split
    · exact .cons rfl .nil
    · exact .nil

theorem isLiteralZero_eq {e e' : Expr} (h : e.agree .ignored e' = true) :
    isLiteralZero e = isLiteralZero e' := by
  cases Expr.matched h with
  | @literal v v' s s' value =>
    cases v <;> cases v' <;> first | rfl | cases value | skip
    exact Double.equal_congr value .zero
  | unary o s s' operand =>
    cases o with
    | neg | pos => simpa only [isLiteralZero] using isLiteralZero_eq operand
    | not => rfl
  | paren s s' inner => simpa only [isLiteralZero] using isLiteralZero_eq inner
  | _ => rfl
termination_by structural e

theorem ofItem_same {i i' : Item} (h : i.agree .ignored i' = true) :
    List.Forall₂ SameKey (ofItem i) (ofItem i') := by
  cases Item.matched h with
  | moduleDef _ _ _ params | functionDef _ _ _ params => exact ofParams_same params
  | variableDef | stmt => exact .nil

theorem ofStmt_same (h : c.Mirrors W d) {t t' : Stmt} (ht : t.agree .ignored t' = true)
    (ho : Outline.Twin W t.outline t'.outline) :
    List.Forall₂ SameKey (ofStmt c t) (ofStmt d t') := by
  cases Stmt.matched ht with
  | call s s' text args tail =>
    simp only [ofStmt, text]
    refine List.rel_append (ofArgs_same args) ?_
    split
    · cases ho with
      | part _ _ _ hinner _ => exact ofMatrix_same h args hinner
    · exact .nil
  | bound k s s' bindings => exact ofBindings_same _ bindings s s'
  | assert _ _ args => exact ofAssertArgs_same args
  | block | choice | file | modified | empty => exact .nil

theorem ofExpr_same {e e' : Expr} (h : e.agree .ignored e' = true) :
    List.Forall₂ SameKey (ofExpr e) (ofExpr e') := by
  cases Expr.matched h with
  | call _ _ _ args => exact ofArgs_same args
  | guarded g _ _ args =>
    cases g with
    | echo => exact ofArgs_same args
    | assert => exact ofAssertArgs_same args
  | letIn s s' bindings => exact ofBindings_same _ bindings s s'
  | function _ _ params => exact ofParams_same params
  | range _ _ _ step =>
    cases Expr.agreeOption_iff.1 step with
    | none => exact .nil
    | some hstep =>
      simp only [ofExpr, isLiteralZero_eq hstep]
      split
      · exact .cons rfl .nil
      · exact .nil
  | comprehension s s' head clauses =>
    refine List.rel_append (ofLoop_same head s s') ?_
    exact List.rel_flatMap (Clause.agreeAll_iff.1 clauses) fun _ _ hx => ofClause_same hx
  | _ => exact .nil

/-- Parts that correspond break the same rules. -/
theorem findings_same (h : c.Mirrors W d) {p p' : Part} (hp : p.agree .ignored p' = true)
    (ho : Outline.Twin W p.outline p'.outline) :
    List.Forall₂ SameKey (findings c p) (findings d p') := by
  cases p with
  | item i =>
    cases p' with
    | item i' => exact ofItem_same hp
    | _ => cases hp
  | stmt t =>
    cases p' with
    | stmt t' => exact ofStmt_same h hp ho
    | _ => cases hp
  | expr e =>
    cases p' with
    | expr e' => exact ofExpr_same hp
    | _ => cases hp

end Strict

/-! ## Verdicts -/

theorem Strict.check_same (h : c.Mirrors W d) {p p' : Part} (hp : p.agree .ignored p' = true)
    (ho : Outline.Twin W p.outline p'.outline) : SameVerdict (check c p) (check d p') := by
  have hfindings := findings_same h hp ho
  unfold check
  generalize findings c p = fs at hfindings
  generalize findings d p' = fs' at hfindings
  cases hfindings with
  | nil => exact .inl ⟨_, _, rfl, rfl⟩
  | @cons f f' fs fs' hf =>
    obtain ⟨v, s⟩ := f
    obtain ⟨v', s'⟩ := f'
    obtain rfl : v = v' := hf
    exact .inr ⟨v, s, s', rfl, rfl⟩

/-- The first part that breaks a rule is the same in twin outlines. -/
theorem Outline.Twin.visit (h : c.Mirrors W d) {o o' : Outline} (ho : Twin W o o') :
    SameVerdict (o.visit (.entering (Strict.check c))) (o'.visit (.entering (Strict.check d))) := by
  induction ho with
  | nil => exact .inl ⟨_, _, rfl, rfl⟩
  | name _ _ _ ih => exact ih
  | part agree whole whole' hinner _ ihi ihn =>
    simp only [Outline.visit, Visitor.hook_entering]
    refine ((Strict.check_same h agree ?_).andThen ihi).andThen ihn
    rw [whole, whole']
    exact .part agree whole whole' hinner .nil
  | binding _ _ _ _ ihi ihn | param _ _ _ ihi ihn => exact ihi.andThen ihn
  | scope _ _ _ _ _ _ ihb ihi ihn => exact ihb.andThen (ihi.andThen ihn)

namespace Program

/-- Two programs that agree wherever things stand are both strict, or they break the same rule. -/
theorem validate_same {a b : List Char} {p q : Program} (hp : parse a = .ok p)
    (hq : parse b = .ok q) (h : Item.agreeAll .ignored p.items q.items = true) :
    SameVerdict p.validate q.validate := by
  obtain ⟨W, htwin, hscopes, hhome⟩ := Program.twin hp hq h
  have hvisit := htwin.visit ⟨hscopes, hhome⟩
  rw [Item.visitAll_outline, Item.visitAll_outline] at hvisit
  rw [p.validate_eq, q.validate_eq]
  exact hvisit

theorem parseStrict_same {a b : List Char} {p q : Program} (hp : parse a = .ok p)
    (hq : parse b = .ok q) (h : SameVerdict p.validate q.validate) :
    SameVerdict (parseStrict a) (parseStrict b) := by
  unfold parseStrict
  rw [hp, hq]
  obtain ⟨_, _, hp', hq'⟩ | ⟨v, s, t, hp', hq'⟩ := h
  · exact .inl ⟨p, q, by simp [hp'], by simp [hq']⟩
  · exact .inr ⟨v, s, t, by simp [hp'], by simp [hq']⟩

/-- Whether a program is strict, and what it breaks if not, does not depend on where things stand. In
particular a printed program gets the verdict of the program that was printed. -/
theorem verdict_of_structure {a : List Char} {p : Program} (hp : parse a = .ok p) :
    (∀ b q, parse b = .ok q → Item.agreeAll .ignored p.items q.items = true →
      SameVerdict p.validate q.validate) ∧
    ∀ layout, SameVerdict (parseStrict (p.print layout).toList) (parseStrict a) := by
  refine ⟨fun b q hq h => validate_same hp hq h, fun layout => ?_⟩
  obtain ⟨nodes, nodes', t, t', hparse, hgives, like⟩ := items_of_print hp layout
  obtain ⟨p', r, hp', hr, hagree, -⟩ := agree_of_items hparse hgives like
  obtain rfl := Except.ok.inj (hp.symm.trans hp')
  have hitems : Item.agreeAll .ignored r.items p.items = true := by
    simp only [Program.agree, Bool.and_eq_true] at hagree
    exact hagree.1
  exact parseStrict_same hr hp (validate_same hr hp hitems)

/-- A matrix of one row that is found from within a loop in a module, with braces and without them. -/
theorem verdict_of_structure_braces :
    ∃ p q, parse "m = [1]; module f(k) for (i = k) multmatrix(m) cube();".toList = .ok p ∧
      parse "m=[1];module f(k){for(i=k)multmatrix(m)cube();}".toList = .ok q ∧
      p.validate = .error (.violation (.matrix (.rows 1)) ⟨⟨⟨44, 0, 44⟩, ⟨45, 0, 45⟩⟩, some "m"⟩) ∧
      q.validate = .error (.violation (.matrix (.rows 1)) ⟨⟨⟨37, 0, 37⟩, ⟨38, 0, 38⟩⟩, some "m"⟩) ∧
      SameVerdict p.validate q.validate ∧
      SameVerdict (parseStrict (p.print {}).toList)
        (parseStrict "m = [1]; module f(k) for (i = k) multmatrix(m) cube();".toList) := by
  have hok : (SyntaxTree.ofSource
      "m = [1]; module f(k) for (i = k) multmatrix(m) cube();".toList).faults = [] := by
    decide +kernel
  have hok' : (SyntaxTree.ofSource
      "m=[1];module f(k){for(i=k)multmatrix(m)cube();}".toList).faults = [] := by
    decide +kernel
  have hagree : ((parse "m = [1]; module f(k) for (i = k) multmatrix(m) cube();".toList).toOption.bind
      fun p => (parse "m=[1];module f(k){for(i=k)multmatrix(m)cube();}".toList).toOption.map
      fun q => Item.agreeAll .ignored p.items q.items) = some true := by
    decide +kernel
  have hrefused : ((parse "m = [1]; module f(k) for (i = k) multmatrix(m) cube();".toList).toOption.map
      validate) = some (.error (.violation (.matrix (.rows 1))
        ⟨⟨⟨44, 0, 44⟩, ⟨45, 0, 45⟩⟩, some "m"⟩)) := by
    decide +kernel
  have hrefused' : ((parse "m=[1];module f(k){for(i=k)multmatrix(m)cube();}".toList).toOption.map
      validate) = some (.error (.violation (.matrix (.rows 1))
        ⟨⟨⟨37, 0, 37⟩, ⟨38, 0, 38⟩⟩, some "m"⟩)) := by
    decide +kernel
  obtain ⟨p, hp, -⟩ := parse_of_faultless hok
  obtain ⟨q, hq, -⟩ := parse_of_faultless hok'
  rw [hp, hq] at hagree
  rw [hp] at hrefused
  rw [hq] at hrefused'
  obtain ⟨hsame, hprinted⟩ := verdict_of_structure hp
  exact ⟨p, q, hp, hq, Option.some.inj hrefused, Option.some.inj hrefused',
    hsame _ q hq (Option.some.inj hagree), hprinted {}⟩

end Program
end Scad
