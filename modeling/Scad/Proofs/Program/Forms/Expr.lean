import Scad.Proofs.Program.Forms

/-!
# Compound expressions

What the compound forms of expressions are read as, one statement for each form. `let`, loops and
choices are read in two ways, as an expression and as clauses of the comprehension around them.
-/

namespace Scad

open Read Piece

section

variable {source : List Char} {region : Region} {role : Option Role} {missing : Bool}
  {a b c d g : Node} {ea eb ec : Expr} {la lb lc : TokenKind} {name : Name}

/-! ## Operators -/

theorem BinaryOp.ofText?_text (o : BinaryOp) : BinaryOp.ofText? o.text = some o := by
  cases o <;> decide

theorem UnaryOp.ofText?_text (o : UnaryOp) : UnaryOp.ofText? o.text = some o := by
  cases o <;> decide

/-- A leaf that has this text. -/
structure Node.IsSymbol (source : List Char) (n : Node) (text : String) : Prop where
  text : String.ofList (textIn source (n.reading source).region) = text
  bare : n.bareBodies = []

theorem Node.isSymbol_leaf {t : Token} {f : Form} (hf : f ≠ .moduleItem) (h : t.Sound source) :
    Node.IsSymbol source ⟨.form f, t.region, role, missing, []⟩ t.text := by
  refine ⟨?_, by rw [bareBodies_form hf]; rfl⟩
  rw [Node.reading_form]
  show String.ofList (textIn source t.region.forward) = _
  rw [h.textIn_eq, String.ofList_toList]

theorem Shape.yields_symbol {n : Shape} {r : Role} {x : String}
    (h : n.child? r = some { g.reading n.source with role := some r })
    (hg : Node.IsSymbol n.source g x) :
    Yields (n.symbolIn r) (x, .ofRegion (g.reading n.source).region) := by
  have hy := Shape.yields_symbolIn h
  rwa [hg.text] at hy

theorem Node.isExpr_binary {o : BinaryOp} (ha : a.IsExpr source ea la)
    (hg : g.IsSymbol source o.text) (hb : b.IsExpr source eb lb) :
    Node.IsExpr source
      ⟨.form .binaryExpression, region, role, missing,
        [a.inRole .left, g.inRole .operator, b.inRole .right]⟩
      (.binary o ea eb (.ofRegion region.forward)) lb := by
  obtain ⟨ka, hka⟩ := ha.neat
  obtain ⟨kb, hkb⟩ := hb.neat
  refine isExpr_of_plain rfl ?_ ⟨ka, Expr.neat_binary hka hkb⟩ (by simp [ha.bare, hg.bare, hb.bare])
  simp only [List.map_cons, List.map_nil, Node.reading_inRole]
  refine (Shape.yields_symbol rfl hg).bind ?_
  simp only [BinaryOp.ofText?_text]
  exact (Shape.yields_expr rfl ha).bind ((Shape.yields_expr rfl hb).bind (yields_pure _))

theorem Node.isExpr_unary {o : UnaryOp} (hg : g.IsSymbol source o.text)
    (ha : a.IsExpr source ea la) :
    Node.IsExpr source
      ⟨.form .unaryExpression, region, role, missing, [g.inRole .operator, a.inRole .operand]⟩
      (.unary o ea (.ofRegion region.forward)) la := by
  obtain ⟨ka, hka⟩ := ha.neat
  refine isExpr_of_plain rfl ?_ ⟨_, Expr.neat_unary hka⟩ (by simp [ha.bare, hg.bare])
  simp only [List.map_cons, List.map_nil, Node.reading_inRole]
  refine (Shape.yields_symbol rfl hg).bind ?_
  simp only [UnaryOp.ofText?_text]
  exact (Shape.yields_expr rfl ha).bind (yields_pure _)

theorem Node.isExpr_ternary (ha : a.IsExpr source ea la) (hb : b.IsExpr source eb lb)
    (hc : c.IsExpr source ec lc) :
    Node.IsExpr source
      ⟨.form .ternaryExpression, region, role, missing,
        [a.inRole .condition, b.inRole .consequence, c.inRole .alternative]⟩
      (.ternary ea eb ec (.ofRegion region.forward)) lc := by
  obtain ⟨ka, hka⟩ := ha.neat
  obtain ⟨kb, hkb⟩ := hb.neat
  obtain ⟨kc, hkc⟩ := hc.neat
  refine isExpr_of_plain rfl ?_ ⟨ka, Expr.neat_ternary hka hkb hkc⟩
    (by simp [ha.bare, hb.bare, hc.bare])
  simp only [List.map_cons, List.map_nil, Node.reading_inRole]
  exact (Shape.yields_expr rfl ha).bind ((Shape.yields_expr rfl hb).bind
    ((Shape.yields_expr rfl hc).bind (yields_pure _)))

theorem Node.isExpr_paren (ha : a.IsExpr source ea la) :
    Node.IsExpr source
      ⟨.form .parenthesizedExpression, region, role, missing, [a.inRole .expression]⟩
      (.paren ea (.ofRegion region.forward)) .rparen := by
  obtain ⟨ka, hka⟩ := ha.neat
  refine isExpr_of_plain rfl ?_ ⟨_, Expr.neat_paren hka⟩ (by simp [ha.bare])
  simp only [List.map_cons, List.map_nil, Node.reading_inRole]
  exact (Shape.yields_expr rfl ha).bind (yields_pure _)

/-! ## Calls, indexes and members -/

theorem Node.isExpr_call {as : List Arg} (ha : a.IsExpr source ea la) (hd : d.IsArgs source as) :
    Node.IsExpr source
      ⟨.form .functionCall, region, role, missing, [a.inRole .function, d.inRole .arguments]⟩
      (.call ea as (.ofRegion region.forward)) .rparen := by
  obtain ⟨ka, hka⟩ := ha.neat
  refine isExpr_of_plain rfl ?_ ⟨ka, Expr.neat_call hka hd.neat⟩ (by simp [ha.bare, hd.bare])
  simp only [List.map_cons, List.map_nil, Node.reading_inRole]
  exact (Shape.yields_expr rfl ha).bind ((Shape.yields_arguments rfl hd).bind (yields_pure _))

theorem Node.isExpr_index (ha : a.IsExpr source ea la) (hb : b.IsExpr source eb lb) :
    Node.IsExpr source
      ⟨.form .indexExpression, region, role, missing, [a.inRole .value, b.inRole .index]⟩
      (.index ea eb (.ofRegion region.forward)) .rbracket := by
  obtain ⟨ka, hka⟩ := ha.neat
  obtain ⟨kb, hkb⟩ := hb.neat
  refine isExpr_of_plain rfl ?_ ⟨ka, Expr.neat_index hka hkb⟩ (by simp [ha.bare, hb.bare])
  simp only [List.map_cons, List.map_nil, Node.reading_inRole]
  exact (Shape.yields_expr rfl ha).bind ((Shape.yields_expr rfl hb).bind (yields_pure _))

theorem Node.isExpr_member (ha : a.IsExpr source ea la) (hd : d.IsName source name)
    (hdot : ea.number?.isSome = true ∨ la ≠ .number) :
    ∃ l, l ≠ .number ∧ Node.IsExpr source
      ⟨.form .dotIndexExpression, region, role, missing, [a.inRole .value, d.inRole .field]⟩
      (.member ea name (.ofRegion region.forward)) l := by
  obtain ⟨ka, hka⟩ := ha.neat
  obtain ⟨l, hl, hne⟩ := Expr.neat_member (n := name) hka hdot
  refine ⟨l, hne, isExpr_of_plain rfl ?_ ⟨ka, hl⟩ (by simp [ha.bare, hd.bare])⟩
  simp only [List.map_cons, List.map_nil, Node.reading_inRole]
  exact (Shape.yields_expr rfl ha).bind ((Shape.yields_name rfl hd).bind (yields_pure _))

/-! ## Functions and guards -/

theorem Node.isExpr_function {ps : List Param} (hd : d.IsParams source ps)
    (ha : a.IsExpr source ea la) :
    Node.IsExpr source
      ⟨.form .functionLiteral, region, role, missing, [d.inRole .parameters, a.inRole .body]⟩
      (.function ps ea (.ofRegion region.forward)) la := by
  obtain ⟨ka, hka⟩ := ha.neat
  refine isExpr_of_plain rfl ?_ ⟨_, Expr.neat_function hd.neat hka⟩ (by simp [ha.bare, hd.bare])
  simp only [List.map_cons, List.map_nil, Node.reading_inRole]
  refine (Shape.yields_parameters rfl hd).bind (Yields.inScope ?_ _ _)
  exact (yields_update _).bind ((Shape.yields_expr rfl ha).bind (yields_pure _))

/-- The form of the node of a guard. -/
def Guard.form : Guard → Form
  | assert => .assertExpression
  | echo => .echoExpression

theorem Node.isExpr_guard (o : Guard) {as : List Arg} (hd : d.IsArgs source as) :
    Node.IsExpr source ⟨.form o.form, region, role, missing, [d.inRole .arguments]⟩
      (.guarded o as none (.ofRegion region.forward)) .rparen := by
  obtain ⟨l, hl, hr⟩ := Expr.neat_guarded (g := o) (e := none) (s := .ofRegion region.forward)
    hd.neat (by simp)
  obtain rfl := hr rfl
  refine isExpr_of_plain (by cases o <;> rfl) ?_ ⟨_, hl⟩ (by simp [hd.bare])
  simp only [List.map_cons, List.map_nil, Node.reading_inRole]
  cases o <;>
    exact (Shape.yields_arguments rfl hd).bind ((Shape.yields_optional_none rfl).bind
      (yields_pure _))

theorem Node.isExpr_guard_body (o : Guard) {as : List Arg} (hd : d.IsArgs source as)
    (ha : a.IsExpr source ea la) :
    ∃ l, Node.IsExpr source
      ⟨.form o.form, region, role, missing, [d.inRole .arguments, a.inRole .body]⟩
      (.guarded o as (some ea) (.ofRegion region.forward)) l := by
  obtain ⟨ka, hka⟩ := ha.neat
  obtain ⟨l, hl, -⟩ := Expr.neat_guarded (g := o) (e := some ea) (s := .ofRegion region.forward)
    hd.neat (fun x hx => ⟨ka, la, Option.some.inj hx ▸ hka⟩)
  refine ⟨l, isExpr_of_plain (by cases o <;> rfl) ?_ ⟨_, hl⟩ (by simp [hd.bare, ha.bare])⟩
  simp only [List.map_cons, List.map_nil, Node.reading_inRole]
  cases o <;>
    exact (Shape.yields_arguments rfl hd).bind ((Shape.yields_optionalExpr rfl ha).bind
      (yields_pure _))

/-! ## Lists and ranges -/

/-- The node is read as this expression, whatever it ends with. -/
def Node.IsElement (source : List Char) (n : Node) (e : Expr) : Prop :=
  ∃ l, Node.IsExpr source n e l

theorem Node.isExpr_list {ns : List Node} {es : List Expr}
    (h : List.Forall₂ (Node.IsElement source) ns es) :
    Node.IsExpr source ⟨.form .list, region, role, missing, ns⟩
      (.list es (.ofRegion region.forward)) .rbracket := by
  refine isExpr_of_plain rfl ?_ ⟨_, Expr.neat_list ?_⟩ ?_
  · refine Yields.bind (Yields.each (List.forall₂_map_left_iff.2 ?_)) (yields_pure _)
    exact h.imp fun _ _ ⟨_, hn⟩ => hn.expr
  · induction h with
    | nil => exact .nil
    | cons hn _ ih =>
      obtain ⟨_, hn⟩ := hn
      obtain ⟨_, hk⟩ := hn.neat
      exact .cons hk ih
  · exact bareBodiesAll_of_forall (fun _ _ ⟨_, hn⟩ => hn.bare) h

theorem Node.isExpr_range (ha : a.IsExpr source ea la) (hc : c.IsExpr source ec lc) :
    Node.IsExpr source
      ⟨.form .range, region, role, missing, [a.inRole .start, c.inRole .stop]⟩
      (.range ea none ec (.ofRegion region.forward)) .rbracket := by
  obtain ⟨ka, hka⟩ := ha.neat
  obtain ⟨kc, hkc⟩ := hc.neat
  refine isExpr_of_plain rfl ?_ ⟨_, Expr.neat_range hka (by simp) hkc⟩ (by simp [ha.bare, hc.bare])
  simp only [List.map_cons, List.map_nil, Node.reading_inRole]
  exact (Shape.yields_expr rfl ha).bind ((Shape.yields_optional_none rfl).bind
    ((Shape.yields_expr rfl hc).bind (yields_pure _)))

theorem Node.isExpr_range_step (ha : a.IsExpr source ea la) (hb : b.IsExpr source eb lb)
    (hc : c.IsExpr source ec lc) :
    Node.IsExpr source
      ⟨.form .range, region, role, missing, [a.inRole .start, b.inRole .step, c.inRole .stop]⟩
      (.range ea (some eb) ec (.ofRegion region.forward)) .rbracket := by
  obtain ⟨ka, hka⟩ := ha.neat
  obtain ⟨kb, hkb⟩ := hb.neat
  obtain ⟨kc, hkc⟩ := hc.neat
  refine isExpr_of_plain rfl ?_
    ⟨_, Expr.neat_range hka (fun x hx => ⟨kb, lb, Option.some.inj hx ▸ hkb⟩) hkc⟩
    (by simp [ha.bare, hb.bare, hc.bare])
  simp only [List.map_cons, List.map_nil, Node.reading_inRole]
  exact (Shape.yields_expr rfl ha).bind ((Shape.yields_optionalExpr rfl hb).bind
    ((Shape.yields_expr rfl hc).bind (yields_pure _)))

theorem Node.isExpr_each (ha : a.IsExpr source ea la) :
    Node.IsExpr source ⟨.form .each, region, role, missing, [a.inRole .value]⟩
      (.each ea (.ofRegion region.forward)) la := by
  obtain ⟨ka, hka⟩ := ha.neat
  refine isExpr_of_plain rfl ?_ ⟨_, Expr.neat_each hka⟩ (by simp [ha.bare])
  simp only [List.map_cons, List.map_nil, Node.reading_inRole]
  exact (Shape.yields_expr rfl ha).bind (yields_pure _)

/-! ## Bindings, loops and choices -/

/-- A tail that is read from a child. -/
theorem Shape.yields_tail {n : Shape} {r : Role} {t : List Clause × Expr}
    (h : n.child? r = some { a.reading n.source with role := some r })
    (ha : Yields (a.reading n.source).tail t) : Yields (n.tailIn r) t :=
  Shape.yields_tailIn h ha

theorem Node.isExpr_letIn {bs : List Assignment} (hd : d.IsBindings source bs)
    (ha : a.IsExpr source ea la) :
    Node.IsExpr source
      ⟨.form .letExpression, region, role, missing, [d.inRole .bindings, a.inRole .body]⟩
      (.letIn bs ea (.ofRegion region.forward)) la := by
  obtain ⟨ka, hka⟩ := ha.neat
  obtain ⟨cs, e, l, ht, hw, hn⟩ := ha.tail
  have hexpr : Yields (Shape.asExpr ⟨source, .form .letExpression, region.forward,
      [d.inRole .bindings, a.inRole .body].map (Node.reading source)⟩)
      (.letIn bs ea (.ofRegion region.forward)) := by
    simp only [List.map_cons, List.map_nil, Node.reading_inRole, Shape.asExpr]
    refine Yields.inScope ?_ _ _
    exact (Shape.yields_bindings rfl hd).bind ((Shape.yields_expr rfl ha).bind (yields_pure _))
  refine ⟨?_, ⟨.letIn bs (.ofRegion region.forward) :: cs, e, l, ?_, ?_, .letIn hd.neat hn⟩, ?_,
    ⟨_, Expr.neat_letIn hd.neat hka⟩, ?_⟩
  · rw [Node.reading_form]
    exact hexpr
  · rw [Node.reading_form]
    simp only [List.map_cons, List.map_nil, Node.reading_inRole, Shape.reading, Shape.asTail]
    refine Yields.inScope ?_ _ _
    exact (Shape.yields_bindings rfl hd).bind ((Shape.yields_tail rfl ht).bind (yields_pure _))
  · simp only [words_append, words_blank] at hw
    simp [Clause.piecesAll, Clause.pieces, Expr.pieces, hw]
  · rw [Node.reading_form]
    exact hexpr.bind (yields_pure _)
  · rw [bareBodies_form (by decide)]
    simp [hd.bare, ha.bare]

/-- A loop, given its head. -/
theorem Node.isExpr_loop {ns : List Node} {h : LoopHead}
    (hh : Yields (Shape.loopHead
      ⟨source, .form .listComprehension, region.forward, ns.map (Node.reading source)⟩) h)
    (hn : NeatHead h)
    (hbody : Shape.child? ⟨source, .form .listComprehension, region.forward,
      ns.map (Node.reading source)⟩ .body = some { a.reading source with role := some .body })
    (ha : a.IsExpr source ea la) (hbare : bareBodiesAll ns = []) :
    ∃ e l, Node.IsExpr source ⟨.form .listComprehension, region, role, missing, ns⟩ e l ∧
      words e.pieces = words h.pieces ++ words ea.pieces := by
  obtain ⟨cs, b, l, ht, hw, hnt⟩ := ha.tail
  have hexpr : Yields (Shape.asExpr ⟨source, .form .listComprehension, region.forward,
      ns.map (Node.reading source)⟩) (.comprehension h cs b (.ofRegion region.forward)) := by
    refine Yields.inScope (hh.bind ?_) _ _
    refine Yields.bind (Shape.yields_tail hbody ht) ?_
    exact yields_pure _
  have hwords : words (Expr.comprehension h cs b (.ofRegion region.forward)).pieces =
      words h.pieces ++ words ea.pieces := by
    simp only [words_append, words_blank] at hw
    simp [Expr.pieces, hw]
  refine ⟨_, l, ⟨?_, ⟨.loop h (.ofRegion region.forward) :: cs, b, l, ?_, ?_, .loop hn hnt⟩, ?_,
    ⟨_, Expr.neat_comprehension hn hnt⟩, ?_⟩, hwords⟩
  · rw [Node.reading_form]
    exact hexpr
  · rw [Node.reading_form]
    refine Yields.inScope (hh.bind ?_) _ _
    refine Yields.bind (Shape.yields_tail hbody ht) ?_
    exact yields_pure _
  · simp [Clause.piecesAll, Clause.pieces, Expr.pieces]
  · rw [Node.reading_form]
    exact hexpr.bind (yields_pure _)
  · rw [bareBodies_form (by decide), hbare]

theorem Node.isExpr_iterating {bs : List Assignment} (hd : d.IsBindings source bs)
    (ha : a.IsExpr source ea la) :
    ∃ e l, Node.IsExpr source
      ⟨.form .listComprehension, region, role, missing, [d.inRole .bindings, a.inRole .body]⟩ e l ∧
      words e.pieces = words (LoopHead.iterating bs).pieces ++ words ea.pieces := by
  refine isExpr_loop ?_ (LoopHead.neat_iterating hd.neat) ?_ ha (by simp [hd.bare, ha.bare])
  · simp only [List.map_cons, List.map_nil, Node.reading_inRole]
    exact hd.assignments.bind (yields_pure _)
  · simp only [List.map_cons, List.map_nil, Node.reading_inRole]
    rfl

theorem Node.isExpr_counting {is us : List Assignment} (hb : b.IsBindings source is)
    (hc : c.IsExpr source ec lc) (hd : d.IsBindings source us) (ha : a.IsExpr source ea la) :
    ∃ e l, Node.IsExpr source
      ⟨.form .listComprehension, region, role, missing,
        [b.inRole .init, c.inRole .condition, d.inRole .update, a.inRole .body]⟩ e l ∧
      words e.pieces = words (LoopHead.counting is ec us).pieces ++ words ea.pieces := by
  obtain ⟨kc, hkc⟩ := hc.neat
  refine isExpr_loop ?_ (LoopHead.neat_counting hb.neat hkc hd.neat) ?_ ha
    (by simp [hb.bare, hc.bare, hd.bare, ha.bare])
  · simp only [List.map_cons, List.map_nil, Node.reading_inRole]
    exact (Shape.yields_bindings rfl hb).bind ((Shape.yields_expr rfl hc).bind
      ((Shape.yields_bindings rfl hd).bind (yields_pure _)))
  · simp only [List.map_cons, List.map_nil, Node.reading_inRole]
    rfl

theorem Node.isExpr_filter (hc : c.IsExpr source ec lc) (ha : a.IsExpr source ea la) :
    ∃ l, Node.IsExpr source
      ⟨.form .ifComprehension, region, role, missing, [c.inRole .condition, a.inRole .consequence]⟩
      (.choice ec ea none (.ofRegion region.forward)) l := by
  obtain ⟨kc, hkc⟩ := hc.neat
  obtain ⟨ka, hka⟩ := ha.neat
  obtain ⟨cs, e, l, ht, hw, hnt⟩ := ha.tail
  obtain ⟨m, hm⟩ := Expr.neat_choice (s := .ofRegion region.forward) (e := none) hkc hka (by simp)
  have hexpr : Yields (Shape.asExpr ⟨source, .form .ifComprehension, region.forward,
      [c.inRole .condition, a.inRole .consequence].map (Node.reading source)⟩)
      (.choice ec ea none (.ofRegion region.forward)) := by
    simp only [List.map_cons, List.map_nil, Node.reading_inRole]
    exact (Shape.yields_expr rfl hc).bind ((Shape.yields_expr rfl ha).bind
      ((Shape.yields_optional_none rfl).bind (yields_pure _)))
  refine ⟨m, ?_, ⟨.filter ec (.ofRegion region.forward) :: cs, e, l, ?_, ?_, .filter hkc hnt⟩, ?_,
    ⟨_, hm⟩, ?_⟩
  · rw [Node.reading_form]
    exact hexpr
  · rw [Node.reading_form]
    simp only [List.map_cons, List.map_nil, Node.reading_inRole]
    exact (Shape.yields_expr rfl hc).bind ((Shape.yields_tail rfl ht).bind (yields_pure _))
  · simp only [words_append, words_blank] at hw
    simp [Clause.piecesAll, Clause.pieces, Expr.pieces, Expr.piecesElse, hw]
  · rw [Node.reading_form]
    exact hexpr.bind (yields_pure _)
  · rw [bareBodies_form (by decide)]
    simp [hc.bare, ha.bare]

/-- A choice with another branch is no clause. -/
theorem Node.isExpr_choice (hc : c.IsExpr source ec lc) (ha : a.IsExpr source ea la)
    (hb : b.IsExpr source eb lb) :
    ∃ l, Node.IsExpr source
      ⟨.form .ifComprehension, region, role, missing,
        [c.inRole .condition, a.inRole .consequence, b.inRole .alternative]⟩
      (.choice ec ea (some eb) (.ofRegion region.forward)) l := by
  obtain ⟨kc, hkc⟩ := hc.neat
  obtain ⟨ka, hka⟩ := ha.neat
  obtain ⟨kb, hkb⟩ := hb.neat
  obtain ⟨m, hm⟩ := Expr.neat_choice (s := .ofRegion region.forward) (e := some eb) hkc hka
    (fun x hx => ⟨kb, lb, Option.some.inj hx ▸ hkb⟩)
  have hexpr : Yields (Shape.asExpr ⟨source, .form .ifComprehension, region.forward,
      [c.inRole .condition, a.inRole .consequence, b.inRole .alternative].map
        (Node.reading source)⟩) (.choice ec ea (some eb) (.ofRegion region.forward)) := by
    simp only [List.map_cons, List.map_nil, Node.reading_inRole]
    exact (Shape.yields_expr rfl hc).bind ((Shape.yields_expr rfl ha).bind
      ((Shape.yields_optionalExpr rfl hb).bind (yields_pure _)))
  refine ⟨m, ?_, ⟨[], _, m, ?_, rfl, .body hm⟩, ?_, ⟨_, hm⟩, ?_⟩
  · rw [Node.reading_form]
    exact hexpr
  · rw [Node.reading_form]
    exact hexpr.bind (yields_pure _)
  · rw [Node.reading_form]
    exact hexpr.bind (yields_pure _)
  · rw [bareBodies_form (by decide)]
    simp [hc.bare, ha.bare, hb.bare]

end
end Scad
