import Scad.Proofs.Program.Alike
import Scad.Proofs.Program.Constructs

/-!
# The items determine the context

Elements that agree wherever they stand stand for the same edits, and the same edits make contexts
that agree. Main statement: `Program.context_of_items`.
-/

namespace Scad

/-! ## The same steps -/

/-- The same step, wherever things stand. -/
inductive Edit.Agrees : Edit → Edit → Prop
  | push (kind : ScopeKind) (s s' : Span) : Agrees (.push kind s) (.push kind s')
  | pop : Agrees .pop .pop
  | declare {n n' : Name} {e e' : Option Expr} (text : n.text = n'.text)
    (value : Expr.agreeOption .ignored e e' = true) : Agrees (.declare n e) (.declare n' e')
  | assign {n n' : Name} {e e' : Expr} (s s' : Span) (text : n.text = n'.text)
    (value : e.agree .ignored e' = true) : Agrees (.assign n e s) (.assign n' e' s')
  | defineModule {n n' : Name} {ps ps' : List Param} (s s' : Span) (text : n.text = n'.text)
    (params : Param.agreeAll .ignored ps ps' = true) :
    Agrees (.defineModule n ps s) (.defineModule n' ps' s')
  | defineFunction {n n' : Name} {ps ps' : List Param} (s s' : Span) (text : n.text = n'.text)
    (params : Param.agreeAll .ignored ps ps' = true) :
    Agrees (.defineFunction n ps s) (.defineFunction n' ps' s')

namespace Context

variable {c c' : Context}

theorem Alike.edit (h : c'.Alike c) {e e' : Edit} (he : e.Agrees e') :
    (c'.edit e').Alike (c.edit e) := by
  cases he with
  | push kind s s' => exact h.push kind s' s
  | pop => exact h.pop
  | declare text value => exact h.declare text value
  | assign s s' text value => exact h.assign text value s' s
  | defineModule s s' text params => exact h.defineModule text params s' s
  | defineFunction s s' text params => exact h.defineFunction text params s' s

theorem Alike.replay {es es' : List Edit} (hes : List.Forall₂ Edit.Agrees es es') :
    ∀ {c c' : Context}, c'.Alike c → (c'.replay es').Alike (c.replay es) := by
  induction hes with
  | nil => exact fun h => h
  | cons he _ ih => exact fun h => ih (h.edit he)

end Context

/-! ## The same elements -/

namespace Element

/-- The same element, wherever it stands. -/
inductive Agrees : Element → Element → Prop
  | item {i i' : Item} (h : i.agree .ignored i' = true) : Agrees (.item i) (.item i')
  | stmt {s s' : Stmt} (h : s.agree .ignored s' = true) : Agrees (.stmt s) (.stmt s')
  | expr {e e' : Expr} (h : e.agree .ignored e' = true) : Agrees (.expr e) (.expr e')
  | arg {a a' : Arg} (h : a.agree .ignored a' = true) : Agrees (.arg a) (.arg a')
  | assignment {b b' : Assignment} (h : b.agree .ignored b' = true) :
    Agrees (.assignment b) (.assignment b')
  | param {p p' : Param} (h : p.agree .ignored p' = true) : Agrees (.param p) (.param p')
  | name {n n' : Name} (h : n.text = n'.text) : Agrees (.name n) (.name n')
  | clause {c c' : Clause} (h : c.agree .ignored c' = true) : Agrees (.clause c) (.clause c')

/-- Two elements of which the parts and the steps between them are the same. -/
structure Paired (x y : Element) : Prop where
  before : List.Forall₂ Agrees x.before y.before
  opening : List.Forall₂ Edit.Agrees x.opening y.opening
  inner : List.Forall₂ Agrees x.inner y.inner
  closing : List.Forall₂ Edit.Agrees x.closing y.closing

/-! ### Lists of parts -/

theorem agrees_items {is is' : List Item} (h : Item.agreeAll .ignored is is' = true) :
    List.Forall₂ Agrees (is.map .item) (is'.map .item) :=
  List.rel_map (fun _ _ => .item) (Item.agreeAll_iff.1 h)

theorem agrees_exprs {es es' : List Expr} (h : Expr.agreeAll .ignored es es' = true) :
    List.Forall₂ Agrees (es.map .expr) (es'.map .expr) :=
  List.rel_map (fun _ _ => .expr) (Expr.agreeAll_iff.1 h)

theorem agrees_args {as as' : List Arg} (h : Arg.agreeAll .ignored as as' = true) :
    List.Forall₂ Agrees (as.map .arg) (as'.map .arg) :=
  List.rel_map (fun _ _ => .arg) (Arg.agreeAll_iff.1 h)

theorem agrees_assignments {bs bs' : List Assignment}
    (h : Assignment.agreeAll .ignored bs bs' = true) :
    List.Forall₂ Agrees (bs.map .assignment) (bs'.map .assignment) :=
  List.rel_map (fun _ _ => .assignment) (Assignment.agreeAll_iff.1 h)

theorem agrees_params {ps ps' : List Param} (h : Param.agreeAll .ignored ps ps' = true) :
    List.Forall₂ Agrees (ps.map .param) (ps'.map .param) :=
  List.rel_map (fun _ _ => .param) (Param.agreeAll_iff.1 h)

theorem agrees_clauses {cs cs' : List Clause} (h : Clause.agreeAll .ignored cs cs' = true) :
    List.Forall₂ Agrees (cs.map .clause) (cs'.map .clause) :=
  List.rel_map (fun _ _ => .clause) (Clause.agreeAll_iff.1 h)

theorem agrees_expr? {e e' : Option Expr} (h : Expr.agreeOption .ignored e e' = true) :
    List.Forall₂ Agrees (e.toList.map .expr) (e'.toList.map .expr) := by
  cases Expr.agreeOption_iff.1 h with
  | none => exact .nil
  | some he => exact .cons (.expr he) .nil

theorem agrees_stmt? {s s' : Option Stmt} (h : Stmt.agreeOption .ignored s s' = true) :
    List.Forall₂ Agrees (s.toList.map .stmt) (s'.toList.map .stmt) := by
  cases Stmt.agreeOption_iff.1 h with
  | none => exact .nil
  | some hs => exact .cons (.stmt hs) .nil

theorem agrees_loopHead {l l' : LoopHead} (h : l.agree .ignored l' = true) :
    List.Forall₂ Agrees l.elements l'.elements := by
  cases LoopHead.matched h with
  | iterating bindings => exact agrees_assignments bindings
  | counting init cond update =>
    exact List.rel_append (agrees_assignments init) (.cons (.expr cond) (agrees_assignments update))

theorem agrees_edits_params {ps ps' : List Param} (h : Param.agreeAll .ignored ps ps' = true) :
    List.Forall₂ Edit.Agrees (Param.edits ps) (Param.edits ps') := by
  refine List.rel_map (fun p p' hp => ?_) (Param.agreeAll_iff.1 h)
  cases Param.matched hp with
  | mk s s' text default => exact .declare text default

theorem agrees_closing_clauses {cs cs' : List Clause} (h : Clause.agreeAll .ignored cs cs' = true) :
    List.Forall₂ Edit.Agrees (cs.reverse.flatMap Clause.closing)
      (cs'.reverse.flatMap Clause.closing) := by
  refine List.rel_flatMap (List.rel_reverse (Clause.agreeAll_iff.1 h)) fun c c' hc => ?_
  cases Clause.matched hc with
  | loop => exact .cons .pop .nil
  | filter => exact .nil
  | letIn => exact .cons .pop .nil

/-! ### One element -/

theorem paired_item {i i' : Item} (h : i.agree .ignored i' = true) :
    (item i).Paired (item i') := by
  cases Item.matched h with
  | moduleDef s s' text params body =>
    exact ⟨.cons (.name text) (agrees_params params),
      .cons (.defineModule s s' text params) (.cons (.push _ s s') (agrees_edits_params params)),
      agrees_items body, .cons .pop .nil⟩
  | functionDef s s' text params body =>
    exact ⟨.cons (.name text) (agrees_params params),
      .cons (.defineFunction s s' text params) (.cons (.push _ s s') (agrees_edits_params params)),
      .cons (.expr body) .nil, .cons .pop .nil⟩
  | variableDef s s' text value =>
    exact ⟨.nil, .nil, .cons (.name text) (.cons (.expr value) .nil),
      .cons (.assign s s' text value) .nil⟩
  | stmt stmt => exact ⟨.nil, .nil, .cons (.stmt stmt) .nil, .nil⟩

theorem paired_stmt {t t' : Stmt} (h : t.agree .ignored t' = true) :
    (stmt t).Paired (stmt t') := by
  cases Stmt.matched h with
  | call s s' text args tail =>
    exact ⟨.nil, .nil,
      .cons (.name text) (List.rel_append (agrees_args args) (.cons (.stmt tail) .nil)), .nil⟩
  | block s s' items => exact ⟨.nil, .cons (.push _ s s') .nil, agrees_items items, .cons .pop .nil⟩
  | bound k s s' bindings body =>
    exact ⟨.nil, .cons (.push _ s s') .nil,
      List.rel_append (agrees_assignments bindings) (.cons (.stmt body) .nil), .cons .pop .nil⟩
  | choice s s' cond yes no =>
    exact ⟨.nil, .nil, .cons (.expr cond) (.cons (.stmt yes) (agrees_stmt? no)), .nil⟩
  | file k p s s' => exact ⟨.nil, .nil, .nil, .nil⟩
  | assert s s' args body =>
    exact ⟨.nil, .nil, List.rel_append (agrees_args args) (.cons (.stmt body) .nil), .nil⟩
  | modified m s s' stmt => exact ⟨.nil, .nil, .cons (.stmt stmt) .nil, .nil⟩
  | empty s s' => exact ⟨.nil, .nil, .nil, .nil⟩

theorem paired_expr {e e' : Expr} (h : e.agree .ignored e' = true) :
    (expr e).Paired (expr e') := by
  cases Expr.matched h with
  | literal s s' value => exact ⟨.nil, .nil, .nil, .nil⟩
  | ident text => exact ⟨.nil, .nil, .cons (.name text) .nil, .nil⟩
  | special text => exact ⟨.nil, .nil, .cons (.name text) .nil, .nil⟩
  | call s s' callee args => exact ⟨.nil, .nil, .cons (.expr callee) (agrees_args args), .nil⟩
  | index s s' base position =>
    exact ⟨.nil, .nil, .cons (.expr base) (.cons (.expr position) .nil), .nil⟩
  | member s s' text base => exact ⟨.nil, .nil, .cons (.expr base) (.cons (.name text) .nil), .nil⟩
  | unary o s s' operand => exact ⟨.nil, .nil, .cons (.expr operand) .nil, .nil⟩
  | binary o s s' left right =>
    exact ⟨.nil, .nil, .cons (.expr left) (.cons (.expr right) .nil), .nil⟩
  | ternary s s' cond yes no =>
    exact ⟨.nil, .nil, .cons (.expr cond) (.cons (.expr yes) (.cons (.expr no) .nil)), .nil⟩
  | paren s s' inner => exact ⟨.nil, .nil, .cons (.expr inner) .nil, .nil⟩
  | letIn s s' bindings body =>
    exact ⟨.nil, .cons (.push _ s s') .nil,
      List.rel_append (agrees_assignments bindings) (.cons (.expr body) .nil), .cons .pop .nil⟩
  | guarded g s s' args body =>
    exact ⟨.nil, .nil, List.rel_append (agrees_args args) (agrees_expr? body), .nil⟩
  | list s s' elements => exact ⟨.nil, .nil, agrees_exprs elements, .nil⟩
  | range s s' start step stop =>
    exact ⟨.nil, .nil,
      .cons (.expr start) (List.rel_append (agrees_expr? step) (.cons (.expr stop) .nil)), .nil⟩
  | function s s' params body =>
    exact ⟨agrees_params params, .cons (.push _ s s') (agrees_edits_params params),
      .cons (.expr body) .nil, .cons .pop .nil⟩
  | each s s' inner => exact ⟨.nil, .nil, .cons (.expr inner) .nil, .nil⟩
  | comprehension s s' head clauses body =>
    exact ⟨.nil, .cons (.push _ s s') .nil,
      List.rel_append (agrees_loopHead head)
        (List.rel_append (agrees_clauses clauses) (.cons (.expr body) .nil)),
      List.rel_append (agrees_closing_clauses clauses) (.cons .pop .nil)⟩
  | choice s s' cond yes no =>
    exact ⟨.nil, .nil, .cons (.expr cond) (.cons (.expr yes) (agrees_expr? no)), .nil⟩

theorem paired_clause {c c' : Clause} (h : c.agree .ignored c' = true) :
    (clause c).Paired (clause c') := by
  cases Clause.matched h with
  | loop s s' head => exact ⟨.nil, .cons (.push _ s s') .nil, agrees_loopHead head, .nil⟩
  | filter s s' cond => exact ⟨.nil, .nil, .cons (.expr cond) .nil, .nil⟩
  | letIn s s' bindings =>
    exact ⟨.nil, .cons (.push _ s s') .nil, agrees_assignments bindings, .nil⟩

theorem Agrees.paired {x y : Element} (h : x.Agrees y) : x.Paired y := by
  cases h with
  | item h => exact paired_item h
  | stmt h => exact paired_stmt h
  | expr h => exact paired_expr h
  | arg h =>
    cases Arg.matched h with
    | positional value => exact ⟨.nil, .nil, .cons (.expr value) .nil, .nil⟩
    | named s s' text value =>
      exact ⟨.nil, .nil, .cons (.name text) (.cons (.expr value) .nil), .nil⟩
  | assignment h =>
    cases Assignment.matched h with
    | mk s s' text value =>
      exact ⟨.nil, .nil, .cons (.name text) (.cons (.expr value) .nil),
        .cons (.assign s s' text value) .nil⟩
  | param h =>
    cases Param.matched h with
    | mk s s' text default => exact ⟨.nil, .nil, .cons (.name text) (agrees_expr? default), .nil⟩
  | name h => exact ⟨.nil, .nil, .nil, .nil⟩
  | clause h => exact paired_clause h

/-! ### All elements -/

theorem agrees_flatMap_edits {xs ys : List Element} (h : List.Forall₂ Agrees xs ys)
    (step : ∀ x ∈ xs, ∀ y, x.Agrees y → List.Forall₂ Edit.Agrees x.edits y.edits) :
    List.Forall₂ Edit.Agrees (xs.flatMap edits) (ys.flatMap edits) := by
  induction h with
  | nil => exact .nil
  | cons hx _ ih =>
    exact List.rel_append (step _ (by simp) _ hx) (ih fun x h => step x (by simp [h]))

/-- Elements that agree stand for the same steps. -/
theorem Agrees.edits {x y : Element} (h : x.Agrees y) :
    List.Forall₂ Edit.Agrees x.edits y.edits := by
  induction x using Element.induct generalizing y with
  | step x ih =>
    have hp := h.paired
    have hbefore := agrees_flatMap_edits hp.before fun z hz y =>
      ih z (List.mem_append_left _ hz)
    have hinner := agrees_flatMap_edits hp.inner fun z hz y =>
      ih z (List.mem_append_right _ hz)
    rw [edits_eq, edits_eq]
    exact List.rel_append (List.rel_append (List.rel_append hbefore hp.opening) hinner) hp.closing

end Element

namespace Program

/-- Programs whose items agree have contexts that agree, whatever trees and sources they come from:
the same scopes with the same names in the same order, and the same registries. -/
theorem context_of_items {source source' : List Char} {t t' : Tree} {a b : Program}
    (ha : Program.ofTree source t = .ok a) (hb : Program.ofTree source' t' = .ok b)
    (h : Item.agreeAll .ignored a.items b.items = true) :
    a.context.agree .ignored b.context = true := by
  have hedits : List.Forall₂ Edit.Agrees ((a.items.map Element.item).flatMap Element.edits)
      ((b.items.map Element.item).flatMap Element.edits) :=
    Element.agrees_flatMap_edits (Element.agrees_items h) fun _ _ _ hx => hx.edits
  rw [context_of_tree ha, context_of_tree hb]
  exact (Context.Alike.replay hedits (Context.alike_start b.span a.span)).agree

/-- A module with a body in braces and without them, with a special name that is bound in it. -/
theorem context_of_items_braces :
    ∃ a b, Program.ofTree "module f(k) for ($i = [let (x = k) x]) cube();".toList
        (SyntaxTree.ofSource "module f(k) for ($i = [let (x = k) x]) cube();".toList).root.toTree =
          .ok a ∧
      Program.ofTree "module f(k){for($i=[let(x=k)x])cube();}".toList
        (SyntaxTree.ofSource "module f(k){for($i=[let(x=k)x])cube();}".toList).root.toTree = .ok b ∧
      Item.agreeAll .ignored a.items b.items = true ∧
      a.context.agree .ignored b.context = true := by
  have hok : (SyntaxTree.ofSource
      "module f(k) for ($i = [let (x = k) x]) cube();".toList).faults = [] := by
    decide +kernel
  have hok' : (SyntaxTree.ofSource
      "module f(k){for($i=[let(x=k)x])cube();}".toList).faults = [] := by
    decide +kernel
  have hagree : ((parse "module f(k) for ($i = [let (x = k) x]) cube();".toList).toOption.bind
      fun a => (parse "module f(k){for($i=[let(x=k)x])cube();}".toList).toOption.map
      fun b => Item.agreeAll .ignored a.items b.items) = some true := by
    decide +kernel
  obtain ⟨a, ha, -⟩ := parse_of_faultless hok
  obtain ⟨b, hb, -⟩ := parse_of_faultless hok'
  rw [ha, hb] at hagree
  have hitems := Option.some.inj hagree
  exact ⟨a, b, ha, hb, hitems, context_of_items ha hb hitems⟩

end Program
end Scad
