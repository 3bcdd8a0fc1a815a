import Scad.Proofs.Program.Alike

/-!
# Shapes that are read alike

Two nodes over two sources are read alike if every reading of the one is followed by the same
reading of the other. A shape is read alike if its children are, whatever its region is, unless it
is a leaf whose text counts.
-/

namespace Scad

open Read Piece

/-- The roles in which the text of a node itself counts. -/
def Role.isSymbol : Role → Bool
  | .operator | .modifier | .path => true
  | _ => false

/-- The forms of leaves that are expressions by their text. -/
def Form.isText : Form → Bool
  | .identifier | .specialVariable | .number | .string | .boolean => true
  | _ => false

/-- All readings of the first node are followed by those of the second. -/
structure Reading.Alike (source source' : List Char) (a a' : Reading) : Prop where
  label : a'.label = a.label
  role : a'.role = a.role
  name : Follows Name.Alike (readName source a.label a.region) (readName source' a'.label a'.region)
  symbol : ∀ r, a.role = some r → r.isSymbol = true →
    textIn source' a'.region = textIn source a.region
  item : Follows Item.Alike a.item a'.item
  /-- Only the children of a block are ever read as items. -/
  items : a.label = .form .unionBlock → Follows (List.Forall₂ Item.Alike) a.items a'.items
  stmt : Follows Stmt.Alike a.stmt a'.stmt
  expr : Follows Expr.Alike a.expr a'.expr
  tail : Follows TailAlike a.tail a'.tail
  argument : Follows Arg.Alike a.argument a'.argument
  arguments : Follows (List.Forall₂ Arg.Alike) a.arguments a'.arguments
  assignment : Follows Assignment.Alike a.assignment a'.assignment
  assignments : Follows (List.Forall₂ Assignment.Alike) a.assignments a'.assignments
  parameter : Follows Param.Alike a.parameter a'.parameter
  parameters : Follows (List.Forall₂ Param.Alike) a.parameters a'.parameters

namespace Shape

/-- Shapes with the same label whose children are read alike. -/
structure Alike (n n' : Shape) : Prop where
  label : n'.label = n.label
  children : List.Forall₂ (Reading.Alike n.source n'.source) n.children n'.children

variable {n n' : Shape}

/-! ## Children -/

theorem Alike.child? (h : n.Alike n') (r : Role) :
    Option.Rel (fun c c' => Reading.Alike n.source n'.source c c' ∧ c.role = some r)
      (n.child? r) (n'.child? r) := by
  unfold Shape.child?
  have hall := h.children
  generalize n.children = cs at hall
  generalize n'.children = cs' at hall
  induction hall with
  | nil => exact .none
  | @cons c c' cs cs' hc _ ih =>
    by_cases hr : c.role = some r
    · have hr' : c'.role = some r := by rw [hc.role, hr]
      simp only [List.find?_cons, hr, hr', BEq.rfl]
      exact .some ⟨hc, hr⟩
    · have hr' : ¬ c'.role = some r := by rw [hc.role]; exact hr
      simp only [List.find?_cons, beq_eq_false_iff_ne.2 hr, beq_eq_false_iff_ne.2 hr']
      exact ih

theorem Alike.need (h : n.Alike n') (r : Role) :
    Follows (fun c c' => Reading.Alike n.source n'.source c c' ∧ c.role = some r)
      (n.need r) (n'.need r) := by
  have hc := h.child? r
  unfold Shape.need
  generalize n.child? r = c at hc
  generalize n'.child? r = c' at hc
  cases hc with
  | none => exact follows_throw _ _
  | some hc => exact follows_pure hc

theorem Alike.nameIn (h : n.Alike n') (r : Role) :
    Follows Name.Alike (n.nameIn r) (n'.nameIn r) :=
  (h.need r).bind fun _ _ hc => hc.1.name

theorem Alike.exprIn (h : n.Alike n') (r : Role) :
    Follows Expr.Alike (n.exprIn r) (n'.exprIn r) :=
  (h.need r).bind fun _ _ hc => hc.1.expr

theorem Alike.stmtIn (h : n.Alike n') (r : Role) :
    Follows Stmt.Alike (n.stmtIn r) (n'.stmtIn r) :=
  (h.need r).bind fun _ _ hc => hc.1.stmt

theorem Alike.assignmentsIn (h : n.Alike n') (r : Role) :
    Follows (List.Forall₂ Assignment.Alike) (n.assignmentsIn r) (n'.assignmentsIn r) :=
  (h.need r).bind fun _ _ hc => hc.1.assignments

theorem Alike.tailIn (h : n.Alike n') (r : Role) :
    Follows TailAlike (n.tailIn r) (n'.tailIn r) :=
  (h.need r).bind fun _ _ hc => hc.1.tail

theorem Alike.symbolIn (h : n.Alike n') {r : Role} (hr : r.isSymbol = true) :
    Follows (fun x x' => x'.1 = x.1) (n.symbolIn r) (n'.symbolIn r) :=
  (h.need r).bind fun _ _ hc => follows_pure (by rw [hc.1.symbol r hc.2 hr])

theorem Alike.optional {α : Type} {R : α → α → Prop} {f : Reading → Read α} (h : n.Alike n')
    (hf : ∀ c c', Reading.Alike n.source n'.source c c' → Follows R (f c) (f c')) (r : Role) :
    Follows (Option.Rel R) (n.optional r f) (n'.optional r f) := by
  have hc := h.child? r
  unfold Shape.optional
  generalize n.child? r = c at hc
  generalize n'.child? r = c' at hc
  cases hc with
  | none => exact follows_pure .none
  | some hc => exact (hf _ _ hc.1).bind fun _ _ ha => follows_pure (.some ha)

theorem Alike.args (h : n.Alike n') : Follows (List.Forall₂ Arg.Alike) n.args n'.args := by
  have hc := h.child? .arguments
  unfold Shape.args
  generalize n.child? .arguments = c at hc
  generalize n'.child? .arguments = c' at hc
  cases hc with
  | none => exact follows_pure .nil
  | some hc => exact hc.1.arguments

theorem Alike.params (h : n.Alike n') : Follows (List.Forall₂ Param.Alike) n.params n'.params := by
  have hc := h.child? .parameters
  unfold Shape.params
  generalize n.child? .parameters = c at hc
  generalize n'.child? .parameters = c' at hc
  cases hc with
  | none => exact follows_pure .nil
  | some hc => exact hc.1.parameters

theorem Alike.callTail (h : n.Alike n') : Follows Stmt.Alike n.callTail n'.callTail := by
  have hc := h.child? .body
  unfold Shape.callTail
  generalize n.child? .body = c at hc
  generalize n'.child? .body = c' at hc
  cases hc with
  | none => exact follows_pure ⟨by simp [Stmt.agree, Places.ignored], fun _ => rfl, rfl⟩
  | some hc => exact hc.1.stmt

/-! ## Arguments, bindings and parameters -/

theorem follows_unsupported {α : Type} {R : α → α → Prop} (m : Read α) :
    Follows R n.unsupported m := follows_throw _ _

theorem Alike.asArgument (h : n.Alike n') {self self' : Read Expr}
    (hself : Follows Expr.Alike self self') :
    Follows Arg.Alike (n.asArgument self) (n'.asArgument self') := by
  unfold Shape.asArgument
  rw [h.label]
  split
  · refine (h.nameIn .name).bind fun _ _ hn => (h.exprIn .value).bind fun _ _ he => follows_pure ?_
    exact ⟨by simp [Arg.agree, Places.ignored, hn.agree, he.agree],
      by simp [Arg.pieces, hn.pieces, he.pieces]⟩
  · refine hself.bind fun _ _ he => follows_pure ?_
    exact ⟨by simp [Arg.agree, he.agree], by simp [Arg.pieces, he.pieces]⟩

theorem Alike.asArguments (h : n.Alike n') :
    Follows (List.Forall₂ Arg.Alike) n.asArguments n'.asArguments := by
  unfold Shape.asArguments
  rw [h.label]
  split
  · exact Follows.each (h.children.imp fun _ _ hc => hc.argument)
  · exact follows_unsupported _

theorem Alike.asAssignment (h : n.Alike n') :
    Follows Assignment.Alike n.asAssignment n'.asAssignment := by
  unfold Shape.asAssignment
  rw [h.label]
  split
  · refine (h.nameIn .name).bind fun _ _ hn => (h.exprIn .value).bind fun _ _ he => ?_
    refine (follows_update fun _ _ hc => hc.assign hn he.agree _ _).bind fun _ _ _ => follows_pure ?_
    exact ⟨by simp [Assignment.agree, Places.ignored, hn.agree, he.agree],
      by simp [Assignment.pieces, hn.pieces, he.pieces]⟩
  · exact follows_unsupported _

theorem Alike.asAssignments (h : n.Alike n') :
    Follows (List.Forall₂ Assignment.Alike) n.asAssignments n'.asAssignments := by
  unfold Shape.asAssignments
  rw [h.label]
  split
  · exact Follows.each (h.children.imp fun _ _ hc => hc.assignment)
  · exact follows_unsupported _

theorem Alike.optionalExpr (h : n.Alike n') (r : Role) :
    Follows (Option.Rel Expr.Alike) (n.optional r Reading.expr) (n'.optional r Reading.expr) :=
  h.optional (fun _ _ hc => hc.expr) r

theorem Alike.asParameter (h : n.Alike n') :
    Follows Param.Alike n.asParameter n'.asParameter := by
  unfold Shape.asParameter
  rw [h.label]
  split
  · refine (h.nameIn .name).bind fun _ _ hn => (h.optionalExpr .default).bind fun _ _ he =>
      follows_pure ⟨?_, ?_, hn, he⟩
    · simp [Param.agree, Places.ignored, hn.agree, Expr.agreeOption_of_rel he]
    · cases he with
      | none => simp [Param.pieces, hn.pieces]
      | some he => simp [Param.pieces, Expr.piecesDefault, hn.pieces, he.pieces]
  · exact follows_unsupported _

theorem Alike.asParameters (h : n.Alike n') :
    Follows (List.Forall₂ Param.Alike) n.asParameters n'.asParameters := by
  unfold Shape.asParameters
  rw [h.label]
  split
  · exact Follows.each (h.children.imp fun _ _ hc => hc.parameter)
  · exact follows_unsupported _

/-! ## Expressions -/

theorem Alike.loopHead (h : n.Alike n') : Follows LoopHead.Alike n.loopHead n'.loopHead := by
  have hc := h.child? .bindings
  unfold Shape.loopHead
  generalize n.child? .bindings = c at hc
  generalize n'.child? .bindings = c' at hc
  cases hc with
  | none =>
    refine (h.assignmentsIn .init).bind fun _ _ hi => (h.exprIn .condition).bind fun _ _ hc =>
      (h.assignmentsIn .update).bind fun _ _ hu => follows_pure ?_
    obtain ⟨hi1, hi2⟩ := Assignment.alike_all hi
    obtain ⟨hu1, hu2⟩ := Assignment.alike_all hu
    exact ⟨by simp [LoopHead.agree, hi1, hc.agree, hu1],
      by simp [LoopHead.pieces, hi2, hc.pieces, hu2]⟩
  | some hc =>
    refine hc.1.assignments.bind fun _ _ hb => follows_pure ?_
    obtain ⟨hb1, hb2⟩ := Assignment.alike_all hb
    exact ⟨by simp [LoopHead.agree, hb1], by simp [LoopHead.pieces, hb2]⟩

theorem Alike.asBinary (h : n.Alike n') : Follows Expr.Alike n.asBinary n'.asBinary := by
  refine (h.symbolIn rfl).bind fun x x' hx => ?_
  obtain ⟨symbol, place⟩ := x
  obtain ⟨symbol', place'⟩ := x'
  obtain rfl : symbol' = symbol := hx
  dsimp only
  split
  · exact follows_throw _ _
  · refine (h.exprIn .left).bind fun _ _ ha => (h.exprIn .right).bind fun _ _ hb => follows_pure ?_
    exact ⟨by simp [Expr.agree, Places.ignored, ha.agree, hb.agree],
      by simp [Expr.pieces, ha.pieces, hb.pieces], rfl⟩

theorem Alike.asUnary (h : n.Alike n') : Follows Expr.Alike n.asUnary n'.asUnary := by
  refine (h.symbolIn rfl).bind fun x x' hx => ?_
  obtain ⟨symbol, place⟩ := x
  obtain ⟨symbol', place'⟩ := x'
  obtain rfl : symbol' = symbol := hx
  dsimp only
  split
  · exact follows_throw _ _
  · refine (h.exprIn .operand).bind fun _ _ ha => follows_pure ?_
    exact ⟨by simp [Expr.agree, Places.ignored, ha.agree], by simp [Expr.pieces, ha.pieces], rfl⟩

theorem Alike.asGuard (h : n.Alike n') (g : Guard) :
    Follows Expr.Alike
      (do
        let args ← n.args
        let body ← n.optional .body Reading.expr
        pure (.guarded g args body n.span))
      (do
        let args ← n'.args
        let body ← n'.optional .body Reading.expr
        pure (.guarded g args body n'.span)) := by
  refine h.args.bind fun _ _ ha => (h.optionalExpr .body).bind fun _ _ he => follows_pure ?_
  obtain ⟨ha1, ha2⟩ := Arg.alike_all ha
  refine ⟨?_, ?_, rfl⟩
  · simp [Expr.agree, Places.ignored, ha1, Expr.agreeOption_of_rel he]
  · cases he with
    | none => simp [Expr.pieces, ha2]
    | some he => simp [Expr.pieces, Expr.piecesBody, ha2, he.pieces]

theorem Alike.asExpr (h : n.Alike n') (ht : ∀ f, n.label = .form f → f.isText = false) :
    Follows Expr.Alike n.asExpr n'.asExpr := by
  obtain ⟨source, label, region, children⟩ := n
  obtain ⟨source', label', region', children'⟩ := n'
  obtain rfl : label' = label := h.label
  cases label' with
  | other name => exact follows_unsupported _
  | form f =>
    cases f with
    | identifier | specialVariable | number | string | boolean => cases ht _ rfl
    | undef => exact follows_pure ⟨by simp [Expr.agree, Literal.agree, Places.ignored], rfl, rfl⟩
    | binaryExpression => exact h.asBinary
    | unaryExpression => exact h.asUnary
    | ternaryExpression =>
      refine (h.exprIn .condition).bind fun _ _ hc => (h.exprIn .consequence).bind fun _ _ ha =>
        (h.exprIn .alternative).bind fun _ _ hb => follows_pure ?_
      exact ⟨by simp [Expr.agree, Places.ignored, hc.agree, ha.agree, hb.agree],
        by simp [Expr.pieces, hc.pieces, ha.pieces, hb.pieces], rfl⟩
    | parenthesizedExpression =>
      refine (h.exprIn .expression).bind fun _ _ ha => follows_pure ?_
      exact ⟨by simp [Expr.agree, Places.ignored, ha.agree], by simp [Expr.pieces, ha.pieces], rfl⟩
    | functionCall =>
      refine (h.exprIn .function).bind fun _ _ hf => h.args.bind fun _ _ ha => follows_pure ?_
      obtain ⟨ha1, ha2⟩ := Arg.alike_all ha
      exact ⟨by simp [Expr.agree, Places.ignored, hf.agree, ha1],
        by simp [Expr.pieces, hf.pieces, ha2], rfl⟩
    | indexExpression =>
      refine (h.exprIn .value).bind fun _ _ ha => (h.exprIn .index).bind fun _ _ hb =>
        follows_pure ?_
      exact ⟨by simp [Expr.agree, Places.ignored, ha.agree, hb.agree],
        by simp [Expr.pieces, ha.pieces, hb.pieces], rfl⟩
    | dotIndexExpression =>
      refine (h.exprIn .value).bind fun _ _ ha => (h.nameIn .field).bind fun _ _ hn =>
        follows_pure ?_
      exact ⟨by simp [Expr.agree, Places.ignored, ha.agree, hn.agree],
        by simp [Expr.pieces, ha.pieces, ha.number, hn.pieces], rfl⟩
    | letExpression =>
      simp only [Shape.asExpr]
      refine Follows.inScope ?_ _ _ _
      refine (h.assignmentsIn .bindings).bind fun _ _ hb => (h.exprIn .body).bind fun _ _ ha =>
        follows_pure ?_
      obtain ⟨hb1, hb2⟩ := Assignment.alike_all hb
      exact ⟨by simp [Expr.agree, Places.ignored, hb1, ha.agree],
        by simp [Expr.pieces, hb2, ha.pieces], rfl⟩
    | assertExpression => exact h.asGuard .assert
    | echoExpression => exact h.asGuard .echo
    | functionLiteral =>
      refine h.params.bind fun _ _ hp => Follows.inScope ?_ _ _ _
      refine (follows_update fun _ _ hc => hc.declareParams hp).bind fun _ _ _ =>
        (h.exprIn .body).bind fun _ _ ha => follows_pure ?_
      obtain ⟨hp1, hp2⟩ := Param.alike_all hp
      exact ⟨by simp [Expr.agree, Places.ignored, hp1, ha.agree],
        by simp [Expr.pieces, hp2, ha.pieces], rfl⟩
    | list =>
      refine (Follows.each (h.children.imp fun _ _ hc => hc.expr)).bind fun _ _ he => follows_pure ?_
      obtain ⟨he1, he2⟩ := Expr.alike_all he
      exact ⟨by simp [Expr.agree, Places.ignored, he1], by simp [Expr.pieces, he2], rfl⟩
    | range =>
      refine (h.exprIn .start).bind fun _ _ ha => (h.optionalExpr .step).bind fun _ _ hb =>
        (h.exprIn .stop).bind fun _ _ hc => follows_pure ⟨?_, ?_, rfl⟩
      · simp [Expr.agree, Places.ignored, ha.agree, Expr.agreeOption_of_rel hb, hc.agree]
      · cases hb with
        | none => simp [Expr.pieces, ha.pieces, hc.pieces]
        | some hb => simp [Expr.pieces, Expr.piecesStep, ha.pieces, hb.pieces, hc.pieces]
    | listComprehension =>
      simp only [Shape.asExpr]
      refine Follows.inScope ?_ _ _ _
      refine h.loopHead.bind fun _ _ hh => (h.tailIn .body).bind fun _ _ ht => follows_pure ?_
      exact ⟨by simp [Expr.agree, Places.ignored, hh.agree, ht.agree, ht.body.agree],
        by simp [Expr.pieces, hh.pieces, ht.pieces, ht.body.pieces], rfl⟩
    | ifComprehension =>
      refine (h.exprIn .condition).bind fun _ _ hc => (h.exprIn .consequence).bind fun _ _ ha =>
        (h.optionalExpr .alternative).bind fun _ _ hb => follows_pure ⟨?_, ?_, rfl⟩
      · simp [Expr.agree, Places.ignored, hc.agree, ha.agree, Expr.agreeOption_of_rel hb]
      · cases hb with
        | none => simp [Expr.pieces, hc.pieces, ha.pieces]
        | some hb => simp [Expr.pieces, Expr.piecesElse, hc.pieces, ha.pieces, hb.pieces]
    | each =>
      refine (h.exprIn .value).bind fun _ _ ha => follows_pure ?_
      exact ⟨by simp [Expr.agree, Places.ignored, ha.agree], by simp [Expr.pieces, ha.pieces], rfl⟩
    | _ => exact follows_unsupported _

/-- An expression is the body of a comprehension unless it goes on with it. -/
theorem follows_body {self self' : Read Expr} (hself : Follows Expr.Alike self self') :
    Follows TailAlike (do let e ← self; pure ([], e)) (do let e ← self'; pure ([], e)) :=
  hself.bind fun _ _ he => follows_pure ⟨by simp [Clause.agreeAll], rfl, he⟩

theorem Alike.asTail (h : n.Alike n') {self self' : Read Expr}
    (hself : Follows Expr.Alike self self') :
    Follows TailAlike (n.asTail self) (n'.asTail self') := by
  unfold Shape.asTail
  dsimp only
  rw [h.label]
  split
  · refine Follows.inScope ?_ _ _ _
    refine h.loopHead.bind fun _ _ hh => (h.tailIn .body).bind fun _ _ ht => follows_pure ?_
    exact ⟨by simp [Clause.agreeAll, Clause.agree, Places.ignored, hh.agree, ht.agree],
      by simp [Clause.piecesAll, Clause.pieces, hh.pieces, ht.pieces], ht.body⟩
  · have hc := h.child? .alternative
    generalize n.child? .alternative = c at hc
    generalize n'.child? .alternative = c' at hc
    cases hc with
    | none =>
      refine (h.exprIn .condition).bind fun _ _ hc => (h.tailIn .consequence).bind fun _ _ ht =>
        follows_pure ?_
      exact ⟨by simp [Clause.agreeAll, Clause.agree, Places.ignored, hc.agree, ht.agree],
        by simp [Clause.piecesAll, Clause.pieces, hc.pieces, ht.pieces], ht.body⟩
    | some _ => exact follows_body hself
  · refine Follows.inScope ?_ _ _ _
    refine (h.assignmentsIn .bindings).bind fun _ _ hb => (h.tailIn .body).bind fun _ _ ht =>
      follows_pure ?_
    obtain ⟨hb1, hb2⟩ := Assignment.alike_all hb
    exact ⟨by simp [Clause.agreeAll, Clause.agree, Places.ignored, hb1, ht.agree],
      by simp [Clause.piecesAll, Clause.pieces, hb2, ht.pieces], ht.body⟩
  · exact follows_body hself

/-! ## Statements -/

theorem Alike.bound (h : n.Alike n') (binder : Binder) (kind : ScopeKind) :
    Follows Stmt.Alike (n.bound binder kind) (n'.bound binder kind) := by
  refine Follows.inScope ?_ _ _ _
  refine (h.assignmentsIn .bindings).bind fun _ _ hb => (h.stmtIn .body).bind fun _ _ ht =>
    follows_pure ⟨?_, fun d => ?_, rfl⟩
  · simp [Stmt.agree, Places.ignored, (Assignment.alike_all hb).1, ht.agree]
  · simp [Stmt.pieces, (Assignment.alike_all hb).2, ht.pieces]

theorem Alike.file (h : n.Alike n') (link : Link) :
    Follows Stmt.Alike (n.file link) (n'.file link) := by
  refine (h.symbolIn rfl).bind fun x x' hx => ?_
  obtain ⟨text, place⟩ := x
  obtain ⟨text', place'⟩ := x'
  obtain rfl : text' = text := hx
  dsimp only
  split
  · exact follows_pure ⟨by simp [Stmt.agree, Places.ignored], fun _ => rfl, rfl⟩
  · exact follows_throw _ _

theorem Alike.asModified (h : n.Alike n') : Follows Stmt.Alike n.asModified n'.asModified := by
  refine (h.symbolIn rfl).bind fun x x' hx => ?_
  obtain ⟨symbol, place⟩ := x
  obtain ⟨symbol', place'⟩ := x'
  obtain rfl : symbol' = symbol := hx
  dsimp only
  split
  · exact follows_throw _ _
  · refine (h.stmtIn .statement).bind fun _ _ ht => follows_pure ⟨?_, fun d => ?_, rfl⟩
    · simp [Stmt.agree, Places.ignored, ht.agree]
    · simp [Stmt.pieces, ht.pieces]

theorem tailGap_eq {s s' : Stmt} (h : s.Alike s') : tailGap s' = tailGap s := by
  rw [tailGap, h.isEmpty]
  rfl

theorem Alike.asStmt (h : n.Alike n') : Follows Stmt.Alike n.asStmt n'.asStmt := by
  obtain ⟨source, label, region, children⟩ := n
  obtain ⟨source', label', region', children'⟩ := n'
  obtain rfl : label' = label := h.label
  cases label' with
  | other name => exact follows_unsupported _
  | form f =>
    cases f with
    | moduleCall =>
      refine (h.nameIn .name).bind fun _ _ hn => h.args.bind fun _ _ ha =>
        h.callTail.bind fun _ _ ht => follows_pure ⟨?_, fun d => ?_, rfl⟩
      · simp [Stmt.agree, Places.ignored, hn.agree, (Arg.alike_all ha).1, ht.agree]
      · simp [Stmt.pieces, hn.pieces, (Arg.alike_all ha).2, ht.pieces, tailGap_eq ht]
    | unionBlock =>
      simp only [Shape.asStmt]
      refine Follows.inScope ?_ _ _ _
      refine (Follows.each (h.children.imp fun _ _ hc => hc.item)).bind fun _ _ hi =>
        follows_pure ⟨?_, fun d => ?_, rfl⟩
      · simp [Stmt.agree, Places.ignored, (Item.alike_all hi).1]
      · simp [Stmt.pieces, (Item.alike_all hi).2]
    | emptyStatement =>
      exact follows_pure ⟨by simp [Stmt.agree, Places.ignored], fun _ => rfl, rfl⟩
    | modifierChain => exact h.asModified
    | forBlock => exact h.bound .loop .loop
    | intersectionForBlock => exact h.bound .intersectionLoop .loop
    | letBlock => exact h.bound .letIn .letIn
    | assignBlock => exact h.bound .assign .assign
    | ifBlock =>
      refine (h.exprIn .condition).bind fun _ _ hc => (h.stmtIn .consequence).bind fun _ _ ha =>
        (h.optional (fun _ _ hc => hc.stmt) .alternative).bind fun _ _ hb =>
          follows_pure ⟨?_, fun d => ?_, rfl⟩
      · cases hb with
        | none => simp [Stmt.agree, Stmt.agreeOption, Places.ignored, hc.agree, ha.agree]
        | some hb => simp [Stmt.agree, Stmt.agreeOption, Places.ignored, hc.agree, ha.agree, hb.agree]
      · cases hb with
        | none => simp [Stmt.pieces, hc.pieces, ha.pieces]
        | some hb => simp [Stmt.pieces, Stmt.piecesElse, hc.pieces, ha.pieces, hb.pieces]
    | assertStatement =>
      refine h.args.bind fun _ _ ha => h.callTail.bind fun _ _ ht =>
        follows_pure ⟨?_, fun d => ?_, rfl⟩
      · simp [Stmt.agree, Places.ignored, (Arg.alike_all ha).1, ht.agree]
      · simp [Stmt.pieces, (Arg.alike_all ha).2, ht.pieces, tailGap_eq ht]
    | includeStatement => exact h.file .include
    | useStatement => exact h.file .use
    | _ => exact follows_unsupported _

/-! ## Items -/

/-- Bodies of modules that hold items which are read alike. -/
def BodyAlike (b b' : Reading) : Prop :=
  Follows (List.Forall₂ Item.Alike) (moduleBody b) (moduleBody b')

theorem bodyAlike {source source' : List Char} {b b' : Reading}
    (h : Reading.Alike source source' b b') : BodyAlike b b' := by
  unfold BodyAlike moduleBody
  rw [h.label]
  split
  · exact h.items ‹_›
  · exact h.item.bind fun _ _ hi => follows_pure (.cons hi .nil)

/-- A module is read alike if its name, its parameters and the items of its body are. The bodies
themselves need not be alike: one may be a block and the other a single statement. -/
theorem asModule_follows {d d' p p' b b' : Reading} (hd : n.child? .name = some d)
    (hd' : n'.child? .name = some d') (hp : n.child? .parameters = some p)
    (hp' : n'.child? .parameters = some p') (hb : n.child? .body = some b)
    (hb' : n'.child? .body = some b')
    (hname : Follows Name.Alike (readName n.source d.label d.region)
      (readName n'.source d'.label d'.region))
    (hparams : Follows (List.Forall₂ Param.Alike) p.parameters p'.parameters)
    (hbody : BodyAlike b b') : Follows Item.Alike n.asModule n'.asModule := by
  unfold Shape.asModule Shape.nameIn Shape.need Shape.params
  simp only [hd, hd', hp, hp', hb, hb', pure_bind]
  refine hname.bind fun _ _ hn => hparams.bind fun ps ps' hps => ?_
  refine (follows_update fun _ _ hc => hc.defineModule hn (Param.alike_all hps).1 _ _).bind fun _ _ _ => ?_
  have hitems : Follows (List.Forall₂ Item.Alike)
      (do update fun c => c.declareParams ps; moduleBody b)
      (do update fun c => c.declareParams ps'; moduleBody b') :=
    (follows_update fun _ _ hc => hc.declareParams hps).bind fun _ _ _ => hbody
  refine (hitems.inScope _ _ _).bind fun _ _ hi => follows_pure ⟨?_, fun d => ?_⟩
  · simp [Item.agree, Places.ignored, hn.agree, (Param.alike_all hps).1, (Item.alike_all hi).1]
  · simp [Item.pieces, hn.pieces, (Param.alike_all hps).2, (Item.alike_all hi).2]

theorem Alike.asModule (h : n.Alike n') : Follows Item.Alike n.asModule n'.asModule := by
  unfold Shape.asModule
  refine (h.nameIn .name).bind fun _ _ hn => h.params.bind fun ps ps' hps => ?_
  refine (follows_update fun _ _ hc => hc.defineModule hn (Param.alike_all hps).1 _ _).bind fun _ _ _ => ?_
  refine (h.need .body).bind fun b b' hb => ?_
  have hitems : Follows (List.Forall₂ Item.Alike)
      (do update fun c => c.declareParams ps; moduleBody b)
      (do update fun c => c.declareParams ps'; moduleBody b') :=
    (follows_update fun _ _ hc => hc.declareParams hps).bind fun _ _ _ => bodyAlike hb.1
  refine (hitems.inScope _ _ _).bind fun _ _ hi => follows_pure ⟨?_, fun d => ?_⟩
  · simp [Item.agree, Places.ignored, hn.agree, (Param.alike_all hps).1, (Item.alike_all hi).1]
  · simp [Item.pieces, hn.pieces, (Param.alike_all hps).2, (Item.alike_all hi).2]

theorem Alike.asFunction (h : n.Alike n') : Follows Item.Alike n.asFunction n'.asFunction := by
  unfold Shape.asFunction
  refine (h.nameIn .name).bind fun _ _ hn => h.params.bind fun ps ps' hp => ?_
  refine (follows_update fun _ _ hc => hc.defineFunction hn (Param.alike_all hp).1 _ _).bind fun _ _ _ => ?_
  have hbody : Follows Expr.Alike
      (do update fun c => c.declareParams ps; n.exprIn .body)
      (do update fun c => c.declareParams ps'; n'.exprIn .body) :=
    (follows_update fun _ _ hc => hc.declareParams hp).bind fun _ _ _ => h.exprIn .body
  refine (hbody.inScope _ _ _).bind fun _ _ he => follows_pure ⟨?_, fun d => ?_⟩
  · simp [Item.agree, Places.ignored, hn.agree, (Param.alike_all hp).1, he.agree]
  · simp [Item.pieces, hn.pieces, (Param.alike_all hp).2, he.pieces]

theorem follows_stmt {self self' : Read Stmt} (hself : Follows Stmt.Alike self self') :
    Follows Item.Alike (do let s ← self; pure (.stmt s)) (do let s ← self'; pure (.stmt s)) :=
  hself.bind fun _ _ ht =>
    follows_pure ⟨by simp [Item.agree, ht.agree], fun d => by simp [Item.pieces, ht.pieces]⟩

theorem Alike.asItem (h : n.Alike n') :
    Follows Item.Alike (n.asItem n.asStmt) (n'.asItem n'.asStmt) := by
  unfold Shape.asItem
  rw [h.label]
  split
  · exact h.asModule
  · exact h.asFunction
  · refine (h.nameIn .name).bind fun _ _ hn => (h.exprIn .value).bind fun _ _ he => ?_
    refine (follows_update fun _ _ hc => hc.assign hn he.agree _ _).bind fun _ _ _ =>
      follows_pure ⟨?_, fun d => ?_⟩
    · simp [Item.agree, Places.ignored, hn.agree, he.agree]
    · simp [Item.pieces, hn.pieces, he.pieces]
  · exact follows_stmt h.asStmt

/-- All readings of a shape, given those in which its text counts. -/
theorem Alike.reading (h : n.Alike n') (role : Option Role)
    (hname : Follows Name.Alike (readName n.source n.label n.region)
      (readName n'.source n'.label n'.region))
    (hexpr : Follows Expr.Alike n.asExpr n'.asExpr)
    (hsymbol : ∀ r, role = some r → r.isSymbol = true → n'.text = n.text) :
    Reading.Alike n.source n'.source (n.reading role) (n'.reading role) where
  label := h.label
  role := rfl
  name := hname
  symbol := hsymbol
  item := h.asItem
  items := fun _ => Follows.each (h.children.imp fun _ _ hc => hc.item)
  stmt := h.asStmt
  expr := hexpr
  tail := h.asTail hexpr
  argument := h.asArgument hexpr
  arguments := h.asArguments
  assignment := h.asAssignment
  assignments := h.asAssignments
  parameter := h.asParameter
  parameters := h.asParameters

end Shape
end Scad
