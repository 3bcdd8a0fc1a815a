import Scad.Proofs.Program.Neat
import Scad.Proofs.Program.Yields

/-!
# What the nodes of the grammar are read as

For each form of node that the grammar builds, the part of a program that it is read as, given what
its children are read as. Reading never fails on such a node, and what is read can be printed
legibly.
-/

namespace Scad

open Read Piece

/-! ## Readings of nodes -/

/-- All readings of a node of the syntax tree. -/
def Node.reading (source : List Char) (n : Node) : Reading := n.toTree.reading source

theorem Node.readings_eq (source : List Char) (ns : List Node) :
    Tree.readings source (Node.toTrees ns) = ns.map (Node.reading source) := by
  induction ns with
  | nil => rfl
  | cons n ns ih => rw [Node.toTrees, Tree.readings, ih]; rfl

theorem Node.reading_form (source : List Char) (f : Form) (region : Region) (role : Option Role)
    (missing : Bool) (children : List Node) :
    Node.reading source ⟨.form f, region, role, missing, children⟩ =
      Shape.reading ⟨source, .form f, region.forward, children.map (Node.reading source)⟩ role := by
  rw [← Node.readings_eq]
  rfl

@[simp]
theorem Node.reading_inRole (source : List Char) (n : Node) (r : Role) :
    (n.inRole r).reading source = { n.reading source with role := some r } := by
  cases n
  rfl

theorem Region.forward_eq {r : Region} (h : r.start.byte ≤ r.stop.byte) : r.forward = r := by
  obtain ⟨start, ⟨byte, line, column⟩⟩ := r
  have h : start.byte ≤ byte := h
  simp [forward, Nat.max_eq_left h]

/-- The text of the leaf of a token. -/
theorem Token.Sound.textIn_eq {source : List Char} {t : Token} (h : t.Sound source) :
    textIn source t.region.forward = t.text.toList := by
  rw [Region.forward_eq (Nat.le_of_lt h.start_lt_stop), textIn, h.slice]
  rfl

/-! ## Expressions -/

/-- The node is read as this expression, which ends with a word of kind `l`. As the end of a
comprehension it may be read as clauses and a body, which say the same. -/
structure Node.IsExpr (source : List Char) (n : Node) (e : Expr) (l : TokenKind) : Prop where
  expr : Yields (n.reading source).expr e
  tail : ∃ cs b l', Yields (n.reading source).tail (cs, b) ∧
    words (Clause.piecesAll cs ++ blank :: b.pieces) = words e.pieces ∧
    NeatTail (Clause.piecesAll cs ++ blank :: b.pieces) l'
  argument : Yields (n.reading source).argument (.positional e)
  neat : ∃ k, Neat k e.pieces l
  bare : n.bareBodies = []

/-- The node is read as this argument. -/
structure Node.IsArg (source : List Char) (n : Node) (a : Arg) : Prop where
  argument : Yields (n.reading source).argument a
  neat : ∃ k l, Neat k a.pieces l
  bare : n.bareBodies = []

/-- The node is read as this binding. -/
structure Node.IsBinding (source : List Char) (n : Node) (b : Assignment) : Prop where
  assignment : Yields (n.reading source).assignment b
  neat : ∃ k l, Neat k b.pieces l
  bare : n.bareBodies = []

/-- The node is read as this parameter. -/
structure Node.IsParam (source : List Char) (n : Node) (p : Param) : Prop where
  parameter : Yields (n.reading source).parameter p
  neat : ∃ k l, Neat k p.pieces l
  bare : n.bareBodies = []

/-- The forms that are read alike wherever an expression stands. -/
def Form.isPlain : Form → Bool
  | .letExpression | .listComprehension | .ifComprehension | .namedArgument | .moduleItem => false
  | _ => true

theorem Shape.asTail_of_plain {n : Shape} {f : Form} (hl : n.label = .form f)
    (hf : f.isPlain = true) (self : Read Expr) :
    n.asTail self = self >>= fun e => pure ([], e) := by
  unfold Shape.asTail
  split
  case h_4 => rfl
  all_goals
    rename_i h
    rw [hl] at h
    obtain rfl := Label.form.inj h
    cases hf

theorem Shape.asArgument_of_plain {n : Shape} {f : Form} (hl : n.label = .form f)
    (hf : f ≠ .namedArgument) (self : Read Expr) :
    n.asArgument self = self >>= fun e => pure (.positional e) := by
  unfold Shape.asArgument
  split
  · rename_i h
    rw [hl] at h
    exact absurd (Label.form.inj h) hf
  · rfl

section

variable {source : List Char} {region : Region} {role : Option Role} {missing : Bool}

theorem Node.isExpr_of_plain {f : Form} {children : List Node} {e : Expr} {l : TokenKind}
    (hf : f.isPlain = true)
    (h : Yields
      (Shape.asExpr ⟨source, .form f, region.forward, children.map (Node.reading source)⟩) e)
    (hneat : ∃ k, Neat k e.pieces l) (hbare : bareBodiesAll children = []) :
    Node.IsExpr source ⟨.form f, region, role, missing, children⟩ e l := by
  have hm : f ≠ .moduleItem := by rintro rfl; cases hf
  have ha : f ≠ .namedArgument := by rintro rfl; cases hf
  obtain ⟨k, hk⟩ := hneat
  refine ⟨?_, ⟨[], e, l, ?_, by simp [Clause.piecesAll], .body hk⟩, ?_, ⟨k, hk⟩, ?_⟩
  · rw [Node.reading_form]
    exact h
  · rw [Node.reading_form]
    show Yields (Shape.asTail _ _) _
    rw [Shape.asTail_of_plain rfl hf]
    exact h.bind (yields_pure _)
  · rw [Node.reading_form]
    show Yields (Shape.asArgument _ _) _
    rw [Shape.asArgument_of_plain rfl ha]
    exact h.bind (yields_pure _)
  · rw [Node.bareBodies_form hm, hbare]

/-! ### Leaves -/

variable {t : Token} {l : TokenKind}

theorem Name.isSpecial_ofList (cs : List Char) (span : Span) :
    Name.isSpecial ⟨String.ofList cs, span⟩ = (cs.head? == some specialSigil) := by
  simp [Name.isSpecial]

/-- A name is printed as the token that it was. -/
theorem Token.Sound.name_pieces (h : t.Sound source) (span : Span)
    (hk : t.kind = .identifier ∨ t.kind = .special) :
    Name.pieces ⟨String.ofList (textIn source t.region.forward), span⟩ = [Piece.word t.kind t.text] := by
  have hs := h.scanned.spelling (by rcases hk with hk | hk <;> rw [hk] <;> decide)
  have hsp : Name.isSpecial ⟨String.ofList t.text.toList, span⟩ = decide (t.kind = .special) := by
    rw [Name.isSpecial_ofList]
    generalize t.text.toList = cs at hs
    rcases hk with hk | hk <;> rw [hk] at hs ⊢
    · cases hs with
      | @identifier c cs _ _ hc _ _ =>
        have hne : c ≠ '$' := by rintro rfl; exact absurd hc (by decide)
        simpa [specialSigil] using hne
      | mark hm | keyword hm => cases hm
    · cases hs with
      | special _ => rfl
      | mark hm | keyword hm => cases hm
  rw [h.textIn_eq, Name.pieces, hsp]
  rcases hk with hk | hk <;> simp [hk]

theorem Node.isExpr_ident (h : t.Sound source) (hk : t.kind = .identifier) :
    ∃ e, Node.IsExpr source ⟨.form .identifier, t.region, role, missing, []⟩ e .identifier ∧
      e.pieces = [word .identifier t.text] := by
  let n : Name := ⟨String.ofList (textIn source t.region.forward),
    (Span.ofRegion t.region.forward).withText source⟩
  have hp : (Expr.ident n).pieces = [word .identifier t.text] := by
    rw [Expr.pieces, h.name_pieces _ (.inl hk), hk]
  refine ⟨.ident n, isExpr_of_plain rfl ((yields_pure n).bind (yields_pure _)) ?_ rfl, hp⟩
  rw [hp]
  exact ⟨_, rfl, rfl, rfl, rfl, rfl⟩

theorem Node.isExpr_special (h : t.Sound source) (hk : t.kind = .special) :
    ∃ e, Node.IsExpr source ⟨.form .specialVariable, t.region, role, missing, []⟩ e .special ∧
      e.pieces = [word .special t.text] := by
  let n : Name := ⟨String.ofList (textIn source t.region.forward),
    (Span.ofRegion t.region.forward).withText source⟩
  have hp : (Expr.special n).pieces = [word .special t.text] := by
    rw [Expr.pieces, h.name_pieces _ (.inr hk), hk]
  refine ⟨.special n, isExpr_of_plain rfl ((yields_pure n).bind (yields_pure _)) ?_ rfl, hp⟩
  rw [hp]
  exact ⟨_, rfl, rfl, rfl, rfl, rfl⟩

/-- A number can be read, and is printed as the word that its token is respelled as. -/
theorem Node.isExpr_number (h : t.Sound source) (hk : t.kind = .number) :
    ∃ e, Node.IsExpr source ⟨.form .number, t.region, role, missing, []⟩ e .number ∧
      words e.pieces = [t.word.respell] ∧ e.number?.isSome = true := by
  have hs := h.scanned.spelling (by rw [hk]; decide)
  obtain ⟨x, hx⟩ : ∃ x, Number.read? t.text.toList = some x := by
    generalize t.text.toList = cs at hs
    rw [hk] at hs
    cases hs with
    | number hn =>
      obtain ⟨d, hd⟩ := hn.read?_eq
      exact ⟨_, hd⟩
    | mark hm | keyword hm => cases hm
  refine ⟨.literal (.number x) ((Span.ofRegion t.region.forward).withText source),
    isExpr_of_plain rfl ?_ ⟨_, rfl, rfl, rfl, rfl, rfl⟩ rfl, ?_, rfl⟩
  · show Yields (Shape.asNumber _) _
    unfold Shape.asNumber
    rw [Shape.text, h.textIn_eq, hx]
    exact yields_pure _
  · simp [Expr.pieces, Literal.piece, Word.respell, Token.word, hk, hx]

theorem Node.isExpr_string (h : t.Sound source) (hk : t.kind = .string) :
    ∃ e, Node.IsExpr source ⟨.form .string, t.region, role, missing, []⟩ e .string ∧
      words e.pieces = [t.word.respell] := by
  refine ⟨.literal (.string (String.ofList (Text.Quoted.decode t.text.toList)))
    ((Span.ofRegion t.region.forward).withText source),
    isExpr_of_plain rfl ?_ ⟨_, rfl, rfl, rfl, rfl, rfl⟩ rfl, ?_⟩
  · rw [← h.textIn_eq]
    exact yields_pure _
  · simp [Expr.pieces, Literal.piece, Word.respell, Token.word, hk]

theorem Node.isExpr_boolean (h : t.Sound source) (hk : t.kind = .kwTrue ∨ t.kind = .kwFalse) :
    ∃ e, Node.IsExpr source ⟨.form .boolean, t.region, role, missing, []⟩ e t.kind ∧
      words e.pieces = [.ofKind t.kind] := by
  have hs := h.scanned.spelling (by rcases hk with hk | hk <;> rw [hk] <;> decide)
  have ht := hs.text_eq (by rcases hk with hk | hk <;> rw [hk] <;> rfl)
  have htext := h.textIn_eq
  rw [ht] at htext
  rcases hk with hk | hk <;> rw [hk] at htext ⊢
  · refine ⟨.literal (.bool true) ((Span.ofRegion t.region.forward).withText source),
      isExpr_of_plain rfl ?_ ⟨_, rfl, rfl, rfl, rfl, rfl⟩ rfl, rfl⟩
    show Yields (Shape.asBoolean _) _
    unfold Shape.asBoolean
    rw [Shape.text, htext]
    exact yields_pure _
  · refine ⟨.literal (.bool false) ((Span.ofRegion t.region.forward).withText source),
      isExpr_of_plain rfl ?_ ⟨_, rfl, rfl, rfl, rfl, rfl⟩ rfl, rfl⟩
    show Yields (Shape.asBoolean _) _
    unfold Shape.asBoolean
    rw [Shape.text, htext]
    exact yields_pure _

theorem Node.isExpr_undef :
    ∃ e, Node.IsExpr source ⟨.form .undef, region, role, missing, []⟩ e .kwUndef ∧
      words e.pieces = [.ofKind .kwUndef] :=
  ⟨.literal .undef ((Span.ofRegion region.forward).withText source),
    isExpr_of_plain rfl (yields_pure _) ⟨_, rfl, rfl, rfl, rfl, rfl⟩ rfl, rfl⟩


/-- The node of a name. -/
structure Node.IsName (source : List Char) (n : Node) (name : Name) : Prop where
  label : (n.reading source).label = .form .identifier ∨
    (n.reading source).label = .form .specialVariable
  name : name = ⟨String.ofList (textIn source (n.reading source).region),
    (Span.ofRegion (n.reading source).region).withText source⟩
  bare : n.bareBodies = []

theorem Node.isName_leaf {f : Form} (h : t.Sound source)
    (hf : f = .identifier ∧ t.kind = .identifier ∨ f = .specialVariable ∧ t.kind = .special) :
    ∃ name, Node.IsName source ⟨.form f, t.region, role, missing, []⟩ name ∧
      name.pieces = [Piece.word t.kind t.text] := by
  refine ⟨_, ⟨?_, rfl, ?_⟩, h.name_pieces _ ?_⟩
  · rcases hf with ⟨rfl, -⟩ | ⟨rfl, -⟩
    · exact .inl rfl
    · exact .inr rfl
  · rcases hf with ⟨rfl, -⟩ | ⟨rfl, -⟩ <;> rfl
  · rcases hf with ⟨-, hk⟩ | ⟨-, hk⟩
    · exact .inl hk
    · exact .inr hk

/-! ### Lists of arguments, bindings and parameters -/

/-- The node of an argument list. -/
structure Node.IsArgs (source : List Char) (n : Node) (as : List Arg) : Prop where
  arguments : Yields (n.reading source).arguments as
  neat : NeatAll (Arg.piecesAll as)
  bare : n.bareBodies = []

structure Node.IsBindings (source : List Char) (n : Node) (bs : List Assignment) : Prop where
  assignments : Yields (n.reading source).assignments bs
  neat : NeatAll (Assignment.piecesAll bs)
  bare : n.bareBodies = []

structure Node.IsParams (source : List Char) (n : Node) (ps : List Param) : Prop where
  parameters : Yields (n.reading source).parameters ps
  neat : NeatAll (Param.piecesAll ps)
  bare : n.bareBodies = []

/-! ### Children -/

section

variable {n : Shape} {r : Role} {c : Node}

theorem Shape.yields_name {name : Name}
    (h : n.child? r = some { c.reading n.source with role := some r })
    (hc : Node.IsName n.source c name) : Yields (n.nameIn r) name := by
  have hy := Shape.yields_nameIn h hc.label
  rwa [← hc.name] at hy

theorem Shape.yields_expr {e : Expr}
    (h : n.child? r = some { c.reading n.source with role := some r })
    (hc : Node.IsExpr n.source c e l) : Yields (n.exprIn r) e :=
  Shape.yields_exprIn h hc.expr

theorem Shape.yields_optionalExpr {e : Expr}
    (h : n.child? r = some { c.reading n.source with role := some r })
    (hc : Node.IsExpr n.source c e l) : Yields (n.optional r Reading.expr) (some e) :=
  Shape.yields_optional h hc.expr

theorem Shape.yields_bindings {bs : List Assignment}
    (h : n.child? r = some { c.reading n.source with role := some r })
    (hc : Node.IsBindings n.source c bs) : Yields (n.assignmentsIn r) bs :=
  Shape.yields_assignmentsIn h hc.assignments

theorem Shape.yields_arguments {as : List Arg}
    (h : n.child? .arguments = some { c.reading n.source with role := some .arguments })
    (hc : Node.IsArgs n.source c as) : Yields n.args as :=
  Shape.yields_args h hc.arguments

theorem Shape.yields_parameters {ps : List Param}
    (h : n.child? .parameters = some { c.reading n.source with role := some .parameters })
    (hc : Node.IsParams n.source c ps) : Yields n.params ps :=
  Shape.yields_params h hc.parameters

end

variable {ns : List Node}

theorem Node.bareBodiesAll_of_forall {α : Type} {R : Node → α → Prop} {as : List α}
    (hR : ∀ n a, R n a → n.bareBodies = []) (h : List.Forall₂ R ns as) :
    bareBodiesAll ns = [] := by
  induction h with
  | nil => rfl
  | cons hn _ ih => rw [bareBodiesAll_cons, hR _ _ hn, ih, List.nil_append]

theorem Node.isArgs {as : List Arg} (h : List.Forall₂ (Node.IsArg source) ns as) :
    Node.IsArgs source ⟨.form .arguments, region, role, missing, ns⟩ as := by
  refine ⟨?_, ?_, ?_⟩
  · rw [Node.reading_form]
    refine Yields.each (List.forall₂_map_left_iff.2 (h.imp fun _ _ hn => hn.argument))
  · induction h with
    | nil => exact .nil
    | cons hn _ ih =>
      obtain ⟨_, _, hk⟩ := hn.neat
      exact .cons hk ih
  · rw [bareBodies_form (by decide)]
    exact bareBodiesAll_of_forall (fun _ _ hn => hn.bare) h

theorem Node.isBindings {bs : List Assignment} (h : List.Forall₂ (Node.IsBinding source) ns bs) :
    Node.IsBindings source ⟨.form .assignments, region, role, missing, ns⟩ bs := by
  refine ⟨?_, ?_, ?_⟩
  · rw [Node.reading_form]
    refine Yields.each (List.forall₂_map_left_iff.2 (h.imp fun _ _ hn => hn.assignment))
  · induction h with
    | nil => exact .nil
    | cons hn _ ih =>
      obtain ⟨_, _, hk⟩ := hn.neat
      exact .cons hk ih
  · rw [bareBodies_form (by decide)]
    exact bareBodiesAll_of_forall (fun _ _ hn => hn.bare) h

theorem Node.isParams {ps : List Param} (h : List.Forall₂ (Node.IsParam source) ns ps) :
    Node.IsParams source ⟨.form .parameters, region, role, missing, ns⟩ ps := by
  refine ⟨?_, ?_, ?_⟩
  · rw [Node.reading_form]
    refine Yields.each (List.forall₂_map_left_iff.2 (h.imp fun _ _ hn => hn.parameter))
  · induction h with
    | nil => exact .nil
    | cons hn _ ih =>
      obtain ⟨_, _, hk⟩ := hn.neat
      exact .cons hk ih
  · rw [bareBodies_form (by decide)]
    exact bareBodiesAll_of_forall (fun _ _ hn => hn.bare) h

variable {a b c d : Node} {ea eb ec : Expr} {la lb lc : TokenKind} {name : Name}

theorem Node.IsExpr.isArg (h : a.IsExpr source ea la) : a.IsArg source (.positional ea) := by
  obtain ⟨k, hk⟩ := h.neat
  exact ⟨h.argument, ⟨k, la, hk⟩, h.bare⟩

theorem Node.isArg_named (hd : d.IsName source name) (ha : a.IsExpr source ea la) :
    Node.IsArg source
      ⟨.form .namedArgument, region, role, missing, [d.inRole .name, a.inRole .value]⟩
      (.named name ea (.ofRegion region.forward)) := by
  obtain ⟨k, hk⟩ := ha.neat
  obtain ⟨k', hk'⟩ := hk.named name
  refine ⟨?_, ⟨k', la, hk'⟩, ?_⟩
  · rw [Node.reading_form]
    simp only [List.map_cons, List.map_nil, Node.reading_inRole]
    exact (Shape.yields_name rfl hd).bind ((Shape.yields_expr rfl ha).bind (yields_pure _))
  · rw [bareBodies_form (by decide)]
    simp [hd.bare, ha.bare]

theorem Node.isBinding_mk (hd : d.IsName source name) (ha : a.IsExpr source ea la) :
    Node.IsBinding source
      ⟨.form .assignment, region, role, missing, [d.inRole .name, a.inRole .value]⟩
      (.mk name ea (.ofRegion region.forward)) := by
  obtain ⟨k, hk⟩ := ha.neat
  obtain ⟨k', hk'⟩ := hk.named name
  refine ⟨?_, ⟨k', la, hk'⟩, ?_⟩
  · rw [Node.reading_form]
    simp only [List.map_cons, List.map_nil, Node.reading_inRole]
    exact (Shape.yields_name rfl hd).bind ((Shape.yields_expr rfl ha).bind
      ((yields_update _).bind (yields_pure _)))
  · rw [bareBodies_form (by decide)]
    simp [hd.bare, ha.bare]

theorem Node.isParam_plain (hd : d.IsName source name) :
    Node.IsParam source ⟨.form .parameter, region, role, missing, [d.inRole .name]⟩
      (.mk name none (.ofRegion region.forward)) := by
  obtain ⟨k, hk, -⟩ := name.neat_pieces
  refine ⟨?_, ⟨k, k, ?_⟩, ?_⟩
  · rw [Node.reading_form]
    simp only [List.map_cons, List.map_nil, Node.reading_inRole]
    exact (Shape.yields_name rfl hd).bind ((Shape.yields_optional_none rfl).bind (yields_pure _))
  · simpa [Param.pieces, Expr.piecesDefault] using hk
  · rw [bareBodies_form (by decide)]
    simp [hd.bare]

theorem Node.isParam_default (hd : d.IsName source name) (ha : a.IsExpr source ea la) :
    Node.IsParam source
      ⟨.form .parameter, region, role, missing, [d.inRole .name, a.inRole .default]⟩
      (.mk name (some ea) (.ofRegion region.forward)) := by
  obtain ⟨k, hk⟩ := ha.neat
  obtain ⟨k', hk'⟩ := hk.named name
  refine ⟨?_, ⟨k', la, ?_⟩, ?_⟩
  · rw [Node.reading_form]
    simp only [List.map_cons, List.map_nil, Node.reading_inRole]
    exact (Shape.yields_name rfl hd).bind
      ((Shape.yields_optionalExpr rfl ha).bind (yields_pure _))
  · simpa [Param.pieces, Expr.piecesDefault] using hk'
  · rw [bareBodies_form (by decide)]
    simp [hd.bare, ha.bare]

end
end Scad
