import Scad.Proofs.Program.Forms.Expr

/-!
# Statements and items

What the nodes of statements and declarations are read as. The body of a module is a block or a
single item; both are read as a list of items.
-/

namespace Scad

open Read Piece

/-- The node is read as this item, and a block as its items too. -/
structure Node.IsItem (source : List Char) (n : Node) (i : Item) : Prop where
  item : Yields (n.reading source).item i
  neat : i.IsNeat
  block : n.kind = .form .unionBlock → ∃ is span, i = .stmt (.block is span) ∧
    Yields (n.reading source).items is ∧ ∀ j ∈ is, j.IsNeat

/-- The node is read as this statement. -/
structure Node.IsStmt (source : List Char) (n : Node) (t : Stmt) : Prop where
  stmt : Yields (n.reading source).stmt t
  isItem : n.IsItem source (.stmt t)

theorem Node.IsStmt.neat {source : List Char} {n : Node} {t : Stmt} (h : n.IsStmt source t) :
    t.IsNeat := h.isItem.neat

/-- The forms of declarations. -/
def Form.declares : Form → Bool
  | .moduleItem | .functionItem | .varDeclaration => true
  | _ => false

theorem Shape.asItem_of_not_declares {n : Shape} {f : Form} (hl : n.label = .form f)
    (hf : f.declares = false) (self : Read Stmt) :
    n.asItem self = self >>= fun t => pure (.stmt t) := by
  unfold Shape.asItem
  split
  case h_4 => rfl
  all_goals
    rename_i h
    rw [hl] at h
    obtain rfl := Label.form.inj h
    cases hf

section

variable {source : List Char} {region : Region} {role : Option Role} {missing : Bool}
  {a b c d p : Node} {ea : Expr} {la : TokenKind} {name : Name} {t u : Stmt}
  {as : List Arg} {bs : List Assignment} {ps : List Param}

theorem Node.isStmt_of_form {f : Form} {children : List Node} (hf : f.declares = false)
    (hb : f ≠ .unionBlock)
    (h : Yields
      (Shape.asStmt ⟨source, .form f, region.forward, children.map (Node.reading source)⟩) t)
    (hneat : t.IsNeat) : Node.IsStmt source ⟨.form f, region, role, missing, children⟩ t := by
  refine ⟨?_, ?_, hneat, fun hk => absurd (Kind.form.inj hk) hb⟩
  · rw [Node.reading_form]
    exact h
  · rw [Node.reading_form]
    show Yields (Shape.asItem _ _) _
    rw [Shape.asItem_of_not_declares rfl hf]
    exact h.bind (yields_pure _)

theorem Node.isItem_of_form {f : Form} {children : List Node} {i : Item} (hb : f ≠ .unionBlock)
    (h : Yields (Shape.reading
      ⟨source, .form f, region.forward, children.map (Node.reading source)⟩ role).item i)
    (hneat : i.IsNeat) : Node.IsItem source ⟨.form f, region, role, missing, children⟩ i := by
  refine ⟨?_, hneat, fun hk => absurd (Kind.form.inj hk) hb⟩
  rw [Node.reading_form]
  exact h

/-! ## Children -/

theorem Shape.yields_stmt {n : Shape} {r : Role}
    (h : n.child? r = some { a.reading n.source with role := some r })
    (ha : Node.IsStmt n.source a t) : Yields (n.stmtIn r) t :=
  Shape.yields_stmtIn h ha.stmt

theorem Shape.yields_optionalStmt {n : Shape} {r : Role}
    (h : n.child? r = some { a.reading n.source with role := some r })
    (ha : Node.IsStmt n.source a t) : Yields (n.optional r Reading.stmt) (some t) :=
  Shape.yields_optional h ha.stmt

theorem Shape.yields_callTail {n : Shape}
    (h : n.child? .body = some { a.reading n.source with role := some .body })
    (ha : Node.IsStmt n.source a t) : Yields n.callTail t := by
  rw [Shape.callTail, h]
  exact ha.stmt

theorem Shape.yields_callTail_none {n : Shape} (h : n.child? .body = none) :
    Yields n.callTail (.empty n.span.endPoint) := by
  rw [Shape.callTail, h]
  exact yields_pure _

/-! ## Statements -/

theorem Node.isStmt_call (hd : d.IsName source name) (hp : p.IsArgs source as)
    (ha : a.IsStmt source t) :
    Node.IsStmt source
      ⟨.form .moduleCall, region, role, missing,
        [d.inRole .name, p.inRole .arguments, a.inRole .body]⟩
      (.call name as t (.ofRegion region.forward)) := by
  refine isStmt_of_form rfl (by decide) ?_ (Stmt.neat_call hp.neat ha.neat)
  simp only [List.map_cons, List.map_nil, Node.reading_inRole]
  exact (Shape.yields_name rfl hd).bind ((Shape.yields_arguments rfl hp).bind
    ((Shape.yields_callTail rfl ha).bind (yields_pure _)))

/-- A call that is closed by a semicolon. -/
theorem Node.isStmt_call_closed (hd : d.IsName source name) (hp : p.IsArgs source as) :
    Node.IsStmt source
      ⟨.form .moduleCall, region, role, missing, [d.inRole .name, p.inRole .arguments]⟩
      (.call name as (.empty (Span.ofRegion region.forward).endPoint)
        (.ofRegion region.forward)) := by
  refine isStmt_of_form rfl (by decide) ?_ (Stmt.neat_call hp.neat Stmt.neat_empty)
  simp only [List.map_cons, List.map_nil, Node.reading_inRole]
  exact (Shape.yields_name rfl hd).bind ((Shape.yields_arguments rfl hp).bind
    ((Shape.yields_callTail_none rfl).bind (yields_pure _)))

theorem Node.isStmt_assert (hp : p.IsArgs source as) (ha : a.IsStmt source t) :
    Node.IsStmt source
      ⟨.form .assertStatement, region, role, missing, [p.inRole .arguments, a.inRole .body]⟩
      (.assert as t (.ofRegion region.forward)) := by
  refine isStmt_of_form rfl (by decide) ?_ (Stmt.neat_assert hp.neat ha.neat)
  simp only [List.map_cons, List.map_nil, Node.reading_inRole]
  exact (Shape.yields_arguments rfl hp).bind ((Shape.yields_callTail rfl ha).bind (yields_pure _))

theorem Node.isStmt_assert_closed (hp : p.IsArgs source as) :
    Node.IsStmt source ⟨.form .assertStatement, region, role, missing, [p.inRole .arguments]⟩
      (.assert as (.empty (Span.ofRegion region.forward).endPoint) (.ofRegion region.forward)) := by
  refine isStmt_of_form rfl (by decide) ?_ (Stmt.neat_assert hp.neat Stmt.neat_empty)
  simp only [List.map_cons, List.map_nil, Node.reading_inRole]
  exact (Shape.yields_arguments rfl hp).bind ((Shape.yields_callTail_none rfl).bind
    (yields_pure _))

/-- The form of the node of a binder. -/
def Binder.form : Binder → Form
  | loop => .forBlock
  | intersectionLoop => .intersectionForBlock
  | letIn => .letBlock
  | assign => .assignBlock

theorem Node.isStmt_bound (o : Binder) (hd : d.IsBindings source bs) (ha : a.IsStmt source t) :
    Node.IsStmt source ⟨.form o.form, region, role, missing, [d.inRole .bindings, a.inRole .body]⟩
      (.bound o bs t (.ofRegion region.forward)) := by
  refine isStmt_of_form (by cases o <;> rfl) (by cases o <;> decide) ?_
    (Stmt.neat_bound hd.neat ha.neat)
  simp only [List.map_cons, List.map_nil, Node.reading_inRole]
  have hbound : ∀ kind, Yields (Shape.bound ⟨source, .form o.form, region.forward,
      [{ d.reading source with role := some .bindings },
        { a.reading source with role := some .body }]⟩ o kind)
      (.bound o bs t (.ofRegion region.forward)) := by
    intro kind
    refine Yields.inScope ?_ _ _
    exact (Shape.yields_bindings rfl hd).bind ((Shape.yields_stmt rfl ha).bind (yields_pure _))
  cases o <;> exact hbound _

theorem Node.isStmt_choice (hc : c.IsExpr source ea la) (ha : a.IsStmt source t) :
    Node.IsStmt source
      ⟨.form .ifBlock, region, role, missing, [c.inRole .condition, a.inRole .consequence]⟩
      (.choice ea t none (.ofRegion region.forward)) := by
  obtain ⟨k, hk⟩ := hc.neat
  refine isStmt_of_form rfl (by decide) ?_ (Stmt.neat_choice hk ha.neat (by simp))
  simp only [List.map_cons, List.map_nil, Node.reading_inRole]
  exact (Shape.yields_expr rfl hc).bind ((Shape.yields_stmt rfl ha).bind
    ((Shape.yields_optional_none rfl).bind (yields_pure _)))

theorem Node.isStmt_choice_else (hc : c.IsExpr source ea la) (ha : a.IsStmt source t)
    (hb : b.IsStmt source u) :
    Node.IsStmt source
      ⟨.form .ifBlock, region, role, missing,
        [c.inRole .condition, a.inRole .consequence, b.inRole .alternative]⟩
      (.choice ea t (some u) (.ofRegion region.forward)) := by
  obtain ⟨k, hk⟩ := hc.neat
  refine isStmt_of_form rfl (by decide) ?_
    (Stmt.neat_choice hk ha.neat (fun x hx => Option.some.inj hx ▸ hb.neat))
  simp only [List.map_cons, List.map_nil, Node.reading_inRole]
  exact (Shape.yields_expr rfl hc).bind ((Shape.yields_stmt rfl ha).bind
    ((Shape.yields_optionalStmt rfl hb).bind (yields_pure _)))

theorem Modifier.ofText?_text (m : Modifier) : Modifier.ofText? m.text = some m := by
  cases m <;> decide

theorem Node.isStmt_modified {m : Modifier} (hd : d.IsSymbol source m.text)
    (ha : a.IsStmt source t) :
    Node.IsStmt source
      ⟨.form .modifierChain, region, role, missing, [d.inRole .modifier, a.inRole .statement]⟩
      (.modified m t (.ofRegion region.forward)) := by
  refine isStmt_of_form rfl (by decide) ?_ (Stmt.neat_modified ha.neat)
  simp only [List.map_cons, List.map_nil, Node.reading_inRole]
  refine (Shape.yields_symbol rfl hd).bind ?_
  simp only [Modifier.ofText?_text]
  exact (Shape.yields_stmt rfl ha).bind (yields_pure _)

theorem Node.isStmt_empty :
    Node.IsStmt source ⟨.form .emptyStatement, region, role, missing, []⟩
      (.empty (.ofRegion region.forward)) :=
  isStmt_of_form rfl (by decide) (yields_pure _) Stmt.neat_empty

/-- The form of the node of a link. -/
def Link.form : Link → Form
  | .include => .includeStatement
  | .use => .useStatement

theorem Shape.pathOf?_eq (cs : List Char) : Shape.pathOf? ('<' :: (cs ++ ['>'])) = some cs := by
  simp [Shape.pathOf?]

theorem Node.isStmt_file (o : Link) {path : String} (hd : d.IsSymbol source ("<" ++ path ++ ">")) :
    Node.IsStmt source ⟨.form o.form, region, role, missing, [d.inRole .path]⟩
      (.file o path (.ofRegion region.forward)) := by
  refine isStmt_of_form (by cases o <;> rfl) (by cases o <;> decide) ?_ Stmt.neat_file
  simp only [List.map_cons, List.map_nil, Node.reading_inRole]
  have hp : Shape.pathOf? ("<" ++ path ++ ">").toList = some path.toList := by
    rw [String.toList_append, String.toList_append]
    exact Shape.pathOf?_eq path.toList
  have hfile : Yields (Shape.file ⟨source, .form o.form, region.forward,
      [{ d.reading source with role := some .path }]⟩ o) (.file o path (.ofRegion region.forward)) := by
    refine (Shape.yields_symbol rfl hd).bind ?_
    simp only [hp, String.ofList_toList]
    exact yields_pure _
  cases o <;> exact hfile

/-! ## Items -/

variable {ns : List Node} {is : List Item}

theorem Node.isItems (h : List.Forall₂ (Node.IsItem source) ns is) :
    Yields (Read.each Reading.item (ns.map (Node.reading source))) is :=
  Yields.each (List.forall₂_map_left_iff.2 (h.imp fun _ _ hn => hn.item))

theorem Node.isItems_neat (h : List.Forall₂ (Node.IsItem source) ns is) : ∀ i ∈ is, i.IsNeat := by
  induction h with
  | nil => simp
  | cons hn _ ih => simpa [hn.neat] using ih

theorem Node.isStmt_block (h : List.Forall₂ (Node.IsItem source) ns is) :
    Node.IsStmt source ⟨.form .unionBlock, region, role, missing, ns⟩
      (.block is (.ofRegion region.forward)) := by
  have hneat := isItems_neat h
  have hblock : Stmt.IsNeat (.block is (.ofRegion region.forward)) := Stmt.neat_block hneat
  have hstmt : Yields (Shape.asStmt ⟨source, .form .unionBlock, region.forward,
      ns.map (Node.reading source)⟩) (.block is (.ofRegion region.forward)) := by
    simp only [Shape.asStmt]
    refine Yields.inScope ?_ _ _
    exact (isItems h).bind (yields_pure _)
  refine ⟨?_, ?_, hblock, fun _ => ⟨is, _, rfl, ?_, hneat⟩⟩
  · rw [Node.reading_form]
    exact hstmt
  · rw [Node.reading_form]
    exact hstmt.bind (yields_pure _)
  · rw [Node.reading_form]
    exact isItems h

theorem Node.isItem_variable (hd : d.IsName source name) (ha : a.IsExpr source ea la) :
    Node.IsItem source
      ⟨.form .varDeclaration, region, role, missing, [d.inRole .name, a.inRole .value]⟩
      (.variableDef name ea (.ofRegion region.forward)) := by
  obtain ⟨k, hk⟩ := ha.neat
  refine isItem_of_form (by decide) ?_ (Item.neat_variable hk)
  simp only [List.map_cons, List.map_nil, Node.reading_inRole]
  exact (Shape.yields_name rfl hd).bind ((Shape.yields_expr rfl ha).bind
    ((yields_update _).bind (yields_pure _)))

theorem Node.isItem_function (hd : d.IsName source name) (hp : p.IsParams source ps)
    (ha : a.IsExpr source ea la) :
    Node.IsItem source
      ⟨.form .functionItem, region, role, missing,
        [d.inRole .name, p.inRole .parameters, a.inRole .body]⟩
      (.functionDef name ps ea (.ofRegion region.forward)) := by
  obtain ⟨k, hk⟩ := ha.neat
  refine isItem_of_form (by decide) ?_ (Item.neat_function hp.neat hk)
  simp only [List.map_cons, List.map_nil, Node.reading_inRole]
  refine (Shape.yields_name rfl hd).bind ((Shape.yields_parameters rfl hp).bind
    ((yields_update _).bind ?_))
  refine Yields.bind (Yields.inScope ?_ _ _) (yields_pure _)
  exact (yields_update _).bind (Shape.yields_expr rfl ha)

/-- Only blocks are labelled as blocks. -/
theorem Node.kind_of_reading_label (h : (a.reading source).label = .form .unionBlock) :
    a.kind = .form .unionBlock := by
  obtain ⟨kind, region, role, missing, children⟩ := a
  have h : Label.ofKind kind = .form .unionBlock := h
  cases kind with
  | form f => rw [Label.form.inj h]
  | error => exact absurd h (by decide)
  | token k => exact absurd h (by cases k <;> decide)

/-- The items of a module are those of its block, or the single item that is its body. -/
theorem Node.IsItem.moduleBody {i : Item} (h : a.IsItem source i) :
    ∃ is, Yields (Shape.moduleBody (a.reading source)) is ∧ (∀ j ∈ is, j.IsNeat) ∧
      (a.kind = .form .unionBlock ∧ (∃ span, i = .stmt (.block is span)) ∨
        a.kind ≠ .form .unionBlock ∧ is = [i]) := by
  by_cases hk : a.kind = .form .unionBlock
  · obtain ⟨is, span, hi, hy, hn⟩ := h.block hk
    refine ⟨is, ?_, hn, .inl ⟨hk, span, hi⟩⟩
    obtain ⟨kind, region, role, missing, children⟩ := a
    obtain rfl : kind = .form .unionBlock := hk
    rw [Node.reading_form] at hy ⊢
    exact hy
  · refine ⟨[i], ?_, by simpa using h.neat, .inr ⟨hk, rfl⟩⟩
    have hbody : Shape.moduleBody (a.reading source) =
        (a.reading source).item >>= fun j => pure [j] := by
      unfold Shape.moduleBody
      split
      · rename_i hl
        exact absurd (Node.kind_of_reading_label hl) hk
      · rfl
    rw [hbody]
    exact h.item.bind (yields_pure _)

theorem Node.isItem_module {i : Item} (hd : d.IsName source name) (hp : p.IsParams source ps)
    (ha : a.IsItem source i) :
    ∃ is, Node.IsItem source
      ⟨.form .moduleItem, region, role, missing,
        [d.inRole .name, p.inRole .parameters, a.inRole .body]⟩
      (.moduleDef name ps is (.ofRegion region.forward)) ∧
      (a.kind = .form .unionBlock ∧ (∃ span, i = .stmt (.block is span)) ∨
        a.kind ≠ .form .unionBlock ∧ is = [i]) := by
  obtain ⟨is, hy, hn, his⟩ := ha.moduleBody
  refine ⟨is, isItem_of_form (by decide) ?_ (Item.neat_module hp.neat hn), his⟩
  simp only [List.map_cons, List.map_nil, Node.reading_inRole]
  refine (Shape.yields_name rfl hd).bind ((Shape.yields_parameters rfl hp).bind
    ((yields_update _).bind ((Shape.yields_need rfl).bind ?_)))
  refine Yields.bind (Yields.inScope ?_ _ _) (yields_pure _)
  exact (yields_update _).bind hy

end
end Scad
