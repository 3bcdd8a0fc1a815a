import Scad.Proofs.Program.Grouped

/-!
# Where generators stand

A loop, a choice or a spread stands for any number of elements of a list, so it makes sense only
where elements are wanted. `Program.Stands` says of each place in a program whether this is one. An
expression that is a value is no generator, and neither is what it gives behind its bindings; that
all other places hold values (`Element.Settled`) is a property of each node of the tree taken alone.
-/

namespace Scad

open Read

/-! ## Places -/

/-- The expressions that stand for any number of elements. -/
def Expr.isGenerator : Expr → Bool
  | each _ _ | comprehension _ _ _ _ | choice _ _ _ _ => true
  | _ => false

/-- No generator, nor bindings in front of one. -/
def Expr.isValue : Expr → Bool
  | letIn _ body _ => body.isValue
  | e => !e.isGenerator

theorem Expr.isGenerator_of_isValue {e : Expr} (h : e.isValue = true) : e.isGenerator = false := by
  cases e <;> first | rfl | cases h

namespace Element

/-- The parts of an element, each with whether a generator may stand in its place. The body of a
`let` stands where the `let` does. -/
def slots (wanted : Bool) : Element → List (Bool × Element)
  | expr (.list elements _) => elements.map fun e => (true, .expr e)
  | expr (.each e _) => [(true, .expr e)]
  | expr (.choice cond yes no _) =>
    (false, .expr cond) :: (yes :: no.toList).map fun e => (true, .expr e)
  | expr (.comprehension head clauses body _) =>
    (head.elements ++ clauses.map Element.clause).map (false, ·) ++ [(true, .expr body)]
  | expr (.letIn bindings body _) =>
    bindings.map (fun b => (false, .assignment b)) ++ [(wanted, .expr body)]
  | x => x.children.map (false, ·)

/-- The slots of an element hold its parts. -/
theorem slots_eq (wanted : Bool) (x : Element) : (x.slots wanted).map Prod.snd = x.children := by
  unfold slots
  split <;> simp [children, Function.comp_def]

theorem mem_children_of_slot {wanted wanted' : Bool} {x y : Element}
    (h : (wanted', y) ∈ x.slots wanted) : y ∈ x.children := by
  rw [← slots_eq wanted]
  exact List.mem_map_of_mem h

theorem exists_slot (wanted : Bool) {x y : Element} (h : y ∈ x.children) :
    ∃ wanted', (wanted', y) ∈ x.slots wanted := by
  rw [← slots_eq wanted, List.mem_map] at h
  obtain ⟨⟨wanted', z⟩, hslot, rfl⟩ := h
  exact ⟨wanted', hslot⟩

/-- A place that is closed to generators is so wherever the element stands, the body of a `let`
apart. -/
theorem slot_cases {wanted : Bool} {x : Element} {e : Expr}
    (h : (false, .expr e) ∈ x.slots wanted) :
    (false, .expr e) ∈ x.slots true ∨
      wanted = false ∧ ∃ bs s, x = .expr (.letIn bs e s) := by
  by_cases hlet : ∃ bs body s, x = .expr (.letIn bs body s)
  · obtain ⟨bs, body, s, rfl⟩ := hlet
    obtain ⟨rfl, rfl⟩ : wanted = false ∧ e = body := by simpa [slots] using h
    exact .inr ⟨rfl, bs, s, rfl⟩
  · left
    unfold slots at h ⊢
    split at h
    case h_5 => exact absurd ⟨_, _, _, rfl⟩ hlet
    all_goals exact h

/-- Where no generator may stand in an element, whatever the place of the element, there are values.
-/
def Settled (x : Element) : Prop := ∀ e, (false, .expr e) ∈ x.slots true → e.isValue = true

end Element

/-- An element stands in a program, in a place where generators are wanted or in another one. -/
inductive Program.Stands (p : Program) : Bool → Element → Prop
  | item {i : Item} (hi : i ∈ p.items) : Stands p false (.item i)
  | part {wanted wanted' : Bool} {x y : Element} (hx : Stands p wanted x)
      (hy : (wanted', y) ∈ x.slots wanted) : Stands p wanted' y

namespace Program

variable {p : Program} {wanted : Bool}

theorem stands_of_mem_all {x y : Element} (hx : p.Stands wanted x)
    (hy : y ∈ x.all) : ∃ wanted, p.Stands wanted y := by
  induction x using Element.induct generalizing wanted with
  | step x ih =>
    rcases Element.mem_all.1 hy with rfl | ⟨z, hz, hy⟩
    · exact ⟨wanted, hx⟩
    · obtain ⟨wanted', hslot⟩ := Element.exists_slot wanted hz
      exact ih z hz (hx.part hslot) hy

/-- Every element of a program stands in some place. -/
theorem stands_of_mem {x : Element} (hx : x ∈ p.elements) : ∃ wanted, p.Stands wanted x := by
  obtain ⟨i, hi, hx⟩ := List.mem_flatMap.1 hx
  exact stands_of_mem_all (.item hi) hx

/-- Where the elements of a program are settled, values stand in all places where no generator is
wanted. -/
theorem isValue_of_stands (h : ∀ x ∈ p.elements, x.Settled) {x : Element}
    (hx : p.Stands wanted x) :
    x.Every Element.Settled ∧ (wanted = false → ∀ e, x = .expr e → e.isValue = true) := by
  induction hx with
  | @item i hi => exact ⟨fun y hy => h y (List.mem_flatMap.2 ⟨i, hi, hy⟩), nofun⟩
  | @part wanted wanted' x y _ hy ih =>
    obtain ⟨hsettled, hparts⟩ := Element.every_iff.1 ih.1
    refine ⟨hparts y (Element.mem_children_of_slot hy), ?_⟩
    rintro rfl e rfl
    rcases Element.slot_cases hy with hy | ⟨rfl, bs, s, rfl⟩
    · exact hsettled e hy
    · -- the body of a `let`, which stands where the `let` does
      have hlet : (Expr.letIn bs e s).isValue = true := ih.2 rfl _ rfl
      exact hlet

end Program

/-! ## Nodes -/

/-- The roles in which a form has elements of a list. -/
def Form.hosts : Form → Option Role → Bool
  | list, _ => true
  | listComprehension, some .body | letExpression, some .body => true
  | ifComprehension, some .consequence | ifComprehension, some .alternative => true
  | each, some .value => true
  | _, _ => false

def Label.hosts : Label → Option Role → Bool
  | form f, r => f.hosts r
  | other _, _ => false

/-- The forms that are read as generators. -/
def Form.generates : Form → Bool
  | listComprehension | ifComprehension | each => true
  | _ => false

/-- The form of the nodes that are read as this kind of expression. -/
def Expr.form : Expr → Form
  | literal (.number _) _ => .number
  | literal (.string _) _ => .string
  | literal (.bool _) _ => .boolean
  | literal .undef _ => .undef
  | ident _ => .identifier
  | special _ => .specialVariable
  | call _ _ _ => .functionCall
  | index _ _ _ => .indexExpression
  | member _ _ _ => .dotIndexExpression
  | unary _ _ _ => .unaryExpression
  | binary _ _ _ _ => .binaryExpression
  | ternary _ _ _ _ => .ternaryExpression
  | paren _ _ => .parenthesizedExpression
  | letIn _ _ _ => .letExpression
  | guarded .assert _ _ _ => .assertExpression
  | guarded .echo _ _ _ => .echoExpression
  | list _ _ => .list
  | range _ _ _ _ => .range
  | function _ _ _ => .functionLiteral
  | each _ _ => .each
  | comprehension _ _ _ _ => .listComprehension
  | choice _ _ _ _ => .ifComprehension

namespace Shape

open Element

variable {n : Shape}

/-- The label of a node tells the kind of expression that it is read as. -/
theorem form_asExpr : All (fun e => n.label = .form e.form) n.asExpr := by
  unfold Shape.asExpr
  split <;> rename_i hl
  · exact (all_true _).bind fun _ _ => all_pure hl
  · exact (all_true _).bind fun _ _ => all_pure hl
  · unfold asNumber
    split
    · exact all_pure hl
    · exact all_throw
  · exact all_pure hl
  · unfold asBoolean
    split
    · exact all_pure hl
    · exact all_pure hl
    · exact all_throw
  · exact all_pure hl
  · refine (all_true _).bind fun symbol _ => ?_
    dsimp only
    split
    · exact all_throw
    · exact (all_true _).bind fun _ _ => (all_true _).bind fun _ _ => all_pure hl
  · refine (all_true _).bind fun symbol _ => ?_
    dsimp only
    split
    · exact all_throw
    · exact (all_true _).bind fun _ _ => all_pure hl
  · refine (all_true _).bind fun _ _ => (all_true _).bind fun _ _ => ?_
    exact (all_true _).bind fun _ _ => all_pure hl
  · exact (all_true _).bind fun _ _ => all_pure hl
  · exact (all_true _).bind fun _ _ => (all_true _).bind fun _ _ => all_pure hl
  · exact (all_true _).bind fun _ _ => (all_true _).bind fun _ _ => all_pure hl
  · exact (all_true _).bind fun _ _ => (all_true _).bind fun _ _ => all_pure hl
  · refine All.inScope ((all_true _).bind fun _ _ => ?_) _ _
    exact (all_true _).bind fun _ _ => all_pure hl
  · exact (all_true _).bind fun _ _ => (all_true _).bind fun _ _ => all_pure hl
  · exact (all_true _).bind fun _ _ => (all_true _).bind fun _ _ => all_pure hl
  · refine (all_true _).bind fun _ _ => All.inScope ((all_true _).bind fun _ _ => ?_) _ _
    exact (all_true _).bind fun _ _ => all_pure hl
  · exact (all_true _).bind fun _ _ => all_pure hl
  · refine (all_true _).bind fun _ _ => (all_true _).bind fun _ _ => ?_
    exact (all_true _).bind fun _ _ => all_pure hl
  · refine All.inScope ((all_true _).bind fun _ _ => ?_) _ _
    exact (all_true _).bind fun _ _ => all_pure hl
  · refine (all_true _).bind fun _ _ => (all_true _).bind fun _ _ => ?_
    exact (all_true _).bind fun _ _ => all_pure hl
  · exact (all_true _).bind fun _ _ => all_pure hl
  · exact all_throw

/-- A node is read as a value unless its form is that of a generator, or it is a `let` in front of
one. -/
theorem value_asExpr {f : Form} (hl : n.label = .form f) (hf : f.generates = false)
    (hbody : f = .letExpression → ∀ c ∈ n.children, c.role = some .body →
      All (fun e => e.isValue = true) c.expr) : All (fun e => e.isValue = true) n.asExpr := by
  by_cases hlet : f = .letExpression
  · rw [hlet] at hl
    unfold Shape.asExpr
    simp only [hl]
    refine All.inScope ((all_true _).bind fun _ _ => ?_) _ _
    exact (all_need (hbody hlet)).bind fun e he => all_pure he
  · refine form_asExpr.imp fun e he => ?_
    obtain rfl := Label.form.inj (hl.symm.trans he)
    cases e <;> first | rfl | exact absurd rfl hlet | cases hf

/-- The children that are no elements of a list are read as values. -/
def Neat (n : Shape) : Prop :=
  ∀ c ∈ n.children, n.label.hosts c.role = false → All (fun e => e.isValue = true) c.expr

section

variable (h : n.Neat)

include h

theorem Neat.exprIn {r : Role} (hr : n.label.hosts (some r) = false) :
    All (fun e => e.isValue = true) (n.exprIn r) :=
  all_need fun c hc hrole => h c hc (by rwa [hrole])

theorem Neat.optional {r : Role} (hr : n.label.hosts (some r) = false) :
    All (fun o => ∀ e ∈ o, e.isValue = true) (n.optional r Reading.expr) :=
  all_optional fun c hc hrole => h c hc (by rwa [hrole])

theorem Neat.asArgument (hself : All (fun e => e.isValue = true) n.asExpr) :
    All (fun a => (Element.arg a).Settled) (n.asArgument n.asExpr) := by
  unfold Shape.asArgument
  split
  · rename_i hl
    refine (all_true _).bind fun _ _ => (h.exprIn (by rw [hl]; rfl)).bind fun v hv => all_pure ?_
    simpa [Settled, slots, Element.children] using hv
  · refine hself.bind fun v hv => all_pure ?_
    simpa [Settled, slots, Element.children] using hv

theorem Neat.asAssignment : All (fun b => (Element.assignment b).Settled) n.asAssignment := by
  unfold Shape.asAssignment
  split
  · rename_i hl
    refine (all_true _).bind fun _ _ => (h.exprIn (by rw [hl]; rfl)).bind fun v hv => ?_
    refine (all_true _).bind fun _ _ => all_pure ?_
    simpa [Settled, slots, Element.children] using hv
  · exact all_throw

theorem Neat.asParameter : All (fun p => (Element.param p).Settled) n.asParameter := by
  unfold Shape.asParameter
  split
  · rename_i hl
    refine (all_true _).bind fun _ _ => (h.optional (by rw [hl]; rfl)).bind fun v hv => ?_
    exact all_pure (by simpa [Settled, slots, Element.children] using hv)
  · exact all_throw

theorem Neat.loopHead (hl : n.label = .form .listComprehension) :
    All (fun l => ∀ e, .expr e ∈ l.elements → e.isValue = true) n.loopHead := by
  unfold Shape.loopHead
  split
  · exact (all_true _).bind fun bs _ => all_pure (by simp [LoopHead.elements])
  · refine (all_true _).bind fun is _ => (h.exprIn (by rw [hl]; rfl)).bind fun c hc => ?_
    exact (all_true _).bind fun us _ => all_pure (by simpa [LoopHead.elements] using hc)

theorem Neat.asExpr : All (fun e => (expr e).Settled) n.asExpr := by
  unfold Shape.asExpr
  split <;> rename_i hl
  · exact (all_true _).bind fun _ _ => all_pure (by simp [Settled, slots, Element.children])
  · exact (all_true _).bind fun _ _ => all_pure (by simp [Settled, slots, Element.children])
  · unfold asNumber
    split
    · exact all_pure (by simp [Settled, slots, Element.children])
    · exact all_throw
  · exact all_pure (by simp [Settled, slots, Element.children])
  · unfold asBoolean
    split
    · exact all_pure (by simp [Settled, slots, Element.children])
    · exact all_pure (by simp [Settled, slots, Element.children])
    · exact all_throw
  · exact all_pure (by simp [Settled, slots, Element.children])
  · unfold asBinary
    refine (all_true _).bind fun symbol _ => ?_
    dsimp only
    split
    · exact all_throw
    · refine (h.exprIn (by rw [hl]; rfl)).bind fun a ha => ?_
      refine (h.exprIn (by rw [hl]; rfl)).bind fun b hb => all_pure ?_
      simpa [Settled, slots, Element.children] using ⟨ha, hb⟩
  · unfold asUnary
    refine (all_true _).bind fun symbol _ => ?_
    dsimp only
    split
    · exact all_throw
    · refine (h.exprIn (by rw [hl]; rfl)).bind fun a ha => all_pure ?_
      simpa [Settled, slots, Element.children] using ha
  · refine (h.exprIn (by rw [hl]; rfl)).bind fun c hc => ?_
    refine (h.exprIn (by rw [hl]; rfl)).bind fun a ha => ?_
    refine (h.exprIn (by rw [hl]; rfl)).bind fun b hb => all_pure ?_
    simpa [Settled, slots, Element.children] using ⟨hc, ha, hb⟩
  · refine (h.exprIn (by rw [hl]; rfl)).bind fun a ha => all_pure ?_
    simpa [Settled, slots, Element.children] using ha
  · refine (h.exprIn (by rw [hl]; rfl)).bind fun a ha => ?_
    refine (all_true _).bind fun as _ => all_pure ?_
    simpa [Settled, slots, Element.children] using ha
  · refine (h.exprIn (by rw [hl]; rfl)).bind fun a ha => ?_
    refine (h.exprIn (by rw [hl]; rfl)).bind fun b hb => all_pure ?_
    simpa [Settled, slots, Element.children] using ⟨ha, hb⟩
  · refine (h.exprIn (by rw [hl]; rfl)).bind fun a ha => ?_
    refine (all_true _).bind fun _ _ => all_pure ?_
    simpa [Settled, slots, Element.children] using ha
  · refine All.inScope ((all_true _).bind fun bs _ => (all_true _).bind fun a _ => ?_) _ _
    exact all_pure (by simp [Settled, slots])
  · refine (all_true _).bind fun as _ => (h.optional (by rw [hl]; rfl)).bind fun o ho => ?_
    exact all_pure (by simpa [Settled, slots, Element.children] using ho)
  · refine (all_true _).bind fun as _ => (h.optional (by rw [hl]; rfl)).bind fun o ho => ?_
    exact all_pure (by simpa [Settled, slots, Element.children] using ho)
  · refine (all_true _).bind fun ps _ => All.inScope ((all_true _).bind fun _ _ => ?_) _ _
    refine (h.exprIn (by rw [hl]; rfl)).bind fun a ha => all_pure ?_
    simpa [Settled, slots, Element.children] using ha
  · exact (all_true _).bind fun es _ => all_pure (by simp [Settled, slots])
  · refine (h.exprIn (by rw [hl]; rfl)).bind fun a ha => ?_
    refine (h.optional (by rw [hl]; rfl)).bind fun o ho => ?_
    refine (h.exprIn (by rw [hl]; rfl)).bind fun b hb => all_pure ?_
    simpa [Settled, slots, Element.children, or_imp, forall_and] using ⟨ha, ho, hb⟩
  · refine All.inScope ((h.loopHead hl).bind fun l hhead => (all_true _).bind fun t _ => ?_) _ _
    refine all_pure ?_
    simpa [Settled, slots, Element.children] using hhead
  · refine (h.exprIn (by rw [hl]; rfl)).bind fun c hc => (all_true _).bind fun a _ => ?_
    refine (all_true _).bind fun o _ => all_pure ?_
    simpa [Settled, slots, Element.children] using hc
  · exact (all_true _).bind fun a _ => all_pure (by simp [Settled, slots])
  · exact all_throw

theorem Neat.asTail :
    All (fun t => ∀ k ∈ t.1.head?, (clause k).Settled) (n.asTail n.asExpr) := by
  have hbody : All (fun t : List Clause × Expr => ∀ k ∈ t.1.head?, (clause k).Settled)
      (do let e ← n.asExpr; pure ([], e)) :=
    (all_true _).bind fun e _ => all_pure (by simp)
  unfold Shape.asTail
  dsimp only
  split <;> rename_i hl
  · refine All.inScope ((h.loopHead hl).bind fun l hhead => (all_true _).bind fun t _ => ?_) _ _
    exact all_pure (by simpa [Settled, slots, Element.children, Clause.elements] using hhead)
  · split
    · exact hbody
    · refine (h.exprIn (by rw [hl]; rfl)).bind fun c hc => (all_true _).bind fun t _ => ?_
      exact all_pure (by simpa [Settled, slots, Element.children, Clause.elements] using hc)
  · refine All.inScope ((all_true _).bind fun bs _ => (all_true _).bind fun t _ => ?_) _ _
    exact all_pure (by simp [Settled, slots, Element.children, Clause.elements])
  · exact hbody

theorem Neat.asStmt : All (fun s => (stmt s).Settled) n.asStmt := by
  have hbound : ∀ binder kind, All (fun s => (stmt s).Settled) (n.bound binder kind) := by
    intro binder kind
    refine All.inScope ((all_true _).bind fun bs _ => (all_true _).bind fun s _ => ?_) _ _
    exact all_pure (by simp [Settled, slots, Element.children])
  have hfile : ∀ link, All (fun s => (stmt s).Settled) (n.file link) := by
    intro link
    refine (all_true _).bind fun text _ => ?_
    dsimp only
    split
    · exact all_pure (by simp [Settled, slots, Element.children])
    · exact all_throw
  unfold Shape.asStmt
  split <;> rename_i hl
  · refine (all_true _).bind fun _ _ => (all_true _).bind fun _ _ => (all_true _).bind fun _ _ => ?_
    exact all_pure (by simp [Settled, slots, Element.children])
  · refine All.inScope ((all_true _).bind fun is _ => all_pure ?_) _ _
    simp [Settled, slots, Element.children]
  · exact all_pure (by simp [Settled, slots, Element.children])
  · refine (all_true _).bind fun symbol _ => ?_
    dsimp only
    split
    · exact all_throw
    · exact (all_true _).bind fun s _ => all_pure (by simp [Settled, slots, Element.children])
  · exact hbound _ _
  · exact hbound _ _
  · exact hbound _ _
  · exact hbound _ _
  · refine (h.exprIn (by rw [hl]; rfl)).bind fun c hc => (all_true _).bind fun a _ => ?_
    refine (all_true _).bind fun o _ => all_pure ?_
    simpa [Settled, slots, Element.children] using hc
  · refine (all_true _).bind fun as _ => (all_true _).bind fun s _ => all_pure ?_
    simp [Settled, slots, Element.children]
  · exact hfile _
  · exact hfile _
  · exact all_throw

theorem Neat.asItem : All (fun i => (item i).Settled) (n.asItem n.asStmt) := by
  unfold Shape.asItem
  split <;> rename_i hl
  · refine (all_true _).bind fun _ _ => (all_true _).bind fun _ _ => (all_true _).bind fun _ _ => ?_
    refine (all_true _).bind fun c _ => (all_true _).bind fun is _ => all_pure ?_
    simp [Settled, slots, Element.children]
  · refine (all_true _).bind fun _ _ => (all_true _).bind fun _ _ => (all_true _).bind fun _ _ => ?_
    refine (All.inScope ((all_true _).bind fun _ _ => h.exprIn (by rw [hl]; rfl)) _ _).bind ?_
    exact fun e he => all_pure (by simpa [Settled, slots, Element.children] using he)
  · refine (all_true _).bind fun _ _ => (h.exprIn (by rw [hl]; rfl)).bind fun v hv => ?_
    refine (all_true _).bind fun _ _ => all_pure ?_
    simpa [Settled, slots, Element.children] using hv
  · exact (all_true _).bind fun s _ => all_pure (by simp [Settled, slots, Element.children])

end
end Shape

namespace Node

variable {source : List Char}

/-- In the node and all nodes in it, the children that are no elements of a list are read as values.
-/
def Tidy (source : List Char) : Node → Prop := Throughout fun m => (m.shape source).Neat

/-- Whatever expression the node is read as is a value. -/
def Value (source : List Char) : Node → Prop := ReadAs source fun e => e.isValue = true

/-- What a tidy node is read as is settled. -/
theorem Tidy.own {n : Node} (h : n.Tidy source) :
    n.Throughout fun m => (m.shape source).Own Element.Settled := by
  induction h with
  | @mk n self inner ih =>
    have harguments : All (fun as => ∀ a ∈ as, (Element.arg a).Settled)
        (n.shape source).asArguments := by
      unfold Shape.asArguments
      split <;> rename_i hl
      · refine All.each (List.forall_mem_map.2 fun c hc => ?_)
        obtain ⟨hneat, -⟩ := inner c hc
        have hvalue := self _ (List.mem_map_of_mem hc) (by rw [hl]; rfl)
        rw [reading_eq] at hvalue ⊢
        exact hneat.asArgument hvalue
      · exact all_throw
    refine .mk ?_ ih
    exact {
      name := fun a => by simp [Element.Settled, Element.slots, Element.children]
      empty := fun s => by simp [Element.Settled, Element.slots, Element.children]
      item := self.asItem
      stmt := self.asStmt
      expr := self.asExpr
      clause := self.asTail
      arguments := harguments
      assignment := self.asAssignment
      parameter := self.asParameter }

/-! ### Building nodes -/

theorem Tidy.inRole {n : Node} (h : n.Tidy source) (r : Role) : (n.inRole r).Tidy source := by
  obtain ⟨self, inner⟩ := h
  exact .mk self inner

/-- The nodes are tidy, and as children of a form they are read as values where they have to be. -/
def Suit (source : List Char) (f : Form) (ns : List Node) : Prop :=
  ∀ n ∈ ns, n.Tidy source ∧ (f.hosts n.role = false → n.Value source)

variable {f : Form} {region : Region} {children : List Node}

theorem suit_of_values (h : ∀ n ∈ children, n.Tidy source ∧ n.Value source) :
    Suit source f children :=
  fun n hn => ⟨(h n hn).1, fun _ => (h n hn).2⟩

theorem Suit.neat (h : Suit source f children) :
    Shape.Neat ⟨source, .form f, region, children.map (reading source)⟩ := by
  refine List.forall_mem_map.2 fun n hn hrole => (h n hn).2 ?_
  rwa [reading_role] at hrole

theorem Suit.tidy (h : Suit source f children) :
    Tidy source ⟨.form f, region, none, false, children⟩ :=
  .mk h.neat fun n hn => (h n hn).1

theorem value_of_form (hf : f.generates = false)
    (hbody : f = .letExpression → ∀ n ∈ children, n.Value source) :
    Value source ⟨.form f, region, none, false, children⟩ := by
  refine readAs_form.2 (Shape.value_asExpr rfl hf fun hlet => ?_)
  exact List.forall_mem_map.2 fun n hn _ => hbody hlet n hn

end Node
end Scad
