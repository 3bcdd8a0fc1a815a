import Scad.Proofs.Program.Spans

/-!
# What holds of all elements of a program

Every element of a program, names and empty statements apart, is what some node of the tree is read
as. So a property that all nodes have of what they are read as, each taken alone, holds of all
elements of the program, wherever they stand. Main statements: `Program.elements_of_nodes`, and
`Program.every_of_nodes` for properties of expressions.
-/

namespace Scad

/-! ## Steps -/

namespace Read

variable {α β : Type} {Q R : α → Prop} {S : β → Prop}

/-- Whatever the step gives has the property. -/
def All (Q : α → Prop) (m : Read α) : Prop := ∀ c a d, Gets m c a d → Q a

theorem all_pure {a : α} (h : Q a) : All Q (pure a) := by
  intro c b d hg
  obtain ⟨rfl, -⟩ := gets_pure.1 hg
  exact h

theorem all_throw {e : Failure} : All Q (throw e) := fun _ _ _ hg => absurd hg gets_throw

theorem all_true (m : Read α) : All (fun _ => True) m := fun _ _ _ _ => trivial

theorem All.bind {m : Read α} {k : α → Read β} (hm : All Q m) (hk : ∀ a, Q a → All S (k a)) :
    All S (m >>= k) := by
  intro c b d hg
  obtain ⟨a, e, ha, hb⟩ := gets_bind.1 hg
  exact hk a (hm c a e ha) e b d hb

theorem All.and {m : Read α} (h : All Q m) (h' : All R m) : All (fun a => Q a ∧ R a) m :=
  fun c a d hg => ⟨h c a d hg, h' c a d hg⟩

theorem All.imp {m : Read α} (h : All Q m) (hQ : ∀ a, Q a → R a) : All R m :=
  fun c a d hg => hQ a (h c a d hg)

theorem All.inScope {m : Read α} (h : All Q m) (kind : ScopeKind) (span : Span) :
    All Q (inScope kind span m) := by
  intro c a d hg
  obtain ⟨e, ha, -⟩ := gets_inScope.1 hg
  exact h _ a e ha

theorem All.each {g : α → Read β} {as : List α} (h : ∀ a ∈ as, All S (g a)) :
    All (fun bs => ∀ b ∈ bs, S b) (Read.each g as) := by
  induction as with
  | nil => exact all_pure (by simp)
  | cons a as ih =>
    refine (h a List.mem_cons_self).bind fun b hb => ?_
    refine (ih fun a' ha => h a' (List.mem_cons_of_mem _ ha)).bind fun bs hbs => ?_
    exact all_pure (List.forall_mem_cons.2 ⟨hb, hbs⟩)

end Read

open Read

/-! ## Elements -/

namespace Element

variable {P : Element → Prop} {x : Element}

/-- All elements in an element have the property, the element itself included. -/
def Every (P : Element → Prop) (x : Element) : Prop := ∀ y ∈ x.all, P y

theorem every_iff : x.Every P ↔ P x ∧ ∀ y ∈ x.children, y.Every P := by
  constructor
  · intro h
    refine ⟨h x (mem_all.2 (.inl rfl)), fun y hy z hz => ?_⟩
    exact h z (mem_all.2 (.inr ⟨y, hy, hz⟩))
  · rintro ⟨hself, hinner⟩ z hz
    rcases mem_all.1 hz with rfl | ⟨y, hy, hz⟩
    · exact hself
    · exact hinner y hy z hz

end Element

open Element

/-! ## Readings -/

/-- Whatever a node is read as, all elements in it have the property. Of an argument this is said
without the argument itself: any node can be read as an argument, but only the children of an
argument list are. -/
structure Reading.Every (P : Element → Prop) (r : Reading) : Prop where
  item : All (fun i => (Element.item i).Every P) r.item
  items : All (fun is => ∀ i ∈ is, (Element.item i).Every P) r.items
  stmt : All (fun s => (Element.stmt s).Every P) r.stmt
  expr : All (fun e => (Element.expr e).Every P) r.expr
  tail : All (fun t => (∀ c ∈ t.1, (clause c).Every P) ∧ (Element.expr t.2).Every P) r.tail
  argument : All (fun a => ∀ y ∈ (arg a).children, y.Every P) r.argument
  arguments : All (fun as => ∀ a ∈ as, (arg a).Every P) r.arguments
  assignment : All (fun b => (Element.assignment b).Every P) r.assignment
  assignments : All (fun bs => ∀ b ∈ bs, (Element.assignment b).Every P) r.assignments
  parameter : All (fun p => (param p).Every P) r.parameter
  parameters : All (fun ps => ∀ p ∈ ps, (param p).Every P) r.parameters

namespace Shape

variable {P : Element → Prop} {n : Shape} {α : Type} {Q : α → Prop} {g : Reading → Read α} {r : Role}

/-- What is read from the child in a role has the property, if it has it for all children there. -/
theorem all_need (h : ∀ c ∈ n.children, c.role = some r → All Q (g c)) : All Q (n.need r >>= g) := by
  intro c a d hget
  obtain ⟨x, e, hx, ha⟩ := gets_bind.1 hget
  obtain ⟨hmem, hrole⟩ := mem_of_child? (gets_need.1 hx).1
  exact h x hmem hrole e a d ha

theorem all_optional (h : ∀ c ∈ n.children, c.role = some r → All Q (g c)) :
    All (fun o => ∀ a ∈ o, Q a) (n.optional r g) := by
  unfold Shape.optional
  split
  · rename_i c hc
    obtain ⟨hmem, hrole⟩ := mem_of_child? hc
    exact (h c hmem hrole).bind fun a ha => all_pure (by simpa using ha)
  · exact all_pure (by simp)

/-- What the node itself is read as has the property, each reading taken alone. Names and the empty
statement behind a call have no node of their own. -/
structure Own (P : Element → Prop) (n : Shape) : Prop where
  name : ∀ a, P (.name a)
  empty : ∀ s, P (.stmt (.empty s))
  item : All (fun i => P (.item i)) (n.asItem n.asStmt)
  stmt : All (fun s => P (.stmt s)) n.asStmt
  expr : All (fun e => P (.expr e)) n.asExpr
  clause : All (fun t => ∀ k ∈ t.1.head?, P (.clause k)) (n.asTail n.asExpr)
  arguments : All (fun as => ∀ a ∈ as, P (.arg a)) n.asArguments
  assignment : All (fun b => P (.assignment b)) n.asAssignment
  parameter : All (fun p => P (.param p)) n.asParameter

/-- What the node itself is read as has the property, and so has all that its children are read
as. -/
structure Every (P : Element → Prop) (n : Shape) : Prop where
  own : n.Own P
  children : ∀ c ∈ n.children, c.Every P

section

variable (h : n.Every P)

include h

theorem Every.name (a : Name) : (Element.name a).Every P :=
  every_iff.2 ⟨h.own.name a, by simp [Element.children]⟩

theorem Every.child (r : Role) (hg : ∀ c : Reading, c.Every P → All Q (g c)) :
    All Q (n.need r >>= g) :=
  all_need fun c hc _ => hg c (h.children c hc)

theorem Every.exprIn (r : Role) : All (fun e => (Element.expr e).Every P) (n.exprIn r) :=
  h.child r fun _ hc => hc.expr

theorem Every.stmtIn (r : Role) : All (fun s => (Element.stmt s).Every P) (n.stmtIn r) :=
  h.child r fun _ hc => hc.stmt

theorem Every.assignmentsIn (r : Role) :
    All (fun bs => ∀ b ∈ bs, (Element.assignment b).Every P) (n.assignmentsIn r) :=
  h.child r fun _ hc => hc.assignments

theorem Every.tailIn (r : Role) :
    All (fun t => (∀ c ∈ t.1, (clause c).Every P) ∧ (Element.expr t.2).Every P) (n.tailIn r) :=
  h.child r fun _ hc => hc.tail

theorem Every.optional (r : Role) (hg : ∀ c : Reading, c.Every P → All Q (g c)) :
    All (fun o => ∀ a ∈ o, Q a) (n.optional r g) :=
  all_optional fun c hc _ => hg c (h.children c hc)

theorem Every.args : All (fun as => ∀ a ∈ as, (arg a).Every P) n.args := by
  unfold Shape.args
  split
  · rename_i c hc
    exact (h.children c (mem_of_child? hc).1).arguments
  · exact all_pure (by simp)

theorem Every.params : All (fun ps => ∀ p ∈ ps, (param p).Every P) n.params := by
  unfold Shape.params
  split
  · rename_i c hc
    exact (h.children c (mem_of_child? hc).1).parameters
  · exact all_pure (by simp)

/-! ### Arguments, bindings and parameters -/

theorem Every.asArgument {self : Read Expr} (hself : All (fun e => (Element.expr e).Every P) self) :
    All (fun a => ∀ y ∈ (arg a).children, y.Every P) (n.asArgument self) := by
  unfold Shape.asArgument
  split
  · refine (all_true _).bind fun _ _ => (h.exprIn .value).bind fun v hv => all_pure ?_
    simpa [Element.children, h.name] using hv
  · exact hself.bind fun v hv => all_pure (by simpa [Element.children] using hv)

theorem Every.asArguments : All (fun as => ∀ a ∈ as, (arg a).Every P) n.asArguments := by
  have inner : All (fun as => ∀ a ∈ as, ∀ y ∈ (arg a).children, y.Every P) n.asArguments := by
    unfold Shape.asArguments
    split
    · exact .each fun c hc => (h.children c hc).argument
    · exact all_throw
  exact (h.own.arguments.and inner).imp fun _ ⟨hown, hinner⟩ a ha =>
    every_iff.2 ⟨hown a ha, hinner a ha⟩

theorem Every.asAssignment : All (fun b => (Element.assignment b).Every P) n.asAssignment := by
  refine (h.own.assignment.and ?_).imp fun _ hb => every_iff.2 hb
  unfold Shape.asAssignment
  split
  · refine (all_true _).bind fun _ _ => (h.exprIn .value).bind fun v hv => ?_
    refine (all_true _).bind fun _ _ => all_pure ?_
    simpa [Element.children, h.name] using hv
  · exact all_throw

theorem Every.asAssignments :
    All (fun bs => ∀ b ∈ bs, (Element.assignment b).Every P) n.asAssignments := by
  unfold Shape.asAssignments
  split
  · exact .each fun c hc => (h.children c hc).assignment
  · exact all_throw

theorem Every.asParameter : All (fun p => (param p).Every P) n.asParameter := by
  refine (h.own.parameter.and ?_).imp fun _ hp => every_iff.2 hp
  unfold Shape.asParameter
  split
  · refine (all_true _).bind fun _ _ => ?_
    refine (h.optional .default fun _ hc => hc.expr).bind fun v hv => all_pure ?_
    simpa [Element.children, h.name] using hv
  · exact all_throw

theorem Every.asParameters : All (fun ps => ∀ p ∈ ps, (param p).Every P) n.asParameters := by
  unfold Shape.asParameters
  split
  · exact .each fun c hc => (h.children c hc).parameter
  · exact all_throw

/-! ### Expressions -/

theorem Every.loopHead : All (fun l => ∀ y ∈ l.elements, y.Every P) n.loopHead := by
  unfold Shape.loopHead
  split
  · rename_i c hc
    refine (h.children c (mem_of_child? hc).1).assignments.bind fun bs hbs => all_pure ?_
    simpa [LoopHead.elements] using hbs
  · refine (h.assignmentsIn .init).bind fun is his => (h.exprIn .condition).bind fun c hc => ?_
    refine (h.assignmentsIn .update).bind fun us hus => all_pure ?_
    simpa [LoopHead.elements, or_imp, forall_and] using ⟨his, hc, hus⟩

/-- All that an expression is made of, apart from itself. -/
theorem Every.inner : All (fun e => ∀ y ∈ (Element.expr e).children, y.Every P) n.asExpr := by
  unfold Shape.asExpr
  split
  · exact (all_true _).bind fun _ _ => all_pure (by simp [Element.children, h.name])
  · exact (all_true _).bind fun _ _ => all_pure (by simp [Element.children, h.name])
  · unfold asNumber
    split
    · exact all_pure (by simp [Element.children])
    · exact all_throw
  · exact all_pure (by simp [Element.children])
  · unfold asBoolean
    split
    · exact all_pure (by simp [Element.children])
    · exact all_pure (by simp [Element.children])
    · exact all_throw
  · exact all_pure (by simp [Element.children])
  · unfold asBinary
    refine (all_true _).bind fun symbol _ => ?_
    dsimp only
    split
    · exact all_throw
    · refine (h.exprIn .left).bind fun a ha => (h.exprIn .right).bind fun b hb => all_pure ?_
      simpa [Element.children] using ⟨ha, hb⟩
  · unfold asUnary
    refine (all_true _).bind fun symbol _ => ?_
    dsimp only
    split
    · exact all_throw
    · exact (h.exprIn .operand).bind fun a ha => all_pure (by simpa [Element.children] using ha)
  · refine (h.exprIn .condition).bind fun c hc => (h.exprIn .consequence).bind fun a ha => ?_
    refine (h.exprIn .alternative).bind fun b hb => all_pure ?_
    simpa [Element.children] using ⟨hc, ha, hb⟩
  · exact (h.exprIn .expression).bind fun a ha => all_pure (by simpa [Element.children] using ha)
  · refine (h.exprIn .function).bind fun f hf => h.args.bind fun as has => all_pure ?_
    simpa [Element.children] using ⟨hf, has⟩
  · refine (h.exprIn .value).bind fun a ha => (h.exprIn .index).bind fun b hb => all_pure ?_
    simpa [Element.children] using ⟨ha, hb⟩
  · refine (h.exprIn .value).bind fun a ha => (all_true _).bind fun _ _ => all_pure ?_
    simpa [Element.children, h.name] using ha
  · refine All.inScope ?_ _ _
    refine (h.assignmentsIn .bindings).bind fun bs hbs => (h.exprIn .body).bind fun a ha => ?_
    exact all_pure (by simpa [Element.children, or_imp, forall_and] using ⟨hbs, ha⟩)
  · refine h.args.bind fun as has => ?_
    refine (h.optional .body fun _ hc => hc.expr).bind fun o ho => all_pure ?_
    simpa [Element.children, or_imp, forall_and] using ⟨has, ho⟩
  · refine h.args.bind fun as has => ?_
    refine (h.optional .body fun _ hc => hc.expr).bind fun o ho => all_pure ?_
    simpa [Element.children, or_imp, forall_and] using ⟨has, ho⟩
  · refine h.params.bind fun ps hps => All.inScope ?_ _ _
    refine (all_true _).bind fun _ _ => (h.exprIn .body).bind fun a ha => all_pure ?_
    simpa [Element.children, or_imp, forall_and] using ⟨hps, ha⟩
  · refine (All.each fun c hc => (h.children c hc).expr).bind fun es hes => all_pure ?_
    simpa [Element.children] using hes
  · refine (h.exprIn .start).bind fun a ha => ?_
    refine (h.optional .step fun _ hc => hc.expr).bind fun o ho => ?_
    refine (h.exprIn .stop).bind fun b hb => all_pure ?_
    simpa [Element.children, or_imp, forall_and] using ⟨ha, ho, hb⟩
  · refine All.inScope ?_ _ _
    refine h.loopHead.bind fun l hl => (h.tailIn .body).bind fun t ht => all_pure ?_
    simpa [Element.children, or_imp, forall_and] using ⟨hl, ht.1, ht.2⟩
  · refine (h.exprIn .condition).bind fun c hc => (h.exprIn .consequence).bind fun a ha => ?_
    refine (h.optional .alternative fun _ hc => hc.expr).bind fun o ho => all_pure ?_
    simpa [Element.children] using ⟨hc, ha, ho⟩
  · exact (h.exprIn .value).bind fun a ha => all_pure (by simpa [Element.children] using ha)
  · exact all_throw

theorem Every.asExpr : All (fun e => (Element.expr e).Every P) n.asExpr :=
  (h.own.expr.and h.inner).imp fun _ he => every_iff.2 he

theorem Every.asTail :
    All (fun t => (∀ c ∈ t.1, (clause c).Every P) ∧ (Element.expr t.2).Every P)
      (n.asTail n.asExpr) := by
  -- the clauses behind the first one are those of a child, as is the body behind a clause
  have inner : All (fun t => (∀ c ∈ t.1.head?, ∀ y ∈ c.elements, y.Every P) ∧
      (∀ c ∈ t.1.tail, (clause c).Every P) ∧ (Element.expr t.2).Every P) (n.asTail n.asExpr) := by
    have hbody : All (fun t : List Clause × Expr =>
        (∀ c ∈ t.1.head?, ∀ y ∈ c.elements, y.Every P) ∧
          (∀ c ∈ t.1.tail, (clause c).Every P) ∧ (Element.expr t.2).Every P)
        (do let e ← n.asExpr; pure ([], e)) :=
      h.asExpr.bind fun e he => all_pure ⟨by simp, by simp, he⟩
    unfold Shape.asTail
    dsimp only
    split
    · refine All.inScope ?_ _ _
      refine h.loopHead.bind fun l hl => (h.tailIn .body).bind fun t ht => all_pure ?_
      exact ⟨by simpa [Clause.elements] using hl, ht.1, ht.2⟩
    · split
      · exact hbody
      · refine (h.exprIn .condition).bind fun e he => (h.tailIn .consequence).bind fun t ht => ?_
        exact all_pure ⟨by simpa [Clause.elements] using he, ht.1, ht.2⟩
    · refine All.inScope ?_ _ _
      refine (h.assignmentsIn .bindings).bind fun bs hbs => (h.tailIn .body).bind fun t ht => ?_
      exact all_pure ⟨by simpa [Clause.elements] using hbs, ht.1, ht.2⟩
    · exact hbody
  refine (h.own.clause.and inner).imp ?_
  rintro ⟨_ | ⟨k, cs⟩, e⟩ ⟨hown, hfirst, hrest, he⟩
  · exact ⟨by simp, he⟩
  · have hk : (clause k).Every P := by
      refine every_iff.2 ⟨hown k rfl, ?_⟩
      simpa [Element.children] using hfirst k rfl
    exact ⟨List.forall_mem_cons.2 ⟨hk, hrest⟩, he⟩

/-! ### Statements -/

theorem Every.callTail : All (fun s => (Element.stmt s).Every P) n.callTail := by
  unfold Shape.callTail
  split
  · rename_i c hc
    exact (h.children c (mem_of_child? hc).1).stmt
  · exact all_pure (every_iff.2 ⟨h.own.empty _, by simp [Element.children]⟩)

theorem Every.bound (binder : Binder) (kind : ScopeKind) :
    All (fun s => ∀ y ∈ (Element.stmt s).children, y.Every P) (n.bound binder kind) := by
  refine All.inScope ?_ _ _
  refine (h.assignmentsIn .bindings).bind fun bs hbs => (h.stmtIn .body).bind fun s hs => ?_
  exact all_pure (by simpa [Element.children, or_imp, forall_and] using ⟨hbs, hs⟩)

omit h in
theorem every_file (link : Link) :
    All (fun s => ∀ y ∈ (Element.stmt s).children, y.Every P) (n.file link) := by
  refine (all_true _).bind fun text _ => ?_
  dsimp only
  split
  · exact all_pure (by simp [Element.children])
  · exact all_throw

theorem Every.asModified :
    All (fun s => ∀ y ∈ (Element.stmt s).children, y.Every P) n.asModified := by
  refine (all_true _).bind fun symbol _ => ?_
  dsimp only
  split
  · exact all_throw
  · exact (h.stmtIn .statement).bind fun s hs => all_pure (by simpa [Element.children] using hs)

theorem Every.items : All (fun is => ∀ i ∈ is, (Element.item i).Every P)
    (Read.each Reading.item n.children) :=
  .each fun c hc => (h.children c hc).item

theorem Every.asStmt : All (fun s => (Element.stmt s).Every P) n.asStmt := by
  refine (h.own.stmt.and ?_).imp fun _ hs => every_iff.2 hs
  unfold Shape.asStmt
  split
  · refine (all_true _).bind fun _ _ => h.args.bind fun as has => h.callTail.bind fun s hs => ?_
    exact all_pure (by simpa [Element.children, or_imp, forall_and, h.name] using ⟨has, hs⟩)
  · refine All.inScope (h.items.bind fun is his => all_pure ?_) _ _
    simpa [Element.children] using his
  · exact all_pure (by simp [Element.children])
  · exact h.asModified
  · exact h.bound _ _
  · exact h.bound _ _
  · exact h.bound _ _
  · exact h.bound _ _
  · refine (h.exprIn .condition).bind fun c hc => (h.stmtIn .consequence).bind fun a ha => ?_
    refine (h.optional .alternative fun _ hc => hc.stmt).bind fun o ho => all_pure ?_
    simpa [Element.children] using ⟨hc, ha, ho⟩
  · refine h.args.bind fun as has => h.callTail.bind fun s hs => all_pure ?_
    simpa [Element.children, or_imp, forall_and] using ⟨has, hs⟩
  · exact every_file _
  · exact every_file _
  · exact all_throw

/-! ### Items -/

omit h in
theorem every_moduleBody {c : Reading} (hc : c.Every P) :
    All (fun is => ∀ i ∈ is, (Element.item i).Every P) (moduleBody c) := by
  unfold moduleBody
  split
  · exact hc.items
  · exact hc.item.bind fun i hi => all_pure (by simpa using hi)

theorem Every.asModule : All (fun i => ∀ y ∈ (Element.item i).children, y.Every P) n.asModule := by
  refine (all_true _).bind fun _ _ => h.params.bind fun ps hps => (all_true _).bind fun _ _ => ?_
  refine h.child .body fun c hc => ?_
  refine (All.inScope ((all_true _).bind fun _ _ => every_moduleBody hc) _ _).bind fun is his => ?_
  exact all_pure (by simpa [Element.children, or_imp, forall_and, h.name] using ⟨hps, his⟩)

theorem Every.asFunction :
    All (fun i => ∀ y ∈ (Element.item i).children, y.Every P) n.asFunction := by
  refine (all_true _).bind fun _ _ => h.params.bind fun ps hps => (all_true _).bind fun _ _ => ?_
  refine (All.inScope ((all_true _).bind fun _ _ => h.exprIn .body) _ _).bind fun e he => ?_
  exact all_pure (by simpa [Element.children, or_imp, forall_and, h.name] using ⟨hps, he⟩)

theorem Every.asItem : All (fun i => (Element.item i).Every P) (n.asItem n.asStmt) := by
  refine (h.own.item.and ?_).imp fun _ hi => every_iff.2 hi
  unfold Shape.asItem
  split
  · exact h.asModule
  · exact h.asFunction
  · refine (all_true _).bind fun _ _ => (h.exprIn .value).bind fun v hv => ?_
    refine (all_true _).bind fun _ _ => all_pure ?_
    simpa [Element.children, h.name] using hv
  · exact h.asStmt.bind fun s hs => all_pure (by simpa [Element.children] using hs)

theorem Every.reading (role : Option Role) : (n.reading role).Every P where
  item := h.asItem
  items := h.items
  stmt := h.asStmt
  expr := h.asExpr
  tail := h.asTail
  argument := h.asArgument h.asExpr
  arguments := h.asArguments
  assignment := h.asAssignment
  assignments := h.asAssignments
  parameter := h.asParameter
  parameters := h.asParameters

end
end Shape

/-! ## Trees -/

namespace Node

variable {Q : Node → Prop} {source : List Char} {P : Element → Prop}

/-- The node has the property, and so have all nodes in it. -/
inductive Throughout (Q : Node → Prop) : Node → Prop
  | mk {n : Node} (self : Q n) (inner : ∀ c ∈ n.children, c.Throughout Q) : Throughout Q n

theorem Throughout.imp {R : Node → Prop} {n : Node} (h : n.Throughout Q) (hQ : ∀ m, Q m → R m) :
    n.Throughout R := by
  induction h with
  | mk self inner ih => exact .mk (hQ _ self) ih

/-- A node whose children have been read. -/
def shape (source : List Char) (n : Node) : Shape :=
  ⟨source, .ofKind n.kind, n.region.forward, n.children.map (Node.reading source)⟩

theorem reading_eq (n : Node) : n.reading source = (n.shape source).reading n.role := by
  obtain ⟨kind, region, role, missing, children⟩ := n
  rw [shape, ← readings_eq]
  rfl

theorem Throughout.reading {n : Node} (h : n.Throughout fun m => (m.shape source).Own P) :
    (n.reading source).Every P := by
  induction h with
  | @mk n self inner ih =>
    rw [reading_eq]
    exact Shape.Every.reading ⟨self, List.forall_mem_map.2 ih⟩ n.role

end Node

namespace Program

variable {source : List Char} {p : Program} {nodes : List Node} {t : Stream}

/-- What holds of all that the nodes of a file are read as, each taken alone, holds of all elements
of the program. -/
theorem elements_of_nodes {P : Element → Prop} (h : Program.parse source = .ok p)
    (hparse : Grammar.parsePhrase .items { start := {} } (.start (tokenize source)) =
      .ok nodes [] t)
    (hnodes : ∀ n ∈ nodes, n.Throughout fun m => (m.shape source).Own P) :
    ∀ x ∈ p.elements, P x := by
  obtain ⟨-, items, context, hrun, hp⟩ := parse_of_items hparse
  obtain rfl := Except.ok.inj (h.symm.trans hp)
  have hitems : ∀ i ∈ items, (Element.item i).Every P := by
    refine All.each (fun c hc => ?_) _ items context hrun
    obtain ⟨n, hn, rfl⟩ := List.mem_map.1 hc
    exact (hnodes n hn).reading.item
  intro x hx
  obtain ⟨i, hi, hx⟩ := List.mem_flatMap.1 hx
  exact hitems i hi x hx

/-- What holds of all expressions that the nodes of a file are read as, each taken alone, holds of
all expressions of the program. -/
theorem every_of_nodes {P : Expr → Prop} (h : Program.parse source = .ok p)
    (hparse : Grammar.parsePhrase .items { start := {} } (.start (tokenize source)) =
      .ok nodes [] t)
    (hnodes : ∀ n ∈ nodes, n.Throughout fun m => All P (m.reading source).expr) :
    ∀ e, .expr e ∈ p.elements → P e := by
  have hother : ∀ {α : Type} {m : Read α} {g : α → Element}, (∀ a e, g a ≠ .expr e) →
      All (fun a => ∀ e, g a = .expr e → P e) m :=
    fun hg _ a _ _ e he => absurd he (hg a e)
  have hall := elements_of_nodes (P := fun x => ∀ e, x = .expr e → P e) h hparse fun n hn =>
    (hnodes n hn).imp fun m hm => ?_
  · exact fun e he => hall _ he e rfl
  · rw [Node.reading_eq] at hm
    exact {
      name := by simp
      empty := by simp
      item := hother (by simp)
      stmt := hother (by simp)
      expr := hm.imp fun e he e' h => by cases h; exact he
      clause := fun _ _ _ _ k _ e he => by cases he
      arguments := fun _ _ _ _ a _ e he => by cases he
      assignment := hother (by simp)
      parameter := hother (by simp) }

end Program
end Scad
