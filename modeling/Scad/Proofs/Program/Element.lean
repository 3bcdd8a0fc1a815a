import Scad.Program

/-!
# The elements of a program

A program is made of items, statements, expressions, arguments, bindings, parameters, names and the
clauses of comprehensions. All of them have a span, and each has parts that are elements again. What
holds of an element as soon as it holds of its parts holds of all elements (`Element.induct`).
-/

namespace Scad

inductive Element where
  | item (i : Item)
  | stmt (s : Stmt)
  | expr (e : Expr)
  | arg (a : Arg)
  | assignment (b : Assignment)
  | param (p : Param)
  | name (n : Name)
  | clause (c : Clause)

/-- What the head of a loop is made of, in source order. -/
def LoopHead.elements : LoopHead → List Element
  | iterating bindings => bindings.map .assignment
  | counting init cond update => init.map .assignment ++ .expr cond :: update.map .assignment

/-- What a clause is made of, in source order. -/
def Clause.elements : Clause → List Element
  | loop head _ => head.elements
  | filter cond _ => [.expr cond]
  | letIn bindings _ => bindings.map .assignment

namespace Element

def span : Element → Span
  | item i => i.span
  | stmt s => s.span
  | expr e => e.span
  | arg a => a.span
  | assignment b => b.span
  | param p => p.span
  | name n => n.span
  | clause c => c.span

/-- The parts that stand before the scope of an element is opened: the name and the parameters of a
definition. -/
@[simp]
def before : Element → List Element
  | item (.moduleDef n params _ _) | item (.functionDef n params _ _) => .name n :: params.map .param
  | expr (.function params _ _) => params.map .param
  | _ => []

/-- All other parts. -/
@[simp]
def inner : Element → List Element
  | item (.moduleDef _ _ body _) => body.map .item
  | item (.functionDef _ _ body _) => [.expr body]
  | item (.variableDef n value _) => [.name n, .expr value]
  | item (.stmt s) => [.stmt s]
  | stmt (.call n args tail _) => .name n :: (args.map .arg ++ [.stmt tail])
  | stmt (.block items _) => items.map .item
  | stmt (.bound _ bindings body _) => bindings.map .assignment ++ [.stmt body]
  | stmt (.choice cond yes no _) => .expr cond :: .stmt yes :: no.toList.map .stmt
  | stmt (.assert args body _) => args.map .arg ++ [.stmt body]
  | stmt (.modified _ s _) => [.stmt s]
  | stmt (.file _ _ _) | stmt (.empty _) => []
  | expr (.literal _ _) => []
  | expr (.ident n) | expr (.special n) => [.name n]
  | expr (.call callee args _) => .expr callee :: args.map .arg
  | expr (.index base position _) => [.expr base, .expr position]
  | expr (.member base field _) => [.expr base, .name field]
  | expr (.unary _ operand _) => [.expr operand]
  | expr (.binary _ left right _) => [.expr left, .expr right]
  | expr (.ternary cond yes no _) => [.expr cond, .expr yes, .expr no]
  | expr (.paren e _) | expr (.each e _) => [.expr e]
  | expr (.letIn bindings body _) => bindings.map .assignment ++ [.expr body]
  | expr (.guarded _ args body _) => args.map .arg ++ body.toList.map .expr
  | expr (.list elements _) => elements.map .expr
  | expr (.range start step stop _) => .expr start :: (step.toList.map .expr ++ [.expr stop])
  | expr (.function _ body _) => [.expr body]
  | expr (.comprehension head clauses body _) =>
    head.elements ++ (clauses.map .clause ++ [.expr body])
  | expr (.choice cond yes no _) => .expr cond :: .expr yes :: no.toList.map .expr
  | arg (.positional value) => [.expr value]
  | arg (.named n value _) => [.name n, .expr value]
  | assignment (.mk n value _) => [.name n, .expr value]
  | param (.mk n default _) => .name n :: default.toList.map .expr
  | name _ => []
  | clause c => c.elements

/-- The parts of an element. -/
def children (x : Element) : List Element := x.before ++ x.inner

/-- The parts of an element in the order in which they stand side by side in the source. A clause
reaches to the end of its comprehension, so its own parts stand in its place. -/
def row : Element → List Element
  | expr (.comprehension head clauses body _) =>
    head.elements ++ (clauses.flatMap Clause.elements ++ [.expr body])
  | x => x.children

/-! ## Parts are smaller -/

theorem sizeOf_map_lt {α : Type} [SizeOf α] {f : α → Element} (hf : ∀ a, sizeOf (f a) = 1 + sizeOf a)
    {as : List α} {x : Element} (hx : x ∈ as.map f) : sizeOf x ≤ sizeOf as := by
  obtain ⟨a, ha, rfl⟩ := List.mem_map.1 hx
  have := List.sizeOf_lt_of_mem ha
  have := hf a
  omega

theorem sizeOf_option_lt {α : Type} [SizeOf α] {f : α → Element}
    (hf : ∀ a, sizeOf (f a) = 1 + sizeOf a) {a : Option α} {x : Element} (hx : x ∈ a.toList.map f) :
    sizeOf x ≤ sizeOf a := by
  cases a with
  | none => simp at hx
  | some a =>
    obtain rfl := by simpa using hx
    rw [hf]
    simp

theorem sizeOf_loopHead {h : LoopHead} {x : Element} (hx : x ∈ h.elements) :
    sizeOf x ≤ sizeOf h := by
  cases h with
  | iterating bindings =>
    have := sizeOf_map_lt (f := .assignment) (fun _ => rfl) hx
    simp
    omega
  | counting init cond update =>
    simp only [LoopHead.elements, List.mem_append, List.mem_cons] at hx
    simp only [LoopHead.counting.sizeOf_spec]
    rcases hx with hx | rfl | hx
    · have := sizeOf_map_lt (f := .assignment) (fun _ => rfl) hx
      omega
    · simp only [expr.sizeOf_spec]
      omega
    · have := sizeOf_map_lt (f := .assignment) (fun _ => rfl) hx
      omega

theorem sizeOf_clause {c : Clause} {x : Element} (hx : x ∈ c.elements) : sizeOf x ≤ sizeOf c := by
  cases c with
  | loop head span =>
    have := sizeOf_loopHead hx
    simp
    omega
  | filter cond span =>
    obtain rfl := List.mem_singleton.1 hx
    simp
  | letIn bindings span =>
    have := sizeOf_map_lt (f := .assignment) (fun _ => rfl) hx
    simp
    omega

theorem sizeOf_child {x y : Element} (hy : y ∈ x.children) : sizeOf y < sizeOf x := by
  have param := fun {ps} => @sizeOf_map_lt Param _ .param (fun _ => rfl) ps y
  have item := fun {is} => @sizeOf_map_lt Item _ .item (fun _ => rfl) is y
  have arg := fun {as} => @sizeOf_map_lt Arg _ .arg (fun _ => rfl) as y
  have assignment := fun {bs} => @sizeOf_map_lt Assignment _ .assignment (fun _ => rfl) bs y
  have exprs := fun {es} => @sizeOf_map_lt Expr _ .expr (fun _ => rfl) es y
  have clause := fun {cs} => @sizeOf_map_lt Clause _ .clause (fun _ => rfl) cs y
  have expr? := fun {e} => @sizeOf_option_lt Expr _ .expr (fun _ => rfl) e y
  have stmt? := fun {s} => @sizeOf_option_lt Stmt _ .stmt (fun _ => rfl) s y
  have head := fun {h} => @sizeOf_loopHead h y
  have part := fun {c} => @sizeOf_clause c y
  cases x with
  | item i => cases i <;> simp [children] at hy ⊢ <;> grind
  | stmt s => cases s <;> simp [children] at hy ⊢ <;> grind
  | expr e => cases e <;> simp [children] at hy ⊢ <;> grind
  | arg a => cases a <;> simp [children] at hy ⊢ <;> grind
  | assignment b => cases b; simp [children] at hy ⊢; grind
  | param p => cases p; simp [children] at hy ⊢; grind
  | name n => simp [children] at hy
  | clause c => simp [children] at hy ⊢; grind

/-- What holds of an element as soon as it holds of its parts holds of all elements. -/
theorem induct {P : Element → Prop} (step : ∀ x : Element, (∀ y ∈ x.children, P y) → P x)
    (x : Element) : P x :=
  step x fun y _ => induct step y
termination_by x
decreasing_by exact sizeOf_child ‹_›

/-- A part in a row is a part, or a part of a clause. -/
theorem mem_row {x y : Element} (hy : y ∈ x.row) :
    y ∈ x.children ∨ ∃ z ∈ x.children, y ∈ z.children := by
  unfold row at hy
  split at hy
  · rename_i head clauses body s
    simp only [List.mem_append, List.mem_flatMap] at hy
    rcases hy with hy | ⟨c, hc, hy⟩ | hy
    · exact .inl (by simp [children, hy])
    · exact .inr ⟨.clause c, by simp [children, hc], by simpa [children] using hy⟩
    · exact .inl (by simp_all [children])
  · exact .inl hy

theorem sizeOf_row {x y : Element} (hy : y ∈ x.row) : sizeOf y < sizeOf x := by
  rcases mem_row hy with hy | ⟨z, hz, hy⟩
  · exact sizeOf_child hy
  · exact Nat.lt_trans (sizeOf_child hy) (sizeOf_child hz)

/-- What holds of an element as soon as it holds of the parts in its row holds of all elements. -/
theorem induct_row {P : Element → Prop} (step : ∀ x : Element, (∀ y ∈ x.row, P y) → P x)
    (x : Element) : P x :=
  step x fun y _ => induct_row step y
termination_by x
decreasing_by exact sizeOf_row ‹_›

/-! ## All elements -/

/-- An element and all that it is made of, each before its parts. -/
def all (x : Element) : List Element := x :: x.children.attach.flatMap fun ⟨y, _⟩ => y.all
termination_by x
decreasing_by exact sizeOf_child ‹_›

theorem all_eq (x : Element) : x.all = x :: x.children.flatMap all := by
  rw [all]
  simp

theorem mem_all {x y : Element} : y ∈ x.all ↔ y = x ∨ ∃ z ∈ x.children, y ∈ z.all := by
  rw [all_eq]
  simp

end Element

/-- All elements of a program, each before its parts. -/
def Program.elements (p : Program) : List Element := p.items.flatMap fun i => (Element.item i).all

end Scad
