import Scad.Proofs.Program.Element

/-!
# The parts of a program in preorder

A visit enters every item, statement and expression of a program once, each before what is in it and
all from left to right. `Element.parts` lists them by what an element is made of, and without the
functions that visit; `Program.visit_eq` says that a visit goes through this list.
-/

namespace Scad

namespace Element

/-- The part that an element is. Names, arguments, bindings, parameters and clauses are no parts of
their own. -/
def part? : Element → Option Part
  | item i => some (.item i)
  | stmt s => some (.stmt s)
  | expr e => some (.expr e)
  | arg _ | assignment _ | param _ | name _ | clause _ => none

/-- All parts in an element, each before what is in it. -/
def parts (x : Element) : List Part := x.all.filterMap part?

theorem parts_eq (x : Element) : x.parts = x.part?.toList ++ x.children.flatMap parts := by
  rw [parts, all_eq, List.filterMap_cons, List.filterMap_flatMap]
  cases x.part? <;> rfl

/-! ## One step of a visit -/

section

variable {m : Type → Type} [Monad m] (v : Visitor m)

/-- A visit of all parts in an element. -/
def visit : Element → m Unit
  | item i => i.visit v
  | stmt s => s.visit v
  | expr e => e.visit v
  | arg a => a.visit v
  | assignment b => b.visit v
  | param p => p.visit v
  | name _ => pure ()
  | clause c => c.visit v

/-- A function that visits the members of a list one after the other. -/
theorem visitAll_eq {α : Type} {mk : α → Element} {visitAll : List α → m Unit}
    (hnil : visitAll [] = pure ())
    (hcons : ∀ a as, visitAll (a :: as) = (do (mk a).visit v; visitAll as)) (as : List α) :
    visitAll as = forM (as.map mk) (visit v) := by
  induction as with
  | nil => exact hnil
  | cons a as ih => rw [hcons, ih, List.map_cons, List.forM_cons]

theorem visit_items (is : List Item) : Item.visitAll v is = forM (is.map .item) (visit v) :=
  visitAll_eq v rfl (fun _ _ => rfl) is

theorem visit_exprs (es : List Expr) : Expr.visitAll v es = forM (es.map .expr) (visit v) :=
  visitAll_eq v rfl (fun _ _ => rfl) es

theorem visit_args (as : List Arg) : Arg.visitAll v as = forM (as.map .arg) (visit v) :=
  visitAll_eq v rfl (fun _ _ => rfl) as

theorem visit_assignments (bs : List Assignment) :
    Assignment.visitAll v bs = forM (bs.map .assignment) (visit v) :=
  visitAll_eq v rfl (fun _ _ => rfl) bs

theorem visit_params (ps : List Param) : Param.visitAll v ps = forM (ps.map .param) (visit v) :=
  visitAll_eq v rfl (fun _ _ => rfl) ps

theorem visit_clauses (cs : List Clause) :
    Clause.visitAll v cs = forM (cs.map .clause) (visit v) :=
  visitAll_eq v rfl (fun _ _ => rfl) cs

variable [LawfulMonad m]

theorem visit_expr? (e : Option Expr) :
    Expr.visitOption v e = forM (e.toList.map .expr) (visit v) := by
  cases e <;> simp [Expr.visitOption, visit]

theorem visit_stmt? (s : Option Stmt) :
    Stmt.visitOption v s = forM (s.toList.map .stmt) (visit v) := by
  cases s <;> simp [Stmt.visitOption, visit]

theorem visit_loopHead (h : LoopHead) : h.visit v = forM h.elements (visit v) := by
  cases h with
  | iterating bindings => exact visit_assignments v bindings
  | counting init cond update =>
    simp [LoopHead.visit, LoopHead.elements, visit_assignments, visit]

theorem visit_clause (c : Clause) : c.visit v = forM c.elements (visit v) := by
  cases c with
  | loop head => exact visit_loopHead v head
  | filter cond => simp [Clause.visit, Clause.elements, visit]
  | letIn bindings => exact visit_assignments v bindings

/-- The hook of an element that is a part is given the walk through what the element is made of. Of
any other element there is only the walk. -/
theorem visit_step (x : Element) :
    x.visit v = x.part?.elim id v.hook (forM x.children (visit v)) := by
  cases x with
  | item i =>
    cases i <;> simp [visit, Item.visit, Visitor.hook, part?, children, visit_items, visit_params]
  | stmt s =>
    cases s <;> simp [visit, Stmt.visit, Visitor.hook, part?, children, visit_items, visit_args,
      visit_assignments, visit_stmt?]
  | expr e =>
    cases e <;> simp [visit, Expr.visit, Visitor.hook, part?, children, visit_exprs, visit_args,
      visit_assignments, visit_params, visit_clauses, visit_expr?, visit_loopHead]
  | arg a => cases a <;> simp [visit, Arg.visit, part?, children]
  | assignment b => cases b; simp [visit, Assignment.visit, part?, children]
  | param p => cases p; simp [visit, Param.visit, part?, children, visit_expr?]
  | name n => simp [visit, part?, children]
  | clause c => simp [visit, part?, children, visit_clause]

/-! ## Whole visits -/

variable (enter : Part → m Unit)

/-- Elements that are visited part by part one after the other. -/
theorem forM_flatMap {xs : List Element}
    (h : ∀ x ∈ xs, x.visit (.entering enter) = forM x.parts enter) :
    forM xs (visit (.entering enter)) = forM (xs.flatMap parts) enter := by
  induction xs with
  | nil => rfl
  | cons x xs ih =>
    rw [List.forM_cons, List.flatMap_cons, List.forM_append, h x List.mem_cons_self,
      ih fun y hy => h y (List.mem_cons_of_mem _ hy)]

/-- A visit that walks on at each part goes through the parts in preorder. -/
theorem visit_eq (x : Element) : x.visit (.entering enter) = forM x.parts enter := by
  induction x using Element.induct with
  | step x ih =>
    rw [visit_step, parts_eq, List.forM_append, forM_flatMap enter ih]
    cases x.part? <;> simp

end
end Element

namespace Program

/-- All items, statements and expressions of a program in preorder. -/
def parts (p : Program) : List Part := p.elements.filterMap Element.part?

theorem parts_eq (p : Program) : p.parts = (p.items.map Element.item).flatMap Element.parts := by
  rw [parts, elements, List.filterMap_flatMap, List.flatMap_map]
  rfl

/-- A visit enters all items, statements and expressions of a program in preorder. -/
theorem visit_eq {m : Type → Type} [Monad m] [LawfulMonad m] (enter : Part → m Unit) (p : Program) :
    p.visit enter = forM p.parts enter := by
  rw [parts_eq, ← Element.forM_flatMap enter fun x _ => x.visit_eq enter]
  exact Element.visit_items (.entering enter) p.items

end Program
end Scad
