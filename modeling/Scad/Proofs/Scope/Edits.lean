import Scad.Proofs.Program.Element
import Scad.Proofs.Scope.Outline

/-!
# The edits of a program

A context is made by small steps: a scope is opened or closed, a name is declared, a definition is
registered. Each element of a program stands for a list of such steps, which depends on nothing but
the element.
-/

namespace Scad

/-- One step in which a context is made. -/
inductive Edit where
  | push (kind : ScopeKind) (span : Span)
  | pop
  | declare (name : Name) (value : Option Expr)
  | assign (name : Name) (value : Expr) (span : Span)
  | defineModule (name : Name) (params : List Param) (span : Span)
  | defineFunction (name : Name) (params : List Param) (span : Span)

/-- What a step makes of a context. -/
@[simp]
def Context.edit (c : Context) : Edit → Context
  | .push kind span => c.push kind span
  | .pop => c.pop
  | .declare name value => c.declare name value
  | .assign name value span => c.assign name value span
  | .defineModule name params span => c.defineModule name params span
  | .defineFunction name params span => c.defineFunction name params span

/-- What a list of steps makes of a context. -/
def Context.replay (c : Context) (es : List Edit) : Context := es.foldl Context.edit c

namespace Context

variable (c : Context)

@[simp]
theorem replay_nil : c.replay [] = c := rfl

@[simp]
theorem replay_cons (e : Edit) (es : List Edit) : c.replay (e :: es) = (c.edit e).replay es := rfl

@[simp]
theorem replay_append (as bs : List Edit) : c.replay (as ++ bs) = (c.replay as).replay bs :=
  List.foldl_append

end Context

/-- The parameters of a definition are declared in its scope. -/
def Param.edits (ps : List Param) : List Edit := ps.map fun p => .declare p.name p.default

@[simp]
theorem Context.replay_params (c : Context) (ps : List Param) :
    c.replay (Param.edits ps) = c.declareParams ps :=
  List.foldl_map

theorem Param.filterMap_edits {α : Type} {f : Edit → Option α}
    (hf : ∀ n e, f (.declare n e) = none) (ps : List Param) : (Param.edits ps).filterMap f = [] := by
  rw [Param.edits, List.filterMap_map, List.filterMap_eq_nil_iff]
  exact fun p _ => hf p.name p.default

/-- The scope of a clause is closed where its comprehension ends. -/
def Clause.closing : Clause → List Edit
  | .loop _ _ | .letIn _ _ => [.pop]
  | .filter _ _ => []

theorem Clause.filterMap_closing {α : Type} {f : Edit → Option α} (hf : f .pop = none)
    (cs : List Clause) : (cs.flatMap Clause.closing).filterMap f = [] := by
  rw [List.filterMap_flatMap, List.flatMap_eq_nil_iff]
  intro c _
  cases c <;> simp [Clause.closing, hf]

namespace Element

/-- The steps between the parts that stand before the scope of an element and the other ones. -/
@[simp]
def opening : Element → List Edit
  | item (.moduleDef n ps _ s) => .defineModule n ps s :: .push .module s :: Param.edits ps
  | item (.functionDef n ps _ s) => .defineFunction n ps s :: .push .function s :: Param.edits ps
  | stmt (.block _ s) => [.push .block s]
  | stmt (.bound k _ _ s) => [.push k.scopeKind s]
  | expr (.letIn _ _ s) => [.push .letIn s]
  | expr (.function ps _ s) => .push .lambda s :: Param.edits ps
  | expr (.comprehension _ _ _ s) => [.push .comprehension s]
  | clause (.loop _ s) => [.push .comprehension s]
  | clause (.letIn _ s) => [.push .letIn s]
  | _ => []

/-- The steps behind all parts of an element. A binding is entered when its value has been read. -/
@[simp]
def closing : Element → List Edit
  | item (.moduleDef _ _ _ _) | item (.functionDef _ _ _ _) | stmt (.block _ _)
  | stmt (.bound _ _ _ _) | expr (.letIn _ _ _) | expr (.function _ _ _) => [.pop]
  | expr (.comprehension _ cs _ _) => cs.reverse.flatMap Clause.closing ++ [.pop]
  | item (.variableDef n e s) | assignment (.mk n e s) => [.assign n e s]
  | _ => []

/-- All steps that an element stands for. -/
def edits (x : Element) : List Edit :=
  (x.before.attach.flatMap fun ⟨y, _⟩ => y.edits) ++ x.opening ++
    (x.inner.attach.flatMap fun ⟨y, _⟩ => y.edits) ++ x.closing
termination_by x
decreasing_by
  · exact sizeOf_child (List.mem_append_left _ ‹_›)
  · exact sizeOf_child (List.mem_append_right _ ‹_›)

theorem edits_eq (x : Element) :
    x.edits = x.before.flatMap edits ++ x.opening ++ x.inner.flatMap edits ++ x.closing := by
  rw [edits]
  simp

/-- An element is replayed part by part. -/
theorem replay_edits (c : Context) (x : Element) :
    c.replay x.edits =
      (((c.replay (x.before.flatMap edits)).replay x.opening).replay (x.inner.flatMap edits)).replay
        x.closing := by
  rw [edits_eq]
  simp

end Element
end Scad
