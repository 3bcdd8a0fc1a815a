import Scad.Program.Visit
import Scad.Scope.Context

/-!
# Outlines

What counts about a program when names are looked up: its parts, the names that stand for values, the
scopes and what is declared in them, all in source order. Everything that goes through a program from
the first to the last part can go through its outline instead, and an outline has one shape where
programs have many. Main statements: a visit of a program is a visit of its outline, and `enter` says
which scopes and names an outline brings into a context.
-/

namespace Scad

/-- An outline is a list, and some of its entries hold outlines themselves. -/
inductive Outline where
  | nil
  /-- A name that stands for a value. -/
  | name (n : Name) (next : Outline)
  /-- A part of the program, with what is in it. -/
  | part (p : Part) (inner next : Outline)
  /-- A declaration in the scope around it, with what is in the value. -/
  | binding (name : Name) (value : Expr) (inner next : Outline)
  /-- A parameter, with what is in the default. It is declared by the scope that it stands before. -/
  | param (p : Param) (inner next : Outline)
  /-- A scope, with what is read before it is opened. -/
  | scope (kind : ScopeKind) (span : Span) (before inner next : Outline)

namespace Outline

/-- One outline behind the other. -/
def append : Outline → Outline → Outline
  | nil, b => b
  | name n next, b => name n (next.append b)
  | part p inner next, b => part p inner (next.append b)
  | binding n v inner next, b => binding n v inner (next.append b)
  | param p inner next, b => param p inner (next.append b)
  | scope k s before inner next, b => scope k s before inner (next.append b)

instance : Append Outline := ⟨append⟩

section

variable (a b c : Outline)

@[simp]
theorem nil_append : nil ++ a = a := rfl

@[simp]
theorem name_append (n : Name) : name n a ++ b = name n (a ++ b) := rfl

@[simp]
theorem part_append (p : Part) : part p c a ++ b = part p c (a ++ b) := rfl

@[simp]
theorem binding_append (n : Name) (v : Expr) : binding n v c a ++ b = binding n v c (a ++ b) := rfl

@[simp]
theorem param_append (p : Param) : param p c a ++ b = param p c (a ++ b) := rfl

@[simp]
theorem scope_append (k : ScopeKind) (s : Span) (d : Outline) :
    scope k s c d a ++ b = scope k s c d (a ++ b) := rfl

@[simp]
theorem append_nil : a ++ nil = a := by
  induction a <;> simp_all

theorem append_assoc : a ++ b ++ c = a ++ (b ++ c) := by
  induction a <;> simp_all

end
end Outline

/-! ## The outline of a program -/

/-- The kind of scope that a statement with bindings opens. -/
def Binder.scopeKind : Binder → ScopeKind
  | loop | intersectionLoop => .loop
  | letIn => .letIn
  | assign => .assign

mutual

def Expr.outline : Expr → Outline
  | .literal v s => .part (.expr (.literal v s)) .nil .nil
  | .ident n => .part (.expr (.ident n)) (.name n .nil) .nil
  | .special n => .part (.expr (.special n)) .nil .nil
  | .call f as s => .part (.expr (.call f as s)) (f.outline ++ Arg.outlineAll as) .nil
  | .index b i s => .part (.expr (.index b i s)) (b.outline ++ i.outline) .nil
  | .member b n s => .part (.expr (.member b n s)) b.outline .nil
  | .unary o a s => .part (.expr (.unary o a s)) a.outline .nil
  | .binary o a b s => .part (.expr (.binary o a b s)) (a.outline ++ b.outline) .nil
  | .ternary c a b s => .part (.expr (.ternary c a b s)) (c.outline ++ (a.outline ++ b.outline)) .nil
  | .paren a s => .part (.expr (.paren a s)) a.outline .nil
  | .letIn bs a s =>
    .part (.expr (.letIn bs a s))
      (.scope .letIn s .nil (Assignment.outlineAll bs ++ a.outline) .nil) .nil
  | .guarded g as a s =>
    .part (.expr (.guarded g as a s)) (Arg.outlineAll as ++ Expr.outlineOption a) .nil
  | .list es s => .part (.expr (.list es s)) (Expr.outlineAll es) .nil
  | .range a b c s =>
    .part (.expr (.range a b c s)) (a.outline ++ (Expr.outlineOption b ++ c.outline)) .nil
  | .function ps a s =>
    .part (.expr (.function ps a s)) (.scope .lambda s (Param.outlineAll ps) a.outline .nil) .nil
  | .each a s => .part (.expr (.each a s)) a.outline .nil
  | .comprehension h cs a s =>
    .part (.expr (.comprehension h cs a s))
      (.scope .comprehension s .nil (h.outline ++ Clause.outlineAll cs a.outline) .nil) .nil
  | .choice c a b s =>
    .part (.expr (.choice c a b s)) (c.outline ++ (a.outline ++ Expr.outlineOption b)) .nil

def Expr.outlineOption : Option Expr → Outline
  | none => .nil
  | some e => e.outline

def Expr.outlineAll : List Expr → Outline
  | [] => .nil
  | e :: es => e.outline ++ Expr.outlineAll es

def Arg.outline : Arg → Outline
  | .positional a => a.outline
  | .named _ a _ => a.outline

def Arg.outlineAll : List Arg → Outline
  | [] => .nil
  | a :: as => a.outline ++ Arg.outlineAll as

def Assignment.outline : Assignment → Outline
  | .mk n a _ => .binding n a a.outline .nil

def Assignment.outlineAll : List Assignment → Outline
  | [] => .nil
  | a :: as => a.outline ++ Assignment.outlineAll as

def Param.outline : Param → Outline
  | .mk n a s => .param (.mk n a s) (Expr.outlineOption a) .nil

def Param.outlineAll : List Param → Outline
  | [] => .nil
  | p :: ps => p.outline ++ Param.outlineAll ps

def LoopHead.outline : LoopHead → Outline
  | .iterating bs => Assignment.outlineAll bs
  | .counting is c us => Assignment.outlineAll is ++ (c.outline ++ Assignment.outlineAll us)

/-- A clause with what follows it: the scope of a loop or of bindings reaches to the end of the
comprehension. -/
def Clause.outline : Clause → Outline → Outline
  | .loop h s, rest => .scope .comprehension s .nil (h.outline ++ rest) .nil
  | .filter c _, rest => c.outline ++ rest
  | .letIn bs s, rest => .scope .letIn s .nil (Assignment.outlineAll bs ++ rest) .nil

/-- The clauses of a comprehension with what follows them. -/
def Clause.outlineAll : List Clause → Outline → Outline
  | [], rest => rest
  | c :: cs, rest => c.outline (Clause.outlineAll cs rest)

end

mutual

def Stmt.outline : Stmt → Outline
  | .call n as t s => .part (.stmt (.call n as t s)) (Arg.outlineAll as ++ t.outline) .nil
  | .block is s => .part (.stmt (.block is s)) (.scope .block s .nil (Item.outlineAll is) .nil) .nil
  | .bound k bs t s =>
    .part (.stmt (.bound k bs t s))
      (.scope k.scopeKind s .nil (Assignment.outlineAll bs ++ t.outline) .nil) .nil
  | .choice c a b s =>
    .part (.stmt (.choice c a b s)) (c.outline ++ (a.outline ++ Stmt.outlineOption b)) .nil
  | .file k p s => .part (.stmt (.file k p s)) .nil .nil
  | .assert as t s => .part (.stmt (.assert as t s)) (Arg.outlineAll as ++ t.outline) .nil
  | .modified m t s => .part (.stmt (.modified m t s)) t.outline .nil
  | .empty s => .part (.stmt (.empty s)) .nil .nil

def Stmt.outlineOption : Option Stmt → Outline
  | none => .nil
  | some s => s.outline

def Item.outline : Item → Outline
  | .moduleDef n ps is s =>
    .part (.item (.moduleDef n ps is s))
      (.scope .module s (Param.outlineAll ps) (Item.outlineAll is) .nil) .nil
  | .functionDef n ps a s =>
    .part (.item (.functionDef n ps a s)) (.scope .function s (Param.outlineAll ps) a.outline .nil)
      .nil
  | .variableDef n a s => .part (.item (.variableDef n a s)) (.binding n a a.outline .nil) .nil
  | .stmt t => .part (.item (.stmt t)) t.outline .nil

def Item.outlineAll : List Item → Outline
  | [] => .nil
  | i :: is => i.outline ++ Item.outlineAll is

end

def Part.outline : Part → Outline
  | .item i => i.outline
  | .stmt s => s.outline
  | .expr e => e.outline

/-! ## Visiting -/

section

variable {m : Type → Type} [Monad m] (v : Visitor m)

/-- A visit of the parts in an outline. The hook of a part is given the walk through what is in it. -/
def Outline.visit : Outline → m Unit
  | nil => pure ()
  | name _ next => next.visit
  | part p inner next => do
    v.hook p inner.visit
    next.visit
  | binding _ _ inner next => do
    inner.visit
    next.visit
  | param _ inner next => do
    inner.visit
    next.visit
  | scope _ _ before inner next => do
    before.visit
    inner.visit
    next.visit

variable [LawfulMonad m]

set_option linter.unusedSectionVars false

attribute [local simp] Outline.visit Visitor.hook

@[simp]
theorem Outline.visit_append (a b : Outline) :
    (a ++ b).visit v = (do a.visit v; b.visit v) := by
  induction a <;> simp_all

mutual

theorem Expr.visit_outline (e : Expr) : e.outline.visit v = e.visit v := by
  cases e with
  | literal | ident | special => simp [Expr.outline, Expr.visit]
  | call f as => simp [Expr.outline, Expr.visit, f.visit_outline, Arg.visitAll_outline as]
  | index a b | binary _ a b => simp [Expr.outline, Expr.visit, a.visit_outline, b.visit_outline]
  | member a | unary _ a | paren a | each a => simp [Expr.outline, Expr.visit, a.visit_outline]
  | ternary c a b =>
    simp [Expr.outline, Expr.visit, c.visit_outline, a.visit_outline, b.visit_outline]
  | letIn bs a => simp [Expr.outline, Expr.visit, Assignment.visitAll_outline bs, a.visit_outline]
  | guarded g as a =>
    simp [Expr.outline, Expr.visit, Arg.visitAll_outline as, Expr.visitOption_outline a]
  | list es => simp [Expr.outline, Expr.visit, Expr.visitAll_outline es]
  | range a b c =>
    simp [Expr.outline, Expr.visit, a.visit_outline, Expr.visitOption_outline b, c.visit_outline]
  | function ps a => simp [Expr.outline, Expr.visit, Param.visitAll_outline ps, a.visit_outline]
  | comprehension h cs a =>
    simp [Expr.outline, Expr.visit, h.visit_outline, Clause.visitAll_outline cs, a.visit_outline]
  | choice c a b =>
    simp [Expr.outline, Expr.visit, c.visit_outline, a.visit_outline, Expr.visitOption_outline b]

theorem Expr.visitOption_outline (e : Option Expr) :
    (Expr.outlineOption e).visit v = Expr.visitOption v e := by
  cases e with
  | none => rfl
  | some e => exact e.visit_outline

theorem Expr.visitAll_outline (es : List Expr) :
    (Expr.outlineAll es).visit v = Expr.visitAll v es := by
  cases es with
  | nil => rfl
  | cons e es => simp [Expr.outlineAll, Expr.visitAll, e.visit_outline, Expr.visitAll_outline es]

theorem Arg.visit_outline (a : Arg) : a.outline.visit v = a.visit v := by
  cases a with
  | positional a | named _ a => exact a.visit_outline

theorem Arg.visitAll_outline (as : List Arg) :
    (Arg.outlineAll as).visit v = Arg.visitAll v as := by
  cases as with
  | nil => rfl
  | cons a as => simp [Arg.outlineAll, Arg.visitAll, a.visit_outline, Arg.visitAll_outline as]

theorem Assignment.visit_outline (b : Assignment) : b.outline.visit v = b.visit v := by
  cases b with
  | mk n a => simp [Assignment.outline, Assignment.visit, a.visit_outline]

theorem Assignment.visitAll_outline (bs : List Assignment) :
    (Assignment.outlineAll bs).visit v = Assignment.visitAll v bs := by
  cases bs with
  | nil => rfl
  | cons b bs =>
    simp [Assignment.outlineAll, Assignment.visitAll, b.visit_outline,
      Assignment.visitAll_outline bs]

theorem Param.visit_outline (p : Param) : p.outline.visit v = p.visit v := by
  cases p with
  | mk n a => simp [Param.outline, Param.visit, Expr.visitOption_outline a]

theorem Param.visitAll_outline (ps : List Param) :
    (Param.outlineAll ps).visit v = Param.visitAll v ps := by
  cases ps with
  | nil => rfl
  | cons p ps => simp [Param.outlineAll, Param.visitAll, p.visit_outline, Param.visitAll_outline ps]

theorem LoopHead.visit_outline (h : LoopHead) : h.outline.visit v = h.visit v := by
  cases h with
  | iterating bs => exact Assignment.visitAll_outline bs
  | counting is c us =>
    simp [LoopHead.outline, LoopHead.visit, Assignment.visitAll_outline is, c.visit_outline,
      Assignment.visitAll_outline us]

theorem Clause.visit_outline (c : Clause) (rest : Outline) :
    (c.outline rest).visit v = (do c.visit v; rest.visit v) := by
  cases c with
  | loop h => simp [Clause.outline, Clause.visit, h.visit_outline]
  | filter c => simp [Clause.outline, Clause.visit, c.visit_outline]
  | letIn bs => simp [Clause.outline, Clause.visit, Assignment.visitAll_outline bs]

theorem Clause.visitAll_outline (cs : List Clause) (rest : Outline) :
    (Clause.outlineAll cs rest).visit v = (do Clause.visitAll v cs; rest.visit v) := by
  cases cs with
  | nil => simp [Clause.outlineAll, Clause.visitAll]
  | cons c cs =>
    simp [Clause.outlineAll, Clause.visitAll, c.visit_outline, Clause.visitAll_outline cs]

end

mutual

theorem Stmt.visit_outline (s : Stmt) : s.outline.visit v = s.visit v := by
  cases s with
  | call _ as t | assert as t =>
    simp [Stmt.outline, Stmt.visit, Arg.visitAll_outline, t.visit_outline]
  | block is => simp [Stmt.outline, Stmt.visit, Item.visitAll_outline is]
  | bound _ bs t => simp [Stmt.outline, Stmt.visit, Assignment.visitAll_outline, t.visit_outline]
  | choice c a b =>
    simp [Stmt.outline, Stmt.visit, Expr.visit_outline, a.visit_outline, Stmt.visitOption_outline b]
  | file | empty => simp [Stmt.outline, Stmt.visit]
  | modified _ t => simp [Stmt.outline, Stmt.visit, t.visit_outline]

theorem Stmt.visitOption_outline (s : Option Stmt) :
    (Stmt.outlineOption s).visit v = Stmt.visitOption v s := by
  cases s with
  | none => rfl
  | some s => exact s.visit_outline

theorem Item.visit_outline (i : Item) : i.outline.visit v = i.visit v := by
  cases i with
  | moduleDef _ ps is =>
    simp [Item.outline, Item.visit, Param.visitAll_outline, Item.visitAll_outline is]
  | functionDef _ ps a =>
    simp [Item.outline, Item.visit, Param.visitAll_outline, Expr.visit_outline]
  | variableDef _ a => simp [Item.outline, Item.visit, Expr.visit_outline]
  | stmt t => simp [Item.outline, Item.visit, t.visit_outline]

/-- A visit of items is a visit of their outline. -/
theorem Item.visitAll_outline (is : List Item) :
    (Item.outlineAll is).visit v = Item.visitAll v is := by
  cases is with
  | nil => rfl
  | cons i is => simp [Item.outlineAll, Item.visitAll, i.visit_outline, Item.visitAll_outline is]

end

end

/-! ## Scopes -/

@[simp]
theorem Context.declareParams_nil (c : Context) : c.declareParams [] = c := rfl

@[simp]
theorem Context.scopes_pop (c : Context) : c.pop.scopes = c.scopes := by
  unfold Context.pop
  split <;> rfl

namespace Outline

/-- The parameters in the list itself. -/
def params : Outline → List Param
  | nil => []
  | param p _ next => p :: next.params
  | name _ next | part _ _ next | binding _ _ _ next | scope _ _ _ _ next => next.params

/-- The scopes that are opened, in this order. -/
def opened : Outline → List Span
  | nil => []
  | name _ next => next.opened
  | part _ inner next | binding _ _ inner next | param _ inner next => inner.opened ++ next.opened
  | scope _ s before inner next => before.opened ++ s :: (inner.opened ++ next.opened)

/-- Opens the scopes of an outline in a context and declares the names. -/
def enter : Outline → Context → Context
  | nil, c => c
  | name _ next, c => next.enter c
  | part _ inner next, c | param _ inner next, c => next.enter (inner.enter c)
  | binding n v inner next, c => next.enter ((inner.enter c).declare n (some v))
  | scope k s before inner next, c =>
    next.enter (inner.enter (((before.enter c).push k s).declareParams before.params)).pop

variable (a b : Outline)

@[simp]
theorem params_nil : nil.params = [] := rfl

@[simp]
theorem params_append : (a ++ b).params = a.params ++ b.params := by
  induction a <;> simp_all [params]

@[simp]
theorem opened_append : (a ++ b).opened = a.opened ++ b.opened := by
  induction a <;> simp_all [opened]

@[simp]
theorem enter_append (c : Context) : (a ++ b).enter c = b.enter (a.enter c) := by
  induction a generalizing c <;> simp_all [enter]

end Outline

@[simp]
theorem Param.params_outlineAll (ps : List Param) : (Param.outlineAll ps).params = ps := by
  induction ps with
  | nil => rfl
  | cons p ps ih =>
    cases p with
    | mk n a s => simp [Param.outlineAll, Param.outline, Outline.params, ih]

/-! ## What is declared -/

/-- A declaration that stands in some scope. -/
def Context.Holds (c : Context) (b : Binding) : Prop := ∃ s ∈ c.scopes, ∃ k, (k, b) ∈ s.names.entries

theorem Table.mem_of_get? {α : Type} {t : Table α} {k : String} {a : α} (h : t.get? k = some a) :
    (k, a) ∈ t.entries := by
  obtain ⟨es⟩ := t
  replace h : es.lookup k = some a := h
  show (k, a) ∈ es
  induction es with
  | nil => cases h
  | cons e es ih =>
    obtain ⟨x, v⟩ := e
    rw [Table.lookup_cons] at h
    split at h
    · subst k
      cases h
      exact List.mem_cons_self
    · exact List.mem_cons_of_mem _ (ih h)

theorem Table.mem_insertIn {α : Type} {name : String} {v : α} {es : List (String × α)}
    {e : String × α} (h : e ∈ Table.insertIn name v es) : e ∈ es ∨ e.2 = v := by
  induction es with
  | nil =>
    rw [Table.insertIn, List.mem_singleton] at h
    exact .inr (by rw [h])
  | cons x es ih =>
    obtain ⟨k, w⟩ := x
    rw [Table.insertIn] at h
    split at h
    · rcases List.mem_cons.1 h with rfl | h
      · exact .inr rfl
      · exact .inl (List.mem_cons_of_mem _ h)
    · rcases List.mem_cons.1 h with rfl | h
      · exact .inl List.mem_cons_self
      · exact (ih h).imp_left (List.mem_cons_of_mem _)

namespace Context

variable {c : Context} {b : Binding}

/-- What is found stands in some scope. -/
theorem holds_of_lookupIn {name : String} :
    ∀ {n id : Nat}, c.lookupIn name n id = some b → c.Holds b
  | 0, _, h => by cases h
  | n + 1, id, h => by
    unfold lookupIn scope? at h
    split at h
    · cases h
    · rename_i s hs
      split at h
      · rename_i b' hb
        cases h
        exact ⟨s, List.mem_of_getElem? hs, name, Table.mem_of_get? hb⟩
      · obtain ⟨id', -, h⟩ := Option.bind_eq_some_iff.1 h
        exact holds_of_lookupIn h

theorem Holds.of_declare {n : Name} {v : Option Expr} (h : (c.declare n v).Holds b) :
    c.Holds b ∨ b = ⟨n, v⟩ := by
  obtain ⟨s, hs, k, hk⟩ := h
  obtain ⟨i, hi⟩ := List.getElem?_of_mem hs
  rw [declare, List.getElem?_modify] at hi
  split at hi
  · obtain ⟨t, ht, rfl⟩ := Option.map_eq_some_iff.1 hi
    rcases Table.mem_insertIn hk with hk | hk
    · exact .inl ⟨t, List.mem_of_getElem? ht, k, hk⟩
    · exact .inr hk
  · obtain ⟨t, ht, rfl⟩ := Option.map_eq_some_iff.1 hi
    exact .inl ⟨t, List.mem_of_getElem? ht, k, hk⟩

theorem Holds.of_declareParams {ps : List Param} (h : (c.declareParams ps).Holds b) :
    c.Holds b ∨ ∃ p ∈ ps, b = ⟨p.name, p.default⟩ := by
  induction ps generalizing c with
  | nil => exact .inl h
  | cons p ps ih =>
    rcases ih h with h | ⟨q, hq, hb⟩
    · rcases h.of_declare with h | h
      · exact .inl h
      · exact .inr ⟨p, List.mem_cons_self, h⟩
    · exact .inr ⟨q, List.mem_cons_of_mem _ hq, hb⟩

theorem Holds.of_push {k : ScopeKind} {s : Span} (h : (c.push k s).Holds b) : c.Holds b := by
  obtain ⟨t, ht, key, hkey⟩ := h
  rcases List.mem_append.1 ht with ht | ht
  · exact ⟨t, ht, key, hkey⟩
  · obtain rfl := List.mem_singleton.1 ht
    cases hkey

end Context

namespace Outline

/-- All declarations in an outline: bindings with their values, parameters with their defaults. -/
def declared : Outline → List Binding
  | nil => []
  | name _ next => next.declared
  | part _ inner next => inner.declared ++ next.declared
  | binding n v inner next => inner.declared ++ ⟨n, some v⟩ :: next.declared
  | param p inner next => inner.declared ++ ⟨p.name, p.default⟩ :: next.declared
  | scope _ _ before inner next => before.declared ++ (inner.declared ++ next.declared)

theorem mem_declared_of_params {o : Outline} {p : Param} (h : p ∈ o.params) :
    (⟨p.name, p.default⟩ : Binding) ∈ o.declared := by
  induction o with
  | nil => cases h
  | name _ next ih => exact ih h
  | part _ _ next _ ih => exact List.mem_append_right _ (ih h)
  | binding _ _ _ next _ ih => exact List.mem_append_right _ (List.mem_cons_of_mem _ (ih h))
  | param q _ next _ ih =>
    rcases List.mem_cons.1 h with rfl | h
    · exact List.mem_append_right _ List.mem_cons_self
    · exact List.mem_append_right _ (List.mem_cons_of_mem _ (ih h))
  | scope _ _ _ _ next _ _ ih =>
    exact List.mem_append_right _ (List.mem_append_right _ (ih h))

/-- What stands in the scopes of a program was declared there. -/
theorem declared_of_holds {o : Outline} {c : Context} {b : Binding} (h : (o.enter c).Holds b) :
    c.Holds b ∨ b ∈ o.declared := by
  induction o generalizing c with
  | nil => exact .inl h
  | name _ next ih => exact ih h
  | part _ inner next ihi ihn =>
    rcases ihn h with h | h
    · exact (ihi h).imp_right (List.mem_append_left _)
    · exact .inr (List.mem_append_right _ h)
  | param _ inner next ihi ihn =>
    rcases ihn h with h | h
    · exact (ihi h).imp_right (List.mem_append_left _)
    · exact .inr (List.mem_append_right _ (List.mem_cons_of_mem _ h))
  | binding n v inner next ihi ihn =>
    rcases ihn h with h | h
    · rcases h.of_declare with h | h
      · exact (ihi h).imp_right (List.mem_append_left _)
      · exact .inr (List.mem_append_right _ (h ▸ List.mem_cons_self))
    · exact .inr (List.mem_append_right _ (List.mem_cons_of_mem _ h))
  | scope k s before inner next ihb ihi ihn =>
    rcases ihn h with h | h
    · obtain ⟨t, ht, hkey⟩ := h
      rw [Context.scopes_pop] at ht
      rcases ihi ⟨t, ht, hkey⟩ with h | h
      · rcases h.of_declareParams with h | ⟨p, hp, rfl⟩
        · exact (ihb h.of_push).imp_right (List.mem_append_left _)
        · exact .inr (List.mem_append_left _ (mem_declared_of_params hp))
      · exact .inr (List.mem_append_right _ (List.mem_append_left _ h))
    · exact .inr (List.mem_append_right _ (List.mem_append_right _ h))

end Outline
end Scad
