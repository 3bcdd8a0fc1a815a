import Scad.Proofs.Program.Element
import Scad.Proofs.Program.Equality
import Scad.Proofs.Program.Matched

/-!
# Agreement is equality of erased programs

Agreement goes through two parts of programs at once. Here it is told by each part alone: two parts
agree if they are equal once their spans are replaced, numbers that are equal are written as one, and
none of their numbers is a NaN (`Element.agree_iff`). As both equalities are agreement, the one
without spans holds exactly where the one with spans does after all spans have been erased
(`agree_erased`).
-/

namespace Scad

/-! ## Numbers -/

namespace Double

/-- One number for all that are equal to each other: the two zeros are one. -/
def canonical (x : Double) : Double := if x.isZero then zero else x

theorem canonical_of_isZero {x : Double} (h : x.isZero = true) : x.canonical = zero := if_pos h

theorem canonical_of_not {x : Double} (h : x.isZero = false) : x.canonical = x :=
  if_neg (by simp [h])

/-- Equality of numbers is equality of bits, but for the zeros and NaNs. -/
theorem equal_iff (x y : Double) :
    x.equal y = true ↔ x.canonical = y.canonical ∧ x.isNaN = false := by
  have hbits : x.bits = y.bits ↔ x = y := by
    cases x
    cases y
    simp
  have hzero : zero.isZero = true := by decide
  simp only [equal, Bool.and_eq_true, Bool.or_eq_true, Bool.not_eq_true', beq_iff_eq, hbits]
  cases hx : x.isZero with
  | true =>
    rw [canonical_of_isZero hx]
    cases hy : y.isZero with
    | true => simp [canonical_of_isZero hy, isNaN_of_isZero hx, isNaN_of_isZero hy]
    | false =>
      rw [canonical_of_not hy]
      have hne : x ≠ y := fun h => by simp [h, hy] at hx
      have hne' : zero ≠ y := fun h => by simp [← h, hzero] at hy
      simp [hne, hne']
  | false =>
    rw [canonical_of_not hx]
    cases hy : y.isZero with
    | true =>
      rw [canonical_of_isZero hy]
      have hne : x ≠ y := fun h => by simp [h, hy] at hx
      have hne' : x ≠ zero := fun h => by simp [h, hzero] at hx
      simp [hne, hne']
    | false =>
      rw [canonical_of_not hy]
      constructor
      · rintro ⟨⟨hnan, -⟩, h | h⟩
        · exact ⟨h, hnan⟩
        · simp at h
      · rintro ⟨rfl, hnan⟩
        exact ⟨⟨hnan, hnan⟩, .inl rfl⟩

end Double

/-! ## Replacing spans and numbers -/

section

variable (p : Span → Span) (q : Double → Double)

def Name.map (n : Name) : Name := ⟨n.text, p n.span⟩

def Literal.map : Literal → Literal
  | number x => number (q x)
  | string s => string s
  | bool b => bool b
  | undef => undef

mutual

/-- The same expression with all spans and all numbers replaced. -/
def Expr.map : Expr → Expr
  | .literal v s => .literal (v.map q) (p s)
  | .ident n => .ident (n.map p)
  | .special n => .special (n.map p)
  | .call f as s => .call f.map (Arg.mapAll as) (p s)
  | .index b i s => .index b.map i.map (p s)
  | .member b n s => .member b.map (n.map p) (p s)
  | .unary o a s => .unary o a.map (p s)
  | .binary o a b s => .binary o a.map b.map (p s)
  | .ternary c a b s => .ternary c.map a.map b.map (p s)
  | .paren a s => .paren a.map (p s)
  | .letIn bs a s => .letIn (Assignment.mapAll bs) a.map (p s)
  | .guarded g as a s => .guarded g (Arg.mapAll as) (Expr.mapOption a) (p s)
  | .list es s => .list (Expr.mapAll es) (p s)
  | .range a b c s => .range a.map (Expr.mapOption b) c.map (p s)
  | .function ps a s => .function (Param.mapAll ps) a.map (p s)
  | .each a s => .each a.map (p s)
  | .comprehension h cs a s => .comprehension h.map (Clause.mapAll cs) a.map (p s)
  | .choice c a b s => .choice c.map a.map (Expr.mapOption b) (p s)

def Expr.mapOption : Option Expr → Option Expr
  | none => none
  | some a => some a.map

def Expr.mapAll : List Expr → List Expr
  | [] => []
  | a :: as => a.map :: Expr.mapAll as

def Arg.map : Arg → Arg
  | .positional a => .positional a.map
  | .named n a s => .named (n.map p) a.map (p s)

def Arg.mapAll : List Arg → List Arg
  | [] => []
  | a :: as => a.map :: Arg.mapAll as

def Assignment.map : Assignment → Assignment
  | .mk n a s => .mk (n.map p) a.map (p s)

def Assignment.mapAll : List Assignment → List Assignment
  | [] => []
  | a :: as => a.map :: Assignment.mapAll as

def Param.map : Param → Param
  | .mk n a s => .mk (n.map p) (Expr.mapOption a) (p s)

def Param.mapAll : List Param → List Param
  | [] => []
  | a :: as => a.map :: Param.mapAll as

def LoopHead.map : LoopHead → LoopHead
  | .iterating bs => .iterating (Assignment.mapAll bs)
  | .counting is c us => .counting (Assignment.mapAll is) c.map (Assignment.mapAll us)

def Clause.map : Clause → Clause
  | .loop h s => .loop h.map (p s)
  | .filter c s => .filter c.map (p s)
  | .letIn bs s => .letIn (Assignment.mapAll bs) (p s)

def Clause.mapAll : List Clause → List Clause
  | [] => []
  | a :: as => a.map :: Clause.mapAll as

end

mutual

/-- The same statement with all spans and all numbers replaced. -/
def Stmt.map : Stmt → Stmt
  | .call n as t s => .call (n.map p) (Arg.mapAll p q as) t.map (p s)
  | .block is s => .block (Item.mapAll is) (p s)
  | .bound k bs t s => .bound k (Assignment.mapAll p q bs) t.map (p s)
  | .choice c a b s => .choice (c.map p q) a.map (Stmt.mapOption b) (p s)
  | .file k path s => .file k path (p s)
  | .assert as t s => .assert (Arg.mapAll p q as) t.map (p s)
  | .modified m t s => .modified m t.map (p s)
  | .empty s => .empty (p s)

def Stmt.mapOption : Option Stmt → Option Stmt
  | none => none
  | some a => some a.map

def Item.map : Item → Item
  | .moduleDef n ps is s => .moduleDef (n.map p) (Param.mapAll p q ps) (Item.mapAll is) (p s)
  | .functionDef n ps a s => .functionDef (n.map p) (Param.mapAll p q ps) (a.map p q) (p s)
  | .variableDef n a s => .variableDef (n.map p) (a.map p q) (p s)
  | .stmt t => .stmt t.map

def Item.mapAll : List Item → List Item
  | [] => []
  | a :: as => a.map :: Item.mapAll as

end

variable {p q}

theorem eq_map_of_cons {α : Type} {one : α → α} {all : List α → List α} (nil : all [] = [])
    (cons : ∀ a as, all (a :: as) = one a :: all as) (as : List α) : all as = as.map one := by
  induction as with
  | nil => exact nil
  | cons a as ih => rw [cons, ih, List.map_cons]

@[simp]
theorem Expr.mapAll_eq (as : List Expr) : Expr.mapAll p q as = as.map (Expr.map p q) :=
  eq_map_of_cons (by simp [Expr.mapAll]) (by simp [Expr.mapAll]) as

@[simp]
theorem Arg.mapAll_eq (as : List Arg) : Arg.mapAll p q as = as.map (Arg.map p q) :=
  eq_map_of_cons (by simp [Arg.mapAll]) (by simp [Arg.mapAll]) as

@[simp]
theorem Assignment.mapAll_eq (as : List Assignment) :
    Assignment.mapAll p q as = as.map (Assignment.map p q) :=
  eq_map_of_cons (by simp [Assignment.mapAll]) (by simp [Assignment.mapAll]) as

@[simp]
theorem Param.mapAll_eq (as : List Param) : Param.mapAll p q as = as.map (Param.map p q) :=
  eq_map_of_cons (by simp [Param.mapAll]) (by simp [Param.mapAll]) as

@[simp]
theorem Clause.mapAll_eq (as : List Clause) : Clause.mapAll p q as = as.map (Clause.map p q) :=
  eq_map_of_cons (by simp [Clause.mapAll]) (by simp [Clause.mapAll]) as

@[simp]
theorem Item.mapAll_eq (as : List Item) : Item.mapAll p q as = as.map (Item.map p q) :=
  eq_map_of_cons (by simp [Item.mapAll]) (by simp [Item.mapAll]) as

@[simp]
theorem Expr.mapOption_eq (a : Option Expr) : Expr.mapOption p q a = a.map (Expr.map p q) := by
  cases a <;> simp [Expr.mapOption]

@[simp]
theorem Stmt.mapOption_eq (a : Option Stmt) : Stmt.mapOption p q a = a.map (Stmt.map p q) := by
  cases a <;> simp [Stmt.mapOption]

/-! ## Elements -/

namespace Element

/-- The same element with all spans and all numbers replaced. -/
@[simp]
def map (p : Span → Span) (q : Double → Double) : Element → Element
  | item i => item (i.map p q)
  | stmt s => stmt (s.map p q)
  | expr e => expr (e.map p q)
  | arg a => arg (a.map p q)
  | assignment b => assignment (b.map p q)
  | param a => param (a.map p q)
  | name n => name (n.map p)
  | clause c => clause (c.map p q)

/-- The number of an element that is one. -/
def number? : Element → Option Double
  | expr e => e.number?
  | _ => none

/-- All numbers in an element. -/
def numbers (x : Element) : List Double := x.all.filterMap number?

theorem elements_map (h : LoopHead) : (h.map p q).elements = h.elements.map (map p q) := by
  cases h <;> simp [LoopHead.elements, LoopHead.map, map, Function.comp_def]

theorem toList_map {α : Type} (f : α → α) (g : α → Element) (a : Option α) :
    (a.map f).toList.map g = a.toList.map (g ∘ f) := by
  cases a <;> rfl

/-- The parts stay the parts, in the same order. -/
theorem children_map (x : Element) : (x.map p q).children = x.children.map (map p q) := by
  cases x with
  | item i => cases i <;> simp [children, map, Item.map, Function.comp_def]
  | stmt s => cases s <;> simp [children, map, Stmt.map, Function.comp_def, toList_map]
  | expr e =>
    cases e <;> simp [children, map, Expr.map, Function.comp_def, elements_map, toList_map]
  | arg a => cases a <;> simp [children, map, Arg.map]
  | assignment b => cases b; simp [children, map, Assignment.map]
  | param a => cases a; simp [children, map, Param.map, Function.comp_def, toList_map]
  | name n => rfl
  | clause c =>
    cases c <;> simp [children, map, Clause.map, Clause.elements, Function.comp_def, elements_map]

theorem span_map (x : Element) : (x.map p q).span = p x.span := by
  have hexpr (e : Expr) : (e.map p q).span = p e.span := by
    cases e <;> rfl
  have hstmt (s : Stmt) : (s.map p q).span = p s.span := by
    cases s <;> rfl
  cases x with
  | item i => cases i with
    | stmt s => exact hstmt s
    | _ => rfl
  | stmt s => exact hstmt s
  | expr e => exact hexpr e
  | arg a => cases a with
    | positional e => exact hexpr e
    | named => rfl
  | assignment b => cases b; rfl
  | param a => cases a; rfl
  | name n => rfl
  | clause c => cases c <;> rfl

theorem number?_map (x : Element) : (x.map p q).number? = x.number?.map q := by
  cases x with
  | expr e => cases e with
    | literal v s => cases v <;> rfl
    | _ => rfl
  | _ => rfl

theorem all_map (x : Element) : (x.map p q).all = x.all.map (map p q) := by
  induction x using induct with
  | step x ih =>
    rw [all_eq, all_eq, children_map, List.map_cons, List.flatMap_map, List.map_flatMap]
    exact congrArg _ (List.flatMap_congr ih)

theorem numbers_map (x : Element) : (x.map p q).numbers = x.numbers.map q := by
  rw [numbers, numbers, all_map, List.filterMap_map, List.map_filterMap]
  exact congrArg (fun f => x.all.filterMap f) (funext number?_map)

theorem option_map_inj {α β : Type} {f g : α → β} {a : Option α} :
    a.map f = a.map g ↔ ∀ b, a = some b → f b = g b := by
  cases a <;> simp

/-- Replacing twice is replacing by what was put in the place of the replacement. -/
theorem map_map (p p' : Span → Span) (q q' : Double → Double) (x : Element) :
    (x.map p q).map p' q' = x.map (p' ∘ p) (q' ∘ q) := by
  induction x using induct with
  | step x ih =>
    have hliteral (v : Literal) : (v.map q).map q' = v.map (q' ∘ q) := by cases v <;> rfl
    have hhead (h : LoopHead)
        (ih : ∀ y ∈ h.elements, (y.map p q).map p' q' = y.map (p' ∘ p) (q' ∘ q)) :
        (h.map p q).map p' q' = h.map (p' ∘ p) (q' ∘ q) := by
      cases h <;>
        simp only [LoopHead.elements, List.forall_mem_map, List.forall_mem_append,
          List.forall_mem_cons, map, expr.injEq, assignment.injEq, LoopHead.map,
          Assignment.mapAll_eq, List.map_map, LoopHead.iterating.injEq, LoopHead.counting.injEq,
          List.map_inj_left, Function.comp_apply] at ih ⊢ <;>
        exact ih
    cases x with
    | item i =>
      cases i <;>
        simp only [children, before, inner, List.nil_append, List.cons_append, List.forall_mem_cons,
          List.forall_mem_append, List.forall_mem_map, map, Item.map, Name.map, Param.mapAll_eq,
          Item.mapAll_eq, List.map_map, List.map_inj_left, Function.comp_apply, item.injEq,
          param.injEq, expr.injEq, stmt.injEq, Item.moduleDef.injEq, Item.functionDef.injEq,
          Item.variableDef.injEq, Item.stmt.injEq, true_and, and_true] at ih ⊢ <;>
        tauto
    | stmt s =>
      cases s <;>
        simp only [children, before, inner, List.nil_append, List.forall_mem_cons,
          List.forall_mem_append, List.forall_mem_map, Option.mem_toList, map, Stmt.map, Name.map,
          Stmt.mapOption_eq, Arg.mapAll_eq, Assignment.mapAll_eq, Item.mapAll_eq, List.map_map,
          List.map_inj_left, Option.map_map, option_map_inj, Function.comp_apply, item.injEq,
          expr.injEq, stmt.injEq, arg.injEq, assignment.injEq, Stmt.call.injEq, Stmt.block.injEq,
          Stmt.bound.injEq, Stmt.choice.injEq, Stmt.assert.injEq, Stmt.modified.injEq, true_and,
          and_true] at ih ⊢ <;>
        tauto
    | expr e =>
      cases e <;>
        simp only [children, before, inner, List.nil_append, List.forall_mem_cons,
          List.forall_mem_append, List.forall_mem_map, List.not_mem_nil, false_imp_iff, implies_true,
          Option.mem_toList, map, Expr.map, Name.map, Expr.mapOption_eq, Expr.mapAll_eq,
          Arg.mapAll_eq, Assignment.mapAll_eq, Param.mapAll_eq, Clause.mapAll_eq, List.map_map,
          List.map_inj_left, Option.map_map, option_map_inj, Function.comp_apply, expr.injEq,
          arg.injEq, assignment.injEq, param.injEq, clause.injEq, hliteral,
          Expr.call.injEq, Expr.index.injEq, Expr.member.injEq, Expr.unary.injEq,
          Expr.binary.injEq, Expr.ternary.injEq, Expr.paren.injEq, Expr.letIn.injEq,
          Expr.guarded.injEq, Expr.list.injEq, Expr.range.injEq, Expr.function.injEq,
          Expr.each.injEq, Expr.comprehension.injEq, Expr.choice.injEq, true_and,
          and_true] at ih ⊢
      case comprehension => exact ⟨hhead _ ih.1, ih.2⟩
      all_goals tauto
    | arg a =>
      cases a <;> simp_all [children, Arg.map]
    | assignment b => cases b; simp_all [children, Assignment.map]
    | param a => cases a; simp_all [children, Param.map, option_map_inj]
    | name n => rfl
    | clause c => cases c <;> simp_all [children, Clause.map, Clause.elements]

/-! ## Agreement -/

/-- None of the numbers in an element is a NaN. -/
def Regular (x : Element) : Prop := ∀ v ∈ x.numbers, v.isNaN = false

theorem regular_iff (x : Element) :
    x.Regular ↔ (∀ v, x.number? = some v → v.isNaN = false) ∧ ∀ y ∈ x.children, y.Regular := by
  simp only [Regular, numbers, all_eq x, List.filterMap_cons, List.filterMap_flatMap]
  cases x.number? <;>
    simp only [List.mem_flatMap, List.forall_mem_cons, Option.some.injEq, forall_eq',
      reduceCtorEq, false_imp_iff, implies_true, true_and] <;> grind

@[simp]
def agree (w : Places) : Element → Element → Bool
  | item i, item j => i.agree w j
  | stmt s, stmt t => s.agree w t
  | expr e, expr f => e.agree w f
  | arg a, arg b => a.agree w b
  | assignment a, assignment b => a.agree w b
  | param a, param b => a.agree w b
  | name m, name n => m.agree w n
  | clause c, clause d => c.agree w d
  | _, _ => false

/-- Whether two elements agree is told by each of them alone. -/
def Decided (w : Places) (p : Span → Span) (x : Element) : Prop :=
  ∀ y, x.agree w y = true ↔ x.map p Double.canonical = y.map p Double.canonical ∧ x.Regular

theorem forall₂_iff_map {α β : Type} {r : α → α → Prop} {f : α → β} {P : α → Prop} {as bs : List α}
    (h : ∀ a ∈ as, ∀ b, r a b ↔ f a = f b ∧ P a) :
    List.Forall₂ r as bs ↔ as.map f = bs.map f ∧ ∀ a ∈ as, P a := by
  induction as generalizing bs with
  | nil => cases bs <;> simp
  | cons a as ih =>
    rw [List.forall_mem_cons] at h
    cases bs with
    | nil => simp
    | cons b bs =>
      rw [List.forall₂_cons, h.1 b, ih h.2, List.map_cons, List.map_cons, List.cons.injEq,
        List.forall_mem_cons]
      tauto

theorem rel_iff_map {α β : Type} {r : α → α → Prop} {f : α → β} {P : α → Prop} {a b : Option α}
    (h : ∀ x, a = some x → ∀ y, r x y ↔ f x = f y ∧ P x) :
    Option.Rel r a b ↔ a.map f = b.map f ∧ ∀ x, a = some x → P x := by
  cases a with
  | none => cases b <;> simp
  | some a =>
    cases b with
    | none => simp
    | some b => simpa using h a rfl b

section

variable {w : Places}

/-! ### Parts, one by one and in lists -/

theorem Decided.expr {e : Expr} (h : Decided w p (.expr e)) (f : Expr) : e.agree w f = true ↔
    e.map p .canonical = f.map p .canonical ∧ Regular (.expr e) := by
  simpa using h (.expr f)

theorem Decided.stmt {s : Stmt} (h : Decided w p (.stmt s)) (t : Stmt) : s.agree w t = true ↔
    s.map p .canonical = t.map p .canonical ∧ Regular (.stmt s) := by
  simpa using h (.stmt t)

theorem Decided.name {m : Name} (h : Decided w p (.name m)) (n : Name) : m.agree w n = true ↔
    m.map p = n.map p ∧ Regular (.name m) := by
  simpa using h (.name n)

theorem decided_exprs {es fs : List Expr} (h : ∀ e ∈ es, Decided w p (.expr e)) :
    Expr.agreeAll w es fs = true ↔ es.map (Expr.map p .canonical) = fs.map (Expr.map p .canonical) ∧
      ∀ e ∈ es, Regular (.expr e) :=
  Expr.agreeAll_iff.trans (forall₂_iff_map fun e he => (h e he).expr)

theorem decided_args {as bs : List Arg} (h : ∀ a ∈ as, Decided w p (.arg a)) :
    Arg.agreeAll w as bs = true ↔ as.map (Arg.map p .canonical) = bs.map (Arg.map p .canonical) ∧
      ∀ a ∈ as, Regular (.arg a) :=
  Arg.agreeAll_iff.trans (forall₂_iff_map fun a ha b => by simpa using h a ha (.arg b))

theorem decided_assignments {as bs : List Assignment} (h : ∀ a ∈ as, Decided w p (.assignment a)) :
    Assignment.agreeAll w as bs = true ↔
      as.map (Assignment.map p .canonical) = bs.map (Assignment.map p .canonical) ∧
      ∀ a ∈ as, Regular (.assignment a) :=
  Assignment.agreeAll_iff.trans
    (forall₂_iff_map fun a ha b => by simpa using h a ha (.assignment b))

theorem decided_params {as bs : List Param} (h : ∀ a ∈ as, Decided w p (.param a)) :
    Param.agreeAll w as bs = true ↔
      as.map (Param.map p .canonical) = bs.map (Param.map p .canonical) ∧
      ∀ a ∈ as, Regular (.param a) :=
  Param.agreeAll_iff.trans (forall₂_iff_map fun a ha b => by simpa using h a ha (.param b))

theorem decided_clauses {as bs : List Clause} (h : ∀ a ∈ as, Decided w p (.clause a)) :
    Clause.agreeAll w as bs = true ↔
      as.map (Clause.map p .canonical) = bs.map (Clause.map p .canonical) ∧
      ∀ a ∈ as, Regular (.clause a) :=
  Clause.agreeAll_iff.trans (forall₂_iff_map fun a ha b => by simpa using h a ha (.clause b))

theorem decided_items {as bs : List Item} (h : ∀ a ∈ as, Decided w p (.item a)) :
    Item.agreeAll w as bs = true ↔ as.map (Item.map p .canonical) = bs.map (Item.map p .canonical) ∧
      ∀ a ∈ as, Regular (.item a) :=
  Item.agreeAll_iff.trans (forall₂_iff_map fun a ha b => by simpa using h a ha (.item b))

theorem decided_expr? {a b : Option Expr} (h : ∀ e, a = some e → Decided w p (.expr e)) :
    Expr.agreeOption w a b = true ↔ a.map (Expr.map p .canonical) = b.map (Expr.map p .canonical) ∧
      ∀ e, a = some e → Regular (.expr e) :=
  Expr.agreeOption_iff.trans (rel_iff_map fun e he => (h e he).expr)

theorem decided_stmt? {a b : Option Stmt} (h : ∀ s, a = some s → Decided w p (.stmt s)) :
    Stmt.agreeOption w a b = true ↔ a.map (Stmt.map p .canonical) = b.map (Stmt.map p .canonical) ∧
      ∀ s, a = some s → Regular (.stmt s) :=
  Stmt.agreeOption_iff.trans (rel_iff_map fun s hs => (h s hs).stmt)

/-! ### All elements -/

variable (hw : ∀ s t, w s t = true ↔ p s = p t)
include hw

theorem decided_name (n : Name) : (name n).Decided w p := by
  intro y
  cases y with
  | name m => simp [Name.agree, Name.map, hw, regular_iff (.name _), children, number?]
  | _ => simp

omit hw in
theorem decided_literal (v v' : Literal) (s : Span) : v.agree v' = true ↔
    v.map .canonical = v'.map .canonical ∧
      ∀ x, (expr (.literal v s)).number? = some x → x.isNaN = false := by
  cases v <;> cases v' <;> simp [Literal.agree, Literal.map, number?, Expr.number?, Double.equal_iff]

theorem decided_arg (a : Arg) (ih : ∀ y ∈ (arg a).children, y.Decided w p) :
    (arg a).Decided w p := by
  intro y
  rw [regular_iff]
  cases y with
  | arg b =>
    cases a <;> cases b <;>
      simp only [children, before, inner, List.nil_append, List.forall_mem_cons, List.not_mem_nil,
        false_imp_iff, implies_true, and_true, true_and, number?, reduceCtorEq, agree, map,
        Arg.agree, Bool.and_eq_true, Bool.false_eq_true, hw, Arg.map, arg.injEq,
        Arg.positional.injEq, Arg.named.injEq, false_and] at ih ⊢
    case positional.positional => exact ih.expr _
    case named.named => rw [ih.1.name, ih.2.expr]; tauto
  | _ => simp only [agree, map, reduceCtorEq, false_and, Bool.false_eq_true]

theorem decided_assignment (a : Assignment) (ih : ∀ y ∈ (assignment a).children, y.Decided w p) :
    (assignment a).Decided w p := by
  intro y
  rw [regular_iff]
  cases y with
  | assignment b =>
    cases a
    cases b
    simp only [children, before, inner, List.nil_append, List.forall_mem_cons, List.not_mem_nil,
      false_imp_iff, implies_true, and_true, true_and, number?, reduceCtorEq, agree, map,
      Assignment.agree, Bool.and_eq_true, hw, Assignment.map, assignment.injEq,
      Assignment.mk.injEq] at ih ⊢
    rw [ih.1.name, ih.2.expr]
    tauto
  | _ => simp only [agree, map, reduceCtorEq, false_and, Bool.false_eq_true]

theorem decided_param (a : Param) (ih : ∀ y ∈ (param a).children, y.Decided w p) :
    (param a).Decided w p := by
  intro y
  rw [regular_iff]
  cases y with
  | param b =>
    cases a
    cases b
    simp only [children, before, inner, List.nil_append, List.forall_mem_cons, List.forall_mem_map,
      Option.mem_toList, true_and, number?, reduceCtorEq, false_imp_iff, implies_true, agree, map,
      Param.agree, Bool.and_eq_true, hw, Param.map, Expr.mapOption_eq, param.injEq,
      Param.mk.injEq] at ih ⊢
    rw [ih.1.name, decided_expr? ih.2]
    tauto
  | _ => simp only [agree, map, reduceCtorEq, false_and, Bool.false_eq_true]

omit hw in
theorem decided_head (h h' : LoopHead) (ih : ∀ y ∈ h.elements, y.Decided w p) :
    h.agree w h' = true ↔ h.map p .canonical = h'.map p .canonical ∧ ∀ y ∈ h.elements, y.Regular := by
  cases h with
  | iterating bs =>
    simp only [LoopHead.elements, List.forall_mem_map] at ih
    cases h' with
    | iterating bs' => simp [LoopHead.agree, LoopHead.map, LoopHead.elements, decided_assignments ih]
    | counting => simp [LoopHead.agree, LoopHead.map]
  | counting is c us =>
    simp only [LoopHead.elements, List.forall_mem_map, List.forall_mem_append,
      List.forall_mem_cons] at ih
    obtain ⟨his, hc, hus⟩ := ih
    cases h' with
    | counting is' c' us' =>
      simp [LoopHead.agree, LoopHead.map, LoopHead.elements, decided_assignments his, hc.expr,
        decided_assignments hus, or_imp, forall_and]
      tauto
    | iterating => simp [LoopHead.agree, LoopHead.map]

theorem decided_expr (e : Expr) (ih : ∀ y ∈ (expr e).children, y.Decided w p) :
    (expr e).Decided w p := by
  intro y
  cases y with
  | expr e' =>
    simp only [agree, map, expr.injEq]
    -- only expressions of one form can agree, and only those become equal
    by_cases hform : e.ctorIdx = e'.ctorIdx
    · rw [regular_iff]
      cases e <;> cases e' <;> try exact absurd hform (Nat.ne_of_beq_eq_false rfl)
      case literal.literal v s v' s' =>
        simp only [Expr.agree, Bool.and_eq_true, decided_literal v v' s, hw, Expr.map,
          Expr.literal.injEq, children, before, inner, List.append_nil]
        tauto
      all_goals
        simp only [children, before, inner, List.nil_append, List.forall_mem_cons,
          List.forall_mem_append, List.forall_mem_map, List.not_mem_nil, Option.mem_toList,
          false_imp_iff, implies_true, and_true, true_and, number?, Expr.number?, reduceCtorEq,
          Expr.agree, Bool.and_eq_true, beq_iff_eq, hw, Expr.map, Expr.mapAll_eq,
          Expr.mapOption_eq, Arg.mapAll_eq, Assignment.mapAll_eq, Param.mapAll_eq,
          Clause.mapAll_eq, Expr.ident.injEq, Expr.special.injEq, Expr.call.injEq,
          Expr.index.injEq, Expr.member.injEq, Expr.unary.injEq, Expr.binary.injEq,
          Expr.ternary.injEq, Expr.paren.injEq, Expr.letIn.injEq, Expr.guarded.injEq,
          Expr.list.injEq, Expr.range.injEq, Expr.function.injEq, Expr.each.injEq,
          Expr.comprehension.injEq, Expr.choice.injEq] at ih ⊢
      case ident.ident | special.special => exact ih.name _
      case call.call => rw [ih.1.expr, decided_args ih.2]; tauto
      case index.index | binary.binary => rw [ih.1.expr, ih.2.expr]; tauto
      case member.member => rw [ih.1.expr, ih.2.name]; tauto
      case unary.unary | paren.paren | each.each => rw [ih.expr]; tauto
      case ternary.ternary => rw [ih.1.expr, ih.2.1.expr, ih.2.2.expr]; tauto
      case letIn.letIn => rw [decided_assignments ih.1, ih.2.expr]; tauto
      case guarded.guarded => rw [decided_args ih.1, decided_expr? ih.2]; tauto
      case list.list => rw [decided_exprs ih]; tauto
      case range.range => rw [ih.1.expr, decided_expr? ih.2.1, ih.2.2.expr]; tauto
      case function.function => rw [decided_params ih.1, ih.2.expr]; tauto
      case comprehension.comprehension =>
        rw [decided_head _ _ ih.1, decided_clauses ih.2.1, ih.2.2.expr]
        tauto
      case choice.choice => rw [ih.1.expr, ih.2.1.expr, decided_expr? ih.2.2]; tauto
    · have hagree : ¬e.agree w e' = true := fun h => hform <| by
        cases e <;> unfold Expr.agree at h <;> split at h <;> first | rfl | cases h
      have hmap : ∀ e : Expr, (e.map p .canonical).ctorIdx = e.ctorIdx := fun e => by
        cases e <;> rfl
      exact iff_of_false hagree fun h => hform (by rw [← hmap, h.1, hmap])
  | _ => simp only [agree, map, reduceCtorEq, false_and, Bool.false_eq_true]

theorem decided_stmt (s : Stmt) (ih : ∀ y ∈ (stmt s).children, y.Decided w p) :
    (stmt s).Decided w p := by
  intro y
  rw [regular_iff]
  cases y with
  | stmt s' =>
    cases s <;> cases s' <;>
      simp only [children, before, inner, List.nil_append, List.forall_mem_cons,
        List.forall_mem_append, List.forall_mem_map, List.not_mem_nil, Option.mem_toList,
        false_imp_iff, implies_true, and_true, true_and, number?, reduceCtorEq, false_and, agree,
        map, Stmt.agree, Bool.and_eq_true, Bool.false_eq_true, beq_iff_eq, hw, Stmt.map,
        Stmt.mapOption_eq, Arg.mapAll_eq, Assignment.mapAll_eq, Item.mapAll_eq, stmt.injEq,
        Stmt.call.injEq, Stmt.block.injEq, Stmt.bound.injEq, Stmt.choice.injEq, Stmt.file.injEq,
        Stmt.assert.injEq, Stmt.modified.injEq, Stmt.empty.injEq] at ih ⊢
    case call.call => rw [ih.1.name, decided_args ih.2.1, ih.2.2.stmt]; tauto
    case block.block => rw [decided_items ih]; tauto
    case bound.bound => rw [decided_assignments ih.1, ih.2.stmt]; tauto
    case choice.choice => rw [ih.1.expr, ih.2.1.stmt, decided_stmt? ih.2.2]; tauto
    case file.file => tauto
    case assert.assert => rw [decided_args ih.1, ih.2.stmt]; tauto
    case modified.modified => rw [ih.stmt]; tauto
  | _ => simp only [agree, map, reduceCtorEq, false_and, Bool.false_eq_true]

theorem decided_item (i : Item) (ih : ∀ y ∈ (item i).children, y.Decided w p) :
    (item i).Decided w p := by
  intro y
  rw [regular_iff]
  cases y with
  | item i' =>
    cases i <;> cases i' <;>
      simp only [children, before, inner, List.nil_append, List.cons_append, List.forall_mem_cons,
        List.forall_mem_append, List.forall_mem_map, List.not_mem_nil, false_imp_iff, implies_true,
        and_true, true_and, number?, reduceCtorEq, false_and, agree, map, Item.agree,
        Bool.and_eq_true, Bool.false_eq_true, hw, Item.map, Param.mapAll_eq, Item.mapAll_eq,
        item.injEq, Item.moduleDef.injEq, Item.functionDef.injEq, Item.variableDef.injEq,
        Item.stmt.injEq] at ih ⊢
    case moduleDef.moduleDef => rw [ih.1.name, decided_params ih.2.1, decided_items ih.2.2]; tauto
    case functionDef.functionDef => rw [ih.1.name, decided_params ih.2.1, ih.2.2.expr]; tauto
    case variableDef.variableDef => rw [ih.1.name, ih.2.expr]; tauto
    case stmt.stmt => exact ih.stmt _
  | _ => simp only [agree, map, reduceCtorEq, false_and, Bool.false_eq_true]

theorem decided_clause (c : Clause) (ih : ∀ y ∈ (clause c).children, y.Decided w p) :
    (clause c).Decided w p := by
  intro y
  rw [regular_iff]
  cases y with
  | clause c' =>
    cases c <;> cases c' <;>
      simp only [children, before, inner, Clause.elements, List.nil_append, List.forall_mem_cons,
        List.forall_mem_map, List.not_mem_nil, false_imp_iff, implies_true, and_true, true_and,
        number?, reduceCtorEq, false_and, agree, map, Clause.agree, Bool.and_eq_true,
        Bool.false_eq_true, hw, Clause.map, Assignment.mapAll_eq, clause.injEq,
        Clause.loop.injEq, Clause.filter.injEq, Clause.letIn.injEq] at ih ⊢
    case loop.loop => rw [decided_head _ _ ih]; tauto
    case filter.filter => rw [ih.expr]; tauto
    case letIn.letIn => rw [decided_assignments ih]; tauto
  | _ => simp only [agree, map, reduceCtorEq, false_and, Bool.false_eq_true]

/-- Where places are compared by what is put in the place of spans, agreement is equality of what
is left, but for the zeros and NaNs. -/
theorem agree_iff (x : Element) : x.Decided w p := by
  induction x using induct with
  | step x ih =>
    cases x with
    | item i => exact decided_item hw i ih
    | stmt s => exact decided_stmt hw s ih
    | expr e => exact decided_expr hw e ih
    | arg a => exact decided_arg hw a ih
    | assignment a => exact decided_assignment hw a ih
    | param a => exact decided_param hw a ih
    | name n => exact decided_name hw n
    | clause c => exact decided_clause hw c ih

end

theorem agree_exact_iff (x y : Element) : x.agree .exact y = true ↔
    x.map id .canonical = y.map id .canonical ∧ x.Regular :=
  agree_iff (w := .exact) (fun s t => by simp [Places.exact]) x y

theorem agree_ignored_iff (x y : Element) : x.agree .ignored y = true ↔
    x.map (fun _ => {}) .canonical = y.map (fun _ => {}) .canonical ∧ x.Regular :=
  agree_iff (w := .ignored) (fun s t => by simp [Places.ignored]) x y

theorem agree_map (x y : Element) :
    x.agree .ignored y = (x.map (fun _ => {}) id).agree .exact (y.map (fun _ => {}) id) := by
  rw [Bool.eq_iff_iff, agree_ignored_iff, agree_exact_iff, map_map, map_map, Regular, Regular,
    numbers_map, List.map_id]
  rfl

/-- No span is left. -/
theorem span_of_erased {x y : Element} (hy : y ∈ (x.map (fun _ => {}) id).all) : y.span = {} := by
  rw [all_map] at hy
  obtain ⟨z, -, rfl⟩ := List.mem_map.1 hy
  exact span_map z

end Element

/-- How parts of a kind are compared: without spans they are equal if they are with spans once these
have been erased, and with spans they are if nothing but the zeros and NaNs is left out of account.
Agreement comes to the same as either, with nothing or everything asked of places. -/
structure Compared {α : Type} (spanlessEq spannedEq : α → α → Bool) (agree : Places → α → α → Bool)
    (map : (Span → Span) → (Double → Double) → α → α) (elements : α → List Element) : Prop where
  ignored : ∀ a b, spanlessEq a b = spannedEq (map (fun _ => {}) id a) (map (fun _ => {}) id b)
  exact : ∀ a b, spannedEq a b = true ↔
    map id .canonical a = map id .canonical b ∧ ∀ x ∈ elements a, x.Regular
  erased : ∀ a, ∀ x ∈ elements (map (fun _ => {}) id a), ∀ y ∈ x.all, y.span = {}
  agree_ignored : ∀ a b, agree .ignored a b = spanlessEq a b
  agree_exact : ∀ a b, agree .exact a b = spannedEq a b

theorem Compared.of_element {α : Type} {spanlessEq spannedEq : α → α → Bool}
    {agree : Places → α → α → Bool} {map : (Span → Span) → (Double → Double) → α → α}
    (f : α → Element) (hf : ∀ a b, f a = f b ↔ a = b)
    (hagree : ∀ w a b, (f a).agree w (f b) = agree w a b)
    (hmap : ∀ p q a, (f a).map p q = f (map p q a))
    (hspanless : ∀ a b, spanlessEq a b = agree .ignored a b)
    (hspanned : ∀ a b, spannedEq a b = agree .exact a b) :
    Compared spanlessEq spannedEq agree map fun a => [f a] where
  ignored a b := by
    rw [hspanless, hspanned, ← hagree, ← hagree, ← hmap, ← hmap, Element.agree_map]
  exact a b := by
    rw [hspanned, ← hagree, Element.agree_exact_iff, hmap, hmap, hf, List.forall_mem_singleton]
  erased a x hx y hy := by
    rw [List.mem_singleton.1 hx, ← hmap] at hy
    exact Element.span_of_erased hy
  agree_ignored a b := (hspanless a b).symm
  agree_exact a b := (hspanned a b).symm

/-- A loop is compared like a clause that consists of it. -/
theorem compared_loopHead : Compared LoopHead.spanlessEq LoopHead.spannedEq LoopHead.agree
    LoopHead.map LoopHead.elements := by
  have hloop {w : Places} (hw : w {} {} = true) (h h' : LoopHead) : h.agree w h' =
      (Element.clause (.loop h {})).agree w (.clause (.loop h' {})) := by
    simp [Clause.agree, hw]
  have hmap (p : Span → Span) (q : Double → Double) (hp : p {} = {}) (h : LoopHead) :
      (Element.clause (.loop h {})).map p q = .clause (.loop (h.map p q) {}) := by
    simp [Clause.map, hp]
  have hexact : Places.exact {} {} = true := by decide
  refine ⟨fun h h' => ?_, fun h h' => ?_, fun h x hx y hy => ?_,
    fun h h' => (h.spanlessEq_eq h').symm, fun h h' => (h.spannedEq_eq h').symm⟩
  · rw [h.spanlessEq_eq, LoopHead.spannedEq_eq, hloop rfl, hloop hexact, Element.agree_map,
      hmap _ _ rfl, hmap _ _ rfl]
  · rw [h.spannedEq_eq, hloop hexact, Element.agree_exact_iff, hmap _ _ rfl, hmap _ _ rfl,
      Element.regular_iff]
    simp [Element.children, Clause.elements, Element.number?]
  · refine Element.span_of_erased (x := .clause (.loop h {})) (Element.mem_all.2 (.inr ⟨x, ?_, hy⟩))
    rw [hmap _ _ rfl]
    simpa [Element.children, Clause.elements] using hx

/-- Parts of a program are equal without spans exactly when they are equal, spans and all, once every
span in them has been erased. Numbers are equal if they are as numbers: the zeros are one, and a NaN
differs even from itself. -/
theorem agree_erased :
    Compared Item.spanlessEq Item.spannedEq Item.agree Item.map (fun i => [.item i]) ∧
    Compared Stmt.spanlessEq Stmt.spannedEq Stmt.agree Stmt.map (fun s => [.stmt s]) ∧
    Compared Expr.spanlessEq Expr.spannedEq Expr.agree Expr.map (fun e => [.expr e]) ∧
    Compared Arg.spanlessEq Arg.spannedEq Arg.agree Arg.map (fun a => [.arg a]) ∧
    Compared Param.spanlessEq Param.spannedEq Param.agree Param.map (fun a => [.param a]) ∧
    Compared Assignment.spanlessEq Assignment.spannedEq Assignment.agree Assignment.map
      (fun a => [.assignment a]) ∧
    Compared LoopHead.spanlessEq LoopHead.spannedEq LoopHead.agree LoopHead.map
      LoopHead.elements ∧
    Compared Clause.spanlessEq Clause.spannedEq Clause.agree Clause.map (fun c => [.clause c]) := by
  refine ⟨.of_element .item ?_ ?_ ?_ Item.spanlessEq_eq Item.spannedEq_eq,
    .of_element .stmt ?_ ?_ ?_ Stmt.spanlessEq_eq Stmt.spannedEq_eq,
    .of_element .expr ?_ ?_ ?_ Expr.spanlessEq_eq Expr.spannedEq_eq,
    .of_element .arg ?_ ?_ ?_ Arg.spanlessEq_eq Arg.spannedEq_eq,
    .of_element .param ?_ ?_ ?_ Param.spanlessEq_eq Param.spannedEq_eq,
    .of_element .assignment ?_ ?_ ?_ Assignment.spanlessEq_eq Assignment.spannedEq_eq,
    compared_loopHead, .of_element .clause ?_ ?_ ?_ Clause.spanlessEq_eq Clause.spannedEq_eq⟩
  all_goals intros
  all_goals first | rfl | simp

end
end Scad
