import Scad.Program.Equality

/-!
# The two equalities are agreement

Agreement with nothing asked of places is equality without spans, and agreement in the same places
is equality with them. Each comparison follows the definition that it is about, constructor by
constructor.
-/

namespace Scad

attribute [local simp] Name.agree Expr.agree Expr.agreeOption Expr.agreeAll Arg.agree Arg.agreeAll
  Assignment.agree Assignment.agreeAll Param.agree Param.agreeAll LoopHead.agree Clause.agree
  Clause.agreeAll Stmt.agree Stmt.agreeOption Item.agree Item.agreeAll

/-! ## Without spans -/

section

attribute [local simp] Name.spanlessEq Expr.spanlessEq Expr.spanlessEqOption Expr.spanlessEqAll
  Arg.spanlessEq Arg.spanlessEqAll Assignment.spanlessEq Assignment.spanlessEqAll Param.spanlessEq
  Param.spanlessEqAll LoopHead.spanlessEq Clause.spanlessEq Clause.spanlessEqAll Stmt.spanlessEq
  Stmt.spanlessEqOption Item.spanlessEq Item.spanlessEqAll Places.ignored

mutual

theorem Expr.spanlessEq_eq (a b : Expr) : a.spanlessEq b = a.agree .ignored b := by
  cases a with
  | literal | ident | special => cases b <;> simp
  | call f as => cases b <;> simp [f.spanlessEq_eq, Arg.spanlessEqAll_eq as]
  | index x i => cases b <;> simp [x.spanlessEq_eq, i.spanlessEq_eq]
  | member x => cases b <;> simp [x.spanlessEq_eq, Bool.and_comm]
  | unary _ x | paren x | each x => cases b <;> simp [x.spanlessEq_eq]
  | binary _ x y => cases b <;> simp [x.spanlessEq_eq, y.spanlessEq_eq]
  | ternary c x y => cases b <;> simp [c.spanlessEq_eq, x.spanlessEq_eq, y.spanlessEq_eq]
  | letIn bs x => cases b <;> simp [Assignment.spanlessEqAll_eq bs, x.spanlessEq_eq]
  | guarded _ as x => cases b <;> simp [Arg.spanlessEqAll_eq as, Expr.spanlessEqOption_eq x]
  | list es => cases b <;> simp [Expr.spanlessEqAll_eq es]
  | range x y z => cases b <;> simp [x.spanlessEq_eq, Expr.spanlessEqOption_eq y, z.spanlessEq_eq]
  | function ps x => cases b <;> simp [Param.spanlessEqAll_eq ps, x.spanlessEq_eq]
  | comprehension h cs x =>
    cases b <;> simp [h.spanlessEq_eq, Clause.spanlessEqAll_eq cs, x.spanlessEq_eq]
  | choice c x y => cases b <;> simp [c.spanlessEq_eq, x.spanlessEq_eq, Expr.spanlessEqOption_eq y]
termination_by structural a

theorem Expr.spanlessEqOption_eq (a b : Option Expr) :
    Expr.spanlessEqOption a b = Expr.agreeOption .ignored a b := by
  cases a with
  | none => cases b <;> simp
  | some a => cases b <;> simp [a.spanlessEq_eq]
termination_by structural a

theorem Expr.spanlessEqAll_eq (as bs : List Expr) :
    Expr.spanlessEqAll as bs = Expr.agreeAll .ignored as bs := by
  cases as with
  | nil => cases bs <;> simp
  | cons a as => cases bs <;> simp [a.spanlessEq_eq, Expr.spanlessEqAll_eq as]
termination_by structural as

theorem Arg.spanlessEq_eq (a b : Arg) : a.spanlessEq b = a.agree .ignored b := by
  cases a with
  | positional x | named _ x => cases b <;> simp [x.spanlessEq_eq]
termination_by structural a

theorem Arg.spanlessEqAll_eq (as bs : List Arg) :
    Arg.spanlessEqAll as bs = Arg.agreeAll .ignored as bs := by
  cases as with
  | nil => cases bs <;> simp
  | cons a as => cases bs <;> simp [a.spanlessEq_eq, Arg.spanlessEqAll_eq as]
termination_by structural as

theorem Assignment.spanlessEq_eq (a b : Assignment) : a.spanlessEq b = a.agree .ignored b := by
  cases a with
  | mk _ x => cases b; simp [x.spanlessEq_eq]
termination_by structural a

theorem Assignment.spanlessEqAll_eq (as bs : List Assignment) :
    Assignment.spanlessEqAll as bs = Assignment.agreeAll .ignored as bs := by
  cases as with
  | nil => cases bs <;> simp
  | cons a as => cases bs <;> simp [a.spanlessEq_eq, Assignment.spanlessEqAll_eq as]
termination_by structural as

theorem Param.spanlessEq_eq (a b : Param) : a.spanlessEq b = a.agree .ignored b := by
  cases a with
  | mk _ x => cases b; simp [Expr.spanlessEqOption_eq x]
termination_by structural a

theorem Param.spanlessEqAll_eq (as bs : List Param) :
    Param.spanlessEqAll as bs = Param.agreeAll .ignored as bs := by
  cases as with
  | nil => cases bs <;> simp
  | cons a as => cases bs <;> simp [a.spanlessEq_eq, Param.spanlessEqAll_eq as]
termination_by structural as

theorem LoopHead.spanlessEq_eq (a b : LoopHead) : a.spanlessEq b = a.agree .ignored b := by
  cases a with
  | iterating bs => cases b <;> simp [Assignment.spanlessEqAll_eq bs]
  | counting is c us =>
    cases b <;> simp [Assignment.spanlessEqAll_eq is, c.spanlessEq_eq,
      Assignment.spanlessEqAll_eq us]
termination_by structural a

theorem Clause.spanlessEq_eq (a b : Clause) : a.spanlessEq b = a.agree .ignored b := by
  cases a with
  | loop h => cases b <;> simp [h.spanlessEq_eq]
  | filter c => cases b <;> simp [c.spanlessEq_eq]
  | letIn bs => cases b <;> simp [Assignment.spanlessEqAll_eq bs]
termination_by structural a

theorem Clause.spanlessEqAll_eq (as bs : List Clause) :
    Clause.spanlessEqAll as bs = Clause.agreeAll .ignored as bs := by
  cases as with
  | nil => cases bs <;> simp
  | cons a as => cases bs <;> simp [a.spanlessEq_eq, Clause.spanlessEqAll_eq as]
termination_by structural as

end

mutual

theorem Stmt.spanlessEq_eq (a b : Stmt) : a.spanlessEq b = a.agree .ignored b := by
  cases a with
  | call _ as t => cases b <;> simp [Arg.spanlessEqAll_eq as, t.spanlessEq_eq]
  | block is => cases b <;> simp [Item.spanlessEqAll_eq is]
  | bound _ bs t => cases b <;> simp [Assignment.spanlessEqAll_eq bs, t.spanlessEq_eq]
  | choice c t u => cases b <;> simp [c.spanlessEq_eq, t.spanlessEq_eq, Stmt.spanlessEqOption_eq u]
  | file | empty => cases b <;> simp
  | assert as t => cases b <;> simp [Arg.spanlessEqAll_eq as, t.spanlessEq_eq]
  | modified _ t => cases b <;> simp [t.spanlessEq_eq]
termination_by structural a

theorem Stmt.spanlessEqOption_eq (a b : Option Stmt) :
    Stmt.spanlessEqOption a b = Stmt.agreeOption .ignored a b := by
  cases a with
  | none => cases b <;> simp
  | some a => cases b <;> simp [a.spanlessEq_eq]
termination_by structural a

theorem Item.spanlessEq_eq (a b : Item) : a.spanlessEq b = a.agree .ignored b := by
  cases a with
  | moduleDef _ ps is => cases b <;> simp [Param.spanlessEqAll_eq ps, Item.spanlessEqAll_eq is]
  | functionDef _ ps x => cases b <;> simp [Param.spanlessEqAll_eq ps, x.spanlessEq_eq]
  | variableDef _ x => cases b <;> simp [x.spanlessEq_eq]
  | stmt t => cases b <;> simp [t.spanlessEq_eq]
termination_by structural a

theorem Item.spanlessEqAll_eq (as bs : List Item) :
    Item.spanlessEqAll as bs = Item.agreeAll .ignored as bs := by
  cases as with
  | nil => cases bs <;> simp
  | cons a as => cases bs <;> simp [a.spanlessEq_eq, Item.spanlessEqAll_eq as]
termination_by structural as

end

end

/-! ## With spans -/

section

attribute [local simp] Name.spannedEq Expr.spannedEq Expr.spannedEqOption Expr.spannedEqAll
  Arg.spannedEq Arg.spannedEqAll Assignment.spannedEq Assignment.spannedEqAll Param.spannedEq
  Param.spannedEqAll LoopHead.spannedEq Clause.spannedEq Clause.spannedEqAll Stmt.spannedEq
  Stmt.spannedEqOption Item.spannedEq Item.spannedEqAll Places.exact

-- agreement comes to the parts in another order
attribute [local simp] Bool.and_assoc Bool.and_comm Bool.and_left_comm

mutual

theorem Expr.spannedEq_eq (a b : Expr) : a.spannedEq b = a.agree .exact b := by
  cases a with
  | literal | ident | special => cases b <;> simp
  | call f as => cases b <;> simp [f.spannedEq_eq, Arg.spannedEqAll_eq as]
  | index x i => cases b <;> simp [x.spannedEq_eq, i.spannedEq_eq]
  | member x => cases b <;> simp [x.spannedEq_eq]
  | unary _ x | paren x | each x => cases b <;> simp [x.spannedEq_eq]
  | binary _ x y => cases b <;> simp [x.spannedEq_eq, y.spannedEq_eq]
  | ternary c x y => cases b <;> simp [c.spannedEq_eq, x.spannedEq_eq, y.spannedEq_eq]
  | letIn bs x => cases b <;> simp [Assignment.spannedEqAll_eq bs, x.spannedEq_eq]
  | guarded _ as x => cases b <;> simp [Arg.spannedEqAll_eq as, Expr.spannedEqOption_eq x]
  | list es => cases b <;> simp [Expr.spannedEqAll_eq es]
  | range x y z => cases b <;> simp [x.spannedEq_eq, Expr.spannedEqOption_eq y, z.spannedEq_eq]
  | function ps x => cases b <;> simp [Param.spannedEqAll_eq ps, x.spannedEq_eq]
  | comprehension h cs x =>
    cases b <;> simp [h.spannedEq_eq, Clause.spannedEqAll_eq cs, x.spannedEq_eq]
  | choice c x y => cases b <;> simp [c.spannedEq_eq, x.spannedEq_eq, Expr.spannedEqOption_eq y]
termination_by structural a

theorem Expr.spannedEqOption_eq (a b : Option Expr) :
    Expr.spannedEqOption a b = Expr.agreeOption .exact a b := by
  cases a with
  | none => cases b <;> simp
  | some a => cases b <;> simp [a.spannedEq_eq]
termination_by structural a

theorem Expr.spannedEqAll_eq (as bs : List Expr) :
    Expr.spannedEqAll as bs = Expr.agreeAll .exact as bs := by
  cases as with
  | nil => cases bs <;> simp
  | cons a as => cases bs <;> simp [a.spannedEq_eq, Expr.spannedEqAll_eq as]
termination_by structural as

theorem Arg.spannedEq_eq (a b : Arg) : a.spannedEq b = a.agree .exact b := by
  cases a with
  | positional x | named _ x => cases b <;> simp [x.spannedEq_eq]
termination_by structural a

theorem Arg.spannedEqAll_eq (as bs : List Arg) :
    Arg.spannedEqAll as bs = Arg.agreeAll .exact as bs := by
  cases as with
  | nil => cases bs <;> simp
  | cons a as => cases bs <;> simp [a.spannedEq_eq, Arg.spannedEqAll_eq as]
termination_by structural as

theorem Assignment.spannedEq_eq (a b : Assignment) : a.spannedEq b = a.agree .exact b := by
  cases a with
  | mk _ x => cases b; simp [x.spannedEq_eq]
termination_by structural a

theorem Assignment.spannedEqAll_eq (as bs : List Assignment) :
    Assignment.spannedEqAll as bs = Assignment.agreeAll .exact as bs := by
  cases as with
  | nil => cases bs <;> simp
  | cons a as => cases bs <;> simp [a.spannedEq_eq, Assignment.spannedEqAll_eq as]
termination_by structural as

theorem Param.spannedEq_eq (a b : Param) : a.spannedEq b = a.agree .exact b := by
  cases a with
  | mk _ x => cases b; simp [Expr.spannedEqOption_eq x]
termination_by structural a

theorem Param.spannedEqAll_eq (as bs : List Param) :
    Param.spannedEqAll as bs = Param.agreeAll .exact as bs := by
  cases as with
  | nil => cases bs <;> simp
  | cons a as => cases bs <;> simp [a.spannedEq_eq, Param.spannedEqAll_eq as]
termination_by structural as

theorem LoopHead.spannedEq_eq (a b : LoopHead) : a.spannedEq b = a.agree .exact b := by
  cases a with
  | iterating bs => cases b <;> simp [Assignment.spannedEqAll_eq bs]
  | counting is c us =>
    cases b <;> simp [Assignment.spannedEqAll_eq is, c.spannedEq_eq, Assignment.spannedEqAll_eq us]
termination_by structural a

theorem Clause.spannedEq_eq (a b : Clause) : a.spannedEq b = a.agree .exact b := by
  cases a with
  | loop h => cases b <;> simp [h.spannedEq_eq]
  | filter c => cases b <;> simp [c.spannedEq_eq]
  | letIn bs => cases b <;> simp [Assignment.spannedEqAll_eq bs]
termination_by structural a

theorem Clause.spannedEqAll_eq (as bs : List Clause) :
    Clause.spannedEqAll as bs = Clause.agreeAll .exact as bs := by
  cases as with
  | nil => cases bs <;> simp
  | cons a as => cases bs <;> simp [a.spannedEq_eq, Clause.spannedEqAll_eq as]
termination_by structural as

end

mutual

theorem Stmt.spannedEq_eq (a b : Stmt) : a.spannedEq b = a.agree .exact b := by
  cases a with
  | call _ as t => cases b <;> simp [Arg.spannedEqAll_eq as, t.spannedEq_eq]
  | block is => cases b <;> simp [Item.spannedEqAll_eq is]
  | bound _ bs t => cases b <;> simp [Assignment.spannedEqAll_eq bs, t.spannedEq_eq]
  | choice c t u => cases b <;> simp [c.spannedEq_eq, t.spannedEq_eq, Stmt.spannedEqOption_eq u]
  | file | empty => cases b <;> simp
  | assert as t => cases b <;> simp [Arg.spannedEqAll_eq as, t.spannedEq_eq]
  | modified _ t => cases b <;> simp [t.spannedEq_eq]
termination_by structural a

theorem Stmt.spannedEqOption_eq (a b : Option Stmt) :
    Stmt.spannedEqOption a b = Stmt.agreeOption .exact a b := by
  cases a with
  | none => cases b <;> simp
  | some a => cases b <;> simp [a.spannedEq_eq]
termination_by structural a

theorem Item.spannedEq_eq (a b : Item) : a.spannedEq b = a.agree .exact b := by
  cases a with
  | moduleDef _ ps is => cases b <;> simp [Param.spannedEqAll_eq ps, Item.spannedEqAll_eq is]
  | functionDef _ ps x => cases b <;> simp [Param.spannedEqAll_eq ps, x.spannedEq_eq]
  | variableDef _ x => cases b <;> simp [x.spannedEq_eq]
  | stmt t => cases b <;> simp [t.spannedEq_eq]
termination_by structural a

theorem Item.spannedEqAll_eq (as bs : List Item) :
    Item.spannedEqAll as bs = Item.agreeAll .exact as bs := by
  cases as with
  | nil => cases bs <;> simp
  | cons a as => cases bs <;> simp [a.spannedEq_eq, Item.spannedEqAll_eq as]
termination_by structural as

end

end

end Scad
