import Scad.Program.Agree

/-!
# Two equalities

Parts of programs are compared in two ways, with the places of everything and without looking at
any. Each of the two is written out here on its own: the one never touches a span, and the other
asks at every part whether the spans are equal. Numbers are compared as numbers in both. The
recursion is on the left part, so that the comparisons can be evaluated.
-/

namespace Scad

/-! ## Without spans -/

def Name.spanlessEq (a b : Name) : Bool := a.text == b.text

mutual

def Expr.spanlessEq : Expr → Expr → Bool
  | .literal v _, .literal v' _ => v.agree v'
  | .ident n, .ident n' => n.spanlessEq n'
  | .special n, .special n' => n.spanlessEq n'
  | .call f as _, .call f' as' _ => f.spanlessEq f' && Arg.spanlessEqAll as as'
  | .index b i _, .index b' i' _ => b.spanlessEq b' && i.spanlessEq i'
  | .member b n _, .member b' n' _ => b.spanlessEq b' && n.spanlessEq n'
  | .unary o a _, .unary o' a' _ => o == o' && a.spanlessEq a'
  | .binary o a b _, .binary o' a' b' _ => o == o' && a.spanlessEq a' && b.spanlessEq b'
  | .ternary c a b _, .ternary c' a' b' _ =>
    c.spanlessEq c' && a.spanlessEq a' && b.spanlessEq b'
  | .paren a _, .paren a' _ => a.spanlessEq a'
  | .letIn bs a _, .letIn bs' a' _ => Assignment.spanlessEqAll bs bs' && a.spanlessEq a'
  | .guarded g as a _, .guarded g' as' a' _ =>
    g == g' && Arg.spanlessEqAll as as' && Expr.spanlessEqOption a a'
  | .list es _, .list es' _ => Expr.spanlessEqAll es es'
  | .range a b c _, .range a' b' c' _ =>
    a.spanlessEq a' && Expr.spanlessEqOption b b' && c.spanlessEq c'
  | .function ps a _, .function ps' a' _ => Param.spanlessEqAll ps ps' && a.spanlessEq a'
  | .each a _, .each a' _ => a.spanlessEq a'
  | .comprehension h cs a _, .comprehension h' cs' a' _ =>
    h.spanlessEq h' && Clause.spanlessEqAll cs cs' && a.spanlessEq a'
  | .choice c a b _, .choice c' a' b' _ =>
    c.spanlessEq c' && a.spanlessEq a' && Expr.spanlessEqOption b b'
  | _, _ => false
termination_by structural x => x

def Expr.spanlessEqOption : Option Expr → Option Expr → Bool
  | some a, some b => a.spanlessEq b
  | none, none => true
  | _, _ => false
termination_by structural x => x

def Expr.spanlessEqAll : List Expr → List Expr → Bool
  | a :: as, b :: bs => a.spanlessEq b && Expr.spanlessEqAll as bs
  | [], [] => true
  | _, _ => false
termination_by structural x => x

def Arg.spanlessEq : Arg → Arg → Bool
  | .positional a, .positional b => a.spanlessEq b
  | .named n a _, .named n' b _ => n.spanlessEq n' && a.spanlessEq b
  | _, _ => false
termination_by structural x => x

def Arg.spanlessEqAll : List Arg → List Arg → Bool
  | a :: as, b :: bs => a.spanlessEq b && Arg.spanlessEqAll as bs
  | [], [] => true
  | _, _ => false
termination_by structural x => x

def Assignment.spanlessEq : Assignment → Assignment → Bool
  | .mk n a _, .mk n' b _ => n.spanlessEq n' && a.spanlessEq b
termination_by structural x => x

def Assignment.spanlessEqAll : List Assignment → List Assignment → Bool
  | a :: as, b :: bs => a.spanlessEq b && Assignment.spanlessEqAll as bs
  | [], [] => true
  | _, _ => false
termination_by structural x => x

def Param.spanlessEq : Param → Param → Bool
  | .mk n a _, .mk n' b _ => n.spanlessEq n' && Expr.spanlessEqOption a b
termination_by structural x => x

def Param.spanlessEqAll : List Param → List Param → Bool
  | a :: as, b :: bs => a.spanlessEq b && Param.spanlessEqAll as bs
  | [], [] => true
  | _, _ => false
termination_by structural x => x

def LoopHead.spanlessEq : LoopHead → LoopHead → Bool
  | .iterating bs, .iterating bs' => Assignment.spanlessEqAll bs bs'
  | .counting is c us, .counting is' c' us' =>
    Assignment.spanlessEqAll is is' && c.spanlessEq c' && Assignment.spanlessEqAll us us'
  | _, _ => false
termination_by structural x => x

def Clause.spanlessEq : Clause → Clause → Bool
  | .loop h _, .loop h' _ => h.spanlessEq h'
  | .filter c _, .filter c' _ => c.spanlessEq c'
  | .letIn bs _, .letIn bs' _ => Assignment.spanlessEqAll bs bs'
  | _, _ => false
termination_by structural x => x

def Clause.spanlessEqAll : List Clause → List Clause → Bool
  | a :: as, b :: bs => a.spanlessEq b && Clause.spanlessEqAll as bs
  | [], [] => true
  | _, _ => false
termination_by structural x => x

end

mutual

def Stmt.spanlessEq : Stmt → Stmt → Bool
  | .call n as t _, .call n' as' t' _ =>
    n.spanlessEq n' && Arg.spanlessEqAll as as' && t.spanlessEq t'
  | .block is _, .block is' _ => Item.spanlessEqAll is is'
  | .bound k bs t _, .bound k' bs' t' _ =>
    k == k' && Assignment.spanlessEqAll bs bs' && t.spanlessEq t'
  | .choice c a b _, .choice c' a' b' _ =>
    c.spanlessEq c' && a.spanlessEq a' && Stmt.spanlessEqOption b b'
  | .file k p _, .file k' p' _ => k == k' && p == p'
  | .assert as t _, .assert as' t' _ => Arg.spanlessEqAll as as' && t.spanlessEq t'
  | .modified m t _, .modified m' t' _ => m == m' && t.spanlessEq t'
  | .empty _, .empty _ => true
  | _, _ => false
termination_by structural x => x

def Stmt.spanlessEqOption : Option Stmt → Option Stmt → Bool
  | some a, some b => a.spanlessEq b
  | none, none => true
  | _, _ => false
termination_by structural x => x

def Item.spanlessEq : Item → Item → Bool
  | .moduleDef n ps is _, .moduleDef n' ps' is' _ =>
    n.spanlessEq n' && Param.spanlessEqAll ps ps' && Item.spanlessEqAll is is'
  | .functionDef n ps a _, .functionDef n' ps' a' _ =>
    n.spanlessEq n' && Param.spanlessEqAll ps ps' && a.spanlessEq a'
  | .variableDef n a _, .variableDef n' a' _ => n.spanlessEq n' && a.spanlessEq a'
  | .stmt t, .stmt t' => t.spanlessEq t'
  | _, _ => false
termination_by structural x => x

def Item.spanlessEqAll : List Item → List Item → Bool
  | a :: as, b :: bs => a.spanlessEq b && Item.spanlessEqAll as bs
  | [], [] => true
  | _, _ => false
termination_by structural x => x

end

/-! ## With spans -/

def Name.spannedEq (a b : Name) : Bool := a.text == b.text && a.span == b.span

mutual

def Expr.spannedEq : Expr → Expr → Bool
  | .literal v s, .literal v' s' => v.agree v' && s == s'
  | .ident n, .ident n' => n.spannedEq n'
  | .special n, .special n' => n.spannedEq n'
  | .call f as s, .call f' as' s' => s == s' && Arg.spannedEqAll as as' && f.spannedEq f'
  | .index b i s, .index b' i' s' => s == s' && i.spannedEq i' && b.spannedEq b'
  | .member b n s, .member b' n' s' => s == s' && n.spannedEq n' && b.spannedEq b'
  | .unary o a s, .unary o' a' s' => o == o' && s == s' && a.spannedEq a'
  | .binary o a b s, .binary o' a' b' s' =>
    o == o' && s == s' && a.spannedEq a' && b.spannedEq b'
  | .ternary c a b s, .ternary c' a' b' s' =>
    s == s' && c.spannedEq c' && a.spannedEq a' && b.spannedEq b'
  | .paren a s, .paren a' s' => s == s' && a.spannedEq a'
  | .letIn bs a s, .letIn bs' a' s' =>
    s == s' && Assignment.spannedEqAll bs bs' && a.spannedEq a'
  | .guarded g as a s, .guarded g' as' a' s' =>
    g == g' && s == s' && Arg.spannedEqAll as as' && Expr.spannedEqOption a a'
  | .list es s, .list es' s' => s == s' && Expr.spannedEqAll es es'
  | .range a b c s, .range a' b' c' s' =>
    s == s' && a.spannedEq a' && Expr.spannedEqOption b b' && c.spannedEq c'
  | .function ps a s, .function ps' a' s' =>
    s == s' && Param.spannedEqAll ps ps' && a.spannedEq a'
  | .each a s, .each a' s' => s == s' && a.spannedEq a'
  | .comprehension h cs a s, .comprehension h' cs' a' s' =>
    s == s' && h.spannedEq h' && Clause.spannedEqAll cs cs' && a.spannedEq a'
  | .choice c a b s, .choice c' a' b' s' =>
    s == s' && c.spannedEq c' && a.spannedEq a' && Expr.spannedEqOption b b'
  | _, _ => false
termination_by structural x => x

def Expr.spannedEqOption : Option Expr → Option Expr → Bool
  | some a, some b => a.spannedEq b
  | none, none => true
  | _, _ => false
termination_by structural x => x

def Expr.spannedEqAll : List Expr → List Expr → Bool
  | a :: as, b :: bs => a.spannedEq b && Expr.spannedEqAll as bs
  | [], [] => true
  | _, _ => false
termination_by structural x => x

def Arg.spannedEq : Arg → Arg → Bool
  | .positional a, .positional b => a.spannedEq b
  | .named n a s, .named n' b s' => n.spannedEq n' && a.spannedEq b && s == s'
  | _, _ => false
termination_by structural x => x

def Arg.spannedEqAll : List Arg → List Arg → Bool
  | a :: as, b :: bs => a.spannedEq b && Arg.spannedEqAll as bs
  | [], [] => true
  | _, _ => false
termination_by structural x => x

def Assignment.spannedEq : Assignment → Assignment → Bool
  | .mk n a s, .mk n' b s' => n.spannedEq n' && a.spannedEq b && s == s'
termination_by structural x => x

def Assignment.spannedEqAll : List Assignment → List Assignment → Bool
  | a :: as, b :: bs => a.spannedEq b && Assignment.spannedEqAll as bs
  | [], [] => true
  | _, _ => false
termination_by structural x => x

def Param.spannedEq : Param → Param → Bool
  | .mk n a s, .mk n' b s' => n.spannedEq n' && Expr.spannedEqOption a b && s == s'
termination_by structural x => x

def Param.spannedEqAll : List Param → List Param → Bool
  | a :: as, b :: bs => a.spannedEq b && Param.spannedEqAll as bs
  | [], [] => true
  | _, _ => false
termination_by structural x => x

def LoopHead.spannedEq : LoopHead → LoopHead → Bool
  | .iterating bs, .iterating bs' => Assignment.spannedEqAll bs bs'
  | .counting is c us, .counting is' c' us' =>
    Assignment.spannedEqAll is is' && c.spannedEq c' && Assignment.spannedEqAll us us'
  | _, _ => false
termination_by structural x => x

def Clause.spannedEq : Clause → Clause → Bool
  | .loop h s, .loop h' s' => h.spannedEq h' && s == s'
  | .filter c s, .filter c' s' => c.spannedEq c' && s == s'
  | .letIn bs s, .letIn bs' s' => Assignment.spannedEqAll bs bs' && s == s'
  | _, _ => false
termination_by structural x => x

def Clause.spannedEqAll : List Clause → List Clause → Bool
  | a :: as, b :: bs => a.spannedEq b && Clause.spannedEqAll as bs
  | [], [] => true
  | _, _ => false
termination_by structural x => x

end

mutual

def Stmt.spannedEq : Stmt → Stmt → Bool
  | .call n as t s, .call n' as' t' s' =>
    n.spannedEq n' && Arg.spannedEqAll as as' && t.spannedEq t' && s == s'
  | .block is s, .block is' s' => Item.spannedEqAll is is' && s == s'
  | .bound k bs t s, .bound k' bs' t' s' =>
    k == k' && Assignment.spannedEqAll bs bs' && t.spannedEq t' && s == s'
  | .choice c a b s, .choice c' a' b' s' =>
    c.spannedEq c' && a.spannedEq a' && Stmt.spannedEqOption b b' && s == s'
  | .file k p s, .file k' p' s' => k == k' && p == p' && s == s'
  | .assert as t s, .assert as' t' s' => Arg.spannedEqAll as as' && t.spannedEq t' && s == s'
  | .modified m t s, .modified m' t' s' => m == m' && t.spannedEq t' && s == s'
  | .empty s, .empty s' => s == s'
  | _, _ => false
termination_by structural x => x

def Stmt.spannedEqOption : Option Stmt → Option Stmt → Bool
  | some a, some b => a.spannedEq b
  | none, none => true
  | _, _ => false
termination_by structural x => x

def Item.spannedEq : Item → Item → Bool
  | .moduleDef n ps is s, .moduleDef n' ps' is' s' =>
    n.spannedEq n' && Param.spannedEqAll ps ps' && Item.spannedEqAll is is' && s == s'
  | .functionDef n ps a s, .functionDef n' ps' a' s' =>
    n.spannedEq n' && Param.spannedEqAll ps ps' && a.spannedEq a' && s == s'
  | .variableDef n a s, .variableDef n' a' s' => n.spannedEq n' && a.spannedEq a' && s == s'
  | .stmt t, .stmt t' => t.spannedEq t'
  | _, _ => false
termination_by structural x => x

def Item.spannedEqAll : List Item → List Item → Bool
  | a :: as, b :: bs => a.spannedEq b && Item.spannedEqAll as bs
  | [], [] => true
  | _, _ => false
termination_by structural x => x

end

end Scad
