import Scad.Program.Item

/-!
# Comparing programs

Two parts of programs agree if they are built alike from the same names and values. What counts as
the same place is left open: with equality of spans the relation is equality, and with a relation
that always holds it ignores where things stand. Numbers are compared as numbers, so that a NaN does
not even agree with itself.
-/

namespace Scad

/-- How the places of two parts are compared. -/
abbrev Places := Span → Span → Bool

/-- Spans have to be equal, with the texts they keep. -/
def Places.exact : Places := fun s t => s == t

/-- Any two places will do. -/
def Places.ignored : Places := fun _ _ => true

def Name.agree (w : Places) (a b : Name) : Bool := a.text == b.text && w a.span b.span

def Literal.agree : Literal → Literal → Bool
  | number x, number y => x.equal y
  | string s, string t => s == t
  | bool a, bool b => a == b
  | undef, undef => true
  | _, _ => false

section

variable (w : Places)

mutual

def Expr.agree : Expr → Expr → Bool
  | .literal v s, e =>
    match e with
    | .literal v' s' => v.agree v' && w s s'
    | _ => false
  | .ident n, e =>
    match e with
    | .ident n' => n.agree w n'
    | _ => false
  | .special n, e =>
    match e with
    | .special n' => n.agree w n'
    | _ => false
  | .call f as s, e =>
    match e with
    | .call f' as' s' => w s s' && f.agree f' && Arg.agreeAll as as'
    | _ => false
  | .index b i s, e =>
    match e with
    | .index b' i' s' => w s s' && b.agree b' && i.agree i'
    | _ => false
  | .member b n s, e =>
    match e with
    | .member b' n' s' => w s s' && n.agree w n' && b.agree b'
    | _ => false
  | .unary o a s, e =>
    match e with
    | .unary o' a' s' => w s s' && o == o' && a.agree a'
    | _ => false
  | .binary o a b s, e =>
    match e with
    | .binary o' a' b' s' => w s s' && o == o' && a.agree a' && b.agree b'
    | _ => false
  | .ternary c a b s, e =>
    match e with
    | .ternary c' a' b' s' => w s s' && c.agree c' && a.agree a' && b.agree b'
    | _ => false
  | .paren a s, e =>
    match e with
    | .paren a' s' => w s s' && a.agree a'
    | _ => false
  | .letIn bs a s, e =>
    match e with
    | .letIn bs' a' s' => w s s' && Assignment.agreeAll bs bs' && a.agree a'
    | _ => false
  | .guarded g as a s, e =>
    match e with
    | .guarded g' as' a' s' =>
      w s s' && g == g' && Arg.agreeAll as as' && Expr.agreeOption a a'
    | _ => false
  | .list es s, e =>
    match e with
    | .list es' s' => w s s' && Expr.agreeAll es es'
    | _ => false
  | .range a b c s, e =>
    match e with
    | .range a' b' c' s' => w s s' && a.agree a' && Expr.agreeOption b b' && c.agree c'
    | _ => false
  | .function ps a s, e =>
    match e with
    | .function ps' a' s' => w s s' && Param.agreeAll ps ps' && a.agree a'
    | _ => false
  | .each a s, e =>
    match e with
    | .each a' s' => w s s' && a.agree a'
    | _ => false
  | .comprehension h cs a s, e =>
    match e with
    | .comprehension h' cs' a' s' =>
      w s s' && h.agree h' && Clause.agreeAll cs cs' && a.agree a'
    | _ => false
  | .choice c a b s, e =>
    match e with
    | .choice c' a' b' s' => w s s' && c.agree c' && a.agree a' && Expr.agreeOption b b'
    | _ => false

def Expr.agreeOption : Option Expr → Option Expr → Bool
  | none, e => e.isNone
  | some a, e =>
    match e with
    | some b => a.agree b
    | none => false

def Expr.agreeAll : List Expr → List Expr → Bool
  | [], bs => bs.isEmpty
  | a :: as, bs =>
    match bs with
    | b :: bs => a.agree b && Expr.agreeAll as bs
    | [] => false

def Arg.agree : Arg → Arg → Bool
  | .positional a, e =>
    match e with
    | .positional b => a.agree b
    | .named _ _ _ => false
  | .named n a s, e =>
    match e with
    | .named n' b s' => w s s' && n.agree w n' && a.agree b
    | .positional _ => false

def Arg.agreeAll : List Arg → List Arg → Bool
  | [], bs => bs.isEmpty
  | a :: as, bs =>
    match bs with
    | b :: bs => a.agree b && Arg.agreeAll as bs
    | [] => false

def Assignment.agree : Assignment → Assignment → Bool
  | .mk n a s, ⟨n', b, s'⟩ => w s s' && n.agree w n' && a.agree b

def Assignment.agreeAll : List Assignment → List Assignment → Bool
  | [], bs => bs.isEmpty
  | a :: as, bs =>
    match bs with
    | b :: bs => a.agree b && Assignment.agreeAll as bs
    | [] => false

def Param.agree : Param → Param → Bool
  | .mk n a s, ⟨n', b, s'⟩ => w s s' && n.agree w n' && Expr.agreeOption a b

def Param.agreeAll : List Param → List Param → Bool
  | [], bs => bs.isEmpty
  | a :: as, bs =>
    match bs with
    | b :: bs => a.agree b && Param.agreeAll as bs
    | [] => false

def LoopHead.agree : LoopHead → LoopHead → Bool
  | .iterating bs, e =>
    match e with
    | .iterating bs' => Assignment.agreeAll bs bs'
    | .counting _ _ _ => false
  | .counting is c us, e =>
    match e with
    | .counting is' c' us' =>
      Assignment.agreeAll is is' && c.agree c' && Assignment.agreeAll us us'
    | .iterating _ => false

def Clause.agree : Clause → Clause → Bool
  | .loop h s, e =>
    match e with
    | .loop h' s' => w s s' && h.agree h'
    | _ => false
  | .filter c s, e =>
    match e with
    | .filter c' s' => w s s' && c.agree c'
    | _ => false
  | .letIn bs s, e =>
    match e with
    | .letIn bs' s' => w s s' && Assignment.agreeAll bs bs'
    | _ => false

def Clause.agreeAll : List Clause → List Clause → Bool
  | [], bs => bs.isEmpty
  | a :: as, bs =>
    match bs with
    | b :: bs => a.agree b && Clause.agreeAll as bs
    | [] => false

end

mutual

def Stmt.agree : Stmt → Stmt → Bool
  | .call n as t s, e =>
    match e with
    | .call n' as' t' s' => w s s' && n.agree w n' && Arg.agreeAll w as as' && t.agree t'
    | _ => false
  | .block is s, e =>
    match e with
    | .block is' s' => w s s' && Item.agreeAll is is'
    | _ => false
  | .bound k bs t s, e =>
    match e with
    | .bound k' bs' t' s' => w s s' && k == k' && Assignment.agreeAll w bs bs' && t.agree t'
    | _ => false
  | .choice c a b s, e =>
    match e with
    | .choice c' a' b' s' => w s s' && c.agree w c' && a.agree a' && Stmt.agreeOption b b'
    | _ => false
  | .file k p s, e =>
    match e with
    | .file k' p' s' => w s s' && k == k' && p == p'
    | _ => false
  | .assert as t s, e =>
    match e with
    | .assert as' t' s' => w s s' && Arg.agreeAll w as as' && t.agree t'
    | _ => false
  | .modified m t s, e =>
    match e with
    | .modified m' t' s' => w s s' && m == m' && t.agree t'
    | _ => false
  | .empty s, e =>
    match e with
    | .empty s' => w s s'
    | _ => false

def Stmt.agreeOption : Option Stmt → Option Stmt → Bool
  | none, e => e.isNone
  | some a, e =>
    match e with
    | some b => a.agree b
    | none => false

def Item.agree : Item → Item → Bool
  | .moduleDef n ps is s, e =>
    match e with
    | .moduleDef n' ps' is' s' =>
      w s s' && n.agree w n' && Param.agreeAll w ps ps' && Item.agreeAll is is'
    | _ => false
  | .functionDef n ps a s, e =>
    match e with
    | .functionDef n' ps' a' s' =>
      w s s' && n.agree w n' && Param.agreeAll w ps ps' && a.agree w a'
    | _ => false
  | .variableDef n a s, e =>
    match e with
    | .variableDef n' a' s' => w s s' && n.agree w n' && a.agree w a'
    | _ => false
  | .stmt t, e =>
    match e with
    | .stmt t' => t.agree t'
    | _ => false

def Item.agreeAll : List Item → List Item → Bool
  | [], bs => bs.isEmpty
  | a :: as, bs =>
    match bs with
    | b :: bs => a.agree b && Item.agreeAll as bs
    | [] => false

end

end

end Scad
