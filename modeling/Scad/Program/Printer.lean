import Scad.Layout
import Scad.Number.Shortest
import Scad.Program.Item
import Scad.Text.Quoted
import Scad.Token

/-!
# Printing programs

A program is printed in two steps. The first gives the words of the program and what stands between
them; it does not depend on the layout. The second writes them out.
-/

namespace Scad

/-- What a printed program is made of. -/
inductive Piece where
  | word (kind : TokenKind) (text : String)
  | blank
  | newline
  /-- The blanks in front of a line at this depth of nesting. -/
  | indent (depth : Nat)
deriving DecidableEq, Repr

namespace Piece

/-- A token that has only one spelling. -/
def mark (k : TokenKind) : Piece := word k k.text

def text (width : Nat) : Piece → String
  | word _ s => s
  | blank => " "
  | newline => "\n"
  | indent depth => String.ofList (List.replicate (depth * width) ' ')

/-- Lists of pieces with a separator between them. -/
def join (separator : List Piece) : List (List Piece) → List Piece
  | [] => []
  | [p] => p
  | p :: q :: ps => p ++ separator ++ join separator (q :: ps)

/-- A comma and a blank between the parts of a list. -/
def commas (ps : List (List Piece)) : List Piece := join [mark .comma, blank] ps

/-- In parentheses. -/
def parens (ps : List Piece) : List Piece := mark .lparen :: (ps ++ [mark .rparen])

/-- A mark with a blank on either side. -/
def spaced (k : TokenKind) : List Piece := [blank, mark k, blank]

end Piece

open Piece

def Name.pieces (n : Name) : List Piece :=
  [word (if n.isSpecial then .special else .identifier) n.text]

def BinaryOp.token : BinaryOp → TokenKind
  | or => .orOr
  | and => .andAnd
  | eq => .eqEq
  | ne => .bangEq
  | lt => .lt
  | gt => .gt
  | le => .ltEq
  | ge => .gtEq
  | add => .plus
  | sub => .minus
  | mul => .star
  | div => .slash
  | mod => .percent
  | pow => .caret

def UnaryOp.token : UnaryOp → TokenKind
  | not => .bang
  | neg => .minus
  | pos => .plus

def Modifier.token : Modifier → TokenKind
  | disable => .star
  | root => .bang
  | highlight => .hash
  | background => .percent

def Link.token : Link → TokenKind
  | .include => .kwInclude
  | .use => .kwUse

/-- Two of the binders are reserved words, the other two are plain names. -/
def Binder.piece : Binder → Piece
  | loop => mark .kwFor
  | letIn => mark .kwLet
  | intersectionLoop => word .identifier intersectionLoop.text
  | assign => word .identifier assign.text

def Literal.piece : Literal → Piece
  | number x => word .number (String.ofList x.text)
  | string s => word .string (String.ofList (Text.Quoted.encode s.toList))
  | bool true => mark .kwTrue
  | bool false => mark .kwFalse
  | undef => mark .kwUndef

mutual

def Expr.pieces : Expr → List Piece
  | .literal v _ => [v.piece]
  | .ident n => n.pieces
  | .special n => n.pieces
  | .call f as _ => f.pieces ++ parens (commas (Arg.piecesAll as))
  | .index b i _ => b.pieces ++ mark .lbracket :: (i.pieces ++ [mark .rbracket])
  | .member b n _ =>
    -- a point right behind a number would belong to it
    b.pieces ++ (if b.number?.isSome then [blank] else []) ++ mark .dot :: n.pieces
  | .unary o a _ => mark o.token :: a.pieces
  | .binary o a b _ => a.pieces ++ spaced o.token ++ b.pieces
  | .ternary c a b _ =>
    c.pieces ++ spaced .question ++ a.pieces ++ spaced .colon ++ b.pieces
  | .paren a _ => parens a.pieces
  | .letIn bs a _ =>
    mark .kwLet :: blank :: parens (commas (Assignment.piecesAll bs)) ++ blank :: a.pieces
  | .guarded g as a _ =>
    word .identifier g.text :: parens (commas (Arg.piecesAll as)) ++ Expr.piecesBody a
  | .list es _ => mark .lbracket :: (commas (Expr.piecesAll es) ++ [mark .rbracket])
  | .range a b c _ =>
    mark .lbracket ::
      (a.pieces ++ Expr.piecesStep b ++ spaced .colon ++ c.pieces ++ [mark .rbracket])
  | .function ps a _ =>
    mark .kwFunction :: parens (commas (Param.piecesAll ps)) ++ blank :: a.pieces
  | .each a _ => mark .kwEach :: blank :: a.pieces
  | .comprehension h cs a _ => h.pieces ++ Clause.piecesAll cs ++ blank :: a.pieces
  | .choice c a b _ =>
    mark .kwIf :: blank :: parens c.pieces ++ blank :: (a.pieces ++ Expr.piecesElse b)

/-- The expression that an assertion or an echo stands in front of. -/
def Expr.piecesBody : Option Expr → List Piece
  | none => []
  | some a => blank :: a.pieces

/-- The step of a range. -/
def Expr.piecesStep : Option Expr → List Piece
  | none => []
  | some a => spaced .colon ++ a.pieces

/-- The other branch of a choice. -/
def Expr.piecesElse : Option Expr → List Piece
  | none => []
  | some a => blank :: mark .kwElse :: blank :: a.pieces

/-- The value of a parameter that is given no argument. -/
def Expr.piecesDefault : Option Expr → List Piece
  | none => []
  | some a => spaced .assign ++ a.pieces

def Expr.piecesAll : List Expr → List (List Piece)
  | [] => []
  | a :: as => a.pieces :: Expr.piecesAll as

def Arg.pieces : Arg → List Piece
  | .positional a => a.pieces
  | .named n a _ => n.pieces ++ spaced .assign ++ a.pieces

def Arg.piecesAll : List Arg → List (List Piece)
  | [] => []
  | a :: as => a.pieces :: Arg.piecesAll as

def Assignment.pieces : Assignment → List Piece
  | .mk n a _ => n.pieces ++ spaced .assign ++ a.pieces

def Assignment.piecesAll : List Assignment → List (List Piece)
  | [] => []
  | a :: as => a.pieces :: Assignment.piecesAll as

def Param.pieces : Param → List Piece
  | .mk n a _ => n.pieces ++ Expr.piecesDefault a

def Param.piecesAll : List Param → List (List Piece)
  | [] => []
  | a :: as => a.pieces :: Param.piecesAll as

def LoopHead.pieces : LoopHead → List Piece
  | .iterating bs => mark .kwFor :: blank :: parens (commas (Assignment.piecesAll bs))
  | .counting is c us =>
    mark .kwFor :: blank ::
      parens
        (commas (Assignment.piecesAll is) ++ mark .semicolon :: blank ::
          (c.pieces ++ mark .semicolon :: blank :: commas (Assignment.piecesAll us)))

def Clause.pieces : Clause → List Piece
  | .loop h _ => h.pieces
  | .filter c _ => mark .kwIf :: blank :: parens c.pieces
  | .letIn bs _ => mark .kwLet :: blank :: parens (commas (Assignment.piecesAll bs))

/-- All clauses, each with a blank in front. -/
def Clause.piecesAll : List Clause → List Piece
  | [] => []
  | c :: cs => blank :: (c.pieces ++ Clause.piecesAll cs)

end

/-- A block around lines at a depth of nesting; a block without lines stays on one line. -/
def Piece.block (depth : Nat) (lines : List Piece) : List Piece :=
  if lines.isEmpty then [mark .lbrace, mark .rbrace]
  else mark .lbrace :: newline :: (lines ++ [indent depth, mark .rbrace])

/-- What stands between a call and the statement it is applied to. The empty statement is the
semicolon that closes the call. -/
def Piece.tailGap (tail : Stmt) : List Piece := if tail.isEmpty then [] else [blank]

mutual

/-- The pieces of a statement that starts on a line at this depth. -/
def Stmt.pieces (depth : Nat) : Stmt → List Piece
  | .call n as t _ => n.pieces ++ parens (commas (Arg.piecesAll as)) ++ tailGap t ++ t.pieces depth
  | .block is _ => Piece.block depth (Item.lines (depth + 1) is)
  | .bound k bs t _ =>
    k.piece :: blank :: parens (commas (Assignment.piecesAll bs)) ++ blank :: t.pieces depth
  | .choice c a b _ =>
    mark .kwIf :: blank :: parens c.pieces ++ blank ::
      (a.pieces depth ++ Stmt.piecesElse depth b)
  | .file k p _ => [mark k.token, blank, word .path ("<" ++ p ++ ">")]
  | .assert as t _ =>
    word .identifier Guard.assert.text :: parens (commas (Arg.piecesAll as)) ++
      (tailGap t ++ t.pieces depth)
  | .modified k t _ => mark k.token :: t.pieces depth
  | .empty _ => [mark .semicolon]

def Stmt.piecesElse (depth : Nat) : Option Stmt → List Piece
  | none => []
  | some t => blank :: mark .kwElse :: blank :: t.pieces depth

def Item.pieces (depth : Nat) : Item → List Piece
  | .moduleDef n ps is _ =>
    mark .kwModule :: blank :: n.pieces ++ parens (commas (Param.piecesAll ps)) ++ blank ::
      Piece.block depth (Item.lines (depth + 1) is)
  | .functionDef n ps a _ =>
    mark .kwFunction :: blank :: n.pieces ++ parens (commas (Param.piecesAll ps)) ++
      spaced .assign ++ a.pieces ++ [mark .semicolon]
  | .variableDef n a _ => n.pieces ++ spaced .assign ++ a.pieces ++ [mark .semicolon]
  | .stmt t => t.pieces depth

/-- One item to a line. -/
def Item.lines (depth : Nat) : List Item → List Piece
  | [] => []
  | i :: is => indent depth :: (i.pieces depth ++ newline :: Item.lines depth is)

end

/-- The text of a list of items. -/
def printItems (items : List Item) (layout : Layout) : String :=
  let lines := Item.lines 0 items
  let lines :=
    if !layout.finalNewline && lines.getLast? == some newline then lines.dropLast else lines
  String.join (lines.map (Piece.text layout.indent))

end Scad
