import Scad.Grammar.Rule

/-!
# The grammar

One rule for each phrase. A rule decides by the next token, and by the one behind it only where a
name could be the start of several constructs.
-/

namespace Scad.Grammar

open Rule

/-- An expression of any level. -/
def expression : Rule := call (.expr .ternary)

/-! ## Lists of names and values -/

/-- Begins with a name, plain or special; the rule gets the form of the name. -/
def named (rule : Form → Rule) (w : Wanted) : Rule :=
  look fun a =>
    match a.kind with
    | .identifier => rule .identifier
    | .special => rule .specialVariable
    | _ => refuse w

/-- Bindings in parentheses: `(a = 1, b = 2)`. -/
def assignments : Rule := node .assignments [call .bindings]

def bindingList : Rule := all [expect .lparen, as .bindings assignments, closing .rparen]

def binding (name : Form) : Rule :=
  node .assignment [as .name (leaf name), expect .assign, as .value expression]

/-- Bindings up to a closing mark. A comma may follow the last one. -/
def bindings : Rule :=
  look fun a =>
    match a.kind with
    | .rparen | .semicolon | .eof => done
    | _ =>
      seq
        (named binding .bindingName)
        (look fun a => if a.kind = .comma then seq take (call .bindings) else done)

def parameterList : Rule :=
  all [expect .lparen, as .parameters (node .parameters [call .parameters]), closing .rparen]

def parameter (name : Form) : Rule :=
  node .parameter
    [as .name (leaf name),
      look fun a => if a.kind = .assign then seq take (as .default expression) else done]

/-- Parameters up to the closing parenthesis. A comma may follow the last one. -/
def parameters : Rule :=
  look fun a =>
    match a.kind with
    | .rparen | .eof => done
    | _ =>
      seq
        (named parameter .parameterName)
        (look fun a => if a.kind = .comma then seq take (call .parameters) else done)

def argumentList : Rule :=
  all
    [expect .lparen,
      as .arguments
        (node .arguments
          [look fun a =>
            match a.kind with
            | .rparen | .eof => done
            | _ => call .arguments]),
      closing .rparen]

def namedArgument (name : Form) : Rule :=
  node .namedArgument [as .name (leaf name), expect .assign, as .value expression]

/-- A name with `=` behind it names the argument; anything else is a value. -/
def argument : Rule :=
  look fun a =>
    match a.kind, a.second with
    | .identifier, .assign => namedArgument .identifier
    | .special, .assign => namedArgument .specialVariable
    | _, _ => expression

/-- One argument or more. A comma may follow the last one. -/
def arguments : Rule :=
  seq argument
    (look fun a =>
      if a.kind = .comma then
        seq take (look fun a => if a.kind = .rparen then done else call .arguments)
      else done)

/-! ## Statements -/

/-- What closes a call: a semicolon, or the statement that the call applies to. -/
def callTail : Rule :=
  look fun a =>
    match a.kind with
    | .semicolon => take
    | .eof => closing .semicolon
    | _ => as .body (call .body)

/-- A keyword, bindings, and the statement that they hold in. -/
def boundStatement (f : Form) : Rule := node f [take, bindingList, as .body (call .body)]

def declaration (name : Form) : Rule :=
  node .varDeclaration
    [as .name (leaf name), expect .assign, as .value expression, closing .semicolon]

def fileStatement (f : Form) : Rule :=
  node f
    [take, look fun a => if a.kind = .path then as .path (leaf .includePath) else refuse .path]

def moduleItem : Rule :=
  node .moduleItem
    [take,
      look fun a =>
        if a.kind = .identifier then as .name (leaf .identifier) else refuse .moduleName,
      parameterList, as .body (call .statement)]

def functionItem : Rule :=
  node .functionItem
    [take,
      look fun a =>
        if a.kind = .identifier then as .name (leaf .identifier) else refuse .functionName,
      parameterList, expect .assign, as .body expression, closing .semicolon]

def ifStatement : Rule :=
  node .ifBlock
    [take, expect .lparen, as .condition expression, closing .rparen,
      as .consequence (call .body),
      look fun a => if a.kind = .kwElse then seq take (as .alternative (call .body)) else done]

def unionBlock : Rule := node .unionBlock [take, call .blockItems, closing .rbrace]

def moduleCall : Rule :=
  node .moduleCall [as .name (leaf .identifier), argumentList, callTail]

def assertStatement : Rule := node .assertStatement [take, argumentList, callTail]

/-- A statement that starts with a name: a declaration before `=`, else a call. Three names are
taken for constructs of the language when a parenthesis follows. -/
def namedStatement (a : Ahead) : Rule :=
  match a.second with
  | .lparen =>
    if a.text = "intersection_for" then boundStatement .intersectionForBlock
    else if a.text = "assign" then boundStatement .assignBlock
    else if a.text = "assert" then assertStatement
    else moduleCall
  | .assign => declaration .identifier
  | _ => moduleCall

def statement : Rule :=
  look fun a =>
    match a.kind with
    | .star | .bang | .hash | .percent =>
      node .modifierChain [as .modifier (leaf .modifier), as .statement (call .body)]
    | .kwModule => moduleItem
    | .kwFunction => functionItem
    | .kwFor => boundStatement .forBlock
    | .kwIf => ifStatement
    | .kwLet => boundStatement .letBlock
    | .kwInclude => fileStatement .includeStatement
    | .kwUse => fileStatement .useStatement
    | .lbrace => unionBlock
    | .semicolon => leaf .emptyStatement
    | .special => declaration .specialVariable
    | .identifier => namedStatement a
    | _ => refuse .statement

/-- A statement under another one, which may not be a declaration. -/
def body : Rule :=
  look fun a =>
    match a.kind, a.second with
    | .kwModule, _ | .kwFunction, _ | .kwInclude, _ | .kwUse, _ => refuse .childStatement
    | .identifier, .assign | .special, .assign => refuse .childStatement
    | _, _ => call .statement

/-- Statements up to the end of the file. -/
def items : Rule :=
  look fun a =>
    match a.kind with
    | .eof => done
    | _ => seq (recover (call .statement)) (call .items)

/-- Statements up to the closing brace. -/
def blockItems : Rule :=
  look fun a =>
    match a.kind with
    | .eof | .rbrace => done
    | _ => seq (recover (call .statement)) (call .blockItems)

/-! ## Expressions -/

/-- The tokens with which an expression can start. -/
def startsExpression : TokenKind → Bool
  | .number | .string | .kwTrue | .kwFalse | .kwUndef | .identifier | .special | .lparen
  | .lbracket | .minus | .plus | .bang | .kwLet | .kwFunction => true
  | _ => false

/-- An operand and all operators behind it that bind at least as tightly as the level. -/
def expr (l : Level) : Rule := fresh (feed (call .unary) (call (.operators l)))

/-- Operators to the right of an operand. -/
def operators (l : Level) : Rule :=
  look fun a =>
    match Level.ofToken? a.kind with
    | none => keep
    | some m =>
      if m.rank < l.rank then keep
      else
        feed
          (if m = .ternary then
            build .ternaryExpression
              (all
                [as .condition keep, take, as .consequence expression, expect .colon,
                  as .alternative expression])
          else
            build .binaryExpression
              (all
                [as .left keep, as .operator (leaf .operator),
                  as .right (call (.expr m.ofRight))]))
          (call (.operators l))

/-- A sign in front takes a power as its operand. -/
def unary : Rule :=
  look fun a =>
    match a.kind with
    | .bang | .minus | .plus =>
      node .unaryExpression
        [as .operator (leaf .operator), as .operand (call (.expr .power))]
    | _ => fresh (feed (call .primary) (call .suffixes))

/-- Calls, indexes and members behind an operand. -/
def suffixes : Rule :=
  look fun a =>
    match a.kind with
    | .lparen =>
      feed (build .functionCall (seq (as .function keep) argumentList)) (call .suffixes)
    | .lbracket =>
      feed
        (build .indexExpression
          (all [as .value keep, take, as .index expression, closing .rbracket]))
        (call .suffixes)
    | .dot =>
      feed
        (build .dotIndexExpression
          (all
            [as .value keep, take,
              look fun a =>
                if a.kind = .identifier then as .field (leaf .identifier)
                else refuse .memberName]))
        (call .suffixes)
    | _ => keep

/-- `assert` or `echo` with arguments and, if one follows, the expression that it guards. -/
def guardExpression (f : Form) : Rule :=
  node f
    [take, argumentList,
      look fun a => if startsExpression a.kind then as .body expression else done]

/-- The elements behind the first one, and the end of the list. -/
def elements : Rule :=
  look fun a =>
    if a.kind = .comma then
      seq take
        (look fun a =>
          if a.kind = .rbracket then done else seq (call .element) (call .elements))
    else done

/-- The second bound of a range is its step if a third one follows. -/
def rangeBounds : Rule :=
  all
    [as .start keep, take,
      feed expression
        (look fun a =>
          if a.kind = .colon then all [as .step keep, take, as .stop expression]
          else as .stop keep),
      closing .rbracket]

/-- A list, or a range if a colon follows the first element. An element that starts with a keyword
is never the bound of a range. -/
def listOrRange : Rule :=
  fresh
    (seq take
      (look fun a =>
        match a.kind with
        | .rbracket => build .list take
        | .kwFor | .kwIf | .kwEach | .kwLet =>
          feed (call .element) (build .list (all [keep, call .elements, closing .rbracket]))
        | _ =>
          feed (call .element)
            (look fun a =>
              if a.kind = .colon then build .range rangeBounds
              else build .list (all [keep, call .elements, closing .rbracket]))))

/-- The head of a loop in a list: bindings, or a start, a condition and a step. -/
def loopHead : Rule :=
  feed assignments
    (look fun a =>
      if a.kind = .semicolon then
        all
          [as .init keep, take, as .condition expression, expect .semicolon,
            as .update assignments]
      else as .bindings keep)

/-- An element of a list: a loop, a choice, a spread, bindings, or an expression. -/
def element : Rule :=
  look fun a =>
    match a.kind with
    | .kwFor =>
      node .listComprehension
        [take, expect .lparen, loopHead, closing .rparen, as .body (call .element)]
    | .kwIf =>
      node .ifComprehension
        [take, expect .lparen, as .condition expression, closing .rparen,
          as .consequence (call .element),
          look fun a =>
            if a.kind = .kwElse then seq take (as .alternative (call .element)) else done]
    | .kwEach => node .each [take, as .value (call .element)]
    | .kwLet => node .letExpression [take, bindingList, as .body (call .element)]
    | _ => expression

def primary : Rule :=
  look fun a =>
    match a.kind with
    | .number => leaf .number
    | .string => leaf .string
    | .kwTrue | .kwFalse => leaf .boolean
    | .kwUndef => leaf .undef
    | .special => leaf .specialVariable
    | .identifier =>
      if a.second = .lparen ∧ a.text = "assert" then guardExpression .assertExpression
      else if a.second = .lparen ∧ a.text = "echo" then guardExpression .echoExpression
      else leaf .identifier
    | .lbracket => listOrRange
    | .lparen =>
      node .parenthesizedExpression [take, as .expression expression, closing .rparen]
    | .kwLet => node .letExpression [take, bindingList, as .body expression]
    | .kwFunction => node .functionLiteral [take, parameterList, as .body expression]
    | _ => refuse .expression

/-! ## The table -/

/-- The rule of each phrase. -/
def rule : Phrase → Rule
  | .items => items
  | .blockItems => blockItems
  | .statement => statement
  | .body => body
  | .arguments => arguments
  | .bindings => bindings
  | .parameters => parameters
  | .element => element
  | .elements => elements
  | .expr l => expr l
  | .operators l => operators l
  | .unary => unary
  | .primary => primary
  | .suffixes => suffixes

end Scad.Grammar
