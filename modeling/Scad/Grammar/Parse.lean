import Scad.Grammar.Table

/-!
# Parsing

The rules of the table applied to the tokens of a source. Whatever the tokens are, there is a tree:
faults are noted beside it.
-/

namespace Scad
namespace Grammar

/-- A phrase calls only phrases of lower rank, unless a token was passed before. -/
def rank : Phrase → Nat
  | .items | .blockItems | .body => 7
  | .statement => 6
  | .arguments | .bindings | .parameters | .element | .elements => 5
  | .expr _ => 4
  | .unary => 3
  | .primary => 2
  | .operators _ | .suffixes => 1

/-- The size of the work left at a phrase: first the tokens ahead count, then the rank. -/
def work (p : Phrase) (s : Stream) : Nat := 8 * s.count + rank p

/-- The phrase `p` at a place, with calls nested at most `n` deep. A call has to leave less work
than there was. All calls of the table do, so that no input is refused for this reason. -/
def parseWithin : Nat → Phrase → Frame → Stream → Outcome
  | 0, _, _, s => .failed (.ofToken s.peek .statement) [] s
  | n + 1, p, fr, s =>
    (rule p).apply
      (fun q fr' t =>
        if work q t < work p s then parseWithin n q fr' t
        else .failed (.ofToken t.peek .statement) [] t)
      fr s

/-- The phrase `p` at a place. -/
def parsePhrase (p : Phrase) (fr : Frame) (s : Stream) : Outcome :=
  parseWithin (work p s + 1) p fr s

/-- Any bound above the work left gives the same outcome. -/
theorem parseWithin_congr : ∀ (n m : Nat) (p : Phrase) (fr : Frame) (s : Stream),
    work p s < n → work p s < m → parseWithin n p fr s = parseWithin m p fr s
  | 0, _, _, _, _, h, _ => absurd h (Nat.not_lt_zero _)
  | _ + 1, 0, _, _, _, _, h => absurd h (Nat.not_lt_zero _)
  | n + 1, m + 1, p, fr, s, hn, hm => by
    unfold parseWithin
    congr 1
    funext q fr' t
    split
    · rename_i h
      exact parseWithin_congr n m q fr' t (by omega) (by omega)
    · rfl

/-- A phrase is its rule, with calls to the phrases in it. -/
theorem parsePhrase_eq (p : Phrase) (fr : Frame) (s : Stream) :
    parsePhrase p fr s =
      (rule p).apply
        (fun q fr' t =>
          if work q t < work p s then parsePhrase q fr' t
          else .failed (.ofToken t.peek .statement) [] t)
        fr s := by
  unfold parsePhrase
  rw [parseWithin]
  congr 1
  funext q fr' t
  split
  · exact parseWithin_congr _ _ q fr' t (by omega) (by omega)
  · rfl

end Grammar

/-- A tree over a source, and the faults noted while it was made. -/
structure SyntaxTree where
  root : Node
  faults : List Fault

namespace SyntaxTree

/-- The tree of a list of tokens. The root spans from the start of the text to its end. -/
def ofTokens (ts : Lexer.Tokens) : SyntaxTree :=
  let file (children : List Node) : Node :=
    { kind := .form .sourceFile, region := ⟨{}, ts.stop⟩, children }
  match Grammar.parsePhrase .items { start := {} } (.start ts) with
  | .ok nodes faults _ => ⟨file nodes, faults⟩
  | .failed fault faults _ => ⟨file [], faults ++ [fault]⟩

/-- The tree of a source text. -/
def ofSource (source : List Char) : SyntaxTree := ofTokens (tokenize source)

/-- Whether the source follows the grammar. -/
def isOk (t : SyntaxTree) : Bool := t.faults.isEmpty

end SyntaxTree
end Scad
