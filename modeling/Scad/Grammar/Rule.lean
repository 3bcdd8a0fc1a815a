import Scad.Grammar.Level
import Scad.Grammar.Stream

/-!
# Rules

A grammar is a table of rules, and a rule is data: it says which tokens to take, which nodes to
build over them and where to decide by looking ahead. `Rule.apply` gives a rule its meaning. As
rules are data, a fact about all that can be parsed is proved once for each way to form a rule, and
not once for each construct of the language.
-/

namespace Scad

/-- The phrases of the language that have a rule of their own. -/
inductive Phrase where
  | items | blockItems | statement | body
  | arguments | bindings | parameters | element | elements
  | expr (l : Level)
  | operators (l : Level)
  | unary | primary | suffixes
deriving DecidableEq, Repr

/-- What to do with the tokens ahead. A rule gives a list of nodes, works in a frame that began at
some position, and may see nodes to its left. -/
inductive Rule where
  /-- Does nothing. -/
  | done
  /-- Gives the nodes to the left. -/
  | keep
  /-- Passes a token. -/
  | take
  /-- Passes a token and gives a leaf for it. -/
  | leaf (f : Form)
  /-- Passes a token of this kind, and fails at any other. -/
  | expect (k : TokenKind)
  /-- Passes a token of this kind; at any other it notes a fault and gives an empty node. -/
  | closing (k : TokenKind)
  /-- Fails. -/
  | refuse (w : Wanted)
  /-- One rule after the other. -/
  | seq (a b : Rule)
  /-- One rule after the other; the second sees what the first gave to its left. -/
  | feed (a b : Rule)
  /-- Puts the nodes of a rule in a role. -/
  | as (r : Role) (a : Rule)
  /-- Gathers the nodes of a rule under one node that begins where the frame does. -/
  | build (f : Form) (a : Rule)
  /-- Begins a new frame here, with nothing to the left. -/
  | fresh (a : Rule)
  /-- Decides by what is ahead. -/
  | look (f : Ahead → Rule)
  /-- The rule of a phrase, in the same frame. -/
  | call (p : Phrase)
  /-- Where the rule fails: notes the fault, skips to a place where a statement may start, and gives
  an error node over all that was passed. -/
  | recover (a : Rule)

/-- Where a frame began, and the nodes to the left in it. -/
structure Frame where
  start : Position
  left : List Node := []

/-- What comes of a rule: nodes, or the fault at which it failed. Both come with the faults noted
on the way and the place reached. -/
inductive Outcome where
  | ok (nodes : List Node) (faults : List Fault) (s : Stream)
  | failed (fault : Fault) (faults : List Fault) (s : Stream)

namespace Outcome

/-- Adds faults noted earlier. -/
def after (faults : List Fault) : Outcome → Outcome
  | ok nodes fs s => ok nodes (faults ++ fs) s
  | failed fault fs s => failed fault (faults ++ fs) s

/-- Changes the nodes. -/
def map (f : Stream → List Node → List Node) : Outcome → Outcome
  | ok nodes fs s => ok (f s nodes) fs s
  | failed fault fs s => failed fault fs s

end Outcome

namespace Rule

/-- Several rules one after the other. -/
def all : List Rule → Rule
  | [] => done
  | [a] => a
  | a :: rest => seq a (all rest)

/-- A node over several rules, in a frame of its own. -/
def node (f : Form) (parts : List Rule) : Rule := fresh (build f (all parts))

/-- The meaning of a rule, given the meaning of the phrases it calls. -/
def apply (phrase : Phrase → Frame → Stream → Outcome) : Rule → Frame → Stream → Outcome
  | done, _, s => .ok [] [] s
  | keep, fr, s => .ok fr.left [] s
  | take, _, s => .ok [] [] s.advance
  | leaf f, _, s => .ok [{ kind := .form f, region := s.peek.region }] [] s.advance
  | expect k, _, s =>
    if s.peek.kind = k then .ok [] [] s.advance else .failed (.ofToken s.peek (.token k)) [] s
  | closing k, _, s =>
    if s.peek.kind = k then .ok [] [] s.advance
    else .ok [.absent k s.gapPosition] [.absent k s.gapPosition] s
  | refuse w, _, s => .failed (.ofToken s.peek w) [] s
  | seq a b, fr, s =>
    match a.apply phrase fr s with
    | .ok nodes fs s => ((b.apply phrase fr s).map fun _ more => nodes ++ more).after fs
    | .failed fault fs s => .failed fault fs s
  | feed a b, fr, s =>
    match a.apply phrase fr s with
    | .ok nodes fs s => (b.apply phrase { fr with left := nodes } s).after fs
    | .failed fault fs s => .failed fault fs s
  | as r a, fr, s => (a.apply phrase fr s).map fun _ nodes => nodes.map (·.inRole r)
  | build f a, fr, s =>
    (a.apply phrase fr s).map fun s nodes =>
      [{ kind := .form f, region := s.regionFrom fr.start, children := nodes }]
  | fresh a, _, s => a.apply phrase { start := s.position } s
  | look f, fr, s => (f s.look).apply phrase fr s
  | call p, fr, s => phrase p fr s
  | recover a, fr, s =>
    match a.apply phrase fr s with
    | .ok nodes fs s => .ok nodes fs s
    | .failed fault fs t =>
      let t := t.resume s
      .ok [{ kind := .error, region := t.regionFrom s.position }] (fs ++ [fault]) t

end Rule
end Scad
