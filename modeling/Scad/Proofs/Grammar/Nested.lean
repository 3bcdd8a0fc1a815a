import Scad.Proofs.Grammar.Solid
import Scad.Tree.Labelled

/-!
# Nodes are nested

In the tree of a source without faults the children of a node lie inside it and apart from each
other. This is what is left of their places when the order does not count.
-/

namespace Scad

theorem Region.bytes_forward (r : Region) : r.forward.bytes = r.bytes := by
  ext x
  show r.start.byte ≤ x ∧ x < Nat.max r.stop.byte r.start.byte ↔ r.start.byte ≤ x ∧ x < r.stop.byte
  have hmax : Nat.max r.stop.byte r.start.byte = max r.stop.byte r.start.byte := rfl
  omega

namespace Node

/-- The children of a node lie inside it and apart from each other, and so do theirs. A name is not
empty. -/
inductive Nested : Node → Prop
  | mk {n : Node}
    (name : Label.ofKind n.kind = .form .identifier → n.region.start.byte < n.region.stop.byte)
    (inside : ∀ c ∈ n.children, c.bytes ⊆ n.bytes)
    (apart : n.children.Pairwise fun a b => Disjoint a.bytes b.bytes)
    (inner : ∀ c ∈ n.children, c.Nested) : Nested n

/-- Nested nodes between two bytes, apart from each other. -/
structure Laid (lo hi : Nat) (ns : List Node) : Prop where
  nested : ∀ n ∈ ns, n.Nested
  within : ∀ n ∈ ns, n.bytes ⊆ Set.Ico lo hi
  apart : ns.Pairwise fun a b => Disjoint a.bytes b.bytes

/-- What is placed in order is apart. -/
theorem Placed.nested {source : List Char} {n : Node} (h : n.Placed source) :
    n.Solid → n.Nested := by
  induction h with
  | mk _ inside inOrder _ ih =>
    rintro ⟨solid, inner⟩
    refine .mk (fun hn => solid _ hn rfl) inside (inOrder.imp fun h => h.disjoint) fun c hc => ?_
    exact ih c hc (inner c hc)

end Node

/-- The statements of a file without faults are nested and apart from each other. -/
theorem Grammar.items_laid {source : List Char} {nodes : List Node} {t : Stream}
    (h : parsePhrase .items { start := {} } (.start (tokenize source)) = .ok nodes [] t) :
    Node.Laid 0 (tokenize source).stop.byte nodes := by
  have hlined := items_lined h
  refine ⟨fun n hn => ?_, hlined.within, hlined.inOrder.imp fun h => h.disjoint⟩
  exact (hlined.placed n hn).nested (items_solid h n hn)

end Scad
