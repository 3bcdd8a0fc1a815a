import Scad.Proofs.Program.Constructs

/-!
# Spans are faithful

Every element of a program that was parsed stands in the source where its span says. Main statement:
`Program.spans_faithful`.
-/

namespace Scad

open Read

namespace Node

variable {source : List Char}

theorem label_reading (n : Node) : (n.reading source).label = .ofKind n.kind := by
  cases n
  rfl

theorem Placed.region_reading {n : Node} (h : n.Placed source) :
    (n.reading source).region = n.region := by
  obtain ⟨marked, -, -, -⟩ := h
  cases n
  exact Region.forward_eq marked.forward

/-- A node that is placed, solid and in turn tells what it does, and its elements fit its bytes. -/
theorem Placed.told {n : Node} (h : n.Placed source) :
    n.Solid → n.InTurn → (n.reading source).Told source True := by
  induction h with
  | @mk n marked inside inOrder inner ih =>
    rintro ⟨solid, solids⟩ ⟨turns, turned⟩
    obtain ⟨kind, region, role, missing, children⟩ := n
    have hregion : region.forward = region := Region.forward_eq marked.forward
    have stands : ∀ c ∈ children,
        (c.reading source).label.Stands source (c.reading source).region := by
      intro c hc
      rw [(inner c hc).region_reading, label_reading]
      obtain ⟨hmarked, -, -, -⟩ := inner c hc
      obtain ⟨hsolid, -⟩ := solids c hc
      exact ⟨hmarked, hsolid⟩
    refine Shape.Told.reading (n := ⟨source, .ofKind kind, region.forward, _⟩) ⟨fun _ => ?_, ?_⟩ role
    · rw [hregion, Node.readings_eq]
      refine ⟨⟨marked, solid⟩, List.forall_mem_map.2 stands, List.forall_mem_map.2 fun c hc => ?_,
        List.pairwise_map.2 (inOrder.imp_of_mem fun {a b} ha hb hab => ?_), List.pairwise_map.2 ?_⟩
      · rw [(inner c hc).region_reading]
        exact inside c hc
      · rw [(inner a ha).region_reading, (inner b hb).region_reading]
        exact hab
      · simp only [Node.reading_role]
        exact turns
    · rw [Node.readings_eq]
      exact List.forall_mem_map.2 fun c hc => ih c hc (solids c hc) (turned c hc)

end Node

namespace Program

/-- The items of a program that was parsed fit the file. -/
theorem items_fit {source : List Char} {p : Program} (h : Program.parse source = .ok p) :
    Element.Fits source p.span.bytes (p.items.map .item) := by
  obtain ⟨nodes, fs, t, hparse, htree⟩ := SyntaxTree.ofSource_eq source
  obtain rfl : fs = [] := by
    have hfaults := faultless_of_parse h
    rwa [htree] at hfaults
  obtain ⟨-, items, context, hrun, hp⟩ := parse_of_items hparse
  obtain rfl := Except.ok.inj (h.symm.trans hp)
  have hlined := Grammar.items_lined hparse
  have hsolid := Grammar.items_solid hparse
  have hturn := Grammar.items_inTurn hparse
  have hregion : Region.forward ⟨{}, (tokenize source).stop⟩ = ⟨{}, (tokenize source).stop⟩ :=
    Region.forward_eq (Nat.zero_le _)
  have hmakes : Makes source True
      {x | ∃ c ∈ nodes.map (Node.reading source), x ∈ c.region.bytes} (·.map .item)
      (Read.each Reading.item (nodes.map (Node.reading source))) := by
    refine Shape.makes_each (fun _ => ?_) (List.forall_mem_map.2 fun n hn => ?_)
    · refine List.pairwise_map.2 (hlined.inOrder.imp_of_mem fun {a b} ha hb hab => ?_)
      rw [(hlined.placed a ha).region_reading, (hlined.placed b hb).region_reading]
      exact hab
    · exact ((hlined.placed n hn).told (hsolid n hn) (hturn n hn)).item
  refine ((hmakes _ _ _ hrun).2 trivial).mono ?_
  rintro x ⟨r, hr, hx⟩
  obtain ⟨n, hn, rfl⟩ := List.mem_map.1 hr
  rw [(hlined.placed n hn).region_reading] at hx
  rw [hregion]
  exact hlined.within n hn hx

/-- Every element of a program stands in the source where its span says: it ends behind its start and
in the source, both ends are points of the source with their lines and columns, its parts lie inside
it, side by side and in order, and names and literals keep the text that they cover. The items of the
file stand in it, side by side and in order. -/
theorem spans_faithful {source : List Char} {p : Program} (h : Program.parse source = .ok p) :
    (∀ x ∈ p.elements, x.Faithful source ∧ x.span.stop.byte ≤ Text.byteSize source) ∧
      (∀ i ∈ p.items, p.span.contains i.span = true) ∧
      p.items.Pairwise fun i j => i.span.stop.byte ≤ j.span.start.byte := by
  have hfits := items_fit h
  refine ⟨fun x hx => ?_, fun i hi => ?_, ?_⟩
  · obtain ⟨i, hi, hx⟩ := List.mem_flatMap.1 hx
    have hx := (hfits.sound (.item i) (List.mem_map_of_mem hi)).all x hx
    exact ⟨hx, hx.stop.byte_le⟩
  · exact hfits.inside (.item i) (List.mem_map_of_mem hi)
  · exact List.pairwise_map.1 hfits.ordered

/-- A comment over two lines, a character of two bytes, a clause in a comprehension and a call that
ends with a semicolon. -/
theorem spans_faithful_lines :
    ∃ p, Program.parse "/* é\n*/ x = [for (i = \"é\") if (i) i];\ncube(é);".toList = .ok p ∧
      p.items.map (·.span.start) = [⟨9, 1, 3⟩, ⟨40, 2, 0⟩] ∧
      (∀ x ∈ p.elements,
        x.Faithful "/* é\n*/ x = [for (i = \"é\") if (i) i];\ncube(é);".toList ∧
          x.span.stop.byte ≤ 49) ∧
      (∀ i ∈ p.items, p.span.contains i.span = true) ∧
      p.items.Pairwise fun i j => i.span.stop.byte ≤ j.span.start.byte := by
  have hok : (SyntaxTree.ofSource
      "/* é\n*/ x = [for (i = \"é\") if (i) i];\ncube(é);".toList).faults = [] := by
    decide +kernel
  have hstarts : (Program.parse
      "/* é\n*/ x = [for (i = \"é\") if (i) i];\ncube(é);".toList).toOption.map
        (fun p => p.items.map (·.span.start)) = some [⟨9, 1, 3⟩, ⟨40, 2, 0⟩] := by
    decide +kernel
  obtain ⟨p, hp, -⟩ := parse_of_faultless hok
  rw [hp] at hstarts
  have hsize : Text.byteSize "/* é\n*/ x = [for (i = \"é\") if (i) i];\ncube(é);".toList = 49 := by
    decide +kernel
  exact ⟨p, hp, Option.some.inj hstarts, hsize ▸ spans_faithful hp⟩

end Program
end Scad
