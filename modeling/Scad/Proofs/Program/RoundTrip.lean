import Scad.Proofs.Program.Replay.Statements
import Scad.Proofs.Program.Tokens

/-!
# Printing and parsing again

A printed program can be parsed. The program that it gives is the one that was printed, but for
where things stand, and it is printed as the same text.
-/

namespace Scad

open Grammar

namespace Program

/-- Whatever stands in a file that is parsed without a fault is read statement by statement. -/
theorem parse_of_items {source : List Char} {nodes : List Node} {t : Stream}
    (h : parsePhrase .items { start := {} } (.start (tokenize source)) = .ok nodes [] t) :
    (SyntaxTree.ofSource source).faults = [] ∧
      ∃ items context,
        (Read.each Reading.item (nodes.map (Node.reading source))).run
          (.start (.ofRegion (Region.forward ⟨{}, (tokenize source).stop⟩))) = (.ok items, context) ∧
        Program.parse source =
          .ok ⟨items, .ofRegion (Region.forward ⟨{}, (tokenize source).stop⟩), context.finish⟩ := by
  have htree : SyntaxTree.ofSource source =
      ⟨{ kind := .form .sourceFile, region := ⟨{}, (tokenize source).stop⟩, children := nodes },
        []⟩ := by
    rw [SyntaxTree.ofSource, SyntaxTree.ofTokens, h]
  have hok : (SyntaxTree.ofSource source).faults = [] := by rw [htree]
  obtain ⟨p, hp, -⟩ := parse_of_faultless hok
  refine ⟨hok, ?_⟩
  have hparse := hp
  rw [Program.parse, Program.ofTree] at hparse
  split at hparse
  · cases hparse
  · have hreading : ((SyntaxTree.ofSource source).root.toTree.reading source).items =
        Read.each Reading.item (nodes.map (Node.reading source)) := by
      rw [htree, ← Node.readings_eq]
      rfl
    have hlabel : (SyntaxTree.ofSource source).root.toTree.label = .form .sourceFile := by
      rw [htree]
      rfl
    have hregion : (SyntaxTree.ofSource source).root.toTree.region =
        Region.forward ⟨{}, (tokenize source).stop⟩ := by
      rw [htree]
      rfl
    rw [if_pos hlabel, hreading, hregion] at hparse
    dsimp only at hparse
    generalize (Read.each Reading.item (nodes.map (Node.reading source))).run
      (.start (.ofRegion (Region.forward ⟨{}, (tokenize source).stop⟩))) = outcome at hparse ⊢
    obtain ⟨result, context⟩ := outcome
    cases result with
    | ok items => exact ⟨items, context, rfl, hp.trans hparse.symm⟩
    | error e => cases hparse

/-- Two files with statements that are read alike are the same program wherever its parts stand. -/
theorem agree_of_items {source source' : List Char} {nodes nodes' : List Node} {t t' : Stream}
    (h : parsePhrase .items { start := {} } (.start (tokenize source)) = .ok nodes [] t)
    (h' : parsePhrase .items { start := {} } (.start (tokenize source')) = .ok nodes' [] t')
    (like : List.Forall₂ (Node.Alike source source') nodes nodes') :
    ∃ p q, Program.parse source = .ok p ∧ Program.parse source' = .ok q ∧ q.agree p = true ∧
      ∀ layout, q.print layout = p.print layout := by
  obtain ⟨-, items, context, hrun, hp⟩ := parse_of_items h
  obtain ⟨-, items₁, context₁, hrun₁, hq⟩ := parse_of_items h'
  have hread : Read.Follows (List.Forall₂ Item.Alike)
      (Read.each Reading.item (nodes.map (Node.reading source)))
      (Read.each Reading.item (nodes'.map (Node.reading source'))) :=
    .each (List.forall₂_map_left_iff.2 (List.forall₂_map_right_iff.2 (like.imp fun _ _ h => h.item)))
  obtain ⟨items', context', hrun', hitems, hcontext⟩ :=
    hread _ _ items context (Context.alike_start _ _) hrun
  obtain ⟨hsame, rfl⟩ := Prod.mk.inj (hrun₁.symm.trans hrun')
  obtain rfl := Except.ok.inj hsame
  obtain ⟨hagree, hlines⟩ := Item.alike_all hitems
  refine ⟨_, _, hp, hq, ?_, fun layout => ?_⟩
  · simp [Program.agree, hagree, hcontext.agree]
  · simp only [Program.print, printItems, hlines]

/-- A printed program is parsed into statements that are read like those of the source. -/
theorem items_of_print {source : List Char} {p : Program} (h : Program.parse source = .ok p)
    (layout : Layout) :
    ∃ nodes nodes' t t',
      parsePhrase .items { start := {} } (.start (tokenize source)) = .ok nodes [] t ∧
      parsePhrase .items { start := {} } (.start (tokenize (p.print layout).toList)) =
        .ok nodes' [] t' ∧
      List.Forall₂ (Node.Alike source (p.print layout).toList) nodes nodes' := by
  obtain ⟨nodes, fs, t, hparse, htree⟩ := SyntaxTree.ofSource_eq source
  obtain rfl : fs = [] := by
    have hfaults := faultless_of_parse h
    rwa [htree] at hfaults
  have hof := Stream.start_of source
  obtain ⟨run', hpass', -, hend⟩ := (parsePhrase_covers .items _ _ t nodes [] (Stream.start_at source)
    (by simp) hparse).items rfl
  obtain ⟨ws, ⟨run, hpass, -, -, hws⟩, hgo⟩ :=
    parsePhrase_replays source (p.print layout).toList .items _ _ t nodes hof rfl hparse
  -- the words of the printed text are the ones that the source says
  have hahead : (tokenize source).tokens = run := by
    have h := hpass.ahead
    rwa [(Stream.peek_kind_eq_eof (hof.passes hpass).proper).1 hend, List.append_nil] at h
  have hwords : (Stream.start (tokenize (p.print layout).toList)).words = ws ++ [] := by
    have htidy := tokenize_print h layout
    rw [htree, Node.bareBodies_form (by decide), hahead, ← hend, hws] at htidy
    rw [List.append_nil]
    exact htidy
  have hnear : Ahead.Near t.look (.ofWords []) := by
    refine ⟨.inl ?_, fun hn => ?_⟩
    · rw [Stream.look_kind, hend]
      rfl
    · simp [hend] at hn
  obtain ⟨nodes', t', hgives, -, -, like⟩ :=
    (hgo [] hnear).2 { start := {} } _ (Stream.start_of _) hwords .nil
  exact ⟨nodes, nodes', t, t', hparse, hgives, like⟩

/-- A printed program is parsed as the same program wherever its parts stand, and printed again as
the same text. -/
theorem parse_print {source : List Char} {p : Program} (h : Program.parse source = .ok p)
    (layout : Layout) :
    ∃ q, Program.parse (p.print layout).toList = .ok q ∧ q.agree p = true ∧
      q.print layout = p.print layout := by
  obtain ⟨nodes, nodes', t, t', hparse, hgives, like⟩ := items_of_print h layout
  obtain ⟨p', q, hp', hq, hagree, hprint⟩ := agree_of_items hparse hgives like
  obtain rfl := Except.ok.inj (h.symm.trans hp')
  exact ⟨q, hq, hagree, hprint layout⟩

/-- A dangling `else`, a body without braces, a trailing comma, a member of a number, clauses of a
comprehension. -/
theorem parse_print_nested :
    ∃ p q, Program.parse
        "module m(a = .5) if (a) if (1 .x) ; else cube([for (i = v) if (i) \"\\q\",]);".toList =
        .ok p ∧
      Program.parse (p.print {}).toList = .ok q ∧ q.agree p = true ∧ q.print {} = p.print {} := by
  have hok : (SyntaxTree.ofSource
      "module m(a = .5) if (a) if (1 .x) ; else cube([for (i = v) if (i) \"\\q\",]);".toList).faults =
        [] := by
    decide +kernel
  obtain ⟨p, hp, -⟩ := parse_of_faultless hok
  obtain ⟨q, hq, hagree, hprint⟩ := parse_print hp {}
  exact ⟨p, q, hp, hq, hagree, hprint⟩

end Program
end Scad
