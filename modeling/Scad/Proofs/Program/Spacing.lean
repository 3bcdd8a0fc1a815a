import Scad.Proofs.Grammar.Matching
import Scad.Proofs.Program.RoundTrip

/-!
# What stands between tokens does not count

Two sources with the same words, whatever blanks and comments are between them, have the same tree
but for places and the same faults in the same order. One is a program if the other is, and then both
are the same program, printed as the same text.
-/

namespace Scad

open Grammar

namespace Node

mutual

/-- The tree without its places. -/
def unplaced : Node → Node
  | ⟨kind, _, role, missing, children⟩ => ⟨kind, {}, role, missing, unplacedAll children⟩

def unplacedAll : List Node → List Node
  | [] => []
  | n :: ns => n.unplaced :: unplacedAll ns

end

theorem unplacedAll_eq (ns : List Node) : unplacedAll ns = ns.map unplaced := by
  induction ns with
  | nil => rfl
  | cons n ns ih => rw [unplacedAll, ih, List.map_cons]

end Node

namespace Matching

theorem map_eq_of_forall₂ {α β : Type} {f : α → β} {as as' : List α}
    (h : List.Forall₂ (fun a a' => f a' = f a) as as') : as'.map f = as.map f := by
  induction h with
  | nil => rfl
  | cons ha _ ih => rw [List.map_cons, List.map_cons, ha, ih]

/-- Matched nodes differ in their places only. -/
theorem node.unplaced {M : Matching} {n n' : Node} (h : M.node n n') :
    n'.unplaced = n.unplaced := by
  refine node.induct (P := fun n n' => n'.unplaced = n.unplaced) (fun _ _ _ _ _ _ => rfl)
    (fun kind r r' role missing ns ns' _ _ _ _ ih => ?_) h
  rw [Node.unplaced, Node.unplaced, Node.unplacedAll_eq, Node.unplacedAll_eq,
    map_eq_of_forall₂ ih]

/-- The same word in two sources, wherever it stands. -/
def ofWords (source source' : List Char) : Matching where
  token t t' := t'.word = t.word ∧ (t.kind ≠ .eof → t.Sound source ∧ t'.Sound source')
  position _ _ := True
  kind h := congrArg Word.kind h.1
  text h := congrArg Word.text h.1
  start _ := trivial
  stop _ := trivial
  later _ _ := trivial

variable {source source' : List Char}

theorem ofWords_sound (t t' : Token) (h : (ofWords source source').token t t') (hne : t.kind ≠ .eof) :
    t.Sound source ∧ t'.Sound source' := h.2 hne

theorem ofWords_tokens {ts ts' : List Token} (h : ts'.map Token.word = ts.map Token.word)
    (hs : ∀ t ∈ ts, t.Sound source) (hs' : ∀ t ∈ ts', t.Sound source') :
    List.Forall₂ (ofWords source source').token ts ts' := by
  have hword : List.Forall₂ (fun t t' : Token => t'.word = t.word) ts ts' := by
    rw [← List.forall₂_eq_eq_eq, List.forall₂_map_left_iff, List.forall₂_map_right_iff] at h
    exact h.flip
  rw [List.forall₂_iff_zip] at hword ⊢
  refine ⟨hword.1, fun {t t'} hmem => ⟨hword.2 hmem, fun _ => ?_⟩⟩
  exact ⟨hs t (List.of_mem_zip hmem).1, hs' t' (List.of_mem_zip hmem).2⟩

theorem ofWords_start
    (h : (tokenize source').tokens.map Token.word = (tokenize source).tokens.map Token.word) :
    (ofWords source source').stream (.start (tokenize source)) (.start (tokenize source')) where
  ahead := ofWords_tokens h (tokenize_sound source) (tokenize_sound source')
  count := by simpa [Stream.start] using congrArg List.length h
  eof := ⟨rfl, fun h => absurd rfl h⟩
  last := by simp [Stream.start]

end Matching

/-- The statements of two sources with the same words are matched, and so are their faults. -/
theorem Grammar.items_matched {source source' : List Char}
    (h : (tokenize source').tokens.map Token.word = (tokenize source).tokens.map Token.word) :
    (Matching.ofWords source source').outcome
      (parsePhrase .items { start := {} } (.start (tokenize source)))
      (parsePhrase .items { start := {} } (.start (tokenize source'))) :=
  parsePhrase_matched _ .items _ _ _ _ (Stream.start_at source).proper ⟨trivial, .nil⟩
    (Matching.ofWords_start h) (.inl rfl)

theorem Program.parse_ok_iff (source : List Char) :
    (∃ p, Program.parse source = .ok p) ↔ (SyntaxTree.ofSource source).faults = [] := by
  constructor
  · rintro ⟨p, hp⟩
    exact faultless_of_parse hp
  · intro h
    obtain ⟨p, hp, -⟩ := parse_of_faultless h
    exact ⟨p, hp⟩

/-- Statements without a fault are read alike if they are matched. -/
theorem Matching.forall₂_alike {M : Matching} {source source' : List Char} {nodes nodes' : List Node}
    (hM : ∀ t t', M.token t t' → t.kind ≠ .eof → t.Sound source ∧ t'.Sound source')
    (h : List.Forall₂ M.node nodes nodes') (herr : Node.anyError nodes = false) :
    List.Forall₂ (Node.Alike source source') nodes nodes' := by
  induction h with
  | nil => exact .nil
  | cons hn _ ih =>
    simp only [Node.anyError_cons, Bool.or_eq_false_iff] at herr
    exact .cons (hn.alike hM herr.1) (ih herr.2)

/-- The tree, the faults, whether there is a program, the program and its text all depend on the
words of the source alone. -/
theorem Program.spacing_irrelevant {source source' : List Char}
    (h : (tokenize source').tokens.map Token.word = (tokenize source).tokens.map Token.word) :
    (SyntaxTree.ofSource source').root.unplaced = (SyntaxTree.ofSource source).root.unplaced ∧
      (SyntaxTree.ofSource source').faults.map Fault.cause =
        (SyntaxTree.ofSource source).faults.map Fault.cause ∧
      ((∃ p, Program.parse source = .ok p) ↔ ∃ q, Program.parse source' = .ok q) ∧
      ∀ p q, Program.parse source = .ok p → Program.parse source' = .ok q →
        q.agree p = true ∧ ∀ layout, q.print layout = p.print layout := by
  obtain ⟨nodes, fs, t, hparse, htree⟩ := SyntaxTree.ofSource_eq source
  obtain ⟨nodes', fs', t', hparse', htree'⟩ := SyntaxTree.ofSource_eq source'
  have hm := items_matched h
  rw [hparse, hparse'] at hm
  cases hm with
  | ok hns hfs _ =>
    have hcauses : fs'.map Fault.cause = fs.map Fault.cause :=
      Matching.map_eq_of_forall₂ (hfs.imp fun _ _ hf => hf.1)
    have hnodes : nodes'.map Node.unplaced = nodes.map Node.unplaced :=
      Matching.map_eq_of_forall₂ (hns.imp fun _ _ hn => hn.unplaced)
    have hnil : fs = [] ↔ fs' = [] := by
      rw [← List.map_eq_nil_iff (f := Fault.cause), ← hcauses, List.map_eq_nil_iff]
    refine ⟨?_, ?_, ?_, fun p q hp hq => ?_⟩
    · rw [htree, htree', Node.unplaced, Node.unplaced, Node.unplacedAll_eq, Node.unplacedAll_eq,
        hnodes]
    · rw [htree, htree']
      exact hcauses
    · rw [parse_ok_iff, parse_ok_iff, htree, htree']
      exact hnil
    · have hfaultless := faultless_of_parse hp
      have herr := (SyntaxTree.faults_eq_nil_iff source).1 hfaultless
      rw [htree] at hfaultless herr
      obtain rfl : fs = [] := hfaultless
      obtain rfl := hnil.1 rfl
      obtain ⟨p', q', hp', hq', hagree, hprint⟩ := agree_of_items hparse hparse'
        (Matching.forall₂_alike Matching.ofWords_sound hns herr)
      obtain rfl := Except.ok.inj (hp.symm.trans hp')
      obtain rfl := Except.ok.inj (hq.symm.trans hq')
      exact ⟨hagree, hprint⟩

/-- A malformed text and a program, with and without blanks and comments. -/
theorem Program.spacing_irrelevant_comment :
    (SyntaxTree.ofSource "cube ( /* one */ 1".toList).faults.map Fault.cause =
        (SyntaxTree.ofSource "cube(1".toList).faults.map Fault.cause ∧
      ∃ p q, Program.parse "for(i=[1:2])cube(i);".toList = .ok p ∧
        Program.parse "for (i = [1 : 2]) // twice\n  cube(i);".toList = .ok q ∧
        q.agree p = true ∧ ∀ layout, q.print layout = p.print layout := by
  obtain ⟨-, hcauses, -⟩ := @Program.spacing_irrelevant "cube(1".toList "cube ( /* one */ 1".toList
    (by decide +kernel)
  obtain ⟨-, -, hok, hsame⟩ := @Program.spacing_irrelevant "for(i=[1:2])cube(i);".toList
    "for (i = [1 : 2]) // twice\n  cube(i);".toList (by decide +kernel)
  obtain ⟨p, hp⟩ := (Program.parse_ok_iff "for(i=[1:2])cube(i);".toList).2 (by decide +kernel)
  obtain ⟨q, hq⟩ := hok.1 ⟨p, hp⟩
  exact ⟨hcauses, p, q, hp, hq, hsame p q hp hq⟩

end Scad
