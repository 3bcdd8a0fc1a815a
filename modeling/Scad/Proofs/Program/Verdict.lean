import Scad.Program
import Scad.Proofs.Grammar.Faults
import Scad.Proofs.Program.Statements

/-!
# When a source is a program

Three parts of the library judge a source: the parser notes faults, the tree has nodes that stand
for them, and reading the tree gives a program or fails. All three agree on every source, and
reading fails for no other reason than a fault of the source: the failure tells where one of the
nodes stands.
-/

namespace Scad

/-! ## The first fault of a tree -/

/-- The causes with which a fault of the source is reported. -/
def Malformed.isFault : Malformed → Bool
  | .missing _ | .unexpectedEnd | .unexpected _ => true
  | _ => false

theorem isFault_brokenCause (text : List Char) : (brokenCause text).isFault = true := by
  unfold brokenCause
  split <;> rfl

theorem Label.name_ofKind (k : Kind) : (Label.ofKind k).name = k.name := by
  have named : ∀ s, (Label.ofName s).name = s := by
    intro s
    unfold Label.ofName
    split
    · rename_i f hf
      have hname := List.find?_some hf
      exact beq_iff_eq.1 hname
    · rfl
  cases k with
  | form f => rfl
  | error => exact named "ERROR"
  | token k => exact named k.text

namespace Node

/-- The failure that a node stands for. -/
inductive Reports (source : List Char) (n : Node) : Failure → Prop
  | missing (h : n.missing = true) :
      Reports source n (.malformed (.missing n.kind.name) (.ofRegion n.region.forward))
  | broken (h : n.kind = .error) :
      Reports source n
        (.malformed (brokenCause (textIn source n.region.forward)) (.ofRegion n.region.forward))

mutual

theorem firstFault?_spec (source : List Char) (n : Node) :
    match n.toTree.firstFault? source with
    | none => n.hasError = false
    | some e => n.hasError = true ∧ ∃ m : Node, m.Within n ∧ m.Reports source e := by
  obtain ⟨kind, region, role, missing, children⟩ := n
  rw [toTree, Tree.firstFault?]
  by_cases hm : missing = true
  · rw [if_pos hm, Label.name_ofKind]
    exact ⟨by simp [hasError, hm], _, .self _, .missing hm⟩
  · rw [if_neg hm]
    by_cases hk : kind = .error
    · rw [if_pos (by simpa using hk)]
      exact ⟨by simp [hasError, hk], _, .self _, .broken hk⟩
    · rw [if_neg (by simpa using hk)]
      have ih := firstFaultIn?_spec source children
      split at ih
      · simp [hasError, hm, hk, ih]
      · obtain ⟨herr, c, m, hc, hmc, hrep⟩ := ih
        exact ⟨by simp [hasError, herr], m, .child hc hmc, hrep⟩

theorem firstFaultIn?_spec (source : List Char) (ns : List Node) :
    match Tree.firstFaultIn? source (toTrees ns) with
    | none => anyError ns = false
    | some e => anyError ns = true ∧ ∃ c m : Node, c ∈ ns ∧ m.Within c ∧ m.Reports source e := by
  match ns with
  | [] => rfl
  | n :: ns =>
    have ihn := firstFault?_spec source n
    have ihs := firstFaultIn?_spec source ns
    rw [toTrees, Tree.firstFaultIn?]
    split at ihn
    · rename_i hn
      rw [hn]
      split at ihs
      · rename_i hs
        simp [hs, ihn, ihs]
      · rename_i e hs
        obtain ⟨herr, c, m, hc, hm, hrep⟩ := ihs
        rw [hs]
        exact ⟨by simp [herr], c, m, by simp [hc], hm, hrep⟩
    · rename_i e hn
      obtain ⟨herr, m, hm, hrep⟩ := ihn
      rw [hn]
      exact ⟨by simp [herr], n, m, by simp, hm, hrep⟩

end

/-! ## Regions of faults -/

/-- No node that stands for a fault ends before it starts. -/
def Upright (n : Node) : Prop :=
  ∀ m : Node, m.Within n → m.missing = true ∨ m.kind = .error → m.region.forward = m.region

theorem Upright.inRole {n : Node} (h : n.Upright) (r : Role) : (n.inRole r).Upright := by
  intro m hm hf
  cases hm with
  | self => exact h n (.self n) hf
  | child hc hw => exact h m (.child hc hw) hf

theorem Upright.form {f : Form} {region : Region} {children : List Node}
    (h : ∀ c ∈ children, c.Upright) :
    Upright { kind := .form f, region, children } := by
  intro m hm hf
  cases hm with
  | self => rcases hf with hf | hf <;> cases hf
  | child hc hw => exact h _ hc m hw hf

theorem upright_absent (k : TokenKind) (p : Position) : (absent k p).Upright := by
  intro m hm _
  cases hm with
  | self => exact Region.forward_eq (Nat.le_refl _)
  | child hc _ => cases hc

end Node

theorem Stream.regionFrom_forward (s : Stream) (p : Position) :
    (s.regionFrom p).forward = s.regionFrom p := by
  refine Region.forward_eq ?_
  unfold regionFrom
  split
  · exact Nat.le_refl _
  · split
    · exact Nat.le_refl _
    · rename_i h
      exact Nat.not_lt.1 h

/-- All nodes that come of a rule are upright. -/
def Outcome.Upright : Outcome → Prop
  | ok nodes _ _ => ∀ n ∈ nodes, n.Upright
  | failed _ _ _ => True

theorem Rule.apply_upright {f : Phrases}
    (hf : ∀ p fr s, (∀ n ∈ fr.left, n.Upright) → (f p fr s).Upright) :
    ∀ (r : Rule) (fr : Frame) (s : Stream), (∀ n ∈ fr.left, n.Upright) →
      (r.apply f fr s).Upright := by
  intro r
  induction r with
  | done | take => intro fr s _ n hn; cases hn
  | keep => intro fr s hl; exact hl
  | leaf g =>
    intro fr s _ n hn
    rw [List.mem_singleton.1 hn]
    exact .form (by simp)
  | refuse w => intro fr s _; trivial
  | expect k =>
    intro fr s _
    simp only [apply]
    split
    · intro n hn; cases hn
    · trivial
  | closing k =>
    intro fr s _
    simp only [apply]
    split
    · intro n hn; cases hn
    · intro n hn
      rw [List.mem_singleton.1 hn]
      exact Node.upright_absent _ _
  | seq a b iha ihb =>
    intro fr s hl
    cases h : (seq a b).apply f fr s with
    | failed _ _ _ => trivial
    | ok nodes fs t =>
      obtain ⟨m, gs, u, n, hs, ha, hb, rfl, -⟩ := seq_eq_ok.1 h
      have h1 := iha fr s hl
      have h2 := ihb fr u hl
      rw [ha] at h1
      rw [hb] at h2
      intro x hx
      rcases List.mem_append.1 hx with hx | hx
      · exact h1 x hx
      · exact h2 x hx
  | feed a b iha ihb =>
    intro fr s hl
    cases h : (feed a b).apply f fr s with
    | failed _ _ _ => trivial
    | ok nodes fs t =>
      obtain ⟨m, gs, u, hs, ha, hb, -⟩ := feed_eq_ok.1 h
      have h1 := iha fr s hl
      rw [ha] at h1
      have h2 := ihb { fr with left := m } u h1
      rwa [hb] at h2
  | as r a iha =>
    intro fr s hl
    cases h : (as r a).apply f fr s with
    | failed _ _ _ => trivial
    | ok nodes fs t =>
      obtain ⟨m, ha, rfl⟩ := as_eq_ok.1 h
      have h1 := iha fr s hl
      rw [ha] at h1
      intro x hx
      obtain ⟨n, hn, rfl⟩ := List.mem_map.1 hx
      exact (h1 n hn).inRole r
  | build g a iha =>
    intro fr s hl
    cases h : (build g a).apply f fr s with
    | failed _ _ _ => trivial
    | ok nodes fs t =>
      obtain ⟨m, ha, rfl⟩ := build_eq_ok.1 h
      have h1 := iha fr s hl
      rw [ha] at h1
      intro x hx
      rw [List.mem_singleton.1 hx]
      exact .form h1
  | fresh a iha =>
    intro fr s _
    exact iha _ s (by simp)
  | look g ih =>
    intro fr s hl
    exact ih s.look fr s hl
  | call p =>
    intro fr s hl
    exact hf p fr s hl
  | recover a iha =>
    intro fr s hl
    cases h : (recover a).apply f fr s with
    | failed _ _ _ => trivial
    | ok nodes fs t =>
      obtain h | ⟨fault, gs, u, -, -, -, rfl⟩ := recover_eq_ok.1 h
      · have h1 := iha fr s hl
        rwa [h] at h1
      · intro x hx m hm _
        rw [List.mem_singleton.1 hx] at hm
        cases hm with
        | self => exact t.regionFrom_forward _
        | child hc _ => cases hc

theorem Grammar.parsePhrase_upright (p : Phrase) (fr : Frame) (s : Stream)
    (hl : ∀ n ∈ fr.left, n.Upright) : (parsePhrase p fr s).Upright := by
  refine parsePhrase_induct (P := fun _ fr _ o => (∀ n ∈ fr.left, n.Upright) → o.Upright)
    ?_ ?_ p fr s hl
  · intro p fr s _
    trivial
  · intro f hf p fr s hl
    exact Rule.apply_upright hf (rule p) fr s hl

namespace SyntaxTree

theorem root_upright (source : List Char) : (ofSource source).root.Upright := by
  obtain ⟨nodes, fs, t, h, htree⟩ := ofSource_eq source
  have hup := Grammar.parsePhrase_upright .items { start := {} } (.start (tokenize source)) (by simp)
  rw [h] at hup
  rw [htree]
  exact .form hup

/-- A fault was noted exactly if a node of the tree stands for one. -/
theorem faults_eq_nil_iff (source : List Char) :
    (ofSource source).faults = [] ↔ (ofSource source).root.hasError = false := by
  obtain ⟨nodes, fs, t, h, htree⟩ := ofSource_eq source
  have hhon := Grammar.parsePhrase_honest .items { start := {} } (.start (tokenize source))
  rw [h] at hhon
  have hhon : Node.anyError nodes = true ↔ fs ≠ [] ∨ (false = true ∧ _) := hhon
  rw [htree, Node.hasError_form]
  constructor
  · rintro rfl
    simpa using hhon.not
  · intro hn
    rw [hn] at hhon
    simpa using hhon

end SyntaxTree

/-! ## The program of a source -/

namespace Program

/-- Without faults there is a program. Its items are printed legibly, and their words are the tokens
of the source, tidied up. -/
theorem parse_of_faultless {source : List Char} (h : (SyntaxTree.ofSource source).faults = []) :
    ∃ p, Program.parse source = .ok p ∧ (∀ i ∈ p.items, i.IsNeat) ∧
      (∀ t ∈ (tokenize source).tokens, t.kind ≠ .error) ∧
      ∀ d, Piece.words (Item.lines d p.items) =
        tidy (SyntaxTree.ofSource source).root.bareBodies (tokenize source).tokens .eof := by
  have hfine := (SyntaxTree.faults_eq_nil_iff source).1 h
  obtain ⟨nodes, fs, t, hparse, htree⟩ := SyntaxTree.ofSource_eq source
  obtain rfl : fs = [] := by rwa [htree] at h
  have hat := Stream.start_at source
  obtain ⟨run', hp', -, hend⟩ := (Grammar.parsePhrase_covers .items _ _ t nodes [] hat (by simp)
    hparse).items rfl
  obtain ⟨is, hall, hsay⟩ := (Grammar.parsePhrase_spec .items _ _ t nodes
    (Stream.start_of source) hparse).2
  -- the reading of the root goes through its statements
  have hread : Read.Yields ((SyntaxTree.ofSource source).root.reading source).items is := by
    rw [htree, Node.reading_form]
    exact Node.isItems hall
  obtain ⟨context, hrun⟩ := hread (.start (.ofRegion (SyntaxTree.ofSource source).root.toTree.region))
  have hfault := Node.firstFault?_spec source (SyntaxTree.ofSource source).root
  have hok : Program.parse source = .ok
      ⟨is, .ofRegion (SyntaxTree.ofSource source).root.toTree.region, context.finish⟩ := by
    rw [Program.parse, Program.ofTree]
    split at hfault
    · rename_i hnone
      have hlabel : (SyntaxTree.ofSource source).root.toTree.label = .form .sourceFile := by
        rw [htree]
        rfl
      rw [if_pos hlabel]
      have hrun : ((SyntaxTree.ofSource source).root.toTree.reading source).items.run _ = _ := hrun
      simp only [hnone, hrun]
    · rw [hfine] at hfault
      simp at hfault
  have hnil : t.ahead = [] :=
    (Stream.peek_kind_eq_eof ((Stream.start_of source).passes hp').proper).1 hend
  have hrun' : run' = (tokenize source).tokens := by
    have hahead := hp'.ahead
    rw [hnil, List.append_nil] at hahead
    exact hahead.symm
  refine ⟨_, hok, Node.isItems_neat hall, fun x hx => ?_, fun d => ?_⟩
  · obtain ⟨run, hp, -, herr, -⟩ := hsay 0
    obtain rfl := hp.run_unique hp'
    exact herr x (hrun' ▸ hx)
  · obtain ⟨run, hp, -, -, hw⟩ := hsay d
    obtain rfl := hp.run_unique hp'
    rw [← hw, hend, hrun', htree, Node.bareBodies_form (by decide)]

theorem error_of_parse {source : List Char} {e : Failure} (h : Program.parse source = .error e) :
    (SyntaxTree.ofSource source).root.hasError = true ∧
      ∃ n : Node, n.Within (SyntaxTree.ofSource source).root ∧ n.Reports source e := by
  have hfault := Node.firstFault?_spec source (SyntaxTree.ofSource source).root
  split at hfault
  · obtain ⟨p, hp, -⟩ := parse_of_faultless ((SyntaxTree.faults_eq_nil_iff source).2 hfault)
    rw [hp] at h
    cases h
  · rename_i e' he
    rw [Program.parse, Program.ofTree, he] at h
    obtain rfl := Except.error.inj h
    exact hfault

theorem faultless_of_parse {source : List Char} {p : Program} (h : Program.parse source = .ok p) :
    (SyntaxTree.ofSource source).faults = [] := by
  have hfault := Node.firstFault?_spec source (SyntaxTree.ofSource source).root
  split at hfault
  · exact (SyntaxTree.faults_eq_nil_iff source).2 hfault
  · rename_i e he
    rw [Program.parse, Program.ofTree, he] at h
    cases h

/-- Parser, tree and reader agree on which sources are programs. Where they refuse one, the failure
is the fault that a node of the tree stands for, at the place of that node. -/
theorem parse_agrees_with_tree (source : List Char) :
    ((SyntaxTree.ofSource source).faults = [] ↔
        (SyntaxTree.ofSource source).root.hasError = false) ∧
      ((SyntaxTree.ofSource source).faults = [] ↔ ∃ p, Program.parse source = .ok p) ∧
      ∀ e, Program.parse source = .error e →
        ∃ n cause, Node.Within n (SyntaxTree.ofSource source).root ∧
          e = .malformed cause (.ofRegion n.region) ∧ cause.isFault = true ∧
          (n.missing = true ∧ cause = .missing n.kind.name ∨
            n.kind = .error ∧ cause = brokenCause (n.text source)) := by
  refine ⟨SyntaxTree.faults_eq_nil_iff source, ⟨fun h => ?_, fun ⟨p, hp⟩ => ?_⟩, fun e he => ?_⟩
  · obtain ⟨p, hp, -⟩ := parse_of_faultless h
    exact ⟨p, hp⟩
  · exact faultless_of_parse hp
  · obtain ⟨-, n, hn, hrep⟩ := error_of_parse he
    have hup := SyntaxTree.root_upright source n hn
    cases hrep with
    | missing hm => exact ⟨n, _, hn, by rw [hup (.inl hm)], rfl, .inl ⟨hm, rfl⟩⟩
    | broken hk =>
      rw [hup (.inr hk)]
      exact ⟨n, _, hn, rfl, isFault_brokenCause _, .inr ⟨hk, rfl⟩⟩

end Program
end Scad
