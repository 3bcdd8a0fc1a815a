import Scad.Proofs.Grammar.Bars
import Scad.Proofs.Program.Forms.Stmt

/-!
# What expressions are parsed as

For every phrase of an expression that is parsed without a fault: its nodes are read as parts of a
program, and the words of these parts, as they are printed, are the tokens that the phrase passed,
tidied up. The proof goes along the table of rules; `Forms` says what each node is read as.
-/

namespace Scad

open Piece Rule

/-- The tokens that go on with an operand. -/
def TokenKind.extends : TokenKind → Bool
  | .dot | .lparen | .lbracket => true
  | _ => false

theorem endsList_of_closes {k : TokenKind} (h : k.closes = false) : k.endsList = false := by
  revert h
  cases k <;> decide

namespace Grammar

section

variable (source : List Char)

/-- One expression, with nothing behind it that would go on with it. -/
def ExprSpec (s : Stream) (ns : List Node) (t : Stream) : Prop :=
  ∃ n e l, ns = [n] ∧ n.IsExpr source e l ∧ s.Says [] t (words e.pieces) ∧
    t.peek.kind.extends = false

/-- An operand. A point may follow it: if it ends with a number, it is one. -/
def OperandSpec (s : Stream) (ns : List Node) (t : Stream) : Prop :=
  ∃ n e l, ns = [n] ∧ n.IsExpr source e l ∧ s.Says [] t (words e.pieces) ∧
    (t.peek.kind = .dot → e.number?.isSome = true ∨ l ≠ .number)

/-- An expression that goes on from the one to the left. -/
def GrowthSpec (fr : Frame) (s : Stream) (ns : List Node) (t : Stream) : Prop :=
  ∀ n e l, fr.left = [n] → n.IsExpr source e l →
    (s.peek.kind = .dot → e.number?.isSome = true ∨ l ≠ .number) →
    ∃ n' e' l' ws, ns = [n'] ∧ n'.IsExpr source e' l' ∧ s.Says [] t ws ∧
      words e'.pieces = words e.pieces ++ ws ∧ t.peek.kind.extends = false

/-- What is known of a phrase of an expression that was parsed without a fault. -/
def InnerSpec : Phrase → Frame → Stream → List Node → Stream → Prop
  | .expr _, _, s, ns, t => ExprSpec source s ns t
  | .unary, _, s, ns, t => ExprSpec source s ns t
  | .primary, _, s, ns, t => OperandSpec source s ns t
  | .element, _, s, ns, t =>
    ∃ n e, ns = [n] ∧ n.IsElement source e ∧ s.Says [] t (words e.pieces)
  | .suffixes, fr, s, ns, t => GrowthSpec source fr s ns t
  | .operators _, fr, s, ns, t => s.peek.kind.extends = false → GrowthSpec source fr s ns t
  | .arguments, _, s, ns, t =>
    ∃ as, List.Forall₂ (Node.IsArg source) ns as ∧ as ≠ [] ∧
      s.Says [] t (words (commas (Arg.piecesAll as)))
  | .bindings, _, s, ns, t => t.peek.kind ≠ .eof →
    ∃ bs, List.Forall₂ (Node.IsBinding source) ns bs ∧
      (bs = [] ↔ s.peek.kind.endsList = true) ∧
      s.Says [] t (words (commas (Assignment.piecesAll bs)))
  | .parameters, _, s, ns, t => t.peek.kind ≠ .eof →
    ∃ ps, List.Forall₂ (Node.IsParam source) ns ps ∧ (ps = [] ↔ s.peek.kind.endsList = true) ∧
      s.Says [] t (words (commas (Param.piecesAll ps)))
  | .elements, _, s, ns, t =>
    ∃ es, List.Forall₂ (Node.IsElement source) ns es ∧
      ∃ ws, s.Says [] t ws ∧ ∀ p, words (commas (p :: Expr.piecesAll es)) = words p ++ ws
  | _, _, _, _, _ => True

/-- Phrases of which all this is known. -/
structure Knows (f : Phrases) : Prop where
  barring : f.Barring
  inner : ∀ p fr (s : Stream) ns t, s.Of source → f p fr s = .ok ns [] t →
    InnerSpec source p fr s ns t

end

section

variable {source : List Char} {f : Phrases} {fr : Frame} {s t : Stream} {ns : List Node}

/-- A phrase that starts with an expression does not start with a closing mark. -/
theorem Knows.closes_eq_false (hf : Knows source f) {p : Phrase} (hs : s.Of source)
    (hp : ∀ k, p.bars k = k.closes) (h : f p fr s = .ok ns [] t) :
    s.peek.kind.closes = false := by
  by_contra hc
  exact hf.barring p fr s ns t hs.proper (by simpa [hp] using hc) h

theorem Knows.expression (hf : Knows source f) (hs : s.Of source)
    (h : Gives f expression fr s ns t) :
    ExprSpec source s ns t ∧ s.peek.kind.closes = false :=
  ⟨hf.inner (.expr .ternary) fr s ns t hs h, hf.closes_eq_false hs (fun _ => rfl) h⟩

/-! ## Names -/

/-- The form of the leaf of a name, and the kind of its token. -/
def Names (g : Form) (k : TokenKind) : Prop :=
  g = .identifier ∧ k = .identifier ∨ g = .specialVariable ∧ k = .special

/-- The leaf of a name. -/
theorem name_spec {g : Form} (hs : s.Of source)
    (hk : Names g s.peek.kind)
    (h : Gives f (leaf g) fr s ns t) :
    ∃ n name, ns = [n] ∧ n.IsName source name ∧ s.Says [] t (words name.pieces) ∧ t = s.advance := by
  obtain ⟨rfl, rfl⟩ := gives_leaf.1 h
  have hk' : s.peek.kind = .identifier ∨ s.peek.kind = .special := by
    rcases hk with ⟨-, hk⟩ | ⟨-, hk⟩ <;> simp [hk]
  have hsound := hs.peek_sound (by rcases hk' with hk' | hk' <;> simp [hk'])
  obtain ⟨name, hn, hp⟩ : ∃ name, Node.IsName source ⟨.form g, s.peek.region, none, false, []⟩ name ∧
      name.pieces = [Piece.word s.peek.kind s.peek.text] := Node.isName_leaf hsound hk
  refine ⟨_, name, rfl, hn, ?_, rfl⟩
  rw [hp]
  exact Stream.says_verbatim hs.proper rfl (by rcases hk' with hk' | hk' <;> simp [hk'])

/-- A name, an equals sign and a value. -/
theorem named_spec (hf : Knows source f) {g g' : Form} {r : Role} (hs : s.Of source)
    (hk : Names g s.peek.kind)
    (h : Gives f (node g' [as .name (leaf g), expect .assign, as r expression]) fr s ns t) :
    ∃ (d a : Node) (name : Name) (e : Expr) (l : TokenKind) (region : Region),
      ns = [⟨.form g', region, none, false, [d.inRole .name, a.inRole r]⟩] ∧ d.IsName source name ∧
      a.IsExpr source e l ∧ s.Says [] t (words (name.pieces ++ spaced .assign ++ e.pieces)) := by
  simp only [node, all, gives_fresh, gives_build, gives_seq, gives_as, gives_expect] at h
  obtain ⟨_, ⟨_, u, _, ⟨_, hd, rfl⟩, ⟨_, _, _, ⟨hk1, rfl, rfl⟩, ⟨_, ha, rfl⟩, rfl⟩, rfl⟩, rfl⟩ := h
  obtain ⟨d, name, rfl, hname, hsay, rfl⟩ := name_spec hs hk hd
  have hs1 := hsay.of hs
  have hassign := Stream.says_mark hs1 hk1 rfl (by decide)
  have hs2 := hassign.of hs1
  obtain ⟨⟨a, e, l, rfl, hexpr, hsay', -⟩, -⟩ := hf.expression hs2 ha
  refine ⟨d, a, name, e, l, _, rfl, hname, hexpr, ?_⟩
  have hall := (hsay.trans hs hassign).trans hs hsay'
  simpa using hall

/-! ## Lists -/

theorem piecesAll_eq_map :
    (∀ as, Arg.piecesAll as = as.map Arg.pieces) ∧
      (∀ bs, Assignment.piecesAll bs = bs.map Assignment.pieces) ∧
      (∀ ps, Param.piecesAll ps = ps.map Param.pieces) ∧
      ∀ es, Expr.piecesAll es = es.map Expr.pieces := by
  refine ⟨fun as => ?_, fun bs => ?_, fun ps => ?_, fun es => ?_⟩
  · induction as with
    | nil => rfl
    | cons a as ih => rw [Arg.piecesAll, ih, List.map_cons]
  · induction bs with
    | nil => rfl
    | cons b bs ih => rw [Assignment.piecesAll, ih, List.map_cons]
  · induction ps with
    | nil => rfl
    | cons p ps ih => rw [Param.piecesAll, ih, List.map_cons]
  · induction es with
    | nil => rfl
    | cons e es ih => rw [Expr.piecesAll, ih, List.map_cons]

/-- One element of a list, and behind a comma the elements that follow. A comma with none behind it
is not printed. -/
theorem list_spec {α : Type} {R : Node → α → Prop} {pieces : α → List Piece} {n : Node} {a : α}
    {u : Stream} {ms : List Node} (hs : s.Of source) (hn : R n a)
    (hsay : s.Says [] u (words (pieces a)))
    (more : u.peek.kind = .comma → ∃ as, List.Forall₂ R ms as ∧
      (as = [] ↔ u.advance.peek.kind.endsList = true) ∧
      u.advance.Says [] t (words (commas (as.map pieces))))
    (last : u.peek.kind ≠ .comma → ms = [] ∧ t = u) :
    ∃ as, List.Forall₂ R (n :: ms) as ∧ as ≠ [] ∧
      s.Says [] t (words (commas (as.map pieces))) := by
  have hu := hsay.of hs
  by_cases hc : u.peek.kind = .comma
  · obtain ⟨as, hall, hend, hrest⟩ := more hc
    refine ⟨a :: as, .cons hn hall, by simp, ?_⟩
    cases as with
    | nil =>
      have hdrop := Stream.says_comma_dropped hu.proper hc (hend.1 rfl)
      simpa using (hsay.trans hs hdrop).trans hs hrest
    | cons b as =>
      have hkeep := Stream.says_comma hu hc (by simpa using hend.not.1 (by simp))
      simpa using (hsay.trans hs hkeep).trans hs hrest
  · obtain ⟨rfl, rfl⟩ := last hc
    exact ⟨[a], .cons hn .nil, by simp, by simpa using hsay⟩

/-- A list of which each element starts with a name. -/
theorem names_spec {α : Type} {R : Node → α → Prop} {pieces : α → List Piece} {g : Form → Rule}
    {w : Wanted} {p : Phrase} (hs : s.Of source)
    (one : ∀ form m u, Names form s.peek.kind → Gives f (g form) fr s m u →
      ∃ n a, m = [n] ∧ R n a ∧ s.Says [] u (words (pieces a)))
    (more : ∀ u ms, u.Of source → f p fr u = .ok ms [] t → ∃ as, List.Forall₂ R ms as ∧
      (as = [] ↔ u.peek.kind.endsList = true) ∧ u.Says [] t (words (commas (as.map pieces))))
    (h : Gives f (seq (named g w)
      (look fun a => if a.kind = .comma then seq take (call p) else done)) fr s ns t) :
    ∃ as, List.Forall₂ R ns as ∧ (as = [] ↔ s.peek.kind.endsList = true) ∧
      s.Says [] t (words (commas (as.map pieces))) := by
  obtain ⟨m, u, ms, h1, h2, rfl⟩ := gives_seq.1 h
  obtain ⟨n, a, rfl, hn, hsay, hend⟩ : ∃ n a, m = [n] ∧ R n a ∧
      s.Says [] u (words (pieces a)) ∧ s.peek.kind.endsList = false := by
    simp only [named, gives_look, Stream.look_kind] at h1
    split at h1
    · rename_i hk
      obtain ⟨n, a, rfl, hn, hsay⟩ := one _ _ _ (.inl ⟨rfl, hk⟩) h1
      exact ⟨n, a, rfl, hn, hsay, by rw [hk]; rfl⟩
    · rename_i hk
      obtain ⟨n, a, rfl, hn, hsay⟩ := one _ _ _ (.inr ⟨rfl, hk⟩) h1
      exact ⟨n, a, rfl, hn, hsay, by rw [hk]; rfl⟩
    · exact absurd h1 gives_refuse
  have hu := hsay.of hs
  simp only [gives_look, gives_ite, gives_seq, gives_take, gives_call, gives_done,
    Stream.look_kind] at h2
  have behind : u.peek.kind = .comma → ∃ as, List.Forall₂ R ms as ∧
      (as = [] ↔ u.advance.peek.kind.endsList = true) ∧
      u.advance.Says [] t (words (commas (as.map pieces))) := by
    intro hc
    obtain ⟨-, _, _, ms', ⟨rfl, rfl⟩, hrest, rfl⟩ | ⟨hne, -⟩ := h2
    case inr => exact absurd hc hne
    exact more _ _ (hu.passes (Stream.passes_peek hu.proper (by rw [hc]; decide))) hrest
  have last : u.peek.kind ≠ .comma → ms = [] ∧ t = u := by
    intro hc
    exact (h2.resolve_left fun h => hc h.1).2
  obtain ⟨as, hall, hne, hsaid⟩ := list_spec hs hn hsay behind last
  exact ⟨as, hall, by simp [hne, hend], hsaid⟩

theorem bindings_spec (hf : Knows source f) (hs : s.Of source) (h : Gives f bindings fr s ns t) :
    InnerSpec source .bindings fr s ns t := by
  intro ht
  simp only [piecesAll_eq_map.2.1]
  simp only [bindings, gives_look, Stream.look_kind] at h
  split at h
  · rename_i hk
    obtain ⟨rfl, rfl⟩ := gives_done.1 h
    exact ⟨[], .nil, by simp [hk, TokenKind.endsList], .refl _⟩
  · rename_i hk
    obtain ⟨rfl, rfl⟩ := gives_done.1 h
    exact ⟨[], .nil, by simp [hk, TokenKind.endsList], .refl _⟩
  · rename_i hk
    obtain ⟨-, rfl⟩ := gives_done.1 h
    exact absurd hk ht
  · refine names_spec hs ?_ ?_ h
    · intro form m u hk hm
      obtain ⟨d, a, name, e, l, region, rfl, hd, ha, hsay⟩ := named_spec hf hs hk hm
      exact ⟨_, _, rfl, Node.isBinding_mk hd ha, hsay⟩
    · intro u ms hu hms
      have hspec := hf.inner .bindings fr u ms t hu hms ht
      simpa only [piecesAll_eq_map.2.1] using hspec

/-- A parameter, with or without a default. -/
theorem parameter_spec (hf : Knows source f) {g : Form} (hs : s.Of source)
    (hk : Names g s.peek.kind) (h : Gives f (parameter g) fr s ns t) :
    ∃ n p, ns = [n] ∧ n.IsParam source p ∧ s.Says [] t (words p.pieces) := by
  simp only [parameter, node, all, gives_fresh, gives_build, gives_seq, gives_as, gives_look,
    gives_ite, gives_take, gives_done, Stream.look_kind] at h
  obtain ⟨_, ⟨_, u, m, ⟨_, hd, rfl⟩, h2, rfl⟩, rfl⟩ := h
  obtain ⟨d, name, rfl, hname, hsay, -⟩ := name_spec hs hk hd
  have hu := hsay.of hs
  obtain ⟨hassign, _, _, _, ⟨rfl, rfl⟩, ⟨_, ha, rfl⟩, rfl⟩ | ⟨-, rfl, rfl⟩ := h2
  · have hmark := Stream.says_mark hu hassign rfl (by decide)
    obtain ⟨⟨a, e, l, rfl, hexpr, hsay', -⟩, -⟩ := hf.expression (hmark.of hu) ha
    refine ⟨_, _, rfl, Node.isParam_default hname hexpr, ?_⟩
    simpa [Param.pieces, Expr.piecesDefault] using (hsay.trans hs hmark).trans hs hsay'
  · refine ⟨_, _, rfl, Node.isParam_plain hname, ?_⟩
    simpa [Param.pieces, Expr.piecesDefault] using hsay

theorem parameters_spec (hf : Knows source f) (hs : s.Of source)
    (h : Gives f parameters fr s ns t) : InnerSpec source .parameters fr s ns t := by
  intro ht
  simp only [piecesAll_eq_map.2.2.1]
  simp only [parameters, gives_look, Stream.look_kind] at h
  split at h
  · rename_i hk
    obtain ⟨rfl, rfl⟩ := gives_done.1 h
    exact ⟨[], .nil, by simp [hk, TokenKind.endsList], .refl _⟩
  · rename_i hk
    obtain ⟨-, rfl⟩ := gives_done.1 h
    exact absurd hk ht
  · refine names_spec hs ?_ ?_ h
    · intro form m u hk hm
      exact parameter_spec hf hs hk hm
    · intro u ms hu hms
      have hspec := hf.inner .parameters fr u ms t hu hms ht
      simpa only [piecesAll_eq_map.2.2.1] using hspec

theorem argument_spec (hf : Knows source f) (hs : s.Of source) (h : Gives f argument fr s ns t) :
    ∃ n a, ns = [n] ∧ n.IsArg source a ∧ s.Says [] t (words a.pieces) := by
  simp only [argument, gives_look] at h
  split at h
  · rename_i hk _
    obtain ⟨d, a, name, e, l, region, rfl, hd, ha, hsay⟩ := named_spec hf hs (.inl ⟨rfl, hk⟩) h
    exact ⟨_, _, rfl, Node.isArg_named hd ha, hsay⟩
  · rename_i hk _
    obtain ⟨d, a, name, e, l, region, rfl, hd, ha, hsay⟩ := named_spec hf hs (.inr ⟨rfl, hk⟩) h
    exact ⟨_, _, rfl, Node.isArg_named hd ha, hsay⟩
  · obtain ⟨⟨n, e, l, rfl, hn, hsay, -⟩, -⟩ := hf.expression hs h
    exact ⟨n, _, rfl, hn.isArg, hsay⟩

theorem arguments_spec (hf : Knows source f) (hs : s.Of source) (h : Gives f arguments fr s ns t) :
    InnerSpec source .arguments fr s ns t := by
  simp only [arguments, gives_seq, gives_look, gives_ite, gives_take, gives_call, gives_done,
    Stream.look_kind] at h
  obtain ⟨_, u, ms, h1, h2, rfl⟩ := h
  obtain ⟨n, a, rfl, hn, hsay⟩ := argument_spec hf hs h1
  have hu := hsay.of hs
  have behind : u.peek.kind = .comma → ∃ as, List.Forall₂ (Node.IsArg source) ms as ∧
      (as = [] ↔ u.advance.peek.kind.endsList = true) ∧
      u.advance.Says [] t (words (commas (as.map Arg.pieces))) := by
    intro hc
    have hu' := hu.passes (Stream.passes_peek hu.proper (by rw [hc]; decide))
    obtain ⟨-, _, _, ms', ⟨rfl, rfl⟩, hrest, rfl⟩ | ⟨hne, -⟩ := h2
    case inr => exact absurd hc hne
    obtain ⟨hr, rfl, rfl⟩ | ⟨-, hrest⟩ := hrest
    · exact ⟨[], .nil, by simp [hr, TokenKind.endsList], .refl _⟩
    · obtain ⟨as, hall, hne, hsaid⟩ := hf.inner .arguments fr _ _ _ hu' hrest
      have hend := endsList_of_closes (hf.closes_eq_false hu' (fun _ => rfl) hrest)
      rw [piecesAll_eq_map.1] at hsaid
      exact ⟨as, by simpa using hall, by simp [hne, hend], hsaid⟩
  have last : u.peek.kind ≠ .comma → ms = [] ∧ t = u := by
    intro hc
    exact (h2.resolve_left fun h => hc h.1).2
  obtain ⟨as, hall, hne, hsaid⟩ := list_spec hs hn hsay behind last
  rw [← piecesAll_eq_map.1] at hsaid
  exact ⟨as, hall, hne, hsaid⟩

theorem elements_spec (hf : Knows source f) (hs : s.Of source) (h : Gives f elements fr s ns t) :
    InnerSpec source .elements fr s ns t := by
  simp only [elements, gives_look, gives_ite, gives_seq, gives_take, gives_call, gives_done,
    Stream.look_kind] at h
  obtain ⟨hc, _, _, _, ⟨rfl, rfl⟩, h2, rfl⟩ | ⟨-, rfl, rfl⟩ := h
  · have hs' := hs.passes (Stream.passes_peek hs.proper (by rw [hc]; decide))
    obtain ⟨hr, rfl, rfl⟩ | ⟨-, m, u, ms, h3, h4, rfl⟩ := h2
    · refine ⟨[], .nil, [], ?_, by simp [Expr.piecesAll]⟩
      exact Stream.says_comma_dropped hs.proper hc (by rw [hr]; rfl)
    · obtain ⟨n, e, rfl, hn, hsay⟩ := hf.inner .element fr _ _ _ hs' h3
      have hend := endsList_of_closes (hf.closes_eq_false hs' (fun _ => rfl) h3)
      obtain ⟨es, hall, ws, hsaid, heq⟩ := hf.inner .elements fr _ _ _ (hsay.of hs') h4
      have hcomma := Stream.says_comma hs hc hend
      refine ⟨e :: es, .cons hn hall, _, (hcomma.trans hs hsay).trans hs hsaid, fun p => ?_⟩
      simp only [Expr.piecesAll, commas_cons_cons, words_append, words_mark, words_blank, heq]
      simp
  · exact ⟨[], .nil, [], .refl _, by simp [Expr.piecesAll]⟩

/-! ## Lists in parentheses -/

/-- What stands between parentheses. -/
theorem parens_spec {u : Stream} {ps : List Piece} (hs : s.Of source)
    (hl : s.peek.kind = .lparen) (hsay : s.advance.Says [] u (words ps))
    (hr : u.peek.kind = .rparen) : s.Says [] u.advance (words (parens ps)) := by
  have hopen := Stream.says_mark hs hl rfl (by decide)
  have hclose := Stream.says_mark (hsay.of (hopen.of hs)) hr rfl (by decide)
  simpa using (hopen.trans hs hsay).trans hs hclose

theorem advance_of {k : TokenKind} (hs : s.Of source) (hk : s.peek.kind = k) (he : k ≠ .eof) :
    s.advance.Of source :=
  hs.passes (Stream.passes_peek hs.proper (by rw [hk]; exact he))

theorem argumentList_spec (hf : Knows source f) (hs : s.Of source)
    (h : Gives f argumentList fr s ns t) :
    ∃ (n : Node) (as : List Arg), ns = [n.inRole .arguments] ∧ n.IsArgs source as ∧
      s.Says [] t (words (parens (commas (Arg.piecesAll as)))) := by
  simp only [argumentList, all, node, gives_seq, gives_expect, gives_as, gives_fresh, gives_build,
    gives_look, gives_closing, Stream.look_kind] at h
  obtain ⟨_, _, _, ⟨hl, rfl, rfl⟩, ⟨_, u, _, ⟨_, ⟨m, hm, rfl⟩, rfl⟩, ⟨hr, rfl, rfl⟩, rfl⟩, rfl⟩ := h
  have hs' := advance_of hs hl (by decide)
  split at hm
  · obtain ⟨rfl, rfl⟩ := gives_done.1 hm
    exact ⟨_, [], rfl, Node.isArgs .nil, parens_spec hs hl (.refl _) hr⟩
  · rename_i hk
    obtain ⟨rfl, rfl⟩ := gives_done.1 hm
    rw [hk] at hr
    cases hr
  · obtain ⟨as, hall, -, hsay⟩ := hf.inner .arguments _ _ _ _ hs' hm
    exact ⟨_, as, rfl, Node.isArgs hall, parens_spec hs hl hsay hr⟩

/-- Bindings up to a mark that ends them. -/
theorem assignments_spec (hf : Knows source f) (hs : s.Of source) (ht : t.peek.kind ≠ .eof)
    (h : Gives f assignments fr s ns t) :
    ∃ n bs, ns = [n] ∧ n.IsBindings source bs ∧
      s.Says [] t (words (commas (Assignment.piecesAll bs))) := by
  simp only [assignments, all, node, gives_fresh, gives_build, gives_call] at h
  obtain ⟨m, hm, rfl⟩ := h
  obtain ⟨bs, hall, -, hsay⟩ := hf.inner .bindings _ _ _ _ hs hm ht
  exact ⟨_, bs, rfl, Node.isBindings hall, hsay⟩

theorem bindingList_spec (hf : Knows source f) (hs : s.Of source)
    (h : Gives f bindingList fr s ns t) :
    ∃ (n : Node) (bs : List Assignment), ns = [n.inRole .bindings] ∧ n.IsBindings source bs ∧
      s.Says [] t (words (parens (commas (Assignment.piecesAll bs)))) := by
  simp only [bindingList, all, gives_seq, gives_expect, gives_as, gives_closing] at h
  obtain ⟨_, _, _, ⟨hl, rfl, rfl⟩, ⟨_, u, _, ⟨m, hm, rfl⟩, ⟨hr, rfl, rfl⟩, rfl⟩, rfl⟩ := h
  obtain ⟨n, bs, rfl, hn, hsay⟩ := assignments_spec hf (advance_of hs hl (by decide))
    (by rw [hr]; decide) hm
  exact ⟨n, bs, rfl, hn, parens_spec hs hl hsay hr⟩

theorem parameterList_spec (hf : Knows source f) (hs : s.Of source)
    (h : Gives f parameterList fr s ns t) :
    ∃ (n : Node) (ps : List Param), ns = [n.inRole .parameters] ∧ n.IsParams source ps ∧
      s.Says [] t (words (parens (commas (Param.piecesAll ps)))) := by
  simp only [parameterList, all, node, gives_seq, gives_expect, gives_as, gives_closing,
    gives_fresh, gives_build, gives_call] at h
  obtain ⟨_, _, _, ⟨hl, rfl, rfl⟩, ⟨_, u, _, ⟨_, ⟨m, hm, rfl⟩, rfl⟩, ⟨hr, rfl, rfl⟩, rfl⟩, rfl⟩ := h
  obtain ⟨ps, hall, -, hsay⟩ := hf.inner .parameters _ _ _ _ (advance_of hs hl (by decide)) hm
    (by rw [hr]; decide)
  exact ⟨_, ps, rfl, Node.isParams hall, parens_spec hs hl hsay hr⟩

/-! ## Suffixes and operators -/

theorem GrowthSpec.refl {n : Node} {e : Expr} {l : TokenKind} (hn : n.IsExpr source e l)
    (ht : s.peek.kind.extends = false) :
    ∃ n' e' l' ws, [n] = [n'] ∧ n'.IsExpr source e' l' ∧ s.Says [] s ws ∧
      words e'.pieces = words e.pieces ++ ws ∧ s.peek.kind.extends = false :=
  ⟨n, e, l, [], rfl, hn, .refl s, by simp, ht⟩

/-- An expression that grew once goes on growing. -/
theorem GrowthSpec.step {u : Stream} {e e₁ : Expr} {l₁ : TokenKind} {n₁ : Node} {ws : List Word}
    {ns : List Node} (hs : s.Of source) (hn₁ : n₁.IsExpr source e₁ l₁) (hsay : s.Says [] u ws)
    (heq : words e₁.pieces = words e.pieces ++ ws)
    (hdot : u.peek.kind = .dot → e₁.number?.isSome = true ∨ l₁ ≠ .number)
    (hrest : GrowthSpec source { fr with left := [n₁] } u ns t) :
    ∃ n' e' l' ws, ns = [n'] ∧ n'.IsExpr source e' l' ∧ s.Says [] t ws ∧
      words e'.pieces = words e.pieces ++ ws ∧ t.peek.kind.extends = false := by
  obtain ⟨n', e', l', ws', rfl, hn', hsay', heq', ht⟩ := hrest n₁ e₁ l₁ rfl hn₁ hdot
  exact ⟨n', e', l', ws ++ ws', rfl, hn', hsay.trans hs hsay', by rw [heq', heq]; simp, ht⟩

theorem suffixes_spec (hf : Knows source f) (hs : s.Of source) (h : Gives f suffixes fr s ns t) :
    GrowthSpec source fr s ns t := by
  intro n e l hleft hn hdot
  simp only [suffixes, gives_look, Stream.look_kind] at h
  split at h
  · rename_i hk
    simp only [gives_feed, gives_build, gives_seq, gives_as, gives_keep, gives_call] at h
    obtain ⟨_, u, ⟨_, ⟨_, _, _, ⟨_, ⟨rfl, rfl⟩, rfl⟩, ha, rfl⟩, rfl⟩, hrest⟩ := h
    obtain ⟨d, as, rfl, hd, hsay⟩ := argumentList_spec hf hs ha
    rw [hleft] at hrest
    have hu := hsay.of hs
    refine GrowthSpec.step hs (Node.isExpr_call hn hd) hsay ?_ (fun _ => .inr (by decide))
      (hf.inner .suffixes _ _ _ _ hu hrest)
    simp [Expr.pieces]
  · rename_i hk
    simp only [all, gives_feed, gives_build, gives_seq, gives_as, gives_keep, gives_take,
      gives_closing, gives_call] at h
    obtain ⟨_, _, ⟨_, ⟨_, _, _, ⟨_, ⟨rfl, rfl⟩, rfl⟩, ⟨_, _, _, ⟨rfl, rfl⟩, ⟨_, u, _, ⟨_, ha, rfl⟩,
      ⟨hr, rfl, rfl⟩, rfl⟩, rfl⟩, rfl⟩, rfl⟩, hrest⟩ := h
    have hopen := Stream.says_mark hs hk rfl (by decide)
    obtain ⟨⟨i, ei, li, rfl, hi, hsay, -⟩, -⟩ := hf.expression (hopen.of hs) ha
    have hclose := Stream.says_mark (hsay.of (hopen.of hs)) hr rfl (by decide)
    have hall := (hopen.trans hs hsay).trans hs hclose
    rw [hleft] at hrest
    refine GrowthSpec.step hs (Node.isExpr_index hn hi) hall ?_ (fun _ => .inr (by decide))
      (hf.inner .suffixes _ _ _ _ (hall.of hs) hrest)
    simp [Expr.pieces]
  · rename_i hk
    simp only [all, gives_feed, gives_build, gives_seq, gives_as, gives_keep, gives_take,
      gives_look, gives_ite, gives_call, gives_refuse, Stream.look_kind, and_false, or_false] at h
    obtain ⟨_, _, ⟨_, ⟨_, _, _, ⟨_, ⟨rfl, rfl⟩, rfl⟩, ⟨_, _, _, ⟨rfl, rfl⟩, ⟨hname, _, hd, rfl⟩,
      rfl⟩, rfl⟩, rfl⟩, hrest⟩ := h
    have hpoint := Stream.says_mark hs hk rfl (by decide)
    obtain ⟨d, name, rfl, hd, hsay, -⟩ := name_spec (hpoint.of hs) (.inl ⟨rfl, hname⟩) hd
    have hall := hpoint.trans hs hsay
    rw [hleft] at hrest
    obtain ⟨l', hl', hm⟩ := Node.isExpr_member hn hd (hdot hk)
    refine GrowthSpec.step hs hm hall ?_ (fun _ => .inr hl')
      (hf.inner .suffixes _ _ _ _ (hall.of hs) hrest)
    simp only [Expr.pieces]
    split <;> simp
  · rename_i h1 h2 h3
    obtain ⟨rfl, rfl⟩ := gives_keep.1 h
    rw [hleft]
    refine GrowthSpec.refl hn ?_
    revert h1 h2 h3
    cases t.peek.kind <;> simp [TokenKind.extends]

/-- The leaf of a token of a kind with one spelling. -/
theorem symbol_spec {k : TokenKind} {g : Form} (hg : g ≠ .moduleItem) (hs : s.Of source)
    (hk : s.peek.kind = k) (hfix : k.isFixed = true) :
    Node.IsSymbol source ⟨.form g, s.peek.region, none, false, []⟩ k.text := by
  have h1 : s.peek.kind ≠ .eof := by rintro h; rw [← hk, h] at hfix; cases hfix
  have h2 : s.peek.kind ≠ .error := by rintro h; rw [← hk, h] at hfix; cases hfix
  have ht := (hs.peek_spelling h1 h2).text_eq (by rw [hk]; exact hfix)
  have hleaf : Node.IsSymbol source ⟨.form g, s.peek.region, none, false, []⟩ s.peek.text :=
    Node.isSymbol_leaf hg (hs.peek_sound h1)
  rwa [← String.ofList_toList (s := s.peek.text), ht, String.ofList_toList, hk] at hleaf

theorem binaryOp_of_level {k : TokenKind} {m : Level} (h : Level.ofToken? k = some m)
    (hm : m ≠ .ternary) : ∃ o : BinaryOp, k = o.token ∧ k.text = o.text := by
  revert h
  cases k <;> simp only [Level.ofToken?, Option.some.injEq, reduceCtorEq, false_implies]
  case question => rintro rfl; exact absurd rfl hm
  case plus => exact fun _ => ⟨.add, rfl, rfl⟩
  case minus => exact fun _ => ⟨.sub, rfl, rfl⟩
  case star => exact fun _ => ⟨.mul, rfl, rfl⟩
  case slash => exact fun _ => ⟨.div, rfl, rfl⟩
  case percent => exact fun _ => ⟨.mod, rfl, rfl⟩
  case caret => exact fun _ => ⟨.pow, rfl, rfl⟩
  case eqEq => exact fun _ => ⟨.eq, rfl, rfl⟩
  case bangEq => exact fun _ => ⟨.ne, rfl, rfl⟩
  case lt => exact fun _ => ⟨.lt, rfl, rfl⟩
  case gt => exact fun _ => ⟨.gt, rfl, rfl⟩
  case ltEq => exact fun _ => ⟨.le, rfl, rfl⟩
  case gtEq => exact fun _ => ⟨.ge, rfl, rfl⟩
  case andAnd => exact fun _ => ⟨.and, rfl, rfl⟩
  case orOr => exact fun _ => ⟨.or, rfl, rfl⟩

theorem question_of_level {k : TokenKind} (h : Level.ofToken? k = some .ternary) :
    k = .question := by
  revert h
  cases k <;> decide

theorem ne_dot_of_extends {k : TokenKind} (h : k.extends = false) : k ≠ .dot := by
  rintro rfl
  cases h

theorem operators_spec (hf : Knows source f) {level : Level} (hs : s.Of source)
    (he : s.peek.kind.extends = false) (h : Gives f (operators level) fr s ns t) :
    GrowthSpec source fr s ns t := by
  intro n e l hleft hn hdot
  simp only [operators, gives_look, Stream.look_kind] at h
  split at h
  · obtain ⟨rfl, rfl⟩ := gives_keep.1 h
    rw [hleft]
    exact GrowthSpec.refl hn he
  · rename_i m hm
    obtain ⟨-, h⟩ | ⟨-, h⟩ := gives_ite.1 h
    · obtain ⟨rfl, rfl⟩ := gives_keep.1 h
      rw [hleft]
      exact GrowthSpec.refl hn he
    · obtain ⟨m', u, hgrow, hrest⟩ := gives_feed.1 h
      rw [gives_call] at hrest
      obtain ⟨rfl, h1⟩ | ⟨hne, h1⟩ := gives_ite.1 hgrow
      · simp only [all, gives_build, gives_seq, gives_as, gives_keep, gives_take, gives_expect] at h1
        obtain ⟨_, ⟨_, _, _, ⟨_, ⟨rfl, rfl⟩, rfl⟩, ⟨_, _, _, ⟨rfl, rfl⟩, ⟨_, v, _, ⟨_, ha, rfl⟩,
          ⟨_, _, _, ⟨hc, rfl, rfl⟩, ⟨_, hb, rfl⟩, rfl⟩, rfl⟩, rfl⟩, rfl⟩, rfl⟩ := h1
        have hq := Stream.says_mark hs (question_of_level hm) rfl (by decide)
        obtain ⟨⟨a, ea, la, rfl, ha, hsaya, -⟩, -⟩ := hf.expression (hq.of hs) ha
        have h2 := hq.trans hs hsaya
        have hcolon := Stream.says_mark (h2.of hs) hc rfl (by decide)
        have h3 := h2.trans hs hcolon
        obtain ⟨⟨b, eb, lb, rfl, hb, hsayb, hext⟩, -⟩ := hf.expression (h3.of hs) hb
        have hall := h3.trans hs hsayb
        rw [hleft] at hrest
        refine GrowthSpec.step hs (Node.isExpr_ternary hn ha hb) hall ?_
          (fun hd => absurd hd (ne_dot_of_extends hext))
          (hf.inner (.operators level) _ _ _ _ (hall.of hs) hrest hext)
        simp [Expr.pieces]
      · simp only [all, gives_build, gives_seq, gives_as, gives_keep, gives_leaf, gives_call] at h1
        obtain ⟨_, ⟨_, s, _, ⟨_, ⟨rfl, rfl⟩, rfl⟩, ⟨_, _, _, ⟨_, ⟨rfl, rfl⟩, rfl⟩, ⟨_, hb, rfl⟩,
          rfl⟩, rfl⟩, rfl⟩ := h1
        obtain ⟨o, ho, htext⟩ := binaryOp_of_level hm hne
        have hmark := Stream.says_mark hs ho (by cases o <;> rfl) (by cases o <;> decide)
        have hsym : Node.IsSymbol source ⟨.form .operator, s.peek.region, none, false, []⟩ o.text := by
          have hsym := symbol_spec (g := .operator) (by decide) hs ho (by cases o <;> rfl)
          rwa [← ho, htext] at hsym
        obtain ⟨b, eb, lb, rfl, hb, hsayb, hext⟩ := hf.inner (.expr _) _ _ _ _ (hmark.of hs) hb
        have hall := hmark.trans hs hsayb
        rw [hleft] at hrest
        refine GrowthSpec.step hs (Node.isExpr_binary hn hsym hb) hall ?_
          (fun hd => absurd hd (ne_dot_of_extends hext))
          (hf.inner (.operators level) _ _ _ _ (hall.of hs) hrest hext)
        simp [Expr.pieces]

/-- An operand and what goes on from it. -/
theorem feed_spec {u : Stream} {m : List Node} {start : Position} (hs : s.Of source)
    (h : OperandSpec source s m u)
    (hrest : u.Of source → GrowthSpec source { start, left := m } u ns t) :
    ExprSpec source s ns t := by
  obtain ⟨n, e, l, rfl, hn, hsay, hdot⟩ := h
  obtain ⟨n', e', l', ws, rfl, hn', hsay', heq, ht⟩ := hrest (hsay.of hs) n e l rfl hn hdot
  refine ⟨n', e', l', rfl, hn', ?_, ht⟩
  rw [heq]
  exact hsay.trans hs hsay'

theorem ExprSpec.operand (h : ExprSpec source s ns t) : OperandSpec source s ns t := by
  obtain ⟨n, e, l, rfl, hn, hsay, ht⟩ := h
  exact ⟨n, e, l, rfl, hn, hsay, fun hd => absurd hd (ne_dot_of_extends ht)⟩

theorem expr_spec (hf : Knows source f) {level : Level} (hs : s.Of source)
    (h : Gives f (expr level) fr s ns t) : ExprSpec source s ns t := by
  simp only [expr, gives_fresh, gives_feed, gives_call] at h
  obtain ⟨m, u, h1, h2⟩ := h
  have hspec : ExprSpec source s m u := hf.inner .unary _ _ _ _ hs h1
  have hop := hspec.operand
  obtain ⟨n, e, l, rfl, hn, hsay, ht⟩ := hspec
  exact feed_spec hs hop fun hu => hf.inner (.operators level) _ _ _ _ hu h2 ht

theorem unaryOp_cases {k : TokenKind} (h : k = .bang ∨ k = .minus ∨ k = .plus) :
    ∃ o : UnaryOp, k = o.token ∧ k.text = o.text := by
  rcases h with rfl | rfl | rfl
  · exact ⟨.not, rfl, rfl⟩
  · exact ⟨.neg, rfl, rfl⟩
  · exact ⟨.pos, rfl, rfl⟩

theorem sign_spec (hf : Knows source f) (hs : s.Of source)
    (hk : s.peek.kind = .bang ∨ s.peek.kind = .minus ∨ s.peek.kind = .plus)
    (h : Gives f (node .unaryExpression
      [as .operator (leaf .operator), as .operand (call (.expr .power))]) fr s ns t) :
    ExprSpec source s ns t := by
  simp only [node, all, gives_fresh, gives_build, gives_seq, gives_as, gives_leaf, gives_call] at h
  obtain ⟨_, ⟨_, _, _, ⟨_, ⟨rfl, rfl⟩, rfl⟩, ⟨_, ha, rfl⟩, rfl⟩, rfl⟩ := h
  obtain ⟨o, ho, htext⟩ := unaryOp_cases hk
  have hmark := Stream.says_mark hs ho (by cases o <;> rfl) (by cases o <;> decide)
  have hsym : Node.IsSymbol source ⟨.form .operator, s.peek.region, none, false, []⟩ o.text := by
    have hsym := symbol_spec (g := .operator) (by decide) hs ho (by cases o <;> rfl)
    rwa [← ho, htext] at hsym
  obtain ⟨a, ea, la, rfl, ha, hsay, hext⟩ := hf.inner (.expr _) _ _ _ _ (hmark.of hs) ha
  refine ⟨_, _, _, rfl, Node.isExpr_unary hsym ha, ?_, hext⟩
  simpa [Expr.pieces] using hmark.trans hs hsay

theorem unary_spec (hf : Knows source f) (hs : s.Of source) (h : Gives f unary fr s ns t) :
    ExprSpec source s ns t := by
  simp only [unary, gives_look, Stream.look_kind] at h
  split at h
  · rename_i hk
    exact sign_spec hf hs (.inl hk) h
  · rename_i hk
    exact sign_spec hf hs (.inr (.inl hk)) h
  · rename_i hk
    exact sign_spec hf hs (.inr (.inr hk)) h
  · simp only [gives_fresh, gives_feed, gives_call] at h
    obtain ⟨m, u, h1, h2⟩ := h
    exact feed_spec hs (hf.inner .primary _ _ _ _ hs h1)
      fun hu => hf.inner .suffixes _ _ _ _ hu h2

end
end Grammar
end Scad
