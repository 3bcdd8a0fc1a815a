import Scad.Proofs.Grammar.Ended
import Scad.Proofs.Program.Grouping
import Scad.Proofs.Program.Spacing

/-!
# The bounds of a range

A range is written as its bounds with colons between them. What is an expression on its own is the
same expression where it is a bound: the colon or the bracket behind it ends it as the end of the
text does. There is one exception. A first bound that starts with `let` is taken for an element of a
list, and the colon behind it for a fault. Main statement: `Program.range_of_expressions`.
-/

namespace Scad

open Read Rule Grammar

theorem TokenKind.stops_of_endsExpression {k : TokenKind} (h : k.endsExpression = true) :
    k.Stops := by
  obtain rfl | rfl | rfl | rfl | rfl := TokenKind.endsExpression_cases h <;> exact ⟨rfl, rfl⟩

/-- The words of a text. -/
def wordsOf (text : List Char) : List Word := (tokenize text).tokens.map Token.word

/-- The text is one expression, from its first token to its last. -/
def IsExpression (text : List Char) : Prop :=
  ∃ ns t, parsePhrase (.expr .ternary) { start := {} } (.start (tokenize text)) = .ok ns [] t ∧
    t.ahead = []

/-- The outcome has no fault, and no token is left. -/
def Outcome.isWhole : Outcome → Bool
  | .ok _ [] t => t.ahead.isEmpty
  | _ => false

theorem isExpression_iff (text : List Char) : IsExpression text ↔
    (parsePhrase (.expr .ternary) { start := {} } (.start (tokenize text))).isWhole = true := by
  rw [IsExpression]
  generalize parsePhrase (.expr .ternary) { start := {} } (.start (tokenize text)) = o
  match o with
  | .ok ns [] t => simp [Outcome.isWhole]
  | .ok ns (f :: fs) t => simp [Outcome.isWhole]
  | .failed f fs t => simp [Outcome.isWhole]

instance (text : List Char) : Decidable (IsExpression text) :=
  decidable_of_iff _ (isExpression_iff text).symm

/-- The text on its own is read as this expression, but for where its parts stand. -/
def Expr.IsOf (e : Expr) (text : List Char) : Prop :=
  ∃ n t e₀, parsePhrase (.expr .ternary) { start := {} } (.start (tokenize text)) = .ok [n] [] t ∧
    Yields (n.reading text).expr e₀ ∧ e.agree .ignored e₀ = true

namespace Grammar

variable {source text : List Char} {s : Stream}

/-! ## An expression in its place -/

/-- An expression begins a frame of its own. -/
theorem expr_frame (l : Level) (fr fr' : Frame) (hs : s.Proper) :
    parsePhrase (.expr l) fr s = parsePhrase (.expr l) fr' s := by
  rw [parsePhrase_eq_rule _ _ _ hs, parsePhrase_eq_rule _ _ _ hs]
  rfl

theorem hasError_of_expression {fr : Frame} {n : Node} {t : Stream}
    (h : parsePhrase (.expr .ternary) fr s = .ok [n] [] t) : n.hasError = false := by
  have hhon := parsePhrase_honest (.expr .ternary) fr s
  rw [h] at hhon
  have hhon : Node.anyError [n] = true ↔ [] ≠ [] ∨ (false = true ∧ _) := hhon
  simpa using hhon

/-- A text that is an expression is the same expression where its words stand before a mark that
ends expressions. -/
theorem expression_inPlace (h : IsExpression text) (hs : s.Of source) {rest : List Word}
    (hw : s.words = wordsOf text ++ rest)
    (hrest : (Ahead.ofWords rest).kind.endsExpression = true) (fr : Frame) :
    ∃ n u e l, parsePhrase (.expr .ternary) fr s = .ok [n] [] u ∧ u.Of source ∧ u.words = rest ∧
      n.IsExpr source e l ∧ e.IsOf text := by
  obtain ⟨ns, t, hparse, hend⟩ := h
  have hstart := Stream.start_of text
  obtain ⟨n₀, e₀, l₀, rfl, hn₀, -, -⟩ := (parsePhrase_spec _ _ _ _ _ hstart hparse).1
  obtain ⟨run, more, hahead, hrun, hmore⟩ := List.map_eq_append_iff.1 hw
  -- the words of the text, as if nothing stood behind them
  let cut : Stream := ⟨run, run.length, s.last, (tokenize source).eof⟩
  have hcut : s = cut.followedBy more s.eof := by
    obtain ⟨ahead, count, last, eof⟩ := s
    obtain rfl : ahead = run ++ more := hahead
    have hcount : count = (run ++ more).length := hs.proper.count
    rw [hcount, List.length_append]
    rfl
  have hproper : cut.Proper := by
    refine ⟨rfl, rfl, fun x hx => hs.proper.inside x ?_⟩
    rw [hahead]
    exact List.mem_append_left _ hx
  have hstream : (Matching.ofWords text source).stream (.start (tokenize text)) cut := by
    refine ⟨?_, ?_, ⟨rfl, fun h => absurd rfl h⟩, by simp [Stream.start]⟩
    · refine Matching.ofWords_tokens hrun hstart.sound fun x hx => hs.sound x ?_
      rw [hahead]
      exact List.mem_append_left _ hx
    · have hlength := congrArg List.length hrun
      rw [List.length_map, wordsOf, List.length_map] at hlength
      exact hlength
  have hm := parsePhrase_matched _ (.expr .ternary) { start := {} } { start := {} } _ _ hstart.proper
    ⟨trivial, .nil⟩ hstream (.inl rfl)
  rw [hparse] at hm
  generalize hgo : parsePhrase (.expr .ternary) { start := {} } cut = o at hm
  cases hm with
  | @ok _ ns' _ fs' _ t' hns hfs ht =>
    cases hfs
    obtain ⟨n, rfl⟩ : ∃ n, ns' = [n] := List.length_eq_one_iff.1 (by simpa using hns.length_eq.symm)
    have hnil : t'.ahead = [] := by
      have hahead := ht.ahead
      rw [hend] at hahead
      exact List.forall₂_nil_left_iff.1 hahead
    have hnext : (more.headD s.eof).kind.endsExpression = true := by
      cases more with
      | nil =>
        rw [← hmore] at hrest
        cases hrest
      | cons x xs =>
        rw [← hmore] at hrest
        exact hrest
    have hgo := parsePhrase_ended hs.proper.eof
      (fun x hx => hs.proper.inside x (by rw [hahead]; exact List.mem_append_right _ hx)) hnext
      (.expr .ternary) _ cut [n] t' hproper hgo (.inr rfl)
    rw [← hcut, expr_frame _ _ fr hs.proper] at hgo
    have hu := of_gives parsePhrase_passes hs (gives_call.2 hgo)
    obtain ⟨n', e, l, hsame, hn, -, -⟩ := (parsePhrase_spec _ _ _ _ _ hs hgo).1
    obtain rfl := List.singleton_inj.1 hsame
    refine ⟨n, _, e, l, hgo, hu, ?_, hn, n₀, t, e₀, hparse, hn₀.expr, ?_⟩
    · rw [Stream.words, Stream.followedBy, hnil]
      exact hmore
    · have like := (List.forall₂_cons.1 hns).1.alike Matching.ofWords_sound
        (hasError_of_expression hparse)
      obtain ⟨c, hc⟩ := hn₀.expr (.start {})
      obtain ⟨c', hc'⟩ := hn.expr (.start {})
      obtain ⟨e', d, he', halike, -⟩ := like.expr _ _ _ _ (Context.alike_start {} {}) hc
      obtain rfl := Except.ok.inj (Prod.mk.inj (hc'.symm.trans he')).1
      exact halike.agree

/-! ## What an expression starts with -/

/-- An expression that starts with no sign: an operand, what goes on with it, and operators. -/
theorem operand_of_expression {l : Level} {fr : Frame} {ns : List Node} {u : Stream} (hs : s.Proper)
    (hk : s.peek.kind ≠ .bang ∧ s.peek.kind ≠ .minus ∧ s.peek.kind ≠ .plus)
    (h : parsePhrase (.expr l) fr s = .ok ns [] u) :
    ∃ m v m' v', Gives parsePhrase primary { start := s.position } s m v ∧
      parsePhrase .suffixes { start := s.position, left := m } v = .ok m' [] v' ∧
      parsePhrase (.operators l) { start := s.position, left := m' } v' = .ok ns [] u := by
  rw [parsePhrase_eq_rule _ _ _ hs] at h
  obtain ⟨m', v', hunary, hoperators⟩ := gives_feed.1 (gives_fresh.1 h)
  rw [gives_call, parsePhrase_eq_rule _ _ _ hs] at hunary
  have hunary : Gives parsePhrase unary _ s m' v' := hunary
  simp only [unary, gives_look, Stream.look_kind] at hunary
  split at hunary
  case h_4 =>
    obtain ⟨m, v, hprimary, hsuffixes⟩ := gives_feed.1 (gives_fresh.1 hunary)
    rw [gives_call, parsePhrase_eq_rule _ _ _ hs] at hprimary
    exact ⟨m, v, m', v', hprimary, hsuffixes, hoperators⟩
  all_goals simp_all

theorem expression_starts {l : Level} {fr : Frame} {ns : List Node} {u : Stream} (hs : s.Proper)
    (h : parsePhrase (.expr l) fr s = .ok ns [] u) : startsExpression s.peek.kind = true := by
  by_cases hk : s.peek.kind ≠ .bang ∧ s.peek.kind ≠ .minus ∧ s.peek.kind ≠ .plus
  · obtain ⟨m, v, m', v', hprimary, -, -⟩ := operand_of_expression hs hk h
    simp only [primary, gives_look, Stream.look_kind] at hprimary
    split at hprimary
    case h_12 => exact absurd hprimary gives_refuse
    all_goals simp_all [startsExpression]
  · obtain hk | hk | hk : s.peek.kind = .bang ∨ s.peek.kind = .minus ∨ s.peek.kind = .plus := by
      tauto
    all_goals rw [hk]; rfl

/-- Where no element of its own kind starts, an element is an expression. -/
theorem element_eq_expression (fr : Frame) (hs : s.Proper)
    (hstart : startsExpression s.peek.kind = true) (hlet : s.peek.kind ≠ .kwLet) :
    parsePhrase .element fr s = parsePhrase (.expr .ternary) fr s := by
  rw [parsePhrase_eq_rule _ _ _ hs]
  show (element.apply parsePhrase fr s) = _
  simp only [element, apply, Stream.look_kind]
  split
  all_goals first | rfl | simp_all [startsExpression]

/-! ## What ends an operand -/

theorem suffixes_of_stops (fr : Frame) (hs : s.Proper) (h : s.peek.kind.Stops) :
    parsePhrase .suffixes fr s = .ok fr.left [] s := by
  rw [parsePhrase_eq_rule _ _ _ hs]
  show suffixes.apply parsePhrase fr s = _
  have hext := h.1
  simp only [suffixes, apply, Stream.look_kind]
  split <;> simp_all [TokenKind.extends, apply]

theorem operators_of_stops (l : Level) (fr : Frame) (hs : s.Proper) (h : s.peek.kind.Stops) :
    parsePhrase (.operators l) fr s = .ok fr.left [] s := by
  rw [parsePhrase_eq_rule _ _ _ hs]
  show (operators l).apply parsePhrase fr s = _
  simp only [operators, apply, Stream.look_kind, h.2]

/-- An expression stops where nothing goes on with it. -/
theorem expression_stops {fr : Frame} {ns : List Node} {u : Stream} (hs : s.Of source)
    (h : parsePhrase (.expr .ternary) fr s = .ok ns [] u) : u.peek.kind.Stops := by
  rw [expr_frame _ fr { start := {} } hs.proper] at h
  obtain ⟨n, e, l, rfl, hn, -, -⟩ := (parsePhrase_spec _ _ _ _ _ hs h).1
  obtain ⟨c, hc⟩ := hn.expr (.start {})
  exact stops_of_expression parsePhrase_grouping hs rfl (gives_call.2 h) n (by simp) _ _ _ hc

/-- A list or a range in front of a mark that ends expressions is all of the expression. -/
theorem expression_of_bracket {n : Node} {u : Stream} (l : Level) (fr : Frame) (hs : s.Proper)
    (hk : s.peek.kind = .lbracket) (hu : u.peek.kind.Stops)
    (h : Gives parsePhrase listOrRange { start := s.position } s [n] u) :
    parsePhrase (.expr l) fr s = .ok [n] [] u := by
  obtain ⟨run, hrun⟩ := passes_of_gives parsePhrase_passes hs h
  have hproper := hs.of_passes hrun
  have hprimary : parsePhrase .primary { start := s.position } s = .ok [n] [] u := by
    rw [parsePhrase_eq_rule _ _ _ hs]
    show Gives parsePhrase primary _ s [n] u
    simp only [primary, gives_look, Stream.look_kind, hk]
    exact h
  have hunary : parsePhrase .unary { start := s.position } s = .ok [n] [] u := by
    rw [parsePhrase_eq_rule _ _ _ hs]
    show Gives parsePhrase unary _ s [n] u
    simp only [unary, gives_look, Stream.look_kind, hk]
    exact gives_fresh.2 (gives_feed.2
      ⟨[n], u, gives_call.2 hprimary, gives_call.2 (suffixes_of_stops _ hproper hu)⟩)
  rw [parsePhrase_eq_rule _ _ _ hs]
  exact gives_fresh.2 (gives_feed.2
    ⟨[n], u, gives_call.2 hunary, gives_call.2 (operators_of_stops l _ hproper hu)⟩)

/-- A `let` is read in two ways, with an expression or an element as its body, but both stop at the
same place. -/
theorem element_stops {fr fr' : Frame} {ns ns' : List Node} {u u' : Stream} (hs : s.Of source)
    (h : parsePhrase (.expr .ternary) fr s = .ok ns [] u)
    (h' : parsePhrase .element fr' s = .ok ns' [] u') : u' = u := by
  induction hn : s.count using Nat.strongRecOn generalizing s fr fr' ns ns' u u' with
  | ind n ih =>
    subst hn
    by_cases hk : s.peek.kind = .kwLet
    · obtain ⟨m, v, m', v', hprimary, hsuffixes, hoperators⟩ :=
        operand_of_expression hs.proper (by simp [hk]) h
      rw [parsePhrase_eq_rule _ _ _ hs.proper] at h'
      have h' : Gives parsePhrase element fr' s ns' u' := h'
      simp only [primary, element, gives_look, Stream.look_kind, hk, node, all, gives_fresh,
        gives_build, gives_seq, gives_take, gives_as] at hprimary h'
      obtain ⟨_, ⟨_, _, _, ⟨-, rfl⟩, ⟨_, w, _, hbindings, ⟨_, hbody, -⟩, -⟩, -⟩, -⟩ := hprimary
      obtain ⟨_, ⟨_, _, _, ⟨-, rfl⟩, ⟨_, w', _, hbindings', ⟨_, hbody', -⟩, -⟩, -⟩, -⟩ := h'
      obtain ⟨-, -, rfl⟩ := Outcome.ok.inj (hbindings.symm.trans hbindings')
      have hs1 := advance_of hs hk (by decide)
      have hw := of_gives parsePhrase_passes hs1 hbindings
      have hcount : w.count < s.count := by
        obtain ⟨run, hrun⟩ := passes_of_gives parsePhrase_passes hs1.proper hbindings
        have htake := (Stream.passes_peek hs.proper (by rw [hk]; decide)).count
        have hrest := hrun.count_le
        simp only [List.length_singleton] at htake
        omega
      obtain rfl := ih w.count hcount hw (gives_call.1 hbody) (gives_call.1 hbody') rfl
      have hstops := expression_stops hw (gives_call.1 hbody)
      have hv := of_gives parsePhrase_passes hw hbody
      rw [suffixes_of_stops _ hv.proper hstops] at hsuffixes
      obtain ⟨-, -, rfl⟩ := Outcome.ok.inj hsuffixes
      rw [operators_of_stops _ _ hv.proper hstops] at hoperators
      exact (Outcome.ok.inj hoperators).2.2
    · rw [element_eq_expression _ hs.proper (expression_starts hs.proper h) hk,
        expr_frame _ fr' fr hs.proper, h] at h'
      exact (Outcome.ok.inj h').2.2.symm

/-! ## Ranges -/

/-- The next word is passed. -/
theorem mark_inPlace (hs : s.Of source) {w : Word} {rest : List Word} (hw : s.words = w :: rest) :
    s.peek.word = w ∧ s.advance.Of source ∧ s.advance.words = rest := by
  obtain ⟨hpeek, hrest⟩ := Stream.words_cons hw
  have hne : s.peek.kind ≠ .eof := by
    intro heof
    rw [Stream.words, (Stream.peek_kind_eq_eof hs.proper).1 heof] at hw
    cases hw
  exact ⟨hpeek, hs.passes (Stream.passes_peek hs.proper hne), hrest⟩

/-- The bounds behind the first one, with the colons and the bracket. -/
def boundWords (step : Option (List Char)) (last : List Char) : List Word :=
  .ofKind .colon :: (step.elim [] (fun b => wordsOf b ++ [.ofKind .colon]) ++
    (wordsOf last ++ [.ofKind .rbracket]))

theorem rangeBounds_inPlace {step : Option (List Char)} {last : List Char} {a : Node} {ea : Expr}
    {la : TokenKind} (hstep : ∀ b ∈ step, IsExpression b) (hlast : IsExpression last)
    (ha : a.IsExpr source ea la) (hs : s.Of source) {rest : List Word}
    (hw : s.words = boundWords step last ++ rest) (start : Position) :
    ∃ ns u eb ec, Gives parsePhrase rangeBounds { start, left := [a] } s ns u ∧ u.Of source ∧
      u.words = rest ∧ Option.Rel (fun b e => Expr.IsOf e b) step eb ∧ ec.IsOf last ∧
      ∀ region, Node.IsExpr source ⟨.form .range, region, none, false, ns⟩
        (.range ea eb ec (.ofRegion region.forward)) .rbracket := by
  have hfirst : Gives parsePhrase (as .start keep) { start, left := [a] } s [a.inRole .start] s :=
    gives_as.2 ⟨_, gives_keep.2 ⟨rfl, rfl⟩, rfl⟩
  cases step with
  | none =>
    have hw : s.words = .ofKind .colon :: (wordsOf last ++ (.ofKind .rbracket :: rest)) := by
      simpa [boundWords] using hw
    obtain ⟨-, hs1, hw1⟩ := mark_inPlace hs hw
    obtain ⟨c, u, ec, lc, hc, hu, hwu, hnc, hec⟩ := expression_inPlace hlast hs1 hw1 rfl
      { start, left := [a] }
    obtain ⟨hbracket, hs2, hw2⟩ := mark_inPlace hu hwu
    have hk : u.peek.kind = .rbracket := congrArg Word.kind hbracket
    refine ⟨[a.inRole .start, c.inRole .stop], u.advance, none, ec, ?_, hs2, hw2, .none, hec,
      fun region => Node.isExpr_range ha hnc⟩
    refine gives_seq.2 ⟨_, s, _, hfirst, gives_seq.2 ⟨_, _, _, gives_take.2 ⟨rfl, rfl⟩,
      gives_seq.2 ⟨[c.inRole .stop], u, _, gives_feed.2 ⟨_, _, gives_call.2 hc, gives_look.2 ?_⟩,
        gives_closing.2 ⟨hk, rfl, rfl⟩, rfl⟩, rfl⟩, rfl⟩
    rw [Stream.look_kind, hk]
    exact gives_as.2 ⟨_, gives_keep.2 ⟨rfl, rfl⟩, rfl⟩
  | some b =>
    have hw : s.words = .ofKind .colon :: (wordsOf b ++ (.ofKind .colon ::
        (wordsOf last ++ (.ofKind .rbracket :: rest)))) := by
      simpa [boundWords] using hw
    obtain ⟨-, hs1, hw1⟩ := mark_inPlace hs hw
    obtain ⟨d, v, eb, lb, hd, hv, hwv, hnd, heb⟩ := expression_inPlace (hstep b rfl) hs1 hw1 rfl
      { start, left := [a] }
    obtain ⟨hcolon, hs2, hw2⟩ := mark_inPlace hv hwv
    have hkv : v.peek.kind = .colon := congrArg Word.kind hcolon
    obtain ⟨c, u, ec, lc, hc, hu, hwu, hnc, hec⟩ := expression_inPlace hlast hs2 hw2 rfl
      { start, left := [d] }
    obtain ⟨hbracket, hs3, hw3⟩ := mark_inPlace hu hwu
    have hk : u.peek.kind = .rbracket := congrArg Word.kind hbracket
    refine ⟨[a.inRole .start, d.inRole .step, c.inRole .stop], u.advance, some eb, ec, ?_, hs3, hw3,
      .some heb, hec, fun region => Node.isExpr_range_step ha hnd hnc⟩
    refine gives_seq.2 ⟨_, s, _, hfirst, gives_seq.2 ⟨_, _, _, gives_take.2 ⟨rfl, rfl⟩,
      gives_seq.2 ⟨[d.inRole .step, c.inRole .stop], u, _,
        gives_feed.2 ⟨_, _, gives_call.2 hd, gives_look.2 ?_⟩,
        gives_closing.2 ⟨hk, rfl, rfl⟩, rfl⟩, rfl⟩, rfl⟩
    rw [Stream.look_kind, hkv]
    exact gives_seq.2 ⟨_, v, _, gives_as.2 ⟨_, gives_keep.2 ⟨rfl, rfl⟩, rfl⟩,
      gives_seq.2 ⟨_, _, _, gives_take.2 ⟨rfl, rfl⟩, gives_as.2 ⟨_, gives_call.2 hc, rfl⟩, rfl⟩, rfl⟩

/-- The words of a range with these bounds. -/
def rangeWords (first : List Char) (step : Option (List Char)) (last : List Char) : List Word :=
  .ofKind .lbracket :: (wordsOf first ++ boundWords step last)

/-- The kind of the first token of a text. -/
def firstKind (text : List Char) : TokenKind := (Stream.start (tokenize text)).peek.kind

theorem firstKind_inPlace (h : IsExpression text) (hs : s.Of source) {rest : List Word}
    (hw : s.words = wordsOf text ++ rest) : s.peek.kind = firstKind text := by
  obtain ⟨ns, t, hparse, -⟩ := h
  have hstart := (Stream.start_of text).proper
  have hwords : (Stream.start (tokenize text)).words = wordsOf text := rfl
  have hne : wordsOf text ≠ [] := by
    intro hnil
    have hkind := hstart.peek_kind
    rw [hwords, hnil] at hkind
    have hstarts := expression_starts hstart hparse
    rw [hkind] at hstarts
    cases hstarts
  obtain ⟨w, ws, hcons⟩ := List.exists_cons_of_ne_nil hne
  rw [firstKind, hs.proper.peek_kind, hstart.peek_kind, hw, hwords, hcons]
  rfl

variable {first last : List Char} {step : Option (List Char)}

/-- Bounds in brackets are a range, unless the first one starts with `let`. -/
theorem range_inPlace (hfirst : IsExpression first) (hstep : ∀ b ∈ step, IsExpression b)
    (hlast : IsExpression last) (hlet : firstKind first ≠ .kwLet) (hs : s.Of source)
    {rest : List Word} (hw : s.words = rangeWords first step last ++ rest)
    (hrest : (Ahead.ofWords rest).kind.endsExpression = true) (fr : Frame) :
    ∃ n u ea eb ec span, parsePhrase (.expr .ternary) fr s = .ok [n] [] u ∧ u.Of source ∧
      u.words = rest ∧ n.IsExpr source (.range ea eb ec span) .rbracket ∧ ea.IsOf first ∧
      Option.Rel (fun b e => Expr.IsOf e b) step eb ∧ ec.IsOf last := by
  have hw : s.words = .ofKind .lbracket :: (wordsOf first ++ (boundWords step last ++ rest)) := by
    simpa [rangeWords] using hw
  obtain ⟨hbracket, hs1, hw1⟩ := mark_inPlace hs hw
  have hk : s.peek.kind = .lbracket := congrArg Word.kind hbracket
  obtain ⟨a, v, ea, la, ha, hv, hwv, hna, hea⟩ := expression_inPlace hfirst hs1 hw1 rfl
    { start := s.position }
  obtain ⟨ns, u, eb, ec, hbounds, hu, hwu, heb, hec, hrange⟩ :=
    rangeBounds_inPlace hstep hlast hna hv hwv s.position
  have hstarts := expression_starts hs1.proper ha
  have hlet : s.advance.peek.kind ≠ .kwLet := by
    rwa [firstKind_inPlace hfirst hs1 hw1]
  have hcolon : v.peek.kind = .colon := by
    rw [hv.proper.peek_kind, hwv]
    rfl
  have hgives : Gives parsePhrase listOrRange { start := s.position } s
      [⟨.form .range, u.regionFrom s.position, none, false, ns⟩] u := by
    refine gives_fresh.2 (gives_seq.2 ⟨[], s.advance, _, gives_take.2 ⟨rfl, rfl⟩, ?_, rfl⟩)
    rw [gives_look, Stream.look_kind]
    split
    case h_6 =>
      refine gives_feed.2 ⟨[a], v, ?_, ?_⟩
      · rw [gives_call, element_eq_expression _ hs1.proper hstarts hlet]
        exact ha
      · rw [gives_look, Stream.look_kind, hcolon]
        exact gives_build.2 ⟨ns, hbounds, rfl⟩
    all_goals simp_all [startsExpression]
  have hstops : u.peek.kind.Stops := by
    rw [hu.proper.peek_kind, hwu]
    exact TokenKind.stops_of_endsExpression hrest
  exact ⟨_, u, ea, eb, ec, _, expression_of_bracket _ fr hs.proper hk hstops hgives, hu, hwu,
    hrange _, hea, heb, hec⟩

/-- A first bound that starts with `let` is an element, and no colon follows an element. -/
theorem not_range_of_let (hfirst : IsExpression first) (hlet : firstKind first = .kwLet)
    (hs : s.Of source) {rest : List Word} (hw : s.words = rangeWords first step last ++ rest)
    (l : Level) (fr : Frame) (ns : List Node) (u : Stream) :
    parsePhrase (.expr l) fr s ≠ .ok ns [] u := by
  intro h
  have hw : s.words = .ofKind .lbracket :: (wordsOf first ++ (boundWords step last ++ rest)) := by
    simpa [rangeWords] using hw
  obtain ⟨hbracket, hs1, hw1⟩ := mark_inPlace hs hw
  have hk : s.peek.kind = .lbracket := congrArg Word.kind hbracket
  have hlet : s.advance.peek.kind = .kwLet := by
    rw [firstKind_inPlace hfirst hs1 hw1, hlet]
  obtain ⟨a, v, ea, la, ha, hv, hwv, -, -⟩ := expression_inPlace hfirst hs1 hw1 rfl
    { start := s.position }
  have hcolon : v.peek.kind = .colon := by
    rw [hv.proper.peek_kind, hwv]
    rfl
  obtain ⟨m, w, _, _, hprimary, -, -⟩ := operand_of_expression hs.proper (by simp [hk]) h
  simp only [primary, listOrRange, gives_look, Stream.look_kind, hk, gives_fresh, gives_seq,
    gives_take] at hprimary
  obtain ⟨_, _, _, ⟨-, rfl⟩, hprimary, -⟩ := hprimary
  simp only [hlet, all, gives_feed, gives_call, gives_build, gives_seq, gives_keep,
    gives_closing] at hprimary
  obtain ⟨_, v', helement, ⟨_, ⟨_, _, _, ⟨-, rfl⟩, ⟨_, w', _, helements, ⟨hclose, -⟩, -⟩, -⟩, -⟩⟩ :=
    hprimary
  obtain rfl := element_stops hs1 ha helement
  rw [parsePhrase_eq_rule _ _ _ hv.proper] at helements
  have helements : Gives parsePhrase elements _ _ _ w' := helements
  simp only [elements, gives_look, Stream.look_kind, hcolon, reduceCtorEq, if_false, gives_done]
    at helements
  obtain ⟨-, rfl⟩ := helements
  rw [hcolon] at hclose
  cases hclose

/-! ## Declarations -/

/-- A name with an equals sign behind it starts a declaration. -/
theorem statement_of_assign {name : String} {rest : List Word} (fr : Frame) (hs : s.Of source)
    (hw : s.words = ⟨.identifier, name⟩ :: .ofKind .assign :: rest) :
    parsePhrase .statement fr s = (declaration .identifier).apply parsePhrase fr s := by
  obtain ⟨hname, hs1, hw1⟩ := mark_inPlace hs hw
  obtain ⟨hassign, -, -⟩ := mark_inPlace hs1 hw1
  have hk : s.peek.kind = .identifier := congrArg Word.kind hname
  have hsecond : s.look.second = .assign := by
    rw [Stream.look_second hs.proper (by rw [hk]; decide)]
    exact congrArg Word.kind hassign
  rw [parsePhrase_eq_rule _ _ _ hs.proper]
  show statement.apply parsePhrase fr s = _
  simp only [statement, apply, Stream.look_kind, hk, namedStatement, hsecond]

/-- A declaration of a name whose value is an expression in front of the semicolon. -/
theorem declaration_inPlace {name : String} {rest : List Word} {n : Node} {u : Stream} {e : Expr}
    {l : TokenKind} (fr : Frame) (hs : s.Of source)
    (hw : s.words = ⟨.identifier, name⟩ :: .ofKind .assign :: rest)
    (hvalue : parsePhrase (.expr .ternary) fr s.advance.advance = .ok [n] [] u)
    (hn : n.IsExpr source e l) (hu : u.Of source) (hwu : u.words = [.ofKind .semicolon]) :
    ∃ d x span, parsePhrase .statement fr s = .ok [d] [] u.advance ∧
      d.IsItem source (.variableDef x e span) ∧ x.text = name := by
  obtain ⟨hname, hs1, hw1⟩ := mark_inPlace hs hw
  obtain ⟨hassign, hs2, -⟩ := mark_inPlace hs1 hw1
  obtain ⟨hsemicolon, -, -⟩ := mark_inPlace hu hwu
  have hk : s.peek.kind = .identifier := congrArg Word.kind hname
  have hsound := hs.peek_sound (by rw [hk]; decide)
  obtain ⟨x, hx, -⟩ : ∃ x, Node.IsName source ⟨.form .identifier, s.peek.region, none, false, []⟩ x ∧
      x.pieces = [Piece.word s.peek.kind s.peek.text] := Node.isName_leaf hsound (.inl ⟨rfl, hk⟩)
  have htext : x.text = name := by
    rw [hx.name]
    show String.ofList (textIn source s.peek.region.forward) = name
    rw [hsound.textIn_eq, String.ofList_toList]
    exact congrArg Word.text hname
  have hgives : Gives parsePhrase (declaration .identifier) fr s
      [⟨.form .varDeclaration, u.advance.regionFrom s.position, none, false,
        [Node.inRole ⟨.form .identifier, s.peek.region, none, false, []⟩ .name, n.inRole .value]⟩]
      u.advance :=
    gives_fresh.2 (gives_build.2 ⟨_, gives_seq.2 ⟨_, s.advance, _,
      gives_as.2 ⟨_, gives_leaf.2 ⟨rfl, rfl⟩, rfl⟩, gives_seq.2 ⟨_, s.advance.advance, _,
        gives_expect.2 ⟨congrArg Word.kind hassign, rfl, rfl⟩, gives_seq.2 ⟨_, u, _,
          gives_as.2 ⟨_, gives_call.2 ((expr_frame _ _ fr hs2.proper).trans hvalue), rfl⟩,
          gives_closing.2 ⟨congrArg Word.kind hsemicolon, rfl, rfl⟩, rfl⟩, rfl⟩, rfl⟩, rfl⟩)
  exact ⟨_, x, _, (statement_of_assign fr hs hw).trans hgives, Node.isItem_variable hx hn, htext⟩

/-- A file with one statement. -/
theorem items_of_statement {d : Node} {u : Stream} {fr : Frame} (hs : s.Of source)
    (h : parsePhrase .statement fr s = .ok [d] [] u) (hu : u.words = []) :
    parsePhrase .items fr s = .ok [d] [] u := by
  have hof := of_gives parsePhrase_passes hs (gives_call.2 h)
  have hne : s.ahead ≠ [] := by
    intro hnil
    have hcount := parsePhrase_eating .statement fr s _ _ _ hs.proper rfl h
    rw [hs.proper.count, hnil] at hcount
    exact absurd hcount (Nat.not_lt_zero _)
  rw [items_of_token hs.proper hne]
  refine gives_seq.2 ⟨[d], u, [], gives_recover.2 (gives_call.2 h), gives_call.2 ?_, rfl⟩
  exact items_of_eof hof.proper (List.map_eq_nil_iff.1 hu)

end Grammar

namespace Program

variable {source : List Char} {name : String} {rest : List Word}

/-- A source that declares one variable has no fault only if its value is an expression. -/
theorem value_of_declaration
    (hw : wordsOf source = ⟨.identifier, name⟩ :: .ofKind .assign :: rest)
    (h : (SyntaxTree.ofSource source).faults = []) :
    ∃ fr ns u, parsePhrase (.expr .ternary) fr (Stream.start (tokenize source)).advance.advance =
      .ok ns [] u := by
  obtain ⟨nodes, fs, t, hparse, htree⟩ := SyntaxTree.ofSource_eq source
  obtain rfl : fs = [] := by rwa [htree] at h
  have hs := Stream.start_of source
  have hw : (Stream.start (tokenize source)).words = _ := hw
  have hne : (Stream.start (tokenize source)).ahead ≠ [] := by
    intro hnil
    rw [Stream.words, hnil] at hw
    cases hw
  obtain ⟨m, v, -, hstatement, -⟩ := items_cons hs.proper hne hparse
  rw [statement_of_assign _ hs hw] at hstatement
  have hgives : Gives parsePhrase (declaration .identifier) _ _ m v := hstatement
  simp only [declaration, node, all, gives_fresh, gives_build, gives_seq, gives_as, gives_leaf,
    gives_expect] at hgives
  obtain ⟨_, ⟨_, _, _, ⟨_, ⟨-, rfl⟩, -⟩, ⟨_, _, _, ⟨-, -, rfl⟩, ⟨_, u, _, ⟨_, hvalue, -⟩, -⟩, -⟩, -⟩,
    -⟩ := hgives
  exact ⟨_, _, u, hvalue⟩

/-- A source that declares one variable, whose value is an expression in front of the semicolon. -/
theorem parse_of_declaration {n : Node} {u : Stream} {e : Expr} {l : TokenKind}
    (hw : wordsOf source = ⟨.identifier, name⟩ :: .ofKind .assign :: rest)
    (hvalue : parsePhrase (.expr .ternary) { start := {} }
      (Stream.start (tokenize source)).advance.advance = .ok [n] [] u)
    (hn : n.IsExpr source e l) (hu : u.Of source) (hwu : u.words = [.ofKind .semicolon]) :
    (SyntaxTree.ofSource source).faults = [] ∧ ∃ p x span, Program.parse source = .ok p ∧
      p.items = [.variableDef x e span] ∧ x.text = name := by
  have hs := Stream.start_of source
  obtain ⟨d, x, span, hstatement, hitem, hx⟩ :=
    declaration_inPlace { start := {} } hs hw hvalue hn hu hwu
  have hitems := items_of_statement hs hstatement (mark_inPlace hu hwu).2.2
  obtain ⟨hfaults, items, context, hrun, hparse⟩ := parse_of_items hitems
  obtain ⟨context', hrun'⟩ := Node.isItems (.cons hitem .nil)
    (.start (.ofRegion (Region.forward ⟨{}, (tokenize source).stop⟩)))
  obtain rfl := Except.ok.inj (Prod.mk.inj (hrun.symm.trans hrun')).1
  exact ⟨hfaults, _, x, span, hparse, rfl, hx⟩

/-- The program is one variable of this name, and its value a range of the expressions that these
texts are on their own. -/
def IsRangeOf (p : Program) (name : String) (first : List Char) (step : Option (List Char))
    (last : List Char) : Prop :=
  ∃ x a b c span span', p.items = [.variableDef x (.range a b c span) span'] ∧ x.text = name ∧
    a.IsOf first ∧ Option.Rel (fun text e => Expr.IsOf e text) step b ∧ c.IsOf last

/-- Whatever expressions are the bounds of a range, it has no fault and is the range of these
expressions, unless the first one starts with `let`: then it has a fault. -/
theorem range_of_expressions {first last : List Char} {step : Option (List Char)}
    (hfirst : IsExpression first) (hstep : ∀ b ∈ step, IsExpression b) (hlast : IsExpression last)
    (hwords : wordsOf source = ⟨.identifier, name⟩ :: .ofKind .assign ::
      (rangeWords first step last ++ [.ofKind .semicolon])) :
    (firstKind first ≠ .kwLet → (SyntaxTree.ofSource source).faults = [] ∧
        ∃ p, Program.parse source = .ok p ∧ p.IsRangeOf name first step last) ∧
      (firstKind first = .kwLet → (SyntaxTree.ofSource source).faults ≠ []) := by
  obtain ⟨-, hs1, hw1⟩ := mark_inPlace (Stream.start_of source) hwords
  obtain ⟨-, hs2, hw2⟩ := mark_inPlace hs1 hw1
  refine ⟨fun hlet => ?_, fun hlet hfaults => ?_⟩
  · obtain ⟨n, u, a, b, c, span, hvalue, hu, hwu, hn, ha, hb, hc⟩ :=
      range_inPlace hfirst hstep hlast hlet hs2 hw2 rfl { start := {} }
    obtain ⟨hfaults, p, x, span', hp, hitems, hx⟩ := parse_of_declaration hwords hvalue hn hu hwu
    exact ⟨hfaults, p, hp, x, a, b, c, span, span', hitems, hx, ha, hb, hc⟩
  · obtain ⟨fr, ns, u, hvalue⟩ := value_of_declaration hwords hfaults
    exact not_range_of_let hfirst hlet hs2 hw2 _ fr ns u hvalue

/-- A choice with its own colon as the first bound, a `let` as the step and in the last bound. -/
theorem range_of_choice_and_let :
    ∃ p, Program.parse "x = [a ? 1 : 2 : let (b = 3) b : -let (c = 4) c];".toList = .ok p ∧
      p.IsRangeOf "x" "a ? 1 : 2".toList (some "let (b = 3) b".toList) "-let (c = 4) c".toList := by
  have hstep : ∀ b ∈ some "let (b = 3) b".toList, IsExpression b := by
    intro b hb
    obtain rfl := Option.some.inj hb
    decide +kernel
  obtain ⟨hrange, -⟩ := @range_of_expressions
    "x = [a ? 1 : 2 : let (b = 3) b : -let (c = 4) c];".toList "x" "a ? 1 : 2".toList
    "-let (c = 4) c".toList (some "let (b = 3) b".toList) (by decide +kernel) hstep
    (by decide +kernel) (by decide +kernel)
  exact (hrange (by decide +kernel)).2

/-- A `let` and a number are expressions, but the range of the two is refused. -/
theorem let_refused_as_first_bound :
    IsExpression "let (a = 1) a".toList ∧ IsExpression "3".toList ∧
      wordsOf "x = [let (a = 1) a : 3];".toList = ⟨.identifier, "x"⟩ :: .ofKind .assign ::
        (rangeWords "let (a = 1) a".toList none "3".toList ++ [.ofKind .semicolon]) ∧
      (SyntaxTree.ofSource "x = [let (a = 1) a : 3];".toList).faults =
        [⟨.missing .rbracket, .emptyAt ⟨18, 0, 18⟩⟩, ⟨.missing .semicolon, .emptyAt ⟨18, 0, 18⟩⟩,
          ⟨.unexpectedToken ":" .statement, ⟨⟨19, 0, 19⟩, ⟨20, 0, 20⟩⟩⟩] :=
  ⟨by decide +kernel, by decide +kernel, by decide +kernel, by decide +kernel⟩

end Program
end Scad
