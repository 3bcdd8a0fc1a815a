import Scad.Proofs.Program.Phrases

/-!
# What operands and elements of lists are parsed as

The phrases that an expression starts with, and the elements of lists. With them all phrases of
expressions are covered.
-/

namespace Scad

open Piece Rule

namespace Grammar

variable {source : List Char} {f : Phrases} {fr : Frame} {s t : Stream} {ns : List Node}

/-! ## Leaves -/

theorem number_spec (hs : s.Of source) (hk : s.peek.kind = .number)
    (h : Gives f (leaf .number) fr s ns t) : OperandSpec source s ns t := by
  obtain ⟨rfl, rfl⟩ := gives_leaf.1 h
  obtain ⟨e, he, hw, hn⟩ : ∃ e,
      Node.IsExpr source ⟨.form .number, s.peek.region, none, false, []⟩ e .number ∧
      words e.pieces = [s.peek.word.respell] ∧ e.number?.isSome = true :=
    Node.isExpr_number (hs.peek_sound (by rw [hk]; decide)) hk
  refine ⟨_, e, _, rfl, he, ?_, fun _ => .inl hn⟩
  rw [hw]
  exact Stream.says_token hs.proper (by rw [hk]; decide) (by rw [hk]; decide) (by simp [hk])

theorem string_spec (hs : s.Of source) (hk : s.peek.kind = .string)
    (h : Gives f (leaf .string) fr s ns t) : OperandSpec source s ns t := by
  obtain ⟨rfl, rfl⟩ := gives_leaf.1 h
  obtain ⟨e, he, hw⟩ : ∃ e,
      Node.IsExpr source ⟨.form .string, s.peek.region, none, false, []⟩ e .string ∧
      words e.pieces = [s.peek.word.respell] :=
    Node.isExpr_string (hs.peek_sound (by rw [hk]; decide)) hk
  refine ⟨_, e, _, rfl, he, ?_, fun _ => .inr (by decide)⟩
  rw [hw]
  exact Stream.says_token hs.proper (by rw [hk]; decide) (by rw [hk]; decide) (by simp [hk])

theorem boolean_spec (hs : s.Of source) (hk : s.peek.kind = .kwTrue ∨ s.peek.kind = .kwFalse)
    (h : Gives f (leaf .boolean) fr s ns t) : OperandSpec source s ns t := by
  obtain ⟨rfl, rfl⟩ := gives_leaf.1 h
  obtain ⟨e, he, hw⟩ : ∃ e,
      Node.IsExpr source ⟨.form .boolean, s.peek.region, none, false, []⟩ e s.peek.kind ∧
      words e.pieces = [.ofKind s.peek.kind] :=
    Node.isExpr_boolean (hs.peek_sound (by rcases hk with hk | hk <;> rw [hk] <;> decide)) hk
  refine ⟨_, e, _, rfl, he, ?_, fun _ => .inr (by rcases hk with hk | hk <;> rw [hk] <;> decide)⟩
  rw [hw]
  exact Stream.says_mark hs rfl (by rcases hk with hk | hk <;> rw [hk] <;> rfl)
    (by rcases hk with hk | hk <;> rw [hk] <;> decide)

theorem undef_spec (hs : s.Of source) (hk : s.peek.kind = .kwUndef)
    (h : Gives f (leaf .undef) fr s ns t) : OperandSpec source s ns t := by
  obtain ⟨rfl, rfl⟩ := gives_leaf.1 h
  obtain ⟨e, he, hw⟩ : ∃ e,
      Node.IsExpr source ⟨.form .undef, s.peek.region, none, false, []⟩ e .kwUndef ∧
      words e.pieces = [.ofKind .kwUndef] := Node.isExpr_undef
  refine ⟨_, e, _, rfl, he, ?_, fun _ => .inr (by decide)⟩
  rw [hw]
  exact Stream.says_mark hs hk rfl (by decide)

theorem ident_spec (hs : s.Of source) (hk : s.peek.kind = .identifier)
    (h : Gives f (leaf .identifier) fr s ns t) : OperandSpec source s ns t := by
  obtain ⟨rfl, rfl⟩ := gives_leaf.1 h
  obtain ⟨e, he, hp⟩ : ∃ e,
      Node.IsExpr source ⟨.form .identifier, s.peek.region, none, false, []⟩ e .identifier ∧
      e.pieces = [word .identifier s.peek.text] :=
    Node.isExpr_ident (hs.peek_sound (by rw [hk]; decide)) hk
  refine ⟨_, e, _, rfl, he, ?_, fun _ => .inr (by decide)⟩
  rw [hp]
  exact Stream.says_verbatim hs.proper hk (.inl rfl)

theorem special_spec (hs : s.Of source) (hk : s.peek.kind = .special)
    (h : Gives f (leaf .specialVariable) fr s ns t) : OperandSpec source s ns t := by
  obtain ⟨rfl, rfl⟩ := gives_leaf.1 h
  obtain ⟨e, he, hp⟩ : ∃ e,
      Node.IsExpr source ⟨.form .specialVariable, s.peek.region, none, false, []⟩ e .special ∧
      e.pieces = [word .special s.peek.text] :=
    Node.isExpr_special (hs.peek_sound (by rw [hk]; decide)) hk
  refine ⟨_, e, _, rfl, he, ?_, fun _ => .inr (by decide)⟩
  rw [hp]
  exact Stream.says_verbatim hs.proper hk (.inr (.inl rfl))

/-! ## Compound operands -/

theorem guard_spec (hf : Knows source f) (o : Guard) (hs : s.Of source)
    (hk : s.peek.kind = .identifier) (htext : s.peek.text = o.text)
    (h : Gives f (guardExpression o.form) fr s ns t) : OperandSpec source s ns t := by
  simp only [guardExpression, node, all, gives_fresh, gives_build, gives_seq, gives_take,
    gives_look, gives_ite, gives_as, gives_done, Stream.look_kind] at h
  obtain ⟨_, ⟨_, _, _, ⟨rfl, rfl⟩, ⟨_, u, _, ha, hbody, rfl⟩, rfl⟩, rfl⟩ := h
  have hname := Stream.says_verbatim hs.proper hk (.inl rfl)
  rw [htext] at hname
  obtain ⟨d, as, rfl, hd, hsay⟩ := argumentList_spec hf (hname.of hs) ha
  have hhead := hname.trans hs hsay
  obtain ⟨-, _, hb, rfl⟩ | ⟨-, rfl, rfl⟩ := hbody
  · obtain ⟨⟨b, eb, lb, rfl, hb, hsayb, hext⟩, -⟩ := hf.expression (hhead.of hs) hb
    obtain ⟨l, hl⟩ := Node.isExpr_guard_body o hd hb
    refine ⟨_, _, l, rfl, hl, ?_, fun hdot => absurd hdot (ne_dot_of_extends hext)⟩
    simpa [Expr.pieces, Expr.piecesBody] using hhead.trans hs hsayb
  · refine ⟨_, _, _, rfl, Node.isExpr_guard o hd, ?_, fun _ => .inr (by decide)⟩
    simpa [Expr.pieces, Expr.piecesBody] using hhead

theorem paren_spec (hf : Knows source f) (hs : s.Of source) (hk : s.peek.kind = .lparen)
    (h : Gives f (node .parenthesizedExpression [take, as .expression expression, closing .rparen])
      fr s ns t) : OperandSpec source s ns t := by
  simp only [node, all, gives_fresh, gives_build, gives_seq, gives_take, gives_as,
    gives_closing] at h
  obtain ⟨_, ⟨_, _, _, ⟨rfl, rfl⟩, ⟨_, u, _, ⟨_, ha, rfl⟩, ⟨hr, rfl, rfl⟩, rfl⟩, rfl⟩, rfl⟩ := h
  obtain ⟨⟨a, ea, la, rfl, ha, hsay, -⟩, -⟩ := hf.expression (advance_of hs hk (by decide)) ha
  refine ⟨_, _, _, rfl, Node.isExpr_paren ha, ?_, fun _ => .inr (by decide)⟩
  exact parens_spec hs hk hsay hr

/-- `let` with its bindings, in front of what it holds in. -/
theorem letHead_spec (hf : Knows source f) (hs : s.Of source) (hk : s.peek.kind = .kwLet)
    (h : Gives f bindingList fr s.advance ns t) :
    ∃ (n : Node) (bs : List Assignment), ns = [n.inRole .bindings] ∧ n.IsBindings source bs ∧
      s.Says [] t (.ofKind .kwLet :: words (parens (commas (Assignment.piecesAll bs)))) := by
  have hlet := Stream.says_mark hs hk rfl (by decide)
  obtain ⟨n, bs, rfl, hn, hsay⟩ := bindingList_spec hf (hlet.of hs) h
  exact ⟨n, bs, rfl, hn, hlet.trans hs hsay⟩

theorem letIn_spec (hf : Knows source f) (hs : s.Of source) (hk : s.peek.kind = .kwLet)
    (h : Gives f (node .letExpression [take, bindingList, as .body expression]) fr s ns t) :
    OperandSpec source s ns t := by
  simp only [node, all, gives_fresh, gives_build, gives_seq, gives_take, gives_as] at h
  obtain ⟨_, ⟨_, _, _, ⟨rfl, rfl⟩, ⟨_, u, _, hb, ⟨_, ha, rfl⟩, rfl⟩, rfl⟩, rfl⟩ := h
  obtain ⟨d, bs, rfl, hd, hhead⟩ := letHead_spec hf hs hk hb
  obtain ⟨⟨a, ea, la, rfl, ha, hsay, hext⟩, -⟩ := hf.expression (hhead.of hs) ha
  refine ⟨_, _, _, rfl, Node.isExpr_letIn hd ha, ?_,
    fun hdot => absurd hdot (ne_dot_of_extends hext)⟩
  simpa [Expr.pieces] using hhead.trans hs hsay

theorem functionLiteral_spec (hf : Knows source f) (hs : s.Of source)
    (hk : s.peek.kind = .kwFunction)
    (h : Gives f (node .functionLiteral [take, parameterList, as .body expression]) fr s ns t) :
    OperandSpec source s ns t := by
  simp only [node, all, gives_fresh, gives_build, gives_seq, gives_take, gives_as] at h
  obtain ⟨_, ⟨_, _, _, ⟨rfl, rfl⟩, ⟨_, u, _, hp, ⟨_, ha, rfl⟩, rfl⟩, rfl⟩, rfl⟩ := h
  have hfun := Stream.says_mark hs hk rfl (by decide)
  obtain ⟨d, ps, rfl, hd, hsayp⟩ := parameterList_spec hf (hfun.of hs) hp
  have hhead := hfun.trans hs hsayp
  obtain ⟨⟨a, ea, la, rfl, ha, hsay, hext⟩, -⟩ := hf.expression (hhead.of hs) ha
  refine ⟨_, _, _, rfl, Node.isExpr_function hd ha, ?_,
    fun hdot => absurd hdot (ne_dot_of_extends hext)⟩
  simpa [Expr.pieces] using hhead.trans hs hsay

/-! ## Lists and ranges -/

/-- A list from its first element on. -/
theorem list_rest_spec (hf : Knows source f) {u : Stream} {a : Node} {ea : Expr}
    (hs : s.Of source) (hk : s.peek.kind = .lbracket) (ha : a.IsElement source ea)
    (hsay : s.advance.Says [] u (words ea.pieces)) (hleft : fr.left = [a])
    (h : Gives f (build .list (all [keep, call .elements, closing .rbracket])) fr u ns t) :
    OperandSpec source s ns t := by
  simp only [all, gives_build, gives_seq, gives_keep, gives_call, gives_closing] at h
  obtain ⟨_, ⟨_, u, _, ⟨rfl, rfl⟩, ⟨m, v, _, hm, ⟨hr, rfl, rfl⟩, rfl⟩, rfl⟩, rfl⟩ := h
  have hopen := Stream.says_mark hs hk rfl (by decide)
  have h1 := hopen.trans hs hsay
  obtain ⟨es, hall, ws, hsaid, heq⟩ := hf.inner .elements _ _ _ _ (h1.of hs) hm
  have h2 := h1.trans hs hsaid
  have hclose := Stream.says_mark (h2.of hs) hr rfl (by decide)
  have hlist : List.Forall₂ (Node.IsElement source) (fr.left ++ (m ++ [])) (ea :: es) := by
    rw [hleft, List.append_nil]
    exact .cons ha hall
  refine ⟨_, _, _, rfl, Node.isExpr_list hlist, ?_, fun _ => .inr (by decide)⟩
  simpa [Expr.pieces, Expr.piecesAll, heq] using h2.trans hs hclose

/-- A range from its first bound on. -/
theorem range_rest_spec (hf : Knows source f) {u : Stream} {a : Node} {ea : Expr}
    (hs : s.Of source) (hk : s.peek.kind = .lbracket) (ha : a.IsElement source ea)
    (hsay : s.advance.Says [] u (words ea.pieces)) (hleft : fr.left = [a])
    (hcolon : u.peek.kind = .colon) (h : Gives f (build .range rangeBounds) fr u ns t) :
    OperandSpec source s ns t := by
  simp only [rangeBounds, all, gives_build, gives_seq, gives_as, gives_keep, gives_take, gives_feed,
    gives_look, gives_ite, gives_closing, Stream.look_kind] at h
  obtain ⟨_, ⟨_, u, _, ⟨_, ⟨rfl, rfl⟩, rfl⟩, ⟨_, _, _, ⟨rfl, rfl⟩, ⟨_, v, _, ⟨m, w, hgb, hstop⟩,
    ⟨hr, rfl, rfl⟩, rfl⟩, rfl⟩, rfl⟩, rfl⟩ := h
  obtain ⟨la, ha⟩ := ha
  have hopen := Stream.says_mark hs hk rfl (by decide)
  have h1 := hopen.trans hs hsay
  have h2 := h1.trans hs (Stream.says_mark (h1.of hs) hcolon rfl (by decide))
  obtain ⟨⟨b, eb, lb, rfl, hb, hsayb, -⟩, -⟩ := hf.expression (h2.of hs) hgb
  have h3 := h2.trans hs hsayb
  rw [hleft]
  obtain ⟨hc, _, _, _, ⟨_, ⟨rfl, rfl⟩, rfl⟩, ⟨_, _, _, ⟨rfl, rfl⟩, ⟨_, hd, rfl⟩, rfl⟩, rfl⟩ |
    ⟨-, _, ⟨rfl, rfl⟩, rfl⟩ := hstop
  · have h4 := h3.trans hs (Stream.says_mark (h3.of hs) hc rfl (by decide))
    obtain ⟨⟨d, ed, ld, rfl, hd, hsayd, -⟩, -⟩ := hf.expression (h4.of hs) hd
    have h5 := h4.trans hs hsayd
    have hclose := Stream.says_mark (h5.of hs) hr rfl (by decide)
    refine ⟨_, _, _, rfl, Node.isExpr_range_step ha hb hd, ?_, fun _ => .inr (by decide)⟩
    simpa [Expr.pieces, Expr.piecesStep] using h5.trans hs hclose
  · have hclose := Stream.says_mark (h3.of hs) hr rfl (by decide)
    refine ⟨_, _, _, rfl, Node.isExpr_range ha hb, ?_, fun _ => .inr (by decide)⟩
    simpa [Expr.pieces, Expr.piecesStep] using h3.trans hs hclose

theorem listOrRange_spec (hf : Knows source f) (hs : s.Of source) (hk : s.peek.kind = .lbracket)
    (h : Gives f listOrRange fr s ns t) : OperandSpec source s ns t := by
  simp only [listOrRange, gives_fresh, gives_seq, gives_take, gives_look, Stream.look_kind] at h
  obtain ⟨_, _, _, ⟨rfl, rfl⟩, h, rfl⟩ := h
  have hopen := Stream.says_mark hs hk rfl (by decide)
  have hs' := hopen.of hs
  -- whatever starts the list, its first element is an element
  have first : ∀ {r : Rule} {ns : List Node},
      Gives f (feed (call .element) r) { start := s.position } s.advance ns t →
      ∃ a ea u, a.IsElement source ea ∧ s.advance.Says [] u (words ea.pieces) ∧
        Gives f r { start := s.position, left := [a] } u ns t := by
    intro r ns h
    simp only [gives_feed, gives_call] at h
    obtain ⟨m, u, h1, h2⟩ := h
    obtain ⟨a, ea, rfl, ha, hsay⟩ := hf.inner .element _ _ _ _ hs' h1
    exact ⟨a, ea, u, ha, hsay, h2⟩
  split at h
  · rename_i hr
    simp only [gives_build, gives_take] at h
    obtain ⟨_, ⟨rfl, rfl⟩, rfl⟩ := h
    have hclose := Stream.says_mark hs' hr rfl (by decide)
    exact ⟨_, _, _, rfl, Node.isExpr_list .nil, hopen.trans hs hclose, fun _ => .inr (by decide)⟩
  all_goals obtain ⟨a, ea, u, ha, hsay, hrest⟩ := first h
  case h_6 =>
    obtain ⟨hcolon, hrest⟩ | ⟨-, hrest⟩ := gives_ite.1 (gives_look.1 hrest)
    · exact range_rest_spec hf hs hk ha hsay rfl hcolon hrest
    · exact list_rest_spec hf hs hk ha hsay rfl hrest
  all_goals exact list_rest_spec hf hs hk ha hsay rfl hrest

theorem primary_spec (hf : Knows source f) (hs : s.Of source) (h : Gives f primary fr s ns t) :
    OperandSpec source s ns t := by
  simp only [primary, gives_look, Stream.look_kind] at h
  split at h
  · rename_i hk; exact number_spec hs hk h
  · rename_i hk; exact string_spec hs hk h
  · rename_i hk; exact boolean_spec hs (.inl hk) h
  · rename_i hk; exact boolean_spec hs (.inr hk) h
  · rename_i hk; exact undef_spec hs hk h
  · rename_i hk; exact special_spec hs hk h
  · rename_i hk
    simp only [gives_ite, Stream.look_text] at h
    obtain ⟨⟨-, htext⟩, h⟩ | ⟨-, ⟨⟨-, htext⟩, h⟩ | ⟨-, h⟩⟩ := h
    · exact guard_spec hf .assert hs hk htext h
    · exact guard_spec hf .echo hs hk htext h
    · exact ident_spec hs hk h
  · rename_i hk; exact listOrRange_spec hf hs hk h
  · rename_i hk; exact paren_spec hf hs hk h
  · rename_i hk; exact letIn_spec hf hs hk h
  · rename_i hk; exact functionLiteral_spec hf hs hk h
  · exact absurd h gives_refuse

/-! ## Elements -/

/-- An element, whatever follows it. -/
def ElementSpec (source : List Char) (s : Stream) (ns : List Node) (t : Stream) : Prop :=
  ∃ n e, ns = [n] ∧ n.IsElement source e ∧ s.Says [] t (words e.pieces)

/-- A condition in parentheses, behind its keyword. -/
theorem condition_spec (hf : Knows source f) {u : Stream} {k : TokenKind} (hs : s.Of source)
    (hk : s.peek.kind = k) (hfix : k.isFixed = true) (hc : k ≠ .comma)
    (hl : s.advance.peek.kind = .lparen) (h : Gives f expression fr s.advance.advance ns u)
    (hr : u.peek.kind = .rparen) :
    ∃ c ec lc, ns = [c] ∧ c.IsExpr source ec lc ∧
      s.Says [] u.advance (.ofKind k :: words (parens ec.pieces)) := by
  have hkey := Stream.says_mark hs hk hfix hc
  have hs' := hkey.of hs
  obtain ⟨⟨c, ec, lc, rfl, hc, hsay, -⟩, -⟩ := hf.expression (advance_of hs' hl (by decide)) h
  exact ⟨c, ec, lc, rfl, hc, hkey.trans hs (parens_spec hs' hl hsay hr)⟩

theorem iteration_spec (hf : Knows source f) (hs : s.Of source) (hk : s.peek.kind = .kwFor)
    (h : Gives f (node .listComprehension
      [take, expect .lparen, loopHead, closing .rparen, as .body (call .element)]) fr s ns t) :
    ElementSpec source s ns t := by
  simp only [loopHead, node, all, gives_fresh, gives_build, gives_seq, gives_take, gives_expect,
    gives_feed, gives_look, gives_ite, gives_as, gives_keep, gives_closing, gives_call,
    Stream.look_kind] at h
  obtain ⟨_, ⟨_, _, _, ⟨rfl, rfl⟩, ⟨_, _, _, ⟨hl, rfl, rfl⟩, ⟨_, u, _, ⟨m, v, hb, hhead⟩,
    ⟨_, _, _, ⟨hr, rfl, rfl⟩, ⟨_, ha, rfl⟩, rfl⟩, rfl⟩, rfl⟩, rfl⟩, rfl⟩ := h
  have hfor := Stream.says_mark hs hk rfl (by decide)
  have hs' := hfor.of hs
  have hs'' := advance_of hs' hl (by decide)
  obtain ⟨hsemi, _, _, _, ⟨_, ⟨rfl, rfl⟩, rfl⟩, ⟨_, _, _, ⟨rfl, rfl⟩, ⟨_, w, _, ⟨_, hc, rfl⟩,
    ⟨_, _, _, ⟨hsemi', rfl, rfl⟩, ⟨_, hu, rfl⟩, rfl⟩, rfl⟩, rfl⟩, rfl⟩ |
    ⟨hsemi, _, ⟨rfl, rfl⟩, rfl⟩ := hhead
  · obtain ⟨i, is, rfl, hi, hsayi⟩ := assignments_spec hf hs'' (by rw [hsemi]; decide) hb
    have h1 := hsayi.trans hs'' (Stream.says_mark (hsayi.of hs'') hsemi rfl (by decide))
    obtain ⟨⟨c, ec, lc, rfl, hc, hsayc, -⟩, -⟩ := hf.expression (h1.of hs'') hc
    have h2 := h1.trans hs'' hsayc
    have h3 := h2.trans hs'' (Stream.says_mark (h2.of hs'') hsemi' rfl (by decide))
    obtain ⟨d, us, rfl, hd, hsayd⟩ := assignments_spec hf (h3.of hs'') (by rw [hr]; decide) hu
    have h4 := h3.trans hs'' hsayd
    have hparens : s.advance.Says [] u.advance (words (parens
        (commas (Assignment.piecesAll is) ++ mark .semicolon :: blank ::
          (ec.pieces ++ mark .semicolon :: blank :: commas (Assignment.piecesAll us))))) :=
      parens_spec hs' hl (by simpa using h4) hr
    have h5 := hfor.trans hs hparens
    obtain ⟨a, ea, rfl, ⟨la, ha⟩, hsaya⟩ := hf.inner .element _ _ _ _ (h5.of hs) ha
    obtain ⟨e, l, he, hw⟩ := Node.isExpr_counting hi hc hd ha
    refine ⟨_, e, rfl, ⟨l, he⟩, ?_⟩
    rw [hw]
    simpa [LoopHead.pieces] using h5.trans hs hsaya
  · obtain ⟨d, bs, rfl, hd, hsayd⟩ := assignments_spec hf hs'' (by rw [hr]; decide) hb
    have h1 := hfor.trans hs (parens_spec hs' hl hsayd hr)
    obtain ⟨a, ea, rfl, ⟨la, ha⟩, hsaya⟩ := hf.inner .element _ _ _ _ (h1.of hs) ha
    obtain ⟨e, l, he, hw⟩ := Node.isExpr_iterating hd ha
    refine ⟨_, e, rfl, ⟨l, he⟩, ?_⟩
    rw [hw]
    simpa [LoopHead.pieces] using h1.trans hs hsaya

theorem choice_spec (hf : Knows source f) (hs : s.Of source) (hk : s.peek.kind = .kwIf)
    (h : Gives f (node .ifComprehension
      [take, expect .lparen, as .condition expression, closing .rparen,
        as .consequence (call .element),
        look fun a =>
          if a.kind = .kwElse then seq take (as .alternative (call .element)) else done]) fr s ns t) :
    ElementSpec source s ns t := by
  simp only [node, all, gives_fresh, gives_build, gives_seq, gives_take, gives_expect, gives_look,
    gives_ite, gives_as, gives_closing, gives_call, gives_done, Stream.look_kind] at h
  obtain ⟨_, ⟨_, _, _, ⟨rfl, rfl⟩, ⟨_, _, _, ⟨hl, rfl, rfl⟩, ⟨_, u, _, ⟨_, hc, rfl⟩,
    ⟨_, _, _, ⟨hr, rfl, rfl⟩, ⟨_, v, _, ⟨_, hga, rfl⟩, helse, rfl⟩, rfl⟩, rfl⟩, rfl⟩, rfl⟩, rfl⟩ := h
  obtain ⟨c, ec, lc, rfl, hc, h1⟩ := condition_spec hf hs hk rfl (by decide) hl hc hr
  obtain ⟨a, ea, rfl, ⟨la, ha⟩, hsaya⟩ := hf.inner .element _ _ _ _ (h1.of hs) hga
  have h2 := h1.trans hs hsaya
  obtain ⟨hke, _, _, _, ⟨rfl, rfl⟩, ⟨_, hb, rfl⟩, rfl⟩ | ⟨-, rfl, rfl⟩ := helse
  · have h3 := h2.trans hs (Stream.says_mark (h2.of hs) hke rfl (by decide))
    obtain ⟨b, eb, rfl, ⟨lb, hb⟩, hsayb⟩ := hf.inner .element _ _ _ _ (h3.of hs) hb
    obtain ⟨l, hl⟩ := Node.isExpr_choice hc ha hb
    refine ⟨_, _, rfl, ⟨l, hl⟩, ?_⟩
    simpa [Expr.pieces, Expr.piecesElse] using h3.trans hs hsayb
  · obtain ⟨l, hl⟩ := Node.isExpr_filter hc ha
    refine ⟨_, _, rfl, ⟨l, hl⟩, ?_⟩
    simpa [Expr.pieces, Expr.piecesElse] using h2

theorem element_spec (hf : Knows source f) (hs : s.Of source) (h : Gives f element fr s ns t) :
    ElementSpec source s ns t := by
  simp only [element, gives_look, Stream.look_kind] at h
  split at h
  · rename_i hk
    exact iteration_spec hf hs hk h
  · rename_i hk
    exact choice_spec hf hs hk h
  · rename_i hk
    simp only [node, all, gives_fresh, gives_build, gives_seq, gives_take, gives_as, gives_call] at h
    obtain ⟨_, ⟨_, _, _, ⟨rfl, rfl⟩, ⟨_, ha, rfl⟩, rfl⟩, rfl⟩ := h
    have heach := Stream.says_mark hs hk rfl (by decide)
    obtain ⟨a, ea, rfl, ⟨la, ha⟩, hsay⟩ := hf.inner .element _ _ _ _ (heach.of hs) ha
    refine ⟨_, _, rfl, ⟨la, Node.isExpr_each ha⟩, ?_⟩
    simpa [Expr.pieces] using heach.trans hs hsay
  · rename_i hk
    simp only [node, all, gives_fresh, gives_build, gives_seq, gives_take, gives_as, gives_call] at h
    obtain ⟨_, ⟨_, _, _, ⟨rfl, rfl⟩, ⟨_, u, _, hb, ⟨_, ha, rfl⟩, rfl⟩, rfl⟩, rfl⟩ := h
    obtain ⟨d, bs, rfl, hd, hhead⟩ := letHead_spec hf hs hk hb
    obtain ⟨a, ea, rfl, ⟨la, ha⟩, hsay⟩ := hf.inner .element _ _ _ _ (hhead.of hs) ha
    refine ⟨_, _, rfl, ⟨la, Node.isExpr_letIn hd ha⟩, ?_⟩
    simpa [Expr.pieces] using hhead.trans hs hsay
  · obtain ⟨⟨n, e, l, rfl, hn, hsay, -⟩, -⟩ := hf.expression hs h
    exact ⟨n, e, rfl, ⟨l, hn⟩, hsay⟩

/-! ## All phrases of expressions -/

theorem rule_inner (hf : Knows source f) (p : Phrase) (hs : s.Of source)
    (h : Gives f (rule p) fr s ns t) : InnerSpec source p fr s ns t := by
  cases p with
  | expr l => exact expr_spec hf hs h
  | unary => exact unary_spec hf hs h
  | primary => exact primary_spec hf hs h
  | element => exact element_spec hf hs h
  | suffixes => exact suffixes_spec hf hs h
  | operators l => exact fun he => operators_spec hf hs he h
  | arguments => exact arguments_spec hf hs h
  | bindings => exact bindings_spec hf hs h
  | parameters => exact parameters_spec hf hs h
  | elements => exact elements_spec hf hs h
  | items | blockItems | statement | body => trivial

end Grammar
end Scad
