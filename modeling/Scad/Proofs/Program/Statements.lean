import Scad.Proofs.Program.Operands

/-!
# What statements are parsed as

The same as for expressions, for statements and items. The words of a module whose body has no
braces are those of its tokens with braces around the body. From all phrases together follows what
a source without faults is read as.
-/

namespace Scad

open Piece Rule

/-- In front of a declaration, which no other statement may be applied to. -/
def Ahead.Declares (a : Ahead) : Prop :=
  a.kind = .kwModule ∨ a.kind = .kwFunction ∨
    (a.kind = .identifier ∨ a.kind = .special) ∧ a.second = .assign

theorem Stream.look_second {s : Stream} (hs : s.Proper) (hk : s.peek.kind ≠ .eof) :
    s.look.second = s.advance.peek.kind := by
  obtain ⟨ahead, count, last, eof⟩ := s
  cases ahead with
  | nil => exact absurd hs.eof hk
  | cons t ts => rfl

namespace Grammar

section

variable (source : List Char)

/-- One statement. -/
def StmtSpec (s : Stream) (ns : List Node) (t : Stream) : Prop :=
  ∃ n u, ns = [n] ∧ n.IsStmt source u ∧ ∀ d, s.Says n.bareBodies t (words (u.pieces d))

/-- One declaration. -/
def ItemSpec (s : Stream) (ns : List Node) (t : Stream) : Prop :=
  ∃ n i, ns = [n] ∧ n.IsItem source i ∧ ∀ d, s.Says n.bareBodies t (words (i.pieces d))

/-- What is known of a phrase of statements that was parsed without a fault. -/
def OuterSpec : Phrase → Stream → List Node → Stream → Prop
  | .statement, s, ns, t => (StmtSpec source s ns t ∨ s.look.Declares ∧ ItemSpec source s ns t) ∧
    ∃ n run, ns = [n] ∧ s.Passes run t ∧ n.Spans run
  | .body, s, ns, t => StmtSpec source s ns t
  | .items, s, ns, t | .blockItems, s, ns, t =>
    ∃ is, List.Forall₂ (Node.IsItem source) ns is ∧
      ∀ d, s.Says (Node.bareBodiesAll ns) t (words (Item.lines d is))
  | _, _, _, _ => True

/-- Phrases of which all this is known. -/
structure KnowsAll (f : Phrases) : Prop extends Knows source f where
  forward : f.Forward
  eating : f.Eating
  outer : ∀ p fr (s : Stream) ns t, s.Of source → f p fr s = .ok ns [] t →
    OuterSpec source p s ns t

end

variable {source : List Char} {f : Phrases} {fr : Frame} {s t : Stream} {ns : List Node}

theorem StmtSpec.item (h : StmtSpec source s ns t) : ItemSpec source s ns t := by
  obtain ⟨n, u, rfl, hn, hsay⟩ := h
  exact ⟨n, .stmt u, rfl, hn.isItem, hsay⟩

theorem KnowsAll.body (hf : KnowsAll source f) (hs : s.Of source)
    (h : f .body fr s = .ok ns [] t) : StmtSpec source s ns t :=
  hf.outer .body fr s ns t hs h

/-! ## Calls -/

@[simp]
theorem words_tailGap (u : Stmt) : words (tailGap u) = [] := by
  unfold tailGap
  split <;> rfl

/-- What closes a call. -/
theorem callTail_spec (hf : KnowsAll source f) (hs : s.Of source) (h : Gives f callTail fr s ns t) :
    (ns = [] ∧ s.Says [] t [.ofKind .semicolon]) ∨
      ∃ (n : Node) (u : Stmt), ns = [n.inRole .body] ∧ n.IsStmt source u ∧
        ∀ d, s.Says n.bareBodies t (words (u.pieces d)) := by
  simp only [callTail, gives_look, Stream.look_kind] at h
  split at h
  · rename_i hk
    obtain ⟨rfl, rfl⟩ := gives_take.1 h
    exact .inl ⟨rfl, Stream.says_mark hs hk rfl (by decide)⟩
  · rename_i hk
    obtain ⟨hk', -⟩ := gives_closing.1 h
    rw [hk] at hk'
    cases hk'
  · simp only [gives_as, gives_call] at h
    obtain ⟨_, h, rfl⟩ := h
    obtain ⟨n, u, rfl, hn, hsay⟩ := hf.body hs h
    exact .inr ⟨n, u, rfl, hn, hsay⟩

theorem moduleCall_spec (hf : KnowsAll source f) (hs : s.Of source)
    (hk : s.peek.kind = .identifier) (h : Gives f moduleCall fr s ns t) :
    StmtSpec source s ns t := by
  simp only [moduleCall, node, all, gives_fresh, gives_build, gives_seq, gives_as] at h
  obtain ⟨_, ⟨_, u, _, ⟨_, hd, rfl⟩, ⟨_, v, _, ha, htail, rfl⟩, rfl⟩, rfl⟩ := h
  obtain ⟨d, name, rfl, hname, hsay, -⟩ := name_spec hs (.inl ⟨rfl, hk⟩) hd
  obtain ⟨p, as, rfl, hp, hsaya⟩ := argumentList_spec hf.toKnows (hsay.of hs) ha
  have h1 := hsay.trans hs hsaya
  obtain ⟨rfl, hsemi⟩ | ⟨b, w, rfl, hb, hsayb⟩ := callTail_spec hf (h1.of hs) htail
  · refine ⟨_, _, rfl, Node.isStmt_call_closed hname hp, fun depth => ?_⟩
    rw [Node.bareBodies_form (by decide)]
    simpa [Stmt.pieces, hname.bare, hp.bare] using h1.trans hs hsemi
  · refine ⟨_, _, rfl, Node.isStmt_call hname hp hb, fun depth => ?_⟩
    rw [Node.bareBodies_form (by decide)]
    simpa [Stmt.pieces, hname.bare, hp.bare] using h1.trans hs (hsayb depth)

theorem assertStatement_spec (hf : KnowsAll source f) (hs : s.Of source)
    (hk : s.peek.kind = .identifier) (htext : s.peek.text = Guard.assert.text)
    (h : Gives f assertStatement fr s ns t) : StmtSpec source s ns t := by
  simp only [assertStatement, node, all, gives_fresh, gives_build, gives_seq, gives_take] at h
  obtain ⟨_, ⟨_, _, _, ⟨rfl, rfl⟩, ⟨_, v, _, ha, htail, rfl⟩, rfl⟩, rfl⟩ := h
  have hname := Stream.says_verbatim hs.proper hk (.inl rfl)
  rw [htext] at hname
  obtain ⟨p, as, rfl, hp, hsaya⟩ := argumentList_spec hf.toKnows (hname.of hs) ha
  have h1 := hname.trans hs hsaya
  obtain ⟨rfl, hsemi⟩ | ⟨b, w, rfl, hb, hsayb⟩ := callTail_spec hf (h1.of hs) htail
  · refine ⟨_, _, rfl, Node.isStmt_assert_closed hp, fun depth => ?_⟩
    rw [Node.bareBodies_form (by decide)]
    simpa [Stmt.pieces, hp.bare] using h1.trans hs hsemi
  · refine ⟨_, _, rfl, Node.isStmt_assert hp hb, fun depth => ?_⟩
    rw [Node.bareBodies_form (by decide)]
    simpa [Stmt.pieces, hp.bare] using h1.trans hs (hsayb depth)

/-! ## Other statements -/

theorem bound_spec (hf : KnowsAll source f) (o : Binder) (hs : s.Of source)
    (hword : s.Says [] s.advance (words [o.piece]))
    (h : Gives f (boundStatement o.form) fr s ns t) : StmtSpec source s ns t := by
  simp only [boundStatement, node, all, gives_fresh, gives_build, gives_seq, gives_take, gives_as,
    gives_call] at h
  obtain ⟨_, ⟨_, _, _, ⟨rfl, rfl⟩, ⟨_, v, _, hb, ⟨_, ha, rfl⟩, rfl⟩, rfl⟩, rfl⟩ := h
  obtain ⟨d, bs, rfl, hd, hsayd⟩ := bindingList_spec hf.toKnows (hword.of hs) hb
  have h1 := hword.trans hs hsayd
  obtain ⟨a, w, rfl, ha, hsaya⟩ := hf.body (h1.of hs) ha
  refine ⟨_, _, rfl, Node.isStmt_bound o hd ha, fun depth => ?_⟩
  rw [Node.bareBodies_form (by cases o <;> decide)]
  obtain ⟨k, x, hpiece, -⟩ := o.piece_eq
  rw [hpiece] at h1
  simpa [Stmt.pieces, hpiece, hd.bare] using h1.trans hs (hsaya depth)

theorem ifStatement_spec (hf : KnowsAll source f) (hs : s.Of source) (hk : s.peek.kind = .kwIf)
    (h : Gives f ifStatement fr s ns t) : StmtSpec source s ns t := by
  simp only [ifStatement, node, all, gives_fresh, gives_build, gives_seq, gives_take, gives_expect,
    gives_look, gives_ite, gives_as, gives_closing, gives_call, gives_done, Stream.look_kind] at h
  obtain ⟨_, ⟨_, _, _, ⟨rfl, rfl⟩, ⟨_, _, _, ⟨hl, rfl, rfl⟩, ⟨_, u, _, ⟨_, hc, rfl⟩,
    ⟨_, _, _, ⟨hr, rfl, rfl⟩, ⟨_, v, _, ⟨_, hga, rfl⟩, helse, rfl⟩, rfl⟩, rfl⟩, rfl⟩, rfl⟩, rfl⟩ := h
  obtain ⟨c, ec, lc, rfl, hc, h1⟩ := condition_spec hf.toKnows hs hk rfl (by decide) hl hc hr
  obtain ⟨a, w, rfl, ha, hsaya⟩ := hf.body (h1.of hs) hga
  obtain ⟨hke, _, _, _, ⟨rfl, rfl⟩, ⟨_, hgb, rfl⟩, rfl⟩ | ⟨-, rfl, rfl⟩ := helse
  · have h2 := fun depth => h1.trans hs (hsaya depth)
    have hmark := Stream.says_mark ((h2 0).of hs) hke rfl (by decide)
    obtain ⟨b, x, rfl, hb, hsayb⟩ := hf.body (hmark.of ((h2 0).of hs)) hgb
    refine ⟨_, _, rfl, Node.isStmt_choice_else hc ha hb, fun depth => ?_⟩
    rw [Node.bareBodies_form (by decide)]
    simpa [Stmt.pieces, Stmt.piecesElse, hc.bare] using
      ((h2 depth).trans hs hmark).trans hs (hsayb depth)
  · refine ⟨_, _, rfl, Node.isStmt_choice hc ha, fun depth => ?_⟩
    rw [Node.bareBodies_form (by decide)]
    simpa [Stmt.pieces, Stmt.piecesElse, hc.bare] using h1.trans hs (hsaya depth)

theorem modifier_cases {k : TokenKind} (h : k.isModifier = true) :
    ∃ m : Modifier, k = m.token ∧ k.text = m.text := by
  cases k with
  | star => exact ⟨.disable, rfl, rfl⟩
  | bang => exact ⟨.root, rfl, rfl⟩
  | hash => exact ⟨.highlight, rfl, rfl⟩
  | percent => exact ⟨.background, rfl, rfl⟩
  | _ => cases h

theorem modified_spec (hf : KnowsAll source f) (hs : s.Of source)
    (hk : s.peek.kind.isModifier = true)
    (h : Gives f (node .modifierChain [as .modifier (leaf .modifier), as .statement (call .body)])
      fr s ns t) : StmtSpec source s ns t := by
  simp only [node, all, gives_fresh, gives_build, gives_seq, gives_as, gives_leaf, gives_call] at h
  obtain ⟨_, ⟨_, _, _, ⟨_, ⟨rfl, rfl⟩, rfl⟩, ⟨_, ha, rfl⟩, rfl⟩, rfl⟩ := h
  obtain ⟨m, hm, htext⟩ := modifier_cases hk
  have hmark := Stream.says_mark hs hm (by cases m <;> rfl) (by cases m <;> decide)
  have hsym : Node.IsSymbol source ⟨.form .modifier, s.peek.region, none, false, []⟩ m.text := by
    have hsym := symbol_spec (g := .modifier) (by decide) hs hm (by cases m <;> rfl)
    rwa [← hm, htext] at hsym
  obtain ⟨a, w, rfl, ha, hsaya⟩ := hf.body (hmark.of hs) ha
  refine ⟨_, _, rfl, Node.isStmt_modified hsym ha, fun depth => ?_⟩
  rw [Node.bareBodies_form (by decide)]
  simpa [Stmt.pieces, hsym.bare] using hmark.trans hs (hsaya depth)

theorem file_spec (o : Link) (hs : s.Of source) (hk : s.peek.kind = o.token)
    (h : Gives f (fileStatement o.form) fr s ns t) : StmtSpec source s ns t := by
  simp only [fileStatement, node, all, gives_fresh, gives_build, gives_seq, gives_take, gives_look,
    gives_ite, gives_as, gives_leaf, gives_refuse, Stream.look_kind, and_false, or_false] at h
  obtain ⟨_, ⟨_, _, _, ⟨rfl, rfl⟩, ⟨hpath, _, ⟨rfl, rfl⟩, rfl⟩, rfl⟩, rfl⟩ := h
  have hmark := Stream.says_mark hs hk (by cases o <;> rfl) (by cases o <;> decide)
  have hs' := hmark.of hs
  have hword := Stream.says_verbatim hs'.proper hpath (.inr (.inr rfl))
  obtain ⟨path, hp⟩ : ∃ path, s.advance.peek.text = "<" ++ path ++ ">" := by
    have hspell := hs'.peek_spelling (by rw [hpath]; decide) (by rw [hpath]; decide)
    rw [hpath] at hspell
    generalize htext : s.advance.peek.text.toList = cs at hspell
    cases hspell with
    | @path cs _ =>
      refine ⟨String.ofList cs, ?_⟩
      rw [← String.ofList_toList (s := s.advance.peek.text), htext]
      simp [String.ofList_append, String.append_assoc]
    | mark hm | keyword hm => cases hm
  have hsym : Node.IsSymbol source
      ⟨.form .includePath, s.advance.peek.region, none, false, []⟩ ("<" ++ path ++ ">") := by
    rw [← hp]
    exact Node.isSymbol_leaf (by decide) (hs'.peek_sound (by rw [hpath]; decide))
  refine ⟨_, _, rfl, Node.isStmt_file o hsym, fun depth => ?_⟩
  rw [Node.bareBodies_form (by cases o <;> decide)]
  simpa [Stmt.pieces, hsym.bare, hp] using hmark.trans hs hword

/-! ## Blocks and declarations -/

theorem words_block (depth : Nat) (lines : List Piece) :
    words (Piece.block depth lines) = .ofKind .lbrace :: (words lines ++ [.ofKind .rbrace]) := by
  unfold Piece.block
  split
  · rename_i he
    rw [List.isEmpty_iff.1 he]
    rfl
  · simp

theorem unionBlock_spec (hf : KnowsAll source f) (hs : s.Of source) (hk : s.peek.kind = .lbrace)
    (h : Gives f unionBlock fr s ns t) : StmtSpec source s ns t := by
  simp only [unionBlock, node, all, gives_fresh, gives_build, gives_seq, gives_take, gives_call,
    gives_closing] at h
  obtain ⟨_, ⟨_, _, _, ⟨rfl, rfl⟩, ⟨m, u, _, hm, ⟨hr, rfl, rfl⟩, rfl⟩, rfl⟩, rfl⟩ := h
  have hopen := Stream.says_mark hs hk rfl (by decide)
  obtain ⟨is, hall, hsay⟩ := hf.outer .blockItems _ _ _ _ (hopen.of hs) hm
  have h1 := fun depth => hopen.trans hs (hsay depth)
  have hclose := Stream.says_mark ((h1 0).of hs) hr rfl (by decide)
  refine ⟨_, _, rfl, Node.isStmt_block (by simpa using hall), fun depth => ?_⟩
  rw [Node.bareBodies_form (by decide), Stmt.pieces, words_block]
  simpa using (h1 (depth + 1)).trans hs hclose

theorem declaration_spec (hf : KnowsAll source f) {g : Form} (hs : s.Of source)
    (hk : Names g s.peek.kind) (h : Gives f (declaration g) fr s ns t) :
    s.look.second = .assign ∧ ItemSpec source s ns t := by
  simp only [declaration, node, all, gives_fresh, gives_build, gives_seq, gives_as, gives_expect,
    gives_closing] at h
  obtain ⟨_, ⟨_, u, _, ⟨_, hd, rfl⟩, ⟨_, _, _, ⟨hassign, rfl, rfl⟩, ⟨_, v, _, ⟨_, ha, rfl⟩,
    ⟨hsemi, rfl, rfl⟩, rfl⟩, rfl⟩, rfl⟩, rfl⟩ := h
  obtain ⟨d, name, rfl, hname, hsay, rfl⟩ := name_spec hs hk hd
  have h1 := hsay.trans hs (Stream.says_mark (hsay.of hs) hassign rfl (by decide))
  obtain ⟨⟨a, ea, la, rfl, ha, hsaya, -⟩, -⟩ := hf.expression (h1.of hs) ha
  have h2 := h1.trans hs hsaya
  have h3 := h2.trans hs (Stream.says_mark (h2.of hs) hsemi rfl (by decide))
  refine ⟨?_, _, _, rfl, Node.isItem_variable hname ha, fun depth => ?_⟩
  · rw [Stream.look_second hs.proper, hassign]
    rcases hk with ⟨-, hk⟩ | ⟨-, hk⟩ <;> rw [hk] <;> decide
  · rw [Node.bareBodies_form (by decide)]
    simpa [Item.pieces, hname.bare, ha.bare] using h3

theorem functionItem_spec (hf : KnowsAll source f) (hs : s.Of source)
    (hk : s.peek.kind = .kwFunction) (h : Gives f functionItem fr s ns t) :
    ItemSpec source s ns t := by
  simp only [functionItem, node, all, gives_fresh, gives_build, gives_seq, gives_take, gives_look,
    gives_ite, gives_as, gives_refuse, gives_expect, gives_closing, Stream.look_kind, and_false,
    or_false] at h
  obtain ⟨_, ⟨_, _, _, ⟨rfl, rfl⟩, ⟨_, u, _, ⟨hid, _, hd, rfl⟩, ⟨_, v, _, hp,
    ⟨_, _, _, ⟨hassign, rfl, rfl⟩, ⟨_, w, _, ⟨_, ha, rfl⟩, ⟨hsemi, rfl, rfl⟩, rfl⟩, rfl⟩, rfl⟩,
    rfl⟩, rfl⟩, rfl⟩ := h
  have hfun := Stream.says_mark hs hk rfl (by decide)
  obtain ⟨d, name, rfl, hname, hsay, -⟩ := name_spec (hfun.of hs) (.inl ⟨rfl, hid⟩) hd
  have h1 := hfun.trans hs hsay
  obtain ⟨p, ps, rfl, hp, hsayp⟩ := parameterList_spec hf.toKnows (h1.of hs) hp
  have h2 := h1.trans hs hsayp
  have h3 := h2.trans hs (Stream.says_mark (h2.of hs) hassign rfl (by decide))
  obtain ⟨⟨a, ea, la, rfl, ha, hsaya, -⟩, -⟩ := hf.expression (h3.of hs) ha
  have h4 := h3.trans hs hsaya
  have h5 := h4.trans hs (Stream.says_mark (h4.of hs) hsemi rfl (by decide))
  refine ⟨_, _, rfl, Node.isItem_function hname hp ha, fun depth => ?_⟩
  rw [Node.bareBodies_form (by decide)]
  simpa [Item.pieces, hname.bare, hp.bare, ha.bare] using h5

/-- The body of a module gets braces if it has none. -/
theorem moduleBody_spec {a : Node} {i : Item} {is : List Item} (hs : s.Of source)
    (hspan : ∃ run, s.Passes run t ∧ a.Spans run)
    (hsay : ∀ d, s.Says a.bareBodies t (words (i.pieces d)))
    (his : a.kind = .form .unionBlock ∧ (∃ span, i = .stmt (.block is span)) ∨
      a.kind ≠ .form .unionBlock ∧ is = [i]) (depth : Nat) :
    s.Says ((if a.kind = .form .unionBlock then [] else [a.region]) ++ a.bareBodies) t
      (words (Piece.block depth (Item.lines (depth + 1) is))) := by
  obtain ⟨hk, span, rfl⟩ | ⟨hk, rfl⟩ := his
  · rw [if_pos hk]
    exact hsay depth
  · rw [if_neg hk, words_block]
    obtain ⟨run, hp, hrun⟩ := hspan
    simpa [Item.lines] using (hsay (depth + 1)).wrap hs hp hrun

theorem moduleItem_spec (hf : KnowsAll source f) (hs : s.Of source)
    (hk : s.peek.kind = .kwModule) (h : Gives f moduleItem fr s ns t) : ItemSpec source s ns t := by
  simp only [moduleItem, node, all, gives_fresh, gives_build, gives_seq, gives_take, gives_look,
    gives_ite, gives_as, gives_refuse, gives_call, Stream.look_kind, and_false, or_false] at h
  obtain ⟨_, ⟨_, _, _, ⟨rfl, rfl⟩, ⟨_, u, _, ⟨hid, _, hd, rfl⟩, ⟨_, v, _, hp, ⟨_, hb, rfl⟩, rfl⟩,
    rfl⟩, rfl⟩, rfl⟩ := h
  have hmod := Stream.says_mark hs hk rfl (by decide)
  obtain ⟨d, name, rfl, hname, hsay, -⟩ := name_spec (hmod.of hs) (.inl ⟨rfl, hid⟩) hd
  have h1 := hmod.trans hs hsay
  obtain ⟨p, ps, rfl, hp, hsayp⟩ := parameterList_spec hf.toKnows (h1.of hs) hp
  have h2 := h1.trans hs hsayp
  obtain ⟨hspec, hspan⟩ := hf.outer .statement _ _ _ _ (h2.of hs) hb
  obtain ⟨a, i, rfl, ha, hsaya⟩ : ItemSpec source v _ t := hspec.elim (·.item) (·.2)
  obtain ⟨is, hitem, his⟩ := Node.isItem_module hname hp ha
  refine ⟨_, _, rfl, hitem, fun depth => ?_⟩
  have hspan : ∃ run, v.Passes run t ∧ a.Spans run := by
    obtain ⟨n, run, hn, hpass, hrun⟩ := hspan
    obtain rfl := List.singleton_inj.1 hn
    exact ⟨run, hpass, hrun⟩
  have hbody := h2.trans hs (moduleBody_spec (h2.of hs) hspan hsaya his depth)
  have hbare := Node.bareBodies_module d p a (t.regionFrom s.position) none false
  rw [hname.bare, hp.bare, List.nil_append, List.nil_append] at hbare
  simpa [Item.pieces, hbare] using hbody

/-! ## Items -/

theorem statement_spec (hf : KnowsAll source f) (hs : s.Of source)
    (h : Gives f statement fr s ns t) :
    StmtSpec source s ns t ∨ s.look.Declares ∧ ItemSpec source s ns t := by
  simp only [statement, gives_look, Stream.look_kind] at h
  split at h
  · rename_i hk; exact .inl (modified_spec hf hs (by rw [hk]; rfl) h)
  · rename_i hk; exact .inl (modified_spec hf hs (by rw [hk]; rfl) h)
  · rename_i hk; exact .inl (modified_spec hf hs (by rw [hk]; rfl) h)
  · rename_i hk; exact .inl (modified_spec hf hs (by rw [hk]; rfl) h)
  · rename_i hk; exact .inr ⟨.inl hk, moduleItem_spec hf hs hk h⟩
  · rename_i hk; exact .inr ⟨.inr (.inl hk), functionItem_spec hf hs hk h⟩
  · rename_i hk
    exact .inl (bound_spec hf .loop hs (Stream.says_mark hs hk rfl (by decide)) h)
  · rename_i hk; exact .inl (ifStatement_spec hf hs hk h)
  · rename_i hk
    exact .inl (bound_spec hf .letIn hs (Stream.says_mark hs hk rfl (by decide)) h)
  · rename_i hk; exact .inl (file_spec .include hs hk h)
  · rename_i hk; exact .inl (file_spec .use hs hk h)
  · rename_i hk; exact .inl (unionBlock_spec hf hs hk h)
  · rename_i hk
    obtain ⟨rfl, rfl⟩ := gives_leaf.1 h
    exact .inl ⟨_, _, rfl, Node.isStmt_empty, fun _ => Stream.says_mark hs hk rfl (by decide)⟩
  · rename_i hk
    obtain ⟨hassign, hspec⟩ := declaration_spec hf hs (.inr ⟨rfl, hk⟩) h
    exact .inr ⟨.inr (.inr ⟨.inr hk, hassign⟩), hspec⟩
  · rename_i hk
    have hname := Stream.says_verbatim hs.proper hk (.inl rfl)
    unfold namedStatement at h
    split at h
    · simp only [gives_ite, Stream.look_text] at h
      obtain ⟨htext, h⟩ | ⟨-, ⟨htext, h⟩ | ⟨-, ⟨htext, h⟩ | ⟨-, h⟩⟩⟩ := h
      · rw [htext] at hname
        exact .inl (bound_spec hf .intersectionLoop hs hname h)
      · rw [htext] at hname
        exact .inl (bound_spec hf .assign hs hname h)
      · exact .inl (assertStatement_spec hf hs hk htext h)
      · exact .inl (moduleCall_spec hf hs hk h)
    · obtain ⟨hassign, hspec⟩ := declaration_spec hf hs (.inl ⟨rfl, hk⟩) h
      exact .inr ⟨.inr (.inr ⟨.inl hk, hassign⟩), hspec⟩
    · exact .inl (moduleCall_spec hf hs hk h)
  · exact absurd h gives_refuse

theorem body_spec (hf : KnowsAll source f) (hs : s.Of source) (h : Gives f body fr s ns t) :
    StmtSpec source s ns t := by
  simp only [body, gives_look] at h
  split at h
  case h_7 h1 h2 h3 h4 h5 h6 =>
    obtain ⟨hspec | ⟨hdecl, -⟩, -⟩ := hf.outer .statement _ _ _ _ hs h
    · exact hspec
    · obtain hk | hk | ⟨hk | hk, hassign⟩ := hdecl
      · exact absurd hk h1
      · exact absurd hk h2
      · exact absurd hassign (h5 hk)
      · exact absurd hassign (h6 hk)
  all_goals exact absurd h gives_refuse

/-- One statement after the other. -/
theorem items_step (hf : KnowsAll source f) (hs : s.Of source) {p : Phrase}
    (hp : ∀ fr u ns, u.Of source → f p fr u = .ok ns [] t →
      ∃ is, List.Forall₂ (Node.IsItem source) ns is ∧
        ∀ d, u.Says (Node.bareBodiesAll ns) t (words (Item.lines d is)))
    (h : Gives f (seq (recover (call .statement)) (call p)) fr s ns t) :
    ∃ is, List.Forall₂ (Node.IsItem source) ns is ∧
      ∀ d, s.Says (Node.bareBodiesAll ns) t (words (Item.lines d is)) := by
  simp only [gives_seq, gives_recover, gives_call] at h
  obtain ⟨m, u, ms, h1, h2, rfl⟩ := h
  obtain ⟨hspec, -⟩ := hf.outer .statement _ _ _ _ hs h1
  obtain ⟨a, i, rfl, ha, hsay⟩ : ItemSpec source s m u := hspec.elim (·.item) (·.2)
  obtain ⟨is, hall, hsaid⟩ := hp _ _ _ ((hsay 0).of hs) h2
  refine ⟨i :: is, .cons ha hall, fun depth => ?_⟩
  simpa [Item.lines] using (hsay depth).trans hs (hsaid depth)

theorem items_nil :
    ∃ is, List.Forall₂ (Node.IsItem source) [] is ∧
      ∀ d, s.Says (Node.bareBodiesAll []) s (words (Item.lines d is)) :=
  ⟨[], .nil, fun _ => .refl s⟩

theorem rule_outer (hf : KnowsAll source f) (p : Phrase) (hs : s.Of source)
    (h : Gives f (rule p) fr s ns t) : OuterSpec source p s ns t := by
  cases p with
  | statement =>
    refine ⟨statement_spec hf hs h, ?_⟩
    have hlt := count_lt_of_eats hf.forward hf.eating statement false fr s ns [] t hs.proper
      statement_eats (by simp) h
    obtain ⟨n, run, hn, hp, hspan, -⟩ := spans_of_single hf.forward
      (⟨hs.proper, List.suffix_rfl, hs.aligned⟩ : s.At s.ahead) statement_single h hlt
    exact ⟨n, run, hn, hp, hspan⟩
  | body => exact body_spec hf hs h
  | items =>
    have h : Gives f items fr s ns t := h
    simp only [items, gives_look, Stream.look_kind] at h
    split at h
    · obtain ⟨rfl, rfl⟩ := gives_done.1 h
      exact items_nil
    · exact items_step hf hs (fun fr u ns hu hns => hf.outer .items fr u ns t hu hns) h
  | blockItems =>
    have h : Gives f blockItems fr s ns t := h
    simp only [blockItems, gives_look, Stream.look_kind] at h
    split at h
    · obtain ⟨rfl, rfl⟩ := gives_done.1 h
      exact items_nil
    · obtain ⟨rfl, rfl⟩ := gives_done.1 h
      exact items_nil
    · exact items_step hf hs (fun fr u ns hu hns => hf.outer .blockItems fr u ns t hu hns) h
  | _ => trivial

/-- What is known of all phrases that are parsed without a fault. -/
theorem parsePhrase_spec (p : Phrase) (fr : Frame) (s t : Stream) (ns : List Node)
    (hs : s.Of source) (h : parsePhrase p fr s = .ok ns [] t) :
    InnerSpec source p fr s ns t ∧ OuterSpec source p s ns t := by
  refine parsePhrase_induct_barring
    (P := fun p fr s o => s.Of source → ∀ ns t, o = .ok ns [] t →
      InnerSpec source p fr s ns t ∧ OuterSpec source p s ns t) ?_ ?_ p fr s hs.proper hs ns t h
  · intro p fr s _ ns t h
    simp at h
  · intro f forward eating barring hf p fr s _ hs ns t h
    have inner : ∀ p fr (s : Stream) ns t, s.Of source → f p fr s = .ok ns [] t →
        InnerSpec source p fr s ns t := fun p fr s ns t hs h => (hf p fr s hs.proper hs ns t h).1
    have knows : KnowsAll source f :=
      ⟨⟨barring, inner⟩, forward, eating, fun p fr s ns t hs h => (hf p fr s hs.proper hs ns t h).2⟩
    exact ⟨rule_inner knows.toKnows p hs h, rule_outer knows p hs h⟩

end Grammar
end Scad
