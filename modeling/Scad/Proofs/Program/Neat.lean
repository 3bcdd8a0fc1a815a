import Scad.Proofs.Program.Legible

/-!
# Phrases are printed legibly

A phrase is neat if its pieces are legible and begin and end with a word after which, and in front of
which, other phrases can stand. Each construct is neat if its parts are. The one place at which this
is not so for all parts is a point behind a number: the printer keeps them apart only if the number
stands alone.
-/

namespace Scad

namespace TokenKind

/-- The words that a phrase may begin with. -/
def opensPhrase : TokenKind → Bool
  | path | assign | eqEq => false
  | _ => true

/-- The words that a phrase may end with. -/
def endsPhrase : TokenKind → Bool
  | number | string | path | identifier | special | kwTrue | kwFalse | kwUndef | rparen | rbracket
  | rbrace | semicolon => true
  | _ => false

theorem beq_path_of_opensPhrase {k : TokenKind} (h : k.opensPhrase = true) :
    (k == path) = false := by
  revert h
  cases k <;> decide

theorem opensPath_of_endsPhrase {k : TokenKind} (h : k.endsPhrase = true) :
    k.opensPath = false := by
  revert h
  cases k <;> decide

/-- Behind an opening mark or a sign, any phrase may begin at once. -/
theorem joins_of_opensPhrase {p k : TokenKind} (hk : k.opensPhrase = true)
    (hp : p ∈ [lparen, lbracket, minus, plus, bang, star, hash, percent]) : p.joins k = true := by
  simp only [List.mem_cons, List.not_mem_nil, or_false] at hp
  rcases hp with rfl | rfl | rfl | rfl | rfl | rfl | rfl | rfl <;>
    cases k <;> simp_all [joins, opensPhrase, isDelimiter, isWord, isReserved]

/-- A point joins all ends of phrases but numbers. -/
theorem joins_dot {k : TokenKind} (hk : k.endsPhrase = true) (hn : k ≠ number) :
    k.joins dot = true := by
  revert hk hn
  cases k <;> decide

theorem joins_delimiter {p k : TokenKind} (hk : k.isDelimiter = true) : p.joins k = true := by
  simp [joins, hk]

theorem follows_apart {p k : TokenKind} (hp : p.opensPath = false) (hk : (k == path) = false) :
    follows (some p) false k = true := by
  simp [follows, hp, hk]

theorem follows_joined {p k : TokenKind} (hj : p.joins k = true) (hp : p.opensPath = false)
    (hk : (k == path) = false) : follows (some p) true k = true := by
  simp [follows, hj, hp, hk]

end TokenKind

namespace Piece

open TokenKind

/-- The kind of the word that a list begins with. -/
def firstKind? : List Piece → Option TokenKind
  | word k _ :: _ => some k
  | _ => none

/-- The kind of the word that a list ends with. -/
def lastKind? (ps : List Piece) : Option TokenKind :=
  match ps.getLast? with
  | some (word k _) => some k
  | _ => none

/-- The pieces of a phrase that begins with a word of kind `k` and ends with one of kind `l`. -/
structure Neat (k : TokenKind) (ps : List Piece) (l : TokenKind) : Prop where
  legible : legible none false ps = true
  first : firstKind? ps = some k
  last : lastKind? ps = some l
  opens : k.opensPhrase = true
  ends : l.endsPhrase = true

/-! ## Putting pieces together -/

theorem legible_word (prev : Option TokenKind) (glued : Bool) (k : TokenKind) (s : String)
    (ps : List Piece) :
    Piece.legible prev glued (word k s :: ps) =
      (follows prev glued k && Piece.legible (some k) true ps) := rfl

theorem legible_mark (prev : Option TokenKind) (glued : Bool) (k : TokenKind) (ps : List Piece) :
    Piece.legible prev glued (mark k :: ps) =
      (follows prev glued k && Piece.legible (some k) true ps) := rfl

theorem legible_blank (prev : Option TokenKind) (glued : Bool) (ps : List Piece) :
    Piece.legible prev glued (blank :: ps) = Piece.legible prev false ps := rfl

theorem legible_newline (prev : Option TokenKind) (glued : Bool) (ps : List Piece) :
    Piece.legible prev glued (newline :: ps) = Piece.legible prev false ps := rfl

theorem legible_indent (prev : Option TokenKind) (glued : Bool) (n : Nat) (ps : List Piece) :
    Piece.legible prev glued (indent n :: ps) = Piece.legible prev glued ps := rfl

/-- Behind a list that ends with a word, only that word counts. -/
theorem legible_append_of_last {a : List Piece} {l : TokenKind} (h : lastKind? a = some l)
    (b : List Piece) (prev : Option TokenKind) (glued : Bool) :
    Piece.legible prev glued (a ++ b) =
      (Piece.legible prev glued a && Piece.legible (some l) true b) := by
  induction a generalizing prev glued with
  | nil => cases h
  | cons p a ih =>
    cases a with
    | nil =>
      cases p with
      | word k s =>
        obtain rfl : k = l := Option.some.inj h
        simp [Piece.legible]
      | _ => cases h
    | cons q a =>
      have ih := ih (by simpa [lastKind?] using h)
      cases p with
      | word k s => simp only [List.cons_append, Piece.legible] at ih ⊢; rw [ih, Bool.and_assoc]
      | _ => simp only [List.cons_append, Piece.legible] at ih ⊢; exact ih _ _

/-- A phrase stands wherever its first word may. -/
theorem Neat.legible_append {k l : TokenKind} {a : List Piece} (h : Neat k a l) (b : List Piece)
    (prev : Option TokenKind) (glued : Bool) :
    Piece.legible prev glued (a ++ b) =
      (follows prev glued k && Piece.legible (some l) true b) := by
  have hleg := h.legible
  have hfirst := h.first
  rw [legible_append_of_last h.last]
  congr 1
  cases a with
  | nil => cases hfirst
  | cons p a =>
    cases p with
    | word k' s =>
      obtain rfl : k' = k := Option.some.inj hfirst
      rw [legible_word, Bool.and_eq_true_iff] at hleg
      rw [legible_word, hleg.2, Bool.and_true]
    | _ => cases hfirst

theorem Neat.legible_self {k l : TokenKind} {a : List Piece} (h : Neat k a l)
    (prev : Option TokenKind) (glued : Bool) :
    Piece.legible prev glued a = follows prev glued k := by
  have := h.legible_append [] prev glued
  rwa [List.append_nil, Piece.legible, Bool.and_true] at this

theorem firstKind?_append {a : List Piece} {k : TokenKind} (h : firstKind? a = some k)
    (b : List Piece) : firstKind? (a ++ b) = some k := by
  cases a with
  | nil => cases h
  | cons p a => cases p <;> exact h

theorem lastKind?_append {b : List Piece} {l : TokenKind} (h : lastKind? b = some l)
    (a : List Piece) : lastKind? (a ++ b) = some l := by
  unfold lastKind? at h ⊢
  rw [List.getLast?_append]
  cases hb : b.getLast? with
  | none => rw [hb] at h; cases h
  | some p => rw [hb] at h; exact h

theorem lastKind?_cons {b : List Piece} {l : TokenKind} (h : lastKind? b = some l) (p : Piece) :
    lastKind? (p :: b) = some l := lastKind?_append h [p]

/-- Phrases with commas between them, in front of a closing mark. -/
theorem legible_commas {ps : List (List Piece)} (hps : ∀ p ∈ ps, ∃ k l, Neat k p l)
    {prev : Option TokenKind} {glued : Bool} {c : TokenKind} (hc : c.isDelimiter = true)
    (hopen : ∀ k, k.opensPhrase = true → follows prev glued k = true) (b : List Piece) :
    Piece.legible prev glued (commas ps ++ mark c :: b) = Piece.legible (some c) true b := by
  have hcp : (c == path) = false := by revert hc; cases c <;> decide
  have hco : c.opensPhrase = true := by revert hc; cases c <;> decide
  have close : ∀ {k l : TokenKind} {p : List Piece}, Neat k p l →
      ∀ {prev : Option TokenKind} {glued : Bool}, follows prev glued k = true →
      Piece.legible prev glued (p ++ mark c :: b) = Piece.legible (some c) true b := by
    intro k l p h prev glued hf
    rw [h.legible_append, hf, legible_mark, follows_joined (joins_delimiter hc)
      (opensPath_of_endsPhrase h.ends) hcp]
    rfl
  induction ps generalizing prev glued with
  | nil => rw [commas_nil, List.nil_append, legible_mark, hopen c hco, Bool.true_and]
  | cons p ps ih =>
    obtain ⟨k, l, hp⟩ := hps p (by simp)
    cases ps with
    | nil => exact close hp (hopen k hp.opens)
    | cons q ps =>
      rw [commas_cons_cons, List.append_assoc, hp.legible_append, hopen k hp.opens,
        List.cons_append, legible_mark, follows_joined (joins_delimiter rfl)
          (opensPath_of_endsPhrase hp.ends) rfl, List.cons_append, legible_blank]
      exact ih (fun p hp => hps p (by simp [hp]))
        (fun k hk => follows_apart rfl (beq_path_of_opensPhrase hk))

/-- A list in parentheses, behind a word. -/
theorem legible_parens {ps : List (List Piece)} (hps : ∀ p ∈ ps, ∃ k l, Neat k p l)
    {prev : Option TokenKind} {glued : Bool} (hp : follows prev glued .lparen = true)
    (b : List Piece) :
    Piece.legible prev glued (parens (commas ps) ++ b) = Piece.legible (some .rparen) true b := by
  rw [parens, List.cons_append, legible_mark, hp, List.append_assoc, List.singleton_append,
    Bool.true_and]
  exact legible_commas hps rfl (fun k hk => follows_joined (joins_of_opensPhrase hk (by simp)) rfl
    (beq_path_of_opensPhrase hk)) b

theorem Neat.follows_none {k l : TokenKind} {a : List Piece} (h : Neat k a l) (glued : Bool) :
    follows none glued k = true := by
  simp [follows, bne, beq_path_of_opensPhrase h.opens]

theorem Neat.follows_apart {k l : TokenKind} {a : List Piece} (h : Neat k a l) {p : TokenKind}
    (hp : p.opensPath = false) : follows (some p) false k = true :=
  TokenKind.follows_apart hp (beq_path_of_opensPhrase h.opens)

theorem Neat.follows_joined {k l : TokenKind} {a : List Piece} (h : Neat k a l) {p : TokenKind}
    (hp : p ∈ [lparen, lbracket, minus, plus, bang, star, TokenKind.hash, percent]) :
    follows (some p) true k = true := by
  refine TokenKind.follows_joined (joins_of_opensPhrase h.opens hp) ?_
    (beq_path_of_opensPhrase h.opens)
  revert hp
  cases p <;> decide

/-- A mark that stands apart may follow the end of any phrase. -/
theorem Neat.ends_apart {k l : TokenKind} {a : List Piece} (h : Neat k a l) {m : TokenKind}
    (hm : (m == path) = false) : follows (some l) false m = true :=
  TokenKind.follows_apart (opensPath_of_endsPhrase h.ends) hm

/-- A delimiter may follow it at once. -/
theorem Neat.ends_joined {k l : TokenKind} {a : List Piece} (h : Neat k a l) {m : TokenKind}
    (hm : m.isDelimiter = true) : follows (some l) true m = true :=
  TokenKind.follows_joined (joins_delimiter hm) (opensPath_of_endsPhrase h.ends)
    (by revert hm; cases m <;> decide)

end Piece

open Piece TokenKind

/-! ## Names -/

theorem Name.neat_pieces (n : Name) :
    ∃ k, Neat k n.pieces k ∧ (k = .identifier ∨ k = .special) := by
  unfold Name.pieces
  split
  · exact ⟨.special, ⟨rfl, rfl, rfl, rfl, rfl⟩, .inr rfl⟩
  · exact ⟨.identifier, ⟨rfl, rfl, rfl, rfl, rfl⟩, .inl rfl⟩

/-! ## Expressions -/

attribute [local simp] Expr.pieces LoopHead.pieces Clause.pieces

/-- All phrases of a list are neat. -/
def NeatAll (ps : List (List Piece)) : Prop := ∀ p ∈ ps, ∃ k l, Neat k p l

theorem NeatAll.nil : NeatAll [] := by simp [NeatAll]

theorem NeatAll.cons {k l : TokenKind} {p : List Piece} {ps : List (List Piece)} (h : Neat k p l)
    (hs : NeatAll ps) : NeatAll (p :: ps) := by
  intro q hq
  rcases List.mem_cons.1 hq with rfl | hq
  · exact ⟨k, l, h⟩
  · exact hs q hq

theorem BinaryOp.token_beq_path (o : BinaryOp) : (o.token == path) = false := by cases o <;> rfl

theorem BinaryOp.token_opensPath (o : BinaryOp) : o.token.opensPath = false := by cases o <;> rfl

theorem UnaryOp.token_mem (o : UnaryOp) :
    o.token ∈ [lparen, lbracket, minus, plus, bang, star, TokenKind.hash, percent] := by
  cases o <;> decide

/-- A value behind a name. -/
theorem Piece.Neat.named {k l : TokenKind} {ps : List Piece} (n : Name) (h : Neat k ps l) :
    ∃ k', Neat k' (n.pieces ++ spaced .assign ++ ps) l := by
  obtain ⟨kn, hn, -⟩ := n.neat_pieces
  refine ⟨kn, ?_, ?_, lastKind?_append h.last _, hn.opens, h.ends⟩
  · simp only [spaced, List.append_assoc, List.cons_append, List.nil_append, hn.legible_append,
      hn.follows_none, legible_blank, legible_mark, h.legible_self, hn.ends_apart (m := .assign) rfl,
      h.follows_apart (p := .assign) rfl, Bool.and_true]
  · rw [List.append_assoc]
    exact firstKind?_append hn.first _

section

variable {a b c : Expr} {ka la kb lb kc lc : TokenKind} {s : Span}

theorem Expr.neat_call {as : List Arg} (ha : Neat ka a.pieces la) (has : NeatAll (Arg.piecesAll as)) :
    Neat ka (Expr.call a as s).pieces .rparen := by
  have hp := legible_parens has (ha.ends_joined rfl) []
  rw [List.append_nil] at hp
  refine ⟨?_, ?_, ?_, ha.opens, rfl⟩
  · rw [Expr.pieces, ha.legible_append, ha.follows_none, hp]
    rfl
  · rw [Expr.pieces]
    exact firstKind?_append ha.first _
  · rw [Expr.pieces, parens]
    exact lastKind?_append (lastKind?_cons (lastKind?_append rfl _) _) _

theorem Expr.neat_index (ha : Neat ka a.pieces la) (hb : Neat kb b.pieces lb) :
    Neat ka (Expr.index a b s).pieces .rbracket := by
  refine ⟨?_, ?_, ?_, ha.opens, rfl⟩
  · simp only [Expr.pieces, ha.legible_append, ha.follows_none, legible_mark, hb.legible_append,
      ha.ends_joined (m := .lbracket) rfl, hb.follows_joined (p := .lbracket) (by simp),
      hb.ends_joined (m := .rbracket) rfl, legible, Bool.and_true]
  · rw [Expr.pieces]
    exact firstKind?_append ha.first _
  · rw [Expr.pieces]
    exact lastKind?_append (lastKind?_cons (lastKind?_append rfl _) _) _

/-- A point may follow a number that stands alone, and whatever does not end with a number. -/
theorem Expr.neat_member {n : Name} (ha : Neat ka a.pieces la)
    (hdot : a.number?.isSome = true ∨ la ≠ .number) :
    ∃ l, Neat ka (Expr.member a n s).pieces l ∧ l ≠ .number := by
  obtain ⟨kn, hn, hkn⟩ := n.neat_pieces
  have hname : follows (some .dot) true kn = true := by rcases hkn with rfl | rfl <;> rfl
  refine ⟨kn, ⟨?_, ?_, ?_, ha.opens, hn.ends⟩, by rcases hkn with rfl | rfl <;> decide⟩
  · rw [Expr.pieces, List.append_assoc, ha.legible_append, ha.follows_none]
    split
    · simp only [List.cons_append, List.nil_append, legible_blank, legible_mark, hn.legible_self,
        ha.ends_apart (m := .dot) rfl, hname, Bool.and_true]
    · rename_i hnum
      have hj := joins_dot ha.ends (hdot.resolve_left hnum)
      simp only [List.nil_append, legible_mark, hn.legible_self, hname,
        TokenKind.follows_joined hj (opensPath_of_endsPhrase ha.ends) rfl, Bool.and_true]
  · rw [Expr.pieces, List.append_assoc]
    exact firstKind?_append ha.first _
  · rw [Expr.pieces]
    exact lastKind?_append (lastKind?_cons hn.last _) _

theorem Expr.neat_unary {o : UnaryOp} (ha : Neat ka a.pieces la) :
    Neat o.token (Expr.unary o a s).pieces la := by
  refine ⟨?_, rfl, lastKind?_cons ha.last _, by cases o <;> rfl, ha.ends⟩
  rw [Expr.pieces, legible_mark, ha.legible_self, ha.follows_joined o.token_mem, Bool.and_true]
  cases o <;> rfl

theorem Expr.neat_binary {o : BinaryOp} (ha : Neat ka a.pieces la) (hb : Neat kb b.pieces lb) :
    Neat ka (Expr.binary o a b s).pieces lb := by
  refine ⟨?_, ?_, ?_, ha.opens, hb.ends⟩
  · simp only [Expr.pieces, spaced, List.append_assoc, List.cons_append, List.nil_append,
      ha.legible_append, ha.follows_none, legible_blank, legible_mark, hb.legible_self,
      ha.ends_apart o.token_beq_path, hb.follows_apart o.token_opensPath, Bool.and_true]
  · rw [Expr.pieces, List.append_assoc]
    exact firstKind?_append ha.first _
  · rw [Expr.pieces]
    exact lastKind?_append hb.last _

theorem Expr.neat_ternary (ha : Neat ka a.pieces la) (hb : Neat kb b.pieces lb)
    (hc : Neat kc c.pieces lc) : Neat ka (Expr.ternary a b c s).pieces lc := by
  refine ⟨?_, ?_, ?_, ha.opens, hc.ends⟩
  · simp only [Expr.pieces, spaced, List.append_assoc, List.cons_append, List.nil_append,
      ha.legible_append, ha.follows_none, legible_blank, legible_mark, hb.legible_append,
      hc.legible_self, ha.ends_apart (m := .question) rfl, hb.follows_apart (p := .question) rfl,
      hb.ends_apart (m := .colon) rfl, hc.follows_apart (p := .colon) rfl, Bool.and_true]
  · rw [Expr.pieces]
    simp only [List.append_assoc]
    exact firstKind?_append ha.first _
  · rw [Expr.pieces]
    exact lastKind?_append hc.last _

theorem Expr.neat_paren (ha : Neat ka a.pieces la) :
    Neat .lparen (Expr.paren a s).pieces .rparen := by
  have hp := @legible_parens _ (NeatAll.nil.cons ha) none false rfl []
  rw [List.append_nil, commas_singleton] at hp
  exact ⟨by rw [Expr.pieces, hp]; rfl, rfl, lastKind?_cons (lastKind?_append rfl _) _, rfl, rfl⟩

theorem Expr.neat_letIn {bs : List Assignment} (hbs : NeatAll (Assignment.piecesAll bs))
    (ha : Neat ka a.pieces la) : Neat .kwLet (Expr.letIn bs a s).pieces la := by
  have hp := @legible_parens _ hbs (some .kwLet) false rfl (blank :: a.pieces)
  refine ⟨?_, rfl, ?_, rfl, ha.ends⟩
  · rw [Expr.pieces, List.cons_append, List.cons_append, legible_mark, legible_blank, hp,
      legible_blank, ha.legible_self, ha.follows_apart rfl]
    rfl
  · rw [Expr.pieces]
    exact lastKind?_append (lastKind?_cons ha.last _) _

theorem Expr.neat_guarded {g : Guard} {as : List Arg} {e : Option Expr}
    (has : NeatAll (Arg.piecesAll as)) (he : ∀ a, e = some a → ∃ k l, Neat k a.pieces l) :
    ∃ l, Neat .identifier (Expr.guarded g as e s).pieces l ∧ (e = none → l = .rparen) := by
  have hp := @legible_parens _ has (some .identifier) true rfl
  cases e with
  | none =>
    refine ⟨.rparen, ⟨?_, rfl, ?_, rfl, rfl⟩, fun _ => rfl⟩
    · rw [Expr.pieces, Expr.piecesBody, List.cons_append, legible_word, hp]
      rfl
    · rw [Expr.pieces, Expr.piecesBody, List.append_nil, parens]
      exact lastKind?_cons (lastKind?_cons (lastKind?_append rfl _) _) _
  | some a =>
    obtain ⟨k, l, ha⟩ := he a rfl
    refine ⟨l, ⟨?_, rfl, ?_, rfl, ha.ends⟩, by simp⟩
    · rw [Expr.pieces, Expr.piecesBody, List.cons_append, legible_word, hp, legible_blank,
        ha.legible_self, ha.follows_apart rfl]
      rfl
    · rw [Expr.pieces, Expr.piecesBody]
      exact lastKind?_append (lastKind?_cons ha.last _) _

theorem Expr.neat_list {es : List Expr} (hes : NeatAll (Expr.piecesAll es)) :
    Neat .lbracket (Expr.list es s).pieces .rbracket := by
  refine ⟨?_, rfl, ?_, rfl, rfl⟩
  · rw [Expr.pieces, legible_mark, legible_commas hes rfl]
    · rfl
    · exact fun k hk => TokenKind.follows_joined (joins_of_opensPhrase hk (by simp)) rfl
        (beq_path_of_opensPhrase hk)
  · rw [Expr.pieces]
    exact lastKind?_cons (lastKind?_append rfl _) _

theorem Expr.neat_range {e : Option Expr} (ha : Neat ka a.pieces la)
    (he : ∀ b, e = some b → ∃ k l, Neat k b.pieces l) (hc : Neat kc c.pieces lc) :
    Neat .lbracket (Expr.range a e c s).pieces .rbracket := by
  refine ⟨?_, rfl, ?_, rfl, rfl⟩
  · cases e with
    | none =>
      simp only [Expr.pieces, Expr.piecesStep, spaced, List.append_assoc, List.cons_append,
        List.nil_append, legible_mark, ha.legible_append, hc.legible_append,
        ha.follows_joined (p := .lbracket) (by simp), ha.ends_apart (m := .colon) rfl,
        hc.follows_apart (p := .colon) rfl, hc.ends_joined (m := .rbracket) rfl, legible,
        Bool.and_true]
      rfl
    | some b =>
      obtain ⟨k, l, hb⟩ := he b rfl
      simp only [Expr.pieces, Expr.piecesStep, spaced, List.append_assoc, List.cons_append,
        List.nil_append, legible_mark, ha.legible_append, hb.legible_append, hc.legible_append,
        ha.follows_joined (p := .lbracket) (by simp),
        ha.ends_apart (m := .colon) rfl, hb.follows_apart (p := .colon) rfl,
        hb.ends_apart (m := .colon) rfl, hc.follows_apart (p := .colon) rfl,
        hc.ends_joined (m := .rbracket) rfl, legible, Bool.and_true]
      rfl
  · rw [Expr.pieces]
    exact lastKind?_cons (lastKind?_append rfl _) _

theorem Expr.neat_function {ps : List Param} (hps : NeatAll (Param.piecesAll ps))
    (ha : Neat ka a.pieces la) : Neat .kwFunction (Expr.function ps a s).pieces la := by
  have hp := @legible_parens _ hps (some .kwFunction) true rfl (blank :: a.pieces)
  refine ⟨?_, rfl, ?_, rfl, ha.ends⟩
  · rw [Expr.pieces, List.cons_append, legible_mark, hp, legible_blank, ha.legible_self,
      ha.follows_apart rfl]
    rfl
  · rw [Expr.pieces]
    exact lastKind?_append (lastKind?_cons ha.last _) _

theorem Expr.neat_each (ha : Neat ka a.pieces la) : Neat .kwEach (Expr.each a s).pieces la := by
  refine ⟨?_, rfl, ?_, rfl, ha.ends⟩
  · rw [Expr.pieces, legible_mark, legible_blank, ha.legible_self, ha.follows_apart rfl]
    rfl
  · rw [Expr.pieces]
    exact lastKind?_cons (lastKind?_cons ha.last _) _

theorem Expr.neat_choice {e : Option Expr} (hc : Neat kc c.pieces lc) (ha : Neat ka a.pieces la)
    (he : ∀ b, e = some b → ∃ k l, Neat k b.pieces l) :
    ∃ l, Neat .kwIf (Expr.choice c a e s).pieces l := by
  have hp := @legible_parens _ (NeatAll.nil.cons hc) (some .kwIf) false rfl
  simp only [commas_singleton] at hp
  cases e with
  | none =>
    refine ⟨la, ?_, rfl, ?_, rfl, ha.ends⟩
    · rw [Expr.pieces, Expr.piecesElse, List.append_nil, List.cons_append, List.cons_append,
        legible_mark, legible_blank, hp, legible_blank, ha.legible_self, ha.follows_apart rfl]
      rfl
    · rw [Expr.pieces, Expr.piecesElse, List.append_nil]
      exact lastKind?_append (lastKind?_cons ha.last _) _
  | some b =>
    obtain ⟨k, l, hb⟩ := he b rfl
    refine ⟨l, ?_, rfl, ?_, rfl, hb.ends⟩
    · rw [Expr.pieces, Expr.piecesElse, List.cons_append, List.cons_append, legible_mark,
        legible_blank, hp, legible_blank, ha.legible_append, ha.follows_apart rfl, legible_blank,
        legible_mark, ha.ends_apart rfl, legible_blank, hb.legible_self, hb.follows_apart rfl]
      rfl
    · rw [Expr.pieces, Expr.piecesElse]
      exact lastKind?_append (lastKind?_cons (lastKind?_append (lastKind?_cons (lastKind?_cons
        (lastKind?_cons hb.last _) _) _) _) _) _

/-! ## Comprehensions -/

/-- The pieces behind the head of a loop: the clauses that follow and the body. -/
structure NeatTail (ps : List Piece) (l : TokenKind) : Prop where
  legible : Piece.legible (some .rparen) true ps = true
  last : lastKind? ps = some l
  ends : l.endsPhrase = true

/-- The head of a loop ends with a closing parenthesis. -/
def NeatHead (h : LoopHead) : Prop :=
  firstKind? h.pieces = some .kwFor ∧ ∀ (prev : Option TokenKind) (rest : List Piece),
    Piece.legible prev false (h.pieces ++ rest) =
      (follows prev false .kwFor && Piece.legible (some .rparen) true rest)

theorem LoopHead.neat_iterating {bs : List Assignment} (hbs : NeatAll (Assignment.piecesAll bs)) :
    NeatHead (.iterating bs) := by
  refine ⟨rfl, fun prev rest => ?_⟩
  rw [LoopHead.pieces, List.cons_append, List.cons_append, legible_mark, legible_blank,
    legible_parens hbs rfl]

theorem LoopHead.neat_counting {is us : List Assignment} (his : NeatAll (Assignment.piecesAll is))
    (hc : Neat kc c.pieces lc) (hus : NeatAll (Assignment.piecesAll us)) :
    NeatHead (.counting is c us) := by
  refine ⟨rfl, fun prev rest => ?_⟩
  have hopen : ∀ k, k.opensPhrase = true → follows (some .lparen) true k = true := fun k hk =>
    TokenKind.follows_joined (joins_of_opensPhrase hk (by simp)) rfl (beq_path_of_opensPhrase hk)
  have hnext : ∀ k, k.opensPhrase = true → follows (some .semicolon) false k = true := fun k hk =>
    TokenKind.follows_apart rfl (beq_path_of_opensPhrase hk)
  simp only [LoopHead.pieces, parens, List.append_assoc, List.cons_append, List.nil_append,
    legible_mark, legible_blank]
  rw [legible_commas his rfl hopen, legible_blank, hc.legible_append, hc.follows_apart rfl,
    legible_mark, hc.ends_joined rfl, legible_blank, legible_commas hus rfl hnext]
  rfl

theorem NeatTail.body (ha : Neat ka a.pieces la) :
    NeatTail (Clause.piecesAll [] ++ blank :: a.pieces) la := by
  refine ⟨?_, lastKind?_cons ha.last _, ha.ends⟩
  rw [Clause.piecesAll, List.nil_append, legible_blank, ha.legible_self, ha.follows_apart rfl]

/-- A clause in front of a tail. -/
theorem NeatTail.cons {x : Clause} {cs : List Clause} {k : TokenKind}
    (hk : follows (some .rparen) false k = true)
    (hx : ∀ rest, Piece.legible (some .rparen) false (x.pieces ++ rest) =
      (follows (some .rparen) false k && Piece.legible (some .rparen) true rest))
    (h : NeatTail (Clause.piecesAll cs ++ blank :: a.pieces) la) :
    NeatTail (Clause.piecesAll (x :: cs) ++ blank :: a.pieces) la := by
  refine ⟨?_, ?_, h.ends⟩
  · rw [Clause.piecesAll, List.cons_append, legible_blank, List.append_assoc, hx, hk, h.legible]
    rfl
  · rw [Clause.piecesAll, List.cons_append, List.append_assoc]
    exact lastKind?_cons (lastKind?_append h.last _) _

theorem NeatTail.loop {h : LoopHead} {cs : List Clause} (hh : NeatHead h)
    (ht : NeatTail (Clause.piecesAll cs ++ blank :: a.pieces) la) :
    NeatTail (Clause.piecesAll (.loop h s :: cs) ++ blank :: a.pieces) la :=
  ht.cons (k := .kwFor) rfl fun rest => hh.2 _ rest

theorem NeatTail.filter {cs : List Clause} (hc : Neat kc c.pieces lc)
    (ht : NeatTail (Clause.piecesAll cs ++ blank :: a.pieces) la) :
    NeatTail (Clause.piecesAll (.filter c s :: cs) ++ blank :: a.pieces) la := by
  refine ht.cons (k := .kwIf) rfl fun rest => ?_
  have hp := @legible_parens _ (NeatAll.nil.cons hc) (some .kwIf) false rfl rest
  rw [commas_singleton] at hp
  rw [Clause.pieces, List.cons_append, List.cons_append, legible_mark, legible_blank, hp]

theorem NeatTail.letIn {bs : List Assignment} {cs : List Clause}
    (hbs : NeatAll (Assignment.piecesAll bs))
    (ht : NeatTail (Clause.piecesAll cs ++ blank :: a.pieces) la) :
    NeatTail (Clause.piecesAll (.letIn bs s :: cs) ++ blank :: a.pieces) la := by
  refine ht.cons (k := .kwLet) rfl fun rest => ?_
  rw [Clause.pieces, List.cons_append, List.cons_append, legible_mark, legible_blank,
    legible_parens hbs rfl]

theorem Expr.neat_comprehension {h : LoopHead} {cs : List Clause} (hh : NeatHead h)
    (ht : NeatTail (Clause.piecesAll cs ++ blank :: a.pieces) la) :
    Neat .kwFor (Expr.comprehension h cs a s).pieces la := by
  refine ⟨?_, ?_, ?_, rfl, ht.ends⟩
  · rw [Expr.pieces, List.append_assoc, hh.2, ht.legible]
    rfl
  · rw [Expr.pieces, List.append_assoc]
    exact firstKind?_append hh.1 _
  · rw [Expr.pieces, List.append_assoc]
    exact lastKind?_append ht.last _

end

/-! ## Statements and items -/

attribute [local simp] Stmt.pieces Item.pieces

theorem Modifier.token_mem (m : Modifier) :
    m.token ∈ [lparen, lbracket, minus, plus, bang, star, TokenKind.hash, percent] := by
  cases m <;> decide

/-- The pieces at all depths are neat. -/
def Stmt.IsNeat (t : Stmt) : Prop := ∀ d, ∃ k l, Neat k (t.pieces d) l

def Item.IsNeat (i : Item) : Prop := ∀ d, ∃ k l, Neat k (i.pieces d) l

/-- Any phrase may begin here, if it stands apart. -/
def Calm (prev : Option TokenKind) : Prop := ∀ k, k.opensPhrase = true → follows prev false k = true

theorem calm_none : Calm none := fun k hk => by simp [follows, bne, beq_path_of_opensPhrase hk]

theorem calm_some {p : TokenKind} (hp : p.opensPath = false) : Calm (some p) :=
  fun _ hk => TokenKind.follows_apart hp (beq_path_of_opensPhrase hk)

theorem legible_lines {is : List Item} (h : ∀ i ∈ is, i.IsNeat) (d : Nat)
    {prev : Option TokenKind} (hp : Calm prev) {b : List Piece}
    (hb : ∀ prev, Calm prev → Piece.legible prev false b = true) :
    Piece.legible prev false (Item.lines d is ++ b) = true := by
  induction is generalizing prev with
  | nil => exact hb prev hp
  | cons i is ih =>
    obtain ⟨k, l, hi⟩ := h i (by simp) d
    rw [Item.lines, List.cons_append, legible_indent, List.append_assoc, hi.legible_append,
      hp k hi.opens, List.cons_append, legible_newline]
    exact ih (fun i hi => h i (by simp [hi])) (calm_some (opensPath_of_endsPhrase hi.ends))

/-- A newline at the end makes no difference. -/
theorem legible_append_newline (ps : List Piece) (prev : Option TokenKind) (glued : Bool) :
    Piece.legible prev glued (ps ++ [newline]) = Piece.legible prev glued ps := by
  induction ps generalizing prev glued with
  | nil => rfl
  | cons p ps ih =>
    cases p <;> simp only [List.cons_append, Piece.legible, ih]

theorem neat_block {is : List Item} (h : ∀ i ∈ is, i.IsNeat) (d : Nat) :
    Neat .lbrace (Piece.block d (Item.lines (d + 1) is)) .rbrace := by
  unfold Piece.block
  split
  · exact ⟨rfl, rfl, rfl, rfl, rfl⟩
  · refine ⟨?_, rfl, ?_, rfl, rfl⟩
    · rw [legible_mark, legible_newline, legible_lines h (d + 1) (calm_some rfl)]
      · rfl
      · intro prev hp
        rw [legible_indent, legible_mark, hp _ rfl]
        rfl
    · exact lastKind?_cons (lastKind?_cons (lastKind?_append rfl _) _) _

section

variable {t : Stmt} {s : Span}

/-- What a call is applied to stands apart from it, unless it is the semicolon that closes it. -/
theorem legible_tail (ht : t.IsNeat) (d : Nat) :
    Piece.legible (some .rparen) true (tailGap t ++ t.pieces d) = true ∧
      ∃ l, lastKind? (tailGap t ++ t.pieces d) = some l ∧ l.endsPhrase = true := by
  obtain ⟨k, l, h⟩ := ht d
  refine ⟨?_, l, lastKind?_append h.last _, h.ends⟩
  unfold tailGap
  split
  · rename_i he
    cases t with
    | empty => rfl
    | _ => cases he
  · rw [List.singleton_append, legible_blank, h.legible_self, h.follows_apart rfl]

theorem Stmt.neat_call {n : Name} {as : List Arg} (has : NeatAll (Arg.piecesAll as))
    (ht : t.IsNeat) : (Stmt.call n as t s).IsNeat := by
  intro d
  obtain ⟨kn, hn, -⟩ := n.neat_pieces
  obtain ⟨htail, l, hlast, hends⟩ := legible_tail ht d
  refine ⟨kn, l, ?_, ?_, ?_, hn.opens, hends⟩
  · rw [Stmt.pieces, List.append_assoc, List.append_assoc, hn.legible_append, hn.follows_none,
      legible_parens has (hn.ends_joined rfl), htail]
    rfl
  · rw [Stmt.pieces]
    simp only [List.append_assoc]
    exact firstKind?_append hn.first _
  · rw [Stmt.pieces]
    simp only [List.append_assoc]
    exact lastKind?_append (lastKind?_append hlast _) _

theorem Stmt.neat_assert {as : List Arg} (has : NeatAll (Arg.piecesAll as))
    (ht : t.IsNeat) : (Stmt.assert as t s).IsNeat := by
  intro d
  obtain ⟨htail, l, hlast, hends⟩ := legible_tail ht d
  refine ⟨.identifier, l, ?_, rfl, ?_, rfl, hends⟩
  · rw [Stmt.pieces, List.cons_append, legible_word, legible_parens has rfl, htail]
    rfl
  · rw [Stmt.pieces]
    exact lastKind?_append hlast _

theorem Stmt.neat_block {is : List Item} (h : ∀ i ∈ is, i.IsNeat) :
    (Stmt.block is s).IsNeat :=
  fun d => ⟨_, _, Scad.neat_block h d⟩

theorem Binder.piece_eq (k : Binder) : ∃ w x, k.piece = word w x ∧ w.opensPhrase = true ∧
    follows none false w = true ∧ follows (some w) false .lparen = true := by
  cases k with
  | loop => exact ⟨.kwFor, _, rfl, rfl, rfl, rfl⟩
  | letIn => exact ⟨.kwLet, _, rfl, rfl, rfl, rfl⟩
  | intersectionLoop => exact ⟨.identifier, _, rfl, rfl, rfl, rfl⟩
  | assign => exact ⟨.identifier, _, rfl, rfl, rfl, rfl⟩

theorem Stmt.neat_bound {k : Binder} {bs : List Assignment}
    (hbs : NeatAll (Assignment.piecesAll bs)) (ht : t.IsNeat) :
    (Stmt.bound k bs t s).IsNeat := by
  intro d
  obtain ⟨kt, l, h⟩ := ht d
  obtain ⟨w, x, hw, hopens, hfirst, hparen⟩ := k.piece_eq
  refine ⟨w, l, ?_, ?_, ?_, hopens, h.ends⟩
  · rw [Stmt.pieces, hw, List.cons_append, List.cons_append, legible_word, legible_blank,
      legible_parens hbs hparen, legible_blank, h.legible_self, h.follows_apart rfl, hfirst]
    rfl
  · rw [Stmt.pieces, hw]
    rfl
  · rw [Stmt.pieces]
    exact lastKind?_append (lastKind?_cons h.last _) _

theorem Stmt.neat_choice {c : Expr} {kc lc : TokenKind} {u : Option Stmt}
    (hc : Neat kc c.pieces lc) (ht : t.IsNeat)
    (hu : ∀ u', u = some u' → u'.IsNeat) : (Stmt.choice c t u s).IsNeat := by
  intro d
  obtain ⟨kt, l, h⟩ := ht d
  have hp := @legible_parens _ (NeatAll.nil.cons hc) (some .kwIf) false rfl
  simp only [commas_singleton] at hp
  cases u with
  | none =>
    refine ⟨.kwIf, l, ?_, rfl, ?_, rfl, h.ends⟩
    · rw [Stmt.pieces, Stmt.piecesElse, List.append_nil, List.cons_append, List.cons_append,
        legible_mark, legible_blank, hp, legible_blank, h.legible_self, h.follows_apart rfl]
      rfl
    · rw [Stmt.pieces, Stmt.piecesElse, List.append_nil]
      exact lastKind?_append (lastKind?_cons h.last _) _
  | some u' =>
    obtain ⟨ku, l', h'⟩ := hu u' rfl d
    refine ⟨.kwIf, l', ?_, rfl, ?_, rfl, h'.ends⟩
    · rw [Stmt.pieces, Stmt.piecesElse, List.cons_append, List.cons_append, legible_mark,
        legible_blank, hp, legible_blank, h.legible_append, h.follows_apart rfl, legible_blank,
        legible_mark, h.ends_apart rfl, legible_blank, h'.legible_self, h'.follows_apart rfl]
      rfl
    · rw [Stmt.pieces, Stmt.piecesElse]
      exact lastKind?_append (lastKind?_cons (lastKind?_append (lastKind?_cons (lastKind?_cons
        (lastKind?_cons h'.last _) _) _) _) _) _

theorem Stmt.neat_file {k : Link} {p : String} : (Stmt.file k p s).IsNeat := by
  intro d
  cases k with
  | «include» => exact ⟨.kwInclude, .path, rfl, rfl, rfl, rfl, rfl⟩
  | use => exact ⟨.kwUse, .path, rfl, rfl, rfl, rfl, rfl⟩

theorem Stmt.neat_modified {k : Modifier} (ht : t.IsNeat) :
    (Stmt.modified k t s).IsNeat := by
  intro d
  obtain ⟨kt, l, h⟩ := ht d
  refine ⟨k.token, l, ?_, rfl, lastKind?_cons h.last _, by cases k <;> rfl, h.ends⟩
  rw [Stmt.pieces, legible_mark, h.legible_self, h.follows_joined k.token_mem, Bool.and_true]
  cases k <;> rfl

theorem Stmt.neat_empty : (Stmt.empty s).IsNeat :=
  fun _ => ⟨.semicolon, .semicolon, rfl, rfl, rfl, rfl, rfl⟩

theorem Item.neat_module {n : Name} {ps : List Param} {is : List Item}
    (hps : NeatAll (Param.piecesAll ps)) (h : ∀ i ∈ is, i.IsNeat) :
    (Item.moduleDef n ps is s).IsNeat := by
  intro d
  obtain ⟨kn, hn, -⟩ := n.neat_pieces
  have hb := Scad.neat_block h d
  refine ⟨.kwModule, .rbrace, ?_, rfl, ?_, rfl, rfl⟩
  · simp only [Item.pieces, List.cons_append, List.append_assoc, legible_mark, legible_blank,
      hn.legible_append, hn.follows_apart (p := .kwModule) rfl]
    rw [legible_parens hps (hn.ends_joined rfl), legible_blank, hb.legible_self,
      hb.follows_apart rfl]
    rfl
  · rw [Item.pieces]
    exact lastKind?_append (lastKind?_cons hb.last _) _

theorem Item.neat_function {n : Name} {ps : List Param} {a : Expr} {ka la : TokenKind}
    (hps : NeatAll (Param.piecesAll ps)) (ha : Neat ka a.pieces la) :
    (Item.functionDef n ps a s).IsNeat := by
  intro d
  obtain ⟨kn, hn, -⟩ := n.neat_pieces
  refine ⟨.kwFunction, .semicolon, ?_, rfl, ?_, rfl, rfl⟩
  · simp only [Item.pieces, spaced, List.cons_append, List.append_assoc, List.nil_append,
      legible_mark, legible_blank, hn.legible_append, hn.follows_apart (p := .kwFunction) rfl]
    rw [legible_parens hps (hn.ends_joined rfl), legible_blank, legible_mark, legible_blank,
      ha.legible_append, ha.follows_apart rfl, legible_mark, ha.ends_joined rfl]
    rfl
  · rw [Item.pieces]
    exact lastKind?_append rfl _

theorem Item.neat_variable {n : Name} {a : Expr} {ka la : TokenKind} (ha : Neat ka a.pieces la) :
    (Item.variableDef n a s).IsNeat := by
  intro d
  obtain ⟨k, hv⟩ := ha.named n
  refine ⟨k, .semicolon, ?_, firstKind?_append hv.first _, lastKind?_append rfl _, hv.opens, rfl⟩
  rw [Item.pieces, hv.legible_append, hv.follows_none, legible_mark, hv.ends_joined rfl]
  rfl

end

end Scad
