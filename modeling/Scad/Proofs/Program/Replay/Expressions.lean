import Scad.Proofs.Program.Replay

/-!
# Expressions parsed again

The rules of expressions, each put together from the parts that `Replay` has a statement for. Where
a rule looks ahead, two things are to be seen: that it decides alike on the printed words, and that
in front of a comma that is gone it either does the same or fails.
-/

namespace Scad

open Rule

/-- The phrases of which expressions are made. -/
def Phrase.isInner : Phrase → Bool
  | .items | .blockItems | .statement | .body => false
  | _ => true

/-- How much what follows a phrase has to look like what followed it in the source. -/
def Phrase.demand : Phrase → Ahead → Ahead → Prop
  | .statement | .body => Ahead.Open
  | _ => Ahead.Near

/-- The phrases that may be empty in front of a closing mark. -/
def Phrase.fades : Phrase → Bool
  | .bindings | .parameters => true
  | _ => false

namespace Grammar

/-- Phrases that can be replayed. -/
structure ReplaysAll (source source' : List Char) (f : Phrases) : Prop
    extends KnowsAll source f where
  call : ∀ p, Replays source source' f p.isInner p.demand Unknown (.call p)
  vanishes : ∀ p, p.fades = true → Vanishes source f (.call p)
  stops : ∀ fr (s : Stream) ns u, s.Of source → f .bindings fr s = .ok ns [] u →
    u.peek.kind ≠ .comma

variable {source source' : List Char} {f : Phrases} {i : Bool} {E : Ahead → Ahead → Prop}
  {known : TokenKind → Prop}

theorem endsList_cases {k : TokenKind} (h : k.endsList = true) :
    k = .rparen ∨ k = .rbracket ∨ k = .semicolon := by
  revert h
  cases k <;> decide

theorem firm_near (k : TokenKind) : Firm Ahead.Near k := fun _ _ _ h => h

theorem ReplaysAll.phrase (hf : ReplaysAll source source' f) {p : Phrase} (hp : p.isInner = true)
    (hd : p.demand = Ahead.Near) : Replays source source' f i Ahead.Near known (.call p) := by
  have h := hf.call p
  rw [hp, hd] at h
  exact h.outer.knowing

theorem expression_replays (hf : ReplaysAll source source' f) :
    Replays source source' f i Ahead.Near known expression :=
  hf.phrase rfl rfl

/-! ## Lists -/

theorem name_replays {g : Form} {k : TokenKind} {role : Role} (hk : Names g k) :
    Replays source source' f i Ahead.Near (· = k) (.as role (.leaf g)) := by
  rcases hk with ⟨rfl, rfl⟩ | ⟨rfl, rfl⟩
  · exact replays_symbol rfl (firm_near _) (by simp [Form.Suits]) (by decide) (by decide) (by decide)
  · exact replays_symbol rfl (firm_near _) (by simp [Form.Suits]) (by decide) (by decide) (by decide)

/-- A name, an equals sign and a value. -/
theorem named_replays (hf : ReplaysAll source source' f) {g g' : Form} {k : TokenKind} {role : Role}
    (hk : Names g k) (hr : role.isSymbol = false) (ht : g'.isText = false) (hm : g' ≠ .moduleItem) :
    Replays source source' f i Ahead.Near (· = k)
      (node g' [as .name (leaf g), expect .assign, as role expression]) := by
  refine .fresh (.build ?_ ht hm)
  exact (name_replays hk).seq
    ((replays_expect rfl (by decide)).seq ((expression_replays hf).as hr))

/-- A list of which each element starts with a name. -/
theorem names_replays (hf : ReplaysAll source source' f) {g : Form → Rule} {w : Wanted} {p : Phrase}
    (one : ∀ form k, Names form k → Replays source source' f i Ahead.Near (· = k) (g form))
    (hp : p.fades = true) :
    Replays source source' f i Ahead.Near known
      (.seq
        (.look fun x =>
          match x.kind with
          | .identifier => g .identifier
          | .special => g .specialVariable
          | _ => .refuse w)
        (.look fun x => if x.kind = .comma then .seq .take (.call p) else .done)) := by
  refine .seq (.look hf.barring (fun x => ?_) ?_) (.commaThen ?_ (hf.vanishes p hp))
  · split
    · rename_i hk
      rw [hk]
      exact one _ _ (.inl ⟨rfl, rfl⟩)
    · rename_i hk
      rw [hk]
      exact one _ _ (.inr ⟨rfl, rfl⟩)
    · exact replays_refuse w
  · rintro ⟨k, x, k2⟩ ⟨k', x', k2'⟩ - ⟨rfl | ⟨rfl, hend⟩, -⟩
    · exact .inl rfl
    · exact .inr ⟨rfl, trivial⟩
  · cases p with
    | bindings | parameters => exact hf.phrase rfl rfl
    | _ => cases hp

theorem bindings_replays (hf : ReplaysAll source source' f) :
    Replays source source' f i Ahead.Near known bindings := by
  refine .look hf.barring (fun x => ?_) ?_
  · split
    · exact replays_done
    · exact replays_done
    · exact replays_done
    · exact names_replays hf (fun form k hk => named_replays hf hk rfl rfl (by decide)) rfl
  · rintro ⟨k, x, k2⟩ ⟨k', x', k2'⟩ - ⟨rfl | ⟨rfl, hend⟩, -⟩
    · exact .inl rfl
    · refine .inr ⟨rfl, ?_⟩
      rintro ⟨_, x, k2⟩ rfl
      trivial

theorem parameter_replays (hf : ReplaysAll source source' f) {g : Form} {k : TokenKind}
    (hk : Names g k) : Replays source source' f i Ahead.Near (· = k) (parameter g) := by
  refine .fresh (.build ((name_replays hk).seq (.look hf.barring (fun x => ?_) ?_)) rfl (by decide))
  · split
    · rename_i hx
      rw [hx]
      exact (replays_take rfl (firm_near _)).seq ((expression_replays hf).as rfl)
    · exact replays_done
  · rintro ⟨k, x, k2⟩ ⟨k', x', k2'⟩ - ⟨rfl | ⟨rfl, hend⟩, -⟩
    · exact .inl rfl
    · exact .inl (if_neg (by rintro rfl; cases hend))

theorem parameters_replays (hf : ReplaysAll source source' f) :
    Replays source source' f i Ahead.Near known parameters := by
  refine .look hf.barring (fun x => ?_) ?_
  · split
    · exact replays_done
    · exact replays_done
    · exact names_replays hf (fun form k hk => parameter_replays hf hk) rfl
  · rintro ⟨k, x, k2⟩ ⟨k', x', k2'⟩ - ⟨rfl | ⟨rfl, hend⟩, -⟩
    · exact .inl rfl
    · refine .inr ⟨rfl, ?_⟩
      rintro ⟨_, x, k2⟩ rfl
      trivial

theorem argument_replays (hf : ReplaysAll source source' f) :
    Replays source source' f i Ahead.Near known argument := by
  refine .look hf.barring (fun x => ?_) ?_
  · split
    · rename_i hk _
      rw [hk]
      exact named_replays hf (.inl ⟨rfl, rfl⟩) rfl rfl (by decide)
    · rename_i hk _
      rw [hk]
      exact named_replays hf (.inr ⟨rfl, rfl⟩) rfl rfl (by decide)
    · exact expression_replays hf
  · rintro ⟨k, x, k2⟩ ⟨k', x', k2'⟩ - ⟨rfl | ⟨rfl, hend⟩, hname⟩
    · have hsecond : k' = .identifier ∨ k' = .special → (k2' = .assign ↔ k2 = .assign) :=
        fun hn => (hname hn).2.eq_iff rfl
      left
      dsimp only
      split
      · simp_all
      · simp_all
      · split
        · simp_all
        · simp_all
        · rfl
    · exact .inr ⟨rfl, rfl⟩

theorem not_gives_of_endsList (hf : ReplaysAll source source' f) {p : Phrase} {fr : Frame}
    {s u : Stream} {ns : List Node} (hp : ∀ k, p.bars k = k.closes) (hs : s.Of source)
    (hend : s.peek.kind.endsList = true) : f p fr s ≠ .ok ns [] u := by
  intro h
  rw [endsList_of_closes (hf.closes_eq_false hs hp h)] at hend
  cases hend

theorem arguments_replays (hf : ReplaysAll source source' f) :
    Replays source source' f i Ahead.Near known arguments := by
  refine (argument_replays hf).seq (.commaThen (.look hf.barring (fun x => ?_) ?_) ?_)
  · split
    · exact replays_done
    · exact hf.phrase rfl rfl
  · rintro ⟨k, x, k2⟩ ⟨k', x', k2'⟩ - ⟨rfl | ⟨rfl, hend⟩, -⟩
    · exact .inl rfl
    · exact .inr ⟨rfl, rfl⟩
  · intro fr s ns u hs hend h
    simp only [gives_look, gives_ite, gives_done, gives_call, Stream.look_kind] at h
    obtain ⟨-, h⟩ | ⟨-, h⟩ := h
    · exact h
    · exact absurd h (not_gives_of_endsList hf (fun _ => rfl) hs hend)

theorem elements_replays (hf : ReplaysAll source source' f) :
    Replays source source' f i Ahead.Near known elements := by
  refine .commaThen (.look hf.barring (fun x => ?_) ?_) ?_
  · split
    · exact replays_done
    · exact (hf.phrase rfl rfl).seq (hf.phrase rfl rfl)
  · rintro ⟨k, x, k2⟩ ⟨k', x', k2'⟩ - ⟨rfl | ⟨rfl, hend⟩, -⟩
    · exact .inl rfl
    · exact .inr ⟨rfl, rfl⟩
  · intro fr s ns u hs hend h
    simp only [gives_look, gives_ite, gives_done, gives_seq, gives_call, Stream.look_kind] at h
    obtain ⟨-, h⟩ | ⟨-, _, _, _, h, -⟩ := h
    · exact h
    · exact absurd h (not_gives_of_endsList hf (fun _ => rfl) hs hend)

/-! ## Lists in parentheses -/

theorem argumentList_replays (hf : ReplaysAll source source' f) :
    Replays source source' f i E known argumentList := by
  refine (replays_expect rfl (by decide)).seq (.seq ?_ (replays_closing rfl (by decide)))
  refine .as (.fresh (.build (.look hf.barring (fun x => ?_) ?_) rfl (by decide))) rfl
  · split
    · exact replays_done
    · exact replays_done
    · exact hf.phrase rfl rfl
  · rintro ⟨k, x, k2⟩ ⟨k', x', k2'⟩ - ⟨rfl | ⟨rfl, hend⟩, -⟩
    · exact .inl rfl
    · exact .inr ⟨rfl, rfl⟩

theorem assignments_replays (hf : ReplaysAll source source' f) :
    Replays source source' f i Ahead.Near known assignments :=
  .fresh (.build (hf.phrase rfl rfl) rfl (by decide))

theorem bindingList_replays (hf : ReplaysAll source source' f) :
    Replays source source' f i E known bindingList :=
  (replays_expect rfl (by decide)).seq
    (((assignments_replays hf).as rfl).seq (replays_closing rfl (by decide)))

theorem parameterList_replays (hf : ReplaysAll source source' f) :
    Replays source source' f i E known parameterList := by
  refine (replays_expect rfl (by decide)).seq (.seq ?_ (replays_closing rfl (by decide)))
  exact .as (.fresh (.build (hf.phrase rfl rfl) rfl (by decide))) rfl

/-! ## Suffixes and operators -/

/-- The leaf of a mark. -/
theorem mark_replays {g : Form} {k : TokenKind} {role : Role} (hfix : k.isFixed = true)
    (hc : k ≠ .comma) (hg : g.Suits k) (hm : g ≠ .moduleItem) :
    Replays source source' f i E (· = k) (.as role (.leaf g)) := by
  have h : k.stays = true ∧ k ≠ .number ∧ k ≠ .string := by
    revert hfix hc
    cases k <;> decide
  exact replays_symbol h.1 (firm_of_isFixed hfix) hg hm h.2.1 h.2.2

theorem suffixes_replays (hf : ReplaysAll source source' f) :
    Replays source source' f i Ahead.Near known suffixes := by
  refine .look hf.barring (fun x => ?_) ?_
  · split
    · refine .feed (.build (.keep_seq rfl (argumentList_replays hf)) rfl (by decide)) ?_
      exact hf.phrase rfl rfl
    · rename_i hk
      rw [hk]
      refine .feed (.build (.keep_seq rfl ?_) rfl (by decide)) (hf.phrase rfl rfl)
      exact (replays_take rfl (firm_near _)).seq
        (((expression_replays hf).as rfl).seq (replays_closing rfl (by decide)))
    · rename_i hk
      rw [hk]
      refine .feed (.build (.keep_seq rfl ?_) rfl (by decide)) (hf.phrase rfl rfl)
      refine (replays_take rfl (firm_near _)).seq (.look hf.barring (fun x => ?_) ?_)
      · split
        · rename_i hx
          rw [hx]
          exact name_replays (.inl ⟨rfl, rfl⟩)
        · exact replays_refuse _
      · rintro ⟨k, x, k2⟩ ⟨k', x', k2'⟩ - ⟨rfl | ⟨rfl, hend⟩, -⟩
        · exact .inl rfl
        · exact .inr ⟨rfl, trivial⟩
    · exact replays_keep
  · rintro ⟨k, x, k2⟩ ⟨k', x', k2'⟩ - ⟨rfl | ⟨rfl, hend⟩, -⟩
    · exact .inl rfl
    · obtain rfl | rfl | rfl := endsList_cases hend <;> exact .inl rfl

theorem operators_replays (hf : ReplaysAll source source' f) (l : Level) :
    Replays source source' f i Ahead.Near known (operators l) := by
  refine .look hf.barring (fun x => ?_) ?_
  · split
    · exact replays_keep
    · rename_i m hm
      split
      · exact replays_keep
      · refine .feed ?_ (hf.phrase rfl rfl)
        split
        · rename_i hq
          subst hq
          rw [question_of_level hm]
          refine .build (.keep_seq rfl ?_) rfl (by decide)
          exact (replays_take rfl (firm_near _)).seq (((expression_replays hf).as rfl).seq
            ((replays_expect rfl (by decide)).seq ((expression_replays hf).as rfl)))
        · rename_i hq
          obtain ⟨o, ho, -⟩ := binaryOp_of_level hm hq
          rw [ho]
          refine .build (.keep_seq rfl ?_) rfl (by decide)
          refine .seq (mark_replays ?_ ?_ ?_ (by decide)) (.as (hf.phrase rfl rfl) rfl)
          · cases o <;> rfl
          · cases o <;> decide
          · cases o <;> simp [Form.Suits, BinaryOp.token]
  · rintro ⟨k, x, k2⟩ ⟨k', x', k2'⟩ - ⟨rfl | ⟨rfl, hend⟩, -⟩
    · exact .inl rfl
    · obtain rfl | rfl | rfl := endsList_cases hend <;> exact .inl rfl

theorem unary_replays (hf : ReplaysAll source source' f) :
    Replays source source' f i Ahead.Near known unary := by
  -- whichever sign stands in front, an operand follows
  have sign : ∀ k : TokenKind, k = .bang ∨ k = .minus ∨ k = .plus →
      Replays source source' f i Ahead.Near (· = k)
        (node .unaryExpression [as .operator (leaf .operator), as .operand (.call (.expr .power))]) := by
    intro k hk
    refine .fresh (.build (.seq (mark_replays ?_ ?_ ?_ (by decide)) ?_) rfl (by decide))
    · rcases hk with rfl | rfl | rfl <;> rfl
    · rcases hk with rfl | rfl | rfl <;> decide
    · rcases hk with rfl | rfl | rfl <;> simp [Form.Suits]
    · exact .as (hf.phrase rfl rfl) rfl
  refine .look hf.barring (fun x => ?_) ?_
  · split
    · rename_i hk
      exact sign x.kind (.inl hk)
    · rename_i hk
      exact sign x.kind (.inr (.inl hk))
    · rename_i hk
      exact sign x.kind (.inr (.inr hk))
    · exact .fresh (.feed (hf.phrase rfl rfl) (hf.phrase rfl rfl))
  · rintro ⟨k, x, k2⟩ ⟨k', x', k2'⟩ - ⟨rfl | ⟨rfl, hend⟩, -⟩
    · exact .inl rfl
    · exact .inr ⟨rfl, rfl⟩

theorem expr_replays (hf : ReplaysAll source source' f) (l : Level) :
    Replays source source' f i Ahead.Near known (expr l) :=
  .fresh (.feed (hf.phrase rfl rfl) (hf.phrase rfl rfl))

/-! ## Operands -/

theorem guard_replays (hf : ReplaysAll source source' f) {g : Form} (ht : g.isText = false)
    (hm : g ≠ .moduleItem) :
    Replays source source' f i Ahead.Near (· = .identifier) (guardExpression g) := by
  refine .fresh (.build ((replays_take rfl (firm_near _)).seq
    ((argumentList_replays hf).seq (.look hf.barring (fun x => ?_) ?_))) ht hm)
  · split
    · exact (expression_replays hf).as rfl
    · exact replays_done
  · rintro ⟨k, x, k2⟩ ⟨k', x', k2'⟩ - ⟨rfl | ⟨rfl, hend⟩, -⟩
    · exact .inl rfl
    · obtain rfl | rfl | rfl := endsList_cases hend <;> exact .inl rfl

/-- A list from its first element on. -/
theorem listRest_replays (hf : ReplaysAll source source' f) :
    Replays source source' f i E known
      (.build .list (all [.keep, .call .elements, .closing .rbracket])) := by
  refine .build (.seq replays_keep (.seq (hf.phrase rfl rfl) ?_)) rfl (by decide)
  exact replays_closing rfl (by decide)

theorem rangeBounds_replays (hf : ReplaysAll source source' f) :
    Replays source source' f i E (· = .colon) rangeBounds := by
  refine .keep_seq rfl ((replays_take rfl (firm_near _)).seq (.seq ?_ (replays_closing rfl (by decide))))
  refine .feed (expression_replays hf) (.look hf.barring (fun x => ?_) ?_)
  · split
    · rename_i hx
      rw [hx]
      exact .keep_seq rfl ((replays_take rfl (firm_near _)).seq ((expression_replays hf).as rfl))
    · exact .as replays_keep rfl
  · rintro ⟨k, x, k2⟩ ⟨k', x', k2'⟩ - ⟨rfl | ⟨rfl, hend⟩, -⟩
    · exact .inl rfl
    · obtain rfl | rfl | rfl := endsList_cases hend <;> exact .inl rfl

theorem listOrRange_replays (hf : ReplaysAll source source' f) :
    Replays source source' f i E (· = .lbracket) listOrRange := by
  refine .fresh ((replays_take rfl (firm_near _)).seq (.look hf.barring (fun x => ?_) ?_))
  · split
    · rename_i hk
      rw [hk]
      exact .build (replays_take rfl (firm_of_isFixed rfl)) rfl (by decide)
    · exact .feed (hf.phrase rfl rfl) (listRest_replays hf)
    · exact .feed (hf.phrase rfl rfl) (listRest_replays hf)
    · exact .feed (hf.phrase rfl rfl) (listRest_replays hf)
    · exact .feed (hf.phrase rfl rfl) (listRest_replays hf)
    · refine .feed (hf.phrase rfl rfl) (.look hf.barring (fun x => ?_) ?_)
      · split
        · rename_i hx
          rw [hx]
          exact .build (rangeBounds_replays hf) rfl (by decide)
        · exact listRest_replays hf
      · rintro ⟨k, x, k2⟩ ⟨k', x', k2'⟩ - ⟨rfl | ⟨rfl, hend⟩, -⟩
        · exact .inl rfl
        · obtain rfl | rfl | rfl := endsList_cases hend <;> exact .inl rfl
  · rintro ⟨k, x, k2⟩ ⟨k', x', k2'⟩ - ⟨rfl | ⟨rfl, hend⟩, -⟩
    · exact .inl rfl
    · exact .inr ⟨rfl, rfl⟩

/-- The leaf of an operand. -/
theorem operand_replays {g : Form} {k : TokenKind} (hk : k.stays = true) (hg : g.Suits k)
    (hm : g ≠ .moduleItem) : Replays source source' f i Ahead.Near (· = k) (.leaf g) :=
  replays_leaf hk (firm_near k) hg hm

theorem primary_replays (hf : ReplaysAll source source' f) :
    Replays source source' f i Ahead.Near known primary := by
  refine .look hf.barring ?_ ?_
  · rintro ⟨k, x, k2⟩
    cases k with
    | number | string | kwTrue | kwFalse | kwUndef | special =>
      exact operand_replays rfl (by simp [Form.Suits]) (by decide)
    | identifier =>
      dsimp only
      split
      · exact guard_replays hf rfl (by decide)
      · split
        · exact guard_replays hf rfl (by decide)
        · exact operand_replays rfl (by simp [Form.Suits]) (by decide)
    | lbracket => exact listOrRange_replays hf
    | lparen =>
      refine .fresh (.build ((replays_take rfl (firm_near _)).seq ?_) rfl (by decide))
      exact ((expression_replays hf).as rfl).seq (replays_closing rfl (by decide))
    | kwLet =>
      refine .fresh (.build ((replays_take rfl (firm_near _)).seq ?_) rfl (by decide))
      exact (bindingList_replays hf).seq ((expression_replays hf).as rfl)
    | kwFunction =>
      refine .fresh (.build ((replays_take rfl (firm_near _)).seq ?_) rfl (by decide))
      exact (parameterList_replays hf).seq ((expression_replays hf).as rfl)
    | _ => exact replays_refuse _
  · rintro ⟨k, x, k2⟩ ⟨k', x', k2'⟩ - ⟨rfl | ⟨rfl, hend⟩, hname⟩
    · left
      cases k' with
      | identifier =>
        obtain ⟨htext, hsecond⟩ := hname (.inl rfl)
        have htext : x' = x := htext
        have hsecond : k2' = .lparen ↔ k2 = .lparen := hsecond.eq_iff rfl
        simp only [htext, hsecond]
      | _ => rfl
    · exact .inr ⟨rfl, trivial⟩

/-! ## Elements -/

theorem loopHead_replays (hf : ReplaysAll source source' f) :
    Replays source source' f i Ahead.Near known loopHead := by
  refine (assignments_replays hf).feed_of (· ≠ .comma) ?_ (.look hf.barring (fun x => ?_) ?_)
  · intro fr s ns u hs h
    simp only [assignments, all, node, gives_fresh, gives_build, gives_call] at h
    obtain ⟨m, h, -⟩ := h
    exact hf.stops _ s m u hs h
  · split
    · rename_i hx
      rw [hx]
      refine .keep_seq rfl ((replays_take rfl (firm_near _)).seq ?_)
      exact ((expression_replays hf).as rfl).seq
        ((replays_expect rfl (by decide)).seq ((assignments_replays hf).as rfl))
    · exact .as replays_keep rfl
  · rintro ⟨k, x, k2⟩ ⟨k', x', k2'⟩ hk ⟨rfl | ⟨rfl, hend⟩, -⟩
    · exact .inl rfl
    · exact absurd rfl hk

theorem element_replays (hf : ReplaysAll source source' f) :
    Replays source source' f i Ahead.Near known element := by
  refine .look hf.barring ?_ ?_
  · rintro ⟨k, x, k2⟩
    cases k with
    | kwFor =>
      refine .fresh (.build ((replays_take rfl (firm_near _)).seq ?_) rfl (by decide))
      exact (replays_expect rfl (by decide)).seq ((loopHead_replays hf).seq
        ((replays_closing rfl (by decide)).seq (.as (hf.phrase rfl rfl) rfl)))
    | kwIf =>
      refine .fresh (.build ((replays_take rfl (firm_near _)).seq ?_) rfl (by decide))
      refine (replays_expect rfl (by decide)).seq (((expression_replays hf).as rfl).seq
        ((replays_closing rfl (by decide)).seq (.seq (.as (hf.phrase rfl rfl) rfl) ?_)))
      refine .look hf.barring (fun x => ?_) ?_
      · split
        · rename_i hx
          rw [hx]
          exact (replays_take rfl (firm_near _)).seq (.as (hf.phrase rfl rfl) rfl)
        · exact replays_done
      · rintro ⟨k, x, k2⟩ ⟨k', x', k2'⟩ - ⟨rfl | ⟨rfl, hend⟩, -⟩
        · exact .inl rfl
        · obtain rfl | rfl | rfl := endsList_cases hend <;> exact .inl rfl
    | kwEach =>
      refine .fresh (.build ((replays_take rfl (firm_near _)).seq ?_) rfl (by decide))
      exact .as (hf.phrase rfl rfl) rfl
    | kwLet =>
      refine .fresh (.build ((replays_take rfl (firm_near _)).seq ?_) rfl (by decide))
      exact (bindingList_replays hf).seq (.as (hf.phrase rfl rfl) rfl)
    | _ => exact expression_replays hf
  · rintro ⟨k, x, k2⟩ ⟨k', x', k2'⟩ - ⟨rfl | ⟨rfl, hend⟩, -⟩
    · exact .inl rfl
    · exact .inr ⟨rfl, rfl⟩

end Grammar
end Scad
