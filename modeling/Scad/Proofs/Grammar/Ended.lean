import Scad.Proofs.Grammar.Followed
import Scad.Proofs.Grammar.Matching

/-!
# Expressions in front of a mark

An expression that takes up all tokens is parsed in the same way if a mark follows that ends
expressions, such as a colon or a closing bracket, and whatever stands behind it
(`parsePhrase_ended`). What an expression looks at behind its last token is whether the next one goes
on with it, and neither the end of the tokens nor such a mark does. Within parentheses and brackets
the two are not the same, but there an expression without a fault does not end.
-/

namespace Scad

/-- The marks in front of which an expression ends, as it does at the end of the tokens. -/
def TokenKind.endsExpression : TokenKind → Bool
  | .colon | .rbracket | .rparen | .comma | .semicolon => true
  | _ => false

theorem TokenKind.endsExpression_cases {k : TokenKind} (h : k.endsExpression = true) :
    k = .colon ∨ k = .rbracket ∨ k = .rparen ∨ k = .comma ∨ k = .semicolon := by
  revert h
  cases k <;> decide

/-- The phrases that may end with an expression. -/
def Phrase.isOpen : Phrase → Bool
  | .expr _ | .operators _ | .unary | .primary | .suffixes => true
  | _ => false

namespace Stream

variable {s : Stream} {more : List Token} {eof : Token}

theorem look_of_nil (h : s.ahead = []) :
    (s.followedBy more eof).look.kind = (more.headD eof).kind := by
  simp [peek, followedBy, h]

/-- Other tokens behind the last one show only as the second token ahead. -/
theorem look_of_ne_nil (hs : s.Proper) (h : s.ahead ≠ []) :
    (s.followedBy more eof).look = s.look ∨
      s.look.second = .eof ∧
        (s.followedBy more eof).look = { s.look with second := (more.headD eof).kind } := by
  obtain ⟨ahead, count, last, eof'⟩ := s
  obtain ⟨t, ts, rfl⟩ := List.exists_cons_of_ne_nil h
  cases ts with
  | nil => exact .inr ⟨hs.eof, by cases more <;> rfl⟩
  | cons t' ts => exact .inl rfl

end Stream

namespace Rule

/-- The rule does not tell a mark that ends an expression from the end of the tokens, if it is the
second token ahead. -/
@[simp]
def Shortsighted : Rule → Prop
  | seq a b => a.Shortsighted ∧ b.Shortsighted
  | feed a b => a.Shortsighted ∧ b.Shortsighted
  | as _ a => a.Shortsighted
  | build _ a => a.Shortsighted
  | fresh a => a.Shortsighted
  | recover a => a.Shortsighted
  | look g => (∀ x, (g x).Shortsighted) ∧
      ∀ x k, x.second = .eof → k.endsExpression = true → g { x with second := k } = g x
  | _ => True

/-- The rule passes a token whenever it succeeds without a fault. The flag tells that a token is known
to be ahead. -/
@[simp]
def Moves : Bool → Rule → Prop
  | e, take => e = true
  | e, leaf _ => e = true
  | _, expect k => k ≠ .eof
  | _, closing k => k ≠ .eof
  | _, refuse _ => True
  | e, seq a b => a.Moves e ∨ b.Moves false
  | e, feed a b => a.Moves e ∨ b.Moves false
  | e, as _ a => a.Moves e
  | e, build _ a => a.Moves e
  | e, fresh a => a.Moves e
  | _, look g => ∀ x, (g x).Moves (x.kind ≠ .eof)
  | _, call p => p.eats = true
  | _, _ => False

/-- The rule does not tell a mark that ends an expression from the end of the tokens, wherever it may
stop at one of them. The flag tells that a token is known to be ahead. -/
@[simp]
def Stops : Bool → Rule → Prop
  | e, take => e = true
  | e, leaf _ => e = true
  | _, expect k => k ≠ .eof
  | _, closing k => k ≠ .eof
  | e, seq a b => b.Stops (e && a.isStill) ∧ (a.Stops e ∨ b.Moves false)
  | e, feed a b => b.Stops false ∧ (a.Stops e ∨ b.Moves false)
  | e, as _ a => a.Stops e
  | e, build _ a => a.Stops e
  | e, fresh a => a.Stops e ∧ a.Moves e
  | _, look g => (∀ x, (g x).Stops (x.kind ≠ .eof)) ∧
      ∀ x y, x.kind = .eof → y.kind.endsExpression = true → g y = g x ∨ (g x).Moves false
  | _, call p => p.isOpen = true
  | _, recover _ => False
  | _, _ => True

variable {f : Phrases}

theorem passes_of_gives (hf : f.Forward) {r : Rule} {fr : Frame} {s u : Stream} {ns : List Node}
    (hs : s.Proper) (h : Gives f r fr s ns u) : ∃ run, s.Passes run u := by
  obtain ⟨run, hp⟩ := apply_passes hf r fr s hs
  rw [h] at hp
  exact ⟨run, hp⟩

theorem count_lt_of_moves (hf : f.Forward) (he : f.Eating) :
    ∀ (r : Rule) (e : Bool) (fr : Frame) (s : Stream) (ns : List Node) (u : Stream), r.Moves e →
      s.Proper → (e = true → s.ahead ≠ []) → Gives f r fr s ns u → u.count < s.count := by
  have advance : ∀ s : Stream, s.Proper → s.ahead ≠ [] → s.advance.count < s.count := by
    intro s hs hne
    have hk : s.peek.kind ≠ .eof := fun h => hne ((Stream.peek_kind_eq_eof hs).1 h)
    have hcount := (Stream.passes_peek hs hk).count
    simp only [List.length_singleton] at hcount
    omega
  -- of two rules in a row, neither goes back
  have row : ∀ {a b : Rule} {fr fr' : Frame} {s v u : Stream} {m ns : List Node}, s.Proper →
      Gives f a fr s m v → Gives f b fr' v ns u → v.count < s.count ∨ u.count < v.count →
      u.count < s.count := by
    intro a b fr fr' s v u m ns hs ha hb hor
    obtain ⟨run, hp⟩ := passes_of_gives hf hs ha
    obtain ⟨run', hp'⟩ := passes_of_gives hf (hs.of_passes hp) hb
    have h1 := hp.count_le
    have h2 := hp'.count_le
    omega
  intro r
  induction r with
  | take | leaf =>
    intro e fr s ns u hr hs hp h
    simp only [gives_take, gives_leaf] at h
    rw [h.2]
    exact advance s hs (hp hr)
  | expect k | closing k =>
    intro e fr s ns u hr hs _ h
    simp only [gives_expect, gives_closing] at h
    rw [h.2.2]
    refine advance s hs fun hnil => hr ?_
    rw [← h.1]
    exact (Stream.peek_kind_eq_eof hs).2 hnil
  | refuse w => intro e fr s ns u _ _ _ h; exact absurd h gives_refuse
  | seq a b iha ihb =>
    intro e fr s ns u hr hs hp h
    obtain ⟨m, v, n, ha, hb, -⟩ := gives_seq.1 h
    obtain ⟨run, hrun⟩ := passes_of_gives hf hs ha
    exact row hs ha hb (hr.imp (fun hr => iha e fr s m v hr hs hp ha)
      fun hr => ihb false fr v n u hr (hs.of_passes hrun) (by simp) hb)
  | feed a b iha ihb =>
    intro e fr s ns u hr hs hp h
    obtain ⟨m, v, ha, hb⟩ := gives_feed.1 h
    obtain ⟨run, hrun⟩ := passes_of_gives hf hs ha
    exact row hs ha hb (hr.imp (fun hr => iha e fr s m v hr hs hp ha)
      fun hr => ihb false _ v ns u hr (hs.of_passes hrun) (by simp) hb)
  | as _ a iha =>
    intro e fr s ns u hr hs hp h
    obtain ⟨m, ha, -⟩ := gives_as.1 h
    exact iha e fr s m u hr hs hp ha
  | build _ a iha =>
    intro e fr s ns u hr hs hp h
    obtain ⟨m, ha, -⟩ := gives_build.1 h
    exact iha e fr s m u hr hs hp ha
  | fresh a iha =>
    intro e fr s ns u hr hs hp h
    exact iha e _ s ns u hr hs hp h
  | look g ih =>
    intro e fr s ns u hr hs _ h
    refine ih s.look _ fr s ns u (hr s.look) hs (fun hk => ?_) h
    intro hnil
    simp [(Stream.peek_kind_eq_eof hs).2 hnil] at hk
  | call p =>
    intro e fr s ns u hr hs _ h
    exact he p fr s ns [] u hs hr h
  | _ => intro e fr s ns u hr; exact absurd hr (by simp)

/-- What a rule gives without a fault it also gives in front of a mark that ends expressions, as long
as it stops in front of a token or does not tell the mark from the end. -/
theorem gives_ended (hf : f.Forward) (he : f.Eating) {more : List Token} {eof : Token}
    (hmore : (more.headD eof).kind.endsExpression = true)
    (hcall : ∀ p fr (s : Stream) ns u, s.Proper → f p fr s = .ok ns [] u →
      u.ahead ≠ [] ∨ p.isOpen = true →
      Grammar.parsePhrase p fr (s.followedBy more eof) = .ok ns [] (u.followedBy more eof)) :
    ∀ (r : Rule) (e : Bool) (fr : Frame) (s : Stream) (ns : List Node) (u : Stream),
      r.Shortsighted → s.Proper → (e = true → s.ahead ≠ []) → Gives f r fr s ns u →
      u.ahead ≠ [] ∨ r.Stops e →
      Gives Grammar.parsePhrase r fr (s.followedBy more eof) ns (u.followedBy more eof) := by
  -- a token is ahead of what stops in front of a token, or passes one
  have token : ∀ {r : Rule} {e : Bool} {fr : Frame} {s u : Stream} {ns : List Node}, s.Proper →
      (e = true → s.ahead ≠ []) → Gives f r fr s ns u → u.ahead ≠ [] ∨ r.Moves e →
      s.ahead ≠ [] := by
    intro r e fr s u ns hs hp h hor
    obtain ⟨run, hrun⟩ := passes_of_gives hf hs h
    exact hrun.ahead_ne_nil (hor.imp_right fun hr => count_lt_of_moves hf he r e fr s ns u hr hs hp h)
  intro r
  induction r with
  | done =>
    intro e fr s ns u _ _ _ h _
    obtain ⟨rfl, rfl⟩ := gives_done.1 h
    exact gives_done.2 ⟨rfl, rfl⟩
  | keep =>
    intro e fr s ns u _ _ _ h _
    obtain ⟨rfl, rfl⟩ := gives_keep.1 h
    exact gives_keep.2 ⟨rfl, rfl⟩
  | take =>
    intro e fr s ns u _ hs hp h hor
    have hne := token hs hp h hor
    obtain ⟨rfl, rfl⟩ := gives_take.1 h
    exact gives_take.2 ⟨rfl, (Stream.advance_followedBy hs hne).symm⟩
  | leaf g =>
    intro e fr s ns u _ hs hp h hor
    have hne := token hs hp h hor
    obtain ⟨rfl, rfl⟩ := gives_leaf.1 h
    rw [gives_leaf, Stream.peek_followedBy hne]
    exact ⟨rfl, (Stream.advance_followedBy hs hne).symm⟩
  | expect k | closing k =>
    intro e fr s ns u _ hs hp h hor
    have hne := token hs hp h hor
    simp only [gives_expect, gives_closing] at h ⊢
    obtain ⟨hkind, rfl, rfl⟩ := h
    rw [Stream.peek_followedBy hne]
    exact ⟨hkind, rfl, (Stream.advance_followedBy hs hne).symm⟩
  | refuse w => intro e fr s ns u _ _ _ h _; exact absurd h gives_refuse
  | seq a b iha ihb =>
    intro e fr s ns u hcare hs hp h hor
    obtain ⟨m, v, n, ha, hb, rfl⟩ := gives_seq.1 h
    obtain ⟨run, hrun⟩ := passes_of_gives hf hs ha
    have hv := hs.of_passes hrun
    have hpv : (e && a.isStill) = true → v.ahead ≠ [] := by
      intro hboth
      rw [Bool.and_eq_true] at hboth
      rw [stream_of_isStill hboth.2 ha]
      exact hp hboth.1
    have hleft : v.ahead ≠ [] ∨ a.Stops e := by
      rcases hor with hu | ⟨-, hstop | hmove⟩
      · exact .inl (token hv hpv hb (.inl hu))
      · exact .inr hstop
      · exact .inl (token (e := false) hv (by simp) hb (.inr hmove))
    exact gives_seq.2 ⟨m, _, n, iha e fr s m v hcare.1 hs hp ha hleft,
      ihb _ fr v n u hcare.2 hv hpv hb (hor.imp_right And.left), rfl⟩
  | feed a b iha ihb =>
    intro e fr s ns u hcare hs hp h hor
    obtain ⟨m, v, ha, hb⟩ := gives_feed.1 h
    obtain ⟨run, hrun⟩ := passes_of_gives hf hs ha
    have hv := hs.of_passes hrun
    have hleft : v.ahead ≠ [] ∨ a.Stops e := by
      rcases hor with hu | ⟨-, hstop | hmove⟩
      · exact .inl (token (e := false) hv (by simp) hb (.inl hu))
      · exact .inr hstop
      · exact .inl (token (e := false) hv (by simp) hb (.inr hmove))
    exact gives_feed.2 ⟨m, _, iha e fr s m v hcare.1 hs hp ha hleft,
      ihb false _ v ns u hcare.2 hv (by simp) hb (hor.imp_right And.left)⟩
  | as _ a iha =>
    intro e fr s ns u hcare hs hp h hor
    obtain ⟨m, ha, rfl⟩ := gives_as.1 h
    exact gives_as.2 ⟨m, iha e fr s m u hcare hs hp ha hor, rfl⟩
  | build _ a iha =>
    intro e fr s ns u hcare hs hp h hor
    obtain ⟨m, ha, rfl⟩ := gives_build.1 h
    exact gives_build.2 ⟨m, iha e fr s m u hcare hs hp ha hor, rfl⟩
  | fresh a iha =>
    intro e fr s ns u hcare hs hp h hor
    have ha := gives_fresh.1 h
    have hne := token hs hp ha (hor.imp_right And.right)
    have hgo := iha e _ s ns u hcare hs hp ha (hor.imp_right And.left)
    rw [gives_fresh, Stream.position, Stream.peek_followedBy hne]
    exact hgo
  | recover a iha =>
    intro e fr s ns u hcare hs hp h hor
    have hu := hor.resolve_right fun h => h
    exact gives_recover.2 (iha e fr s ns u hcare hs hp (gives_recover.1 h) (.inl hu))
  | look g ih =>
    intro e fr s ns u hcare hs _ h hor
    have h : Gives f (g s.look) fr s ns u := gives_look.1 h
    have hpk : decide (s.look.kind ≠ .eof) = true → s.ahead ≠ [] := by
      intro hk hnil
      simp [(Stream.peek_kind_eq_eof hs).2 hnil] at hk
    have hgo := ih s.look _ fr s ns u (hcare.1 _) hs hpk h (hor.imp_right fun hr => hr.1 s.look)
    have hsame : g (s.followedBy more eof).look = g s.look := by
      by_cases hne : s.ahead = []
      · -- the rule stops at the end of the tokens, where it cannot pass one
        have hstop := hor.resolve_left fun hu => token (e := false) hs (by simp) h (.inl hu) hne
        have heof : s.look.kind = .eof := by
          rw [Stream.look_kind]
          exact (Stream.peek_kind_eq_eof hs).2 hne
        rw [← Stream.look_of_nil hne] at hmore
        refine (hstop.2 s.look _ heof hmore).resolve_right fun hmove => ?_
        exact token (e := false) hs (by simp) h (.inr hmove) hne
      · rcases @Stream.look_of_ne_nil s more eof hs hne with hlook | ⟨hsecond, hlook⟩
        · rw [hlook]
        · rw [hlook]
          exact hcare.2 s.look _ hsecond hmore
    rw [gives_look, hsame]
    exact hgo
  | call p =>
    intro e fr s ns u _ hs _ h hor
    exact hcall p fr s ns u hs h hor

end Rule

/-! ## The table -/

namespace Grammar

open Rule

theorem shortsighted_ite {p : Prop} [Decidable p] {a b : Rule} :
    (if p then a else b).Shortsighted ↔ if p then a.Shortsighted else b.Shortsighted := by
  split <;> rfl

/-- A rule that decides by the next token alone does not look at the second one. -/
theorem shortsighted_of_kind {g : Ahead → Rule} (h : ∀ x, (g x).Shortsighted)
    (hg : ∀ x k, g { x with second := k } = g x) : (look g).Shortsighted :=
  ⟨h, fun x k _ _ => hg x k⟩

theorem argumentList_shortsighted : argumentList.Shortsighted := by
  simp only [argumentList, node, all, Shortsighted, true_and, and_true]
  refine ⟨fun x => ?_, fun x k _ _ => trivial⟩
  split <;> trivial

theorem bindingList_shortsighted : bindingList.Shortsighted := by
  simp [bindingList, assignments, node, all]

theorem parameterList_shortsighted : parameterList.Shortsighted := by
  simp [parameterList, node, all]

theorem callTail_shortsighted : callTail.Shortsighted := by
  refine shortsighted_of_kind (fun x => ?_) fun _ _ => rfl
  split <;> trivial

theorem named_shortsighted {g : Form → Rule} {w : Wanted} (h : ∀ n, (g n).Shortsighted) :
    (named g w).Shortsighted := by
  refine shortsighted_of_kind (fun x => ?_) fun _ _ => rfl
  split <;> simp [h]

theorem namedStatement_shortsighted (x : Ahead) : (namedStatement x).Shortsighted := by
  unfold namedStatement
  split
  · split_ifs <;> simp [node, all, boundStatement, assertStatement, moduleCall,
      bindingList_shortsighted, argumentList_shortsighted, callTail_shortsighted]
  · simp [node, all, declaration, expression]
  · simp [node, all, moduleCall, argumentList_shortsighted, callTail_shortsighted]

theorem statement_shortsighted : statement.Shortsighted := by
  refine ⟨?_, ?_⟩
  · rintro ⟨k, x, k2⟩
    cases k with
    | identifier => exact namedStatement_shortsighted _
    | _ =>
      simp [node, all, moduleItem, functionItem, boundStatement, ifStatement, fileStatement,
        unionBlock, declaration, expression, bindingList_shortsighted, parameterList_shortsighted,
        shortsighted_ite]
  · rintro ⟨k, x, k2⟩ k' rfl hk'
    obtain rfl | rfl | rfl | rfl | rfl := TokenKind.endsExpression_cases hk' <;> cases k <;> rfl

theorem body_shortsighted : body.Shortsighted := by
  refine ⟨fun x => ?_, ?_⟩
  · dsimp only
    split <;> trivial
  · rintro ⟨k, x, k2⟩ k' rfl hk'
    obtain rfl | rfl | rfl | rfl | rfl := TokenKind.endsExpression_cases hk' <;> cases k <;> rfl

theorem arguments_shortsighted : arguments.Shortsighted := by
  refine ⟨⟨fun x => ?_, ?_⟩, ?_⟩
  · dsimp only
    split <;> simp [node, all, namedArgument, expression]
  · rintro ⟨k, x, k2⟩ k' rfl hk'
    obtain rfl | rfl | rfl | rfl | rfl := TokenKind.endsExpression_cases hk' <;> cases k <;> rfl
  · simp [shortsighted_ite]

theorem bindings_shortsighted : bindings.Shortsighted := by
  refine shortsighted_of_kind (fun x => ?_) fun _ _ => rfl
  split
  · trivial
  · trivial
  · trivial
  · refine ⟨named_shortsighted fun n => ?_, ?_⟩
    · simp [node, all, binding, expression]
    · simp [shortsighted_ite]

theorem parameters_shortsighted : parameters.Shortsighted := by
  refine shortsighted_of_kind (fun x => ?_) fun _ _ => rfl
  split
  · trivial
  · trivial
  · refine ⟨named_shortsighted fun n => ?_, ?_⟩
    · simp [node, all, parameter, expression, shortsighted_ite]
    · simp [shortsighted_ite]

theorem element_shortsighted : element.Shortsighted := by
  refine shortsighted_of_kind ?_ fun _ _ => rfl
  rintro ⟨k, x, k2⟩
  cases k <;> simp [node, all, expression, loopHead, assignments, bindingList_shortsighted,
    shortsighted_ite]

theorem operators_shortsighted (l : Level) : (operators l).Shortsighted := by
  refine shortsighted_of_kind (fun x => ?_) fun _ _ => rfl
  split
  · trivial
  · split_ifs <;> simp [all, expression]

theorem suffixes_shortsighted : suffixes.Shortsighted := by
  refine shortsighted_of_kind ?_ fun _ _ => rfl
  rintro ⟨k, x, k2⟩
  cases k <;> simp [all, expression, shortsighted_ite, argumentList_shortsighted]

theorem listOrRange_shortsighted : listOrRange.Shortsighted := by
  refine ⟨trivial, shortsighted_of_kind (fun x => ?_) fun _ _ => rfl⟩
  split <;> simp [all, expression, rangeBounds, shortsighted_ite]

theorem primary_shortsighted : primary.Shortsighted := by
  refine ⟨?_, ?_⟩
  · rintro ⟨k, x, k2⟩
    cases k with
    | identifier =>
      dsimp only
      split_ifs <;> simp [node, all, guardExpression, expression, shortsighted_ite,
        argumentList_shortsighted]
    | _ =>
      simp [node, all, expression, bindingList_shortsighted, parameterList_shortsighted,
        listOrRange_shortsighted]
  · rintro ⟨k, x, k2⟩ k' rfl hk'
    obtain rfl | rfl | rfl | rfl | rfl := TokenKind.endsExpression_cases hk' <;> cases k <;> rfl

theorem rule_shortsighted (p : Phrase) : (rule p).Shortsighted := by
  cases p with
  | items | blockItems =>
    refine shortsighted_of_kind ?_ fun _ _ => rfl
    rintro ⟨k, x, k2⟩
    cases k <;> simp
  | statement => exact statement_shortsighted
  | body => exact body_shortsighted
  | arguments => exact arguments_shortsighted
  | bindings => exact bindings_shortsighted
  | parameters => exact parameters_shortsighted
  | element => exact element_shortsighted
  | elements => simp [rule, elements, shortsighted_ite]
  | expr l => simp [rule, expr]
  | operators l => exact operators_shortsighted l
  | unary =>
    refine shortsighted_of_kind ?_ fun _ _ => rfl
    rintro ⟨k, x, k2⟩
    cases k <;> simp [node, all]
  | primary => exact primary_shortsighted
  | suffixes => exact suffixes_shortsighted

theorem stops_ite {p : Prop} [Decidable p] {a b : Rule} {e : Bool} :
    (if p then a else b).Stops e ↔ if p then a.Stops e else b.Stops e := by
  split <;> rfl

theorem moves_ite {p : Prop} [Decidable p] {a b : Rule} {e : Bool} :
    (if p then a else b).Moves e ↔ if p then a.Moves e else b.Moves e := by
  split <;> rfl

theorem operators_stops (l : Level) : (operators l).Stops false := by
  refine ⟨fun x => ?_, fun x y hx hy => .inl ?_⟩
  · dsimp only
    split
    · trivial
    · rename_i hm
      have hk : x.kind ≠ .eof := by
        intro h
        rw [h] at hm
        cases hm
      split_ifs <;> simp [all, expression, isStill, Phrase.isOpen, Phrase.eats, hk]
  · obtain h | h | h | h | h := TokenKind.endsExpression_cases hy <;> simp [hx, h, Level.ofToken?]

theorem unary_stops : unary.Stops false := by
  refine ⟨?_, fun x y hx hy => .inl ?_⟩
  · rintro ⟨k, x, k2⟩
    cases k <;> simp [node, all, Phrase.isOpen, Phrase.eats]
  · obtain h | h | h | h | h := TokenKind.endsExpression_cases hy <;> simp only [hx, h]

/-- A list of arguments ends with its parenthesis. -/
theorem argumentList_stops (e : Bool) : argumentList.Stops e := by
  simp [argumentList, all]

theorem suffixes_stops : suffixes.Stops false := by
  refine ⟨?_, fun x y hx hy => .inl ?_⟩
  · rintro ⟨k, x, k2⟩
    cases k with
    | dot =>
      simp +contextual [all, isStill, Phrase.isOpen, moves_ite, stops_ite]
    | _ =>
      simp [all, expression, Phrase.isOpen, argumentList_stops]
  · obtain h | h | h | h | h := TokenKind.endsExpression_cases hy <;> simp only [hx, h]

theorem guardExpression_stops (g : Form) : (guardExpression g).Stops true := by
  have body : ∀ x : Ahead, x.kind = .eof → ∀ y : Ahead, y.kind.endsExpression = true →
      startsExpression y.kind = startsExpression x.kind := by
    intro x hx y hy
    obtain h | h | h | h | h := TokenKind.endsExpression_cases hy <;> rw [hx, h] <;> rfl
  refine ⟨⟨⟨⟨fun x => ?_, fun x y hx hy => .inl ?_⟩, .inl (argumentList_stops _)⟩, .inl rfl⟩,
    .inl rfl⟩
  · dsimp only
    split <;> simp [expression, Phrase.isOpen]
  · simp only [body x hx y hy]

theorem listOrRange_stops : listOrRange.Stops true := by
  refine ⟨⟨⟨fun x => ?_, fun x y hx hy => .inr ?_⟩, .inl rfl⟩, .inl rfl⟩
  · dsimp only
    split <;> simp_all [all, rangeBounds, expression, stops_ite, moves_ite]
  · simp [hx, Phrase.eats]

theorem primary_stops : primary.Stops false := by
  refine ⟨?_, fun x y hx hy => .inl ?_⟩
  · rintro ⟨k, x, k2⟩
    cases k with
    | identifier =>
      dsimp only
      split_ifs
      · exact guardExpression_stops _
      · exact guardExpression_stops _
      · simp
    | lbracket => exact listOrRange_stops
    | _ => simp [node, all, expression, bindingList, parameterList, Phrase.isOpen]
  · obtain h | h | h | h | h := TokenKind.endsExpression_cases hy <;> simp only [hx, h]

/-- What may end with an expression does not tell a mark that ends it from the end of the tokens. -/
theorem rule_stops (p : Phrase) (h : p.isOpen = true) : (rule p).Stops false := by
  cases p with
  | expr l => simp [rule, expr, Phrase.isOpen, Phrase.eats]
  | operators l => exact operators_stops l
  | unary => exact unary_stops
  | primary => exact primary_stops
  | suffixes => exact suffixes_stops
  | _ => cases h

/-! ## Expressions -/

/-- A phrase without a fault is parsed in the same way in front of a mark that ends expressions, as
long as it stops in front of a token or may end with an expression. -/
theorem parsePhrase_ended {more : List Token} {eof : Token} (he : eof.kind = .eof)
    (hm : ∀ t ∈ more, t.kind ≠ .eof) (hmore : (more.headD eof).kind.endsExpression = true)
    (p : Phrase) (fr : Frame) (s : Stream) (ns : List Node) (u : Stream) (hs : s.Proper)
    (h : parsePhrase p fr s = .ok ns [] u) (hu : u.ahead ≠ [] ∨ p.isOpen = true) :
    parsePhrase p fr (s.followedBy more eof) = .ok ns [] (u.followedBy more eof) := by
  refine parsePhrase_induct_proper
    (P := fun p fr s o => ∀ ns u, o = .ok ns [] u → u.ahead ≠ [] ∨ p.isOpen = true →
      parsePhrase p fr (s.followedBy more eof) = .ok ns [] (u.followedBy more eof))
    ?_ ?_ p fr s hs ns u h hu
  · intro p fr s ns u h
    cases h
  · intro f forward eating hf p fr s hs ns u h hu
    rw [parsePhrase_eq_rule p fr _ (Stream.proper_followedBy hs he hm)]
    exact gives_ended forward eating hmore
      (fun p fr s ns u hs h hu => hf p fr s hs ns u h hu) (rule p) false fr s ns u
      (rule_shortsighted p) hs (by simp) h (hu.imp_right (rule_stops p))

end Grammar
end Scad
