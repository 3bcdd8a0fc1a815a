import Scad.Proofs.Grammar.Inversion

/-!
# Statements followed by other tokens

A statement that was parsed without a fault is parsed the same way if other tokens follow, unless the
first of them is an `else`. The reason is that it ends with a mark or a path, and that nothing else
is looked at behind it. So a list of statements goes on with what follows it as if the tokens started
there (`items_followedBy`).
-/

namespace Scad

/-- The tokens with which a statement ends. -/
def TokenKind.endsStatement : TokenKind → Bool
  | .semicolon | .rbrace | .path => true
  | _ => false

/-- The tokens behind which the next one is looked at as well. -/
def TokenKind.isName : TokenKind → Bool
  | .identifier | .special => true
  | _ => false

namespace Stream

/-- The same place, with other tokens behind those ahead. -/
def followedBy (s : Stream) (more : List Token) (eof : Token) : Stream :=
  ⟨s.ahead ++ more, s.count + more.length, s.last, eof⟩

variable {s : Stream} {more : List Token} {eof : Token}

@[simp]
theorem followedBy_last : (s.followedBy more eof).last = s.last := rfl

theorem peek_followedBy (h : s.ahead ≠ []) : (s.followedBy more eof).peek = s.peek := by
  obtain ⟨t, ts, ht⟩ := List.exists_cons_of_ne_nil h
  simp [peek, followedBy, ht]

theorem advance_followedBy (hs : s.Proper) (h : s.ahead ≠ []) :
    (s.followedBy more eof).advance = s.advance.followedBy more eof := by
  obtain ⟨ahead, count, last, eof'⟩ := s
  obtain ⟨t, ts, rfl⟩ := List.exists_cons_of_ne_nil h
  have hc : count = ts.length + 1 := hs.count
  simp only [followedBy, advance, List.cons_append, Stream.mk.injEq, true_and, and_true]
  omega

theorem proper_followedBy (hs : s.Proper) (he : eof.kind = .eof) (hm : ∀ t ∈ more, t.kind ≠ .eof) :
    (s.followedBy more eof).Proper := by
  refine ⟨?_, he, fun t ht => ?_⟩
  · simp [followedBy, hs.count]
  · rcases List.mem_append.1 ht with ht | ht
    · exact hs.inside t ht
    · exact hm t ht

/-- The last token ahead is not a name. -/
def Firm (s : Stream) : Prop := ∀ t, s.ahead.getLast? = some t → t.kind.isName = false

theorem Firm.passes {t : Stream} {run : List Token} (h : s.Firm) (hp : s.Passes run t) : t.Firm := by
  intro x hx
  refine h x ?_
  rw [hp.ahead, List.getLast?_append, hx]
  rfl

theorem Passes.ahead_ne_nil {t : Stream} {run : List Token} (hp : s.Passes run t)
    (h : t.ahead ≠ [] ∨ t.count < s.count) : s.ahead ≠ [] := by
  rw [hp.ahead]
  rcases h with h | h
  · simp [h]
  · have hne : run ≠ [] := by
      rintro rfl
      have := hp.count
      simp at this
      omega
    simp [hne]

/-- Tokens were passed, and the last of them ends statements. -/
def Ends (s t : Stream) : Prop :=
  t.count < s.count ∧ ∃ x, t.last = some x ∧ x.kind.endsStatement = true

theorem ends_advance (hs : s.Proper) (h : s.peek.kind.endsStatement = true) : s.Ends s.advance := by
  have hne : s.peek.kind ≠ .eof := by
    intro he
    rw [he] at h
    cases h
  have hp := passes_peek hs hne
  refine ⟨?_, s.peek, ?_, h⟩
  · have := hp.count
    simp only [List.length_singleton] at this
    omega
  · rw [hp.last]
    rfl

/-- Where a token is ahead, what is seen changes only behind the last one. -/
theorem look_followedBy (hf : s.Firm) (h : s.ahead ≠ []) :
    (s.followedBy more eof).look.kind = s.look.kind ∧
      (s.followedBy more eof).look.text = s.look.text ∧
      (s.look.kind.isName = true → (s.followedBy more eof).look.second = s.look.second) := by
  refine ⟨by simp [peek_followedBy h], by simp [peek_followedBy h], fun hn => ?_⟩
  obtain ⟨ahead, count, last, eof'⟩ := s
  obtain ⟨t, ts, rfl⟩ := List.exists_cons_of_ne_nil h
  cases ts with
  | nil =>
    have hlast := hf t rfl
    rw [show t.kind.isName = true from hn] at hlast
    cases hlast
  | cons t' ts => rfl

end Stream

/-- The phrases that end with a token that ends statements. -/
def Phrase.seals : Phrase → Bool
  | .statement | .body => true
  | _ => false

namespace Rule

/-- The rule decides by the kind and the text of the next token, and by the one behind it only if the
next token is a name. -/
@[simp]
def Careful : Rule → Prop
  | seq a b => a.Careful ∧ b.Careful
  | feed a b => a.Careful ∧ b.Careful
  | as _ a => a.Careful
  | build _ a => a.Careful
  | fresh a => a.Careful
  | recover a => a.Careful
  | look g => (∀ x, (g x).Careful) ∧ ∀ x y, y.kind = x.kind → y.text = x.text →
      (x.kind.isName = true → y.second = x.second) → g y = g x
  | _ => True

mutual

/-- The last thing that the rule does without a fault is to pass a token that ends statements. What
is known of the next token is its kind. -/
@[simp]
def Seals : Option TokenKind → Rule → Prop
  | known, take => ∃ k, known = some k ∧ k.endsStatement = true
  | known, leaf _ => ∃ k, known = some k ∧ k.endsStatement = true
  | _, expect k => k.endsStatement = true
  | _, closing k => k.endsStatement = true
  | _, refuse _ => True
  | known, seq a b => b.Seals none ∨ (a.Seals known ∧ b.Trails)
  | known, as _ a => a.Seals known
  | known, build _ a => a.Seals known
  | known, fresh a => a.Seals known
  | known, recover a => a.Seals known
  | _, look g => ∀ x, (g x).Seals (some x.kind)
  | _, call p => p.seals = true
  | _, _ => False

/-- The rule does nothing unless an `else` is ahead. -/
@[simp]
def Trails : Rule → Prop
  | look g => ∀ x, g x = done ∨ x.kind = .kwElse ∧ (g x).Seals (some x.kind)
  | _ => False

end

variable {f : Phrases}

/-- A rule that seals ends with a token that ends statements; one that trails may also do nothing. -/
theorem ends_of_seals (hf : f.Forward)
    (hcall : ∀ p fr (s : Stream) ns u, s.Proper → p.seals = true → f p fr s = .ok ns [] u →
      s.Ends u) :
    ∀ (r : Rule) (known : Option TokenKind) (fr : Frame) (s : Stream) (ns : List Node) (u : Stream),
      s.Proper → (∀ k, known = some k → s.peek.kind = k) → Gives f r fr s ns u →
      (r.Seals known → s.Ends u) ∧ (r.Trails → u = s ∨ s.Ends u) := by
  have passes : ∀ {r : Rule} {fr : Frame} {s u : Stream} {ns : List Node}, s.Proper →
      Gives f r fr s ns u → ∃ run, s.Passes run u := by
    intro r fr s u ns hs h
    obtain ⟨run, hp⟩ := apply_passes hf r fr s hs
    rw [h] at hp
    exact ⟨run, hp⟩
  intro r
  induction r with
  | take | leaf =>
    intro known fr s ns u hs hk h
    simp only [gives_take, gives_leaf] at h
    obtain ⟨-, rfl⟩ := h
    refine ⟨?_, by simp⟩
    rintro ⟨k, hknown, hends⟩
    rw [← hk k hknown] at hends
    exact Stream.ends_advance hs hends
  | expect k | closing k =>
    intro known fr s ns u hs hk h
    simp only [gives_expect, gives_closing] at h
    obtain ⟨hkind, -, rfl⟩ := h
    refine ⟨fun hends => ?_, by simp⟩
    have hends : k.endsStatement = true := by simpa using hends
    rw [← hkind] at hends
    exact Stream.ends_advance hs hends
  | refuse w => intro known fr s ns u _ _ h; exact absurd h gives_refuse
  | seq a b iha ihb =>
    intro known fr s ns u hs hk h
    obtain ⟨m, v, n, ha, hb, rfl⟩ := gives_seq.1 h
    obtain ⟨run, hp⟩ := passes hs ha
    obtain ⟨run', hp'⟩ := passes (hs.of_passes hp) hb
    have h1 := hp.count_le
    have h2 := hp'.count_le
    have ihb := ihb none fr v n u (hs.of_passes hp) (by simp) hb
    refine ⟨?_, by simp⟩
    rintro (hseals | ⟨hseals, htrails⟩)
    · obtain ⟨hc, hlast⟩ := ihb.1 hseals
      exact ⟨by omega, hlast⟩
    · obtain ⟨hc, hlast⟩ := (iha known fr s m v hs hk ha).1 hseals
      rcases ihb.2 htrails with rfl | ⟨-, hlast'⟩
      · exact ⟨hc, hlast⟩
      · exact ⟨by omega, hlast'⟩
  | as _ a iha =>
    intro known fr s ns u hs hk h
    obtain ⟨m, ha, -⟩ := gives_as.1 h
    exact ⟨(iha known fr s m u hs hk ha).1, by simp⟩
  | build _ a iha =>
    intro known fr s ns u hs hk h
    obtain ⟨m, ha, -⟩ := gives_build.1 h
    exact ⟨(iha known fr s m u hs hk ha).1, by simp⟩
  | fresh a iha =>
    intro known fr s ns u hs hk h
    exact ⟨(iha known _ s ns u hs hk (gives_fresh.1 h)).1, by simp⟩
  | recover a iha =>
    intro known fr s ns u hs hk h
    exact ⟨(iha known fr s ns u hs hk (gives_recover.1 h)).1, by simp⟩
  | look g ih =>
    intro known fr s ns u hs hk h
    have h : Gives f (g s.look) fr s ns u := gives_look.1 h
    have ih := ih s.look (some s.look.kind) fr s ns u hs
      (fun k hk => by simpa using hk) h
    refine ⟨fun hseals => ih.1 (hseals s.look), fun htrails => ?_⟩
    rcases htrails s.look with hdone | ⟨-, hseals⟩
    · rw [hdone] at h
      exact .inl (gives_done.1 h).2
    · exact .inr (ih.1 hseals)
  | call p =>
    intro known fr s ns u hs hk h
    exact ⟨fun hp => hcall p fr s ns u hs hp h, by simp⟩
  | _ => intro known fr s ns u _ _ _; simp

/-- What a rule gives without a fault it also gives if other tokens follow, as long as it stops in
front of a token or ends with one that ends statements. -/
theorem gives_followedBy (hf : f.Forward) {more : List Token} {eof : Token}
    (hmore : (more.headD eof).kind ≠ .kwElse)
    (hends : ∀ p fr (s : Stream) ns u, s.Proper → p.seals = true → f p fr s = .ok ns [] u →
      s.Ends u)
    (hcall : ∀ p fr (s : Stream) ns u, s.Proper → s.Firm → f p fr s = .ok ns [] u →
      u.ahead ≠ [] ∨ p.seals = true →
      Grammar.parsePhrase p fr (s.followedBy more eof) = .ok ns [] (u.followedBy more eof)) :
    ∀ (r : Rule) (known : Option TokenKind) (fr : Frame) (s : Stream) (ns : List Node) (u : Stream),
      r.Careful → s.Proper → s.Firm → (∀ k, known = some k → s.peek.kind = k) →
      Gives f r fr s ns u → u.ahead ≠ [] ∨ r.Seals known ∨ r.Trails →
      Gives Grammar.parsePhrase r fr (s.followedBy more eof) ns (u.followedBy more eof) := by
  have passes : ∀ {r : Rule} {fr : Frame} {s u : Stream} {ns : List Node}, s.Proper →
      Gives f r fr s ns u → ∃ run, s.Passes run u := by
    intro r fr s u ns hs h
    obtain ⟨run, hp⟩ := apply_passes hf r fr s hs
    rw [h] at hp
    exact ⟨run, hp⟩
  -- unless it trails, the rule has a token ahead
  have token : ∀ {r : Rule} {known : Option TokenKind} {fr : Frame} {s u : Stream} {ns : List Node},
      s.Proper → (∀ k, known = some k → s.peek.kind = k) → Gives f r fr s ns u →
      u.ahead ≠ [] ∨ r.Seals known → s.ahead ≠ [] := by
    intro r known fr s u ns hs hk h hset
    obtain ⟨run, hp⟩ := passes hs h
    exact hp.ahead_ne_nil
      (hset.imp_right fun hseals => ((ends_of_seals hf hends r known fr s ns u hs hk h).1 hseals).1)
  intro r
  induction r with
  | done =>
    intro known fr s ns u _ _ _ _ h _
    obtain ⟨rfl, rfl⟩ := gives_done.1 h
    exact gives_done.2 ⟨rfl, rfl⟩
  | keep =>
    intro known fr s ns u _ _ _ _ h _
    obtain ⟨rfl, rfl⟩ := gives_keep.1 h
    exact gives_keep.2 ⟨rfl, rfl⟩
  | take =>
    intro known fr s ns u _ hs _ hk h hset
    have hne := token hs hk h (hset.imp_right fun h => h.resolve_right (by simp))
    obtain ⟨rfl, rfl⟩ := gives_take.1 h
    exact gives_take.2 ⟨rfl, (Stream.advance_followedBy hs hne).symm⟩
  | leaf g =>
    intro known fr s ns u _ hs _ hk h hset
    have hne := token hs hk h (hset.imp_right fun h => h.resolve_right (by simp))
    obtain ⟨rfl, rfl⟩ := gives_leaf.1 h
    rw [gives_leaf, Stream.peek_followedBy hne]
    exact ⟨rfl, (Stream.advance_followedBy hs hne).symm⟩
  | expect k | closing k =>
    intro known fr s ns u _ hs _ hk h hset
    have hne := token hs hk h (hset.imp_right fun h => h.resolve_right (by simp))
    simp only [gives_expect, gives_closing] at h ⊢
    obtain ⟨hkind, rfl, rfl⟩ := h
    rw [Stream.peek_followedBy hne]
    exact ⟨hkind, rfl, (Stream.advance_followedBy hs hne).symm⟩
  | refuse w => intro known fr s ns u _ _ _ _ h _; exact absurd h gives_refuse
  | seq a b iha ihb =>
    intro known fr s ns u hcare hs hfirm hk h hset
    obtain ⟨m, v, n, ha, hb, rfl⟩ := gives_seq.1 h
    obtain ⟨run, hp⟩ := passes hs ha
    obtain ⟨run', hp'⟩ := passes (hs.of_passes hp) hb
    have hv := hs.of_passes hp
    have hboth : (v.ahead ≠ [] ∨ a.Seals known) ∧ (u.ahead ≠ [] ∨ b.Seals none ∨ b.Trails) := by
      rcases hset with hu | (hseals | ⟨hseals, htrails⟩) | htrails
      · exact ⟨.inl (hp'.ahead_ne_nil (.inl hu)), .inl hu⟩
      · exact ⟨.inl (token hv (by simp) hb (.inr hseals)), .inr (.inl hseals)⟩
      · exact ⟨.inr hseals, .inr (.inr htrails)⟩
      · exact absurd htrails (by simp)
    exact gives_seq.2 ⟨m, _, n,
      iha known fr s m v hcare.1 hs hfirm hk ha (hboth.1.imp_right .inl),
      ihb none fr v n u hcare.2 hv (hfirm.passes hp) (by simp) hb hboth.2, rfl⟩
  | feed a b iha ihb =>
    intro known fr s ns u hcare hs hfirm hk h hset
    have hu : u.ahead ≠ [] := hset.resolve_right (by simp)
    obtain ⟨m, v, ha, hb⟩ := gives_feed.1 h
    obtain ⟨run, hp⟩ := passes hs ha
    have hv := hs.of_passes hp
    obtain ⟨run', hp'⟩ := passes hv hb
    exact gives_feed.2 ⟨m, _,
      iha known fr s m v hcare.1 hs hfirm hk ha (.inl (hp'.ahead_ne_nil (.inl hu))),
      ihb none _ v ns u hcare.2 hv (hfirm.passes hp) (by simp) hb (.inl hu)⟩
  | as _ a iha =>
    intro known fr s ns u hcare hs hfirm hk h hset
    obtain ⟨m, ha, rfl⟩ := gives_as.1 h
    exact gives_as.2 ⟨m, iha known fr s m u hcare hs hfirm hk ha
      (hset.imp_right (Or.imp_right (by simp))), rfl⟩
  | build _ a iha =>
    intro known fr s ns u hcare hs hfirm hk h hset
    obtain ⟨m, ha, rfl⟩ := gives_build.1 h
    exact gives_build.2 ⟨m, iha known fr s m u hcare hs hfirm hk ha
      (hset.imp_right (Or.imp_right (by simp))), rfl⟩
  | fresh a iha =>
    intro known fr s ns u hcare hs hfirm hk h hset
    have hset : u.ahead ≠ [] ∨ a.Seals known := hset.imp_right fun h => h.resolve_right (by simp)
    have ha := gives_fresh.1 h
    have hne := token hs hk ha hset
    have hgo := iha known _ s ns u hcare hs hfirm hk ha (hset.imp_right .inl)
    rw [gives_fresh, Stream.position, Stream.peek_followedBy hne]
    exact hgo
  | recover a iha =>
    intro known fr s ns u hcare hs hfirm hk h hset
    exact gives_recover.2 (iha known fr s ns u hcare hs hfirm hk (gives_recover.1 h)
      (hset.imp_right (Or.imp_right (by simp))))
  | look g ih =>
    intro known fr s ns u hcare hs hfirm hk h hset
    have h : Gives f (g s.look) fr s ns u := gives_look.1 h
    have hks : ∀ k, some s.look.kind = some k → s.peek.kind = k := fun k hk => by simpa using hk
    rw [gives_look]
    by_cases hne : s.ahead = []
    · -- nothing is ahead, so that the rule trails and does nothing
      have hnot : ¬ (u.ahead ≠ [] ∨ (look g).Seals known) :=
        fun hor => token hs hk (gives_look.2 h) hor hne
      have htrails : (look g).Trails := by
        rcases hset with hu | hseals | htrails
        · exact absurd (.inl hu) hnot
        · exact absurd (.inr hseals) hnot
        · exact htrails
      have hlook : (s.followedBy more eof).look.kind ≠ .kwElse := by
        rw [Stream.look_kind, Stream.peek, Stream.followedBy, hne]
        exact hmore
      have heof : s.look.kind ≠ .kwElse := by
        rw [Stream.look_kind, (Stream.peek_kind_eq_eof hs).2 hne]
        decide
      rw [(htrails s.look).resolve_right fun h => heof h.1] at h
      obtain ⟨rfl, rfl⟩ := gives_done.1 h
      rw [(htrails _).resolve_right fun h => hlook h.1]
      exact gives_done.2 ⟨rfl, rfl⟩
    · obtain ⟨hkind, htext, hsecond⟩ := @Stream.look_followedBy s more eof hfirm hne
      rw [hcare.2 _ _ hkind htext hsecond]
      refine ih s.look (some s.look.kind) fr s ns u (hcare.1 _) hs hfirm hks h ?_
      rcases hset with hu | hseals | htrails
      · exact .inl hu
      · exact .inr (.inl (hseals s.look))
      · rcases htrails s.look with hdone | ⟨-, hseals⟩
        · rw [hdone] at h
          obtain ⟨-, rfl⟩ := gives_done.1 h
          exact .inl hne
        · exact .inr (.inl hseals)
  | call p =>
    intro known fr s ns u _ hs hfirm _ h hset
    exact hcall p fr s ns u hs hfirm h (hset.imp_right fun h => h.resolve_right (by simp))

end Rule

/-! ## The table -/

namespace Grammar

open Rule

theorem careful_ite {p : Prop} [Decidable p] {a b : Rule} :
    (if p then a else b).Careful ↔ if p then a.Careful else b.Careful := by
  split <;> rfl

theorem argumentList_careful : argumentList.Careful := by
  simp only [argumentList, node, all, Careful, true_and, and_true]
  refine ⟨fun x => ?_, fun x y hk _ _ => by rw [hk]⟩
  split <;> trivial

theorem callTail_careful : callTail.Careful := by
  refine ⟨fun x => ?_, fun x y hk _ _ => by dsimp only; rw [hk]⟩
  dsimp only
  split <;> trivial

theorem named_careful {g : Form → Rule} {w : Wanted} (h : ∀ n, (g n).Careful) :
    (named g w).Careful := by
  refine ⟨?_, fun x y hk _ _ => by dsimp only; rw [hk]⟩
  rintro ⟨k, x, k2⟩
  cases k <;> simp [h]

theorem namedStatement_careful (x : Ahead) : (namedStatement x).Careful := by
  unfold namedStatement
  split
  · split_ifs <;> simp [node, all, boundStatement, assertStatement, moduleCall, bindingList,
      assignments, argumentList_careful, callTail_careful]
  · simp [node, all, declaration, expression]
  · simp [node, all, moduleCall, argumentList_careful, callTail_careful]

theorem statement_careful : statement.Careful := by
  refine ⟨?_, ?_⟩
  · rintro ⟨k, x, k2⟩
    cases k with
    | identifier => exact namedStatement_careful _
    | _ =>
      simp +contextual [node, all, moduleItem, functionItem, boundStatement, ifStatement, fileStatement,
        unionBlock, declaration, expression, bindingList, assignments, parameterList, careful_ite]
  · rintro ⟨k, x, k2⟩ ⟨k', x', k2'⟩ hk ht hs
    obtain rfl : k' = k := hk
    obtain rfl : x' = x := ht
    cases k' with
    | identifier => rw [show k2' = k2 from hs rfl]
    | _ => rfl

theorem body_careful : body.Careful := by
  refine ⟨fun x => ?_, ?_⟩
  · dsimp only
    split <;> trivial
  · rintro ⟨k, x, k2⟩ ⟨k', x', k2'⟩ hk ht hs
    obtain rfl : k' = k := hk
    cases k' with
    | identifier | special => rw [show k2' = k2 from hs rfl]
    | _ => rfl

theorem arguments_careful : arguments.Careful := by
  refine ⟨⟨fun x => ?_, ?_⟩, ?_⟩
  · dsimp only
    split <;> simp [node, all, namedArgument, expression]
  · rintro ⟨k, x, k2⟩ ⟨k', x', k2'⟩ hk ht hs
    obtain rfl : k' = k := hk
    cases k' with
    | identifier | special => rw [show k2' = k2 from hs rfl]
    | _ => rfl
  · simp +contextual [careful_ite]

theorem bindings_careful : bindings.Careful := by
  refine ⟨fun x => ?_, fun x y hk _ _ => by dsimp only; rw [hk]⟩
  dsimp only
  split
  · trivial
  · trivial
  · trivial
  · refine ⟨named_careful fun n => ?_, ?_⟩
    · simp [node, all, binding, expression]
    · simp +contextual [careful_ite]

theorem parameters_careful : parameters.Careful := by
  refine ⟨fun x => ?_, fun x y hk _ _ => by dsimp only; rw [hk]⟩
  dsimp only
  split
  · trivial
  · trivial
  · refine ⟨named_careful fun n => ?_, ?_⟩
    · simp +contextual [node, all, parameter, expression, careful_ite]
    · simp +contextual [careful_ite]

theorem element_careful : element.Careful := by
  refine ⟨?_, fun x y hk _ _ => by dsimp only; rw [hk]⟩
  rintro ⟨k, x, k2⟩
  cases k <;> simp +contextual [node, all, expression, loopHead, assignments, bindingList,
    careful_ite]

theorem operators_careful (l : Level) : (operators l).Careful := by
  refine ⟨fun x => ?_, fun x y hk _ _ => by dsimp only; rw [hk]⟩
  dsimp only
  split
  · trivial
  · split_ifs <;> simp [all, expression]

theorem suffixes_careful : suffixes.Careful := by
  refine ⟨?_, fun x y hk _ _ => by dsimp only; rw [hk]⟩
  rintro ⟨k, x, k2⟩
  cases k <;> simp +contextual [all, expression, careful_ite, argumentList_careful]

theorem listOrRange_careful : listOrRange.Careful := by
  refine ⟨trivial, fun x => ?_, fun x y hk _ _ => by dsimp only; rw [hk]⟩
  dsimp only
  split <;> simp +contextual [all, expression, rangeBounds, careful_ite]

theorem primary_careful : primary.Careful := by
  refine ⟨?_, ?_⟩
  · rintro ⟨k, x, k2⟩
    cases k with
    | identifier =>
      dsimp only
      split_ifs <;> simp +contextual [node, all, guardExpression, expression, careful_ite,
        argumentList_careful]
    | _ =>
      simp [node, all, expression, bindingList, assignments, parameterList, listOrRange_careful]
  · rintro ⟨k, x, k2⟩ ⟨k', x', k2'⟩ hk ht hs
    obtain rfl : k' = k := hk
    obtain rfl : x' = x := ht
    cases k' with
    | identifier => rw [show k2' = k2 from hs rfl]
    | _ => rfl

/-- Every rule of the table is careful. -/
theorem rule_careful (p : Phrase) : (rule p).Careful := by
  cases p with
  | items | blockItems =>
    refine ⟨?_, fun x y hk _ _ => by dsimp only; rw [hk]⟩
    rintro ⟨k, x, k2⟩
    cases k <;> simp
  | statement => exact statement_careful
  | body => exact body_careful
  | arguments => exact arguments_careful
  | bindings => exact bindings_careful
  | parameters => exact parameters_careful
  | element => exact element_careful
  | elements => simp +contextual [rule, elements, careful_ite]
  | expr l => simp [rule, expr]
  | operators l => exact operators_careful l
  | unary =>
    refine ⟨?_, fun x y hk _ _ => by dsimp only; rw [hk]⟩
    rintro ⟨k, x, k2⟩
    cases k <;> simp [node, all]
  | primary => exact primary_careful
  | suffixes => exact suffixes_careful

theorem seals_ite {p : Prop} [Decidable p] {a b : Rule} {known : Option TokenKind} :
    (if p then a else b).Seals known ↔ if p then a.Seals known else b.Seals known := by
  split <;> rfl

theorem callTail_seals : callTail.Seals none := by
  intro x
  dsimp only
  split <;> simp_all [TokenKind.endsStatement, Phrase.seals]

theorem else_trails :
    (look fun x => if x.kind = .kwElse then seq take (as .alternative (call .body)) else done).Trails
    := by
  intro x
  dsimp only
  split
  · exact .inr ⟨‹_›, .inl rfl⟩
  · exact .inl rfl

/-- Statements end with a token that ends statements. -/
theorem rule_seals (p : Phrase) (h : p.seals = true) : (rule p).Seals none := by
  cases p with
  | statement =>
    rintro ⟨k, x, k2⟩
    cases k with
    | identifier =>
      show (namedStatement _).Seals _
      unfold namedStatement
      split
      · split_ifs <;> simp [node, all, boundStatement, assertStatement, moduleCall, Phrase.seals,
          callTail_seals]
      · simp [node, all, declaration, TokenKind.endsStatement]
      · simp [node, all, moduleCall, callTail_seals]
    | kwIf => exact .inl (.inl (.inl (.inl (.inr ⟨rfl, else_trails⟩))))
    | _ =>
      simp +contextual [node, all, moduleItem, functionItem, boundStatement,
        fileStatement, unionBlock, declaration, Phrase.seals, TokenKind.endsStatement, seals_ite]
  | body =>
    intro x
    dsimp only
    split <;> simp [Phrase.seals]
  | _ => cases h

/-! ## Statements -/

/-- A statement ends with a token that ends statements. And a phrase is parsed in the same way if
other tokens follow, as long as it stops in front of a token or is a statement. -/
theorem parsePhrase_sealed {more : List Token} {eof : Token} (he : eof.kind = .eof)
    (hm : ∀ t ∈ more, t.kind ≠ .eof) (hmore : (more.headD eof).kind ≠ .kwElse) (p : Phrase)
    (fr : Frame) (s : Stream) (ns : List Node) (u : Stream) (hs : s.Proper)
    (h : parsePhrase p fr s = .ok ns [] u) :
    (p.seals = true → s.Ends u) ∧
      (s.Firm → u.ahead ≠ [] ∨ p.seals = true →
        parsePhrase p fr (s.followedBy more eof) = .ok ns [] (u.followedBy more eof)) := by
  refine parsePhrase_induct_proper
    (P := fun p fr s o => ∀ ns u, o = .ok ns [] u →
      (p.seals = true → s.Ends u) ∧
      (s.Firm → u.ahead ≠ [] ∨ p.seals = true →
        parsePhrase p fr (s.followedBy more eof) = .ok ns [] (u.followedBy more eof)))
    ?_ ?_ p fr s hs ns u h
  · intro p fr s ns u h
    cases h
  · intro f forward _ hf p fr s hs ns u h
    have hends : ∀ p fr (s : Stream) ns u, s.Proper → p.seals = true → f p fr s = .ok ns [] u →
        s.Ends u := fun p fr s ns u hs hp h => (hf p fr s hs ns u h).1 hp
    refine ⟨fun hp => ?_, fun hfirm hset => ?_⟩
    · exact (ends_of_seals forward hends (rule p) none fr s ns u hs (by simp) h).1 (rule_seals p hp)
    · rw [parsePhrase_eq_rule p fr _ (Stream.proper_followedBy hs he hm)]
      exact gives_followedBy forward hmore hends
        (fun p fr s ns u hs hfirm h hset => (hf p fr s hs ns u h).2 hfirm hset) (rule p) none fr s
        ns u (rule_careful p) hs hfirm (by simp) h
        (hset.imp_right fun hp => .inl (rule_seals p hp))

theorem statement_ends {fr : Frame} {s : Stream} {ns : List Node} {u : Stream} (hs : s.Proper)
    (h : parsePhrase .statement fr s = .ok ns [] u) : s.Ends u := by
  have hnone : (([] : List Token).headD s.eof).kind ≠ .kwElse := by
    show s.eof.kind ≠ .kwElse
    rw [hs.eof]
    decide
  exact (parsePhrase_sealed hs.eof (by simp) hnone .statement fr s ns u hs h).1 rfl

theorem items_of_eof {fr : Frame} {s : Stream} (hs : s.Proper) (h : s.ahead = []) :
    parsePhrase .items fr s = .ok [] [] s := by
  rw [parsePhrase_eq_rule _ _ _ hs]
  show (items.apply parsePhrase fr s) = _
  simp only [items, apply, Stream.look_kind, (Stream.peek_kind_eq_eof hs).2 h]

theorem items_of_token {fr : Frame} {s : Stream} (hs : s.Proper) (h : s.ahead ≠ []) :
    parsePhrase .items fr s =
      (seq (recover (call .statement)) (call .items)).apply parsePhrase fr s := by
  have hk : s.peek.kind ≠ .eof := fun hk => h ((Stream.peek_kind_eq_eof hs).1 hk)
  rw [parsePhrase_eq_rule _ _ _ hs]
  conv => lhs; rw [rule, items, apply]
  split
  · rename_i hk'
    exact absurd hk' hk
  · rfl

/-- A list of statements without a fault: one statement, and the rest of the list. -/
theorem items_cons {fr : Frame} {s u : Stream} {ns : List Node} (hs : s.Proper) (hne : s.ahead ≠ [])
    (h : parsePhrase .items fr s = .ok ns [] u) :
    ∃ m v n, parsePhrase .statement fr s = .ok m [] v ∧ v.Proper ∧ s.Ends v ∧
      parsePhrase .items fr v = .ok n [] u ∧ ns = m ++ n := by
  rw [items_of_token hs hne] at h
  have h : Gives parsePhrase (seq (recover (call .statement)) (call .items)) fr s ns u := h
  simp only [gives_seq, gives_recover, gives_call] at h
  obtain ⟨m, v, n, hstatement, hitems, rfl⟩ := h
  obtain ⟨run, hp⟩ := parsePhrase_passes .statement fr s hs
  rw [hstatement] at hp
  exact ⟨m, v, n, hstatement, hs.of_passes hp, statement_ends hs hstatement, hitems, rfl⟩

/-- The last token of a list of statements without a fault ends statements. -/
theorem items_ends {fr : Frame} {u : Stream} : ∀ (s : Stream) (ns : List Node), s.Proper →
    parsePhrase .items fr s = .ok ns [] u →
    u.ahead = [] ∧ (s.ahead = [] ∨ ∃ t, u.last = some t ∧ t.kind.endsStatement = true) := by
  intro s ns hs h
  induction hn : s.count using Nat.strongRecOn generalizing s ns with
  | ind n ih =>
    subst hn
    by_cases hne : s.ahead = []
    · rw [items_of_eof hs hne] at h
      obtain ⟨-, -, rfl⟩ := Outcome.ok.inj h
      exact ⟨hne, .inl hne⟩
    · obtain ⟨m, v, n, -, hv, ⟨hc, hlast⟩, hitems, -⟩ := items_cons hs hne h
      obtain ⟨hnil, hend⟩ := ih v.count hc v n hv hitems rfl
      refine ⟨hnil, .inr ?_⟩
      rcases hend with hnone | hend
      · rw [items_of_eof hv hnone] at hitems
        obtain ⟨-, -, rfl⟩ := Outcome.ok.inj hitems
        exact hlast
      · exact hend

/-- The statements of a text without a fault are followed by those behind it. -/
theorem items_followedBy {more : List Token} {eof : Token} (he : eof.kind = .eof)
    (hm : ∀ t ∈ more, t.kind ≠ .eof) (hmore : (more.headD eof).kind ≠ .kwElse) {fr : Frame}
    {u : Stream} : ∀ (s : Stream) (ns : List Node), s.Proper → s.Firm →
      parsePhrase .items fr s = .ok ns [] u →
      parsePhrase .items fr (s.followedBy more eof) =
        (parsePhrase .items fr (u.followedBy more eof)).map fun _ rest => ns ++ rest := by
  intro s ns hs hfirm h
  induction hn : s.count using Nat.strongRecOn generalizing s ns with
  | ind n ih =>
    subst hn
    by_cases hne : s.ahead = []
    · rw [items_of_eof hs hne] at h
      obtain ⟨rfl, -, rfl⟩ := Outcome.ok.inj h
      cases parsePhrase .items fr (s.followedBy more eof) <;> rfl
    · obtain ⟨m, v, n, hstatement, hv, ⟨hc, -⟩, hitems, rfl⟩ := items_cons hs hne h
      obtain ⟨run, hp⟩ := parsePhrase_passes .statement fr s hs
      rw [hstatement] at hp
      have hstatement' := (parsePhrase_sealed he hm hmore .statement fr s m v hs hstatement).2 hfirm
        (.inr rfl)
      have hitems' := ih v.count hc v n hv (hfirm.passes hp) hitems rfl
      rw [items_of_token (Stream.proper_followedBy hs he hm) (by simp [Stream.followedBy, hne])]
      simp only [apply, hstatement', hitems']
      cases parsePhrase .items fr (u.followedBy more eof) <;> simp [Outcome.map, Outcome.after]

end Grammar
end Scad
