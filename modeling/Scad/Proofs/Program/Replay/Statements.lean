import Scad.Proofs.Program.Replay.Expressions

/-!
# Statements parsed again

The rules of statements. Two of them need more than their parts: behind the first branch of a choice
only an `else` counts, and the body of a module may have got braces.
-/

namespace Scad

open Rule

namespace Grammar

variable {source source' : List Char} {f : Phrases} {E : Ahead → Ahead → Prop}
  {known : TokenKind → Prop}

theorem body_replays (hf : ReplaysAll source source' f) {role : Role} (hr : role.isSymbol = false) :
    Replays source source' f false Ahead.Open known (.as role (.call .body)) :=
  .as (hf.call .body).knowing hr

/-! ## Calls -/

theorem callTail_replays (hf : ReplaysAll source source' f) :
    Replays source source' f false Ahead.Open known callTail := by
  refine .look hf.barring (fun x => ?_) ?_
  · split
    · rename_i hk
      rw [hk]
      exact replays_take rfl (firm_of_isFixed rfl)
    · exact replays_closing rfl (by decide)
    · exact body_replays hf rfl
  · rintro ⟨k, x, k2⟩ ⟨k', x', k2'⟩ - ⟨rfl | ⟨rfl, hend⟩, -⟩
    · exact .inl rfl
    · exact .inr ⟨rfl, rfl⟩

theorem moduleCall_replays (hf : ReplaysAll source source' f) :
    Replays source source' f false Ahead.Open (· = .identifier) moduleCall := by
  refine .fresh (.build ((name_replays (.inl ⟨rfl, rfl⟩)).seq ?_) rfl (by decide))
  exact (argumentList_replays hf).seq (callTail_replays hf)

theorem assertStatement_replays (hf : ReplaysAll source source' f) :
    Replays source source' f false Ahead.Open (· = .identifier) assertStatement := by
  refine .fresh (.build ((replays_take rfl (firm_near _)).seq ?_) rfl (by decide))
  exact (argumentList_replays hf).seq (callTail_replays hf)

/-! ## Other statements -/

theorem bound_replays (hf : ReplaysAll source source' f) {g : Form} {k : TokenKind}
    (hk : k.stays = true) (ht : g.isText = false) (hm : g ≠ .moduleItem) :
    Replays source source' f false Ahead.Open (· = k) (boundStatement g) := by
  refine .fresh (.build ((replays_take hk (firm_near _)).seq ?_) ht hm)
  exact (bindingList_replays hf).seq (body_replays hf rfl)

theorem file_replays (hf : ReplaysAll source source' f) {g : Form} {k : TokenKind}
    (hk : k.stays = true) (ht : g.isText = false) (hm : g ≠ .moduleItem) :
    Replays source source' f false Ahead.Open (· = k) (fileStatement g) := by
  refine .fresh (.build ((replays_take hk (firm_near _)).seq (.look hf.barring (fun x => ?_) ?_)) ht hm)
  · split
    · rename_i hx
      rw [hx]
      exact replays_symbol rfl (by simp [Firm]) (by simp [Form.Suits]) (by decide) (by decide)
        (by decide)
    · exact replays_refuse _
  · rintro ⟨k, x, k2⟩ ⟨k', x', k2'⟩ - ⟨rfl | ⟨rfl, hend⟩, -⟩
    · exact .inl rfl
    · exact .inr ⟨rfl, trivial⟩

theorem modified_replays (hf : ReplaysAll source source' f) {k : TokenKind}
    (hk : k.isModifier = true) :
    Replays source source' f false Ahead.Open (· = k)
      (node .modifierChain [as .modifier (leaf .modifier), as .statement (call .body)]) := by
  obtain ⟨m, rfl, -⟩ := modifier_cases hk
  refine .fresh (.build (.seq (mark_replays ?_ ?_ ?_ (by decide)) (body_replays hf rfl)) rfl (by decide))
  · cases m <;> rfl
  · cases m <;> decide
  · cases m <;> simp [Form.Suits, Modifier.token]

theorem unionBlock_replays (hf : ReplaysAll source source' f) :
    Replays source source' f false Ahead.Open (· = .lbrace) unionBlock := by
  refine .fresh (.build ((replays_take rfl (firm_near _)).seq ?_) rfl (by decide))
  exact Replays.seq (hf.call .blockItems) (replays_closing rfl (by decide))

theorem declaration_replays (hf : ReplaysAll source source' f) {g : Form} {k : TokenKind}
    (hk : Names g k) : Replays source source' f false Ahead.Open (· = k) (declaration g) := by
  refine .fresh (.build ((name_replays hk).seq ?_) rfl (by decide))
  exact (replays_expect rfl (by decide)).seq
    (((expression_replays hf).as rfl).seq (replays_closing rfl (by decide)))

/-- The name of a module or a function. -/
theorem definedName_replays (hf : ReplaysAll source source' f) (w : Wanted) :
    Replays source source' f false Ahead.Near known
      (.look fun x => if x.kind = .identifier then .as .name (.leaf .identifier) else .refuse w) := by
  refine .look hf.barring (fun x => ?_) ?_
  · split
    · rename_i hx
      rw [hx]
      exact name_replays (.inl ⟨rfl, rfl⟩)
    · exact replays_refuse _
  · rintro ⟨k, x, k2⟩ ⟨k', x', k2'⟩ - ⟨rfl | ⟨rfl, hend⟩, -⟩
    · exact .inl rfl
    · exact .inr ⟨rfl, trivial⟩

theorem functionItem_replays (hf : ReplaysAll source source' f) :
    Replays source source' f false Ahead.Open (· = .kwFunction) functionItem := by
  refine .fresh (.build ((replays_take rfl (firm_near _)).seq ?_) rfl (by decide))
  exact (definedName_replays hf _).seq ((parameterList_replays hf).seq
    ((replays_expect rfl (by decide)).seq
      (((expression_replays hf).as rfl).seq (replays_closing rfl (by decide)))))

/-- The branches of a choice. Whatever follows the statement, the words go on with an `else` only if
the source does. -/
theorem branches_replay (hf : ReplaysAll source source' f) :
    Replays source source' f false Ahead.Open known
      (.seq (.as .consequence (.call .body))
        (.look fun x =>
          if x.kind = .kwElse then .seq .take (.as .alternative (.call .body)) else .done)) := by
  have yes : Replays source source' f false Ahead.Open known (.as .consequence (.call .body)) :=
    body_replays hf rfl
  have no : Replays source source' f false Ahead.Open (· = .kwElse)
      (.seq .take (.as .alternative (.call .body))) :=
    (replays_take rfl (firm_near _)).seq (body_replays hf rfl)
  intro fr s ns u hs hl hk hg
  simp only [gives_seq, gives_look, Stream.look_kind] at hg
  obtain ⟨m, v, n, h1, h2, rfl⟩ := hg
  obtain ⟨-, wa, hsay1, hgo1⟩ := yes fr s m v hs hl hk h1
  by_cases he : v.peek.kind = .kwElse
  · rw [if_pos he] at h2
    obtain ⟨-, wb, hsay2, hgo2⟩ := no fr v n u (hsay1.of hs) hl he h2
    refine ⟨by simp, wa ++ wb, by simpa using hsay1.trans hs hsay2, fun rest hrest => ?_⟩
    obtain ⟨hnear2, hreplay2⟩ := hgo2 rest hrest
    obtain ⟨hnear1, hreplay1⟩ := hgo1 (wb ++ rest) hnear2.open
    rw [List.append_assoc]
    refine ⟨hnear1, fun fr' s' hs' hw hleft => ?_⟩
    obtain ⟨m', v', g1, hv', hwv, like1⟩ := hreplay1 fr' s' hs' hw hleft
    obtain ⟨n', u', g2, hu', hwu, like2⟩ := hreplay2 fr' v' hv' hwv hleft
    have he' : v'.peek.kind = .kwElse := by
      rw [hv'.proper.peek_kind, hwv, hnear2.kind.eq (by simp [he])]
      exact he
    exact ⟨m' ++ n', u', gives_seq.2 ⟨m', v', n', g1, by simpa [he'] using g2, rfl⟩, hu', hwu,
      List.rel_append like1 like2⟩
  · rw [if_neg he] at h2
    obtain ⟨rfl, rfl⟩ := gives_done.1 h2
    refine ⟨by simp, wa, by simpa using hsay1, fun rest hrest => ?_⟩
    obtain ⟨hnear1, hreplay1⟩ := hgo1 rest hrest
    refine ⟨hnear1, fun fr' s' hs' hw hleft => ?_⟩
    obtain ⟨m', v', g1, hv', hwv, like1⟩ := hreplay1 fr' s' hs' hw hleft
    have he' : v'.peek.kind ≠ .kwElse := by
      rw [hv'.proper.peek_kind, hwv]
      exact fun h => he (hrest h)
    exact ⟨m' ++ [], v', gives_seq.2 ⟨m', v', [], g1, by simp [he'], rfl⟩, hv', hwv,
      List.rel_append like1 .nil⟩

theorem ifStatement_replays (hf : ReplaysAll source source' f) :
    Replays source source' f false Ahead.Open (· = .kwIf) ifStatement := by
  refine .fresh (.build ((replays_take rfl (firm_near _)).seq ?_) rfl (by decide))
  exact (replays_expect rfl (by decide)).seq (((expression_replays hf).as rfl).seq
    ((replays_closing rfl (by decide)).seq (branches_replay hf)))

/-! ## Modules -/

/-- A statement in braces is parsed as a block. -/
theorem parse_braces {s u : Stream} {n : Node} (hs : s.Of source) (hopen : s.peek.kind = .lbrace)
    (hfirst : s.advance.peek.kind.parts = false)
    (h : parsePhrase .statement { start := s.position } s.advance = .ok [n] [] u) (hu : u.Of source)
    (hclose : u.peek.kind = .rbrace) (fr : Frame) :
    parsePhrase .statement fr s = .ok
      [⟨.form .unionBlock, u.advance.regionFrom s.position, none, false, [n]⟩] [] u.advance := by
  have hs1 := advance_of hs hopen (by decide)
  have hlast : Gives parsePhrase (.call .blockItems) { start := s.position } u [] u := by
    rw [gives_call, parsePhrase_eq_rule _ _ _ hu.proper]
    have hrule : Gives parsePhrase blockItems { start := s.position } u [] u := by
      rw [blockItems, gives_look, Stream.look_kind, hclose]
      exact gives_done.2 ⟨rfl, rfl⟩
    exact hrule
  have hitems : Gives parsePhrase (.call .blockItems) { start := s.position } s.advance [n] u := by
    rw [gives_call, parsePhrase_eq_rule _ _ _ hs1.proper]
    have hrule : Gives parsePhrase blockItems { start := s.position } s.advance [n] u := by
      rw [blockItems, gives_look, Stream.look_kind]
      split
      · rename_i hk
        rw [hk] at hfirst
        cases hfirst
      · rename_i hk
        rw [hk] at hfirst
        cases hfirst
      · exact gives_seq.2 ⟨[n], u, [], gives_recover.2 h, hlast, rfl⟩
    exact hrule
  rw [parsePhrase_eq_rule _ _ _ hs.proper]
  have hrule : Gives parsePhrase statement fr s
      [⟨.form .unionBlock, u.advance.regionFrom s.position, none, false, [n]⟩] u.advance := by
    rw [statement, gives_look, Stream.look_kind, hopen]
    simp only [unionBlock, node, all, gives_fresh, gives_build, gives_seq, gives_take,
      gives_closing]
    exact ⟨_, ⟨_, _, _, ⟨rfl, rfl⟩, ⟨_, u, _, hitems, ⟨hclose, rfl, rfl⟩, rfl⟩, rfl⟩, rfl⟩
  exact hrule

/-- The body of a module. If it is no block, a block around it is parsed. -/
theorem moduleBody_replay (hf : ReplaysAll source source' f) {start : Position} {s u : Stream}
    {a : Node} (hs : s.Of source) (h : f .statement { start } s = .ok [a] [] u) :
    ∃ ws, s.Says ((if a.kind = .form .unionBlock then [] else [a.region]) ++ a.bareBodies) u ws ∧
      ∀ rest, Ahead.Open u.look (.ofWords rest) → ∀ (start' : Position) (s' : Stream),
        s'.Of source' → s'.words = ws ++ rest →
        ∃ a' u', parsePhrase .statement { start := start' } s' = .ok [a'] [] u' ∧ u'.Of source' ∧
          u'.words = rest ∧ Shape.BodyAlike (a.reading source) (a'.reading source') := by
  obtain ⟨-, ws, hsay, hgo⟩ := hf.call .statement _ s [a] u hs rfl trivial h
  have hsay : s.Says a.bareBodies u ws := by simpa using hsay
  by_cases hk : a.kind = .form .unionBlock
  · rw [if_pos hk]
    refine ⟨ws, hsay, fun rest hrest start' s' hs' hw => ?_⟩
    obtain ⟨ns', u', g, hu', hwu, like⟩ := (hgo rest hrest).2 { start := start' } s' hs' hw .nil
    obtain ⟨a', _, ha, hnil, rfl⟩ := List.forall₂_cons_left_iff.1 like
    obtain rfl := List.forall₂_nil_left_iff.1 hnil
    exact ⟨a', u', g, hu', hwu, Shape.bodyAlike ha⟩
  · rw [if_neg hk]
    obtain ⟨-, n, run, hn, hpass, hspan⟩ := hf.outer .statement _ s [a] u hs h
    obtain rfl := List.singleton_inj.1 hn
    refine ⟨_, hsay.wrap hs hpass hspan, fun rest _ start' s' hs' hw => ?_⟩
    have hw : s'.words = .ofKind .lbrace :: (ws ++ .ofKind .rbrace :: rest) := by simpa using hw
    obtain ⟨hbrace, hwords⟩ := Stream.words_cons hw
    have hopen : s'.peek.kind = .lbrace := congrArg Word.kind hbrace
    have hs1 := advance_of hs' hopen (by decide)
    obtain ⟨hnear, hreplay⟩ := hgo (.ofKind .rbrace :: rest) (fun h => by cases h)
    obtain ⟨ns', u', g, hu', hwu, like⟩ := hreplay { start := s'.position } s'.advance hs1 hwords .nil
    obtain ⟨a', _, ha, hnil, rfl⟩ := List.forall₂_cons_left_iff.1 like
    obtain rfl := List.forall₂_nil_left_iff.1 hnil
    -- the body starts with the same token as in the source
    have hparts : s.peek.kind.parts = false := by
      by_contra hp
      exact hf.barring .statement _ s _ u hs.proper (by simpa [Phrase.bars] using hp) h
    have hfirst : s'.advance.peek.kind = s.peek.kind := by
      rw [hs1.proper.peek_kind, hwords, hnear.kind.eq (by rintro hc; simp_all [TokenKind.parts])]
      rfl
    obtain ⟨hlast, hrest⟩ := Stream.words_cons hwu
    have hclose : u'.peek.kind = .rbrace := congrArg Word.kind hlast
    exact ⟨_, u'.advance, parse_braces hs' hopen (by rwa [hfirst]) g hu' hclose _,
      advance_of hu' hclose (by decide), hrest, Node.bodyAlike_block ha hk⟩

theorem moduleItem_replays (hf : ReplaysAll source source' f) :
    Replays source source' f false Ahead.Open (· = .kwModule) moduleItem := by
  -- name and parameters end with a parenthesis, so that it does not matter what follows
  have hhead : Replays source source' f false (fun _ _ => True) (· = .kwModule)
      (.seq .take
        (.seq
          (.look fun x =>
            if x.kind = .identifier then .as .name (.leaf .identifier) else .refuse .moduleName)
          parameterList)) :=
    (replays_take rfl (firm_near _)).seq ((definedName_replays hf _).seq (parameterList_replays hf))
  intro fr s ns u hs _ hk hg
  have hg : Gives f (.build .moduleItem _) { start := s.position } s ns u := hg
  obtain ⟨_, hparts, rfl⟩ := gives_build.1 hg
  simp only [all, gives_seq, gives_as, gives_call] at hparts
  obtain ⟨m0, v0, _, h0, ⟨m1, v1, _, h1, ⟨m2, v, _, h2, ⟨m3, h3, rfl⟩, rfl⟩, rfl⟩, rfl⟩ := hparts
  obtain ⟨-, wh, hsayh, hgoh⟩ := hhead { start := s.position } s (m0 ++ (m1 ++ m2)) v hs rfl hk
    (gives_seq.2 ⟨m0, v0, _, h0, gives_seq.2 ⟨m1, v1, m2, h1, h2, rfl⟩, rfl⟩)
  -- what the parts are
  obtain ⟨rfl, rfl⟩ := gives_take.1 h0
  have hs0 : s.advance.Of source := advance_of hs hk (by decide)
  simp only [gives_look, gives_ite, gives_as, gives_refuse, Stream.look_kind, and_false,
    or_false] at h1
  obtain ⟨hid, _, hd, rfl⟩ := h1
  obtain ⟨d, _, rfl, hname, hsay1, -⟩ := name_spec hs0 (.inl ⟨rfl, hid⟩) hd
  obtain ⟨p, _, rfl, hparams, -⟩ := parameterList_spec hf.toKnows (hsay1.of hs0) h2
  obtain ⟨-, a, -, rfl, -⟩ := hf.outer .statement _ v m3 u (hsayh.of hs) h3
  obtain ⟨ws, hsay, hgo⟩ := moduleBody_replay hf (hsayh.of hs) h3
  refine ⟨by simp, wh ++ ws, ?_, fun rest hrest => ?_⟩
  · have hbare := Node.bareBodies_module d p a (u.regionFrom s.position) none false
    rw [hname.bare, hparams.bare, List.nil_append, List.nil_append] at hbare
    have hbareh : Node.bareBodiesAll ([] ++ ([d].map (·.inRole .name) ++ [p.inRole .parameters])) =
        [] := by
      simp [hname.bare, hparams.bare]
    rw [hbareh] at hsayh
    simpa [hbare] using hsayh.trans hs hsay
  · obtain ⟨hnear, hreplay⟩ := hgoh (ws ++ rest) trivial
    rw [List.append_assoc]
    refine ⟨hnear, fun fr' s' hs' hw _ => ?_⟩
    obtain ⟨m', v', g1, hv', hwv, like1⟩ := hreplay { start := s'.position } s' hs' hw .nil
    obtain ⟨a', u', g2, hu', hwu, like2⟩ := hgo rest hrest s'.position v' hv' hwv
    obtain ⟨n0, w0, _, k0, hk12, rfl⟩ := gives_seq.1 g1
    obtain ⟨n1, w1, n2, k1, k2, rfl⟩ := gives_seq.1 hk12
    refine ⟨[⟨.form .moduleItem, u'.regionFrom s'.position, none, false,
      n0 ++ (n1 ++ (n2 ++ [a'.inRole .body]))⟩], u', ?_, hu', hwu, .cons ?_ .nil⟩
    · simp only [moduleItem, node, all, gives_fresh, gives_build, gives_seq, gives_as, gives_call]
      exact ⟨_, ⟨n0, w0, _, k0, ⟨n1, w1, _, k1, ⟨n2, v', _, k2, ⟨_, g2, rfl⟩, rfl⟩, rfl⟩, rfl⟩, rfl⟩
    · generalize hn : n0 ++ (n1 ++ n2) = heads at like1
      have hcat : n0 ++ (n1 ++ (n2 ++ [a'.inRole .body])) = heads ++ [a'.inRole .body] := by
        simp [← hn]
      rw [hcat]
      obtain ⟨d', _, hd', hrest', rfl⟩ := List.forall₂_cons_left_iff.1 like1
      obtain ⟨p', _, hp', hnil, rfl⟩ := List.forall₂_cons_left_iff.1 hrest'
      obtain rfl := List.forall₂_nil_left_iff.1 hnil
      exact Node.alike_module hd' rfl hp' rfl (Node.bodyAlike_inRole like2 .body) rfl rfl

/-! ## Items -/

theorem namedStatement_replays (hf : ReplaysAll source source' f) (x : Ahead) :
    Replays source source' f false Ahead.Open (· = .identifier) (namedStatement x) := by
  unfold namedStatement
  split
  · split
    · exact bound_replays hf rfl rfl (by decide)
    · split
      · exact bound_replays hf rfl rfl (by decide)
      · split
        · exact assertStatement_replays hf
        · exact moduleCall_replays hf
  · exact declaration_replays hf (.inl ⟨rfl, rfl⟩)
  · exact moduleCall_replays hf

theorem namedStatement_eq {x y : Ahead} (htext : y.text = x.text) (h : x.second.Near y.second) :
    namedStatement y = namedStatement x := by
  have h1 : y.second = .lparen ↔ x.second = .lparen := h.eq_iff rfl
  have h2 : y.second = .assign ↔ x.second = .assign := h.eq_iff rfl
  unfold namedStatement
  rw [htext]
  split
  · rename_i hy
    rw [h1.1 hy]
  · rename_i hy
    rw [h2.1 hy]
  · rename_i hy1 hy2
    split
    · rename_i hx
      exact absurd (h1.2 hx) hy1
    · rename_i hx
      exact absurd (h2.2 hx) hy2
    · rfl

theorem statement_replays (hf : ReplaysAll source source' f) :
    Replays source source' f false Ahead.Open known statement := by
  refine .look hf.barring ?_ ?_
  · rintro ⟨k, x, k2⟩
    cases k with
    | star | bang | hash | percent => exact modified_replays hf rfl
    | kwModule => exact moduleItem_replays hf
    | kwFunction => exact functionItem_replays hf
    | kwFor | kwLet => exact bound_replays hf rfl rfl (by decide)
    | kwIf => exact ifStatement_replays hf
    | kwInclude | kwUse => exact file_replays hf rfl rfl (by decide)
    | lbrace => exact unionBlock_replays hf
    | semicolon =>
      exact replays_leaf rfl (firm_of_isFixed rfl) (by simp [Form.Suits]) (by decide)
    | special => exact declaration_replays hf (.inr ⟨rfl, rfl⟩)
    | identifier => exact namedStatement_replays hf _
    | _ => exact replays_refuse _
  · rintro ⟨k, x, k2⟩ ⟨k', x', k2'⟩ - ⟨rfl | ⟨rfl, hend⟩, hname⟩
    · left
      cases k' with
      | identifier =>
        obtain ⟨htext, hsecond⟩ := hname (.inl rfl)
        exact namedStatement_eq htext hsecond
      | _ => rfl
    · exact .inr ⟨rfl, trivial⟩

theorem body_rule_replays (hf : ReplaysAll source source' f) :
    Replays source source' f false Ahead.Open known body := by
  refine .look hf.barring (fun x => ?_) ?_
  · split
    case h_7 => exact (hf.call .statement).knowing
    all_goals exact replays_refuse _
  · rintro ⟨k, x, k2⟩ ⟨k', x', k2'⟩ - ⟨rfl | ⟨rfl, hend⟩, hname⟩
    · have hsecond : k' = .identifier ∨ k' = .special → (k2' = .assign ↔ k2 = .assign) :=
        fun hn => (hname hn).2.eq_iff rfl
      left
      dsimp only
      split
      case h_7 =>
        split
        case h_7 => rfl
        all_goals simp_all
      all_goals simp_all
    · exact .inr ⟨rfl, rfl⟩

/-- Statements up to a mark, or to the end. -/
theorem items_step_replays (hf : ReplaysAll source source' f) {p : Phrase}
    (hp : p = .items ∨ p = .blockItems) :
    Replays source source' f false Ahead.Near known
      (.seq (.recover (.call .statement)) (.call p)) := by
  have hstatement : Replays source source' f false Ahead.Near known (.call .statement) :=
    (hf.call .statement).knowing.mono fun _ _ h => h.open
  rcases hp with rfl | rfl
  · exact hstatement.recover.seq (hf.call .items)
  · exact hstatement.recover.seq (hf.call .blockItems)

theorem items_replays (hf : ReplaysAll source source' f) :
    Replays source source' f false Ahead.Near known items := by
  refine .look hf.barring (fun x => ?_) ?_
  · split
    · exact replays_done
    · exact items_step_replays hf (.inl rfl)
  · rintro ⟨k, x, k2⟩ ⟨k', x', k2'⟩ - ⟨rfl | ⟨rfl, hend⟩, -⟩
    · exact .inl rfl
    · exact .inr ⟨rfl, rfl⟩

theorem blockItems_replays (hf : ReplaysAll source source' f) :
    Replays source source' f false Ahead.Near known blockItems := by
  refine .look hf.barring (fun x => ?_) ?_
  · split
    · exact replays_done
    · exact replays_done
    · exact items_step_replays hf (.inr rfl)
  · rintro ⟨k, x, k2⟩ ⟨k', x', k2'⟩ - ⟨rfl | ⟨rfl, hend⟩, -⟩
    · exact .inl rfl
    · exact .inr ⟨rfl, rfl⟩

/-! ## All phrases -/

theorem rule_replays (hf : ReplaysAll source source' f) (p : Phrase) :
    Replays source source' f p.isInner p.demand Unknown (rule p) := by
  cases p with
  | items => exact items_replays hf
  | blockItems => exact blockItems_replays hf
  | statement => exact statement_replays hf
  | body => exact body_rule_replays hf
  | arguments => exact arguments_replays hf
  | bindings => exact bindings_replays hf
  | parameters => exact parameters_replays hf
  | element => exact element_replays hf
  | elements => exact elements_replays hf
  | expr l => exact expr_replays hf l
  | operators l => exact operators_replays hf l
  | unary => exact unary_replays hf
  | primary => exact primary_replays hf
  | suffixes => exact suffixes_replays hf

/-- In front of a closing mark a list of names is empty, or the mark is one that refuses it. -/
theorem rule_vanishes (p : Phrase) (hp : p.fades = true) : Vanishes source f (rule p) := by
  intro fr s ns u hs hend h
  cases p with
  | bindings =>
    have h : Gives f bindings fr s ns u := h
    rw [bindings, gives_look, Stream.look_kind] at h
    obtain hk | hk | hk := endsList_cases hend <;> rw [hk] at h
    · exact gives_done.1 h
    · simp [named, hk] at h
    · exact gives_done.1 h
  | parameters =>
    have h : Gives f parameters fr s ns u := h
    rw [parameters, gives_look, Stream.look_kind] at h
    obtain hk | hk | hk := endsList_cases hend <;> rw [hk] at h
    · exact gives_done.1 h
    · simp [named, hk] at h
    · simp [named, hk] at h
  | _ => cases hp

/-- A list of bindings does not stop in front of a comma. -/
theorem bindings_stop (hf : ReplaysAll source source' f) {fr : Frame} {s u : Stream}
    {ns : List Node} (hs : s.Of source) (h : Gives f bindings fr s ns u) : u.peek.kind ≠ .comma := by
  rw [bindings, gives_look, Stream.look_kind] at h
  split at h
  · rename_i hk
    obtain ⟨-, rfl⟩ := gives_done.1 h
    simp [hk]
  · rename_i hk
    obtain ⟨-, rfl⟩ := gives_done.1 h
    simp [hk]
  · rename_i hk
    obtain ⟨-, rfl⟩ := gives_done.1 h
    simp [hk]
  · obtain ⟨m, v, n, h1, h2, rfl⟩ := gives_seq.1 h
    obtain ⟨run, hpass⟩ := apply_passes hf.forward _ fr s hs.proper
    rw [h1] at hpass
    have hv : v.Of source := hs.passes hpass
    simp only [gives_look, Stream.look_kind, gives_ite, gives_seq, gives_take, gives_call,
      gives_done] at h2
    obtain ⟨hc, _, _, _, ⟨-, rfl⟩, hcall, -⟩ | ⟨hc, -, rfl⟩ := h2
    · exact hf.stops fr _ _ u (advance_of hv hc (by decide)) hcall
    · exact hc

/-- What was parsed on a source without a fault is parsed again on the printed words. -/
theorem parsePhrase_replays (source source' : List Char) (p : Phrase) (fr : Frame) (s u : Stream)
    (ns : List Node) (hs : s.Of source) (hl : Node.bareBodiesAll fr.left = [])
    (h : parsePhrase p fr s = .ok ns [] u) : Replay source source' p.demand (.call p) fr s ns u := by
  have go := parsePhrase_induct_barring
    (P := fun p fr s o => s.Of source → ∀ ns u, o = .ok ns [] u →
      (InnerSpec source p fr s ns u ∧ OuterSpec source p s ns u) ∧
      (Node.bareBodiesAll fr.left = [] → (p.isInner = true → Node.bareBodiesAll ns = []) ∧
        Replay source source' p.demand (.call p) fr s ns u) ∧
      (p.fades = true → s.peek.kind.endsList = true → ns = [] ∧ u = s) ∧
      (p = .bindings → u.peek.kind ≠ .comma)) ?_ ?_
  · exact ((go p fr s hs.proper hs ns u h).2.1 hl).2
  · intro p fr s _ ns u h
    simp at h
  · intro f forward eating barring hf p fr s _ hs ns u h
    have knows : KnowsAll source f :=
      ⟨⟨barring, fun p fr s ns t hs h => (hf p fr s hs.proper hs ns t h).1.1⟩, forward, eating,
        fun p fr s ns t hs h => (hf p fr s hs.proper hs ns t h).1.2⟩
    have replays : ReplaysAll source source' f :=
      { toKnowsAll := knows
        call := fun p fr s ns u hs hl _ h => (hf p fr s hs.proper hs ns u h).2.1 hl
        vanishes := fun p hp fr s ns u hs hend h => (hf p fr s hs.proper hs ns u h).2.2.1 hp hend
        stops := fun fr s ns u hs h => (hf .bindings fr s hs.proper hs ns u h).2.2.2 rfl }
    refine ⟨⟨rule_inner knows.toKnows p hs h, rule_outer knows p hs h⟩, fun hl => ?_,
      fun hp hend => rule_vanishes p hp fr s ns u hs hend h, ?_⟩
    · obtain ⟨hin, ws, hsay, hgo⟩ := rule_replays replays p fr s ns u hs hl trivial h
      refine ⟨hin, ws, hsay, fun rest hrest => ⟨(hgo rest hrest).1, fun fr' s' hs' hw hleft => ?_⟩⟩
      obtain ⟨ns', u', g, hreplay⟩ := (hgo rest hrest).2 fr' s' hs' hw hleft
      refine ⟨ns', u', ?_, hreplay⟩
      rw [gives_call, parsePhrase_eq_rule _ _ _ hs'.proper]
      exact g
    · rintro rfl
      exact bindings_stop replays hs h

end Grammar
end Scad
