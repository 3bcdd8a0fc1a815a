import Scad.Proofs.Program.Alike.Nodes
import Scad.Proofs.Program.Statements

/-!
# Parsing the printed words

What a rule did on a source it does again on the words that the source is printed as. It gives nodes
that are read alike, although commas are gone and braces have been added. The one thing that a rule
decides by is what is ahead, and there the printed words look the same as the source, or nearly so:
`Ahead.Near`. This module has one statement for each way to form a rule.
-/

namespace Scad

open Rule

/-! ## What is ahead -/

/-- The kind that is seen in place of another one, where a comma may have gone. -/
def TokenKind.Near (k k' : TokenKind) : Prop := k' = k ∨ k = .comma ∧ k'.endsList = true

theorem TokenKind.Near.eq {k k' : TokenKind} (h : k.Near k') (hk : k ≠ .comma) : k' = k :=
  h.resolve_right fun hc => hk hc.1

/-- A kind that no comma hides is seen in both places or in none. -/
theorem TokenKind.Near.eq_iff {k k' k₀ : TokenKind} (h : k.Near k') (hk : k₀.closes = false) :
    k' = k₀ ↔ k = k₀ := by
  obtain rfl | ⟨rfl, hend⟩ := h
  · exact Iff.rfl
  · constructor
    · rintro rfl
      revert hk hend
      cases k' <;> decide
    · rintro rfl
      cases hk

/-- The kinds of tokens that are printed wherever they stand. -/
def TokenKind.stays : TokenKind → Bool
  | .comma | .eof | .error => false
  | _ => true

theorem Token.kind_of_word {t t' : Token} (h : t'.word = t.word.respell) : t'.kind = t.kind := by
  have hk := congrArg Word.kind h
  rwa [Word.respell_kind] at hk

/-- What is seen in front of words. -/
def Ahead.ofWords (ws : List Word) : Ahead :=
  ⟨(ws.head?.map Word.kind).getD .eof, (ws.head?.map Word.text).getD "",
    (ws.tail.head?.map Word.kind).getD .eof⟩

/-- What is seen in place of `a`. Text and second kind count behind a name only. -/
structure Ahead.Near (a b : Ahead) : Prop where
  kind : a.kind.Near b.kind
  name : a.kind = .identifier ∨ a.kind = .special → b.text = a.text ∧ a.second.Near b.second

/-- All that counts behind a statement. -/
def Ahead.Open (a b : Ahead) : Prop := b.kind = .kwElse → a.kind = .kwElse

theorem Ahead.Near.open {a b : Ahead} (h : a.Near b) : a.Open b := (h.kind.eq_iff rfl).1

/-- The words ahead. -/
def Stream.words (s : Stream) : List Word := s.ahead.map Token.word

theorem Stream.words_cons {s : Stream} {w : Word} {ws : List Word} (h : s.words = w :: ws) :
    s.peek.word = w ∧ s.advance.words = ws := by
  obtain ⟨ahead, count, last, eof⟩ := s
  cases ahead with
  | nil => cases h
  | cons t ts => exact List.cons.inj h

theorem Stream.Proper.peek_kind {s : Stream} (hs : s.Proper) :
    s.peek.kind = (Ahead.ofWords s.words).kind := by
  obtain ⟨ahead, count, last, eof⟩ := s
  cases ahead with
  | nil => exact hs.eof
  | cons t ts => rfl

theorem Ahead.Near.look {a : Ahead} {s : Stream} (hs : s.Proper) (h : a.Near (.ofWords s.words)) :
    a.Near s.look := by
  obtain ⟨ahead, count, last, eof⟩ := s
  have heof : eof.kind = .eof := hs.eof
  cases ahead with
  | nil =>
    have hk : a.kind.Near .eof := h.kind
    refine ⟨?_, fun hn => ?_⟩
    · show a.kind.Near eof.kind
      rwa [heof]
    · have hne : a.kind ≠ .comma := by rcases hn with hn | hn <;> rw [hn] <;> decide
      have ha := hk.eq hne
      rcases hn with hn | hn <;> rw [hn] at ha <;> cases ha
  | cons t ts =>
    refine ⟨h.kind, fun hn => ⟨(h.name hn).1, ?_⟩⟩
    have hsecond := (h.name hn).2
    cases ts with
    | nil =>
      show a.second.Near eof.kind
      rwa [heof]
    | cons t' ts => exact hsecond

/-! ## Replaying -/

namespace Grammar

section

variable (source source' : List Char)

/-- What the rule did between two places of the source it does again in front of the words that were
said there, if what follows the words is close enough to what followed in the source. -/
def Replay (E : Ahead → Ahead → Prop) (r : Rule) (fr : Frame) (s : Stream) (ns : List Node)
    (u : Stream) : Prop :=
  ∃ ws, s.Says (Node.bareBodiesAll ns) u ws ∧ ∀ rest, E u.look (.ofWords rest) →
    s.look.Near (.ofWords (ws ++ rest)) ∧
    ∀ (fr' : Frame) (s' : Stream), s'.Of source' → s'.words = ws ++ rest →
      List.Forall₂ (Node.Alike source source') fr.left fr'.left →
      ∃ ns' u', Gives parsePhrase r fr' s' ns' u' ∧ u'.Of source' ∧ u'.words = rest ∧
        List.Forall₂ (Node.Alike source source') ns ns'

/-- All that the rule does on the source can be replayed, if what is known of the next token holds.
An inner rule gives no node with a body that needs braces. -/
def Replays (f : Phrases) (inner : Bool) (E : Ahead → Ahead → Prop) (known : TokenKind → Prop)
    (r : Rule) : Prop :=
  ∀ fr (s : Stream) ns u, s.Of source → Node.bareBodiesAll fr.left = [] → known s.peek.kind →
    Gives f r fr s ns u →
    (inner = true → Node.bareBodiesAll ns = []) ∧ Replay source source' E r fr s ns u

/-- Nothing is known. -/
def Unknown : TokenKind → Prop := fun _ => True

end

variable {source source' : List Char} {f : Phrases} {i : Bool} {E : Ahead → Ahead → Prop}
  {known : TokenKind → Prop} {r a b : Rule}

theorem Replays.mono {E' : Ahead → Ahead → Prop} (h : Replays source source' f i E known r)
    (hE : ∀ x y, E' x y → E x y) : Replays source source' f i E' known r := by
  intro fr s ns u hs hl hk hg
  obtain ⟨hin, ws, hsay, hgo⟩ := h fr s ns u hs hl hk hg
  exact ⟨hin, ws, hsay, fun rest hrest => hgo rest (hE _ _ hrest)⟩

theorem Replays.outer (h : Replays source source' f true E known r) :
    Replays source source' f i E known r := by
  intro fr s ns u hs hl hk hg
  exact ⟨fun _ => (h fr s ns u hs hl hk hg).1 rfl, (h fr s ns u hs hl hk hg).2⟩

theorem Replays.knowing (h : Replays source source' f i E Unknown r) :
    Replays source source' f i E known r :=
  fun fr s ns u hs hl _ hg => h fr s ns u hs hl trivial hg

/-! ## One rule after the other -/

theorem Replays.seq (ha : Replays source source' f i Ahead.Near known a)
    (hb : Replays source source' f i E Unknown b) :
    Replays source source' f i E known (seq a b) := by
  intro fr s ns u hs hl hk hg
  obtain ⟨m, v, n, h1, h2, rfl⟩ := gives_seq.1 hg
  obtain ⟨hin1, wa, hsay1, hgo1⟩ := ha fr s m v hs hl hk h1
  obtain ⟨hin2, wb, hsay2, hgo2⟩ := hb fr v n u (hsay1.of hs) hl trivial h2
  refine ⟨fun hi => by simp [hin1 hi, hin2 hi], wa ++ wb, ?_, fun rest hrest => ?_⟩
  · simpa using hsay1.trans hs hsay2
  · obtain ⟨hnear2, hreplay2⟩ := hgo2 rest hrest
    obtain ⟨hnear1, hreplay1⟩ := hgo1 (wb ++ rest) hnear2
    rw [List.append_assoc]
    refine ⟨hnear1, fun fr' s' hs' hw hleft => ?_⟩
    obtain ⟨m', v', g1, hv', hwv, like1⟩ := hreplay1 fr' s' hs' hw hleft
    obtain ⟨n', u', g2, hu', hwu, like2⟩ := hreplay2 fr' v' hv' hwv hleft
    exact ⟨m' ++ n', u', gives_seq.2 ⟨m', v', n', g1, g2, rfl⟩, hu', hwu,
      List.rel_append like1 like2⟩

/-- The second rule may rely on what the first one leaves ahead. -/
theorem Replays.feed_of (ha : Replays source source' f true Ahead.Near known a)
    (mid : TokenKind → Prop)
    (hmid : ∀ fr (s : Stream) ns u, s.Of source → Gives f a fr s ns u → mid u.peek.kind)
    (hb : Replays source source' f i E mid b) :
    Replays source source' f i E known (feed a b) := by
  intro fr s ns u hs hl hk hg
  obtain ⟨m, v, h1, h2⟩ := gives_feed.1 hg
  obtain ⟨hin1, wa, hsay1, hgo1⟩ := ha fr s m v hs hl hk h1
  obtain ⟨hin2, wb, hsay2, hgo2⟩ := hb _ v ns u (hsay1.of hs) (hin1 rfl) (hmid fr s m v hs h1) h2
  rw [hin1 rfl] at hsay1
  refine ⟨hin2, wa ++ wb, hsay1.trans hs hsay2, fun rest hrest => ?_⟩
  obtain ⟨hnear2, hreplay2⟩ := hgo2 rest hrest
  obtain ⟨hnear1, hreplay1⟩ := hgo1 (wb ++ rest) hnear2
  rw [List.append_assoc]
  refine ⟨hnear1, fun fr' s' hs' hw hleft => ?_⟩
  obtain ⟨m', v', g1, hv', hwv, like1⟩ := hreplay1 fr' s' hs' hw hleft
  obtain ⟨n', u', g2, hu', hwu, like2⟩ := hreplay2 { fr' with left := m' } v' hv' hwv like1
  exact ⟨n', u', gives_feed.2 ⟨m', v', g1, g2⟩, hu', hwu, like2⟩

theorem Replays.feed (ha : Replays source source' f true Ahead.Near known a)
    (hb : Replays source source' f i E Unknown b) :
    Replays source source' f i E known (.feed a b) :=
  ha.feed_of Unknown (fun _ _ _ _ _ _ => trivial) hb

theorem replays_done : Replays source source' f i Ahead.Near known done := by
  intro fr s ns u hs hl hk hg
  obtain ⟨rfl, rfl⟩ := gives_done.1 hg
  refine ⟨fun _ => rfl, [], .refl u, fun rest hrest => ⟨hrest, fun fr' s' hs' hw _ => ?_⟩⟩
  exact ⟨[], s', gives_done.2 ⟨rfl, rfl⟩, hs', hw, .nil⟩

theorem replays_keep : Replays source source' f i Ahead.Near known keep := by
  intro fr s ns u hs hl hk hg
  obtain ⟨rfl, rfl⟩ := gives_keep.1 hg
  refine ⟨fun _ => hl, [], ?_, fun rest hrest => ⟨hrest, fun fr' s' hs' hw hleft => ?_⟩⟩
  · rw [hl]
    exact .refl u
  · exact ⟨fr'.left, s', gives_keep.2 ⟨rfl, rfl⟩, hs', hw, hleft⟩

theorem replays_refuse (w : Wanted) : Replays source source' f i E known (refuse w) :=
  fun _ _ _ _ _ _ _ hg => absurd hg gives_refuse

theorem Replays.recover (ha : Replays source source' f i E known a) :
    Replays source source' f i E known (recover a) := by
  intro fr s ns u hs hl hk hg
  obtain ⟨hin, ws, hsay, hgo⟩ := ha fr s ns u hs hl hk (gives_recover.1 hg)
  refine ⟨hin, ws, hsay, fun rest hrest => ⟨(hgo rest hrest).1, fun fr' s' hs' hw hleft => ?_⟩⟩
  obtain ⟨ns', u', g, h⟩ := (hgo rest hrest).2 fr' s' hs' hw hleft
  exact ⟨ns', u', gives_recover.2 g, h⟩

/-! ## Nodes -/

theorem bareBodiesAll_inRole (ns : List Node) (r : Role) :
    Node.bareBodiesAll (ns.map (·.inRole r)) = Node.bareBodiesAll ns := by
  induction ns with
  | nil => rfl
  | cons n ns ih => simp [ih]

theorem Replays.as {role : Role} (ha : Replays source source' f i E known a)
    (hr : role.isSymbol = false) : Replays source source' f i E known (as role a) := by
  intro fr s ns u hs hl hk hg
  obtain ⟨m, h1, rfl⟩ := gives_as.1 hg
  obtain ⟨hin, ws, hsay, hgo⟩ := ha fr s m u hs hl hk h1
  rw [bareBodiesAll_inRole]
  refine ⟨hin, ws, by rwa [bareBodiesAll_inRole], fun rest hrest =>
    ⟨(hgo rest hrest).1, fun fr' s' hs' hw hleft => ?_⟩⟩
  obtain ⟨m', u', g, hu', hwu, like⟩ := (hgo rest hrest).2 fr' s' hs' hw hleft
  refine ⟨_, u', gives_as.2 ⟨m', g, rfl⟩, hu', hwu, ?_⟩
  exact List.forall₂_map_left_iff.2 (List.forall₂_map_right_iff.2
    (like.imp fun _ _ h => h.inRole hr))

theorem Replays.build {g : Form} (ha : Replays source source' f i E known a)
    (ht : g.isText = false) (hm : g ≠ .moduleItem) :
    Replays source source' f i E known (build g a) := by
  intro fr s ns u hs hl hk hg
  obtain ⟨m, h1, rfl⟩ := gives_build.1 hg
  obtain ⟨hin, ws, hsay, hgo⟩ := ha fr s m u hs hl hk h1
  have hbare : Node.bareBodiesAll
      [(⟨.form g, u.regionFrom fr.start, none, false, m⟩ : Node)] = Node.bareBodiesAll m := by
    simp [Node.bareBodies_form hm]
  rw [Replay, hbare]
  refine ⟨hin, ws, hsay, fun rest hrest => ⟨(hgo rest hrest).1, fun fr' s' hs' hw hleft => ?_⟩⟩
  obtain ⟨m', u', g1, hu', hwu, like⟩ := (hgo rest hrest).2 fr' s' hs' hw hleft
  exact ⟨_, u', gives_build.2 ⟨m', g1, rfl⟩, hu', hwu, .cons (Node.alike_form ht like) .nil⟩

theorem Replays.fresh (ha : Replays source source' f i E known a) :
    Replays source source' f i E known (fresh a) := by
  intro fr s ns u hs hl hk hg
  obtain ⟨hin, ws, hsay, hgo⟩ := ha _ s ns u hs rfl hk (gives_fresh.1 hg)
  refine ⟨hin, ws, hsay, fun rest hrest => ⟨(hgo rest hrest).1, fun fr' s' hs' hw _ => ?_⟩⟩
  obtain ⟨ns', u', g, h⟩ := (hgo rest hrest).2 { start := s'.position } s' hs' hw .nil
  exact ⟨ns', u', gives_fresh.2 g, h⟩

/-! ## Tokens -/

/-- Behind a name the kind of the next token counts, so the name must not be the last word. -/
def Firm (E : Ahead → Ahead → Prop) (k : TokenKind) : Prop :=
  k = .identifier ∨ k = .special → ∀ x y, E x y → Ahead.Near x y

/-- The next token is printed and is the next one there. -/
theorem token_replay (source' : List Char) {s : Stream} (hs : s.Of source) (hk : s.peek.kind.stays = true)
    (hE : Firm E s.peek.kind) :
    s.Says [] s.advance [s.peek.word.respell] ∧ ∀ rest, E s.advance.look (.ofWords rest) →
      s.look.Near (.ofWords ([s.peek.word.respell] ++ rest)) ∧
      ∀ s' : Stream, s'.Of source' → s'.words = [s.peek.word.respell] ++ rest →
        s'.peek.word = s.peek.word.respell ∧ s'.peek.Sound source' ∧ s'.advance.Of source' ∧
          s'.advance.words = rest := by
  have h1 : s.peek.kind ≠ .eof := by intro h; rw [h] at hk; cases hk
  have h2 : s.peek.kind ≠ .error := by intro h; rw [h] at hk; cases hk
  have h3 : s.peek.kind ≠ .comma := by intro h; rw [h] at hk; cases hk
  refine ⟨Stream.says_token hs.proper h1 h2 fun h => h3 h.1, fun rest hrest => ⟨?_, ?_⟩⟩
  · refine ⟨.inl (Word.respell_kind _), fun hn => ?_⟩
    have hnext := (hE hn _ _ hrest).kind
    have hsame : s.peek.word.respell = s.peek.word := by
      have hn : s.peek.kind = .identifier ∨ s.peek.kind = .special := hn
      refine Word.respell_of_kind ?_ ?_ <;> rcases hn with hn | hn <;> simp [Token.word, hn]
    rw [hsame, Stream.look_second hs.proper h1]
    exact ⟨rfl, hnext⟩
  · intro s' hs' hw
    obtain ⟨hword, hwords⟩ := Stream.words_cons hw
    have hne : s'.peek.kind ≠ .eof := by rwa [Token.kind_of_word hword]
    exact ⟨hword, hs'.peek_sound hne, hs'.passes (Stream.passes_peek hs'.proper hne), hwords⟩

theorem replays_take {k : TokenKind} (hk : k.stays = true) (hE : Firm E k) :
    Replays source source' f i E (· = k) take := by
  intro fr s ns u hs _ hknown hg
  obtain ⟨rfl, rfl⟩ := gives_take.1 hg
  obtain rfl := hknown
  obtain ⟨hsay, hgo⟩ := token_replay source' hs hk hE
  refine ⟨fun _ => rfl, _, hsay, fun rest hrest => ⟨(hgo rest hrest).1, fun fr' s' hs' hw _ => ?_⟩⟩
  obtain ⟨-, -, hof, hwords⟩ := (hgo rest hrest).2 s' hs' hw
  exact ⟨[], _, gives_take.2 ⟨rfl, rfl⟩, hof, hwords, .nil⟩

/-- A leaf, in the role that it is put in at once. -/
theorem leaf_replay (source' : List Char) {s : Stream} {g : Form} (role : Option Role)
    (hs : s.Of source)
    (hk : s.peek.kind.stays = true) (hE : Firm E s.peek.kind) (hg : g.Suits s.peek.kind)
    (hm : g ≠ .moduleItem)
    (hr : ∀ r, role = some r → r.isSymbol = true →
      s.peek.kind ≠ .number ∧ s.peek.kind ≠ .string) :
    Node.bareBodies ⟨.form g, s.peek.region, role, false, []⟩ = [] ∧
      ∃ ws, s.Says [] s.advance ws ∧ ∀ rest, E s.advance.look (.ofWords rest) →
        s.look.Near (.ofWords (ws ++ rest)) ∧
        ∀ s' : Stream, s'.Of source' → s'.words = ws ++ rest →
          s'.advance.Of source' ∧ s'.advance.words = rest ∧
          Node.Alike source source' ⟨.form g, s.peek.region, role, false, []⟩
            ⟨.form g, s'.peek.region, role, false, []⟩ := by
  have hne : s.peek.kind ≠ .eof := by intro h; rw [h] at hk; cases hk
  obtain ⟨hsay, hgo⟩ := token_replay source' hs hk hE
  refine ⟨Node.bareBodies_form hm _ _ _ _, _, hsay, fun rest hrest =>
    ⟨(hgo rest hrest).1, fun s' hs' hw => ?_⟩⟩
  obtain ⟨hword, hsound, hof, hwords⟩ := (hgo rest hrest).2 s' hs' hw
  exact ⟨hof, hwords, Node.alike_leaf (hs.peek_sound hne) hsound hword hg hr⟩

theorem replays_leaf {k : TokenKind} {g : Form} (hk : k.stays = true) (hE : Firm E k)
    (hg : g.Suits k) (hm : g ≠ .moduleItem) :
    Replays source source' f i E (· = k) (leaf g) := by
  intro fr s ns u hs _ hknown hgives
  obtain ⟨rfl, rfl⟩ := gives_leaf.1 hgives
  obtain rfl := hknown
  obtain ⟨hbare, ws, hsay, hgo⟩ :=
    leaf_replay source' none hs hk hE hg hm (by simp)
  refine ⟨fun _ => by simp [hbare], ws, by simpa [hbare] using hsay, fun rest hrest =>
    ⟨(hgo rest hrest).1, fun fr' s' hs' hw _ => ?_⟩⟩
  obtain ⟨hof, hwords, like⟩ := (hgo rest hrest).2 s' hs' hw
  exact ⟨_, _, gives_leaf.2 ⟨rfl, rfl⟩, hof, hwords, .cons like .nil⟩

theorem replays_symbol {k : TokenKind} {g : Form} {role : Role} (hk : k.stays = true)
    (hE : Firm E k) (hg : g.Suits k) (hm : g ≠ .moduleItem) (h1 : k ≠ .number) (h2 : k ≠ .string) :
    Replays source source' f i E (· = k) (as role (leaf g)) := by
  intro fr s ns u hs _ hknown hgives
  simp only [gives_as, gives_leaf] at hgives
  obtain ⟨_, ⟨rfl, rfl⟩, rfl⟩ := hgives
  obtain rfl := hknown
  obtain ⟨hbare, ws, hsay, hgo⟩ :=
    leaf_replay source' (some role) hs hk hE hg hm fun _ _ _ => ⟨h1, h2⟩
  have hbare : Node.bareBodiesAll
      ([(⟨.form g, s.peek.region, none, false, []⟩ : Node)].map (·.inRole role)) = [] := by
    simpa [Node.inRole] using hbare
  refine ⟨fun _ => hbare, ws, by rwa [hbare], fun rest hrest =>
    ⟨(hgo rest hrest).1, fun fr' s' hs' hw _ => ?_⟩⟩
  obtain ⟨hof, hwords, like⟩ := (hgo rest hrest).2 s' hs' hw
  exact ⟨_, _, gives_as.2 ⟨_, gives_leaf.2 ⟨rfl, rfl⟩, rfl⟩, hof, hwords, .cons like .nil⟩

theorem firm_of_isFixed {k : TokenKind} (hk : k.isFixed = true) : Firm E k := by
  rintro (rfl | rfl) <;> cases hk

theorem replays_expect {k : TokenKind} (hfix : k.isFixed = true) (hc : k ≠ .comma) :
    Replays source source' f i E known (expect k) := by
  intro fr s ns u hs hl _ hg
  obtain ⟨rfl, rfl, rfl⟩ := gives_expect.1 hg
  have hstays : s.peek.kind.stays = true := by
    revert hfix hc
    cases s.peek.kind <;> decide
  obtain ⟨hsay, hgo⟩ := token_replay source' hs hstays (firm_of_isFixed hfix)
  refine ⟨fun _ => rfl, _, hsay, fun rest hrest => ⟨(hgo rest hrest).1, fun fr' s' hs' hw _ => ?_⟩⟩
  obtain ⟨hword, -, hof, hwords⟩ := (hgo rest hrest).2 s' hs' hw
  exact ⟨[], _, gives_expect.2 ⟨Token.kind_of_word hword, rfl, rfl⟩, hof, hwords, .nil⟩

/-- Without a fault a closing mark is there. -/
theorem replays_closing {k : TokenKind} (hfix : k.isFixed = true) (hc : k ≠ .comma) :
    Replays source source' f i E known (closing k) := by
  intro fr s ns u hs hl hk hg
  have hexpect : Replays source source' f i E known (expect k) := replays_expect hfix hc
  obtain ⟨hin, ws, hsay, hgo⟩ := hexpect fr s ns u hs hl hk (gives_expect.2 (gives_closing.1 hg))
  refine ⟨hin, ws, hsay, fun rest hrest => ⟨(hgo rest hrest).1, fun fr' s' hs' hw hleft => ?_⟩⟩
  obtain ⟨ns', u', g, h⟩ := (hgo rest hrest).2 fr' s' hs' hw hleft
  exact ⟨ns', u', gives_closing.2 (gives_expect.1 g), h⟩

/-! ## Decisions -/

/-- A rule that decides alike wherever the words look nearly the same. Where it does not, the source
has a comma that the rule does not start with. -/
theorem Replays.look (barring : f.Barring) {g : Ahead → Rule}
    (hr : ∀ x, Replays source source' f i E (· = x.kind) (g x))
    (hg : ∀ x y, known x.kind → Ahead.Near x y →
      g y = g x ∨ x.kind = .comma ∧ (g x).Bars .comma) :
    Replays source source' f i E known (look g) := by
  intro fr s ns u hs hl hk h
  have h : Gives f (g s.look) fr s ns u := gives_look.1 h
  obtain ⟨hin, ws, hsay, hgo⟩ := hr s.look fr s ns u hs hl rfl h
  refine ⟨hin, ws, hsay, fun rest hrest => ⟨(hgo rest hrest).1, fun fr' s' hs' hw hleft => ?_⟩⟩
  obtain ⟨hnear, hreplay⟩ := hgo rest hrest
  rw [← hw] at hnear
  obtain hsame | ⟨hcomma, hbars⟩ := hg _ _ hk (hnear.look hs'.proper)
  · obtain ⟨ns', u', g1, h⟩ := hreplay fr' s' hs' hw hleft
    exact ⟨ns', u', gives_look.2 (by rwa [hsame]), h⟩
  · exact absurd h (not_gives_of_bars barring _ fr s ns u hs.proper (by simpa using hcomma) hbars)

/-- What stands to the left is kept in a role; the next token is still the same. -/
theorem Replays.keep_seq {role : Role} (hr : role.isSymbol = false)
    (hb : Replays source source' f i E known b) :
    Replays source source' f i E known (.seq (.as role .keep) b) := by
  intro fr s ns u hs hl hk hg
  simp only [gives_seq, gives_as, gives_keep] at hg
  obtain ⟨_, v, n, ⟨_, ⟨rfl, rfl⟩, rfl⟩, h2, rfl⟩ := hg
  obtain ⟨hin, ws, hsay, hgo⟩ := hb fr v n u hs hl hk h2
  have hbare : Node.bareBodiesAll (fr.left.map (·.inRole role) ++ n) = Node.bareBodiesAll n := by
    rw [Node.bareBodiesAll_append, bareBodiesAll_inRole, hl, List.nil_append]
  rw [Replay, hbare]
  refine ⟨hin, ws, hsay, fun rest hrest => ⟨(hgo rest hrest).1, fun fr' s' hs' hw hleft => ?_⟩⟩
  obtain ⟨n', u', g, hu', hwu, like⟩ := (hgo rest hrest).2 fr' s' hs' hw hleft
  refine ⟨_, u', gives_seq.2 ⟨_, s', n', gives_as.2 ⟨_, gives_keep.2 ⟨rfl, rfl⟩, rfl⟩, g, rfl⟩, hu',
    hwu, List.rel_append ?_ like⟩
  exact List.forall₂_map_left_iff.2 (List.forall₂_map_right_iff.2
    (hleft.imp fun _ _ h => h.inRole hr))

/-! ## Commas -/

/-- In front of a mark that ends a list the rule does nothing, or it fails. -/
def Vanishes (source : List Char) (f : Phrases) (r : Rule) : Prop :=
  ∀ fr (s : Stream) ns u, s.Of source → s.peek.kind.endsList = true → Gives f r fr s ns u →
    ns = [] ∧ u = s

/-- A comma and the rest of a list. A comma with nothing behind it is gone from the words. -/
theorem Replays.commaThen (hb : Replays source source' f i Ahead.Near Unknown b)
    (hv : Vanishes source f b) :
    Replays source source' f i Ahead.Near known
      (.look fun x => if x.kind = .comma then .seq .take b else .done) := by
  intro fr s ns u hs hl _ hg
  simp only [gives_look, Stream.look_kind] at hg
  by_cases hc : s.peek.kind = .comma
  · rw [if_pos hc] at hg
    simp only [gives_seq, gives_take] at hg
    obtain ⟨_, _, _, ⟨rfl, rfl⟩, h2, rfl⟩ := hg
    have hs1 := advance_of hs hc (by decide)
    have unnamed : ∀ {p : Prop}, s.look.kind = .identifier ∨ s.look.kind = .special → p := by
      intro p hn
      rw [Stream.look_kind, hc] at hn
      rcases hn with hn | hn <;> cases hn
    by_cases hend : s.advance.peek.kind.endsList = true
    · -- nothing is behind the comma, so that it goes
      obtain ⟨rfl, rfl⟩ := hv fr s.advance _ u hs1 hend h2
      refine ⟨fun _ => rfl, [], Stream.says_comma_dropped hs.proper hc hend, fun rest hrest => ?_⟩
      have hne : s.advance.look.kind ≠ .comma := by
        intro h
        rw [Stream.look_kind] at h
        rw [h] at hend
        cases hend
      have hkind : (Ahead.ofWords rest).kind = s.advance.look.kind := hrest.kind.eq hne
      refine ⟨⟨.inr ⟨by simpa using hc, by rw [List.nil_append, hkind]; exact hend⟩, unnamed⟩,
        fun fr' s' hs' hw _ => ⟨[], s', ?_, hs', hw, .nil⟩⟩
      have hkind' : s'.peek.kind ≠ .comma := by
        rw [hs'.proper.peek_kind, hw, List.nil_append, hkind]
        exact hne
      simp [hkind']
    · have hcomma := Stream.says_comma hs hc (by simpa using hend)
      obtain ⟨hin, ws, hsay, hgo⟩ := hb fr s.advance _ u hs1 hl trivial h2
      refine ⟨by simpa using hin, _, by simpa using hcomma.trans hs hsay, fun rest hrest => ?_⟩
      obtain ⟨hnear, hreplay⟩ := hgo rest hrest
      refine ⟨⟨.inl hc.symm, unnamed⟩, fun fr' s' hs' hw hleft => ?_⟩
      have hkind' : s'.peek.kind = .comma := by
        rw [hs'.proper.peek_kind, hw]
        rfl
      have hwords : s'.advance.words = ws ++ rest := (Stream.words_cons hw).2
      obtain ⟨n', u', g, h⟩ := hreplay fr' s'.advance (advance_of hs' hkind' (by decide)) hwords hleft
      refine ⟨n', u', ?_, h⟩
      simpa [hkind'] using g
  · rw [if_neg hc] at hg
    obtain ⟨rfl, rfl⟩ := gives_done.1 hg
    refine ⟨fun _ => rfl, [], .refl _, fun rest hrest => ⟨hrest, fun fr' s' hs' hw _ => ?_⟩⟩
    refine ⟨[], s', ?_, hs', hw, .nil⟩
    have hkind' : s'.peek.kind ≠ .comma := by
      rw [hs'.proper.peek_kind, hw, List.nil_append, hrest.kind.eq (by simpa using hc)]
      simpa using hc
    simp [hkind']

end Grammar
end Scad
