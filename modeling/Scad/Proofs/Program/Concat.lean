import Scad.Proofs.Grammar.Followed
import Scad.Proofs.Program.Spacing
import Scad.Proofs.Token.Concat

/-!
# One text after another

A text without a fault that is followed by a line break and another text keeps its statements, and
the other text, malformed or not, has its own statements and faults as if it stood alone, only
further on.
-/

namespace Scad

open Grammar

/-! ## Moved trees -/

section

variable (bytes lines : Nat)

mutual

/-- The same tree, further on in the text. -/
def Node.moved : Node → Node
  | ⟨kind, region, role, missing, children⟩ =>
    ⟨kind, region.moved bytes lines, role, missing, Node.movedAll children⟩

def Node.movedAll : List Node → List Node
  | [] => []
  | n :: ns => n.moved :: Node.movedAll ns

end

theorem Node.movedAll_eq (ns : List Node) : movedAll bytes lines ns = ns.map (moved bytes lines) := by
  induction ns with
  | nil => rfl
  | cons n ns ih => rw [movedAll, ih, List.map_cons]

def Fault.moved (f : Fault) : Fault := { f with region := f.region.moved bytes lines }

/-- The same token further on, a token of two sources. -/
def Matching.moved (source source' : List Char) : Matching where
  token t t' := t' = t.moved bytes lines ∧ (t.kind ≠ .eof → t.Sound source ∧ t'.Sound source')
  position p p' := p' = p.moved bytes lines
  kind h := by rw [h.1]; rfl
  text h := by rw [h.1]; rfl
  start h := by rw [h.1]; rfl
  stop h := by rw [h.1]; rfl
  later := by
    rintro p p' q q' rfl rfl
    simp only [Position.moved, Nat.add_lt_add_iff_right]
    split <;> rfl

end

namespace Matching

variable {bytes lines : Nat} {source source' : List Char}

theorem eq_map_of_forall₂ {α β : Type} {f : α → β} {as : List α} {bs : List β}
    (h : List.Forall₂ (fun a b => b = f a) as bs) : bs = as.map f := by
  induction h with
  | nil => rfl
  | cons ha _ ih => rw [List.map_cons, ha, ih]

theorem region_moved {r r' : Region} (h : (moved bytes lines source source').region r r') :
    r' = r.moved bytes lines := by
  obtain ⟨start, stop⟩ := r
  obtain ⟨start', stop'⟩ := r'
  exact congrArg₂ Region.mk h.1 h.2

theorem node_moved {n n' : Node} (h : (moved bytes lines source source').node n n') :
    n' = n.moved bytes lines := by
  refine node.induct (P := fun n n' => n' = n.moved bytes lines) (fun f role t t' ht _ => ?_)
    (fun kind r r' role missing ns ns' hr _ _ _ ih => ?_) h
  · rw [ht.1]
    rfl
  · rw [Node.moved, Node.movedAll_eq, eq_map_of_forall₂ ih, region_moved hr]

theorem fault_moved {f f' : Fault} (h : (moved bytes lines source source').fault f f') :
    f' = f.moved bytes lines := by
  obtain ⟨cause, region⟩ := f
  obtain ⟨cause', region'⟩ := f'
  exact congrArg₂ Fault.mk h.1 (region_moved h.2)

theorem moved_sound (t t' : Token) (h : (moved bytes lines source source').token t t')
    (hne : t.kind ≠ .eof) : t.Sound source ∧ t'.Sound source' := h.2 hne

theorem forall₂_moved {ts : List Token} (h : ∀ t ∈ ts, t.Sound source)
    (h' : ∀ t ∈ ts, (t.moved bytes lines).Sound source') :
    List.Forall₂ (moved bytes lines source source').token ts (ts.map (Token.moved bytes lines)) := by
  induction ts with
  | nil => exact .nil
  | cons t ts ih =>
    refine .cons ⟨rfl, fun _ => ⟨h t (by simp), h' t (by simp)⟩⟩ (ih ?_ ?_)
    · exact fun t ht => h t (by simp [ht])
    · exact fun t ht => h' t (by simp [ht])

end Matching

/-! ## Frames -/

/-- A rule that gives one node over all that it passes begins a frame of its own. -/
theorem Rule.apply_frame (f : Phrases) (fr fr' : Frame) (s : Stream) :
    ∀ {r : Rule}, r.Single → r.apply f fr s = r.apply f fr' s := by
  intro r
  induction r with
  | leaf | refuse | fresh => intro _; rfl
  | look g ih => exact fun h => ih s.look (h s.look)
  | _ => exact fun h => absurd h (by simp [Single])

theorem Grammar.items_frame (fr fr' : Frame) (s : Stream) (hs : s.Proper) :
    parsePhrase .items fr s = parsePhrase .items fr' s := by
  induction hn : s.count using Nat.strongRecOn generalizing s with
  | ind n ih =>
    subst hn
    by_cases hne : s.ahead = []
    · rw [items_of_eof hs hne, items_of_eof hs hne]
    · have hstatement : parsePhrase .statement fr s = parsePhrase .statement fr' s := by
        rw [parsePhrase_eq_rule _ _ _ hs, parsePhrase_eq_rule _ _ _ hs]
        exact Rule.apply_frame _ _ _ _ statement_single
      have hstep : (Rule.recover (.call .statement)).apply parsePhrase fr s =
          (Rule.recover (.call .statement)).apply parsePhrase fr' s := by
        simp only [Rule.apply, hstatement]
      rw [items_of_token hs hne, items_of_token hs hne, Rule.apply, Rule.apply, hstep]
      cases ho : (Rule.recover (.call .statement)).apply parsePhrase fr' s with
      | failed _ _ _ => rfl
      | ok m fs v =>
        obtain ⟨run, hp⟩ := Rule.apply_passes parsePhrase_passes (.recover (.call .statement)) fr' s hs
        rw [ho] at hp
        have hc := Rule.count_lt_of_eats parsePhrase_passes parsePhrase_eating
          (.recover (.call .statement)) true fr' s m fs v hs ⟨rfl, rfl⟩
          (fun _ hk => hne ((Stream.peek_kind_eq_eof hs).1 hk)) ho
        have hrest := ih v.count hc v (hs.of_passes hp) rfl
        simp only [Rule.apply, hrest]

/-! ## Programs -/

namespace Program

/-- The items of a program are what its statements are read as, in any context. -/
theorem isItem_of_parse {source : List Char} {nodes : List Node} {t : Stream} {p : Program}
    (hparse : parsePhrase .items { start := {} } (.start (tokenize source)) = .ok nodes [] t)
    (h : Program.parse source = .ok p) : List.Forall₂ (Node.IsItem source) nodes p.items := by
  obtain ⟨is, hall, -⟩ := (parsePhrase_spec .items _ _ t nodes (Stream.start_of source) hparse).2
  obtain ⟨-, items, context, hrun, hp⟩ := parse_of_items hparse
  obtain rfl := Except.ok.inj (h.symm.trans hp)
  obtain ⟨context', hrun'⟩ := Node.isItems hall
    (.start (.ofRegion (Region.forward ⟨{}, (tokenize source).stop⟩)))
  obtain rfl := Except.ok.inj (Prod.mk.inj (hrun.symm.trans hrun')).1
  exact hall

/-- Statements that are read alike give items that are alike, whatever has been read before. -/
theorem items_alike {source source' : List Char} {nodes nodes' : List Node} {is is' : List Item}
    (like : List.Forall₂ (Node.Alike source source') nodes nodes')
    (h : List.Forall₂ (Node.IsItem source) nodes is)
    (h' : List.Forall₂ (Node.IsItem source') nodes' is') : List.Forall₂ Item.Alike is is' := by
  induction like generalizing is is' with
  | nil =>
    cases h
    cases h'
    exact .nil
  | cons hn _ ih =>
    cases h with
    | cons hi hrest =>
      cases h' with
      | cons hi' hrest' =>
        refine .cons ?_ (ih hrest hrest')
        obtain ⟨c, hc⟩ := hi.item (.start {})
        obtain ⟨c', hc'⟩ := hi'.item (.start {})
        obtain ⟨j, d, hj, halike, -⟩ := hn.item _ _ _ _ (Context.alike_start {} {}) hc
        obtain rfl := Except.ok.inj (Prod.mk.inj (hc'.symm.trans hj)).1
        exact halike

end Program

/-! ## Joined texts -/

section

variable {a b : List Char} {nodes : List Node} {t : Stream}

/-- The last token of a text without a fault ends a statement. -/
theorem Grammar.endsStatement_of_items
    (ha : parsePhrase .items { start := {} } (.start (tokenize a)) = .ok nodes [] t) (x : Token)
    (hx : (tokenize a).tokens.getLast? = some x) : x.kind.endsStatement = true := by
  have hs := (Stream.start_at a).proper
  obtain ⟨hnil, hend⟩ := items_ends _ _ hs ha
  obtain ⟨run, hp⟩ := parsePhrase_passes .items { start := {} } _ hs
  rw [ha, Outcome.stream_ok] at hp
  have hrun : (tokenize a).tokens = run := by
    have hahead := hp.ahead
    rwa [hnil, List.append_nil] at hahead
  rcases hend with hnone | ⟨y, hy, hends⟩
  · have hnone : (tokenize a).tokens = [] := hnone
    rw [hnone] at hx
    cases hx
  · rw [hp.last, ← hrun, hx] at hy
    obtain rfl := Option.some.inj hy
    exact hends

/-- The tokens of the second text are those behind the first one, moved. -/
theorem Matching.moved_start (bytes lines : Nat) {source' : List Char} {u : Stream} {eof : Token}
    (hu : u.Proper) (hnil : u.ahead = []) (heof : eof = (tokenize b).eof.moved bytes lines)
    (h : ∀ x ∈ (tokenize b).tokens, (x.moved bytes lines).Sound source') :
    (Matching.moved bytes lines b source').stream (.start (tokenize b))
      (u.followedBy ((tokenize b).tokens.map (Token.moved bytes lines)) eof) where
  ahead := by
    rw [Stream.followedBy, hnil]
    exact forall₂_moved (tokenize_sound b) h
  count := by
    have hcount : u.count = 0 := by rw [hu.count, hnil]; rfl
    simp [Stream.followedBy, Stream.start, hcount]
  eof := ⟨heof, fun h => absurd rfl h⟩
  last := by simp [Stream.start]

/-- A text is matched with itself, wherever else its tokens stand. -/
theorem Matching.moved_self {source' : List Char} (h : ∀ x ∈ (tokenize a).tokens, x.Sound source') :
    (Matching.moved 0 0 a source').stream (.start (tokenize a)) (.start (tokenize a)) where
  ahead := List.forall₂_same.2 fun x hx => ⟨rfl, fun _ => ⟨tokenize_sound a x hx, h x hx⟩⟩
  count := rfl
  eof := ⟨rfl, fun h => absurd rfl h⟩
  last := by simp [Stream.start]

/-- The statements and faults of a text without a fault and of a text behind it, in a source that
has the tokens of both. -/
theorem Grammar.items_joined {bytes lines : Nat} {source' : List Char} {nodes' : List Node}
    {fs' : List Fault} {t' : Stream}
    (ha : parsePhrase .items { start := {} } (.start (tokenize a)) = .ok nodes [] t)
    (hb : parsePhrase .items { start := {} } (.start (tokenize b)) = .ok nodes' fs' t')
    (hjoin : tokenize source' =
      ⟨(tokenize a).tokens ++ (tokenize b).tokens.map (Token.moved bytes lines),
        (tokenize b).stop.moved bytes lines⟩)
    (helse : ∀ t, (tokenize b).tokens.head? = some t → t.kind ≠ .kwElse) :
    ∃ moved faults u,
      parsePhrase .items { start := {} } (.start (tokenize source')) =
        .ok (nodes ++ moved) faults u ∧
      List.Forall₂ (Matching.moved 0 0 a source').node nodes nodes ∧
      List.Forall₂ (Matching.moved bytes lines b source').node nodes' moved ∧
      List.Forall₂ (Matching.moved bytes lines b source').fault fs' faults := by
  have hsa := (Stream.start_at a).proper
  have hsb := (Stream.start_at b).proper
  have hsound := tokenize_sound source'
  rw [hjoin] at hsound
  have hstart : Stream.start (tokenize source') =
      (Stream.start (tokenize a)).followedBy ((tokenize b).tokens.map (Token.moved bytes lines))
        ((tokenize b).eof.moved bytes lines) := by
    rw [hjoin]
    simp only [Stream.start, Stream.followedBy, List.length_append]
    rfl
  have hfirm : (Stream.start (tokenize a)).Firm := by
    intro x hx
    have hends := endsStatement_of_items ha x hx
    revert hends
    cases x.kind <;> decide
  have hmore : ∀ x ∈ (tokenize b).tokens.map (Token.moved bytes lines), x.kind ≠ .eof := by
    intro x hx
    obtain ⟨y, hy, rfl⟩ := List.mem_map.1 hx
    exact hsb.inside y hy
  have helse' : (((tokenize b).tokens.map (Token.moved bytes lines)).headD
      ((tokenize b).eof.moved bytes lines)).kind ≠ .kwElse := by
    cases hts : (tokenize b).tokens with
    | nil => exact (by decide : TokenKind.eof ≠ .kwElse)
    | cons x xs => exact helse x (by rw [hts]; rfl)
  obtain ⟨hnil, -⟩ := items_ends _ _ hsa ha
  obtain ⟨run, hp⟩ := parsePhrase_passes .items { start := {} } _ hsa
  rw [ha, Outcome.stream_ok] at hp
  have ht := hsa.of_passes hp
  -- the first text is matched with itself, the second one with what is behind the first
  have hself := parsePhrase_matched _ .items { start := {} } { start := {} } _ _ hsa ⟨rfl, .nil⟩
    (Matching.moved_self fun x hx => hsound x (by simp [hx])) (.inl rfl)
  have hmoved := parsePhrase_matched _ .items { start := {} }
    { start := Position.moved bytes lines {} } _ _ hsb ⟨rfl, .nil⟩
    (Matching.moved_start bytes lines ht hnil rfl fun x hx => hsound _ (by
      simpa using .inr ⟨x, hx, rfl⟩)) (.inl rfl)
  rw [ha] at hself
  rw [hb, items_frame _ { start := {} } _ (Stream.proper_followedBy ht rfl hmore)] at hmoved
  rw [hstart, items_followedBy rfl hmore helse' _ _ hsa hfirm ha]
  generalize parsePhrase .items { start := {} } _ = o at hmoved
  cases hself with
  | ok hnodes _ _ =>
    cases hmoved with
    | ok hns hfs _ => exact ⟨_, _, _, rfl, hnodes, hns, hfs⟩

end

/-- A text that is followed by a line break and another text keeps its statements, and those of the
other text are moved, as are its faults. If the other text is a program too, the items of both are
those of one program. -/
theorem SyntaxTree.ofSource_break {a b : List Char} (ha : (SyntaxTree.ofSource a).faults = [])
    (hc : endsInComment a = false)
    (helse : ∀ t, (tokenize b).tokens.head? = some t → t.kind ≠ .kwElse) :
    (SyntaxTree.ofSource (a ++ '\n' :: b)).root.children =
        (SyntaxTree.ofSource a).root.children ++
          (SyntaxTree.ofSource b).root.children.map
            (Node.moved (Text.byteSize a + 1) (a.count '\n' + 1)) ∧
      (SyntaxTree.ofSource (a ++ '\n' :: b)).faults =
        (SyntaxTree.ofSource b).faults.map
          (Fault.moved (Text.byteSize a + 1) (a.count '\n' + 1)) ∧
      ∀ p q, Program.parse a = .ok p → Program.parse b = .ok q →
        ∃ r, Program.parse (a ++ '\n' :: b) = .ok r ∧
          Item.agreeAll .ignored r.items (p.items ++ q.items) = true := by
  obtain ⟨nodes, fs, t, hparse, htree⟩ := SyntaxTree.ofSource_eq a
  obtain ⟨nodes', fs', t', hparse', htree'⟩ := SyntaxTree.ofSource_eq b
  obtain ⟨all, gs, u, hparse'', htree''⟩ := SyntaxTree.ofSource_eq (a ++ '\n' :: b)
  obtain rfl : fs = [] := by rwa [htree] at ha
  obtain ⟨-, -, -, herr, -⟩ := Program.parse_of_faultless ha
  have hjoin := tokenize_break b herr (fun x hx => by
    have hends := endsStatement_of_items hparse x hx
    revert hends
    cases x.kind <;> decide) hc
  obtain ⟨moved, faults, v, hall, hself, hns, hfs⟩ := items_joined hparse hparse' hjoin helse
  obtain ⟨rfl, rfl, rfl⟩ := Outcome.ok.inj (hparse''.symm.trans hall)
  have hmoved := Matching.eq_map_of_forall₂ (hns.imp fun _ _ h => Matching.node_moved h)
  have hfaults := Matching.eq_map_of_forall₂ (hfs.imp fun _ _ h => Matching.fault_moved h)
  rw [htree, htree', htree'']
  refine ⟨by rw [hmoved], hfaults, fun p q hp hq => ?_⟩
  have hb := Program.faultless_of_parse hq
  have herra := (SyntaxTree.faults_eq_nil_iff a).1 ha
  have herrb := (SyntaxTree.faults_eq_nil_iff b).1 hb
  rw [htree] at herra
  rw [htree'] at hb herrb
  obtain rfl : fs' = [] := hb
  obtain rfl : gs = [] := hfaults
  obtain ⟨r, hr⟩ := (Program.parse_ok_iff (a ++ '\n' :: b)).2 (by rw [htree''])
  have hitems := (Program.isItem_of_parse hall hr).flip
  refine ⟨r, hr, ?_⟩
  have hfront := Program.items_alike (Matching.forall₂_alike Matching.moved_sound hself herra)
    (Program.isItem_of_parse hparse hp) (List.forall₂_take_append _ _ _ hitems).flip
  have hback := Program.items_alike (Matching.forall₂_alike Matching.moved_sound hns herrb)
    (Program.isItem_of_parse hparse' hq) (List.forall₂_drop_append _ _ _ hitems).flip
  have hboth : List.Forall₂ Item.Alike (p.items ++ q.items)
      (r.items.take nodes.length ++ r.items.drop nodes.length) := List.rel_append hfront hback
  rw [List.take_append_drop] at hboth
  exact (Item.alike_all hboth).1

/-- A choice and a comment in front of a malformed text, and a path in front of a program. -/
theorem SyntaxTree.ofSource_break_comment :
    (SyntaxTree.ofSource ("if (a) cube(1); // else".toList ++ '\n' :: "x = ;".toList)).faults =
        [⟨.unexpectedToken ";" .expression, ⟨⟨28, 1, 4⟩, ⟨29, 1, 5⟩⟩⟩] ∧
      ∃ p q r, Program.parse "include <f>".toList = .ok p ∧ Program.parse "cube(1);".toList = .ok q ∧
        Program.parse ("include <f>".toList ++ '\n' :: "cube(1);".toList) = .ok r ∧
        Item.agreeAll .ignored r.items (p.items ++ q.items) = true := by
  obtain ⟨-, hfaults, -⟩ := @SyntaxTree.ofSource_break "if (a) cube(1); // else".toList
    "x = ;".toList (by decide +kernel) (by decide +kernel) (by decide +kernel)
  obtain ⟨-, -, hitems⟩ := @SyntaxTree.ofSource_break "include <f>".toList "cube(1);".toList
    (by decide +kernel) (by decide +kernel) (by decide +kernel)
  obtain ⟨p, hp⟩ := (Program.parse_ok_iff "include <f>".toList).2 (by decide +kernel)
  obtain ⟨q, hq⟩ := (Program.parse_ok_iff "cube(1);".toList).2 (by decide +kernel)
  obtain ⟨r, hr, hagree⟩ := hitems p q hp hq
  exact ⟨by rw [hfaults]; decide +kernel, p, q, r, hp, hq, hr, hagree⟩

end Scad
