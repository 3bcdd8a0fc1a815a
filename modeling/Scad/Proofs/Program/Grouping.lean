import Scad.Proofs.Program.Grouped

/-!
# How operators group

Every expression of a parsed file is grouped: each phrase knows what may stand to its left and before
which tokens it stops, and so what it leaves to the next operator. Main statement:
`Program.operators_grouped`.
-/

namespace Scad

open Read Rule

/-! ## Rules -/

/-- The phrases that go on from what is to the left. -/
def Phrase.goesOn : Phrase → Bool
  | operators _ | suffixes => true
  | _ => false

/-- What may stand to the left of a phrase that goes on from it, if the phrase starts with a token of
this kind. -/
def Phrase.leftSpec : Phrase → TokenKind → Expr → Prop
  | operators l, k, e => k.extends = false ∧ e.AtLeast l ∧ e.Before k
  | suffixes, k, e => e.Plain ∧ (e.endsOpen = true → k.Stops)
  | _, _, _ => True

theorem Phrase.suffixes_of_closed {k : TokenKind} {e : Expr} (hplain : e.Plain)
    (hclosed : e.endsOpen = false) : suffixes.leftSpec k e :=
  ⟨hplain, fun hopen => absurd (hopen.symm.trans hclosed) (by decide)⟩

/-- What comes of a phrase that is followed by a token of this kind. -/
def Phrase.rightSpec : Phrase → TokenKind → Expr → Prop
  | expr l, k, e | operators l, k, e =>
    k.extends = false ∧ (∀ m, Level.ofToken? k = some m → m.rank < l.rank) ∧ e.AtLeast l ∧ e.Before k
  | unary, k, e => k.extends = false ∧ e.binaryOp? = none ∧ e.isTernary = false ∧ e.Before k
  | primary, k, e => e.Plain ∧ (e.endsOpen = true → k.Stops)
  | suffixes, k, e => k.extends = false ∧ e.Plain ∧ (e.endsOpen = true → k.Stops)
  | _, _, _ => True

/-- The phrases give nodes that are grouped and end as they should. -/
def Phrases.Grouping (source : List Char) (f : Phrases) : Prop :=
  ∀ p fr (s : Stream) ns t, s.Of source →
    (∀ n ∈ fr.left, n.Groups source ∧ n.ReadAs source (p.leftSpec s.peek.kind)) →
    f p fr s = .ok ns [] t →
    ∀ n ∈ ns, n.Groups source ∧ n.ReadAs source (p.rightSpec t.peek.kind)

namespace Rule

/-- No node that has operands is built, and nothing goes on from what is to the left. -/
@[simp]
def Simple : Rule → Prop
  | leaf g => g.hasOperands = false
  | seq a b | feed a b => a.Simple ∧ b.Simple
  | as _ a | fresh a | recover a => a.Simple
  | build g a => g.hasOperands = false ∧ a.Simple
  | look g => ∀ a, (g a).Simple
  | call p => p.goesOn = false
  | _ => True

variable {source : List Char} {f : Phrases}

theorem of_gives (hf : f.Forward) {r : Rule} {fr : Frame} {s t : Stream} {ns : List Node}
    (hs : s.Of source) (h : Gives f r fr s ns t) : t.Of source := by
  obtain ⟨run, hrun⟩ := apply_passes hf r fr s hs.proper
  rw [h] at hrun
  exact hs.passes hrun

theorem gives_groups (hf : f.Forward) (hg : f.Grouping source) :
    ∀ (r : Rule) (fr : Frame) (s t : Stream) (ns : List Node), r.Simple → s.Of source →
      (∀ n ∈ fr.left, n.Groups source) → Gives f r fr s ns t → ∀ n ∈ ns, n.Groups source := by
  intro r
  induction r with
  | done | take | expect k | closing k =>
    intro fr s t ns _ _ _ h
    obtain rfl : ns = [] := by
      simp only [gives_done, gives_take, gives_expect, gives_closing] at h
      tauto
    simp
  | keep =>
    intro fr s t ns _ _ hl h
    obtain ⟨rfl, -⟩ := gives_keep.1 h
    exact hl
  | leaf g =>
    intro fr s t ns hr _ _ h
    obtain ⟨rfl, -⟩ := gives_leaf.1 h
    simpa using Node.groups_of_form hr (by simp)
  | refuse w => intro fr s t ns _ _ _ h; exact absurd h gives_refuse
  | seq a b iha ihb =>
    intro fr s t ns hr hs hl h
    obtain ⟨x, u, y, ha, hb, rfl⟩ := gives_seq.1 h
    exact List.forall_mem_append.2
      ⟨iha fr s u x hr.1 hs hl ha, ihb fr u t y hr.2 (of_gives hf hs ha) hl hb⟩
  | feed a b iha ihb =>
    intro fr s t ns hr hs hl h
    obtain ⟨x, u, ha, hb⟩ := gives_feed.1 h
    have hx := iha fr s u x hr.1 hs hl ha
    exact ihb { fr with left := x } u t ns hr.2 (of_gives hf hs ha) hx hb
  | as role a iha =>
    intro fr s t ns hr hs hl h
    obtain ⟨x, ha, rfl⟩ := gives_as.1 h
    exact List.forall_mem_map.2 fun n hn => (iha fr s t x hr hs hl ha n hn).inRole role
  | build g a iha =>
    intro fr s t ns hr hs hl h
    obtain ⟨x, ha, rfl⟩ := gives_build.1 h
    simpa using Node.groups_of_form hr.1 (iha fr s t x hr.2 hs hl ha)
  | fresh a iha =>
    intro fr s t ns hr hs _ h
    exact iha _ s t ns hr hs (by simp) h
  | look g ih =>
    intro fr s t ns hr hs hl h
    exact ih s.look fr s t ns (hr _) hs hl h
  | call p =>
    intro fr s t ns hr hs hl h n hn
    refine (hg p fr s ns t hs (fun m hm => ⟨hl m hm, ?_⟩) h n hn).1
    cases p <;> first | exact all_true _ | cases hr
  | recover a iha =>
    intro fr s t ns hr hs hl h
    exact iha fr s t ns hr hs hl (gives_recover.1 h)

/-- All nodes are of forms that enclose what is in them. -/
@[simp]
def Encloses : Rule → Prop
  | leaf g | build g _ => g.encloses = true
  | seq a b => a.Encloses ∧ b.Encloses
  | feed _ b => b.Encloses
  | fresh a => a.Encloses
  | look g => ∀ a, (g a).Encloses
  | keep | as _ _ | call _ | recover _ => False
  | _ => True

theorem readAs_of_encloses {r : Rule} {fr : Frame} {s t : Stream} {ns : List Node}
    (hr : r.Encloses) (h : Gives f r fr s ns t) :
    ∀ n ∈ ns, n.ReadAs source fun e => e.Plain ∧ e.endsOpen = false := by
  have hform : ∀ {g : Form} {region : Region} {children : List Node}, g.encloses = true →
      Node.ReadAs source (fun e => e.Plain ∧ e.endsOpen = false)
        ⟨.form g, region, none, false, children⟩ := by
    intro g region children hg
    have hparts : g.hasOperands = false ∧ g.opens = false := by
      revert hg
      cases g <;> decide
    refine Node.readAs_form.2 ((Shape.all_operand rfl hparts.1 (K := False) ?_).imp ?_)
    · rw [hparts.2]
      exact nofun
    · rintro e ⟨-, hplain, hclosed⟩
      exact ⟨hplain, by simpa using hclosed (.inr hg)⟩
  induction r generalizing fr s t ns with
  | done | take | expect k | closing k =>
    obtain rfl : ns = [] := by
      simp only [gives_done, gives_take, gives_expect, gives_closing] at h
      tauto
    simp
  | keep | as _ _ _ | call _ | recover _ _ => cases hr
  | leaf g =>
    obtain ⟨rfl, -⟩ := gives_leaf.1 h
    simpa using hform hr
  | refuse w => exact absurd h gives_refuse
  | seq a b iha ihb =>
    obtain ⟨x, u, y, ha, hb, rfl⟩ := gives_seq.1 h
    exact List.forall_mem_append.2 ⟨iha hr.1 ha, ihb hr.2 hb⟩
  | feed a b _ ihb =>
    obtain ⟨x, u, -, hb⟩ := gives_feed.1 h
    exact ihb hr hb
  | build g a _ =>
    obtain ⟨x, -, rfl⟩ := gives_build.1 h
    simpa using hform hr
  | fresh a iha => exact iha hr h
  | look g ih => exact ih s.look (hr _) h

end Rule

/-! ## The table -/

namespace Grammar

variable {source : List Char} {f : Phrases} {fr : Frame} {s t : Stream} {ns : List Node}

theorem simple_ite {p : Prop} [Decidable p] {a b : Rule} :
    (if p then a else b).Simple ↔ if p then a.Simple else b.Simple := by
  split <;> rfl

theorem expression_simple : expression.Simple := rfl

theorem argumentList_simple : argumentList.Simple := by
  simp only [argumentList, node, all, Simple]
  refine ⟨trivial, ⟨rfl, fun a => ?_⟩, trivial⟩
  split <;> trivial

theorem bindingList_simple : bindingList.Simple :=
  ⟨trivial, ⟨rfl, rfl⟩, trivial⟩

theorem parameterList_simple : parameterList.Simple :=
  ⟨trivial, ⟨rfl, rfl⟩, trivial⟩

theorem callTail_simple : callTail.Simple := by
  intro a
  dsimp only
  split <;> trivial

theorem statement_simple : statement.Simple := by
  rintro ⟨k, x, k2⟩
  cases k with
  | identifier =>
    show (namedStatement _).Simple
    unfold namedStatement
    split
    · split_ifs <;> simp [node, all, boundStatement, assertStatement, moduleCall,
        bindingList_simple, argumentList_simple, callTail_simple, Form.hasOperands, Phrase.goesOn]
    · simp [node, all, declaration, expression_simple, Form.hasOperands]
    · simp [node, all, moduleCall, argumentList_simple, callTail_simple, Form.hasOperands]
  | _ =>
    simp [node, all, moduleItem, functionItem, boundStatement, ifStatement, fileStatement,
      unionBlock, declaration, expression_simple, bindingList_simple, parameterList_simple,
      simple_ite, Form.hasOperands, Phrase.goesOn]

theorem named_simple {g : Form → Rule} {w : Wanted}
    (h : (g .identifier).Simple ∧ (g .specialVariable).Simple) :
    (named g w).Simple := by
  rintro ⟨k, x, k2⟩
  cases k <;> simp [h.1, h.2]

theorem primary_simple : primary.Simple := by
  rintro ⟨k, x, k2⟩
  cases k with
  | identifier =>
    dsimp only
    split_ifs <;> simp [node, all, guardExpression, expression_simple, argumentList_simple,
      simple_ite, Form.hasOperands]
  | lbracket =>
    refine ⟨trivial, fun a => ?_⟩
    dsimp only
    split <;> simp [all, rangeBounds, expression_simple, simple_ite, Form.hasOperands, Phrase.goesOn]
  | _ =>
    simp [node, all, expression_simple, bindingList_simple, parameterList_simple, Form.hasOperands]

theorem element_simple : element.Simple := by
  rintro ⟨k, x, k2⟩
  cases k <;> simp [node, all, expression_simple, loopHead, assignments, simple_ite,
    bindingList_simple, Form.hasOperands, Phrase.goesOn]

/-- The rules that build no node with operands. -/
theorem rule_simple {p : Phrase} (hp : p.goesOn = false) (hexpr : ∀ l, p ≠ .expr l)
    (hunary : p ≠ .unary) : (rule p).Simple := by
  cases p with
  | items | blockItems =>
    rintro ⟨k, x, k2⟩
    cases k <;> simp [Phrase.goesOn]
  | statement => exact statement_simple
  | body =>
    intro a
    dsimp only
    split <;> trivial
  | arguments =>
    refine ⟨fun a => ?_, fun a => ?_⟩
    · dsimp only
      split <;> simp [node, all, namedArgument, expression_simple, Form.hasOperands]
    · simp [simple_ite, Phrase.goesOn]
  | bindings =>
    intro a
    dsimp only
    split
    case h_4 =>
      refine ⟨named_simple ?_, fun a => ?_⟩
      · simp [node, all, binding, expression_simple, Form.hasOperands]
      · simp [simple_ite, Phrase.goesOn]
    all_goals trivial
  | parameters =>
    intro a
    dsimp only
    split
    case h_3 =>
      refine ⟨named_simple ?_, fun a => ?_⟩
      · simp [node, all, parameter, expression_simple, simple_ite, Form.hasOperands]
      · simp [simple_ite, Phrase.goesOn]
    all_goals trivial
  | element => exact element_simple
  | elements => simp [rule, elements, simple_ite, Phrase.goesOn]
  | primary => exact primary_simple
  | expr l => exact absurd rfl (hexpr l)
  | unary => exact absurd rfl hunary
  | operators | suffixes => cases hp

/-! ### Operands -/

/-- Behind an expression there is nothing that would go on with it. -/
theorem stops_of_expression (hg : f.Grouping source) (hs : s.Of source) (hleft : fr.left = [])
    (h : Gives f expression fr s ns t) :
    ∀ n ∈ ns, n.ReadAs source fun _ => t.peek.kind.Stops := by
  intro n hn
  have hright := (hg (.expr .ternary) fr s ns t hs (by simp [hleft]) h n hn).2
  refine hright.imp fun e ⟨hext, hlevel, _⟩ => ⟨hext, ?_⟩
  by_contra hsome
  obtain ⟨m, hm⟩ := Option.ne_none_iff_exists'.1 hsome
  have hlt := hlevel m hm
  revert hlt
  cases m <;> decide

theorem parens_inRole {r : Role} {a : Rule}
    (h : Gives f (all [expect .lparen, as r a, closing .rparen]) fr s ns t) :
    ∃ ms : List Node, ns = ms.map (·.inRole r) := by
  simp only [all, gives_seq, gives_expect, gives_as, gives_closing] at h
  obtain ⟨_, _, _, ⟨-, rfl, -⟩, ⟨_, _, _, ⟨ms, -, rfl⟩, ⟨-, rfl, -⟩, rfl⟩, rfl⟩ := h
  exact ⟨ms, by simp⟩

/-- A keyword, a list in parentheses and a body, which stops where the whole stops. -/
theorem opening_reads (hf : f.Forward) (hs : s.Of source) {g : Form} {r : Role} {a b : Rule}
    (hopens : g.opens = true) (hr : r ≠ .body)
    (hb : ∀ fr u ms, fr.left = [] → u.Of source → Gives f b fr u ms t →
      Node.Reads source .body (fun _ => t.peek.kind.Stops) ms)
    (h : Gives f (node g [take, all [expect .lparen, as r a, closing .rparen], b]) fr s ns t) :
    ∀ n ∈ ns, n.ReadAs source (Phrase.primary.rightSpec t.peek.kind) := by
  obtain ⟨children, hchildren, rfl⟩ := gives_build.1 (gives_fresh.1 h)
  obtain ⟨_, u, _, htake, hrest, rfl⟩ := gives_seq.1 hchildren
  obtain ⟨ms, v, bs, hms, hbs, rfl⟩ := gives_seq.1 hrest
  obtain ⟨rfl, -⟩ := gives_take.1 htake
  have hv := of_gives hf (of_gives hf hs htake) hms
  obtain ⟨ms, rfl⟩ := parens_inRole hms
  have hbody : Node.Reads source .body (fun _ => t.peek.kind.Stops)
      ([] ++ (ms.map (·.inRole r) ++ bs)) :=
    Node.reads_append.2 ⟨by simp [Node.Reads],
      Node.reads_append.2 ⟨Node.reads_of_ne hr, hb _ v bs rfl hv hbs⟩⟩
  have hoperands : g.hasOperands = false := by
    revert hopens
    cases g <;> decide
  intro n hn
  obtain rfl := List.mem_singleton.1 hn
  refine Node.readAs_form.2 ((Shape.all_operand rfl hoperands fun _ => hbody.readings).imp ?_)
  rintro e ⟨-, hplain, hopen⟩
  exact ⟨hplain, hopen (.inl hopens)⟩

theorem body_stops (hg : f.Grouping source) {u : Stream} {ms : List Node} (hleft : fr.left = [])
    (hu : u.Of source) (h : Gives f (as .body expression) fr u ms t) :
    Node.Reads source .body (fun _ => t.peek.kind.Stops) ms := by
  obtain ⟨bs, hbs, rfl⟩ := gives_as.1 h
  exact Node.reads_inRole (stops_of_expression hg hu hleft hbs)

theorem listOrRange_encloses : listOrRange.Encloses := by
  refine ⟨trivial, fun a => ?_⟩
  dsimp only
  split
  case h_6 =>
    intro a
    dsimp only
    split <;> rfl
  all_goals rfl

theorem guard_reads (hf : f.Forward) (hg : f.Grouping source) (hs : s.Of source) {g : Form}
    (hopens : g.opens = true) (h : Gives f (guardExpression g) fr s ns t) :
    ∀ n ∈ ns, n.ReadAs source (Phrase.primary.rightSpec t.peek.kind) := by
  refine opening_reads hf hs hopens (r := .arguments) (by decide) (fun fr u ms hleft hu hb => ?_) h
  obtain ⟨-, hb⟩ | ⟨-, hb⟩ := gives_ite.1 (gives_look.1 hb)
  · exact body_stops hg hleft hu hb
  · obtain ⟨rfl, -⟩ := gives_done.1 hb
    exact nofun

theorem primary_reads (hf : f.Forward) (hg : f.Grouping source) (hs : s.Of source)
    (h : Gives f primary fr s ns t) :
    ∀ n ∈ ns, n.ReadAs source (Phrase.primary.rightSpec t.peek.kind) := by
  have enclosed : ∀ {r : Rule}, Gives f r fr s ns t → r.Encloses →
      ∀ n ∈ ns, n.ReadAs source (Phrase.primary.rightSpec t.peek.kind) := by
    intro r h hr n hn
    exact (readAs_of_encloses hr h n hn).imp fun e he => Phrase.suffixes_of_closed he.1 he.2
  simp only [primary, gives_look] at h
  split at h
  · exact enclosed h rfl
  · exact enclosed h rfl
  · exact enclosed h rfl
  · exact enclosed h rfl
  · exact enclosed h rfl
  · exact enclosed h rfl
  · obtain ⟨-, h⟩ | ⟨-, h⟩ := gives_ite.1 h
    · exact guard_reads hf hg hs rfl h
    · obtain ⟨-, h⟩ | ⟨-, h⟩ := gives_ite.1 h
      · exact guard_reads hf hg hs rfl h
      · exact enclosed h rfl
  · exact enclosed h listOrRange_encloses
  · exact enclosed h rfl
  · exact opening_reads hf hs rfl (r := .bindings) (by decide)
      (fun fr u ms hleft hu hb => body_stops hg hleft hu hb) h
  · exact opening_reads hf hs rfl (r := .parameters) (by decide)
      (fun fr u ms hleft hu hb => body_stops hg hleft hu hb) h
  · exact absurd h gives_refuse

/-! ### Suffixes and operators -/

/-- A node with operands is grouped if it is read so. -/
theorem build_groups (hf : f.Forward) (hg : f.Grouping source) (hs : s.Of source)
    (hleft : ∀ n ∈ fr.left, n.Groups source) {g : Form} {a : Rule} {Q : Expr → Prop}
    (h : Gives f (build g a) fr s ns t) (ha : a.Simple)
    (hread : ∀ region children, Gives f a fr s children t → All (fun e => e.Grouped ∧ Q e)
      (Shape.asExpr ⟨source, .form g, region, children.map (Node.reading source)⟩)) :
    ∀ n ∈ ns, n.Groups source ∧ n.ReadAs source Q := by
  obtain ⟨children, hchildren, rfl⟩ := gives_build.1 h
  have hnode := Node.readAs_form.2 (hread (t.regionFrom fr.start).forward children hchildren)
  intro n hn
  obtain rfl := List.mem_singleton.1 hn
  refine ⟨.mk (hnode.imp fun _ he => he.1) ?_, hnode.imp fun _ he => he.2⟩
  exact gives_groups hf hg a fr s t children ha hs hleft hchildren

/-- One more node over what is to the left, and what goes on from it. -/
theorem grow_groups (hf : f.Forward) (hg : f.Grouping source) (hs : s.Of source)
    (hleft : ∀ n ∈ fr.left, n.Groups source) {p : Phrase} {g : Form} {a : Rule}
    (h : Gives f (feed (build g a) (call p)) fr s ns t) (ha : a.Simple)
    (hread : ∀ region children u, Gives f a fr s children u →
      All (fun e => e.Grouped ∧ p.leftSpec u.peek.kind e)
        (Shape.asExpr ⟨source, .form g, region, children.map (Node.reading source)⟩)) :
    ∀ n ∈ ns, n.Groups source ∧ n.ReadAs source (p.rightSpec t.peek.kind) := by
  obtain ⟨ms, u, hbuild, hrest⟩ := gives_feed.1 h
  refine hg p _ u ns t (of_gives hf hs hbuild) ?_ hrest
  exact build_groups hf hg hs hleft hbuild ha fun region children hc => hread region children u hc

theorem suffixes_groups (hf : f.Forward) (hg : f.Grouping source) (hs : s.Of source)
    (hleft : ∀ n ∈ fr.left, n.Groups source ∧
      n.ReadAs source (Phrase.suffixes.leftSpec s.peek.kind))
    (h : Gives f suffixes fr s ns t) :
    ∀ n ∈ ns, n.Groups source ∧ n.ReadAs source (Phrase.suffixes.rightSpec t.peek.kind) := by
  have hgroups := fun n hn => (hleft n hn).1
  -- A suffix follows only what is not open at its end.
  have hbase : s.peek.kind.extends = true → ∀ n ∈ fr.left,
      n.ReadAs source fun e => e.Plain ∧ e.endsOpen = false := by
    intro hk n hn
    refine (hleft n hn).2.imp ?_
    rintro e ⟨hplain, hstops⟩
    refine ⟨hplain, ?_⟩
    by_contra ho
    rw [(hstops (by simpa using ho)).1] at hk
    cases hk
  simp only [suffixes, gives_look, Stream.look_kind] at h
  split at h
  · rename_i hk
    refine grow_groups hf hg hs hgroups h ⟨trivial, argumentList_simple⟩ ?_
    intro region children u hchildren
    simp only [gives_seq, gives_as, gives_keep] at hchildren
    obtain ⟨_, _, _, ⟨_, ⟨rfl, rfl⟩, rfl⟩, hargs, rfl⟩ := hchildren
    obtain ⟨ms, rfl⟩ := parens_inRole hargs
    refine (Node.all_call (Node.reads_append.2 ⟨Node.reads_inRole (hbase (by rw [hk]; rfl)),
      Node.reads_of_ne (by decide)⟩)).imp ?_
    rintro e ⟨a, as, span, rfl, hbase⟩
    exact ⟨hbase, Phrase.suffixes_of_closed ⟨rfl, rfl, rfl⟩ rfl⟩
  · rename_i hk
    refine grow_groups hf hg hs hgroups h ⟨trivial, trivial, expression_simple, trivial⟩ ?_
    intro region children u hchildren
    simp only [all, gives_seq, gives_as, gives_keep, gives_take, gives_closing] at hchildren
    obtain ⟨_, _, _, ⟨_, ⟨rfl, rfl⟩, rfl⟩, ⟨_, _, _, ⟨rfl, rfl⟩, ⟨_, _, _, ⟨ms, -, rfl⟩,
      ⟨-, rfl, rfl⟩, rfl⟩, rfl⟩, rfl⟩ := hchildren
    rw [List.nil_append, List.append_nil]
    refine (Node.all_index (Node.reads_append.2 ⟨Node.reads_inRole (hbase (by rw [hk]; rfl)),
      Node.reads_of_ne (by decide)⟩)).imp ?_
    rintro e ⟨a, b, span, rfl, hbase⟩
    exact ⟨hbase, Phrase.suffixes_of_closed ⟨rfl, rfl, rfl⟩ rfl⟩
  · rename_i hk
    refine grow_groups hf hg hs hgroups h ⟨trivial, trivial, fun a => ?_⟩ ?_
    · dsimp only
      split <;> trivial
    intro region children u hchildren
    simp only [all, gives_seq, gives_as, gives_keep, gives_take, gives_look, gives_ite,
      gives_refuse, and_false, or_false] at hchildren
    obtain ⟨_, _, _, ⟨_, ⟨rfl, rfl⟩, rfl⟩, ⟨_, _, _, ⟨rfl, rfl⟩, ⟨-, ms, -, rfl⟩, rfl⟩, rfl⟩ :=
      hchildren
    rw [List.nil_append]
    refine (Node.all_member (Node.reads_append.2 ⟨Node.reads_inRole (hbase (by rw [hk]; rfl)),
      Node.reads_of_ne (by decide)⟩)).imp ?_
    rintro e ⟨a, x, span, rfl, hbase⟩
    exact ⟨hbase, Phrase.suffixes_of_closed ⟨rfl, rfl, rfl⟩ rfl⟩
  · rename_i h1 h2 h3
    obtain ⟨rfl, rfl⟩ := gives_keep.1 h
    have hext : t.peek.kind.extends = false := by
      revert h1 h2 h3
      cases t.peek.kind <;> simp [TokenKind.extends]
    exact fun n hn => ⟨(hleft n hn).1, (hleft n hn).2.imp fun e he => ⟨hext, he⟩⟩

/-- What comes of operators that are over: what is to the left. -/
theorem operators_over {l : Level} (h : ∀ m, Level.ofToken? s.peek.kind = some m → m.rank < l.rank)
    {n : Node} (hn : n.Groups source ∧ n.ReadAs source ((Phrase.operators l).leftSpec s.peek.kind)) :
    n.Groups source ∧ n.ReadAs source ((Phrase.operators l).rightSpec s.peek.kind) := by
  refine ⟨hn.1, hn.2.imp ?_⟩
  rintro e ⟨hext, hatLeast, hbefore⟩
  exact ⟨hext, h, hatLeast, hbefore⟩

theorem ternary_groups (hf : f.Forward) (hg : f.Grouping source) (hs : s.Of source) {l : Level}
    (hleft : ∀ n ∈ fr.left, n.Groups source ∧
      n.ReadAs source ((Phrase.operators l).leftSpec s.peek.kind))
    (hk : Level.ofToken? s.peek.kind = some .ternary) (hl : ¬ Level.ternary.rank < l.rank)
    (h : Gives f (feed (build .ternaryExpression
      (all [as .condition keep, take, as .consequence expression, expect .colon,
        as .alternative expression])) (call (.operators l))) fr s ns t) :
    ∀ n ∈ ns, n.Groups source ∧ n.ReadAs source ((Phrase.operators l).rightSpec t.peek.kind) := by
  have hgroups := fun n hn => (hleft n hn).1
  refine grow_groups hf hg hs hgroups h
    ⟨trivial, trivial, expression_simple, trivial, expression_simple⟩ ?_
  intro region children u hchildren
  obtain ⟨_, s₁, _, h₁, hrest₁, rfl⟩ := gives_seq.1 hchildren
  obtain ⟨_, s₂, _, h₂, hrest₂, rfl⟩ := gives_seq.1 hrest₁
  obtain ⟨_, s₃, _, h₃, hrest₃, rfl⟩ := gives_seq.1 hrest₂
  obtain ⟨_, s₄, _, h₄, h₅, rfl⟩ := gives_seq.1 hrest₃
  have hs₄ := of_gives hf (of_gives hf (of_gives hf (of_gives hf hs h₁) h₂) h₃) h₄
  obtain ⟨_, hkeep, rfl⟩ := gives_as.1 h₁
  obtain ⟨rfl, -⟩ := gives_keep.1 hkeep
  obtain ⟨rfl, -⟩ := gives_take.1 h₂
  obtain ⟨as, -, rfl⟩ := gives_as.1 h₃
  obtain ⟨-, rfl, -⟩ := gives_expect.1 h₄
  obtain ⟨bs, hbs, rfl⟩ := gives_as.1 h₅
  have hcond : ∀ n ∈ fr.left, n.ReadAs source (Expr.LeftOf .ternary) :=
    fun n hn => (hleft n hn).2.imp fun e he => he.2.2 _ hk
  have hno := fun n hn => (hg (.expr .ternary) fr s₄ bs u hs₄
    (fun m hm => ⟨hgroups m hm, all_true _⟩) hbs n hn).2
  rw [List.nil_append, List.nil_append]
  refine (Node.all_ternary (A := Expr.LeftOf .ternary)
    (B := (Phrase.expr .ternary).rightSpec u.peek.kind) ?_ ?_).imp ?_
  · exact Node.reads_append.2 ⟨Node.reads_inRole hcond, Node.reads_append.2
      ⟨Node.reads_of_ne (by decide), Node.reads_of_ne (by decide)⟩⟩
  · exact Node.reads_append.2 ⟨Node.reads_of_ne (by decide), Node.reads_append.2
      ⟨Node.reads_of_ne (by decide), Node.reads_inRole hno⟩⟩
  · rintro e ⟨c, a, b, span, rfl, hc, hext, hlevel, -⟩
    refine ⟨⟨hc.ternary, hc.closed⟩, hext, ⟨fun _ => ?_, nofun⟩, fun m hm => ?_⟩
    · revert hl
      cases l <;> decide
    · -- The last operand of a ternary takes all operators.
      exact absurd (hlevel m hm) (by cases m <;> decide)

theorem binary_groups (hf : f.Forward) (hg : f.Grouping source) (hs : s.Of source) {l m : Level}
    (hleft : ∀ n ∈ fr.left, n.Groups source ∧
      n.ReadAs source ((Phrase.operators l).leftSpec s.peek.kind))
    (hk : Level.ofToken? s.peek.kind = some m) (hl : ¬ m.rank < l.rank) (hm : m ≠ .ternary)
    (h : Gives f (feed (build .binaryExpression
      (all [as .left keep, as .operator (leaf .operator), as .right (call (.expr m.ofRight))]))
        (call (.operators l))) fr s ns t) :
    ∀ n ∈ ns, n.Groups source ∧ n.ReadAs source ((Phrase.operators l).rightSpec t.peek.kind) := by
  have hgroups := fun n hn => (hleft n hn).1
  refine grow_groups hf hg hs hgroups h ⟨trivial, rfl, rfl⟩ ?_
  intro region children u hchildren
  obtain ⟨_, s₁, _, h₁, hrest, rfl⟩ := gives_seq.1 hchildren
  obtain ⟨_, s₂, _, h₂, h₃, rfl⟩ := gives_seq.1 hrest
  have hs₂ := of_gives hf (of_gives hf hs h₁) h₂
  obtain ⟨_, hkeep, rfl⟩ := gives_as.1 h₁
  obtain ⟨rfl, rfl⟩ := gives_keep.1 hkeep
  obtain ⟨_, hop, rfl⟩ := gives_as.1 h₂
  obtain ⟨rfl, -⟩ := gives_leaf.1 hop
  obtain ⟨bs, hbs, rfl⟩ := gives_as.1 h₃
  obtain ⟨o, ho, htext⟩ := binaryOp_of_level hk hm
  have hlevel : o.HasLevel m := BinaryOp.hasLevel (ho ▸ hk)
  have hsymbol := symbol_spec (g := .operator) (by decide) hs ho (by cases o <;> rfl)
  rw [← ho, htext] at hsymbol
  have ha : ∀ n ∈ fr.left, n.ReadAs source (Expr.LeftOf m) :=
    fun n hn => (hleft n hn).2.imp fun e he => he.2.2 m hk
  have hb := fun n hn => (hg (.expr m.ofRight) fr s₂ bs u hs₂
    (fun m hm => ⟨hgroups m hm, all_true _⟩) hbs n hn).2
  refine (Node.all_binary (A := Expr.LeftOf m)
    (B := (Phrase.expr m.ofRight).rightSpec u.peek.kind) (o := o) ?_ ?_ ?_).imp ?_
  · exact Node.reads_append.2 ⟨Node.reads_inRole ha, Node.reads_append.2
      ⟨Node.reads_of_ne (by decide), Node.reads_of_ne (by decide)⟩⟩
  · exact Node.reads_append.2 ⟨Node.reads_of_ne (by decide), Node.reads_append.2
      ⟨Node.reads_of_ne (by decide), Node.reads_inRole hb⟩⟩
  · simp only [List.map_cons, List.map_nil, List.forall_mem_append, List.forall_mem_map,
      List.forall_mem_singleton]
    refine ⟨fun n _ hrole => ?_, fun _ => ?_, fun n _ hrole => ?_⟩
    · cases hrole
    · rw [Node.reading_inRole]
      exact hsymbol.text
    · cases hrole
  · rintro e ⟨a, b, span, rfl, ha, hext, hover, hb, hbefore⟩
    refine ⟨Expr.grouped_binary hlevel ha hb span, hext, ⟨nofun, fun o' ho' => ?_⟩,
      Expr.before_binary hlevel hover hbefore span⟩
    obtain rfl : o = o' := Option.some.inj ho'
    have hrank := hlevel.rank
    omega

theorem operators_groups (hf : f.Forward) (hg : f.Grouping source) (hs : s.Of source) {l : Level}
    (hleft : ∀ n ∈ fr.left, n.Groups source ∧
      n.ReadAs source ((Phrase.operators l).leftSpec s.peek.kind))
    (h : Gives f (operators l) fr s ns t) :
    ∀ n ∈ ns, n.Groups source ∧ n.ReadAs source ((Phrase.operators l).rightSpec t.peek.kind) := by
  simp only [operators, gives_look, Stream.look_kind] at h
  split at h
  · rename_i hk
    obtain ⟨rfl, rfl⟩ := gives_keep.1 h
    exact fun n hn => operators_over (by simp [hk]) (hleft n hn)
  · rename_i m hk
    obtain ⟨hlt, hkeep⟩ | ⟨hge, hgrow⟩ := gives_ite.1 h
    · obtain ⟨rfl, rfl⟩ := gives_keep.1 hkeep
      refine fun n hn => operators_over (fun m' hm' => ?_) (hleft n hn)
      obtain rfl := Option.some.inj (hk.symm.trans hm')
      exact hlt
    · split at hgrow
      · rename_i hm
        subst hm
        exact ternary_groups hf hg hs hleft hk hge hgrow
      · rename_i hm
        exact binary_groups hf hg hs hleft hk hge hm hgrow

theorem sign_groups (hf : f.Forward) (hg : f.Grouping source) (hs : s.Of source)
    (h : Gives f (node .unaryExpression
      [as .operator (leaf .operator), as .operand (call (.expr .power))]) fr s ns t) :
    ∀ n ∈ ns, n.Groups source ∧ n.ReadAs source (Phrase.unary.rightSpec t.peek.kind) := by
  refine build_groups hf hg hs ?_ (gives_fresh.1 h) ⟨rfl, rfl⟩ ?_
  · simp
  intro region children hchildren
  obtain ⟨_, u, _, h₁, h₂, rfl⟩ := gives_seq.1 hchildren
  have hu := of_gives hf hs h₁
  obtain ⟨ops, -, rfl⟩ := gives_as.1 h₁
  obtain ⟨as, has, rfl⟩ := gives_as.1 h₂
  have hoperand := fun n hn => (hg (.expr .power) _ u as t hu (by simp) has n hn).2
  refine (Node.all_unary (Node.reads_append.2
    ⟨Node.reads_of_ne (by decide), Node.reads_inRole hoperand⟩)).imp ?_
  rintro e ⟨o, a, span, rfl, hext, hover, ha, hbefore⟩
  exact ⟨Expr.grouped_unary ha span, hext, rfl, rfl, Expr.before_unary hover hbefore span⟩

theorem unary_groups (hf : f.Forward) (hg : f.Grouping source) (hs : s.Of source)
    (h : Gives f unary fr s ns t) :
    ∀ n ∈ ns, n.Groups source ∧ n.ReadAs source (Phrase.unary.rightSpec t.peek.kind) := by
  simp only [unary, gives_look] at h
  split at h
  · exact sign_groups hf hg hs h
  · exact sign_groups hf hg hs h
  · exact sign_groups hf hg hs h
  · obtain ⟨ms, u, hms, hns⟩ := gives_feed.1 (gives_fresh.1 h)
    have hleft := hg .primary _ s ms u hs (by simp) hms
    intro n hn
    obtain ⟨hgroups, hread⟩ := hg .suffixes _ u ns t (of_gives hf hs hms) hleft hns n hn
    refine ⟨hgroups, hread.imp ?_⟩
    rintro e ⟨hext, hplain, hstops⟩
    refine ⟨hext, hplain.binary, hplain.ternary, fun m hm => ?_⟩
    -- An open end has taken all operators, so there is none behind it.
    refine ⟨hplain.ternary, ?_, fun _ => hplain.unary, by simp [hplain.binary]⟩
    by_contra ho
    rw [(hstops (by simpa using ho)).2] at hm
    cases hm

theorem expr_groups (hf : f.Forward) (hg : f.Grouping source) (hs : s.Of source) {l : Level}
    (h : Gives f (expr l) fr s ns t) :
    ∀ n ∈ ns, n.Groups source ∧ n.ReadAs source ((Phrase.expr l).rightSpec t.peek.kind) := by
  obtain ⟨ms, u, hms, hns⟩ := gives_feed.1 (gives_fresh.1 h)
  refine hg (.operators l) _ u ns t (of_gives hf hs hms) (fun n hn => ?_) hns
  obtain ⟨hgroups, hread⟩ := hg .unary _ s ms u hs (by simp) hms n hn
  refine ⟨hgroups, hread.imp ?_⟩
  rintro e ⟨hext, hbinary, hternary, hbefore⟩
  exact ⟨hext, ⟨by simp [hternary], by simp [hbinary]⟩, hbefore⟩

/-! ### All phrases -/

theorem rule_groups (hf : f.Forward) (hg : f.Grouping source) (p : Phrase) (hs : s.Of source)
    (hleft : ∀ n ∈ fr.left, n.Groups source ∧ n.ReadAs source (p.leftSpec s.peek.kind))
    (h : Gives f (rule p) fr s ns t) :
    ∀ n ∈ ns, n.Groups source ∧ n.ReadAs source (p.rightSpec t.peek.kind) := by
  have simple : (rule p).Simple → ∀ n ∈ ns, n.Groups source := fun hr =>
    gives_groups hf hg (rule p) fr s t ns hr hs (fun n hn => (hleft n hn).1) h
  cases p with
  | expr l => exact expr_groups hf hg hs h
  | operators l => exact operators_groups hf hg hs hleft h
  | unary => exact unary_groups hf hg hs h
  | primary => exact fun n hn => ⟨simple primary_simple n hn, primary_reads hf hg hs h n hn⟩
  | suffixes => exact suffixes_groups hf hg hs hleft h
  | _ => exact fun n hn => ⟨simple (rule_simple rfl nofun nofun) n hn, all_true _⟩

theorem parsePhrase_grouping : Phrases.Grouping source parsePhrase := by
  intro p fr s ns t hs hleft h
  refine parsePhrase_induct_proper
    (P := fun p fr s o => ∀ ns t, s.Of source →
      (∀ n ∈ fr.left, n.Groups source ∧ n.ReadAs source (p.leftSpec s.peek.kind)) →
      o = .ok ns [] t → ∀ n ∈ ns, n.Groups source ∧ n.ReadAs source (p.rightSpec t.peek.kind))
    ?_ ?_ p fr s hs.proper ns t hs hleft h
  · intro p fr s ns t _ _ h
    cases h
  · intro f forward _ hf p fr s _ ns t hs hleft h
    have grouping : f.Grouping source := fun p fr s ns t hs => hf p fr s hs.proper ns t hs
    exact rule_groups forward grouping p hs hleft h

end Grammar

/-- Every expression of a program is grouped as its operators bind. -/
theorem Program.operators_grouped {source : List Char} {p : Program}
    (h : Program.parse source = .ok p) : ∀ e, .expr e ∈ p.elements → e.Grouped := by
  obtain ⟨nodes, fs, t, hparse, htree⟩ := SyntaxTree.ofSource_eq source
  obtain rfl : fs = [] := by
    have hfaults := faultless_of_parse h
    rwa [htree] at hfaults
  have hgroups := Grammar.parsePhrase_grouping .items _ _ nodes t (Stream.start_of source) (by simp)
    hparse
  exact every_of_nodes h hparse fun n hn => (hgroups n hn).1

/-- Signs and powers, operators of five levels, suffixes and a `let` in parentheses: the condition is
`&&` over `<`. -/
theorem Program.operators_grouped_mixed :
    ∃ p, Program.parse
        "x = -a ^ -b ^ c * d - e - f < g && (let (h = 1) h)[0].x ? i : j ? k : l;".toList = .ok p ∧
      p.items.map (fun
        | .variableDef _ (.ternary (.binary o a _ _) _ _ _) _ => (some o, a.binaryOp?)
        | _ => (none, none)) = [(some .and, some .lt)] ∧
      ∀ e, .expr e ∈ p.elements → e.Grouped := by
  have hok : (SyntaxTree.ofSource
      "x = -a ^ -b ^ c * d - e - f < g && (let (h = 1) h)[0].x ? i : j ? k : l;".toList).faults =
        [] := by
    decide +kernel
  have hcond : (Program.parse
      "x = -a ^ -b ^ c * d - e - f < g && (let (h = 1) h)[0].x ? i : j ? k : l;".toList).toOption.map
        (fun p => p.items.map (fun
          | .variableDef _ (.ternary (.binary o a _ _) _ _ _) _ => (some o, a.binaryOp?)
          | _ => (none, none))) = some [(some .and, some .lt)] := by
    decide +kernel
  obtain ⟨p, hp, -⟩ := parse_of_faultless hok
  rw [hp] at hcond
  exact ⟨p, hp, Option.some.inj hcond, operators_grouped hp⟩

end Scad
