import Mathlib.Data.List.Forall2
import Scad.Proofs.Grammar.Inversion
import Scad.Proofs.Token.Spelling

/-!
# The tree covers the source

Every statement, broken or not, spans a run of tokens that is not empty, and the statements of a file
or of a block take up all tokens there, in order and without overlap. The step is what `recover`
gives for one statement; the run over all statements of a list follows from it. Blocks can be
anywhere in the tree, so that the fact about them is carried along with every node.
-/

namespace Scad

/-! ## Nodes over runs of tokens -/

namespace Node

/-- A node somewhere in a tree, the root included. -/
inductive Within : Node → Node → Prop
  | self (n : Node) : Within n n
  | child {n c m : Node} (hc : c ∈ m.children) (h : Within n c) : Within n m

/-- The node runs from the start of the first token to the end of the last one. -/
def Spans (n : Node) (run : List Token) : Prop :=
  ∃ a b, run.head? = some a ∧ run.getLast? = some b ∧ n.region = ⟨a.region.start, b.region.stop⟩

/-- The nodes split the tokens into runs, one for each node. No run is empty. -/
def Split (ns : List Node) (ts : List Token) : Prop :=
  ∃ runs : List (List Token), runs.flatten = ts ∧ List.Forall₂ Spans ns runs

/-- The children of a block that stand for source text split the tokens between its braces. Without
its closing brace a block reaches to the end of the tokens. -/
def CoversBlock (ts : List Token) (n : Node) : Prop :=
  ∃ before brace inner close after, ts = before ++ brace :: (inner ++ (close ++ after)) ∧
    brace.kind = .lbrace ∧ n.Spans (brace :: (inner ++ close)) ∧
    Split (n.children.filter (!·.missing)) inner ∧
    ((∃ c, close = [c] ∧ c.kind = .rbrace ∧ n.children.any (·.missing) = false) ∨
      (close = [] ∧ after = [] ∧ ∃ p, n.children.getLast? = some (.absent .rbrace p)))

/-- All blocks in a tree cover the tokens between their braces. -/
def Covering (ts : List Token) (n : Node) : Prop :=
  ∀ m, Within m n → m.kind = .form .unionBlock → CoversBlock ts m

theorem covering_of {ts : List Token} {n : Node}
    (h : n.kind = .form .unionBlock → CoversBlock ts n) (hc : ∀ c ∈ n.children, Covering ts c) :
    Covering ts n := by
  intro m hm hk
  cases hm with
  | self => exact h hk
  | child hmem hw => exact hc _ hmem m hw hk

theorem Covering.inRole {ts : List Token} {n : Node} (h : Covering ts n) (r : Role) :
    Covering ts (n.inRole r) := by
  refine covering_of (fun hk => ?_) (fun c hc => ?_)
  · exact h n (.self n) hk
  · exact fun m hm => h m (.child hc hm)

theorem Split.nil : Split [] [] := ⟨[], rfl, .nil⟩

theorem Split.cons {n : Node} {ns : List Node} {run ts : List Token} (h : n.Spans run)
    (hs : Split ns ts) : Split (n :: ns) (run ++ ts) := by
  obtain ⟨runs, rfl, hruns⟩ := hs
  exact ⟨run :: runs, rfl, .cons h hruns⟩

end Node

/-! ## Places in the tokens of a source -/

/-- Tokens as they come from a source: in order, and none ends before it starts. -/
structure Token.Aligned (ts : List Token) : Prop where
  ordered : Token.Ordered ts
  forward : ∀ t ∈ ts, t.region.start.byte ≤ t.region.stop.byte

theorem tokenize_aligned (source : List Char) : Token.Aligned (tokenize source).tokens :=
  ⟨tokenize_ordered source, fun t ht => Nat.le_of_lt (tokenize_sound source t ht).start_lt_stop⟩

theorem Token.Aligned.of_suffix {ts us : List Token} (h : Token.Aligned ts) (hs : us <:+ ts) :
    Token.Aligned us :=
  ⟨h.ordered.sublist hs.sublist, fun t ht => h.forward t (hs.subset ht)⟩

/-- The first token of a run starts before the last one ends. -/
theorem Token.Aligned.start_le_stop {run rest : List Token} (h : Token.Aligned (run ++ rest))
    {a b : Token} (ha : run.head? = some a) (hb : run.getLast? = some b) :
    a.region.start.byte ≤ b.region.stop.byte := by
  obtain ⟨run, rfl⟩ := List.head?_eq_some_iff.1 ha
  have hfa := h.forward a (by simp)
  rcases List.mem_cons.1 (List.mem_of_getLast? hb) with rfl | hmem
  · exact hfa
  · have hab := (List.pairwise_cons.1 h.ordered).1 b (by simp [hmem])
    have hfb := h.forward b (by simp [hmem])
    omega

namespace Stream

/-- A place in the tokens of a source. -/
structure At (ts : List Token) (s : Stream) : Prop where
  proper : s.Proper
  suffix : s.ahead <:+ ts
  aligned : Token.Aligned s.ahead

theorem At.of_passes {ts : List Token} {s t : Stream} {run : List Token} (h : s.At ts)
    (hp : s.Passes run t) : t.At ts := by
  have hsuf : t.ahead <:+ s.ahead := ⟨run, hp.ahead.symm⟩
  exact ⟨h.proper.of_passes hp, hsuf.trans h.suffix, h.aligned.of_suffix hsuf⟩

/-- What was built over the tokens passed spans them. -/
theorem spans_of_passes {s t : Stream} {run : List Token} (ha : Token.Aligned s.ahead)
    (h : s.Passes run t) (hne : run ≠ []) {n : Node} (hn : n.region = t.regionFrom s.position) :
    n.Spans run := by
  obtain ⟨a, run', rfl⟩ := List.exists_cons_of_ne_nil hne
  obtain ⟨b, hb⟩ : ∃ b, (a :: run').getLast? = some b :=
    ⟨_, List.getLast?_eq_some_getLast (by simp)⟩
  have hpos : s.position = a.region.start := by
    rw [position, peek, h.ahead]
    rfl
  have hlast : t.last = some b := by
    rw [h.last, hb]
    rfl
  have hle : a.region.start.byte ≤ b.region.stop.byte :=
    (h.ahead ▸ ha).start_le_stop (List.head?_cons ..) hb
  refine ⟨a, b, rfl, hb, ?_⟩
  rw [hn, regionFrom, hlast, hpos]
  exact if_neg (by omega)

theorem Passes.ne_nil_of_count_lt {s t : Stream} {run : List Token} (h : s.Passes run t)
    (hc : t.count < s.count) : run ≠ [] := by
  rintro rfl
  have := h.count
  simp at this
  omega

end Stream

/-! ## Rules build covering nodes -/

namespace Rule

/-- No node of this rule is a block. -/
@[simp]
def Blockless : Rule → Prop
  | leaf g => g ≠ .unionBlock
  | build g a => g ≠ .unionBlock ∧ a.Blockless
  | seq a b => a.Blockless ∧ b.Blockless
  | feed a b => a.Blockless ∧ b.Blockless
  | as _ a => a.Blockless
  | fresh a => a.Blockless
  | look g => ∀ a, (g a).Blockless
  | recover a => a.Blockless
  | _ => True

theorem apply_covering {ts : List Token} {f : Phrases} (hf : f.Forward)
    (hc : ∀ p fr s nodes fs t, Stream.At ts s → (∀ n ∈ fr.left, n.Covering ts) →
      f p fr s = .ok nodes fs t → ∀ n ∈ nodes, n.Covering ts) :
    ∀ (r : Rule) (fr : Frame) (s t : Stream) (nodes : List Node) (fs : List Fault), r.Blockless →
      Stream.At ts s → (∀ n ∈ fr.left, n.Covering ts) → r.apply f fr s = .ok nodes fs t →
      ∀ n ∈ nodes, n.Covering ts := by
  have passes : ∀ {r : Rule} {fr : Frame} {s t : Stream} {nodes : List Node} {fs : List Fault},
      Stream.At ts s → r.apply f fr s = .ok nodes fs t → Stream.At ts t := by
    intro r fr s t nodes fs hs h
    obtain ⟨run, hp⟩ := apply_passes hf r fr s hs.proper
    rw [h] at hp
    exact hs.of_passes hp
  have leaf : ∀ {k : Kind} {region : Region} {missing : Bool}, k ≠ .form .unionBlock →
      Node.Covering ts { kind := k, region, missing } := by
    intro k region missing hk
    exact Node.covering_of (fun h => absurd h hk) (fun c hc => by simp at hc)
  intro r
  induction r with
  | done | take =>
    intro fr s t nodes fs _ _ _ h n hn
    simp only [apply, Outcome.ok.injEq] at h
    rw [← h.1] at hn
    simp at hn
  | keep =>
    intro fr s t nodes fs _ _ hl h n hn
    simp only [apply, Outcome.ok.injEq] at h
    exact hl n (h.1 ▸ hn)
  | leaf g =>
    intro fr s t nodes fs hr _ _ h n hn
    have hr : g ≠ .unionBlock := hr
    simp only [apply, Outcome.ok.injEq] at h
    rw [← h.1, List.mem_singleton] at hn
    rw [hn]
    exact leaf (by simp [hr])
  | expect k =>
    intro fr s t nodes fs _ _ _ h n hn
    obtain ⟨-, rfl, -⟩ := expect_eq_ok.1 h
    simp at hn
  | closing k =>
    intro fr s t nodes fs _ _ _ h n hn
    rcases closing_eq_ok.1 h with ⟨-, rfl, -⟩ | ⟨-, rfl, -⟩
    · simp at hn
    · rw [List.mem_singleton] at hn
      rw [hn]
      exact leaf (by simp)
  | refuse w => intro fr s t nodes fs _ _ _ h; simp [apply] at h
  | seq a b iha ihb =>
    intro fr s t nodes fs hr hs hl h n hn
    obtain ⟨m, gs, u, m', hs', ha, hb, rfl, -⟩ := seq_eq_ok.1 h
    rcases List.mem_append.1 hn with hn | hn
    · exact iha fr s u m gs hr.1 hs hl ha n hn
    · exact ihb fr u t m' hs' hr.2 (passes hs ha) hl hb n hn
  | feed a b iha ihb =>
    intro fr s t nodes fs hr hs hl h n hn
    obtain ⟨m, gs, u, hs', ha, hb, -⟩ := feed_eq_ok.1 h
    refine ihb _ u t nodes hs' hr.2 (passes hs ha) ?_ hb n hn
    exact iha fr s u m gs hr.1 hs hl ha
  | as r a iha =>
    intro fr s t nodes fs hr hs hl h n hn
    obtain ⟨m, ha, rfl⟩ := as_eq_ok.1 h
    obtain ⟨c, hc, rfl⟩ := List.mem_map.1 hn
    exact (iha fr s t m fs hr hs hl ha c hc).inRole r
  | build g a iha =>
    intro fr s t nodes fs hr hs hl h n hn
    obtain ⟨m, ha, rfl⟩ := build_eq_ok.1 h
    rw [List.mem_singleton] at hn
    rw [hn]
    refine Node.covering_of (fun hk => ?_) (iha fr s t m fs hr.2 hs hl ha)
    exact absurd (Kind.form.inj hk) hr.1
  | fresh a iha =>
    intro fr s t nodes fs hr hs _ h
    exact iha _ s t nodes fs hr hs (by simp) h
  | look g ih =>
    intro fr s t nodes fs hr hs hl h
    exact ih s.look fr s t nodes fs (hr s.look) hs hl h
  | call p =>
    intro fr s t nodes fs _ hs hl h
    exact hc p fr s nodes fs t hs hl h
  | recover a iha =>
    intro fr s t nodes fs hr hs hl h n hn
    rcases recover_eq_ok.1 h with h | ⟨fault, gs, u, -, -, -, rfl⟩
    · exact iha fr s t nodes fs hr hs hl h n hn
    · rw [List.mem_singleton] at hn
      rw [hn]
      exact leaf (by simp)

/-! ## Statements -/

/-- The rule gives one node over all that it passes. -/
def Single : Rule → Prop
  | leaf _ => True
  | refuse _ => True
  | fresh (build _ _) => True
  | look g => ∀ a, (g a).Single
  | _ => False

theorem spans_of_single {ts : List Token} {f : Phrases} (hf : f.Forward) {fr : Frame}
    {s t : Stream} (hs : s.At ts) :
    ∀ {r : Rule} {nodes : List Node} {fs : List Fault}, r.Single →
      r.apply f fr s = .ok nodes fs t → t.count < s.count →
      ∃ n run, nodes = [n] ∧ s.Passes run t ∧ n.Spans run ∧ n.missing = false := by
  intro r
  induction r with
  | leaf g =>
    intro nodes fs _ h hc
    simp only [apply, Outcome.ok.injEq] at h
    obtain ⟨rfl, -, rfl⟩ := h
    refine ⟨_, [s.peek], rfl, ?_, ⟨s.peek, s.peek, rfl, rfl, rfl⟩, rfl⟩
    rcases s.advance_passes hs.proper with ⟨-, he⟩ | hp
    · rw [he] at hc
      omega
    · exact hp
  | fresh a =>
    intro nodes fs hr h hc
    cases a with
    | build g a =>
      obtain ⟨run, hp⟩ := apply_passes hf (fresh (build g a)) fr s hs.proper
      rw [h] at hp
      obtain ⟨m, -, rfl⟩ := build_eq_ok.1 h
      exact ⟨_, run, rfl, hp, Stream.spans_of_passes hs.aligned hp (hp.ne_nil_of_count_lt hc) rfl,
        rfl⟩
    | _ => exact absurd hr (by simp [Single])
  | look g ih =>
    intro nodes fs hr h hc
    exact ih s.look (hr s.look) h hc
  | refuse w => intro nodes fs _ h; simp [apply] at h
  | _ => intro nodes fs hr; exact absurd hr (by simp [Single])

end Rule

namespace Grammar

open Rule

theorem statement_single : statement.Single := by
  rintro ⟨k, x, k2⟩
  cases k with
  | identifier =>
    show (namedStatement _).Single
    unfold namedStatement
    split
    · split_ifs <;> trivial
    · trivial
    · trivial
  | _ => trivial

/-- The statements in a list of statements up to a closing token: each of them, broken or not, spans
a run that is not empty. -/
theorem recover_spans {ts : List Token} {f : Phrases} (hf : f.Forward) {fr : Frame}
    {s t : Stream} {nodes : List Node} {fs : List Fault} (hs : s.At ts) (hne : s.peek.kind ≠ .eof)
    (hst : ∀ nodes fs t, f .statement fr s = .ok nodes fs t →
      ∃ n run, nodes = [n] ∧ s.Passes run t ∧ n.Spans run ∧ n.missing = false)
    (h : (recover (call .statement)).apply f fr s = .ok nodes fs t) :
    ∃ n run, nodes = [n] ∧ s.Passes run t ∧ n.Spans run ∧ n.missing = false := by
  rcases recover_eq_ok.1 h with h | ⟨fault, gs, u, hu, rfl, -, rfl⟩
  · exact hst nodes fs t h
  · obtain ⟨run, hp⟩ := apply_passes hf (call .statement) fr s hs.proper
    rw [hu] at hp
    obtain ⟨more, hm⟩ := Stream.resume_passes (hs.proper.of_passes hp) s
    have hall := hp.trans hm
    have hlt := Stream.resume_count_lt hs.proper hp hne
    exact ⟨_, _, rfl, hall,
      Stream.spans_of_passes hs.aligned hall (hall.ne_nil_of_count_lt hlt) rfl, rfl⟩

/-- What is known of the nodes of a phrase that starts at `s` and ends at `t`. -/
structure Covers (ts : List Token) (p : Phrase) (s : Stream) (nodes : List Node) (t : Stream) :
    Prop where
  covering : ∀ n ∈ nodes, n.Covering ts
  statement : p = .statement →
    ∃ n run, nodes = [n] ∧ s.Passes run t ∧ n.Spans run ∧ n.missing = false
  blockItems : p = .blockItems → ∃ run, s.Passes run t ∧ Node.Split nodes run ∧
    (∀ n ∈ nodes, n.missing = false) ∧ (t.peek.kind = .rbrace ∨ t.peek.kind = .eof)
  items : p = .items → ∃ run, s.Passes run t ∧ Node.Split nodes run ∧ t.peek.kind = .eof

theorem filter_not_missing {ns : List Node} (h : ∀ n ∈ ns, n.missing = false) :
    ns.filter (!·.missing) = ns :=
  List.filter_eq_self.2 fun n hn => by simp [h n hn]

/-- A block covers the tokens between its braces. -/
theorem unionBlock_covering {ts : List Token} {f : Phrases} {fr : Frame} {s t : Stream}
    {nodes : List Node} {fs : List Fault} (hs : s.At ts) (hk : s.peek.kind = .lbrace)
    (hf : ∀ fr s nodes fs t, Stream.At ts s → (∀ n ∈ fr.left, n.Covering ts) →
      f .blockItems fr s = .ok nodes fs t → Covers ts .blockItems s nodes t)
    (h : unionBlock.apply f fr s = .ok nodes fs t) : ∀ n ∈ nodes, n.Covering ts := by
  obtain ⟨children, hb, rfl⟩ := build_eq_ok.1 h
  obtain ⟨_, _, u, _, _, ht, hrest, rfl, -⟩ := seq_eq_ok.1 hb
  obtain ⟨items, gs, v, more, _, hi, hclose, rfl, -⟩ := seq_eq_ok.1 hrest
  obtain ⟨rfl, -, rfl⟩ : [] = _ ∧ [] = _ ∧ s.advance = u := by simpa [apply] using ht
  have hopen := Stream.passes_peek hs.proper (by rw [hk]; decide)
  have hcov := hf _ _ items gs v (hs.of_passes hopen) (by simp) hi
  obtain ⟨inner, hinner, hsplit, hnm, hend⟩ := hcov.blockItems rfl
  obtain ⟨before, hbefore⟩ := hs.suffix
  have hv := hs.of_passes (hopen.trans hinner)
  intro n hn
  rw [List.mem_singleton] at hn
  subst hn
  rcases closing_eq_ok.1 hclose with ⟨hr, rfl, -, rfl⟩ | ⟨hr, rfl, -, rfl⟩
  · have hcl := Stream.passes_peek hv.proper (by rw [hr]; decide)
    have hall : s.Passes (s.peek :: (inner ++ [v.peek])) v.advance := by
      simpa using (hopen.trans hinner).trans hcl
    refine Node.covering_of (fun _ => ?_) (by simpa using hcov.covering)
    refine ⟨before, s.peek, inner, [v.peek], v.advance.ahead, ?_, hk,
      Stream.spans_of_passes hs.aligned hall (by simp) rfl, ?_, ?_⟩
    · rw [← hbefore, hall.ahead]
      simp
    · simpa [filter_not_missing hnm] using hsplit
    · exact .inl ⟨v.peek, rfl, hr, by simpa using hnm⟩
  · have heof : t.ahead = [] := (Stream.peek_kind_eq_eof hv.proper).1 (hend.resolve_left hr)
    have hall : s.Passes (s.peek :: (inner ++ [])) t := by simpa using hopen.trans hinner
    refine Node.covering_of (fun _ => ?_) (fun c hc => ?_)
    · refine ⟨before, s.peek, inner, [], [], ?_, hk,
        Stream.spans_of_passes hs.aligned hall (by simp) rfl, ?_, ?_⟩
      · rw [← hbefore, hall.ahead, heof]
        simp
      · simpa [filter_not_missing hnm, Node.absent] using hsplit
      · exact .inr ⟨rfl, rfl, t.gapPosition, by simp⟩
    · have hc : c ∈ items ++ [Node.absent .rbrace t.gapPosition] := hc
      rcases List.mem_append.1 hc with hc | hc
      · exact hcov.covering c hc
      · rw [List.mem_singleton] at hc
        rw [hc]
        exact Node.covering_of (by simp [Node.absent]) (by simp [Node.absent])

theorem blockless_ite {p : Prop} [Decidable p] {a b : Rule} :
    (if p then a else b).Blockless ↔ if p then a.Blockless else b.Blockless := by
  split <;> rfl

theorem argumentList_blockless : argumentList.Blockless := by
  refine ⟨trivial, ⟨by decide, fun a => ?_⟩, trivial⟩
  dsimp only
  split <;> trivial

theorem callTail_blockless : callTail.Blockless := by
  intro a
  dsimp only
  split <;> trivial

theorem bindingList_blockless : bindingList.Blockless := by
  simp [bindingList, assignments, node, all, Blockless]

theorem parameterList_blockless : parameterList.Blockless := by
  simp [parameterList, node, all, Blockless]

/-- Of the statements only blocks are blocks. -/
theorem statement_blockless {g : Ahead → Rule} (hg : statement = look g) (a : Ahead)
    (ha : a.kind ≠ .lbrace) : (g a).Blockless := by
  obtain rfl := Rule.look.inj hg
  obtain ⟨k, x, k2⟩ := a
  cases k with
  | lbrace => exact absurd rfl ha
  | identifier =>
    show (namedStatement _).Blockless
    unfold namedStatement
    split
    · split_ifs <;> simp [Blockless, node, all, boundStatement, assertStatement, moduleCall,
        bindingList_blockless, argumentList_blockless, callTail_blockless]
    · simp [Blockless, node, all, declaration, expression]
    · simp [Blockless, node, all, moduleCall, argumentList_blockless, callTail_blockless]
  | _ =>
    simp [Blockless, node, all, moduleItem, functionItem, boundStatement, ifStatement,
      fileStatement, declaration, expression, bindingList_blockless, parameterList_blockless,
      blockless_ite]

theorem named_blockless {g : Form → Rule} {w : Wanted} (h : ∀ n, n ≠ .unionBlock → (g n).Blockless) :
    (named g w).Blockless := by
  rintro ⟨k, x, k2⟩
  cases k <;> simp [Blockless, h]

theorem primary_blockless : primary.Blockless := by
  rintro ⟨k, x, k2⟩
  cases k with
  | identifier =>
    dsimp only
    split_ifs <;> simp [Blockless, node, all, guardExpression, expression, argumentList_blockless,
      blockless_ite]
  | lbracket =>
    refine ⟨trivial, fun a => ?_⟩
    dsimp only
    split <;> simp [Blockless, all, rangeBounds, expression, blockless_ite]
  | _ =>
    simp [Blockless, node, all, expression, bindingList_blockless, parameterList_blockless]

/-- No other phrase builds a block. -/
theorem rule_blockless {p : Phrase} (hp : p ≠ .statement) : (rule p).Blockless := by
  cases p with
  | statement => exact absurd rfl hp
  | items | blockItems =>
    rintro ⟨k, x, k2⟩
    cases k <;> simp [Blockless]
  | body =>
    intro a
    dsimp only
    split <;> trivial
  | arguments =>
    refine ⟨fun a => ?_, fun a => ?_⟩
    · dsimp only
      split <;> simp [Blockless, node, all, namedArgument, expression]
    · simp [Blockless, blockless_ite]
  | bindings =>
    intro a
    dsimp only
    split
    case h_4 =>
      refine ⟨named_blockless fun n hn => ?_, fun a => ?_⟩
      · simp [Blockless, node, all, binding, expression, hn]
      · simp [Blockless, blockless_ite]
    all_goals trivial
  | parameters =>
    intro a
    dsimp only
    split
    case h_3 =>
      refine ⟨named_blockless fun n hn => ?_, fun a => ?_⟩
      · simp [Blockless, node, all, parameter, expression, hn, blockless_ite]
      · simp [Blockless, blockless_ite]
    all_goals trivial
  | element =>
    rintro ⟨k, x, k2⟩
    cases k <;> simp [Blockless, node, all, expression, loopHead, assignments, blockless_ite,
      bindingList_blockless]
  | elements => simp [rule, elements, Blockless, blockless_ite]
  | expr l => simp [rule, expr, Blockless]
  | operators l =>
    intro a
    dsimp only
    split
    · trivial
    · split_ifs <;> simp [Blockless, all, expression]
  | unary =>
    rintro ⟨k, x, k2⟩
    cases k <;> simp [Blockless, node, all]
  | primary => exact primary_blockless
  | suffixes =>
    rintro ⟨k, x, k2⟩
    cases k <;> simp [Blockless, all, expression, argumentList_blockless, blockless_ite]

/-! ## Lists of statements -/

/-- One more statement in front of a list of statements. -/
theorem statements_step {ts : List Token} {f : Phrases} (hf : f.Forward) {fr : Frame} {p : Phrase}
    {s t : Stream} {nodes : List Node} {fs : List Fault} (hs : s.At ts) (hne : s.peek.kind ≠ .eof)
    (hl : ∀ n ∈ fr.left, n.Covering ts)
    (hc : ∀ p fr s nodes fs t, Stream.At ts s → (∀ n ∈ fr.left, n.Covering ts) →
      f p fr s = .ok nodes fs t → Covers ts p s nodes t)
    (h : (seq (recover (call .statement)) (call p)).apply f fr s = .ok nodes fs t) :
    ∃ n run u more, nodes = n :: more ∧ s.Passes run u ∧ n.Spans run ∧ n.missing = false ∧
      Covers ts p u more t := by
  obtain ⟨m, gs, u, more, hs', ha, hb, rfl, -⟩ := seq_eq_ok.1 h
  obtain ⟨n, run, rfl, hp, hspan, hm⟩ := recover_spans hf hs hne
    (fun nodes fs t h => (hc .statement fr s nodes fs t hs hl h).statement rfl) ha
  exact ⟨n, run, u, more, rfl, hp, hspan, hm, hc p fr u more hs' t (hs.of_passes hp) hl hb⟩

theorem parsePhrase_covers {ts : List Token} (p : Phrase) (fr : Frame) (s t : Stream)
    (nodes : List Node) (fs : List Fault) (hs : s.At ts) (hl : ∀ n ∈ fr.left, n.Covering ts)
    (h : parsePhrase p fr s = .ok nodes fs t) : Covers ts p s nodes t := by
  refine parsePhrase_induct_proper
    (P := fun p fr s o => ∀ nodes fs t, s.At ts → (∀ n ∈ fr.left, n.Covering ts) →
      o = .ok nodes fs t → Covers ts p s nodes t) ?_ ?_ p fr s hs.proper nodes fs t hs hl h
  · intro p fr s nodes fs t _ _ h
    cases h
  · intro f forward eating hf p fr s hp nodes fs t hs hl h
    have hc : ∀ p fr s nodes fs t, Stream.At ts s → (∀ n ∈ fr.left, n.Covering ts) →
        f p fr s = .ok nodes fs t → Covers ts p s nodes t :=
      fun p fr s nodes fs t hs => hf p fr s hs.proper nodes fs t hs
    have plain := apply_covering forward
      (fun p fr s nodes fs t hs hl h => (hc p fr s nodes fs t hs hl h).covering)
    refine ⟨?_, ?_, ?_, ?_⟩
    · by_cases hp : p = .statement
      · subst hp
        by_cases hk : s.peek.kind = .lbrace
        · have hl : s.look.kind = .lbrace := hk
          have hu : unionBlock.apply f fr s = .ok nodes fs t := by
            simpa only [rule, statement, apply, hl] using h
          exact unionBlock_covering hs hk (fun fr s nodes fs t => hc _ fr s nodes fs t) hu
        · exact plain _ fr s t nodes fs (statement_blockless rfl s.look hk) hs hl h
      · exact plain _ fr s t nodes fs (rule_blockless hp) hs hl h
    · rintro rfl
      refine spans_of_single forward hs statement_single h ?_
      exact count_lt_of_eats forward eating _ false fr s nodes fs t hs.proper statement_eats (by simp) h
    · rintro rfl
      simp only [rule, blockItems, apply] at h
      split at h
      case h_3 =>
        rename_i hk _
        obtain ⟨n, run, u, more, rfl, hp, hspan, hm, hmore⟩ :=
          statements_step forward hs hk hl hc h
        obtain ⟨run', hp', hsplit, hnm, hend⟩ := hmore.blockItems rfl
        exact ⟨run ++ run', hp.trans hp', hsplit.cons hspan, by simpa [hm] using hnm, hend⟩
      all_goals
        rename_i hk
        obtain ⟨rfl, -, rfl⟩ : [] = nodes ∧ [] = fs ∧ s = t := by simpa [apply] using h
        exact ⟨[], .refl s, .nil, by simp, by simp [show s.peek.kind = _ from hk]⟩
    · rintro rfl
      simp only [rule, items, apply] at h
      split at h
      · rename_i hk
        obtain ⟨rfl, -, rfl⟩ : [] = nodes ∧ [] = fs ∧ s = t := by simpa [apply] using h
        exact ⟨[], .refl s, .nil, hk⟩
      · rename_i hk
        obtain ⟨n, run, u, more, rfl, hp, hspan, hm, hmore⟩ :=
          statements_step forward hs hk hl hc h
        obtain ⟨run', hp', hsplit, hend⟩ := hmore.items rfl
        exact ⟨run ++ run', hp.trans hp', hsplit.cons hspan, hend⟩

/-- The statements of a file never fail as a whole: each of them is recovered from. -/
theorem parsePhrase_items_ok (fr : Frame) (s : Stream) (hs : s.Proper) :
    ∃ nodes fs t, parsePhrase .items fr s = .ok nodes fs t := by
  obtain ⟨n, hn⟩ : ∃ n, s.count = n := ⟨_, rfl⟩
  induction n using Nat.strongRecOn generalizing s with
  | _ n ih =>
    rw [parsePhrase_eq_rule _ _ _ hs]
    simp only [rule, items, apply]
    split
    · exact ⟨[], [], s, rfl⟩
    · rename_i hk
      obtain ⟨nodes, fs, u, hu⟩ : ∃ nodes fs u,
          (recover (call .statement)).apply parsePhrase fr s = .ok nodes fs u := by
        simp only [apply]
        split <;> exact ⟨_, _, _, rfl⟩
      have hlt : u.count < s.count :=
        count_lt_of_eats parsePhrase_passes parsePhrase_eating (recover (call .statement)) true fr s
          nodes fs u hs ⟨rfl, rfl⟩ (fun _ h => hk h) hu
      obtain ⟨run, hp⟩ := apply_passes parsePhrase_passes (recover (call .statement)) fr s hs
      rw [hu] at hp
      obtain ⟨more, gs, t, ht⟩ := ih u.count (by omega) u (hs.of_passes hp) rfl
      exact ⟨_, _, t, seq_eq_ok.2 ⟨nodes, fs, u, more, gs, hu, ht, rfl, rfl⟩⟩

end Grammar

/-! ## The tree of a source -/

theorem Stream.start_at (source : List Char) :
    (Stream.start (tokenize source)).At (tokenize source).tokens := by
  refine ⟨⟨rfl, rfl, fun t ht => ?_⟩, List.suffix_rfl, tokenize_aligned source⟩
  exact (tokenize_sound source t ht).scanned.ne_eof

/-- The tree of a source is made from all its statements, and the faults are those noted in them. -/
theorem SyntaxTree.ofSource_eq (source : List Char) :
    ∃ nodes fs t,
      Grammar.parsePhrase .items { start := {} } (.start (tokenize source)) = .ok nodes fs t ∧
      SyntaxTree.ofSource source =
        ⟨{ kind := .form .sourceFile, region := ⟨{}, (tokenize source).stop⟩, children := nodes },
          fs⟩ := by
  obtain ⟨nodes, fs, t, h⟩ :=
    Grammar.parsePhrase_items_ok { start := {} } _ (Stream.start_at source).proper
  refine ⟨nodes, fs, t, h, ?_⟩
  rw [SyntaxTree.ofSource, SyntaxTree.ofTokens, h]

/-- The statements of a file take up all of its tokens, those of a block all tokens between its
braces, each a run of its own; and the tree spans the whole text. -/
theorem SyntaxTree.covers_source (source : List Char) :
    Token.Ordered (tokenize source).tokens ∧
      Node.Split (SyntaxTree.ofSource source).root.children (tokenize source).tokens ∧
      (∀ n : Node, n.Within (SyntaxTree.ofSource source).root → n.kind = .form .unionBlock →
        n.CoversBlock (tokenize source).tokens) ∧
      (SyntaxTree.ofSource source).root.region = ⟨{}, Position.after {} source⟩ ∧
      (SyntaxTree.ofSource source).root.region.stop.byte = Text.byteSize source := by
  obtain ⟨nodes, fs, t, h, htree⟩ := SyntaxTree.ofSource_eq source
  have hat := Stream.start_at source
  have hcov := Grammar.parsePhrase_covers .items _ _ t nodes fs hat (by simp) h
  obtain ⟨run, hp, hsplit, hend⟩ := hcov.items rfl
  have hrun : run = (tokenize source).tokens := by
    have := hp.ahead
    rw [(Stream.peek_kind_eq_eof (hat.proper.of_passes hp)).1 hend, List.append_nil] at this
    exact this.symm
  have hroot : Node.Covering (tokenize source).tokens (SyntaxTree.ofSource source).root := by
    rw [htree]
    exact Node.covering_of (fun hk => by simp at hk) hcov.covering
  refine ⟨tokenize_ordered source, ?_, hroot, ?_, ?_⟩
  · rw [htree, ← hrun]
    exact hsplit
  · rw [htree, tokenize_stop]
  · rw [htree]
    simp [tokenize_stop, Position.after_byte]

end Scad
