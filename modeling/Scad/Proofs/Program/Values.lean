import Scad.Proofs.Program.Generators
import Scad.Proofs.Program.Grouping

/-!
# Rules that give values

Only the rules for the elements of a list build generators, so all other phrases give nodes that are
read as values. The first element of a list is a value too if it does not start with a keyword, and
so the bounds of a range are. Main statement: `Program.settled_of_parse`.
-/

namespace Scad

open Read Rule

/-! ## Rules -/

/-- The tokens with which a generator or bindings in front of one start. -/
def TokenKind.startsGenerator : TokenKind → Bool
  | kwFor | kwIf | kwEach | kwLet => true
  | _ => false

/-- The phrases for elements of a list. -/
def Phrase.lists : Phrase → Bool
  | element | elements => true
  | _ => false

/-- Whether all that comes of a phrase that starts with a token of this kind is a value. -/
def Phrase.givesValues : Phrase → TokenKind → Bool
  | element, k => !k.startsGenerator
  | elements, _ => false
  | _, _ => true

theorem Phrase.givesValues_of_lists {p : Phrase} (h : p.lists = false) (k : TokenKind) :
    p.givesValues k = true := by
  cases p <;> first | rfl | cases h

/-- The phrases give tidy nodes, and values where they should. -/
def Phrases.Tidy (source : List Char) (f : Phrases) : Prop :=
  ∀ p fr (s : Stream) ns t,
    (∀ n ∈ fr.left, n.Tidy source ∧ (p.goesOn = true → n.Value source)) →
    f p fr s = .ok ns [] t →
    ∀ n ∈ ns, n.Tidy source ∧ (p.givesValues s.peek.kind = true → n.Value source)

namespace Rule

/-- No generator is built and no element of a list is asked for. If `left` is set, the rule may go
on from values to its left. -/
@[simp]
def Values (left : Bool) : Rule → Prop
  | keep => left = true
  | leaf g => g.generates = false
  | seq a b => a.Values left ∧ b.Values left
  | feed a b => a.Values left ∧ b.Values true
  | as _ a | recover a => a.Values left
  | fresh a => a.Values true
  | build g a => g.generates = false ∧ a.Values left
  | look g => ∀ a, (g a).Values left
  | call p => p.lists = false ∧ (p.goesOn = true → left = true)
  | _ => True

variable {source : List Char} {f : Phrases}

theorem gives_values (hf : f.Tidy source) (r : Rule) (left : Bool) (fr : Frame) (s t : Stream)
    (ns : List Node) (hr : r.Values left)
    (hl : ∀ n ∈ fr.left, n.Tidy source ∧ (left = true → n.Value source))
    (h : Gives f r fr s ns t) : ∀ n ∈ ns, n.Tidy source ∧ n.Value source := by
  induction r generalizing left fr s t ns with
  | done | take | expect k | closing k =>
    obtain rfl : ns = [] := by
      simp only [gives_done, gives_take, gives_expect, gives_closing] at h
      tauto
    simp
  | keep =>
    obtain ⟨rfl, -⟩ := gives_keep.1 h
    exact fun n hn => ⟨(hl n hn).1, (hl n hn).2 hr⟩
  | leaf g =>
    obtain ⟨rfl, -⟩ := gives_leaf.1 h
    have hsuit : Node.Suit source g [] := by simp [Node.Suit]
    simpa using ⟨hsuit.tidy, Node.value_of_form hr (by simp)⟩
  | refuse w => exact absurd h gives_refuse
  | seq a b iha ihb =>
    obtain ⟨x, u, y, ha, hb, rfl⟩ := gives_seq.1 h
    exact List.forall_mem_append.2
      ⟨iha left fr s u x hr.1 hl ha, ihb left fr u t y hr.2 hl hb⟩
  | feed a b iha ihb =>
    obtain ⟨x, u, ha, hb⟩ := gives_feed.1 h
    have hx := iha left fr s u x hr.1 hl ha
    exact ihb true { fr with left := x } u t ns hr.2
      (fun n hn => (hx n hn).imp_right fun hvalue _ => hvalue) hb
  | as role a iha =>
    obtain ⟨x, ha, rfl⟩ := gives_as.1 h
    refine List.forall_mem_map.2 fun n hn => ?_
    obtain ⟨htidy, hvalue⟩ := iha left fr s t x hr hl ha n hn
    exact ⟨htidy.inRole role, Node.readAs_inRole.2 hvalue⟩
  | build g a iha =>
    obtain ⟨x, ha, rfl⟩ := gives_build.1 h
    have hx := iha left fr s t x hr.2 hl ha
    have hsuit : Node.Suit source g x := Node.suit_of_values hx
    simpa using ⟨hsuit.tidy, Node.value_of_form hr.1 fun _ n hn => (hx n hn).2⟩
  | fresh a iha => exact iha true _ s t ns hr (by simp) h
  | look g ih => exact ih s.look left fr s t ns (hr _) hl h
  | call p =>
    intro n hn
    obtain ⟨htidy, hvalue⟩ := hf p fr s ns t
      (fun m hm => ⟨(hl m hm).1, fun hp => (hl m hm).2 (hr.2 hp)⟩) h n hn
    exact ⟨htidy, hvalue (Phrase.givesValues_of_lists hr.1 _)⟩
  | recover a iha => exact iha left fr s t ns hr hl (gives_recover.1 h)

end Rule

/-! ## The table -/

namespace Grammar

variable {source : List Char} {f : Phrases} {fr : Frame} {s t : Stream} {ns : List Node}

theorem values_ite {p : Prop} [Decidable p] {a b : Rule} {left : Bool} :
    (if p then a else b).Values left ↔ if p then a.Values left else b.Values left := by
  split <;> rfl

theorem expression_values (left : Bool) : expression.Values left := ⟨rfl, nofun⟩

theorem argumentList_values (left : Bool) : argumentList.Values left := by
  simp only [argumentList, node, all, Values]
  refine ⟨trivial, ⟨rfl, fun a => ?_⟩, trivial⟩
  split <;> simp [Phrase.lists, Phrase.goesOn]

theorem bindingList_values (left : Bool) : bindingList.Values left :=
  ⟨trivial, ⟨rfl, rfl, nofun⟩, trivial⟩

theorem parameterList_values (left : Bool) : parameterList.Values left :=
  ⟨trivial, ⟨rfl, rfl, nofun⟩, trivial⟩

theorem callTail_values (left : Bool) : callTail.Values left := by
  intro a
  dsimp only
  split <;> simp [Phrase.lists, Phrase.goesOn]

theorem statement_values (left : Bool) : statement.Values left := by
  rintro ⟨k, x, k2⟩
  cases k with
  | identifier =>
    show (namedStatement _).Values left
    unfold namedStatement
    split
    · split_ifs <;> simp [node, all, boundStatement, assertStatement, moduleCall,
        bindingList_values, argumentList_values, callTail_values, Form.generates, Phrase.lists,
        Phrase.goesOn]
    · simp [node, all, declaration, expression_values, Form.generates]
    · simp [node, all, moduleCall, argumentList_values, callTail_values, Form.generates]
  | _ =>
    simp [node, all, moduleItem, functionItem, boundStatement, ifStatement, fileStatement,
      unionBlock, declaration, expression_values, bindingList_values, parameterList_values,
      values_ite, Form.generates, Phrase.lists, Phrase.goesOn]

theorem named_values {g : Form → Rule} {w : Wanted} {left : Bool}
    (h : (g .identifier).Values left ∧ (g .specialVariable).Values left) :
    (named g w).Values left := by
  rintro ⟨k, x, k2⟩
  cases k <;> simp [h.1, h.2]

/-- All rules give values but those for elements of a list, and lists themselves. -/
theorem rule_values {p : Phrase} (hlists : p.lists = false) (hprimary : p ≠ .primary) :
    (rule p).Values p.goesOn := by
  cases p with
  | items | blockItems =>
    rintro ⟨k, x, k2⟩
    cases k <;> simp [Phrase.lists, Phrase.goesOn]
  | statement => exact statement_values _
  | body =>
    intro a
    dsimp only
    split <;> simp [Phrase.lists, Phrase.goesOn]
  | arguments =>
    refine ⟨fun a => ?_, fun a => ?_⟩
    · dsimp only
      split <;> simp [node, all, namedArgument, expression_values, Form.generates]
    · simp [values_ite, Phrase.lists, Phrase.goesOn]
  | bindings =>
    intro a
    dsimp only
    split
    case h_4 =>
      refine ⟨named_values ?_, fun a => ?_⟩
      · simp [node, all, binding, expression_values, Form.generates]
      · simp [values_ite, Phrase.lists, Phrase.goesOn]
    all_goals trivial
  | parameters =>
    intro a
    dsimp only
    split
    case h_3 =>
      refine ⟨named_values ?_, fun a => ?_⟩
      · simp [node, all, parameter, expression_values, values_ite, Form.generates]
      · simp [values_ite, Phrase.lists, Phrase.goesOn]
    all_goals trivial
  | expr l => simp [rule, Grammar.expr, Phrase.lists, Phrase.goesOn]
  | operators l =>
    intro a
    dsimp only
    split
    · rfl
    · simp [all, values_ite, expression_values, Form.generates, Phrase.lists, Phrase.goesOn]
  | unary =>
    rintro ⟨k, x, k2⟩
    cases k <;> simp [node, all, Form.generates, Phrase.lists, Phrase.goesOn]
  | suffixes =>
    rintro ⟨k, x, k2⟩
    cases k <;> simp [all, argumentList_values, expression_values, values_ite, Form.generates,
      Phrase.lists, Phrase.goesOn]
  | primary => exact absurd rfl hprimary
  | element | elements => cases hlists

theorem loopHead_values (left : Bool) : loopHead.Values left := by
  simp [loopHead, assignments, node, all, expression_values, values_ite, Form.generates,
    Phrase.lists, Phrase.goesOn]

theorem rangeBounds_values : rangeBounds.Values true := by
  simp [rangeBounds, all, expression_values, values_ite]

/-! ### Elements of lists -/

/-- What comes of a rule with nothing to its left suits a form. -/
def Suits (source : List Char) (f : Phrases) (g : Form) (r : Rule) : Prop :=
  ∀ fr s t ns, fr.left = [] → Gives f r fr s ns t → Node.Suit source g ns

variable {g : Form} {a b : Rule} {role : Role}

theorem suits_seq (ha : Suits source f g a) (hb : Suits source f g b) :
    Suits source f g (seq a b) := by
  intro fr s t ns hl h
  obtain ⟨x, u, y, hx, hy, rfl⟩ := gives_seq.1 h
  exact List.forall_mem_append.2 ⟨ha fr s u x hl hx, hb fr u t y hl hy⟩

theorem suits_ite {p : Prop} [Decidable p] (ha : Suits source f g a) (hb : Suits source f g b) :
    Suits source f g (if p then a else b) := by
  split
  · exact ha
  · exact hb

theorem tidy_of_suits {parts : List Rule} (hr : Suits source f g (all parts))
    (h : Gives f (node g parts) fr s ns t) : ∀ n ∈ ns, n.Tidy source := by
  obtain ⟨x, hx, rfl⟩ := gives_build.1 (gives_fresh.1 h)
  simpa using (hr _ s t x rfl hx).tidy

section

variable (hf : f.Tidy source)

include hf

theorem suits_values (ha : a.Values true) : Suits source f g a := by
  intro fr s t ns hl h
  exact Node.suit_of_values (gives_values hf a true fr s t ns ha (by simp [hl]) h)

theorem suits_element (hg : g.hosts (some role) = true) :
    Suits source f g (as role (call .element)) := by
  intro fr s t ns hl h
  obtain ⟨x, hx, rfl⟩ := gives_as.1 h
  refine List.forall_mem_map.2 fun n hn => ⟨?_, fun hrole => ?_⟩
  · exact (hf .element fr s x t (by simp [hl]) hx n hn).1.inRole role
  · exact absurd (hrole.symm.trans hg) (by decide)

/-- An element is tidy. If it does not start with a keyword for a generator or for bindings, it is
an expression. -/
theorem element_tidy (hleft : ∀ n ∈ fr.left, n.Tidy source) (h : Gives f element fr s ns t) :
    ∀ n ∈ ns, n.Tidy source ∧ (s.peek.kind.startsGenerator = false → n.Value source) := by
  have hkeyword : s.peek.kind.startsGenerator = true → (∀ n ∈ ns, n.Tidy source) →
      ∀ n ∈ ns, n.Tidy source ∧ (s.peek.kind.startsGenerator = false → n.Value source) :=
    fun hk htidy n hn => ⟨htidy n hn, fun hk' => absurd (hk'.symm.trans hk) (by decide)⟩
  have hskip : ∀ {g : Form} {r : Rule}, r.Values true → Suits source f g r := suits_values hf
  simp only [element, gives_look, Stream.look_kind] at h
  split at h
  · rename_i hk
    refine hkeyword (by rw [hk]; rfl) (tidy_of_suits ?_ h)
    exact suits_seq (hskip trivial) (suits_seq (hskip trivial) (suits_seq
      (hskip (loopHead_values true)) (suits_seq (hskip trivial) (suits_element hf rfl))))
  · rename_i hk
    refine hkeyword (by rw [hk]; rfl) (tidy_of_suits ?_ h)
    refine suits_seq (hskip trivial) (suits_seq (hskip trivial) (suits_seq
      (hskip (expression_values true)) (suits_seq (hskip trivial) (suits_seq
        (suits_element hf rfl) ?_))))
    intro fr s t ns hl h
    refine suits_ite (suits_seq ?_ (suits_element hf rfl)) ?_ fr s t ns hl (gives_look.1 h)
    · exact hskip trivial
    · exact hskip trivial
  · rename_i hk
    refine hkeyword (by rw [hk]; rfl) (tidy_of_suits ?_ h)
    exact suits_seq (hskip trivial) (suits_element hf rfl)
  · rename_i hk
    refine hkeyword (by rw [hk]; rfl) (tidy_of_suits ?_ h)
    exact suits_seq (hskip trivial) (suits_seq (hskip (bindingList_values true))
      (suits_element hf rfl))
  · have hvalues := gives_values hf expression false fr s t ns (expression_values false)
      (fun n hn => ⟨hleft n hn, nofun⟩) h
    exact fun n hn => ⟨(hvalues n hn).1, fun _ => (hvalues n hn).2⟩

theorem elements_tidy (hleft : ∀ n ∈ fr.left, n.Tidy source) (h : Gives f elements fr s ns t) :
    ∀ n ∈ ns, n.Tidy source := by
  have hcall : ∀ {p s t ns}, p.goesOn = false → Gives f (call p) fr s ns t →
      ∀ n ∈ ns, n.Tidy source := fun hp h n hn =>
    (hf _ fr _ _ _ (fun m hm => ⟨hleft m hm, by simp [hp]⟩) h n hn).1
  simp only [elements, gives_look, gives_ite, gives_done, gives_seq, gives_take] at h
  obtain ⟨-, _, _, _, ⟨rfl, rfl⟩, ⟨-, rfl, rfl⟩ | ⟨-, x, u, y, hx, hy, rfl⟩, rfl⟩ | ⟨-, rfl, rfl⟩ :=
    h
  · simp
  · exact List.forall_mem_append.2 ⟨by simp, List.forall_mem_append.2 ⟨hcall rfl hx, hcall rfl hy⟩⟩
  · simp

theorem list_tidy (hleft : ∀ n ∈ fr.left, n.Tidy source)
    (h : Gives f (build .list (all [keep, call .elements, closing .rbracket])) fr s ns t) :
    ∀ n ∈ ns, n.Tidy source ∧ n.Value source := by
  simp only [gives_build, all, gives_seq, gives_keep, gives_closing] at h
  obtain ⟨_, ⟨_, _, _, ⟨rfl, rfl⟩, ⟨x, u, _, hx, ⟨-, rfl, -⟩, rfl⟩, rfl⟩, rfl⟩ := h
  have hmore := hf .elements fr _ x u (fun m hm => ⟨hleft m hm, nofun⟩) hx
  rw [List.append_nil]
  have hsuit : Node.Suit source .list (fr.left ++ x) := by
    intro n hn
    refine ⟨?_, nofun⟩
    rcases List.mem_append.1 hn with hn | hn
    · exact hleft n hn
    · exact (hmore n hn).1
  simpa using ⟨hsuit.tidy, Node.value_of_form rfl nofun⟩

theorem listOrRange_tidy (h : Gives f listOrRange fr s ns t) :
    ∀ n ∈ ns, n.Tidy source ∧ n.Value source := by
  obtain ⟨_, u, y, htake, h, rfl⟩ := gives_seq.1 (gives_fresh.1 h)
  obtain ⟨rfl, rfl⟩ := gives_take.1 htake
  rw [List.nil_append]
  have hlist : Gives f (feed (call .element)
      (build .list (all [keep, call .elements, closing .rbracket]))) { start := s.position }
        s.advance y t → ∀ n ∈ y, n.Tidy source ∧ n.Value source := by
    intro h
    obtain ⟨x, v, hx, hy⟩ := gives_feed.1 h
    exact list_tidy hf (fun n hn => (hf .element _ _ x v (by simp) hx n hn).1) hy
  simp only [gives_look, Stream.look_kind] at h
  split at h
  · exact gives_values hf (build .list take) true _ _ _ _ ⟨rfl, trivial⟩ (by simp) h
  · exact hlist h
  · exact hlist h
  · exact hlist h
  · exact hlist h
  · rename_i h1 h2 h3 h4 h5
    have hk : s.advance.peek.kind.startsGenerator = false := by
      revert h2 h3 h4 h5
      cases s.advance.peek.kind <;> simp [TokenKind.startsGenerator]
    obtain ⟨x, v, hx, hy⟩ := gives_feed.1 h
    have hfirst := hf .element _ _ x v (by simp) hx
    obtain ⟨-, hy⟩ | ⟨-, hy⟩ := gives_ite.1 (gives_look.1 hy)
    · -- the first bound of a range does not start with a keyword, so it is a value
      refine gives_values hf (build .range rangeBounds) true _ _ _ _ ⟨rfl, rangeBounds_values⟩ ?_ hy
      have hgives : Phrase.element.givesValues s.advance.peek.kind = true := by
        simp [Phrase.givesValues, hk]
      exact fun n hn => (hfirst n hn).imp_right fun hvalue _ => hvalue hgives
    · exact list_tidy hf (fun n hn => (hfirst n hn).1) hy

theorem primary_tidy (hleft : ∀ n ∈ fr.left, n.Tidy source) (h : Gives f primary fr s ns t) :
    ∀ n ∈ ns, n.Tidy source ∧ n.Value source := by
  have hvalues : ∀ {r : Rule}, Gives f r fr s ns t → r.Values false →
      ∀ n ∈ ns, n.Tidy source ∧ n.Value source := fun h hr =>
    gives_values hf _ false fr s t ns hr (fun n hn => ⟨hleft n hn, nofun⟩) h
  have hguard : ∀ g, g.generates = false → (guardExpression g).Values false := by
    intro g hg
    simp [guardExpression, node, all, hg, argumentList_values, expression_values, values_ite]
  simp only [primary, gives_look] at h
  split at h
  · exact hvalues h rfl
  · exact hvalues h rfl
  · exact hvalues h rfl
  · exact hvalues h rfl
  · exact hvalues h rfl
  · exact hvalues h rfl
  · obtain ⟨-, h⟩ | ⟨-, h⟩ := gives_ite.1 h
    · exact hvalues h (hguard _ rfl)
    · obtain ⟨-, h⟩ | ⟨-, h⟩ := gives_ite.1 h
      · exact hvalues h (hguard _ rfl)
      · exact hvalues h rfl
  · exact listOrRange_tidy hf h
  · exact hvalues h ⟨rfl, trivial, expression_values true, trivial⟩
  · exact hvalues h ⟨rfl, trivial, bindingList_values true, expression_values true⟩
  · exact hvalues h ⟨rfl, trivial, parameterList_values true, expression_values true⟩
  · exact absurd h gives_refuse

/-! ### All phrases -/

theorem rule_tidy (p : Phrase)
    (hleft : ∀ n ∈ fr.left, n.Tidy source ∧ (p.goesOn = true → n.Value source))
    (h : Gives f (rule p) fr s ns t) :
    ∀ n ∈ ns, n.Tidy source ∧ (p.givesValues s.peek.kind = true → n.Value source) := by
  have htidy := fun n hn => (hleft n hn).1
  have hvalues : p.lists = false → p ≠ .primary → ∀ n ∈ ns, n.Tidy source ∧ n.Value source :=
    fun hl hp => gives_values hf _ _ fr s t ns (rule_values hl hp) hleft h
  intro n hn
  cases p with
  | element =>
    refine (element_tidy hf htidy h n hn).imp_right fun hvalue hk => hvalue ?_
    simpa [Phrase.givesValues] using hk
  | elements => exact ⟨elements_tidy hf htidy h n hn, nofun⟩
  | primary => exact (primary_tidy hf htidy h n hn).imp_right fun hvalue _ => hvalue
  | _ => exact (hvalues rfl nofun n hn).imp_right fun hvalue _ => hvalue

end

theorem parsePhrase_tidy (source : List Char) : Phrases.Tidy source parsePhrase := by
  intro p fr s ns t hleft h
  refine parsePhrase_induct
    (P := fun p fr s o => ∀ ns t,
      (∀ n ∈ fr.left, n.Tidy source ∧ (p.goesOn = true → n.Value source)) → o = .ok ns [] t →
      ∀ n ∈ ns, n.Tidy source ∧ (p.givesValues s.peek.kind = true → n.Value source))
    ?_ ?_ p fr s ns t hleft h
  · intro p fr s ns t _ h
    cases h
  · intro f hf p fr s ns t hleft h
    exact rule_tidy (fun p fr s ns t => hf p fr s ns t) p hleft h

end Grammar

namespace Program

variable {source : List Char} {p : Program}

/-- The nodes of a file that was parsed. -/
theorem nodes_of_parse (h : Program.parse source = .ok p) : ∃ nodes t,
    Grammar.parsePhrase .items { start := {} } (.start (tokenize source)) = .ok nodes [] t ∧
      (SyntaxTree.ofSource source).root.children = nodes := by
  obtain ⟨nodes, fs, t, hparse, htree⟩ := SyntaxTree.ofSource_eq source
  obtain rfl : fs = [] := by
    have hfaults := faultless_of_parse h
    rwa [htree] at hfaults
  exact ⟨nodes, t, hparse, by rw [htree]⟩

/-- Values stand in all places where no generator is wanted. -/
theorem settled_of_parse (h : Program.parse source = .ok p) : ∀ x ∈ p.elements, x.Settled := by
  obtain ⟨nodes, t, hparse, -⟩ := nodes_of_parse h
  have htidy := Grammar.parsePhrase_tidy source .items _ _ nodes t (by simp) hparse
  exact elements_of_nodes h hparse fun n hn => (htidy n hn).1.own

end Program
end Scad
