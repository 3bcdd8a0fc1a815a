import Scad.Proofs.Grammar.Placed
import Scad.Tree.Labelled

/-!
# Nodes cover something

In the tree of a source without faults only the lists of arguments, bindings and parameters can be
empty: all other nodes cover at least one token, which was passed after the frame of the node began.
-/

namespace Scad

/-- The forms of lists in parentheses, which may be empty. -/
def Form.isRow : Form → Bool
  | assignments | arguments | parameters => true
  | _ => false

/-- Every node in this tree covers something, lists apart. -/
inductive Node.Solid : Node → Prop
  | mk {n : Node}
    (solid : ∀ f, Label.ofKind n.kind = .form f → f.isRow = false →
      n.region.start.byte < n.region.stop.byte)
    (inner : ∀ c ∈ n.children, c.Solid) : Solid n

theorem Node.Solid.inRole {n : Node} (h : n.Solid) (r : Role) : (n.inRole r).Solid := by
  obtain ⟨solid, inner⟩ := h
  exact .mk solid inner

namespace Rule

/-- Where a node is built, a token was passed since the frame began. The first flag tells that this is
known before the rule starts, the second one that a token is known to be ahead. -/
@[simp]
def Fills : Bool → Bool → Rule → Prop
  | m, e, seq a b => a.Fills m e ∧ (b.Fills m false ∨ a.Eats e ∧ b.Fills true false)
  | m, e, feed a b => a.Fills m e ∧ (b.Fills m false ∨ a.Eats e ∧ b.Fills true false)
  | m, e, as _ a => a.Fills m e
  | m, e, build g a => a.Fills m e ∧ (g.isRow = true ∨ m = true ∨ a.Eats e)
  | _, e, fresh a => a.Fills false e
  | m, _, look g => ∀ a, (g a).Fills m (a.kind ≠ .eof)
  | m, e, recover a => a.Fills m e
  | _, _, _ => True

end Rule

/-- The phrases give solid nodes. -/
def Phrases.Filling (f : Phrases) : Prop :=
  ∀ p fr s ns t, Stream.Even s → fr.start.byte ≤ s.position.byte → (∀ n ∈ fr.left, n.Solid) →
    f p fr s = .ok ns [] t → ∀ n ∈ ns, n.Solid

namespace Rule

theorem gives_solid {f : Phrases} (hf : f.Forward) (he : f.Eating) (hfill : f.Filling) :
    ∀ (r : Rule) (m e : Bool) (known : Option TokenKind) (fr : Frame) (s t : Stream)
      (ns : List Node), r.Fills m e → r.Worded known → s.Even →
      (∀ k, known = some k → s.peek.kind = k) → (e = true → s.peek.kind ≠ .eof) →
      fr.start.byte ≤ s.position.byte → (m = true → fr.start.byte < s.floor) →
      (∀ n ∈ fr.left, n.Solid) → Gives f r fr s ns t → ∀ n ∈ ns, n.Solid := by
  have passes : ∀ {r : Rule} {fr : Frame} {s t : Stream} {ns : List Node}, s.Even →
      Gives f r fr s ns t → ∃ run, s.Passes run t := by
    intro r fr s t ns hs h
    obtain ⟨run, hp⟩ := apply_passes hf r fr s hs.proper
    rw [h] at hp
    exact ⟨run, hp⟩
  have eaten : ∀ {r : Rule} {e : Bool} {fr : Frame} {s t : Stream} {ns : List Node}, r.Eats e →
      s.Even → (e = true → s.peek.kind ≠ .eof) → Gives f r fr s ns t → s.position.byte < t.floor := by
    intro r e fr s t ns hr hs hp h
    obtain ⟨run, hrun⟩ := passes hs h
    have hcount := count_lt_of_eats hf he r e fr s ns [] t hs.proper hr hp h
    exact hs.position_lt_floor hrun (hrun.ne_nil_of_count_lt hcount)
  -- what is known behind the first of two rules
  have behind : ∀ {a b : Rule} {m e : Bool} {fr : Frame} {s u : Stream} {x : List Node}, s.Even →
      (b.Fills m false ∨ a.Eats e ∧ b.Fills true false) → (e = true → s.peek.kind ≠ .eof) →
      fr.start.byte ≤ s.position.byte → (m = true → fr.start.byte < s.floor) →
      Gives f a fr s x u → u.Even ∧ fr.start.byte ≤ u.position.byte ∧
        ∃ m', b.Fills m' false ∧ (m' = true → fr.start.byte < u.floor) := by
    intro a b m e fr s u x hs hb hp hfr hm ha
    obtain ⟨run, hrun⟩ := passes hs ha
    refine ⟨hs.passes hrun, hfr.trans (hs.position_mono hrun), ?_⟩
    rcases hb with hb | ⟨heats, hb⟩
    · exact ⟨m, hb, fun h => (hm h).trans_le (hs.floor_mono hrun)⟩
    · exact ⟨true, hb, fun _ => hfr.trans_lt (eaten heats hs hp ha)⟩
  intro r
  induction r with
  | done | take =>
    intro m e known fr s t ns _ _ _ _ _ _ _ _ h
    obtain ⟨rfl, -⟩ : ns = [] ∧ _ := by simpa using h
    simp
  | keep =>
    intro m e known fr s t ns _ _ _ _ _ _ _ hl h
    obtain ⟨rfl, -⟩ := gives_keep.1 h
    exact hl
  | leaf g =>
    intro m e known fr s t ns _ hw hs hk _ _ _ _ h
    obtain ⟨rfl, -⟩ := gives_leaf.1 h
    obtain ⟨k, hknown, hne, -⟩ := hw
    rw [← hk k hknown] at hne
    have hsolid := hs.solid s.peek (by simp [(Stream.passes_peek hs.proper hne).ahead])
    intro n hn
    obtain rfl := List.mem_singleton.1 hn
    exact .mk (fun _ _ _ => hsolid) (by simp)
  | expect k | closing k =>
    intro m e known fr s t ns _ _ _ _ _ _ _ _ h
    obtain ⟨-, rfl, -⟩ : _ ∧ ns = [] ∧ _ := by simpa using h
    simp
  | refuse w => intro m e known fr s t ns _ _ _ _ _ _ _ _ h; simp at h
  | seq a b iha ihb =>
    intro m e known fr s t ns hr hw hs hk hp hfr hm hl h
    obtain ⟨x, u, y, ha, hb, rfl⟩ := gives_seq.1 h
    have h1 := iha m e known fr s u x hr.1 hw.1 hs hk hp hfr hm hl ha
    obtain ⟨hu, hfru, m', hb', hm'⟩ := behind hs hr.2 hp hfr hm ha
    have hku : ∀ k, (if a.isStill then known else none) = some k → u.peek.kind = k := by
      intro k hk'
      split at hk'
      · rename_i hstill
        rw [stream_of_isStill hstill ha]
        exact hk k hk'
      · cases hk'
    have h2 := ihb m' false _ fr u t y hb' hw.2 hu hku (by simp) hfru hm' hl hb
    intro n hn
    exact (List.mem_append.1 hn).elim (h1 n) (h2 n)
  | feed a b iha ihb =>
    intro m e known fr s t ns hr hw hs hk hp hfr hm hl h
    obtain ⟨x, u, ha, hb⟩ := gives_feed.1 h
    have h1 := iha m e known fr s u x hr.1 hw.1 hs hk hp hfr hm hl ha
    obtain ⟨hu, hfru, m', hb', hm'⟩ := behind hs hr.2 hp hfr hm ha
    exact ihb m' false none { fr with left := x } u t ns hb' hw.2 hu (by simp) (by simp) hfru hm' h1 hb
  | as r a iha =>
    intro m e known fr s t ns hr hw hs hk hp hfr hm hl h
    obtain ⟨x, ha, rfl⟩ := gives_as.1 h
    intro n hn
    obtain ⟨y, hy, rfl⟩ := List.mem_map.1 hn
    exact (iha m e known fr s t x hr hw.2 hs hk hp hfr hm hl ha y hy).inRole r
  | build g a iha =>
    intro m e known fr s t ns hr hw hs hk hp hfr hm hl h
    obtain ⟨x, ha, rfl⟩ := gives_build.1 h
    have hx := iha m e known fr s t x hr.1 hw.2 hs hk hp hfr hm hl ha
    intro n hn
    obtain rfl := List.mem_singleton.1 hn
    refine .mk (fun g' hg hrow => Stream.regionFrom_solid ?_) hx
    obtain ⟨run, hrun⟩ := passes hs ha
    obtain rfl : g = g' := Label.form.inj hg
    rcases hr.2 with h | h | h
    · rw [h] at hrow
      cases hrow
    · exact (hm h).trans_le (hs.floor_mono hrun)
    · exact hfr.trans_lt (eaten h hs hp ha)
  | fresh a iha =>
    intro m e known fr s t ns hr hw hs hk hp _ _ _ h
    exact iha false e known _ s t ns hr hw hs hk hp (Nat.le_refl _) (by simp) (by simp) h
  | look g ih =>
    intro m e known fr s t ns hr hw hs _ _ hfr hm hl h
    refine ih s.look m _ _ fr s t ns (hr _) (hw _) hs (fun k hk => Option.some.inj hk) ?_ hfr hm hl h
    simp
  | call p =>
    intro m e known fr s t ns _ _ hs _ _ hfr _ hl h
    exact hfill p fr s ns t hs hfr hl h
  | recover a iha =>
    intro m e known fr s t ns hr hw hs hk hp hfr hm hl h
    exact iha m e known fr s t ns hr hw hs hk hp hfr hm hl (gives_recover.1 h)

end Rule

/-! ## The table -/

namespace Grammar

open Rule

theorem fills_ite {p : Prop} [Decidable p] {a b : Rule} {m e : Bool} :
    (if p then a else b).Fills m e ↔ if p then a.Fills m e else b.Fills m e := by
  split <;> rfl

theorem argumentList_fills {m e : Bool} : argumentList.Fills m e := by
  simp only [argumentList, node, all, Fills, Form.isRow]
  refine ⟨trivial, .inl ⟨⟨fun a => ?_, .inl trivial⟩, .inl trivial⟩⟩
  split <;> trivial

theorem argumentList_eats {e : Bool} : argumentList.Eats e := by
  simp [argumentList, all, Eats]

theorem bindingList_fills {m e : Bool} : bindingList.Fills m e := by
  simp [bindingList, assignments, node, all, Form.isRow]

theorem parameterList_fills {m e : Bool} : parameterList.Fills m e := by
  simp [parameterList, node, all, Form.isRow]

theorem callTail_fills {m e : Bool} : callTail.Fills m e := by
  intro a
  dsimp only
  split <;> trivial

theorem statement_fills : statement.Fills false false := by
  rintro ⟨k, x, k2⟩
  cases k with
  | identifier =>
    show (namedStatement _).Fills false true
    unfold namedStatement
    split
    · split_ifs <;> simp [node, all, Eats, boundStatement, assertStatement, moduleCall,
        bindingList_fills, argumentList_fills, callTail_fills]
    · simp [node, all, Eats, declaration, expression]
    · simp [node, all, Eats, moduleCall, argumentList_fills, callTail_fills]
  | _ =>
    simp [node, all, Eats, moduleItem, functionItem, boundStatement, ifStatement, fileStatement,
      unionBlock, declaration, expression, bindingList_fills, parameterList_fills, fills_ite]

theorem named_fills {g : Form → Rule} {w : Wanted} {m e : Bool} (h : ∀ n, (g n).Fills m true) :
    (named g w).Fills m e := by
  rintro ⟨k, x, k2⟩
  cases k <;> simp [h]

theorem primary_fills : primary.Fills false false := by
  rintro ⟨k, x, k2⟩
  cases k with
  | identifier =>
    dsimp only
    split_ifs <;> simp [node, all, Eats, guardExpression, expression, argumentList_fills, fills_ite]
  | lbracket =>
    refine ⟨trivial, .inr ⟨rfl, fun a => ?_⟩⟩
    dsimp only
    split <;> simp [all, rangeBounds, expression, fills_ite]
  | _ => simp [node, all, Eats, expression, bindingList_fills, parameterList_fills]

/-- Where a rule of the table builds a node, a token was passed. -/
theorem rule_fills (p : Phrase) : (rule p).Fills false false := by
  cases p with
  | items | blockItems =>
    rintro ⟨k, x, k2⟩
    cases k <;> simp
  | statement => exact statement_fills
  | body =>
    intro a
    dsimp only
    split <;> trivial
  | arguments =>
    refine ⟨fun a => ?_, .inl fun a => ?_⟩
    · dsimp only
      split <;> simp [node, all, Eats, namedArgument, expression]
    · simp [fills_ite]
  | bindings =>
    intro a
    dsimp only
    split
    case h_4 =>
      refine ⟨named_fills fun n => ?_, .inl fun a => ?_⟩
      · simp [node, all, Eats, binding, expression]
      · simp [fills_ite]
    all_goals trivial
  | parameters =>
    intro a
    dsimp only
    split
    case h_3 =>
      refine ⟨named_fills fun n => ?_, .inl fun a => ?_⟩
      · simp [node, all, Eats, parameter, expression, fills_ite]
      · simp [fills_ite]
    all_goals trivial
  | element =>
    rintro ⟨k, x, k2⟩
    cases k <;> simp [node, all, Eats, expression, loopHead, assignments, fills_ite,
      bindingList_fills, Form.isRow]
  | elements => simp [rule, elements, fills_ite]
  | expr l => simp [rule, expr]
  | operators l =>
    intro a
    dsimp only
    split
    · trivial
    · split_ifs <;> simp [all, Eats, expression, Phrase.eats]
  | unary =>
    rintro ⟨k, x, k2⟩
    cases k <;> simp [node, all, Eats]
  | primary => exact primary_fills
  | suffixes =>
    rintro ⟨k, x, k2⟩
    cases k <;> simp [all, Eats, expression, argumentList_fills, argumentList_eats,
      fills_ite]

theorem parsePhrase_filling : Phrases.Filling parsePhrase := by
  intro p fr s ns t hs hfr hl h
  refine parsePhrase_induct_proper
    (P := fun _ fr s o => ∀ ns t, Stream.Even s → fr.start.byte ≤ s.position.byte →
      (∀ n ∈ fr.left, n.Solid) → o = .ok ns [] t → ∀ n ∈ ns, n.Solid)
    ?_ ?_ p fr s hs.proper ns t hs hfr hl h
  · intro p fr s ns t _ _ _ h
    cases h
  · intro f forward eating hf p fr s _ ns t hs hfr hl h
    have filling : f.Filling := fun p fr s ns t hs => hf p fr s hs.proper ns t hs
    exact gives_solid forward eating filling (rule p) false false none fr s t ns (rule_fills p)
      (rule_worded none p) hs (by simp) (by simp) hfr (by simp) hl h

/-- The statements of a file without faults are solid. -/
theorem items_solid {source : List Char} {nodes : List Node} {t : Stream}
    (h : parsePhrase .items { start := {} } (.start (tokenize source)) = .ok nodes [] t) :
    ∀ n ∈ nodes, n.Solid :=
  parsePhrase_filling .items _ _ nodes t (Stream.start_even source) (Nat.zero_le _) (by simp) h

end Grammar
end Scad
