import Scad.Proofs.Grammar.Followed
import Scad.Proofs.Grammar.Matching

/-!
# Where broken statements break off

Behind a broken statement the parser moves on until a semicolon was passed or a statement starts. If
it broke off right behind a semicolon and in front of a name, nothing would be skipped, though the
name could start the next statement as well. This never happens: a statement that fails either
passed something else last, or it fails at a token that is no name (`statement_failed_clear`).
-/

namespace Scad

namespace Stream

/-- Not between a semicolon and a name. -/
def Clear (s : Stream) : Prop :=
  s.last.map (·.kind) = some .semicolon → s.peek.kind.isName = false

/-- Behind all tokens. -/
def finish (s : Stream) : Stream := ⟨[], 0, s.ahead.getLast?.or s.last, s.eof⟩

theorem finish_passes {s : Stream} (hs : s.Proper) : s.Passes s.ahead s.finish :=
  ⟨(List.append_nil _).symm, hs.count, rfl, rfl⟩

theorem clear_of_peek {s : Stream} (h : s.peek.kind.isName = false) : s.Clear := fun _ => h

theorem clear_of_ahead_eq_nil {s : Stream} (hs : s.Proper) (h : s.ahead = []) : s.Clear := by
  refine clear_of_peek ?_
  rw [(peek_kind_eq_eof hs).2 h]
  rfl

theorem finish_clear {s : Stream} (hs : s.Proper) : s.finish.Clear :=
  clear_of_ahead_eq_nil (hs.of_passes (finish_passes hs)) rfl

/-- Behind any token but a semicolon. -/
theorem advance_clear {s : Stream} (hs : s.Proper) (h : s.peek.kind ≠ .semicolon) :
    s.advance.Clear := by
  rcases s.advance_passes hs with ⟨hnil, he⟩ | hp
  · rw [he]
    exact clear_of_ahead_eq_nil hs hnil
  · intro hlast
    rw [hp.last] at hlast
    exact absurd (Option.some.inj hlast) h

end Stream

/-- A failure is always clear, and a success where this is asked for. -/
def Outcome.Clears (after : Bool) : Outcome → Prop
  | ok _ _ s => after = true → s.Clear
  | failed _ _ s => s.Clear

@[simp]
theorem Outcome.clears_after {c : Bool} {fs : List Fault} {o : Outcome} :
    (o.after fs).Clears c ↔ o.Clears c := by
  cases o <;> rfl

@[simp]
theorem Outcome.clears_map {c : Bool} {g : Stream → List Node → List Node} {o : Outcome} :
    (o.map g).Clears c ↔ o.Clears c := by
  cases o <;> rfl

/-- The phrases that are called in clear places only. -/
@[simp]
def Phrase.needsClear : Phrase → Bool
  | .body | .operators _ | .suffixes | .elements => true
  | _ => false

/-- The phrases that are left in clear places only. -/
@[simp]
def Phrase.leavesClear : Phrase → Bool
  | .items | .blockItems | .statement | .body => false
  | _ => true

def Phrases.Clear (f : Phrases) : Prop :=
  ∀ p fr (s : Stream), s.Proper → (p.needsClear = true → s.Clear) →
    (f p fr s).Clears p.leavesClear

namespace Rule

/-- From a clear place, if `before` is set, the rule fails in clear places only, and succeeds in them
if `after` is set. What is known of the next token is its kind. -/
@[simp]
def Clears : Option TokenKind → Bool → Bool → Rule → Prop
  | _, before, after, done => after = true → before = true
  | _, before, after, keep => after = true → before = true
  | known, _, after, take => after = true → ∃ k, known = some k ∧ k ≠ .semicolon
  | known, _, after, leaf _ => after = true → ∃ k, known = some k ∧ k ≠ .semicolon
  | _, before, after, expect k => before = true ∧ (after = true → k ≠ .semicolon)
  | _, before, after, closing k => after = true → before = true ∧ k ≠ .semicolon
  | _, before, _, refuse _ => before = true
  | known, before, after, seq a b => ∃ mid, a.Clears known before mid ∧
    b.Clears (if a.isStill then known else none) mid after
  | known, before, after, feed a b => ∃ mid, a.Clears known before mid ∧ b.Clears none mid after
  | known, before, after, as _ a => a.Clears known before after
  | known, before, after, build _ a => a.Clears known before after
  | known, before, after, fresh a => a.Clears known before after
  | _, before, after, look g => ∀ x, (g x).Clears (some x.kind) (before || !x.kind.isName) after
  | _, before, after, call p =>
    (p.needsClear = true → before = true) ∧ (after = true → p.leavesClear = true)
  | _, _, after, recover _ => after = false

theorem apply_clears {f : Phrases} (hf : f.Forward) (hc : f.Clear) :
    ∀ (r : Rule) (known : Option TokenKind) (before after : Bool) (fr : Frame) (s : Stream),
      r.Clears known before after → s.Proper → (∀ k, known = some k → s.peek.kind = k) →
      (before = true → s.Clear) → (r.apply f fr s).Clears after := by
  have proper : ∀ {r : Rule} {fr : Frame} {s u : Stream} {ns : List Node} {fs : List Fault},
      s.Proper → r.apply f fr s = .ok ns fs u → u.Proper := by
    intro r fr s u ns fs hs h
    obtain ⟨run, hp⟩ := apply_passes hf r fr s hs
    rw [h] at hp
    exact hs.of_passes hp
  intro r
  induction r with
  | done | keep =>
    intro known before after fr s hr _ _ hb hafter
    exact hb (hr hafter)
  | take | leaf g =>
    intro known before after fr s hr hs hk _ hafter
    obtain ⟨k, hknown, hne⟩ := hr hafter
    exact Stream.advance_clear hs (by rwa [hk k hknown])
  | expect k =>
    intro known before after fr s hr hs _ hb
    simp only [apply]
    split
    · rename_i hkind
      exact fun hafter => Stream.advance_clear hs (by rw [hkind]; exact hr.2 hafter)
    · exact hb hr.1
  | closing k =>
    intro known before after fr s hr hs _ hb
    simp only [apply]
    split
    · rename_i hkind
      exact fun hafter => Stream.advance_clear hs (by rw [hkind]; exact (hr hafter).2)
    · exact fun hafter => hb (hr hafter).1
  | refuse w =>
    intro known before after fr s hr _ _ hb
    exact hb hr
  | seq a b iha ihb =>
    intro known before after fr s hr hs hk hb
    obtain ⟨mid, ha, hb'⟩ := hr
    have ha := iha known before mid fr s ha hs hk hb
    simp only [apply]
    split
    · rename_i ns fs u hu
      rw [hu] at ha
      rw [Outcome.clears_after, Outcome.clears_map]
      refine ihb _ mid after fr u hb' (proper hs hu) (fun k hk' => ?_) ha
      split at hk'
      · rename_i hstill
        rw [stream_of_isStill hstill hu]
        exact hk k hk'
      · cases hk'
    · rename_i hu
      rw [hu] at ha
      exact ha
  | feed a b iha ihb =>
    intro known before after fr s hr hs hk hb
    obtain ⟨mid, ha, hb'⟩ := hr
    have ha := iha known before mid fr s ha hs hk hb
    simp only [apply]
    split
    · rename_i ns fs u hu
      rw [hu] at ha
      rw [Outcome.clears_after]
      exact ihb none mid after _ u hb' (proper hs hu) (by simp) ha
    · rename_i hu
      rw [hu] at ha
      exact ha
  | as _ a iha | build _ a iha =>
    intro known before after fr s hr hs hk hb
    rw [apply, Outcome.clears_map]
    exact iha known before after fr s hr hs hk hb
  | fresh a iha =>
    intro known before after fr s hr hs hk hb
    exact iha known before after _ s hr hs hk hb
  | look g ih =>
    intro known before after fr s hr hs _ hb
    refine ih s.look _ _ after fr s (hr s.look) hs (fun k hk => by simpa using hk) fun h => ?_
    rcases Bool.or_eq_true_iff.1 h with h | h
    · exact hb h
    · exact Stream.clear_of_peek (by simpa using h)
  | call p =>
    intro known before after fr s hr hs _ hb
    have hp := hc p fr s hs fun hneeds => hb (hr.1 hneeds)
    change (f p fr s).Clears after
    generalize f p fr s = o at hp
    cases o with
    | ok ns fs u => exact fun hafter => hp (hr.2 hafter)
    | failed e fs u => exact hp
  | recover a _ =>
    rintro known before after fr s rfl hs - -
    simp only [apply]
    split <;>
    · intro hafter
      cases hafter

end Rule

/-! ## The table -/

namespace Grammar

open Rule

theorem clears_ite {p : Prop} [Decidable p] {a b : Rule} {known : Option TokenKind}
    {before after : Bool} : (if p then a else b).Clears known before after ↔
      if p then a.Clears known before after else b.Clears known before after := by
  split <;> rfl

theorem argumentList_clears (known : Option TokenKind) : argumentList.Clears known true true := by
  refine ⟨true, by simp, true, fun x => ?_, by simp [all]⟩
  dsimp only
  split <;> simp_all

theorem bindingList_clears (known : Option TokenKind) : bindingList.Clears known true true := by
  simp [bindingList, assignments, node, all]

theorem parameterList_clears (known : Option TokenKind) : parameterList.Clears known true true := by
  simp [parameterList, node, all]

theorem callTail_clears (known : Option TokenKind) : callTail.Clears known true false := by
  intro x
  dsimp only
  split <;> simp

theorem statement_clears : statement.Clears none false false := by
  rintro ⟨k, x, k2⟩
  cases k with
  | identifier =>
    show (namedStatement _).Clears _ _ _
    unfold namedStatement
    split
    · split_ifs <;> simp [node, all, boundStatement, assertStatement, moduleCall,
        argumentList_clears, bindingList_clears, callTail_clears]
    · simp [node, all, declaration, expression]
    · simp [node, all, moduleCall, argumentList_clears, callTail_clears]
  | _ =>
    simp +contextual [node, all, moduleItem, functionItem, boundStatement, ifStatement,
      fileStatement, unionBlock, declaration, bindingList_clears, parameterList_clears, expression,
      clears_ite, TokenKind.isName]

theorem named_clears {g : Form → Rule} {w : Wanted} {known : Option TokenKind}
    {before after : Bool} (h : ∀ n k b, k ≠ .semicolon → (g n).Clears (some k) b after) :
    (named g w).Clears known before after := by
  rintro ⟨k, x, k2⟩
  cases k <;> simp [h, TokenKind.isName]

theorem binding_clears (n : Form) {k : TokenKind} (b : Bool) (hk : k ≠ .semicolon) :
    (binding n).Clears (some k) b true := by
  simp [binding, node, all, expression, hk]

theorem parameter_clears (n : Form) {k : TokenKind} (b : Bool) (hk : k ≠ .semicolon) :
    (parameter n).Clears (some k) b true := by
  simp +contextual [parameter, node, all, expression, hk, clears_ite]

theorem listOrRange_clears (b : Bool) : listOrRange.Clears (some .lbracket) b true := by
  have hlist (known : Option TokenKind) (before : Bool) (h : before = true) :
      (build .list (all [keep, call .elements, closing .rbracket])).Clears known before true := by
    simp [all, h]
  refine ⟨true, by simp, fun x => ?_⟩
  dsimp only
  split
  case h_6 =>
    refine ⟨true, by simp, fun x => ?_⟩
    dsimp only
    split_ifs
    · simp +contextual [rangeBounds, all, expression, clears_ite]
    · exact hlist _ _ rfl
  case h_1 => simp_all
  all_goals exact ⟨true, by simp, hlist _ _ rfl⟩

/-- Every rule of the table breaks off in clear places. -/
theorem rule_clears (p : Phrase) : (rule p).Clears none p.needsClear p.leavesClear := by
  cases p with
  | items | blockItems =>
    rintro ⟨k, x, k2⟩
    cases k <;> simp
  | statement => exact statement_clears
  | body =>
    intro x
    dsimp only
    split <;> simp
  | arguments =>
    refine ⟨true, ?_, ?_⟩
    · rintro ⟨k, x, k2⟩
      dsimp only
      split <;> simp [namedArgument, node, all, expression]
    · simp +contextual [clears_ite]
  | bindings =>
    rintro ⟨k, x, k2⟩
    dsimp only
    split
    case h_4 =>
      exact ⟨true, named_clears fun n _ b hk => binding_clears n b hk,
        by simp +contextual [clears_ite]⟩
    all_goals simp_all [TokenKind.isName]
  | parameters =>
    rintro ⟨k, x, k2⟩
    dsimp only
    split
    case h_3 =>
      exact ⟨true, named_clears fun n _ b hk => parameter_clears n b hk,
        by simp +contextual [clears_ite]⟩
    all_goals simp_all [TokenKind.isName]
  | element =>
    rintro ⟨k, x, k2⟩
    cases k <;> simp +contextual [node, all, expression, loopHead, bindingList_clears, assignments,
      clears_ite]
  | elements => simp +contextual [rule, elements, clears_ite]
  | expr l => simp [rule, expr]
  | operators l =>
    rintro ⟨k, x, k2⟩
    dsimp only
    split
    · simp
    · split_ifs <;> simp [all, expression]
  | unary =>
    rintro ⟨k, x, k2⟩
    cases k <;> simp [node, all]
  | primary =>
    rintro ⟨k, x, k2⟩
    cases k with
    | identifier =>
      dsimp only
      split_ifs <;> simp +contextual [guardExpression, node, all, expression, argumentList_clears,
        clears_ite]
    | _ =>
      simp [listOrRange_clears, node, all, expression, bindingList_clears, parameterList_clears,
        TokenKind.isName]
  | suffixes =>
    rintro ⟨k, x, k2⟩
    cases k <;> simp +contextual [all, argumentList_clears, expression, clears_ite]

/-! ## All phrases -/

/-- The induction over phrases where the calls that leave too much work, which the table never makes,
fail behind all tokens. -/
theorem parsePhrase_induct_end {P : Phrase → Frame → Stream → Outcome → Prop}
    (ended : ∀ p fr (s : Stream), s.Proper →
      P p fr s (.failed (.ofToken s.peek .statement) [] s.finish))
    (step : ∀ f : Phrases, f.Forward → f.Eating →
      (∀ p fr s, f p fr s = parsePhrase p fr s ∨
        f p fr s = .failed (.ofToken s.peek .statement) [] s.finish) →
      (∀ p fr s, s.Proper → P p fr s (f p fr s)) →
      ∀ p fr s, s.Proper → P p fr s ((rule p).apply f fr s))
    (p : Phrase) (fr : Frame) (s : Stream) (hs : s.Proper) : P p fr s (parsePhrase p fr s) := by
  induction hw : work p s using Nat.strongRecOn generalizing p fr s with
  | ind n ih =>
    subst hw
    let f : Phrases := fun q fr' t =>
      if work q t < work p s then parsePhrase q fr' t
      else .failed (.ofToken t.peek .statement) [] t.finish
    have hf : ∀ q fr' t, work q t < work p s → f q fr' t = parsePhrase q fr' t :=
      fun q fr' t h => if_pos h
    have hf' : ∀ q fr' t, ¬work q t < work p s →
        f q fr' t = .failed (.ofToken t.peek .statement) [] t.finish := fun q fr' t h => if_neg h
    have heq : parsePhrase p fr s = (rule p).apply f fr s := by
      rw [parsePhrase_eq_rule p fr s hs]
      exact apply_congr parsePhrase_passes parsePhrase_eating (fun q fr' t _ h => (hf q fr' t h).symm)
        (rule p) (rank p) false fr s hs (rule_guarded p) (by simp) (Nat.le_refl _)
    rw [heq]
    refine step f (fun q fr' t ht => ?_) (fun q fr' t ns fs u ht hq h => ?_) (fun q fr' t => ?_)
      (fun q fr' t ht => ?_) p fr s hs
    all_goals by_cases hlt : work q t < work p s
    · rw [hf q fr' t hlt]
      exact parsePhrase_passes q fr' t ht
    · rw [hf' q fr' t hlt]
      exact ⟨_, Stream.finish_passes ht⟩
    · rw [hf q fr' t hlt] at h
      exact parsePhrase_eating q fr' t ns fs u ht hq h
    · rw [hf' q fr' t hlt] at h
      cases h
    · exact .inl (hf q fr' t hlt)
    · exact .inr (hf' q fr' t hlt)
    · rw [hf q fr' t hlt]
      exact ih _ hlt q fr' t ht rfl
    · rw [hf' q fr' t hlt]
      exact ended q fr' t ht

theorem parsePhrase_clear : Phrases.Clear parsePhrase := by
  intro p fr s hs
  refine parsePhrase_induct_end
    (P := fun p _ s o => (p.needsClear = true → s.Clear) → o.Clears p.leavesClear)
    (fun p fr s hs _ => Stream.finish_clear hs) ?_ p fr s hs
  intro f forward _ _ hf p fr s hs hb
  exact apply_clears forward (fun p fr s hs => hf p fr s hs) (rule p) none _ _ fr s (rule_clears p)
    hs (by simp) hb

/-- A statement never fails between a semicolon and a name. -/
theorem statement_failed_clear {fr : Frame} {s t : Stream} {e : Fault} {fs : List Fault}
    (hs : s.Proper) (h : parsePhrase .statement fr s = .failed e fs t) : t.Clear := by
  have hclear := parsePhrase_clear .statement fr s hs (by simp)
  rw [h] at hclear
  exact hclear

end Grammar
end Scad
