import Scad.Proofs.Grammar.Broken
import Scad.Proofs.Grammar.Cover

/-!
# How far the parser looks ahead

What is parsed up to some place depends on the tokens up to there and on one more. To see this, the
tokens are compared with a part of them that ends later than that place: a phrase that stops in front
of the end of the part does the same on the part alone (`parsePhrase_foreseen`). Only where a phrase
fails in front of a name may the token behind the name have been the reason, and a broken statement
is never resumed there without passing the name.
-/

namespace Scad

namespace Stream

/-- All that the grammar may look at here is ahead: a token, and another one behind a name. -/
def InSight (s : Stream) : Prop :=
  ∃ t ts, s.ahead = t :: ts ∧ (t.kind.isName = true → ts ≠ [])

section

variable {s : Stream} {more : List Token} {eof : Token}

@[simp]
theorem followedBy_count : (s.followedBy more eof).count = s.count + more.length := rfl

theorem position_followedBy (h : s.ahead ≠ []) :
    (s.followedBy more eof).position = s.position := by
  rw [position, position, peek_followedBy h]

theorem gapPosition_followedBy (h : s.ahead ≠ []) :
    (s.followedBy more eof).gapPosition = s.gapPosition := by
  unfold gapPosition
  rw [followedBy_last, position_followedBy h]

/-- What is seen where all of it is ahead does not change. -/
theorem InSight.look_followedBy (h : s.InSight) :
    (s.followedBy more eof).look.kind = s.look.kind ∧
      (s.followedBy more eof).look.text = s.look.text ∧
      (s.look.kind.isName = true → (s.followedBy more eof).look.second = s.look.second) := by
  obtain ⟨t, ts, ht, hts⟩ := h
  have hne : s.ahead ≠ [] := by simp [ht]
  refine ⟨by simp [peek_followedBy hne], by simp [peek_followedBy hne], fun hn => ?_⟩
  have hpeek : s.peek = t := by
    rw [peek, ht]
    rfl
  obtain ⟨t', ts', rfl⟩ := List.exists_cons_of_ne_nil (hts (by simpa [hpeek] using hn))
  simp [look, followedBy, ht]

/-- In front of a token, only what stands behind the last one can be out of sight, and it matters only
if the last one is a name. -/
theorem inSight_of_isName (h : s.ahead ≠ [])
    (hs : s.peek.kind.isName = true → s.ahead.length ≠ 1) : s.InSight := by
  obtain ⟨t, ts, ht⟩ := List.exists_cons_of_ne_nil h
  have hpeek : s.peek = t := by
    rw [peek, ht]
    rfl
  refine ⟨t, ts, ht, fun hn => ?_⟩
  rintro rfl
  exact hs (by rwa [hpeek]) (by rw [ht]; rfl)

theorem Passes.eq_of_nil {t : Stream} (h : s.Passes [] t) : t = s := by
  obtain ⟨ahead, count, last, eof⟩ := s
  obtain ⟨ahead', count', last', eof'⟩ := t
  obtain ⟨h1, h2, h3, h4⟩ := h
  simp_all

/-- Moving on stops at the same place without the tokens behind it. -/
theorem seek_followedBy (eof' : Token) : ∀ (ts : List Token) (n : Nat) (last : Option Token),
    n = ts.length → more.length < (seek eof (ts ++ more) (n + more.length) last).count →
      seek eof (ts ++ more) (n + more.length) last = (seek eof' ts n last).followedBy more eof
  | [], n, last, hn, hc => by
    obtain ⟨run, hp⟩ := seek_passes eof ([] ++ more) (n + more.length) last (by simp [hn])
    have := hp.count_le
    simp only [hn, List.length_nil] at this hc
    omega
  | t :: ts, n, last, hn, hc => by
    have hn' : n + more.length - 1 = n - 1 + more.length := by
      have hn : n = ts.length + 1 := hn
      omega
    rw [List.cons_append, seek] at hc ⊢
    rw [seek]
    split at hc
    · rename_i hstop
      rw [if_pos hstop, if_pos hstop]
      rfl
    · rename_i hstop
      rw [if_neg hstop, if_neg hstop, hn']
      rw [hn'] at hc
      exact seek_followedBy eof' ts (n - 1) (some t) (by rw [hn]; rfl) hc

/-- Behind a fault the parser goes on at the same place. -/
theorem resume_followedBy (hs : s.Proper) (hne : s.ahead ≠ []) (began : Stream)
    (hc : more.length < ((s.followedBy more eof).resume (began.followedBy more eof)).count) :
    (s.followedBy more eof).resume (began.followedBy more eof) =
      (s.resume began).followedBy more eof := by
  have hseek : ∀ t : Stream, t.Proper →
      more.length < (seek eof (t.ahead ++ more) (t.count + more.length) t.last).count →
      seek eof (t.ahead ++ more) (t.count + more.length) t.last =
        (seek t.eof t.ahead t.count t.last).followedBy more eof :=
    fun t ht => seek_followedBy t.eof t.ahead t.count t.last ht.count
  obtain ⟨run, hp⟩ := s.exists_passes_advance hs
  unfold resume at hc ⊢
  simp only [followedBy_count, Nat.add_right_cancel_iff, peek_followedBy hne,
    advance_followedBy hs hne] at hc ⊢
  split at hc
  · rename_i hb
    rw [if_pos hb, if_pos hb]
    split at hc
    · rename_i hbrace
      rw [if_pos hbrace, if_pos hbrace]
    · rename_i hbrace
      rw [if_neg hbrace, if_neg hbrace]
      exact hseek s.advance (hs.of_passes hp) hc
  · rename_i hb
    rw [if_neg hb, if_neg hb]
    exact hseek s hs hc

/-- A statement that is resumed in front of a token saw all there was to see where it failed. -/
theorem inSight_of_resume (hs : s.Proper) (hne : s.ahead ≠ []) (hclear : s.Clear) (began : Stream)
    (hc : 0 < (s.resume began).count) : s.InSight := by
  refine inSight_of_isName hne fun hname hone => ?_
  obtain ⟨ahead, count, last, eof⟩ := s
  obtain ⟨t, rfl⟩ := List.length_eq_one_iff.1 hone
  obtain rfl : count = 1 := hs.count
  have hname : t.kind.isName = true := hname
  -- a name is passed unless it stands behind a semicolon
  have hstop : ((last.map (·.kind)) == some .semicolon || startsAfresh t.kind) = false := by
    rw [Bool.or_eq_false_iff]
    constructor
    · exact beq_eq_false_iff_ne.2 fun hlast => by simp [show t.kind.isName = false from hclear hlast] at hname
    · cases hk : t.kind <;> simp_all [TokenKind.isName, startsAfresh]
  simp [resume, advance, seek, hstop] at hc

/-- Where the parser goes on in front of the end of the part, all was in sight, and it goes on at the
same place there. -/
theorem resume_foreseen (hs : s.Proper) (hf : (s.followedBy more eof).Proper)
    (hclear : (s.followedBy more eof).Clear) (began : Stream)
    (hc : more.length < ((s.followedBy more eof).resume (began.followedBy more eof)).count) :
    s.InSight ∧ (s.followedBy more eof).resume (began.followedBy more eof) =
      (s.resume began).followedBy more eof := by
  have hne : s.ahead ≠ [] := by
    intro hnil
    obtain ⟨run, hp⟩ := resume_passes hf (began.followedBy more eof)
    have hle := hp.count_le
    rw [followedBy_count, hs.count, hnil, List.length_nil] at hle
    omega
  have hresume := resume_followedBy hs hne began hc
  refine ⟨inSight_of_resume hs hne (fun hlast => ?_) began ?_, hresume⟩
  · rw [← peek_followedBy hne]
    exact hclear hlast
  · rw [hresume, followedBy_count] at hc
    omega

end

end Stream

/-! ## Outcomes -/

/-- The second outcome is the first one without the tokens `more`, if it stops in front of them. A
failure is foreseen only where all that the grammar may look at is in sight. -/
inductive Foreseen (more : List Token) (eof : Token) : Outcome → Outcome → Prop
  | ok (ns : List Node) (fs : List Fault) (u : Stream) :
      Foreseen more eof (.ok ns fs (u.followedBy more eof)) (.ok ns fs u)
  | failed (e : Fault) (fs : List Fault) {u : Stream} {o : Outcome} (hu : u.Proper)
      (h : u.InSight → o = .failed e fs u) :
      Foreseen more eof (.failed e fs (u.followedBy more eof)) o
  | beyond {o o' : Outcome} (h : o.stream.count ≤ more.length) : Foreseen more eof o o'

section

variable {more : List Token} {eof : Token}

theorem Foreseen.after {o o' : Outcome} (h : Foreseen more eof o o') (fs : List Fault) :
    Foreseen more eof (o.after fs) (o'.after fs) := by
  cases h with
  | ok ns gs u => exact .ok ns (fs ++ gs) u
  | failed e gs hu h => exact .failed e (fs ++ gs) hu fun hi => by rw [h hi]; rfl
  | beyond h => exact .beyond (by simpa using h)

theorem Foreseen.map {o o' : Outcome} (h : Foreseen more eof o o')
    {g : Stream → List Node → List Node} (hg : ∀ u ns, g (u.followedBy more eof) ns = g u ns) :
    Foreseen more eof (o.map g) (o'.map g) := by
  cases h with
  | ok ns fs u =>
    rw [Outcome.map, hg]
    exact .ok _ fs u
  | failed e fs hu h => exact .failed e fs hu fun hi => by rw [h hi]; rfl
  | beyond h => exact .beyond (by simpa using h)

namespace Rule

/-- The rule looks behind a name only if it passes the name when it succeeds, and it recovers from
statements only. -/
@[simp]
def Nearsighted : Rule → Prop
  | seq a b => a.Nearsighted ∧ b.Nearsighted
  | feed a b => a.Nearsighted ∧ b.Nearsighted
  | as _ a => a.Nearsighted
  | build _ a => a.Nearsighted
  | fresh a => a.Nearsighted
  | recover a => a = call .statement
  | look g => (∀ x, (g x).Nearsighted) ∧
      ((∀ x y, y.kind = x.kind → y.text = x.text → g y = g x) ∨ (look g).Eats false)
  | _ => True

theorem apply_foreseen {f : Phrases} (hf : f.Forward) (he : f.Eating) (heof : eof.kind = .eof)
    (hmore : ∀ t ∈ more, t.kind ≠ .eof)
    (hclear : ∀ fr (s : Stream) e fs t, s.Proper → f .statement fr s = .failed e fs t → t.Clear)
    (hcall : ∀ p fr (s : Stream), s.Proper →
      Foreseen more eof (f p fr (s.followedBy more eof)) (Grammar.parsePhrase p fr s)) :
    ∀ (r : Rule) (fr : Frame) (s : Stream), r.Nearsighted → r.Careful → s.Proper →
      Foreseen more eof (r.apply f fr (s.followedBy more eof)) (r.apply Grammar.parsePhrase fr s) := by
  have proper : ∀ {s : Stream}, s.Proper → (s.followedBy more eof).Proper :=
    fun hs => Stream.proper_followedBy hs heof hmore
  have count : ∀ (r : Rule) (fr : Frame) {s : Stream}, s.Proper →
      (r.apply f fr s).stream.count ≤ s.count := by
    intro r fr s hs
    obtain ⟨run, hp⟩ := apply_passes hf r fr s hs
    exact hp.count_le
  -- where nothing is ahead without `more`, whatever is passed belongs to `more`
  have nothing : ∀ (r : Rule) (fr : Frame) {s : Stream} {o : Outcome}, s.Proper → s.ahead = [] →
      Foreseen more eof (r.apply f fr (s.followedBy more eof)) o := by
    intro r fr s o hs hnil
    have := count r fr (proper hs)
    rw [Stream.followedBy_count, hs.count, hnil, List.length_nil, Nat.zero_add] at this
    exact .beyond this
  -- the second of two rules goes on where the first one ended
  have row : ∀ {a b : Rule} {fr fr' : Frame} {s u : Stream} {ns : List Node} {fs : List Fault},
      s.Proper → a.apply Grammar.parsePhrase fr s = .ok ns fs u →
      (∀ fr s, s.Proper → Foreseen more eof (b.apply f fr (s.followedBy more eof))
        (b.apply Grammar.parsePhrase fr s)) →
      Foreseen more eof (b.apply f fr' (u.followedBy more eof))
        (b.apply Grammar.parsePhrase fr' u) := by
    intro a b fr fr' s u ns fs hs ha hb
    obtain ⟨run, hp⟩ := apply_passes Grammar.parsePhrase_passes a fr s hs
    rw [ha] at hp
    exact hb fr' u (hs.of_passes hp)
  -- and if the first one already went beyond, so does the second one
  have still : ∀ {a b : Rule} {fr fr' : Frame} {s v : Stream} {ns : List Node} {fs : List Fault},
      s.Proper → a.apply f fr (s.followedBy more eof) = .ok ns fs v → v.count ≤ more.length →
      (b.apply f fr' v).stream.count ≤ more.length := by
    intro a b fr fr' s v ns fs hs ha hv
    obtain ⟨run, hp⟩ := apply_passes hf a fr _ (proper hs)
    rw [ha] at hp
    exact Nat.le_trans (count b fr' ((proper hs).of_passes hp)) hv
  intro r
  induction r with
  | done => intro fr s _ _ _; exact .ok [] [] s
  | keep => intro fr s _ _ _; exact .ok fr.left [] s
  | take =>
    intro fr s _ _ hs
    by_cases hne : s.ahead = []
    · exact nothing _ fr hs hne
    · rw [apply, apply, Stream.advance_followedBy hs hne]
      exact .ok [] [] s.advance
  | leaf g =>
    intro fr s _ _ hs
    by_cases hne : s.ahead = []
    · exact nothing _ fr hs hne
    · rw [apply, apply, Stream.advance_followedBy hs hne, Stream.peek_followedBy hne]
      exact .ok _ [] s.advance
  | expect k =>
    intro fr s _ _ hs
    by_cases hne : s.ahead = []
    · exact nothing _ fr hs hne
    · rw [apply, apply, Stream.advance_followedBy hs hne, Stream.peek_followedBy hne]
      split
      · exact .ok [] [] s.advance
      · exact .failed _ [] hs fun _ => rfl
  | closing k =>
    intro fr s _ _ hs
    by_cases hne : s.ahead = []
    · exact nothing _ fr hs hne
    · rw [apply, apply, Stream.advance_followedBy hs hne, Stream.peek_followedBy hne,
        Stream.gapPosition_followedBy hne]
      split
      · exact .ok [] [] s.advance
      · exact .ok _ _ s
  | refuse w =>
    intro fr s _ _ hs
    by_cases hne : s.ahead = []
    · exact nothing _ fr hs hne
    · rw [apply, apply, Stream.peek_followedBy hne]
      exact .failed _ [] hs fun _ => rfl
  | seq a b iha ihb =>
    intro fr s hr hcare hs
    have ha := iha fr s hr.1 hcare.1 hs
    simp only [apply]
    generalize ho : a.apply f fr (s.followedBy more eof) = o at ha
    generalize ho' : a.apply Grammar.parsePhrase fr s = o' at ha
    cases ha with
    | ok ns fs u =>
      exact ((row hs ho' fun fr s => ihb fr s hr.2 hcare.2).map fun _ _ => rfl).after fs
    | failed e fs hu h => exact .failed e fs hu fun hi => by rw [h hi]
    | beyond h =>
      refine .beyond ?_
      cases o with
      | failed e fs v => exact h
      | ok ns fs v => simpa using still hs ho h
  | feed a b iha ihb =>
    intro fr s hr hcare hs
    have ha := iha fr s hr.1 hcare.1 hs
    simp only [apply]
    generalize ho : a.apply f fr (s.followedBy more eof) = o at ha
    generalize ho' : a.apply Grammar.parsePhrase fr s = o' at ha
    cases ha with
    | ok ns fs u => exact (row hs ho' fun fr s => ihb fr s hr.2 hcare.2).after fs
    | failed e fs hu h => exact .failed e fs hu fun hi => by rw [h hi]
    | beyond h =>
      refine .beyond ?_
      cases o with
      | failed e fs v => exact h
      | ok ns fs v => simpa using still hs ho h
  | as _ a iha =>
    intro fr s hr hcare hs
    exact (iha fr s hr hcare hs).map fun _ _ => rfl
  | build g a iha =>
    intro fr s hr hcare hs
    exact (iha fr s hr hcare hs).map fun _ _ => rfl
  | fresh a iha =>
    intro fr s hr hcare hs
    by_cases hne : s.ahead = []
    · exact nothing (fresh a) fr hs hne
    · rw [apply, apply, Stream.position_followedBy hne]
      exact iha _ s hr hcare hs
  | look g ih =>
    intro fr s hr hcare hs
    by_cases hsame : g (s.followedBy more eof).look = g s.look
    · rw [apply, apply, hsame]
      exact ih s.look fr s (hr.1 _) (hcare.1 _) hs
    by_cases hne : s.ahead = []
    · exact nothing (look g) fr hs hne
    -- the token behind a name made a difference: the name is passed, or the rule fails in front of it
    have hnot : ¬ s.InSight := by
      intro hi
      obtain ⟨hkind, htext, hsecond⟩ := @Stream.InSight.look_followedBy _ more eof hi
      exact hsame (hcare.2 _ _ hkind htext hsecond)
    have heats : (look g).Eats false := hr.2.resolve_left fun hblind =>
      hsame (hblind _ _ (by simp [Stream.peek_followedBy hne]) (by simp [Stream.peek_followedBy hne]))
    have hone : s.count = 1 := by
      rw [hs.count]
      by_contra hlen
      exact hnot (Stream.inSight_of_isName hne fun _ => hlen)
    obtain ⟨run, hp⟩ := apply_passes hf (look g) fr _ (proper hs)
    generalize ho : (look g).apply f fr (s.followedBy more eof) = o at hp
    by_cases hc : o.stream.count ≤ more.length
    · exact .beyond hc
    cases o with
    | ok ns fs v =>
      have hlt := count_lt_of_eats hf he (look g) false fr _ ns fs v (proper hs) heats (by simp) ho
      rw [Stream.followedBy_count, hone] at hlt
      rw [Outcome.stream_ok] at hc
      omega
    | failed e fs v =>
      have hle := hp.count_le
      rw [Stream.followedBy_count, hone] at hle
      have hnil := hp.eq_nil_of_count (by
        rw [Stream.followedBy_count, hone]
        exact Nat.le_antisymm hle (by omega))
      subst hnil
      obtain rfl : v = s.followedBy more eof := hp.eq_of_nil
      exact .failed e fs hs fun hi => absurd hi hnot
  | call p =>
    intro fr s _ _ hs
    exact hcall p fr s hs
  | recover a _ =>
    intro fr s hr _ hs
    obtain rfl : a = call .statement := hr
    by_cases hne : s.ahead = []
    · exact nothing _ fr hs hne
    have hst := hcall .statement fr s hs
    simp only [apply]
    generalize ho : f .statement fr (s.followedBy more eof) = o at hst
    generalize Grammar.parsePhrase .statement fr s = o' at hst
    cases hst with
    | ok ns fs u => exact .ok ns fs u
    | beyond h =>
      refine .beyond ?_
      cases o with
      | ok ns fs v => exact h
      | failed e fs v =>
        obtain ⟨run, hp⟩ := hf .statement fr _ (proper hs)
        rw [ho] at hp
        obtain ⟨run', hp'⟩ := Stream.resume_passes ((proper hs).of_passes hp) (s.followedBy more eof)
        exact Nat.le_trans hp'.count_le h
    | @failed e fs u _ hu h =>
      dsimp only
      by_cases hc : ((u.followedBy more eof).resume (s.followedBy more eof)).count ≤ more.length
      · exact .beyond hc
      have hclear := hclear fr _ e fs _ (proper hs) ho
      obtain ⟨hi, hresume⟩ :=
        Stream.resume_foreseen hu (proper hu) hclear s (Nat.lt_of_not_le hc)
      rw [hresume, h hi, Stream.position_followedBy hne]
      exact .ok _ _ (u.resume s)

end Rule
end

/-! ## The table -/

namespace Grammar

open Rule

theorem nearsighted_ite {p : Prop} [Decidable p] {a b : Rule} :
    (if p then a else b).Nearsighted ↔ if p then a.Nearsighted else b.Nearsighted := by
  split <;> rfl

theorem argumentList_nearsighted : argumentList.Nearsighted := by
  simp only [argumentList, node, all, Nearsighted, true_and, and_true]
  refine ⟨fun x => ?_, .inl fun x y hk _ => by rw [hk]⟩
  split <;> trivial

theorem callTail_nearsighted : callTail.Nearsighted := by
  refine ⟨fun x => ?_, .inl fun x y hk _ => by dsimp only; rw [hk]⟩
  dsimp only
  split <;> trivial

theorem named_nearsighted {g : Form → Rule} {w : Wanted} (h : ∀ n, (g n).Nearsighted) :
    (named g w).Nearsighted := by
  refine ⟨?_, .inl fun x y hk _ => by dsimp only; rw [hk]⟩
  rintro ⟨k, x, k2⟩
  cases k <;> simp [h]

theorem namedStatement_nearsighted (x : Ahead) : (namedStatement x).Nearsighted := by
  unfold namedStatement
  split
  · split_ifs <;> simp [node, all, boundStatement, assertStatement, moduleCall, bindingList,
      assignments, argumentList_nearsighted, callTail_nearsighted]
  · simp [node, all, declaration, expression]
  · simp [node, all, moduleCall, argumentList_nearsighted, callTail_nearsighted]

theorem statement_nearsighted : statement.Nearsighted := by
  refine ⟨?_, .inr statement_eats⟩
  rintro ⟨k, x, k2⟩
  cases k with
  | identifier => exact namedStatement_nearsighted _
  | _ =>
    simp +contextual [node, all, moduleItem, functionItem, boundStatement, ifStatement, fileStatement,
      unionBlock, declaration, expression, bindingList, assignments, parameterList, nearsighted_ite]

theorem listOrRange_nearsighted : listOrRange.Nearsighted := by
  refine ⟨trivial, fun x => ?_, .inl fun x y hk _ => by dsimp only; rw [hk]⟩
  dsimp only
  split <;> simp +contextual [all, expression, rangeBounds, nearsighted_ite]

theorem primary_nearsighted : primary.Nearsighted := by
  refine ⟨?_, .inr primary_eats⟩
  rintro ⟨k, x, k2⟩
  cases k with
  | identifier =>
    dsimp only
    split_ifs <;> simp +contextual [node, all, guardExpression, expression, nearsighted_ite,
      argumentList_nearsighted]
  | _ =>
    simp [node, all, expression, bindingList, assignments, parameterList, listOrRange_nearsighted]

/-- Every rule of the table is nearsighted. -/
theorem rule_nearsighted (p : Phrase) : (rule p).Nearsighted := by
  cases p with
  | items | blockItems =>
    refine ⟨?_, .inl fun x y hk _ => by dsimp only; rw [hk]⟩
    rintro ⟨k, x, k2⟩
    cases k <;> simp
  | statement => exact statement_nearsighted
  | body =>
    refine ⟨fun x => ?_, .inr (rule_eats .body rfl)⟩
    dsimp only
    split <;> trivial
  | arguments =>
    refine ⟨⟨fun x => ?_, .inr (argument_eats false)⟩, ?_⟩
    · dsimp only
      split <;> simp [node, all, namedArgument, expression]
    · simp +contextual [nearsighted_ite]
  | bindings =>
    refine ⟨fun x => ?_, .inl fun x y hk _ => by dsimp only; rw [hk]⟩
    dsimp only
    split
    case h_4 =>
      refine ⟨named_nearsighted fun n => ?_, ?_⟩
      · simp [node, all, binding, expression]
      · simp +contextual [nearsighted_ite]
    all_goals trivial
  | parameters =>
    refine ⟨fun x => ?_, .inl fun x y hk _ => by dsimp only; rw [hk]⟩
    dsimp only
    split
    case h_3 =>
      refine ⟨named_nearsighted fun n => ?_, ?_⟩
      · simp +contextual [node, all, parameter, expression, nearsighted_ite]
      · simp +contextual [nearsighted_ite]
    all_goals trivial
  | element =>
    refine ⟨?_, .inl fun x y hk _ => by dsimp only; rw [hk]⟩
    rintro ⟨k, x, k2⟩
    cases k <;> simp +contextual [node, all, expression, loopHead, assignments, bindingList,
      nearsighted_ite]
  | elements => simp +contextual [rule, elements, nearsighted_ite]
  | expr l => simp [rule, expr]
  | operators l =>
    refine ⟨fun x => ?_, .inl fun x y hk _ => by dsimp only; rw [hk]⟩
    dsimp only
    split
    · trivial
    · split_ifs <;> simp [all, expression]
  | unary =>
    refine ⟨?_, .inl fun x y hk _ => by dsimp only; rw [hk]⟩
    rintro ⟨k, x, k2⟩
    cases k <;> simp [node, all]
  | primary => exact primary_nearsighted
  | suffixes =>
    refine ⟨?_, .inl fun x y hk _ => by dsimp only; rw [hk]⟩
    rintro ⟨k, x, k2⟩
    cases k <;> simp +contextual [all, expression, nearsighted_ite, argumentList_nearsighted]

/-! ## All phrases -/

/-- What a phrase does on some tokens it also does on a part of them, if it stops in front of the
end of the part. -/
theorem parsePhrase_foreseen {more : List Token} {eof : Token} (he : eof.kind = .eof)
    (hm : ∀ t ∈ more, t.kind ≠ .eof) (p : Phrase) (fr : Frame) (s : Stream) (hs : s.Proper) :
    Foreseen more eof (parsePhrase p fr (s.followedBy more eof)) (parsePhrase p fr s) := by
  refine parsePhrase_induct_end (P := fun p fr s' o => ∀ s : Stream, s.Proper →
    s' = s.followedBy more eof → Foreseen more eof o (parsePhrase p fr s)) ?_ ?_ p fr _
    (Stream.proper_followedBy hs he hm) s hs rfl
  · rintro p fr _ - s - rfl
    exact .beyond (Nat.zero_le _)
  · rintro f forward eating hcases hf p fr _ - s hs rfl
    rw [parsePhrase_eq_rule p fr s hs]
    refine Rule.apply_foreseen forward eating he hm (fun fr s e fs t hs h => ?_)
      (fun p fr s hs => hf p fr _ (Stream.proper_followedBy hs he hm) s hs rfl) (rule p) fr s
      (rule_nearsighted p) (rule_careful p) hs
    rcases hcases .statement fr s with heq | heq
    · exact statement_failed_clear hs (heq ▸ h)
    · obtain ⟨-, -, rfl⟩ := Outcome.failed.inj (heq.symm.trans h)
      exact Stream.finish_clear hs

/-! ## Lists of statements -/

/-- A node spans one run from the start of the tokens, and no longer one. -/
theorem spans_no_longer {n : Node} {run more ts : List Token} (ha : Token.Ordered ts)
    (hw : ∀ t ∈ ts, t.region.start.byte < t.region.stop.byte) (h : n.Spans run)
    (h' : n.Spans (run ++ more)) (hp : run ++ more <+: ts) : more = [] := by
  by_contra hne
  obtain ⟨a, b, -, hb, hr⟩ := h
  obtain ⟨a', b', -, hb', hr'⟩ := h'
  have hstop : b.region.stop = b'.region.stop := (Region.mk.inj (hr.symm.trans hr')).2
  obtain ⟨c, hc⟩ : ∃ c, more.getLast? = some c := ⟨_, List.getLast?_eq_some_getLast hne⟩
  rw [List.getLast?_append, hc] at hb'
  obtain rfl : c = b' := Option.some.inj hb'
  have hcmem : c ∈ more := List.mem_of_getLast? hc
  have hle := (List.pairwise_append.1 (ha.sublist hp.sublist)).2.2 b (List.mem_of_getLast? hb) c hcmem
  have hlt := hw c (hp.subset (List.mem_append_right run hcmem))
  rw [hstop] at hle
  omega

theorem spans_unique {n : Node} {run run' ts : List Token} (ha : Token.Ordered ts)
    (hw : ∀ t ∈ ts, t.region.start.byte < t.region.stop.byte) (h : n.Spans run)
    (h' : n.Spans run') (hp : run <+: ts) (hp' : run' <+: ts) : run = run' := by
  rcases List.prefix_or_prefix_of_prefix hp hp' with ⟨m, rfl⟩ | ⟨m, rfl⟩
  · rw [spans_no_longer ha hw h h' hp', List.append_nil]
  · rw [spans_no_longer ha hw h' h hp, List.append_nil]

/-- The first of the nodes that split tokens from their start takes its own run away. -/
theorem split_tail {n : Node} {ns : List Node} {run rest : List Token} {j : Nat}
    (ha : Token.Ordered (run ++ rest))
    (hw : ∀ t ∈ run ++ rest, t.region.start.byte < t.region.stop.byte) (hn : n.Spans run)
    (h : Node.Split (n :: ns) ((run ++ rest).take j)) :
    run.length ≤ j ∧ Node.Split ns (rest.take (j - run.length)) := by
  obtain ⟨_, hflat, hruns⟩ := h
  cases hruns with
  | @cons _ run' _ runs hn' hruns =>
    rw [List.flatten_cons] at hflat
    obtain rfl : run' = run := spans_unique ha hw hn' hn
      ((List.prefix_append _ _).trans (hflat ▸ List.take_prefix j _)) (List.prefix_append _ _)
    have hle : run'.length ≤ j := by
      have hlen := congrArg List.length hflat
      rw [List.length_append, List.length_take] at hlen
      omega
    refine ⟨hle, runs, ?_, hruns⟩
    rw [List.take_append, List.take_of_length_le hle] at hflat
    exact List.append_cancel_left hflat

/-- A list of statements is one statement, broken or not, and the list of the others. -/
theorem items_first {ts : List Token} {fr : Frame} {s t : Stream} {ns : List Node} {fs : List Fault}
    (hl : fr.left = []) (hs : s.At ts) (hne : s.ahead ≠ [])
    (h : parsePhrase .items fr s = .ok ns fs t) :
    ∃ n run gs u ns' gs', (recover (call .statement)).apply parsePhrase fr s = .ok [n] gs u ∧
      s.Passes run u ∧ n.Spans run ∧ parsePhrase .items fr u = .ok ns' gs' t ∧ ns = n :: ns' := by
  rw [items_of_token hs.proper hne, seq_eq_ok] at h
  obtain ⟨m, gs, u, ns', gs', hfirst, hrest, rfl, -⟩ := h
  have hpeek : s.peek.kind ≠ .eof := fun hk => hne ((Stream.peek_kind_eq_eof hs.proper).1 hk)
  obtain ⟨n, run, rfl, hp, hspans, -⟩ := recover_spans parsePhrase_passes hs hpeek
    (fun ns fs t h => (parsePhrase_covers .statement fr s t ns fs hs (by simp [hl]) h).statement rfl)
    hfirst
  exact ⟨n, run, gs, u, ns', gs', hfirst, hp, hspans, hrest, rfl⟩

section

variable {more : List Token} {eof : Token} (he : eof.kind = .eof) (hm : ∀ t ∈ more, t.kind ≠ .eof)
include he hm

theorem recover_foreseen (fr : Frame) (s : Stream) (hs : s.Proper) :
    Foreseen more eof ((recover (call .statement)).apply parsePhrase fr (s.followedBy more eof))
      ((recover (call .statement)).apply parsePhrase fr s) :=
  Rule.apply_foreseen parsePhrase_passes parsePhrase_eating he hm
    (fun _ _ _ _ _ => statement_failed_clear) (parsePhrase_foreseen he hm) _ fr s rfl trivial hs

/-- The first statements of a file are the same in a part of it that has at least one more token. -/
theorem items_foreseen {ts : List Token}
    (hw : ∀ t ∈ ts, t.region.start.byte < t.region.stop.byte) {fr : Frame} (hl : fr.left = []) :
    ∀ (k j : Nat) (s : Stream) (ns ns' : List Node) (fs fs' : List Fault) (t t' : Stream),
      s.Proper → (s.followedBy more eof).At ts →
      parsePhrase .items fr (s.followedBy more eof) = .ok ns fs t →
      parsePhrase .items fr s = .ok ns' fs' t' →
      Node.Split (ns.take k) ((s.followedBy more eof).ahead.take j) → j < s.ahead.length →
      ns'.take k = ns.take k := by
  intro k
  induction k with
  | zero => intros; rfl
  | succ k ih =>
    intro j s ns ns' fs fs' t t' hs hat h h' hsplit hj
    have hne : s.ahead ≠ [] := List.ne_nil_of_length_pos (by omega)
    obtain ⟨n, run, gs, u, rest, gs', hfirst, hp, hspans, hrest, rfl⟩ :=
      items_first hl hat (by simp [Stream.followedBy, hne]) h
    rw [List.take_succ_cons, hp.ahead] at hsplit
    obtain ⟨hle, hsplit⟩ := split_tail (hp.ahead ▸ hat.aligned.ordered)
      (fun t ht => hw t (hat.suffix.subset (hp.ahead ▸ ht))) hspans hsplit
    -- the statement stops in front of the end of the part
    have hfore := recover_foreseen he hm fr s hs
    rw [hfirst] at hfore
    generalize hfirst' : (recover (call .statement)).apply parsePhrase fr s = o at hfore
    have hcount := hp.count
    rw [Stream.followedBy_count, hs.count] at hcount
    cases hfore with
    | beyond hbeyond =>
      rw [Outcome.stream_ok] at hbeyond
      omega
    | ok _ _ v =>
      rw [items_of_token hs hne, seq_eq_ok] at h'
      obtain ⟨_, _, _, rest', gs'', hfirst'', hrest', rfl, -⟩ := h'
      obtain ⟨rfl, rfl, rfl⟩ := Outcome.ok.inj (hfirst'.symm.trans hfirst'')
      obtain ⟨run', hp'⟩ := apply_passes parsePhrase_passes (recover (call .statement)) fr s hs
      rw [hfirst'] at hp'
      have hv : v.Proper := hs.of_passes hp'
      rw [Stream.followedBy_count, hv.count] at hcount
      rw [List.singleton_append, List.take_succ_cons, List.take_succ_cons,
        ih (j - run.length) v rest rest' gs' gs'' t t' hv (hat.of_passes hp) hrest hrest' hsplit
          (by omega)]

end

end Grammar

namespace SyntaxTree

/-- Where the first `k` statements of a source, broken or not, take up its first `j` tokens, these
statements are the same if only the first `n` tokens are parsed, for any `n` above `j`. -/
theorem statements_foreseen (source : List Char) (k j n : Nat)
    (h : Node.Split ((ofSource source).root.children.take k) ((tokenize source).tokens.take j))
    (hn : j < n) :
    (ofTokens ((tokenize source).cut n)).root.children.take k =
      (ofSource source).root.children.take k := by
  by_cases hlen : n ≤ (tokenize source).tokens.length
  · -- the tokens are those of the part, followed by the others
    have hat := Stream.start_at source
    have hfull : (Stream.start ((tokenize source).cut n)).followedBy ((tokenize source).tokens.drop n)
        (tokenize source).eof = Stream.start (tokenize source) := by
      rw [Lexer.Tokens.cut, if_pos hlen]
      simp only [Stream.start, Stream.followedBy, List.take_append_drop, List.length_take,
        List.length_drop, Stream.mk.injEq, true_and, and_true]
      omega
    have hpart : (Stream.start ((tokenize source).cut n)).Proper := by
      rw [Lexer.Tokens.cut, if_pos hlen]
      exact ⟨rfl, rfl, fun t ht => hat.proper.inside t (List.mem_of_mem_take ht)⟩
    have hlength : (Stream.start ((tokenize source).cut n)).ahead.length = n := by
      rw [Lexer.Tokens.cut, if_pos hlen]
      exact List.length_take_of_le hlen
    have hmore : ∀ t ∈ (tokenize source).tokens.drop n, t.kind ≠ .eof :=
      fun t ht => hat.proper.inside t (List.mem_of_mem_drop ht)
    obtain ⟨ns, fs, t, hparse, htree⟩ := ofSource_eq source
    obtain ⟨ns', fs', t', hparse'⟩ := Grammar.parsePhrase_items_ok { start := {} } _ hpart
    rw [htree] at h ⊢
    rw [ofTokens, hparse']
    rw [← hfull] at hparse hat
    refine Grammar.items_foreseen rfl hmore (fun t ht => (tokenize_sound source t ht).start_lt_stop)
      rfl k j _ ns ns' fs fs' t t' hpart hat hparse hparse' ?_ (by rw [hlength]; exact hn)
    rw [hfull]
    exact h
  · rw [Lexer.Tokens.cut, if_neg hlen]
    rfl

/-- The first statement lacks its value, and the second one is cut off behind its name. -/
theorem statements_foreseen_broken :
    Node.Split ((ofSource "x = +; a = 2;".toList).root.children.take 1)
        ((tokenize "x = +; a = 2;".toList).tokens.take 4) ∧ 4 < 5 ∧
      (ofTokens ((tokenize "x = +; a = 2;".toList).cut 5)).root.children.take 1 =
        (ofSource "x = +; a = 2;".toList).root.children.take 1 := by
  have hregion : ((ofSource "x = +; a = 2;".toList).root.children.take 1).map (·.region) =
      [⟨⟨0, 0, 0⟩, ⟨6, 0, 6⟩⟩] := by
    decide +kernel
  have hfirst : ((tokenize "x = +; a = 2;".toList).tokens.take 4).head? =
      some ⟨.identifier, "x", ⟨⟨0, 0, 0⟩, ⟨1, 0, 1⟩⟩⟩ := by
    decide +kernel
  have hlast : ((tokenize "x = +; a = 2;".toList).tokens.take 4).getLast? =
      some ⟨.semicolon, ";", ⟨⟨5, 0, 5⟩, ⟨6, 0, 6⟩⟩⟩ := by
    decide +kernel
  have hsplit : Node.Split ((ofSource "x = +; a = 2;".toList).root.children.take 1)
      ((tokenize "x = +; a = 2;".toList).tokens.take 4) := by
    obtain ⟨n, hn, hr⟩ := List.map_eq_singleton_iff.1 hregion
    rw [hn]
    exact ⟨[_], List.flatten_singleton, .cons ⟨_, _, hfirst, hlast, hr⟩ .nil⟩
  exact ⟨hsplit, by decide, statements_foreseen _ 1 4 5 hsplit (by decide)⟩

end SyntaxTree
end Scad
