import Scad.Proofs.Grammar.Late

/-!
# The order of faults

Faults are noted while the tokens are passed, but not all at the place that was reached: a closing
token is missed behind the token passed last. Still they come in the order of the source, with one
exception. Where the source ends within a statement, this is noted at the very end of the text, and
the braces that are still open are missed after that, behind the last token (`faults_inOrder`).
Blanks or a comment at the end of the text tell the two places apart.
-/

namespace Scad

/-! ## Outcomes -/

namespace Outcome

/-- The faults noted on the way. -/
def faults : Outcome → List Fault
  | ok _ fs _ => fs
  | failed _ fs _ => fs

@[simp]
theorem faults_ok (nodes : List Node) (fs : List Fault) (s : Stream) :
    (ok nodes fs s).faults = fs := rfl

@[simp]
theorem faults_failed (fault : Fault) (fs : List Fault) (s : Stream) :
    (failed fault fs s).faults = fs := rfl

@[simp]
theorem faults_after (fs : List Fault) (o : Outcome) : (o.after fs).faults = fs ++ o.faults := by
  cases o <;> rfl

@[simp]
theorem faults_map (f : Stream → List Node → List Node) (o : Outcome) :
    (o.map f).faults = o.faults := by
  cases o <;> rfl

/-- A rule fails at the token that is next. -/
def Stops : Outcome → Prop
  | ok _ _ _ => True
  | failed fault _ t => ∃ w, fault = .ofToken t.peek w

@[simp]
theorem stops_after {fs : List Fault} {o : Outcome} : (o.after fs).Stops ↔ o.Stops := by
  cases o <;> rfl

@[simp]
theorem stops_map {f : Stream → List Node → List Node} {o : Outcome} :
    (o.map f).Stops ↔ o.Stops := by
  cases o <;> rfl

end Outcome

/-! ## Faults between two places -/

namespace Stream

variable {s t u : Stream} {run : List Token}

/-- Behind the last of all tokens. -/
def ending (s : Stream) : Position :=
  ((s.ahead.getLast?.or s.last).map (·.region.stop)).getD s.eof.region.start

theorem Passes.ending_eq (h : s.Passes run t) : t.ending = s.ending := by
  rw [ending, ending, h.eof, h.last, h.ahead, List.getLast?_append, Option.or_assoc]

theorem ending_of_eof (hs : s.Proper) (h : s.peek.kind = .eof) :
    s.peek = s.eof ∧ s.gapPosition = s.ending := by
  have hnil := (peek_kind_eq_eof hs).1 h
  have hpeek : s.peek = s.eof := by
    rw [peek, hnil]
    rfl
  refine ⟨hpeek, ?_⟩
  rw [gapPosition, ending, hnil, position, hpeek]
  cases s.last <;> rfl

/-- Two faults in the order of the source; or else the first one is that the source ends, and the
second one a brace missed behind the last token. -/
def InOrder (s : Stream) (f g : Fault) : Prop :=
  f.region.start.byte ≤ g.region.start.byte ∨
    (∃ w, f = .ofToken s.eof w) ∧ g = .absent .rbrace s.ending

theorem Passes.inOrder_iff (h : s.Passes run t) {f g : Fault} : t.InOrder f g ↔ s.InOrder f g := by
  rw [InOrder, InOrder, h.eof, h.ending_eq]

/-- Faults noted on the way from a place to where it led. They stand behind `lo` and in order. Those
at the token that is now next are *pending*, unless there can be none (`quiet`): all others have
been left behind. -/
structure Noted (s : Stream) (lo : Nat) (quiet : Prop) (t : Stream) (fs : List Fault) : Prop where
  after : ∀ f ∈ fs, lo ≤ f.region.start.byte
  before : ∀ f ∈ fs, f.region.start.byte ≤ t.gapPosition.byte ∨
    ¬ quiet ∧ ∃ w, f = .ofToken t.peek w
  inOrder : fs.Pairwise s.InOrder

variable {lo : Nat} {q q' : Prop} {fs gs : List Fault}

theorem noted_nil : s.Noted lo q t [] := ⟨by simp, by simp, .nil⟩

theorem Noted.mono {lo' : Nat} (h : s.Noted lo q t fs) (hlo : lo' ≤ lo) (hq : q' → q) :
    s.Noted lo' q' t fs :=
  ⟨fun f hf => hlo.trans (h.after f hf),
    fun f hf => (h.before f hf).imp_right fun ⟨hn, hw⟩ => ⟨fun h => hn (hq h), hw⟩, h.inOrder⟩

/-- No fault stands behind the token that is next. -/
theorem Noted.le_position (h : s.Noted lo q t fs) (ht : t.Even) {f : Fault} (hf : f ∈ fs) :
    f.region.start.byte ≤ t.position.byte := by
  rcases h.before f hf with h | ⟨-, w, rfl⟩
  · exact h.trans ht.gap_le
  · exact Nat.le_refl _

/-- Faults stay where they are noted when more tokens are passed. -/
theorem Noted.passes (h : s.Noted lo q t fs) (ht : t.Even) (hp : t.Passes run u) :
    s.Noted lo q u fs := by
  refine ⟨h.after, fun f hf => ?_, h.inOrder⟩
  by_cases hne : run = []
  · subst hne
    rw [hp.gapPosition_eq, hp.peek_eq (by simp [hp.count])]
    exact h.before f hf
  · exact .inl ((h.le_position ht hf).trans (ht.position_le_gap hp hne))

/-- Faults of one rule and then those of another. -/
theorem Noted.append {more : List Token} {q' : Prop} (h : s.Noted lo q u fs)
    (k : u.Noted lo q' t gs) (hu : u.Even) (hs : s.Passes run u) (ht : u.Passes more t)
    (hcross : ∀ f ∈ fs, ∀ g ∈ gs, s.InOrder f g) : s.Noted lo (q ∧ q') t (fs ++ gs) := by
  have hfs : s.Noted lo (q ∧ q') t fs := (h.passes hu ht).mono (Nat.le_refl _) And.left
  have hgs : u.Noted lo (q ∧ q') t gs := k.mono (Nat.le_refl _) And.right
  refine ⟨fun f hf => ?_, fun f hf => ?_, List.pairwise_append.2 ⟨h.inOrder, ?_, hcross⟩⟩
  · exact (List.mem_append.1 hf).elim (hfs.after f) (hgs.after f)
  · exact (List.mem_append.1 hf).elim (hfs.before f) (hgs.before f)
  · exact k.inOrder.imp fun hfg => hs.inOrder_iff.1 hfg

/-- The fault at which a rule stops comes after all others and is pending. -/
theorem Noted.stopped (h : s.Noted lo q t fs) (ht : t.Even) (hlo : lo ≤ t.position.byte)
    (w : Wanted) : s.Noted lo False t (fs ++ [.ofToken t.peek w]) := by
  refine ⟨fun g hg => ?_, fun g hg => ?_, List.pairwise_append.2
    ⟨h.inOrder, List.pairwise_singleton _ _, fun g hg k hk => ?_⟩⟩
  · rcases List.mem_append.1 hg with hg | hg
    · exact h.after g hg
    · obtain rfl := List.mem_singleton.1 hg
      exact hlo
  · rcases List.mem_append.1 hg with hg | hg
    · exact (h.before g hg).imp_right fun k => ⟨id, k.2⟩
    · obtain rfl := List.mem_singleton.1 hg
      exact .inr ⟨id, w, rfl⟩
  · obtain rfl := List.mem_singleton.1 hk
    exact .inl (h.le_position ht hg)

end Stream

/-! ## Rules note faults in order -/

/-- The phrases after which no fault is pending. -/
def Phrase.quiet : Phrase → Bool
  | .items | .blockItems | .statement | .body => false
  | _ => true

/-- What is known of the faults of a phrase. -/
structure Phrase.Notes (p : Phrase) (s : Stream) (o : Outcome) : Prop where
  stops : o.Stops
  noted : s.Noted s.position.byte (p.quiet = true) o.stream o.faults
  blockItems : ∀ nodes fs t, p = .blockItems → o = .ok nodes fs t →
    t.peek.kind = .eof ∨ t.peek.kind = .rbrace

namespace Rule

/-- The rule leaves no fault pending. -/
@[simp]
def Quiet : Rule → Prop
  | seq a b => a.Quiet ∧ b.Quiet
  | feed a b => a.Quiet ∧ b.Quiet
  | as _ a => a.Quiet
  | build _ a => a.Quiet
  | fresh a => a.Quiet
  | look g => ∀ a, (g a).Quiet
  | call p => p.quiet = true
  | recover _ => False
  | _ => True

/-- While a fault is pending, a token is passed before the next one is missed. The closing brace of
a block is an exception. -/
@[simp]
def Waits : Rule → Prop
  | seq a b => a.Waits ∧ b.Waits ∧
    (a.Quiet ∨ b.Late false ∨ a = call .blockItems ∧ b = closing .rbrace)
  | feed a b => a.Waits ∧ b.Waits ∧ a.Quiet
  | as _ a => a.Waits
  | build _ a => a.Waits
  | fresh a => a.Waits
  | look g => ∀ a, (g a).Waits
  | recover a => a.Waits
  | _ => True

theorem waits_of_quiet {r : Rule} (h : r.Quiet) : r.Waits := by
  induction r with
  | seq a b iha ihb => exact ⟨iha h.1, ihb h.2, .inl h.1⟩
  | feed a b iha ihb => exact ⟨iha h.1, ihb h.2, h.1⟩
  | as _ a iha | build _ a iha | fresh a iha => exact iha h
  | look g ih => exact fun a => ih a (h a)
  | recover a => exact h.elim
  | _ => trivial

variable {f : Phrases}

theorem apply_stops (hf : f.Forward)
    (hnotes : ∀ (p : Phrase) fr s, Stream.Even s → p.Notes s (f p fr s)) :
    ∀ (r : Rule) (fr : Frame) (s : Stream), s.Even → (r.apply f fr s).Stops := by
  intro r
  induction r with
  | done | keep | take | leaf => intro fr s _; trivial
  | expect k =>
    intro fr s _
    simp only [apply]
    split
    · trivial
    · exact ⟨_, rfl⟩
  | closing k =>
    intro fr s _
    simp only [apply]
    split <;> trivial
  | refuse w => intro fr s _; exact ⟨w, rfl⟩
  | seq a b iha ihb | feed a b iha ihb =>
    intro fr s hs
    have ha := iha fr s hs
    obtain ⟨run, pa⟩ := apply_passes hf a fr s hs.proper
    simp only [apply]
    split
    · rename_i e
      rw [e] at pa
      simpa using ihb _ _ (hs.passes pa)
    · rename_i e
      rwa [e] at ha
  | as _ a iha | build _ a iha => intro fr s hs; simpa [apply] using iha fr s hs
  | fresh a iha => intro fr s hs; exact iha _ s hs
  | look g ih => intro fr s hs; exact ih s.look fr s hs
  | call p => intro fr s hs; exact (hnotes p fr s hs).stops
  | recover a iha =>
    intro fr s _
    simp only [apply]
    split <;> trivial

/-- Wherever the rule is applied, what it notes stands behind a place in front of it, and in
order. -/
def NotesInOrder (f : Phrases) (r : Rule) (fr : Frame) (s : Stream) : Prop :=
  ∀ (e : Bool) (lo : Nat), (e = true → s.peek.kind ≠ .eof) →
    (lo ≤ s.gapPosition.byte ∨ r.Late e ∧ lo ≤ s.position.byte) →
    s.Noted lo r.Quiet (r.apply f fr s).stream (r.apply f fr s).faults

section

variable {a b : Rule} {e : Bool} {lo : Nat} {fr fr' : Frame} {s u : Stream} {ns : List Node}
  {fs : List Fault} {run : List Token}

/-- The faults of the first of two rules come before those of the second one. -/
theorem inOrder_behind
    (hnotes : ∀ (p : Phrase) fr s, Stream.Even s → p.Notes s (f p fr s)) (hs : s.Even)
    (hw : a.Quiet ∨ b.Late false ∨ a = call .blockItems ∧ b = closing .rbrace)
    (ha : a.apply f fr s = .ok ns fs u) (hp : s.Passes run u) (hna : s.Noted lo a.Quiet u fs)
    (hnb : b.NotesInOrder f fr' u) {g h : Fault} (hg : g ∈ fs)
    (hh : h ∈ (b.apply f fr' u).faults) : s.InOrder g h := by
  rcases hna.before g hg with hle | ⟨hquiet, w, rfl⟩
  · exact .inl (hle.trans ((hnb false _ (by simp) (.inl (Nat.le_refl _))).after h hh))
  · rcases hw with hw | hw | ⟨rfl, rfl⟩
    · exact absurd hw hquiet
    · exact .inl ((hnb false _ (by simp) (.inr ⟨hw, Nat.le_refl _⟩)).after h hh)
    · -- the block ends at a brace, which is passed, or at the end of the source
      have hend := (hnotes .blockItems fr s hs).blockItems ns fs u rfl ha
      simp only [apply] at hh
      split at hh
      · cases hh
      · rename_i hne
        obtain rfl := List.mem_singleton.1 hh
        obtain ⟨hpeek, hgap⟩ :=
          Stream.ending_of_eof (hs.passes hp).proper (hend.resolve_right hne)
        refine .inr ⟨⟨w, ?_⟩, ?_⟩
        · rw [hpeek, hp.eof]
        · rw [hgap, hp.ending_eq]

/-- Two rules in a row, where the second one is told what is pending. -/
theorem noted_row (hf : f.Forward) (he : f.Eating)
    (hnotes : ∀ (p : Phrase) fr s, Stream.Even s → p.Notes s (f p fr s)) (hs : s.Even)
    (hpeek : e = true → s.peek.kind ≠ .eof)
    (hlo : lo ≤ s.gapPosition.byte ∨ (a.Late e ∧ (a.Eats e ∨ b.Late e)) ∧ lo ≤ s.position.byte)
    (hw : a.Quiet ∨ b.Late false ∨ a = call .blockItems ∧ b = closing .rbrace)
    (ha : a.apply f fr s = .ok ns fs u) (hp : s.Passes run u) (hna : s.Noted lo a.Quiet u fs)
    (hnb : b.NotesInOrder f fr' u) :
    s.Noted lo (a.Quiet ∧ b.Quiet) (b.apply f fr' u).stream (fs ++ (b.apply f fr' u).faults) := by
  have hu := hs.passes hp
  obtain ⟨more, pb⟩ := apply_passes hf b fr' u hu.proper
  refine hna.append ?_ hu hp pb fun g hg h hh => inOrder_behind hnotes hs hw ha hp hna hnb hg hh
  by_cases hne : run = []
  · subst hne
    have hcount : ¬ u.count < s.count := by simp [hp.count]
    have hsame := hp.peek_eq hcount
    refine hnb e lo (fun h => hsame ▸ hpeek h) ?_
    rw [hp.gapPosition_eq, Stream.position, hsame]
    refine hlo.imp_right fun h => ⟨h.1.2.resolve_left fun heats => ?_, h.2⟩
    exact hcount (count_lt_of_eats hf he a e fr s ns fs u hs.proper heats hpeek ha)
  · refine hnb false lo (by simp) (.inl ?_)
    exact hlo.elim (fun h => h.trans (hs.gap_mono hp))
      fun h => h.2.trans (hs.position_le_gap hp hne)

end

theorem apply_noted (hf : f.Forward) (he : f.Eating)
    (hnotes : ∀ (p : Phrase) fr s, Stream.Even s → p.Notes s (f p fr s)) :
    ∀ (r : Rule) (fr : Frame) (s : Stream), r.Waits → s.Even → r.NotesInOrder f fr s := by
  intro r
  induction r with
  | done | keep | take | leaf | refuse => intro fr s _ _ e lo _ _; exact Stream.noted_nil
  | expect k =>
    intro fr s _ _ e lo _ _
    simp only [apply]
    split <;> exact Stream.noted_nil
  | closing k =>
    intro fr s _ hs e lo _ hlo
    have hlo := hlo.resolve_right fun h => h.1
    simp only [apply]
    split
    · exact Stream.noted_nil
    · refine ⟨fun g hg => ?_, fun g hg => ?_, List.pairwise_singleton _ _⟩
      · obtain rfl := List.mem_singleton.1 hg
        exact hlo
      · obtain rfl := List.mem_singleton.1 hg
        exact .inl (Nat.le_refl _)
  | seq a b iha ihb =>
    intro fr s hr hs e lo hp hlo
    have hna := iha fr s hr.1 hs e lo hp (hlo.imp_right fun h => ⟨h.1.1, h.2⟩)
    obtain ⟨run, pa⟩ := apply_passes hf a fr s hs.proper
    simp only [apply]
    split
    · rename_i ns fs u ha
      rw [ha] at hna pa
      have hrow := noted_row hf he hnotes hs hp hlo hr.2.2 ha pa hna
        (ihb fr u hr.2.1 (hs.passes pa))
      simpa using hrow
    · rename_i ha
      rw [ha] at hna
      exact hna.mono (Nat.le_refl _) And.left
  | feed a b iha ihb =>
    intro fr s hr hs e lo hp hlo
    have hna := iha fr s hr.1 hs e lo hp (hlo.imp_right fun h => ⟨h.1.1, h.2⟩)
    obtain ⟨run, pa⟩ := apply_passes hf a fr s hs.proper
    simp only [apply]
    split
    · rename_i ns fs u ha
      rw [ha] at hna pa
      have hrow := noted_row hf he hnotes hs hp hlo (.inl hr.2.2) ha pa hna
        (ihb { fr with left := ns } u hr.2.1 (hs.passes pa))
      simpa using hrow
    · rename_i ha
      rw [ha] at hna
      exact hna.mono (Nat.le_refl _) And.left
  | as _ a iha | build _ a iha =>
    intro fr s hr hs e lo hp hlo
    simpa [apply] using iha fr s hr hs e lo hp hlo
  | fresh a iha =>
    intro fr s hr hs e lo hp hlo
    exact iha _ s hr hs e lo hp hlo
  | look g ih =>
    intro fr s hr hs e lo hp hlo
    refine (ih s.look fr s (hr _) hs _ lo ?_ (hlo.imp_right fun h => ⟨h.1 s.look, h.2⟩)).mono
      (Nat.le_refl _) fun h => h _
    simp
  | call p =>
    intro fr s hr hs e lo hp hlo
    refine (hnotes p fr s hs).noted.mono ?_ fun h => h
    exact hlo.elim (fun h => h.trans hs.gap_le) And.right
  | recover a iha =>
    intro fr s hr hs e lo hp hlo
    have hna := iha fr s hr hs e lo hp hlo
    have hstop := apply_stops hf hnotes a fr s hs
    obtain ⟨run, pa⟩ := apply_passes hf a fr s hs.proper
    simp only [apply]
    split
    · rename_i ha
      rw [ha] at hna
      exact hna.mono (Nat.le_refl _) False.elim
    · rename_i fault fs u ha
      rw [ha] at hna hstop pa
      obtain ⟨w, rfl⟩ := hstop
      have hu := hs.passes pa
      obtain ⟨more, pm⟩ := Stream.resume_passes hu.proper s
      have hpos : lo ≤ s.position.byte := hlo.elim (fun h => h.trans hs.gap_le) And.right
      exact (hna.stopped hu (hpos.trans (hs.position_mono pa)) w).passes hu pm

end Rule

/-! ## The table -/

namespace Grammar

open Rule

theorem quiet_ite {p : Prop} [Decidable p] {a b : Rule} :
    (if p then a else b).Quiet ↔ if p then a.Quiet else b.Quiet := by
  split <;> rfl

theorem waits_ite {p : Prop} [Decidable p] {a b : Rule} :
    (if p then a else b).Waits ↔ if p then a.Waits else b.Waits := by
  split <;> rfl

theorem argumentList_quiet : argumentList.Quiet := by
  refine ⟨trivial, fun a => ?_, trivial⟩
  dsimp only
  split <;> trivial

theorem bindingList_quiet : bindingList.Quiet := by
  simp [bindingList, assignments, node, all, Phrase.quiet]

theorem parameterList_quiet : parameterList.Quiet := by
  simp [parameterList, node, all, Phrase.quiet]

theorem named_quiet {g : Form → Rule} {w : Wanted} (h : ∀ n, (g n).Quiet) :
    (named g w).Quiet := by
  rintro ⟨k, x, k2⟩
  cases k <;> simp [h]

theorem primary_quiet : primary.Quiet := by
  rintro ⟨k, x, k2⟩
  cases k with
  | identifier =>
    dsimp only
    split_ifs <;> simp [node, all, guardExpression, expression, Phrase.quiet, argumentList_quiet,
      quiet_ite]
  | lbracket =>
    refine ⟨trivial, fun a => ?_⟩
    dsimp only
    split <;> simp [all, rangeBounds, expression, Phrase.quiet, quiet_ite]
  | _ =>
    simp [node, all, expression, Phrase.quiet, bindingList_quiet, parameterList_quiet]

/-- Only statements leave faults pending. -/
theorem rule_quiet (p : Phrase) (h : p.quiet = true) : (rule p).Quiet := by
  cases p with
  | items | blockItems | statement | body => cases h
  | arguments =>
    refine ⟨fun a => ?_, fun a => ?_⟩
    · dsimp only
      split <;> simp [node, all, namedArgument, expression, Phrase.quiet]
    · simp [quiet_ite, Phrase.quiet]
  | bindings =>
    intro a
    dsimp only
    split
    case h_4 =>
      refine ⟨named_quiet fun n => ?_, fun a => ?_⟩
      · simp [node, all, binding, expression, Phrase.quiet]
      · simp [quiet_ite, Phrase.quiet]
    all_goals trivial
  | parameters =>
    intro a
    dsimp only
    split
    case h_3 =>
      refine ⟨named_quiet fun n => ?_, fun a => ?_⟩
      · simp [node, all, parameter, expression, Phrase.quiet, quiet_ite]
      · simp [quiet_ite, Phrase.quiet]
    all_goals trivial
  | element =>
    rintro ⟨k, x, k2⟩
    cases k <;> simp [node, all, expression, loopHead, assignments, Phrase.quiet, quiet_ite,
      bindingList_quiet]
  | elements => simp [rule, elements, quiet_ite, Phrase.quiet]
  | expr l => simp [rule, expr, Phrase.quiet]
  | operators l =>
    intro a
    dsimp only
    split
    · trivial
    · split_ifs <;> simp [all, expression, Phrase.quiet]
  | unary =>
    rintro ⟨k, x, k2⟩
    cases k <;> simp [node, all, Phrase.quiet]
  | primary => exact primary_quiet
  | suffixes =>
    rintro ⟨k, x, k2⟩
    cases k <;> simp [all, expression, Phrase.quiet, argumentList_quiet, quiet_ite]

theorem callTail_waits : callTail.Waits := by
  intro a
  dsimp only
  split <;> trivial

theorem statement_waits : statement.Waits := by
  have args := waits_of_quiet argumentList_quiet
  have binds := waits_of_quiet bindingList_quiet
  have params := waits_of_quiet parameterList_quiet
  rintro ⟨k, x, k2⟩
  cases k with
  | identifier =>
    show (namedStatement _).Waits
    unfold namedStatement
    split
    · split_ifs <;> simp [node, all, boundStatement, assertStatement, moduleCall, binds, args,
        bindingList_quiet, argumentList_quiet, callTail_waits]
    · simp [node, all, declaration, expression, Phrase.quiet]
    · simp [node, all, moduleCall, args, argumentList_quiet, callTail_waits]
  | _ =>
    simp [node, all, Eats, moduleItem, functionItem, boundStatement, ifStatement, fileStatement,
      unionBlock, declaration, expression, Phrase.quiet, binds, params, bindingList_quiet,
      parameterList_quiet, waits_ite, quiet_ite, late_ite]

theorem rule_waits (p : Phrase) : (rule p).Waits := by
  cases p with
  | items | blockItems =>
    rintro ⟨k, x, k2⟩
    cases k <;> simp
  | statement => exact statement_waits
  | body =>
    intro a
    dsimp only
    split <;> trivial
  | _ => exact waits_of_quiet (rule_quiet _ rfl)

/-- The statements of a block end at a closing brace or with the source. -/
theorem blockItems_ends {f : Phrases} (hf : f.Forward)
    (hnotes : ∀ (p : Phrase) fr s, Stream.Even s → p.Notes s (f p fr s)) {fr : Frame} {s t : Stream}
    {nodes : List Node} {fs : List Fault} (hs : s.Even)
    (h : blockItems.apply f fr s = .ok nodes fs t) :
    t.peek.kind = .eof ∨ t.peek.kind = .rbrace := by
  simp only [blockItems, apply] at h
  split at h
  case h_3 =>
    obtain ⟨m, gs, u, n, hs', ha, hb, -, -⟩ := seq_eq_ok.1 h
    obtain ⟨run, pa⟩ := apply_passes hf (recover (call .statement)) fr s hs.proper
    rw [ha, Outcome.stream_ok] at pa
    exact (hnotes .blockItems fr u (hs.passes pa)).blockItems n hs' t rfl hb
  all_goals
    rename_i hk
    obtain ⟨-, -, rfl⟩ : [] = nodes ∧ [] = fs ∧ s = t := by simpa [apply] using h
    simp [show s.peek.kind = _ from hk]

/-- The rules of the table note what they should if the phrases that they call do. -/
theorem rule_notes {f : Phrases} (hf : f.Forward) (he : f.Eating)
    (hnotes : ∀ (p : Phrase) fr s, Stream.Even s → p.Notes s (f p fr s)) (p : Phrase) (fr : Frame)
    (s : Stream) (hs : s.Even) : p.Notes s ((rule p).apply f fr s) := by
  refine ⟨apply_stops hf hnotes (rule p) fr s hs, ?_, ?_⟩
  · exact (apply_noted hf he hnotes (rule p) fr s (rule_waits p) hs false _ (by simp)
      (.inr ⟨rule_late p, Nat.le_refl _⟩)).mono (Nat.le_refl _) (rule_quiet p)
  · rintro nodes fs t rfl h
    exact blockItems_ends hf hnotes hs h

theorem refused_notes (p : Phrase) (s : Stream) :
    p.Notes s (.failed (.ofToken s.peek .statement) [] s) :=
  ⟨⟨_, rfl⟩, Stream.noted_nil, by simp⟩

theorem parsePhrase_notes (p : Phrase) (fr : Frame) (s : Stream) (hs : s.Even) :
    p.Notes s (parsePhrase p fr s) := by
  refine parsePhrase_induct_proper (P := fun p _ s o => s.Even → p.Notes s o) ?_ ?_ p fr s
    hs.proper hs
  · intro p fr s _
    exact refused_notes p s
  · intro f forward eating hf p fr s _ hs
    exact rule_notes forward eating (fun p fr s hs => hf p fr s hs.proper hs) p fr s hs

end Grammar

namespace SyntaxTree

/-- Faults come in the order of the source. The only exception is that the source ends within a
statement: this is noted at the end of the text, and after it the open braces, which are missed
behind the last token. -/
theorem faults_inOrder (source : List Char) :
    (ofSource source).faults.Pairwise fun f g =>
      f.region.start.byte ≤ g.region.start.byte ∨
        (∃ w, f = ⟨.unexpectedEnd w, .emptyAt (tokenize source).stop⟩) ∧
          ∃ last, (tokenize source).tokens.getLast? = some last ∧
            g = .absent .rbrace last.region.stop := by
  obtain ⟨nodes, fs, t, h, htree⟩ := ofSource_eq source
  have hnotes := Grammar.parsePhrase_notes .items { start := {} } _ (Stream.start_even source)
  rw [h] at hnotes
  rw [htree]
  refine hnotes.noted.inOrder.imp fun {f g} hfg => ?_
  rcases hfg with hle | ⟨⟨w, rfl⟩, rfl⟩
  · exact .inl hle
  · cases hlast : (tokenize source).tokens.getLast? with
    | none =>
      refine .inl ?_
      simp [Stream.ending, Stream.start, hlast, Fault.absent, Fault.ofToken, Region.emptyAt]
    | some last =>
      refine .inr ⟨⟨w, rfl⟩, last, rfl, ?_⟩
      simp [Stream.ending, Stream.start, hlast]

/-- The order is broken where blanks follow the last token of a block that is cut off. -/
theorem faults_cut_off :
    (ofSource "\x7b x =  ".toList).faults.map (fun f => (f.cause, f.region.start.byte)) =
      [(.unexpectedEnd .expression, 7), (.missing .rbrace, 5)] := by
  decide +kernel

end SyntaxTree
end Scad
