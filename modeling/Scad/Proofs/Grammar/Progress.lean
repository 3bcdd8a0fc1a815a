import Mathlib.Tactic.SplitIfs
import Scad.Grammar.Parse

/-!
# Parsing moves forward

Whatever a rule does, and however it ends, it passes a run of the tokens ahead and touches nothing
else (`apply_passes`). A rule that *eats* passes at least one token when it succeeds, and every call
of the table is *guarded*: it stands behind a token that was passed, or it is to a phrase of lower
rank. So the bound on nested calls is never reached, and a phrase is its rule without any bound
(`parsePhrase_eq_rule`).
-/

namespace Scad

/-! ## Runs of tokens -/

namespace Stream

/-- Passing the tokens of `run` leads from `s` to `t`. -/
structure Passes (s : Stream) (run : List Token) (t : Stream) : Prop where
  ahead : s.ahead = run ++ t.ahead
  count : s.count = run.length + t.count
  last : t.last = run.getLast?.or s.last
  eof : t.eof = s.eof

/-- The number of tokens ahead is kept right, and only the closing token is an `eof`. -/
structure Proper (s : Stream) : Prop where
  count : s.count = s.ahead.length
  eof : s.eof.kind = .eof
  inside : ∀ t ∈ s.ahead, t.kind ≠ .eof

theorem Passes.refl (s : Stream) : s.Passes [] s := ⟨rfl, by simp, by simp, rfl⟩

theorem Passes.trans {s t u : Stream} {a b : List Token} (h : s.Passes a t) (k : t.Passes b u) :
    s.Passes (a ++ b) u := by
  refine ⟨?_, ?_, ?_, ?_⟩
  · rw [h.ahead, k.ahead, List.append_assoc]
  · rw [h.count, k.count, List.length_append]
    omega
  · rw [k.last, h.last, List.getLast?_append, Option.or_assoc]
  · rw [k.eof, h.eof]

theorem Proper.of_passes {s t : Stream} {run : List Token} (hs : s.Proper) (h : s.Passes run t) :
    t.Proper := by
  refine ⟨?_, ?_, ?_⟩
  · have hc := h.count
    rw [hs.count, h.ahead, List.length_append] at hc
    omega
  · rw [h.eof]
    exact hs.eof
  · intro x hx
    refine hs.inside x ?_
    rw [h.ahead]
    exact List.mem_append_right _ hx

theorem Passes.count_le {s t : Stream} {run : List Token} (h : s.Passes run t) :
    t.count ≤ s.count := by
  rw [h.count]
  omega

theorem Passes.eq_nil_of_count {s t : Stream} {run : List Token} (h : s.Passes run t)
    (hc : t.count = s.count) : run = [] := by
  have := h.count
  exact List.eq_nil_of_length_eq_zero (by omega)

/-- At the end of the tokens there is nothing to pass. -/
theorem advance_passes (s : Stream) (hs : s.Proper) :
    (s.ahead = [] ∧ s.advance = s) ∨ s.Passes [s.peek] s.advance := by
  obtain ⟨ahead, count, last, eof⟩ := s
  cases ahead with
  | nil => exact .inl ⟨rfl, rfl⟩
  | cons t ts =>
    have hc : count = ts.length + 1 := hs.count
    refine .inr ⟨rfl, ?_, rfl, rfl⟩
    show count = 1 + (count - 1)
    omega

theorem peek_eq_head {s : Stream} (hs : s.Proper) (h : s.peek.kind ≠ .eof) :
    s.ahead = s.peek :: s.advance.ahead := by
  obtain ⟨ahead, count, last, eof⟩ := s
  cases ahead with
  | nil => exact absurd hs.eof h
  | cons t ts => rfl

theorem peek_kind_eq_eof {s : Stream} (hs : s.Proper) : s.peek.kind = .eof ↔ s.ahead = [] := by
  constructor
  · intro h
    cases e : s.ahead with
    | nil => rfl
    | cons t ts =>
      have hp : s.peek = t := by rw [peek, e]; rfl
      exact absurd (hp ▸ h) (hs.inside t (by rw [e]; simp))
  · intro h
    rw [peek, h]
    exact hs.eof

/-- Where a token is ahead, `advance` passes it. -/
theorem passes_peek {s : Stream} (hs : s.Proper) (h : s.peek.kind ≠ .eof) :
    s.Passes [s.peek] s.advance := by
  rcases s.advance_passes hs with ⟨hn, -⟩ | hp
  · exact absurd ((peek_kind_eq_eof hs).2 hn) h
  · exact hp

theorem exists_passes_advance (s : Stream) (hs : s.Proper) : ∃ run, s.Passes run s.advance := by
  rcases s.advance_passes hs with ⟨-, he⟩ | hp
  · exact ⟨[], by rw [he]; exact .refl s⟩
  · exact ⟨_, hp⟩

theorem seek_passes (eof : Token) : ∀ (ts : List Token) (n : Nat) (last : Option Token),
    n = ts.length → ∃ run, (⟨ts, n, last, eof⟩ : Stream).Passes run (seek eof ts n last)
  | [], n, last, _ => ⟨[], .refl _⟩
  | t :: ts, n, last, h => by
    rw [seek]
    split
    · exact ⟨[], .refl _⟩
    · have hn : n = ts.length + 1 := h
      obtain ⟨run, hr⟩ := seek_passes eof ts (n - 1) (some t) (by omega)
      have hstep : (⟨t :: ts, n, last, eof⟩ : Stream).Passes [t] ⟨ts, n - 1, some t, eof⟩ := by
        refine ⟨rfl, ?_, rfl, rfl⟩
        show n = 1 + (n - 1)
        omega
      exact ⟨t :: run, hstep.trans hr⟩

theorem resume_passes {s : Stream} (hs : s.Proper) (began : Stream) :
    ∃ run, s.Passes run (s.resume began) := by
  have go : ∀ t : Stream, t.Proper → ∃ run, t.Passes run (seek t.eof t.ahead t.count t.last) :=
    fun t ht => seek_passes t.eof t.ahead t.count t.last ht.count
  obtain ⟨run, hr⟩ := s.exists_passes_advance hs
  unfold resume
  split
  · dsimp only
    split
    · exact ⟨run, hr⟩
    · obtain ⟨more, hm⟩ := go s.advance (hs.of_passes hr)
      exact ⟨run ++ more, hr.trans hm⟩
  · exact go s hs

/-- Recovery makes progress: after a statement that began at a token, at least that token is
passed. -/
theorem resume_count_lt {began s : Stream} {run : List Token} (hb : began.Proper)
    (h : began.Passes run s) (hne : began.peek.kind ≠ .eof) :
    (s.resume began).count < began.count := by
  have hs := hb.of_passes h
  have hle := h.count_le
  unfold resume
  split
  · rename_i hc
    have hnil := h.eq_nil_of_count hc
    subst hnil
    have hpeek : s.peek = began.peek := by
      rw [peek, peek, h.ahead, h.eof]
      rfl
    have hadv := passes_peek hs (by rw [hpeek]; exact hne)
    have hlt : s.advance.count < began.count := by
      have := hadv.count
      simp only [List.length_singleton] at this
      omega
    dsimp only
    split
    · exact hlt
    · obtain ⟨more, hm⟩ := seek_passes s.advance.eof s.advance.ahead s.advance.count s.advance.last
        (hs.of_passes hadv).count
      exact Nat.lt_of_le_of_lt hm.count_le hlt
  · obtain ⟨more, hm⟩ := seek_passes s.eof s.ahead s.count s.last hs.count
    have := hm.count_le
    simp only at this
    omega

theorem regionFrom_start (s : Stream) (p : Position) : (s.regionFrom p).start = p := by
  unfold regionFrom
  split
  · rfl
  · split <;> rfl

end Stream

/-- The place that a rule reached, however it ended. -/
def Outcome.stream : Outcome → Stream
  | ok _ _ s => s
  | failed _ _ s => s

@[simp]
theorem Outcome.stream_ok (nodes : List Node) (fs : List Fault) (s : Stream) :
    (ok nodes fs s).stream = s := rfl

@[simp]
theorem Outcome.stream_failed (fault : Fault) (fs : List Fault) (s : Stream) :
    (failed fault fs s).stream = s := rfl

@[simp]
theorem Outcome.stream_after (fs : List Fault) (o : Outcome) : (o.after fs).stream = o.stream := by
  cases o <;> rfl

@[simp]
theorem Outcome.stream_map (f : Stream → List Node → List Node) (o : Outcome) :
    (o.map f).stream = o.stream := by
  cases o <;> rfl

/-! ## Rules pass tokens -/

/-- A way to parse phrases. -/
abbrev Phrases := Phrase → Frame → Stream → Outcome

/-- Every phrase passes a run of tokens. -/
def Phrases.Forward (f : Phrases) : Prop :=
  ∀ p fr (s : Stream), s.Proper → ∃ run, s.Passes run (f p fr s).stream

namespace Rule

theorem apply_passes {f : Phrases} (hf : f.Forward) :
    ∀ (r : Rule) (fr : Frame) (s : Stream), s.Proper → ∃ run, s.Passes run (r.apply f fr s).stream := by
  intro r
  induction r with
  | done | keep | refuse => intro fr s hs; exact ⟨[], .refl s⟩
  | take | leaf => intro fr s hs; exact s.exists_passes_advance hs
  | expect k | closing k =>
    intro fr s hs
    simp only [apply]
    split
    · exact s.exists_passes_advance hs
    · exact ⟨[], .refl s⟩
  | seq a b iha ihb | feed a b iha ihb =>
    intro fr s hs
    obtain ⟨ra, ha⟩ := iha fr s hs
    simp only [apply]
    split
    · rename_i e
      rw [e] at ha
      obtain ⟨rb, hb⟩ := ihb _ _ (hs.of_passes ha)
      refine ⟨ra ++ rb, ha.trans ?_⟩
      simpa using hb
    · rename_i e
      rw [e] at ha
      exact ⟨ra, ha⟩
  | as _ a iha | build _ a iha =>
    intro fr s hs
    simpa [apply] using iha fr s hs
  | fresh a iha =>
    intro fr s hs
    exact iha _ s hs
  | look g ih =>
    intro fr s hs
    exact ih s.look fr s hs
  | call p =>
    intro fr s hs
    exact hf p fr s hs
  | recover a iha =>
    intro fr s hs
    obtain ⟨ra, ha⟩ := iha fr s hs
    simp only [apply]
    split
    · rename_i e
      rw [e] at ha
      exact ⟨ra, ha⟩
    · rename_i e
      rw [e] at ha
      obtain ⟨rb, hb⟩ := Stream.resume_passes (hs.of_passes ha) s
      exact ⟨ra ++ rb, ha.trans hb⟩

end Rule

namespace Grammar

/-- The induction behind every fact about phrases: it holds of a phrase whose calls are refused, and
it is carried over from the phrases to the rules that call them. -/
theorem parsePhrase_induct {P : Phrase → Frame → Stream → Outcome → Prop}
    (refused : ∀ p fr s, P p fr s (.failed (.ofToken s.peek .statement) [] s))
    (step : ∀ f : Phrases, (∀ p fr s, P p fr s (f p fr s)) →
      ∀ p fr s, P p fr s ((rule p).apply f fr s)) (p : Phrase) (fr : Frame) (s : Stream) :
    P p fr s (parsePhrase p fr s) := by
  have go : ∀ n p fr s, P p fr s (parseWithin n p fr s) := by
    intro n
    induction n with
    | zero => intro p fr s; exact refused p fr s
    | succ n ih =>
      intro p fr s
      rw [parseWithin]
      refine step _ ?_ p fr s
      intro q fr' t
      split
      · exact ih q fr' t
      · exact refused q fr' t
  exact go _ p fr s

theorem parsePhrase_passes : Phrases.Forward parsePhrase := by
  intro p fr s
  refine parsePhrase_induct (P := fun _ _ s o => s.Proper → ∃ run, s.Passes run o.stream) ?_ ?_ p fr s
  · intro p fr s _
    exact ⟨[], .refl s⟩
  · intro f hf p fr s
    exact Rule.apply_passes hf (rule p) fr s

end Grammar

/-! ## Rules that eat -/

/-- The phrases that pass a token whenever they succeed. -/
def Phrase.eats : Phrase → Bool
  | .statement | .body | .arguments | .element | .expr _ | .unary | .primary => true
  | _ => false

/-- The phrases that should eat do. -/
def Phrases.Eating (f : Phrases) : Prop :=
  ∀ p fr (s : Stream) nodes fs t, s.Proper → p.eats = true → f p fr s = .ok nodes fs t →
    t.count < s.count

theorem Outcome.ok_of_after {fs : List Fault} {o : Outcome} {nodes : List Node} {gs : List Fault}
    {t : Stream} (h : o.after fs = .ok nodes gs t) : ∃ hs, o = .ok nodes hs t ∧ gs = fs ++ hs := by
  cases o with
  | ok n hs u =>
    simp only [after, ok.injEq] at h
    obtain ⟨rfl, rfl, rfl⟩ := h
    exact ⟨hs, rfl, rfl⟩
  | failed _ _ _ => simp [after] at h

theorem Outcome.ok_of_map {g : Stream → List Node → List Node} {o : Outcome} {nodes : List Node}
    {fs : List Fault} {t : Stream} (h : o.map g = .ok nodes fs t) :
    ∃ ns, o = .ok ns fs t ∧ nodes = g t ns := by
  cases o with
  | ok n hs u =>
    simp only [map, ok.injEq] at h
    obtain ⟨rfl, rfl, rfl⟩ := h
    exact ⟨n, rfl, rfl⟩
  | failed _ _ _ => simp [map] at h

/-- A run that passes no token leaves the same token next. -/
theorem Stream.Passes.peek_eq {s t : Stream} {run : List Token} (h : s.Passes run t)
    (hc : ¬ t.count < s.count) : t.peek = s.peek := by
  have hnil := h.eq_nil_of_count (Nat.le_antisymm h.count_le (Nat.not_lt.1 hc))
  subst hnil
  rw [peek, peek, h.ahead, h.eof]
  rfl

namespace Rule

/-- The rule passes a token whenever it succeeds. The flag tells that a token is known to be
ahead. -/
def Eats : Bool → Rule → Prop
  | e, take => e = true
  | e, leaf _ => e = true
  | _, expect k => k ≠ .eof
  | _, refuse _ => True
  | e, seq a b => a.Eats e ∨ b.Eats e
  | e, feed a b => a.Eats e ∨ b.Eats e
  | e, as _ a => a.Eats e
  | e, build _ a => a.Eats e
  | e, fresh a => a.Eats e
  | _, look g => ∀ a, (g a).Eats (a.kind ≠ .eof)
  | _, call p => p.eats = true
  | e, recover a => e = true ∧ a.Eats e
  | _, _ => False

theorem count_lt_of_eats {f : Phrases} (hf : f.Forward) (he : f.Eating) :
    ∀ (r : Rule) (e : Bool) (fr : Frame) (s : Stream) (nodes : List Node) (fs : List Fault)
      (t : Stream), s.Proper → r.Eats e → (e = true → s.peek.kind ≠ .eof) →
      r.apply f fr s = .ok nodes fs t → t.count < s.count := by
  have advance : ∀ s : Stream, s.Proper → s.peek.kind ≠ .eof → s.advance.count < s.count := by
    intro s hs hne
    have := (Stream.passes_peek hs hne).count
    simp only [List.length_singleton] at this
    omega
  -- two rules in a row: either the first passes a token, or the second sees the same token
  have row : ∀ {a b : Rule} {e : Bool} {fr fr' : Frame} {s u t : Stream} {n : List Node}
      {fs : List Fault} {o : Outcome}, s.Proper → (a.Eats e ∨ b.Eats e) →
      (e = true → s.peek.kind ≠ .eof) → a.apply f fr s = .ok n fs u →
      (a.Eats e → u.count < s.count) →
      (b.Eats e → u.Proper → (e = true → u.peek.kind ≠ .eof) → t.count < u.count) →
      b.apply f fr' u = o → o.stream = t → t.count < s.count := by
    intro a b e fr fr' s u t n fs o hs hr hp ha iha ihb hb ho
    obtain ⟨ra, pa⟩ := apply_passes hf a fr s hs
    rw [ha, Outcome.stream_ok] at pa
    obtain ⟨rb, pb⟩ := apply_passes hf b fr' u (hs.of_passes pa)
    rw [hb, ho] at pb
    have h1 := pa.count_le
    have h2 := pb.count_le
    rcases hr with hr | hr
    · have := iha hr
      omega
    · by_cases hc : u.count < s.count
      · omega
      · have := ihb hr (hs.of_passes pa) (fun h => by rw [pa.peek_eq hc]; exact hp h)
        omega
  intro r
  induction r with
  | done | keep | closing => intro e fr s nodes fs t hs hr; exact absurd hr (by simp [Eats])
  | refuse => intro e fr s nodes fs t hs hr hp h; simp [apply] at h
  | take | leaf =>
    intro e fr s nodes fs t hs hr hp h
    simp only [apply, Outcome.ok.injEq] at h
    obtain ⟨-, -, rfl⟩ := h
    exact advance s hs (hp hr)
  | expect k =>
    intro e fr s nodes fs t hs hr hp h
    simp only [apply] at h
    split at h
    · rename_i hk
      simp only [Outcome.ok.injEq] at h
      obtain ⟨-, -, rfl⟩ := h
      exact advance s hs (by rw [hk]; exact hr)
    · simp at h
  | seq a b iha ihb =>
    intro e fr s nodes fs t hs hr hp h
    simp only [apply] at h
    split at h
    · rename_i n fa u ha
      obtain ⟨fb, hb, -⟩ := Outcome.ok_of_after h
      obtain ⟨m, hb, -⟩ := Outcome.ok_of_map hb
      exact row hs hr hp ha (fun hr => iha e fr s _ _ _ hs hr hp ha)
        (fun hr hu hp => ihb e fr u _ _ _ hu hr hp hb) hb rfl
    · simp at h
  | feed a b iha ihb =>
    intro e fr s nodes fs t hs hr hp h
    simp only [apply] at h
    split at h
    · rename_i n fa u ha
      obtain ⟨fb, hb, -⟩ := Outcome.ok_of_after h
      exact row hs hr hp ha (fun hr => iha e fr s _ _ _ hs hr hp ha)
        (fun hr hu hp => ihb e _ u _ _ _ hu hr hp hb) hb rfl
    · simp at h
  | as _ a iha | build _ a iha =>
    intro e fr s nodes fs t hs hr hp h
    obtain ⟨m, h, -⟩ := Outcome.ok_of_map h
    exact iha e fr s _ _ _ hs hr hp h
  | fresh a iha =>
    intro e fr s nodes fs t hs hr hp h
    exact iha e _ s _ _ _ hs hr hp h
  | look g ih =>
    intro e fr s nodes fs t hs hr hp h
    refine ih s.look _ fr s _ _ _ hs (hr s.look) ?_ h
    intro hk
    simpa [Stream.look] using hk
  | call p =>
    intro e fr s nodes fs t hs hr hp h
    exact he p fr s _ _ _ hs hr h
  | recover a iha =>
    intro e fr s nodes fs t hs hr hp h
    simp only [apply] at h
    split at h
    · rename_i ha
      rw [Outcome.ok.injEq] at h
      obtain ⟨rfl, rfl, rfl⟩ := h
      exact iha e fr s _ _ _ hs hr.2 hp ha
    · rename_i ha
      obtain ⟨ra, pa⟩ := apply_passes hf a fr s hs
      rw [ha] at pa
      simp only [Outcome.ok.injEq] at h
      obtain ⟨-, -, rfl⟩ := h
      exact Stream.resume_count_lt hs pa (hp hr.1)

/-- Every call is to a phrase of rank below `n`, unless a token was passed before. -/
def Guarded (n : Nat) : Bool → Rule → Prop
  | e, seq a b => a.Guarded n e ∧ (a.Eats e ∨ b.Guarded n e)
  | e, feed a b => a.Guarded n e ∧ (a.Eats e ∨ b.Guarded n e)
  | e, as _ a => a.Guarded n e
  | e, build _ a => a.Guarded n e
  | e, fresh a => a.Guarded n e
  | e, recover a => a.Guarded n e
  | _, look g => ∀ a, (g a).Guarded n (a.kind ≠ .eof)
  | _, call p => Grammar.rank p < n
  | _, _ => True

/-- No rank is above seven. -/
theorem guarded_eight : ∀ (r : Rule) (e : Bool), r.Guarded 8 e := by
  intro r
  induction r with
  | seq a b iha ihb | feed a b iha ihb => intro e; exact ⟨iha e, .inr (ihb e)⟩
  | as _ a iha | build _ a iha | fresh a iha | recover a iha => intro e; exact iha e
  | look g ih => intro e a; exact ih a _
  | call p =>
    intro e
    simp only [Guarded]
    cases p <;> simp [Grammar.rank]
  | _ => intro e; trivial

/-- Two ways to parse phrases that agree where less work is left give the same outcome. -/
theorem apply_congr {f g : Phrases} (hf : f.Forward) (he : f.Eating) {m : Nat}
    (hfg : ∀ q fr (t : Stream), t.Proper → Grammar.work q t < m → f q fr t = g q fr t) :
    ∀ (r : Rule) (n : Nat) (e : Bool) (fr : Frame) (s : Stream), s.Proper → r.Guarded n e →
      (e = true → s.peek.kind ≠ .eof) → 8 * s.count + n ≤ m → r.apply f fr s = r.apply g fr s := by
  -- behind the first of two rules, a token was passed or the second is guarded as well
  have row : ∀ {a b : Rule} {n : Nat} {e : Bool} {fr fr' : Frame} {s u : Stream} {ns : List Node}
      {fs : List Fault}, s.Proper → (a.Eats e ∨ b.Guarded n e) → (e = true → s.peek.kind ≠ .eof) →
      8 * s.count + n ≤ m → a.apply f fr s = .ok ns fs u →
      (∀ (n : Nat) (e : Bool) (fr : Frame) (s : Stream), s.Proper → b.Guarded n e →
        (e = true → s.peek.kind ≠ .eof) → 8 * s.count + n ≤ m → b.apply f fr s = b.apply g fr s) →
      b.apply f fr' u = b.apply g fr' u := by
    intro a b n e fr fr' s u ns fs hs hr hp hm ha ihb
    obtain ⟨ra, pa⟩ := apply_passes hf a fr s hs
    rw [ha, Outcome.stream_ok] at pa
    have hu := hs.of_passes pa
    by_cases hc : u.count < s.count
    · exact ihb 8 false fr' u hu (guarded_eight b false) (by simp) (by omega)
    · rcases hr with hr | hr
      · exact absurd (count_lt_of_eats hf he a e fr s _ _ _ hs hr hp ha) hc
      · have h1 := pa.count_le
        refine ihb n e fr' u hu hr (fun h => ?_) (by omega)
        rw [pa.peek_eq hc]
        exact hp h
  intro r
  induction r with
  | seq a b iha ihb | feed a b iha ihb =>
    intro n e fr s hs hr hp hm
    have ha := iha n e fr s hs hr.1 hp hm
    simp only [apply]
    rw [← ha]
    split
    · rename_i h
      rw [row hs hr.2 hp hm h ihb]
    · rfl
  | as _ a iha | build _ a iha | recover a iha =>
    intro n e fr s hs hr hp hm
    simp only [apply]
    rw [iha n e fr s hs hr hp hm]
  | fresh a iha =>
    intro n e fr s hs hr hp hm
    exact iha n e _ s hs hr hp hm
  | look k ih =>
    intro n e fr s hs hr hp hm
    refine ih s.look n _ fr s hs (hr s.look) ?_ hm
    intro hk
    simpa [Stream.look] using hk
  | call p =>
    intro n e fr s hs hr hp hm
    refine hfg p fr s hs ?_
    have hr : Grammar.rank p < n := hr
    unfold Grammar.work
    omega
  | _ => intro n e fr s hs hr hp hm; rfl

end Rule

/-! ## The table -/

namespace Grammar

open Rule

theorem statement_eats : statement.Eats false := by
  rintro ⟨k, x, k2⟩
  cases k with
  | identifier =>
    show (namedStatement _).Eats true
    unfold namedStatement
    split
    · split_ifs <;> simp [Eats, node, all, boundStatement, assertStatement, moduleCall]
    · simp [Eats, node, all, declaration]
    · simp [Eats, node, all, moduleCall]
  | _ =>
    simp [Eats, node, all, moduleItem, functionItem, boundStatement, ifStatement, fileStatement,
      unionBlock, declaration]

theorem argument_eats (e : Bool) : argument.Eats e := by
  rintro ⟨k, x, k2⟩
  simp only
  split <;> simp_all [Eats, node, all, namedArgument, expression, Phrase.eats]

theorem primary_eats : primary.Eats false := by
  rintro ⟨k, x, k2⟩
  cases k with
  | identifier =>
    simp only
    split_ifs <;> simp [Eats, node, all, guardExpression]
  | _ => simp [Eats, node, all, listOrRange]

/-- The phrases that should eat have rules that do. -/
theorem rule_eats (p : Phrase) (h : p.eats = true) : (rule p).Eats false := by
  cases p with
  | statement => exact statement_eats
  | body =>
    rintro ⟨k, x, k2⟩
    simp only
    split <;> simp [Eats, Phrase.eats]
  | arguments => exact .inl (argument_eats false)
  | element =>
    rintro ⟨k, x, k2⟩
    cases k <;> simp [Eats, node, all, expression, Phrase.eats]
  | expr l => exact .inl rfl
  | unary =>
    rintro ⟨k, x, k2⟩
    cases k <;> simp [Eats, node, all, Phrase.eats]
  | primary => exact primary_eats
  | _ => simp [Phrase.eats] at h

theorem statement_guarded : statement.Guarded 6 false := by
  rintro ⟨k, x, k2⟩
  cases k with
  | identifier =>
    show (namedStatement _).Guarded 6 true
    unfold namedStatement
    split
    · split_ifs <;> simp [Guarded, Eats, node, all, boundStatement, assertStatement, moduleCall]
    · simp [Guarded, Eats, node, all, declaration]
    · simp [Guarded, Eats, node, all, moduleCall]
  | _ =>
    simp [Guarded, Eats, node, all, moduleItem, functionItem, boundStatement, ifStatement,
      fileStatement, unionBlock, declaration]

/-- A choice between a plain and a special name, as bindings and parameters begin with one. -/
theorem named_eats {g : Form → Rule} {w : Wanted} (h : ∀ n, (g n).Eats true) (e : Bool) :
    (named g w).Eats e := by
  rintro ⟨k, x, k2⟩
  cases k <;> simp [Eats, h]

theorem named_guarded {n : Nat} {g : Form → Rule} {w : Wanted} (h : ∀ m, (g m).Guarded n true)
    (e : Bool) :
    (named g w).Guarded n e := by
  rintro ⟨k, x, k2⟩
  cases k <;> simp [Guarded, h]

theorem bindings_guarded : bindings.Guarded 5 false := by
  rintro ⟨k, x, k2⟩
  simp only
  split
  · trivial
  · trivial
  · trivial
  · refine ⟨named_guarded (fun m => ?_) _, .inl (named_eats (fun m => ?_) _)⟩
    · simp [Guarded, Eats, node, all, binding]
    · simp [Eats, node, all, binding]

theorem parameters_guarded : parameters.Guarded 5 false := by
  rintro ⟨k, x, k2⟩
  simp only
  split
  · trivial
  · trivial
  · refine ⟨named_guarded (fun m => ?_) _, .inl (named_eats (fun m => ?_) _)⟩
    · simp [Guarded, Eats, node, all, parameter]
    · simp [Eats, node, all, parameter]

theorem primary_guarded : primary.Guarded 2 false := by
  rintro ⟨k, x, k2⟩
  cases k with
  | identifier =>
    simp only
    split_ifs <;> simp [Guarded, Eats, node, all, guardExpression]
  | _ => simp [Guarded, Eats, node, all, listOrRange]

theorem operators_guarded (l : Level) : (operators l).Guarded 1 false := by
  rintro ⟨k, x, k2⟩
  simp only
  split
  · trivial
  · rename_i m hm
    have hk : k ≠ .eof := by
      rintro rfl
      simp [Level.ofToken?] at hm
    split_ifs <;> simp [Guarded, Eats, all, hk]

/-- All calls of the table leave less work than there was. -/
theorem rule_guarded (p : Phrase) : (rule p).Guarded (rank p) false := by
  cases p with
  | items | blockItems =>
    rintro ⟨k, x, k2⟩
    cases k <;> simp [Guarded, Eats, Phrase.eats, rank]
  | statement => exact statement_guarded
  | body =>
    rintro ⟨k, x, k2⟩
    simp only
    split <;> simp [Guarded, rank]
  | arguments =>
    refine ⟨?_, .inl (argument_eats false)⟩
    rintro ⟨k, x, k2⟩
    simp only
    split <;> simp [Guarded, Eats, node, all, namedArgument, expression, rank]
  | bindings => exact bindings_guarded
  | parameters => exact parameters_guarded
  | element =>
    rintro ⟨k, x, k2⟩
    cases k <;> simp [Guarded, Eats, node, all, expression, rank]
  | elements =>
    rintro ⟨k, x, k2⟩
    cases k <;> simp [Guarded, Eats]
  | expr l => exact ⟨by simp [Guarded, rank], .inl rfl⟩
  | unary =>
    rintro ⟨k, x, k2⟩
    cases k <;> simp [Guarded, Eats, node, all, rank]
  | primary => exact primary_guarded
  | operators l => exact operators_guarded l
  | suffixes =>
    rintro ⟨k, x, k2⟩
    cases k <;> simp [Guarded, Eats, all, argumentList]

/-- The induction over phrases, for facts about streams with the right count: what the phrases pass
is known. -/
theorem parsePhrase_induct_proper {P : Phrase → Frame → Stream → Outcome → Prop}
    (refused : ∀ p fr s, P p fr s (.failed (.ofToken s.peek .statement) [] s))
    (step : ∀ f : Phrases, f.Forward → f.Eating → (∀ p fr s, s.Proper → P p fr s (f p fr s)) →
      ∀ p fr s, s.Proper → P p fr s ((rule p).apply f fr s))
    (p : Phrase) (fr : Frame) (s : Stream) (hs : s.Proper) : P p fr s (parsePhrase p fr s) := by
  have go := parsePhrase_induct
    (P := fun p fr s o => s.Proper → (∃ run, s.Passes run o.stream) ∧
      (∀ nodes fs t, p.eats = true → o = .ok nodes fs t → t.count < s.count) ∧ P p fr s o) ?_ ?_
  · exact (go p fr s hs).2.2
  · intro p fr s _
    exact ⟨⟨[], .refl s⟩, fun nodes fs t _ h => by simp at h, refused p fr s⟩
  · intro f hf p fr s hs
    have forward : f.Forward := fun p fr s hs => (hf p fr s hs).1
    have eating : f.Eating := fun p fr s nodes fs t hs hp h => (hf p fr s hs).2.1 nodes fs t hp h
    refine ⟨apply_passes forward (rule p) fr s hs, fun nodes fs t hp h => ?_, ?_⟩
    · exact count_lt_of_eats forward eating (rule p) false fr s nodes fs t hs (rule_eats p hp)
        (by simp) h
    · exact step f forward eating (fun p fr s hs => (hf p fr s hs).2.2) p fr s hs

theorem parsePhrase_eating : Phrases.Eating parsePhrase := by
  intro p fr s nodes fs t hs hp h
  refine parsePhrase_induct_proper
    (P := fun p _ s o => ∀ nodes fs t, p.eats = true → o = .ok nodes fs t → t.count < s.count)
    ?_ ?_ p fr s hs nodes fs t hp h
  · intro p fr s nodes fs t _ h
    simp at h
  · intro f forward eating _ p fr s hs nodes fs t hp h
    exact count_lt_of_eats forward eating (rule p) false fr s nodes fs t hs (rule_eats p hp)
      (by simp) h

/-- A phrase is its rule: no call is ever refused. -/
theorem parsePhrase_eq_rule (p : Phrase) (fr : Frame) (s : Stream) (hs : s.Proper) :
    parsePhrase p fr s = (rule p).apply parsePhrase fr s := by
  rw [parsePhrase_eq]
  refine (apply_congr parsePhrase_passes parsePhrase_eating ?_ (rule p) (rank p) false fr s hs
    (rule_guarded p) (by simp) (Nat.le_refl _)).symm
  intro q fr' t _ hw
  have hw : work q t < work p s := hw
  rw [if_pos hw]

end Grammar
end Scad
