import Scad.Proofs.Grammar.Faults
import Scad.Proofs.Grammar.Inversion
import Scad.Proofs.Program.Alike.Nodes

/-!
# Two runs of the grammar

The grammar decides by the kinds and the texts of tokens, never by where they stand. So it does the
same on two lists of tokens that are matched one by one, on malformed ones too: the nodes, the
faults and the places reached are matched in turn (`parsePhrase_matched`). What it means for two
positions to be matched is left open. It may say nothing at all, or that one is the other moved.
-/

namespace Scad

/-- A leaf of this form can be made from a token of this kind. -/
@[simp]
def Form.Takes (f : Form) (k : TokenKind) : Prop := k ≠ .eof ∧ (f = .number → k = .number)

/-- How tokens and positions of two sources are matched. -/
structure Matching where
  token : Token → Token → Prop
  position : Position → Position → Prop
  kind : ∀ {t t'}, token t t' → t'.kind = t.kind
  text : ∀ {t t'}, token t t' → t'.text = t.text
  start : ∀ {t t'}, token t t' → position t.region.start t'.region.start
  stop : ∀ {t t'}, token t t' → position t.region.stop t'.region.stop
  /-- The later ones of two pairs of positions are matched. -/
  later : ∀ {p p' q q'}, position p p' → position q q' →
    position (if q.byte < p.byte then p else q) (if q'.byte < p'.byte then p' else q')

namespace Matching

variable (M : Matching)

def region (r r' : Region) : Prop := M.position r.start r'.start ∧ M.position r.stop r'.stop

/-- The same cause at matched places. -/
def fault (f f' : Fault) : Prop := f'.cause = f.cause ∧ M.region f.region f'.region

/-- Nodes of the same kind and role over matched tokens. The text counts of leaves only, and a leaf
is made from one token. -/
inductive node : Node → Node → Prop
  | leaf {f : Form} (role : Option Role) {t t' : Token} (h : M.token t t')
      (hf : f.Takes t.kind) :
      node ⟨.form f, t.region, role, false, []⟩ ⟨.form f, t'.region, role, false, []⟩
  | inner {kind : Kind} {r r' : Region} {role : Option Role} {missing : Bool}
      {ns ns' : List Node} (hr : M.region r r') (hf : ∀ f, kind = .form f → f.isText = false)
      (hs : ∀ q, role = some q → q.isSymbol = false)
      (hk : ∀ k, kind = .token k → missing = true) (hns : List.Forall₂ node ns ns') :
      node ⟨kind, r, role, missing, ns⟩ ⟨kind, r', role, missing, ns'⟩

structure frame (fr fr' : Frame) : Prop where
  start : M.position fr.start fr'.start
  left : List.Forall₂ M.node fr.left fr'.left

/-- Places with matched tokens ahead. If no token was passed in the first list, the second one may
have any past. -/
structure stream (s s' : Stream) : Prop where
  ahead : List.Forall₂ M.token s.ahead s'.ahead
  count : s'.count = s.count
  eof : M.token s.eof s'.eof
  last : ∀ t, s.last = some t → ∃ t', s'.last = some t' ∧ M.token t t'

inductive outcome : Outcome → Outcome → Prop
  | ok {ns ns' : List Node} {fs fs' : List Fault} {s s' : Stream} (hns : List.Forall₂ M.node ns ns')
      (hfs : List.Forall₂ M.fault fs fs') (hs : M.stream s s') : outcome (.ok ns fs s) (.ok ns' fs' s')
  | failed {e e' : Fault} {fs fs' : List Fault} {s s' : Stream} (he : M.fault e e')
      (hfs : List.Forall₂ M.fault fs fs') (hs : M.stream s s') :
      outcome (.failed e fs s) (.failed e' fs' s')

variable {M}

/-! ## Nodes -/

/-- The induction over matched trees. -/
theorem node.induct {P : Node → Node → Prop}
    (leaf : ∀ f role t t', M.token t t' → f.Takes t.kind →
      P ⟨.form f, t.region, role, false, []⟩ ⟨.form f, t'.region, role, false, []⟩)
    (inner : ∀ kind r r' role missing ns ns', M.region r r' →
      (∀ f, kind = .form f → f.isText = false) → (∀ q, role = some q → q.isSymbol = false) →
      (∀ k, kind = .token k → missing = true) → List.Forall₂ P ns ns' → P ⟨kind, r, role, missing, ns⟩ ⟨kind, r', role, missing, ns'⟩)
    {n n' : Node} (h : M.node n n') : P n n' :=
  @node.rec M (fun n n' _ => P n n') (fun ns ns' _ => List.Forall₂ P ns ns')
    (fun role _ _ ht hf => leaf _ role _ _ ht hf)
    (fun hr hf hs hk _ ih => inner _ _ _ _ _ _ _ hr hf hs hk ih)
    .nil (fun _ _ ih ihs => .cons ih ihs) n n' h

theorem node.inRole {n n' : Node} (h : M.node n n') {q : Role} (hq : q.isSymbol = false) :
    M.node (n.inRole q) (n'.inRole q) := by
  cases h with
  | leaf role ht hf => exact .leaf (some q) ht hf
  | inner hr hf _ hk hns =>
    refine .inner hr hf (fun r hr => ?_) hk hns
    rwa [← Option.some.inj hr]

/-- Without an error matched nodes are read alike, if their tokens stand in the two sources. -/
theorem node.alike {source source' : List Char} {n n' : Node}
    (hM : ∀ t t', M.token t t' → t.kind ≠ .eof → t.Sound source ∧ t'.Sound source')
    (h : M.node n n') : n.hasError = false → Node.Alike source source' n n' := by
  refine node.induct (P := fun n n' => n.hasError = false → Node.Alike source source' n n')
    (fun f role t t' ht hf _ => ?_)
    (fun kind r r' role missing ns ns' _ hf hs hk ih herr => ?_) h
  · obtain ⟨h1, h2⟩ := hM t t' ht hf.1
    exact Node.alike_same h1 h2 (M.text ht) hf.2
  · simp only [Node.hasError, Bool.or_eq_false_iff, beq_eq_false_iff_ne] at herr
    obtain ⟨⟨hkind, rfl⟩, hchildren⟩ := herr
    have hns : List.Forall₂ (Node.Alike source source') ns ns' := by
      clear h
      induction ih with
      | nil => exact .nil
      | cons hn _ ih =>
        simp only [Node.anyError_cons, Bool.or_eq_false_iff] at hchildren
        exact .cons (hn hchildren.1) (ih hchildren.2)
    cases kind with
    | error => exact absurd rfl hkind
    | token k => cases hk k rfl
    | form f =>
      have hform : Node.Alike source source' ⟨.form f, r, none, false, ns⟩
          ⟨.form f, r', none, false, ns'⟩ := Node.alike_form (hf f rfl) hns
      cases role with
      | none => exact hform
      | some q => exact hform.inRole (hs q rfl)

theorem node.absent (k : TokenKind) {p p' : Position} (h : M.position p p') :
    M.node (.absent k p) (.absent k p') :=
  .inner ⟨h, h⟩ (by simp) (by simp) (fun _ _ => rfl) .nil

theorem node.error {r r' : Region} (h : M.region r r') :
    M.node { kind := .error, region := r } { kind := .error, region := r' } :=
  .inner h (by simp) (by simp) (by simp) .nil

/-! ## Places -/

section

variable {s s' : Stream}

theorem stream.peek (h : M.stream s s') : M.token s.peek s'.peek := by
  have ha := h.ahead
  unfold Stream.peek
  generalize s.ahead = ts at ha
  generalize s'.ahead = ts' at ha
  cases ha with
  | nil => exact h.eof
  | cons ht _ => exact ht

theorem stream.look (h : M.stream s s') : s'.look = s.look := by
  have hsecond : M.token (s.ahead.tail.headD s.eof) (s'.ahead.tail.headD s'.eof) := by
    have ha := h.ahead
    generalize s.ahead = ts at ha
    generalize s'.ahead = ts' at ha
    cases ha with
    | nil => exact h.eof
    | cons _ hts =>
      cases hts with
      | nil => exact h.eof
      | cons ht _ => exact ht
  unfold Stream.look
  rw [M.kind h.peek, M.text h.peek, M.kind hsecond]

theorem stream.position (h : M.stream s s') : M.position s.position s'.position := M.start h.peek

theorem stream.advance (h : M.stream s s') : M.stream s.advance s'.advance := by
  obtain ⟨ahead, count, last, eof⟩ := s
  obtain ⟨ahead', count', last', eof'⟩ := s'
  obtain ⟨ha, rfl, he, hl⟩ := h
  cases ha with
  | nil => exact ⟨.nil, rfl, he, hl⟩
  | cons ht hts =>
    refine ⟨hts, rfl, he, fun t e => ?_⟩
    obtain rfl := Option.some.inj e
    exact ⟨_, rfl, ht⟩

theorem stream.regionFrom (h : M.stream s s') (hl : s.last.isSome = true) {p p' : Position}
    (hp : M.position p p') : M.region (s.regionFrom p) (s'.regionFrom p') := by
  obtain ⟨t, ht⟩ := Option.isSome_iff_exists.1 hl
  obtain ⟨t', ht', htt⟩ := h.last t ht
  have hlater := M.later hp (M.stop htt)
  unfold Stream.regionFrom
  rw [ht, ht']
  dsimp only
  split <;> split at hlater <;> split
  all_goals exact ⟨hp, by simp_all [Region.emptyAt]⟩

theorem stream.gapPosition (h : M.stream s s') (hl : s.last.isSome = true) :
    M.position s.gapPosition s'.gapPosition := by
  obtain ⟨t, ht⟩ := Option.isSome_iff_exists.1 hl
  obtain ⟨t', ht', htt⟩ := h.last t ht
  unfold Stream.gapPosition
  rw [ht, ht']
  exact M.stop htt

theorem fault.ofToken {t t' : Token} (h : M.token t t') (w : Wanted) :
    M.fault (.ofToken t w) (.ofToken t' w) := by
  refine ⟨?_, M.start h, M.stop h⟩
  unfold Fault.ofToken
  rw [M.kind h, M.text h]

theorem stream.seek {eof eof' : Token} (he : M.token eof eof') {ts ts' : List Token}
    (h : List.Forall₂ M.token ts ts') : ∀ (n : Nat) {t t' : Token}, M.token t t' →
      M.stream (Stream.seek eof ts n (some t)) (Stream.seek eof' ts' n (some t')) := by
  induction h with
  | nil =>
    intro n t t' ht
    refine ⟨.nil, rfl, he, fun x hx => ?_⟩
    obtain rfl := Option.some.inj hx
    exact ⟨t', rfl, ht⟩
  | @cons a a' ts ts' ha hts ih =>
    intro n t t' ht
    rw [Stream.seek, Stream.seek]
    simp only [Option.map_some, M.kind ht, M.kind ha]
    split
    · refine ⟨.cons ha hts, rfl, he, fun x hx => ?_⟩
      obtain rfl := Option.some.inj hx
      exact ⟨t', rfl, ht⟩
    · exact ih (n - 1) ha

/-- Going on behind a fault, where at least one token was passed or is passed now. -/
theorem stream.resume {began began' : Stream} (h : M.stream s s') (hb : M.stream began began')
    (hl : s.last.isSome = true ∨ s.count = began.count ∧ s.ahead ≠ []) :
    M.stream (s.resume began) (s'.resume began') := by
  -- `seek` looks at the token passed last
  have hseek : ∀ {u u' : Stream}, M.stream u u' → u.last.isSome = true →
      M.stream (Stream.seek u.eof u.ahead u.count u.last)
        (Stream.seek u'.eof u'.ahead u'.count u'.last) := by
    intro u u' hu hl
    obtain ⟨t, ht⟩ := Option.isSome_iff_exists.1 hl
    obtain ⟨t', ht', htt⟩ := hu.last t ht
    rw [ht, ht', hu.count]
    exact stream.seek hu.eof hu.ahead _ htt
  unfold Stream.resume
  rw [h.count, hb.count, M.kind h.peek]
  split
  · dsimp only
    split
    · exact h.advance
    · refine hseek h.advance ?_
      rcases hl with hl | ⟨-, hne⟩
      · unfold Stream.advance
        split
        · exact hl
        · rfl
      · obtain ⟨t, ts, e⟩ := List.exists_cons_of_ne_nil hne
        unfold Stream.advance
        rw [e]
        rfl
  · rename_i hc
    have hgo := hseek h (hl.resolve_right fun hr => hc hr.1)
    rwa [h.count] at hgo

end

theorem outcome.after {fs fs' : List Fault} {o o' : Outcome} (h : M.outcome o o')
    (hfs : List.Forall₂ M.fault fs fs') : M.outcome (o.after fs) (o'.after fs') := by
  cases h with
  | ok hns h hs => exact .ok hns (List.rel_append hfs h) hs
  | failed he h hs => exact .failed he (List.rel_append hfs h) hs

theorem outcome.map {g g' : Stream → List Node → List Node} {o o' : Outcome} (h : M.outcome o o')
    (hg : ∀ s s' ns ns', List.Forall₂ M.node ns ns' → List.Forall₂ M.node (g s ns) (g' s' ns')) :
    M.outcome (o.map g) (o'.map g') := by
  cases h with
  | ok hns h hs => exact .ok (hg _ _ _ _ hns) h hs
  | failed he h hs => exact .failed he h hs

end Matching

/-! ## Rules -/

/-- The phrases that do nothing by the token passed last before they have passed one. -/
def Phrase.settles : Phrase → Bool
  | .items | .statement | .expr _ | .unary | .primary => true
  | _ => false

namespace Rule

def isLeaf : Rule → Bool
  | leaf _ => true
  | _ => false

/-- The rule passes no token and cannot fail. -/
@[simp]
def isStill : Rule → Bool
  | done | keep => true
  | as _ a => a.isStill
  | _ => false

theorem stream_of_isStill {f : Phrases} {fr : Frame} {s t : Stream} {fs : List Fault} {a : Rule} :
    ∀ {ns : List Node}, a.isStill = true → a.apply f fr s = .ok ns fs t → t = s := by
  induction a with
  | done | keep =>
    intro ns _ h
    simp only [apply, Outcome.ok.injEq] at h
    exact h.2.2.symm
  | as _ a iha =>
    intro ns hs h
    obtain ⟨m, h, -⟩ := as_eq_ok.1 h
    exact iha hs h
  | _ => intro ns hs; cases hs

/-- The text of a node counts only where the node is a leaf, and a leaf is made from a token that is
known to suit it. -/
@[simp]
def Worded : Option TokenKind → Rule → Prop
  | known, leaf g => ∃ k, known = some k ∧ g.Takes k
  | known, seq a b => a.Worded known ∧ b.Worded (if a.isStill then known else none)
  | known, feed a b => a.Worded known ∧ b.Worded none
  | known, as r a => (r.isSymbol = true → a.isLeaf = true) ∧ a.Worded known
  | known, build g a => g.isText = false ∧ a.Worded known
  | known, fresh a => a.Worded known
  | _, look g => ∀ a, (g a).Worded (some a.kind)
  | known, recover a => a.Worded known
  | _, _ => True

/-- Nodes are placed only where a token was passed. The flag tells that a token is known to be
ahead. -/
@[simp]
def Settles : Bool → Rule → Prop
  | e, seq a b => a.Settles e ∧ (a.Eats e ∨ b.Settles e)
  | e, feed a b => a.Settles e ∧ (a.Eats e ∨ b.Settles e)
  | e, as _ a => a.Settles e
  | e, build _ a => a.Settles e ∧ a.Eats e
  | e, fresh a => a.Settles e
  | _, look g => ∀ a, (g a).Settles (a.kind ≠ .eof)
  | _, call p => p.settles = true
  | e, recover a => e = true ∧ a.Settles e
  | _, closing _ => False
  | _, _ => True

end Rule

/-- A token was passed if fewer are ahead. -/
theorem Stream.Passes.last_isSome {s t : Stream} {run : List Token} (h : s.Passes run t)
    (hl : s.last.isSome = true ∨ t.count < s.count) : t.last.isSome = true := by
  rw [h.last, Option.isSome_or]
  rcases hl with hl | hc
  · simp [hl]
  · have hne : run ≠ [] := by
      rintro rfl
      have := h.count
      simp at this
      omega
    simp [hne]

/-- The same phrases on two sides: what they do on matched places is matched. -/
def Phrases.Matched (M : Matching) (f f' : Phrases) : Prop :=
  ∀ p fr fr' (s s' : Stream), s.Proper → M.frame fr fr' → M.stream s s' →
    p.settles = true ∨ s.last.isSome = true → M.outcome (f p fr s) (f' p fr' s')

namespace Rule

variable {M : Matching} {f f' : Phrases}

theorem apply_matched (hf : f.Forward) (he : f.Eating) (hff : Phrases.Matched M f f') :
    ∀ (r : Rule) (known : Option TokenKind) (e : Bool) (fr fr' : Frame) (s s' : Stream),
      r.Worded known → s.Proper → M.frame fr fr' → M.stream s s' →
      (∀ k, known = some k → s.peek.kind = k) → (e = true → s.peek.kind ≠ .eof) →
      r.Settles e ∨ s.last.isSome = true →
      M.outcome (r.apply f fr s) (r.apply f' fr' s') := by
  -- behind the first of two rules a token was passed, or the second settles as well
  have row : ∀ {a b : Rule} {e : Bool} {fr : Frame} {s u : Stream} {ns : List Node}
      {fs : List Fault}, s.Proper → (e = true → s.peek.kind ≠ .eof) →
      (a.Eats e ∨ b.Settles e) ∨ s.last.isSome = true → a.apply f fr s = .ok ns fs u →
      u.Proper ∧ ((b.Settles e ∧ (e = true → u.peek.kind ≠ .eof)) ∨ u.last.isSome = true) := by
    intro a b e fr s u ns fs hs hp hset ha
    obtain ⟨run, pa⟩ := apply_passes hf a fr s hs
    rw [ha, Outcome.stream_ok] at pa
    refine ⟨hs.of_passes pa, ?_⟩
    by_cases hc : u.count < s.count
    · exact .inr (pa.last_isSome (.inr hc))
    · rcases hset with (heats | hb) | hl
      · exact absurd (count_lt_of_eats hf he a e fr s _ _ _ hs heats hp ha) hc
      · exact .inl ⟨hb, fun h => by rw [pa.peek_eq hc]; exact hp h⟩
      · exact .inr (pa.last_isSome (.inl hl))
  intro r
  induction r with
  | done =>
    intro known e fr fr' s s' _ _ _ hm _ _ _
    exact .ok .nil .nil hm
  | take =>
    intro known e fr fr' s s' _ _ _ hm _ _ _
    exact .ok .nil .nil hm.advance
  | keep =>
    intro known e fr fr' s s' _ _ hfr hm _ _ _
    exact .ok hfr.left .nil hm
  | leaf g =>
    intro known e fr fr' s s' hw _ _ hm hk _ _
    obtain ⟨k, hknown, htakes⟩ := hw
    rw [← hk k hknown] at htakes
    exact .ok (.cons (.leaf none hm.peek htakes) .nil) .nil hm.advance
  | expect k =>
    intro known e fr fr' s s' _ _ _ hm _ _ _
    simp only [apply, M.kind hm.peek]
    split
    · exact .ok .nil .nil hm.advance
    · exact .failed (.ofToken hm.peek _) .nil hm
  | closing k =>
    intro known e fr fr' s s' _ _ _ hm _ _ hset
    have hgap := hm.gapPosition (hset.resolve_left fun h => h)
    simp only [apply, M.kind hm.peek]
    split
    · exact .ok .nil .nil hm.advance
    · exact .ok (.cons (.absent k hgap) .nil) (.cons ⟨rfl, hgap, hgap⟩ .nil) hm
  | refuse w =>
    intro known e fr fr' s s' _ _ _ hm _ _ _
    exact .failed (.ofToken hm.peek _) .nil hm
  | seq a b iha ihb =>
    intro known e fr fr' s s' hw hs hfr hm hk hp hset
    have ha := iha known e fr fr' s s' hw.1 hs hfr hm hk hp (hset.imp_left And.left)
    simp only [apply]
    generalize hra : a.apply f fr s = o at ha
    generalize a.apply f' fr' s' = o' at ha
    cases ha with
    | failed h hfs hm' => exact .failed h hfs hm'
    | @ok ns ns' fs fs' u u' hns hfs hm' =>
      obtain ⟨hu, hnext⟩ := row hs hp (hset.imp_left And.right) hra
      have hku : ∀ k, (if a.isStill then known else none) = some k → u.peek.kind = k := by
        intro k hk'
        split at hk'
        · rename_i hstill
          rw [stream_of_isStill hstill hra]
          exact hk k hk'
        · cases hk'
      have hb : M.outcome (b.apply f fr u) (b.apply f' fr' u') := by
        rcases hnext with ⟨hb, hpu⟩ | hl
        · exact ihb _ e fr fr' u u' hw.2 hu hfr hm' hku hpu (.inl hb)
        · exact ihb _ false fr fr' u u' hw.2 hu hfr hm' hku (by simp) (.inr hl)
      exact (hb.map fun _ _ _ _ hmore => List.rel_append hns hmore).after hfs
  | feed a b iha ihb =>
    intro known e fr fr' s s' hw hs hfr hm hk hp hset
    have ha := iha known e fr fr' s s' hw.1 hs hfr hm hk hp (hset.imp_left And.left)
    simp only [apply]
    generalize hra : a.apply f fr s = o at ha
    generalize a.apply f' fr' s' = o' at ha
    cases ha with
    | failed h hfs hm' => exact .failed h hfs hm'
    | @ok ns ns' fs fs' u u' hns hfs hm' =>
      obtain ⟨hu, hnext⟩ := row hs hp (hset.imp_left And.right) hra
      have hfr' : M.frame { fr with left := ns } { fr' with left := ns' } := ⟨hfr.start, hns⟩
      refine Matching.outcome.after ?_ hfs
      rcases hnext with ⟨hb, hpu⟩ | hl
      · exact ihb none e _ _ u u' hw.2 hu hfr' hm' (by simp) hpu (.inl hb)
      · exact ihb none false _ _ u u' hw.2 hu hfr' hm' (by simp) (by simp) (.inr hl)
  | as q a iha =>
    intro known e fr fr' s s' hw hs hfr hm hk hp hset
    by_cases hq : q.isSymbol = true
    · -- a node whose text counts in its role is a leaf
      cases a with
      | leaf g =>
        obtain ⟨-, k, hknown, htakes⟩ := hw
        rw [← hk k hknown] at htakes
        exact .ok (.cons (.leaf (some q) hm.peek htakes) .nil) .nil hm.advance
      | _ => cases hw.1 hq
    · refine (iha known e fr fr' s s' hw.2 hs hfr hm hk hp hset).map fun _ _ _ _ hns => ?_
      exact List.forall₂_map_left_iff.2 (List.forall₂_map_right_iff.2
        (hns.imp fun _ _ h => h.inRole (by simpa using hq)))
  | build g a iha =>
    intro known e fr fr' s s' hw hs hfr hm hk hp hset
    have ha := iha known e fr fr' s s' hw.2 hs hfr hm hk hp (hset.imp_left And.left)
    simp only [apply]
    generalize hra : a.apply f fr s = o at ha
    generalize a.apply f' fr' s' = o' at ha
    cases ha with
    | failed h hfs hm' => exact .failed h hfs hm'
    | @ok ns ns' fs fs' u u' hns hfs hm' =>
      obtain ⟨run, pa⟩ := apply_passes hf a fr s hs
      rw [hra, Outcome.stream_ok] at pa
      have hl : u.last.isSome = true := by
        refine pa.last_isSome (hset.symm.imp_right fun h => ?_)
        exact count_lt_of_eats hf he a e fr s _ _ _ hs h.2 hp hra
      refine .ok (.cons (.inner (hm'.regionFrom hl hfr.start) ?_ (by simp) (by simp) hns) .nil) hfs hm'
      intro g' hg'
      rw [← Kind.form.inj hg']
      exact hw.1
  | fresh a iha =>
    intro known e fr fr' s s' hw hs _ hm hk hp hset
    exact iha known e _ _ s s' hw hs ⟨hm.position, .nil⟩ hm hk hp hset
  | look g ih =>
    intro known e fr fr' s s' hw hs hfr hm hk hp hset
    simp only [apply, hm.look]
    refine ih s.look _ _ fr fr' s s' (hw s.look) hs hfr hm (fun k hk => ?_) (fun hk => ?_)
      (hset.imp_left fun h => h s.look)
    · exact Option.some.inj hk
    · simpa [Stream.look] using hk
  | call p =>
    intro known e fr fr' s s' _ hs hfr hm _ _ hset
    exact hff p fr fr' s s' hs hfr hm hset
  | recover a iha =>
    intro known e fr fr' s s' hw hs hfr hm hk hp hset
    have ha := iha known e fr fr' s s' hw hs hfr hm hk hp (hset.imp_left And.right)
    simp only [apply]
    generalize hra : a.apply f fr s = o at ha
    generalize a.apply f' fr' s' = o' at ha
    cases ha with
    | ok hns hfs hm' => exact .ok hns hfs hm'
    | @failed x x' fs fs' u u' hx hfs hm' =>
      obtain ⟨run, pa⟩ := apply_passes hf a fr s hs
      rw [hra, Outcome.stream_failed] at pa
      have hmr := hm'.resume hm ?_
      · obtain ⟨more, pr⟩ := Stream.resume_passes (hs.of_passes pa) s
        have hl := (pa.trans pr).last_isSome
          (hset.symm.imp_right fun h => Stream.resume_count_lt hs pa (hp h.1))
        exact .ok (.cons (.error (hmr.regionFrom hl hm.position)) .nil)
          (List.rel_append hfs (.cons hx .nil)) hmr
      · by_cases hc : u.count < s.count
        · exact .inl (pa.last_isSome (.inr hc))
        · refine hset.symm.imp (fun h => pa.last_isSome (.inl h)) fun h => ⟨?_, fun hnil => ?_⟩
          · exact Nat.le_antisymm pa.count_le (Nat.not_lt.1 hc)
          · refine hp h.1 ?_
            rw [← pa.peek_eq hc]
            exact (Stream.peek_kind_eq_eof (hs.of_passes pa)).2 hnil

end Rule

/-! ## The table -/

namespace Grammar

open Rule

theorem worded_ite {p : Prop} [Decidable p] {a b : Rule} {known : Option TokenKind} :
    (if p then a else b).Worded known ↔ if p then a.Worded known else b.Worded known := by
  split <;> rfl

section

variable (known : Option TokenKind)

theorem assignments_worded : assignments.Worded known := by simp [assignments, node, all, Form.isText]

theorem bindingList_worded : bindingList.Worded known := by
  simp [bindingList, all, Role.isSymbol, assignments_worded]

theorem parameterList_worded : parameterList.Worded known := by
  simp [parameterList, node, all, Role.isSymbol, Form.isText]

theorem argumentList_worded : argumentList.Worded known := by
  refine ⟨trivial, ⟨by simp [Role.isSymbol], rfl, fun a => ?_⟩, trivial⟩
  dsimp only
  split <;> trivial

theorem callTail_worded : callTail.Worded known := by
  intro a
  dsimp only
  split <;> simp [Role.isSymbol]

theorem statement_worded : statement.Worded known := by
  rintro ⟨k, x, k2⟩
  cases k with
  | identifier =>
    show (namedStatement _).Worded _
    unfold namedStatement
    split
    · split_ifs <;> simp [node, all, boundStatement, assertStatement, moduleCall, Role.isSymbol,
        Form.isText, bindingList_worded, argumentList_worded, callTail_worded]
    · simp [node, all, declaration, expression, Role.isSymbol, Form.isText]
    · simp [node, all, moduleCall, Role.isSymbol, Form.isText, argumentList_worded,
        callTail_worded]
  | _ =>
    simp +contextual [node, all, moduleItem, functionItem, boundStatement, ifStatement,
      fileStatement, unionBlock, declaration, expression, Role.isSymbol, Form.isText, isLeaf, bindingList_worded,
      parameterList_worded, worded_ite]

theorem arguments_worded : arguments.Worded known := by
  refine ⟨fun a => ?_, fun a => ?_⟩
  · dsimp only
    split <;> simp_all [node, all, namedArgument, expression, Role.isSymbol, Form.isText]
  · simp [worded_ite]

theorem named_worded {g : Form → Rule} {w : Wanted}
    (h : ∀ n k, n.Takes k → (g n).Worded (some k)) :
    (named g w).Worded known := by
  rintro ⟨k, x, k2⟩
  cases k with
  | identifier | special => exact h _ _ (by simp)
  | _ => trivial

theorem bindings_worded : bindings.Worded known := by
  intro a
  dsimp only
  split
  · trivial
  · trivial
  · trivial
  · refine ⟨named_worded _ fun n k hk => ?_, ?_⟩
    · simpa [node, all, binding, expression, Role.isSymbol, Form.isText] using hk
    · simp [worded_ite]

theorem parameters_worded : parameters.Worded known := by
  intro a
  dsimp only
  split
  · trivial
  · trivial
  · refine ⟨named_worded _ fun n k hk => ?_, ?_⟩
    · simpa [node, all, parameter, expression, Role.isSymbol, Form.isText, worded_ite] using hk
    · simp [worded_ite]

theorem element_worded : element.Worded known := by
  rintro ⟨k, x, k2⟩
  cases k <;> simp [node, all, expression, loopHead, Role.isSymbol, Form.isText, worded_ite,
    assignments_worded, bindingList_worded]

theorem operators_worded (l : Level) : (operators l).Worded known := by
  rintro ⟨k, x, k2⟩
  dsimp only
  split
  · trivial
  · rename_i m hm
    have hk : k ≠ .eof := by
      rintro rfl
      cases hm
    split_ifs <;> simp [all, expression, Role.isSymbol, Form.isText, isLeaf, hk]

theorem suffixes_worded : suffixes.Worded known := by
  rintro ⟨k, x, k2⟩
  cases k <;> simp +contextual [all, expression, Role.isSymbol, Form.isText, worded_ite,
    argumentList_worded]

theorem listOrRange_worded : listOrRange.Worded known := by
  refine ⟨trivial, fun a => ?_⟩
  dsimp only
  split <;> simp [all, expression, rangeBounds, Role.isSymbol, Form.isText, worded_ite]

theorem primary_worded : primary.Worded known := by
  rintro ⟨k, x, k2⟩
  cases k with
  | identifier =>
    dsimp only
    split_ifs <;> simp [node, all, guardExpression, expression, Role.isSymbol, Form.isText,
      worded_ite, argumentList_worded]
  | _ =>
    simp [node, all, expression, Role.isSymbol, Form.isText, bindingList_worded,
      parameterList_worded, listOrRange_worded]

/-- Texts count on leaves only. -/
theorem rule_worded (p : Phrase) : (rule p).Worded known := by
  cases p with
  | items | blockItems =>
    rintro ⟨k, x, k2⟩
    cases k <;> simp
  | statement => exact statement_worded known
  | body =>
    intro a
    dsimp only
    split <;> trivial
  | arguments => exact arguments_worded known
  | bindings => exact bindings_worded known
  | parameters => exact parameters_worded known
  | element => exact element_worded known
  | elements => simp [rule, elements, worded_ite]
  | expr l => simp [rule, expr]
  | operators l => exact operators_worded known l
  | unary =>
    rintro ⟨k, x, k2⟩
    cases k <;> simp [node, all, Role.isSymbol, Form.isText, isLeaf]
  | primary => exact primary_worded known
  | suffixes => exact suffixes_worded known

end

theorem statement_settles : statement.Settles false := by
  rintro ⟨k, x, k2⟩
  cases k with
  | identifier =>
    show (namedStatement _).Settles true
    unfold namedStatement
    split
    · split_ifs <;> simp [Eats, node, all, boundStatement, assertStatement, moduleCall]
    · simp [Eats, node, all, declaration]
    · simp [Eats, node, all, moduleCall]
  | _ =>
    simp [Eats, node, all, moduleItem, functionItem, boundStatement, ifStatement, fileStatement,
      unionBlock, declaration]

theorem items_settles : items.Settles false := by
  rintro ⟨k, x, k2⟩
  cases k <;> simp [Phrase.settles]

theorem primary_settles : primary.Settles false := by
  rintro ⟨k, x, k2⟩
  cases k with
  | identifier =>
    dsimp only
    split_ifs <;> simp [Eats, node, all, guardExpression]
  | _ => simp [Eats, node, all, listOrRange]

theorem rule_settles (p : Phrase) (h : p.settles = true) : (rule p).Settles false := by
  cases p with
  | items => exact items_settles
  | statement => exact statement_settles
  | expr l => exact ⟨rfl, .inl rfl⟩
  | unary =>
    rintro ⟨k, x, k2⟩
    cases k <;> simp [Eats, node, all, Phrase.settles, Phrase.eats]
  | primary => exact primary_settles
  | _ => cases h

/-- On matched tokens the grammar does the same, whatever the tokens are. -/
theorem parsePhrase_matched (M : Matching) : Phrases.Matched M parsePhrase parsePhrase := by
  intro p fr fr' s s' hs hfr hm hset
  -- by induction on the work left, which is the same on both sides
  induction hn : work p s using Nat.strongRecOn generalizing p fr fr' s s' with
  | ind n ih =>
    subst hn
    have hwork : ∀ q (t t' : Stream), M.stream t t' → work q t' = work q t := by
      intro q t t' ht
      rw [work, work, ht.count]
    rw [parsePhrase_eq p fr s, parsePhrase_eq p fr' s']
    refine apply_matched ?_ ?_ ?_ (rule p) none false fr fr' s s' (rule_worded none p) hs hfr hm
      (by simp) (by simp) (hset.imp_left (rule_settles p))
    · intro q fr t ht
      dsimp only
      split
      · exact parsePhrase_passes q fr t ht
      · exact ⟨[], .refl t⟩
    · intro q fr t nodes fs u ht hq h
      dsimp only at h
      split at h
      · exact parsePhrase_eating q fr t nodes fs u ht hq h
      · cases h
    · intro q fr fr' t t' ht hfr hm' hset
      dsimp only
      rw [hwork q t t' hm', hwork p s s' hm]
      split
      · exact ih _ ‹_› q fr fr' t t' ht hfr hm' hset rfl
      · exact .failed (.ofToken hm'.peek _) .nil hm'

end Grammar
end Scad
