import Scad.Proofs.Program.Spans
import Scad.Proofs.Scope.Homes

/-!
# The innermost scope at a place

The scope at a place is the one opened last of all that contain it. As scopes are opened from the
outside to the inside, it is the innermost one, with one exception: the defaults of parameters are
read before the scope of their definition is opened. So in a default the scope of the definition
hides those that lie in the default (`scopeAt_innermost`).
-/

namespace Scad

/-! ## Scopes and those opened before them -/

namespace Outline

/-- The scopes that are opened, each with those of the parameters in front of it. -/
def frames : Outline → List (Span × List Span)
  | nil => []
  | name _ next => next.frames
  | part _ inner next | binding _ _ inner next | param _ inner next => inner.frames ++ next.frames
  | scope _ s before inner next =>
    before.frames ++ (s, before.frames.map Prod.fst) :: (inner.frames ++ next.frames)

@[simp]
theorem frames_append (a b : Outline) : (a ++ b).frames = a.frames ++ b.frames := by
  induction a <;> simp_all [frames]

theorem opened_eq_frames (o : Outline) : o.opened = o.frames.map Prod.fst := by
  induction o <;> simp_all [opened, frames]

/-- The second of two scopes lies in the first one, or is apart from it, or the first one was opened
in front of it. -/
def Nests (frames : List (Span × List Span)) (s r : Span) : Prop :=
  r.bytes ⊆ s.bytes ∨ Disjoint s.bytes r.bytes ∨ ∃ B, (r, B) ∈ frames ∧ s ∈ B

theorem Nests.mono {F F' : List (Span × List Span)} {s r : Span} (h : Nests F s r) (hF : F ⊆ F') :
    Nests F' s r :=
  h.imp_right fun h => h.imp_right fun ⟨B, hB, hs⟩ => ⟨B, hF hB, hs⟩

/-- In an outline that is laid out, each scope lies in those opened earlier, or is apart from them,
or stands behind them as the scope of their parameters. -/
theorem Laid.nests {o : Outline} (h : o.Laid) : o.opened.Pairwise (Nests o.frames) := by
  induction o with
  | nil => exact .nil
  | name n next ih => exact ih h.2.1
  | part _ inner next ihi ihn | binding _ _ inner next ihi ihn | param _ inner next ihi ihn =>
    obtain ⟨hi, hn, hd⟩ := h
    refine List.pairwise_append.2 ⟨(ihi hi).imp fun hsr => hsr.mono (List.subset_append_left _ _),
      (ihn hn).imp fun hsr => hsr.mono (List.subset_append_right _ _), fun s hs r hr => ?_⟩
    exact .inr (.inl (Set.disjoint_of_subset (hi.opened_subset s hs) (hn.opened_subset r hr) hd))
  | scope k t before inner next ihb ihi ihn =>
    obtain ⟨hb, hi, hn, hd, hbt, hit, hdn⟩ := h
    have sub : ∀ {F : List (Span × List Span)}, F ⊆ before.frames ∨ F ⊆ inner.frames ∨
        F ⊆ next.frames → F ⊆ (scope k t before inner next).frames := by
      intro F hF x hx
      simp only [frames, List.mem_append, List.mem_cons]
      rcases hF with hF | hF | hF
      · exact .inl (hF hx)
      · exact .inr (.inr (.inl (hF hx)))
      · exact .inr (.inr (.inr (hF hx)))
    have hB := (ihb hb).imp fun hsr => hsr.mono (sub (.inl (List.Subset.refl _)))
    have hI := (ihi hi).imp fun hsr => hsr.mono (sub (.inr (.inl (List.Subset.refl _))))
    have hN := (ihn hn).imp fun hsr => hsr.mono (sub (.inr (.inr (List.Subset.refl _))))
    refine List.pairwise_append.2 ⟨hB, List.pairwise_cons.2 ⟨fun r hr => ?_,
      List.pairwise_append.2 ⟨hI, hN, fun s hs r hr => ?_⟩⟩, fun s hs r hr => ?_⟩
    · rcases List.mem_append.1 hr with hr | hr
      · exact .inl ((hi.opened_subset r hr).trans hit)
      · exact .inr (.inl (hdn.mono_right (hn.opened_subset r hr)))
    · exact .inr (.inl (Set.disjoint_of_subset ((hi.opened_subset s hs).trans hit)
        (hn.opened_subset r hr) hdn))
    · have hs' := hb.opened_subset s hs
      simp only [List.mem_cons, List.mem_append] at hr
      rcases hr with rfl | hr | hr
      · refine .inr (.inr ⟨before.frames.map Prod.fst, ?_, before.opened_eq_frames ▸ hs⟩)
        simp [frames]
      · exact .inr (.inl (Set.disjoint_of_subset hs' (hi.opened_subset r hr) hd))
      · exact .inr (.inl (Set.disjoint_of_subset (hs'.trans hbt) (hn.opened_subset r hr) hdn))

end Outline

/-! ## The elements that open scopes -/

namespace Element

/-- The outline of an element. A clause is drawn without what follows it. -/
def outline : Element → Outline
  | item i => i.outline
  | stmt s => s.outline
  | expr e => e.outline
  | arg a => a.outline
  | assignment b => b.outline
  | param p => p.outline
  | name _ => .nil
  | clause c => c.outline .nil

/-- The scopes opened in an element, each with those of the parameters in front of it. -/
def frames (x : Element) : List (Span × List Span) := x.outline.frames

/-- Where the scope stands that an element opens. -/
@[simp]
def scope? : Element → Option Span
  | item (.moduleDef _ _ _ s) | item (.functionDef _ _ _ s) => some s
  | stmt (.block _ s) | stmt (.bound _ _ _ s) => some s
  | expr (.letIn _ _ s) | expr (.function _ _ s) | expr (.comprehension _ _ _ s) => some s
  | clause (.loop _ s) | clause (.letIn _ s) => some s
  | _ => none

theorem frames_all {α : Type} {mk : α → Element} {all : List α → Outline} (hnil : all [] = .nil)
    (hcons : ∀ a as, all (a :: as) = (mk a).outline ++ all as) (as : List α) :
    (all as).frames = (as.map mk).flatMap frames := by
  induction as with
  | nil => rw [hnil]; rfl
  | cons a as ih => rw [hcons, Outline.frames_append, ih]; rfl

theorem frames_items (is : List Item) :
    (Item.outlineAll is).frames = (is.map .item).flatMap frames :=
  frames_all rfl (fun _ _ => rfl) is

theorem frames_exprs (es : List Expr) :
    (Expr.outlineAll es).frames = (es.map .expr).flatMap frames :=
  frames_all rfl (fun _ _ => rfl) es

theorem frames_args (as : List Arg) : (Arg.outlineAll as).frames = (as.map .arg).flatMap frames :=
  frames_all rfl (fun _ _ => rfl) as

theorem frames_assignments (bs : List Assignment) :
    (Assignment.outlineAll bs).frames = (bs.map .assignment).flatMap frames :=
  frames_all rfl (fun _ _ => rfl) bs

theorem frames_params (ps : List Param) :
    (Param.outlineAll ps).frames = (ps.map .param).flatMap frames :=
  frames_all rfl (fun _ _ => rfl) ps

theorem frames_expr? (e : Option Expr) :
    (Expr.outlineOption e).frames = (e.toList.map .expr).flatMap frames := by
  cases e <;> simp [Expr.outlineOption, Outline.frames, frames, outline]

theorem frames_stmt? (s : Option Stmt) :
    (Stmt.outlineOption s).frames = (s.toList.map .stmt).flatMap frames := by
  cases s <;> simp [Stmt.outlineOption, Outline.frames, frames, outline]

theorem frames_loopHead (h : LoopHead) : h.outline.frames = h.elements.flatMap frames := by
  cases h with
  | iterating bindings => exact frames_assignments bindings
  | counting init cond update =>
    simp [LoopHead.outline, LoopHead.elements, frames_assignments]
    rfl

theorem frames_clauses (cs : List Clause) (rest : Outline) :
    (Clause.outlineAll cs rest).frames = (cs.map .clause).flatMap frames ++ rest.frames := by
  induction cs with
  | nil => rfl
  | cons c cs ih =>
    cases c <;> simp [Clause.outlineAll, Clause.outline, Outline.frames, frames, outline, ih]

/-- The scopes of an element: those of its name and parameters, its own, and those of its other
parts. -/
theorem frames_eq (x : Element) :
    x.frames = x.before.flatMap frames ++
      ((x.scope?.map fun s => (s, (x.before.flatMap frames).map Prod.fst)).toList ++
        x.inner.flatMap frames) := by
  cases x with
  | item i =>
    cases i <;> simp [frames, outline, Item.outline, Outline.frames, frames_items, frames_params]
  | stmt s =>
    cases s <;> simp [frames, outline, Stmt.outline, Outline.frames, frames_items, frames_args,
      frames_assignments, frames_stmt?]
  | expr e =>
    cases e <;> simp [frames, outline, Expr.outline, Outline.frames, frames_exprs, frames_args,
      frames_assignments, frames_params, frames_clauses, frames_expr?, frames_loopHead]
  | arg a => cases a <;> simp [frames, outline, Arg.outline, Outline.frames]
  | assignment b => cases b; simp [frames, outline, Assignment.outline, Outline.frames]
  | param p => cases p; simp [frames, outline, Param.outline, Outline.frames, frames_expr?]
  | name n => rfl
  | clause c =>
    cases c <;> simp [frames, outline, Clause.outline, Clause.elements, Outline.frames,
      frames_assignments, frames_loopHead]

/-- Whatever is opened in an element is opened by it or by an element in it, and what was opened in
front of it belongs to the parameters there. -/
theorem of_mem_frames {x : Element} {r : Span} {B : List Span} (h : (r, B) ∈ x.frames) :
    ∃ y ∈ x.all, y.scope? = some r ∧ B = (y.before.flatMap frames).map Prod.fst := by
  induction x using Element.induct with
  | step x ih =>
    have part : ∀ z ∈ x.children, (r, B) ∈ z.frames →
        ∃ y ∈ x.all, y.scope? = some r ∧ B = (y.before.flatMap frames).map Prod.fst := by
      intro z hz hB
      obtain ⟨y, hy, hscope, hbefore⟩ := ih z hz hB
      exact ⟨y, mem_all.2 (.inr ⟨z, hz, hy⟩), hscope, hbefore⟩
    rw [frames_eq] at h
    simp only [List.mem_append, List.mem_flatMap, Option.mem_toList, Option.map_eq_some_iff,
      Prod.mk.injEq] at h
    rcases h with ⟨z, hz, hB⟩ | ⟨s, hs, rfl, rfl⟩ | ⟨z, hz, hB⟩
    · exact part z (List.mem_append_left _ hz) hB
    · exact ⟨x, mem_all.2 (.inl rfl), hs, rfl⟩
    · exact part z (List.mem_append_right _ hz) hB

theorem span_of_scope? {x : Element} {s : Span} (h : x.scope? = some s) : x.span = s := by
  cases x with
  | item i => cases i <;> simp_all [span, Item.span]
  | stmt t => cases t <;> simp_all [span, Stmt.span]
  | expr e => cases e <;> simp_all [span, Expr.span]
  | clause c => cases c <;> simp_all [span, Clause.span]
  | _ => simp at h

theorem before_cases {x y : Element} (h : y ∈ x.before) :
    (∃ n, y = .name n) ∨ ∃ d, y = .param d := by
  cases x with
  | item i => cases i <;> simp at h <;> grind
  | expr e => cases e <;> simp at h; grind
  | _ => simp at h

/-- What an element is made of is sound with it and lies in its span. -/
theorem Sound.of_mem_all {source : List Char} {x y : Element} (h : x.Sound source)
    (hy : y ∈ x.all) : y.Sound source ∧ x.span.contains y.span = true := by
  induction h with
  | @mk x faithful inner ih =>
    rcases mem_all.1 hy with rfl | ⟨z, hz, hy⟩
    · exact ⟨.mk faithful inner, by simp [Span.contains]⟩
    · obtain ⟨hsound, hinside⟩ := ih z hz hy
      exact ⟨hsound, Span.contains_trans (faithful.inside z hz) hinside⟩

/-- The scopes in front of the scope of an element lie in its parameters. -/
theorem Sound.of_mem_before {source : List Char} {x : Element} {s : Span} (h : x.Sound source)
    (hs : s ∈ (x.before.flatMap frames).map Prod.fst) :
    ∃ d, .param d ∈ x.before ∧ d.span.contains s = true := by
  obtain ⟨⟨s, B⟩, hmem, rfl⟩ := List.mem_map.1 hs
  obtain ⟨z, hz, hB⟩ := List.mem_flatMap.1 hmem
  obtain ⟨n, rfl⟩ | ⟨d, rfl⟩ := before_cases hz
  · cases hB
  · obtain ⟨y, hy, hscope, -⟩ := of_mem_frames hB
    refine ⟨d, hz, ?_⟩
    rw [← span_of_scope? hscope]
    exact ((h.child (List.mem_append_left _ hz)).of_mem_all hy).2

end Element

/-! ## The scopes of a program -/

namespace Program

variable {source : List Char} {p : Program}

/-- The scopes are those of the file and of the elements that open one. -/
theorem spans_of_parse (h : Program.parse source = .ok p) :
    p.context.scopes.map (·.span) = p.span :: (Item.outlineAll p.items).opened := by
  rw [(outline_of_parse h).2, Outline.spans_enter]
  rfl

theorem of_mem_frames {r : Span} {B : List Span} (h : (r, B) ∈ (Item.outlineAll p.items).frames) :
    ∃ x ∈ p.elements, x.scope? = some r ∧ B = (x.before.flatMap Element.frames).map Prod.fst := by
  rw [Element.frames_items, List.mem_flatMap] at h
  obtain ⟨y, hy, hB⟩ := h
  obtain ⟨i, hi, rfl⟩ := List.mem_map.1 hy
  obtain ⟨x, hx, hscope⟩ := Element.of_mem_frames hB
  exact ⟨x, List.mem_flatMap.2 ⟨i, hi, hx⟩, hscope⟩

theorem sound_of_mem (h : Program.parse source = .ok p) {x : Element} (hx : x ∈ p.elements) :
    x.Sound source := by
  obtain ⟨i, hi, hx⟩ := List.mem_flatMap.1 hx
  exact (((items_fit h).sound (.item i) (List.mem_map_of_mem hi)).of_mem_all hx).1

/-- Only the scope of the file can be empty. -/
theorem opened_solid (h : Program.parse source = .ok p) {r : Span}
    (hr : r ∈ (Item.outlineAll p.items).opened) : r.start.byte < r.stop.byte := by
  rw [Outline.opened_eq_frames, List.mem_map] at hr
  obtain ⟨⟨r, B⟩, hB, rfl⟩ := hr
  obtain ⟨x, hx, hscope, -⟩ := of_mem_frames hB
  have hsolid := (sound_of_mem h hx).faithful.solid
  rw [Element.span_of_scope? hscope] at hsolid
  refine hsolid fun s hs => ?_
  rw [hs] at hscope
  cases hscope

/-- The first of two spans lies in a parameter of a definition that the second one belongs to. -/
def InParam (p : Program) (s r : Span) : Prop :=
  ∃ x ∈ p.elements, x.span = r ∧ ∃ d, .param d ∈ x.before ∧ d.span.contains s = true

/-- Of two scopes the one opened later lies in the other, or both are apart, or the one opened
earlier lies in a parameter of the definition that the other one belongs to. -/
theorem scopes_nest (h : Program.parse source = .ok p) :
    (p.context.scopes.map (·.span)).Pairwise fun s r => s.contains r = true ∨ p.InParam s r ∨
      s.stop.byte ≤ r.start.byte ∨ r.stop.byte ≤ s.start.byte := by
  obtain ⟨hfits, -⟩ := outline_of_parse h
  rw [spans_of_parse h]
  refine List.pairwise_cons.2 ⟨fun r hr => .inl ?_, ?_⟩
  · exact (Span.contains_iff (opened_solid h hr)).2
      ((hfits.laid.opened_subset r hr).trans hfits.within)
  · refine hfits.laid.nests.imp_of_mem fun {s r} hs hr hsr => ?_
    have hs := opened_solid h hs
    have hr := opened_solid h hr
    rcases hsr with hsub | hd | ⟨B, hB, hsB⟩
    · exact .inl ((Span.contains_iff hr).2 hsub)
    · have hd := Set.Ico_disjoint_Ico.1 hd
      omega
    · obtain ⟨x, hx, hscope, rfl⟩ := of_mem_frames hB
      have hparam := (sound_of_mem h hx).of_mem_before hsB
      exact .inr (.inl ⟨x, hx, Element.span_of_scope? hscope, hparam⟩)

end Program

/-! ## The scope opened last -/

namespace Context

/-- Scopes are numbered in the order in which they are opened. -/
def Numbered (c : Context) : Prop := ∀ i s, c.scope? i = some s → s.id = i

variable {c : Context}

theorem Numbered.push (h : c.Numbered) (kind : ScopeKind) (span : Span) :
    (c.push kind span).Numbered := by
  intro i s hs
  simp only [scope?, Context.push, List.getElem?_append] at hs
  split at hs
  · exact h i s hs
  · obtain ⟨hi, rfl⟩ : i - c.scopes.length = 0 ∧ _ = s := by
      simpa [List.getElem?_eq_some_iff] using hs
    show c.scopes.length = i
    omega

theorem Numbered.pop (h : c.Numbered) : c.pop.Numbered := by
  unfold Context.pop
  split
  · exact h
  · exact h

theorem Numbered.declare (h : c.Numbered) (name : Name) (value : Option Expr) :
    (c.declare name value).Numbered := by
  intro i s hs
  simp only [scope?, Context.declare, List.getElem?_modify, Option.map_eq_map,
    Option.map_eq_some_iff] at hs
  obtain ⟨t, ht, rfl⟩ := hs
  split
  · exact h i t ht
  · exact h i t ht

theorem Numbered.declareParams (ps : List Param) :
    ∀ {c : Context}, c.Numbered → (c.declareParams ps).Numbered := by
  induction ps with
  | nil => exact fun h => h
  | cons p ps ih => exact fun h => ih (h.declare p.name p.default)

/-- If some scope contains a place, the scope at the place is the last one that does. -/
theorem Numbered.scopeAt (h : c.Numbered) {q : Span}
    (hq : ∃ s ∈ c.scopes, s.span.contains q = true) :
    ∃ front r back, c.scopes = front ++ r :: back ∧ c.scope? (c.scopeAt q) = some r ∧
      r.span.contains q = true ∧ ∀ s ∈ back, s.span.contains q = false := by
  unfold Context.scopeAt
  cases hfind : c.scopes.reverse.find? fun s => s.span.contains q with
  | none =>
    obtain ⟨s, hs, hsq⟩ := hq
    exact absurd hsq (List.find?_eq_none.1 hfind s (List.mem_reverse.2 hs))
  | some r =>
    obtain ⟨hr, back, front, hscopes, hback⟩ := List.find?_eq_some_iff_append.1 hfind
    have hsplit : c.scopes = front.reverse ++ r :: back.reverse := by
      simpa using List.reverse_eq_append_iff.1 hscopes
    have hat : c.scope? front.reverse.length = some r := by
      simp [scope?, hsplit]
    refine ⟨front.reverse, r, back.reverse, hsplit, ?_, hr, fun s hs => ?_⟩
    · rwa [← h _ r hat] at hat
    · simpa using hback s (List.mem_reverse.1 hs)

end Context

theorem Outline.numbered_enter (o : Outline) :
    ∀ {c : Context}, c.Numbered → (o.enter c).Numbered := by
  induction o with
  | nil => exact fun hc => hc
  | name _ _ ih => exact fun hc => ih hc
  | part _ _ _ ihi ihn | param _ _ _ ihi ihn => exact fun hc => ihn (ihi hc)
  | binding n e _ _ ihi ihn => exact fun hc => ihn ((ihi hc).declare n (some e))
  | scope k s before _ _ ihb ihi ihn =>
    exact fun hc => ihn (ihi (.declareParams before.params ((ihb hc).push k s))).pop

namespace Program

variable {source : List Char} {p : Program}

theorem numbered_of_parse (h : Program.parse source = .ok p) : p.context.Numbered := by
  have hstart : (Context.start p.span).Numbered := by
    intro i s hs
    obtain ⟨hi, rfl⟩ : i = 0 ∧ _ = s := by
      simpa [Context.scope?, Context.start, List.getElem?_eq_some_iff] using hs
    exact hi.symm
  intro i s hs
  rw [Context.scope?, (outline_of_parse h).2] at hs
  exact (Item.outlineAll p.items).numbered_enter hstart i s hs

theorem span_of_parse (h : Program.parse source = .ok p) :
    p.span = .ofRegion ⟨{}, (tokenize source).stop⟩ := by
  obtain ⟨nodes, fs, t, hparse, htree⟩ := SyntaxTree.ofSource_eq source
  obtain rfl : fs = [] := by
    have hfaults := faultless_of_parse h
    rwa [htree] at hfaults
  obtain ⟨-, items, context, -, hp⟩ := parse_of_items hparse
  obtain rfl := Except.ok.inj (h.symm.trans hp)
  exact congrArg Span.ofRegion (Region.forward_eq (Nat.zero_le _))

/-- The scope of the file covers all of the source. -/
theorem span_contains (h : Program.parse source = .ok p) {q : Span}
    (hend : q.stop.byte ≤ Text.byteSize source) : p.span.contains q = true := by
  rw [Span.contains_eq_true, span_of_parse h]
  have hstop : (tokenize source).stop.byte = Text.byteSize source := by
    simp [tokenize_stop, Position.after_byte]
  exact ⟨Nat.zero_le _, hend.trans_eq hstop.symm⟩

/-- The scope at a place in the source contains it, and all other scopes that do are around this
one, apart from those in the parameters of the definition that it belongs to. An empty place can
stand on the border of two scopes side by side, and then it lies in both. -/
theorem scopeAt_innermost (h : Program.parse source = .ok p) {q : Span}
    (hq : q.start.byte ≤ q.stop.byte) (hend : q.stop.byte ≤ Text.byteSize source) :
    ∃ r, p.context.scope? (p.context.scopeAt q) = some r ∧ r.span.contains q = true ∧
      ∀ s ∈ p.context.scopes, s.span.contains q = true →
        s.span.contains r.span = true ∨ p.InParam s.span r.span ∨
          q.start.byte = q.stop.byte ∧
            (s.span.stop.byte = q.start.byte ∧ r.span.start.byte = q.start.byte ∨
              r.span.stop.byte = q.start.byte ∧ s.span.start.byte = q.start.byte) := by
  have hroot : ∃ s ∈ p.context.scopes, s.span.contains q = true := by
    have hmem : p.span ∈ p.context.scopes.map (·.span) := spans_of_parse h ▸ List.mem_cons_self
    obtain ⟨s, hs, hspan⟩ := List.mem_map.1 hmem
    exact ⟨s, hs, hspan ▸ span_contains h hend⟩
  obtain ⟨front, r, back, hscopes, hat, hr, hback⟩ := (numbered_of_parse h).scopeAt hroot
  have hnest := List.pairwise_map.1 (scopes_nest h)
  rw [hscopes, List.pairwise_append] at hnest
  refine ⟨r, hat, hr, fun s hs hsq => ?_⟩
  rw [hscopes, List.mem_append, List.mem_cons] at hs
  rcases hs with hs | rfl | hs
  · rcases hnest.2.2 s hs r List.mem_cons_self with hsr | hsr | hapart
    · exact .inl hsr
    · exact .inr (.inl hsr)
    · -- spans that are apart have at most a border in common
      rw [Span.contains_eq_true] at hr hsq
      exact .inr (.inr (by omega))
  · exact .inl (by simp [Span.contains])
  · rw [hback s hs] at hsq
    cases hsq

/-- A binding of a clause, in a comprehension, in the body of a module. -/
theorem scopeAt_innermost_clause :
    ∃ p, Program.parse "module m(a) \x7b b = [for (i = a) let (j = i) j]; \x7d".toList = .ok p ∧
      p.context.scopeAt (.ofRegion ⟨⟨43, 0, 43⟩, ⟨44, 0, 44⟩⟩) = 3 ∧
      ∃ r, p.context.scope? 3 = some r ∧
        r.span.contains (.ofRegion ⟨⟨43, 0, 43⟩, ⟨44, 0, 44⟩⟩) = true ∧
        ∀ s ∈ p.context.scopes, s.span.contains (.ofRegion ⟨⟨43, 0, 43⟩, ⟨44, 0, 44⟩⟩) = true →
          s.span.contains r.span = true ∨ p.InParam s.span r.span := by
  have hok : (SyntaxTree.ofSource
      "module m(a) \x7b b = [for (i = a) let (j = i) j]; \x7d".toList).faults = [] := by
    decide +kernel
  have hthree : (Program.parse
      "module m(a) \x7b b = [for (i = a) let (j = i) j]; \x7d".toList).toOption.map
        (·.context.scopeAt (.ofRegion ⟨⟨43, 0, 43⟩, ⟨44, 0, 44⟩⟩)) = some 3 := by
    decide +kernel
  obtain ⟨p, hp, -⟩ := parse_of_faultless hok
  rw [hp] at hthree
  have hthree := Option.some.inj hthree
  obtain ⟨r, hat, hr, hall⟩ := scopeAt_innermost hp (q := .ofRegion ⟨⟨43, 0, 43⟩, ⟨44, 0, 44⟩⟩)
    (by decide) (by decide +kernel)
  refine ⟨p, hp, hthree, r, hthree ▸ hat, hr, fun s hs hsq => ?_⟩
  rcases hall s hs hsq with hsr | hsr | ⟨hempty, -⟩
  · exact .inl hsr
  · exact .inr hsr
  · exact absurd hempty (by decide)

/-- In the default of a parameter the scope of the module hides that of a `let`, which was opened
before it and lies in it. -/
theorem scopeAt_default :
    (Program.parse "module m(a = let (b = 1) b) cube(a);".toList).toOption.map (fun p =>
      (p.context.scopes.map fun s => (s.id, s.span.start.byte, s.span.stop.byte),
        p.context.scopeAt (.ofRegion ⟨⟨25, 0, 25⟩, ⟨26, 0, 26⟩⟩))) =
      some ([(0, 0, 36), (1, 13, 26), (2, 0, 36)], 2) := by
  decide +kernel

end Program
end Scad
