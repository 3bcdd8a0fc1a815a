import Scad.Proofs.Program.Constructs

/-!
# The scopes that elements open

Every scope of a program but the root is opened by one element, and an element opens at most one.
Most elements close their scope behind their last part, so the scopes in them do not show outside.
A clause does not: its scope stays open up to the end of the comprehension, and so the scopes of a
comprehension and of its clauses are nested one in the other. Main statements:
`Program.scopes_of_elements` and `Program.comprehension_nests`.
-/

namespace Scad

/-! ## Scopes without their names -/

/-- A scope without the names declared in it: all that is settled when it is opened. -/
def Scope.bare (s : Scope) : Scope := { s with names := {} }

/-- The kind of a scope and where it stands. -/
def Scope.head (s : Scope) : ScopeKind × Span := (s.kind, s.span)

/-- The scope that a step opens. -/
def Edit.opens? : Edit → Option (ScopeKind × Span)
  | push kind span => some (kind, span)
  | _ => none

namespace Context

variable {c : Context}

/-- The scopes of a context without their names. -/
def bare (c : Context) : List Scope := c.scopes.map Scope.bare

@[simp]
theorem bare_push (kind : ScopeKind) (span : Span) :
    (c.push kind span).bare = c.bare ++ [⟨c.scopes.length, some c.current, kind, span, {}⟩] := by
  simp [bare, Context.push, Scope.bare]

@[simp]
theorem bare_pop : c.pop.bare = c.bare := by
  rw [bare, scopes_pop, bare]

@[simp]
theorem bare_declare (n : Name) (v : Option Expr) : (c.declare n v).bare = c.bare := by
  apply List.ext_getElem?
  intro i
  simp only [bare, Context.declare, List.getElem?_map, List.getElem?_modify, Option.map_eq_map]
  cases c.scopes[i]? with
  | none => rfl
  | some s => by_cases h : c.current = i <;> simp [h, Scope.bare]

@[simp]
theorem bare_assign (n : Name) (v : Expr) (span : Span) : (c.assign n v span).bare = c.bare := by
  refine Eq.trans ?_ (bare_declare n (some v))
  unfold Context.assign
  dsimp only
  split <;> rfl

theorem heads_edit (e : Edit) :
    (c.edit e).bare.map Scope.head = c.bare.map Scope.head ++ e.opens?.toList := by
  cases e <;> simp [Edit.opens?, Scope.head]
  all_goals rfl

/-- The scopes after a list of steps: those that were there, and those that the steps open. -/
theorem heads_replay (es : List Edit) :
    (c.replay es).bare.map Scope.head = c.bare.map Scope.head ++ es.filterMap Edit.opens? := by
  induction es generalizing c with
  | nil => simp
  | cons e es ih =>
    rw [replay_cons, ih, heads_edit, List.filterMap_cons]
    cases e.opens? <;> simp

/-- Scopes are opened behind those that are there. -/
theorem bare_replay (es : List Edit) : ∃ new, (c.replay es).bare = c.bare ++ new := by
  induction es generalizing c with
  | nil => exact ⟨[], by simp⟩
  | cons e es ih =>
    obtain ⟨new, hnew⟩ := @ih (c.edit e)
    obtain ⟨first, hfirst⟩ : ∃ first, (c.edit e).bare = c.bare ++ first := by
      cases e with
      | push kind span => exact ⟨_, bare_push kind span⟩
      | pop => exact ⟨[], by simp⟩
      | declare n v => exact ⟨[], by simp⟩
      | assign n v span => exact ⟨[], by simp⟩
      | defineModule | defineFunction => exact ⟨[], (List.append_nil _).symm⟩
    exact ⟨first ++ new, by rw [replay_cons, hnew, hfirst, List.append_assoc]⟩

end Context

/-! ## Steps that close what they open -/

namespace Edit

/-- The steps close what they open, and nothing else. -/
def Balanced (es : List Edit) : Prop :=
  ∀ c : Context, c.stack ≠ [] → (c.replay es).stack = c.stack

variable {as bs : List Edit}

theorem balanced_nil : Balanced [] := fun _ _ => rfl

theorem Balanced.append (ha : Balanced as) (hb : Balanced bs) : Balanced (as ++ bs) := by
  intro c hc
  rw [Context.replay_append, hb _ (by rwa [ha c hc]), ha c hc]

theorem Balanced.flatMap {xs : List Element} (h : ∀ x ∈ xs, Balanced x.edits) :
    Balanced (xs.flatMap Element.edits) := by
  induction xs with
  | nil => exact balanced_nil
  | cons x xs ih =>
    exact (h x List.mem_cons_self).append (ih fun y hy => h y (List.mem_cons_of_mem _ hy))

theorem balanced_assign (n : Name) (v : Expr) (span : Span) : Balanced [.assign n v span] := by
  intro c _
  show (c.assign n v span).stack = c.stack
  unfold Context.assign
  dsimp only
  split <;> rfl

theorem balanced_params (ps : List Param) : Balanced (Param.edits ps) := by
  induction ps with
  | nil => exact balanced_nil
  | cons p ps ih => exact fun c hc => ih (c.declare p.name p.default) hc

/-- A scope that is opened in front and closed behind. -/
theorem Balanced.wrap (h : Balanced as) (kind : ScopeKind) (span : Span) :
    Balanced (.push kind span :: (as ++ [.pop])) := by
  intro c hc
  have hinner : ((c.push kind span).replay as).stack = c.scopes.length :: c.stack :=
    h _ (List.cons_ne_nil _ _)
  obtain ⟨i, rest, hstack⟩ := List.exists_cons_of_ne_nil hc
  simp only [Context.replay_cons, Context.replay_append, Context.edit, Context.replay_nil]
  rw [Context.pop, hinner, hstack]

/-- A scope with steps in front of it. -/
theorem Balanced.scoped {before inner : List Edit} (hbefore : Balanced before) (ha : Balanced as)
    (hb : Balanced bs) (hinner : Balanced inner) (kind : ScopeKind) (span : Span) :
    Balanced (before ++ (as ++ .push kind span :: bs) ++ inner ++ [.pop]) := by
  simpa using hbefore.append (ha.append ((hb.append hinner).wrap kind span))

/-- Among the scopes that the steps open are some with these kinds and places, the first of them in
the current scope and each of the others in the one before. -/
def Opens (es : List Edit) (l : List (ScopeKind × Span)) : Prop :=
  ∀ c : Context, c.stack ≠ [] → ∃ new ss : List Scope, (c.replay es).bare = c.bare ++ new ∧
    ss.Sublist new ∧ ss.map Scope.head = l ∧ (∀ s ∈ ss.head?, s.parent = some c.current) ∧
      ss.IsChain fun s t => t.parent = some s.id

variable {es : List Edit} {l : List (ScopeKind × Span)}

theorem opens_nil : Opens [] [] := fun _ _ => ⟨[], [], by simp⟩

theorem Opens.append (h : Opens es l) (bs : List Edit) : Opens (es ++ bs) l := by
  intro c hc
  obtain ⟨new, ss, hnew, hsub, hheads, hfirst, hchain⟩ := h c hc
  obtain ⟨more, hmore⟩ := Context.bare_replay (c := c.replay es) bs
  refine ⟨new ++ more, ss, ?_, hsub.trans (List.sublist_append_left _ _), hheads, hfirst, hchain⟩
  rw [Context.replay_append, hmore, hnew, List.append_assoc]

theorem Opens.after (h : Opens es l) (ha : Balanced as) : Opens (as ++ es) l := by
  intro c hc
  have hstack := ha c hc
  obtain ⟨first, hbare⟩ := Context.bare_replay (c := c) as
  obtain ⟨new, ss, hnew, hsub, hheads, hfirst, hchain⟩ := h (c.replay as) (by rwa [hstack])
  refine ⟨first ++ new, ss, ?_, hsub.trans (List.sublist_append_right _ _), hheads, ?_, hchain⟩
  · rw [Context.replay_append, hnew, hbare, List.append_assoc]
  · rwa [Context.current, hstack] at hfirst

theorem Opens.under (h : Opens es l) (kind : ScopeKind) (span : Span) :
    Opens (.push kind span :: es) ((kind, span) :: l) := by
  intro c hc
  obtain ⟨new, ss, hnew, hsub, hheads, hfirst, hchain⟩ :=
    h (c.push kind span) (List.cons_ne_nil _ _)
  refine ⟨⟨c.scopes.length, some c.current, kind, span, {}⟩ :: new, _ :: ss, ?_,
    hsub.cons_cons _, ?_, by simp, List.isChain_cons.2 ⟨hfirst, hchain⟩⟩
  · rw [Context.replay_cons, Context.edit, hnew, Context.bare_push, List.append_assoc]
    rfl
  · rw [List.map_cons, hheads]
    rfl

end Edit

namespace Element

open Edit

/-- The scope that an element opens. -/
@[simp]
def opens? : Element → Option (ScopeKind × Span)
  | item (.moduleDef _ _ _ s) => some (.module, s)
  | item (.functionDef _ _ _ s) => some (.function, s)
  | stmt (.block _ s) => some (.block, s)
  | stmt (.bound binder _ _ s) => some (binder.scopeKind, s)
  | expr (.letIn _ _ s) => some (.letIn, s)
  | expr (.function _ _ s) => some (.lambda, s)
  | expr (.comprehension _ _ _ s) => some (.comprehension, s)
  | clause (.loop _ s) => some (.comprehension, s)
  | clause (.letIn _ s) => some (.letIn, s)
  | _ => none

/-! ### One scope for each element -/

theorem opens_opening (x : Element) : x.opening.filterMap Edit.opens? = x.opens?.toList := by
  have params : ∀ ps, (Param.edits ps).filterMap Edit.opens? = [] :=
    Param.filterMap_edits fun _ _ => rfl
  cases x with
  | item i =>
    cases i with
    | moduleDef n ps is s | functionDef n ps e s => exact congrArg (_ :: ·) (params ps)
    | _ => rfl
  | stmt t => cases t <;> simp [Edit.opens?]
  | expr e => cases e <;> simp [Edit.opens?, params]
  | clause c => cases c <;> simp [Edit.opens?]
  | _ => rfl

theorem opens_closing (x : Element) : x.closing.filterMap Edit.opens? = [] := by
  cases x with
  | item i => cases i <;> rfl
  | stmt t => cases t <;> rfl
  | expr e =>
    cases e with
    | comprehension head cs body s =>
      have pop : Edit.opens? .pop = none := rfl
      simp [Clause.filterMap_closing, pop]
    | _ => rfl
  | assignment b => cases b; rfl
  | _ => rfl

/-- The steps of an element open the scopes of all that is in it. -/
theorem opens_edits (x : Element) :
    (x.edits.filterMap Edit.opens?).Perm (x.all.filterMap opens?) := by
  induction x using Element.induct with
  | step x ih =>
    have parts : ∀ ys : List Element, ys ⊆ x.children →
        ((ys.flatMap edits).filterMap Edit.opens?).Perm ((ys.flatMap all).filterMap opens?) := by
      intro ys hys
      simp only [List.filterMap_flatMap]
      exact List.Perm.flatMap_left _ fun y hy => ih y (hys hy)
    have hbefore := parts x.before (List.subset_append_left _ _)
    have hinner := parts x.inner (List.subset_append_right _ _)
    rw [edits_eq, all_eq, children, List.flatMap_append]
    simp only [List.filterMap_append, opens_opening, opens_closing, List.append_nil]
    cases hx : x.opens? with
    | none =>
      rw [List.filterMap_cons_none hx, List.filterMap_append]
      simpa using hbefore.append hinner
    | some s =>
      -- the scopes of the parameters are opened first, so the order is not the same
      rw [List.filterMap_cons_some hx, List.filterMap_append, List.append_assoc]
      exact List.perm_middle.trans ((hbefore.append hinner).cons s)

/-! ### Elements that close their scope -/

def isClause : Element → Bool
  | clause _ => true
  | _ => false

/-- The clauses of a comprehension with what stands behind them, up to where their scopes are
closed. -/
theorem balanced_clauses {cs : List Clause} {es : List Edit}
    (hcs : ∀ k ∈ cs, Balanced (k.elements.flatMap edits)) (hes : Balanced es) :
    Balanced ((cs.map clause).flatMap edits ++ (es ++ cs.reverse.flatMap Clause.closing)) := by
  induction cs with
  | nil => simpa using hes
  | cons k cs ih =>
    have hk := hcs k List.mem_cons_self
    have hrest := hk.append (ih fun k' hk' => hcs k' (List.mem_cons_of_mem _ hk'))
    cases k with
    | filter cond s => simpa [edits_eq (.clause _), Clause.closing] using hrest
    | loop head s =>
      simpa [edits_eq (.clause _), Clause.closing] using hrest.wrap .comprehension s
    | letIn bs s => simpa [edits_eq (.clause _), Clause.closing] using hrest.wrap .letIn s

theorem isClause_loopHead {head : LoopHead} {y : Element} (hy : y ∈ head.elements) :
    y.isClause = false := by
  cases head <;> simp [LoopHead.elements] at hy <;> grind [isClause]

theorem isClause_elements {k : Clause} {y : Element} (hy : y ∈ k.elements) :
    y.isClause = false := by
  cases k with
  | loop head s => exact isClause_loopHead hy
  | filter cond s | letIn bs s => simp [Clause.elements] at hy; grind [isClause]

/-- In a row the parts of a clause stand in its place. -/
theorem isClause_row {x y : Element} (hy : y ∈ x.row) : y.isClause = false := by
  cases x with
  | item i => cases i <;> simp [row, children] at hy <;> grind [isClause]
  | stmt t => cases t <;> simp [row, children] at hy <;> grind [isClause]
  | expr e =>
    cases e with
    | comprehension head cs body s =>
      simp only [row, List.mem_append, List.mem_flatMap, List.mem_singleton] at hy
      rcases hy with hy | ⟨k, -, hy⟩ | rfl
      · exact isClause_loopHead hy
      · exact isClause_elements hy
      · rfl
    | literal v s => simp [row, children] at hy
    | _ => simp [row, children] at hy; grind [isClause]
  | arg a => cases a <;> simp [row, children] at hy <;> grind [isClause]
  | assignment b => cases b; simp [row, children] at hy; grind [isClause]
  | param p => cases p; simp [row, children] at hy; grind [isClause]
  | name n => simp [row, children] at hy
  | clause k => exact isClause_elements (by simpa [row, children] using hy)

/-- An element that is neither a clause nor a comprehension closes its scope itself. -/
theorem balanced_of_parts {x : Element} (hx : x.isClause = false)
    (hcomp : ∀ head cs body s, x ≠ .expr (.comprehension head cs body s))
    (hbefore : Balanced (x.before.flatMap edits)) (hinner : Balanced (x.inner.flatMap edits)) :
    Balanced x.edits := by
  rw [edits_eq]
  cases x with
  | item i =>
    cases i with
    | moduleDef n ps is s =>
      have hdefine : Balanced [.defineModule n ps s] := fun _ _ => rfl
      exact hbefore.scoped hdefine (balanced_params ps) hinner _ _
    | functionDef n ps e s =>
      have hdefine : Balanced [.defineFunction n ps s] := fun _ _ => rfl
      exact hbefore.scoped hdefine (balanced_params ps) hinner _ _
    | variableDef n e s => exact hinner.append (balanced_assign n e s)
    | stmt t => simpa using hinner
  | stmt t =>
    cases t with
    | block is s | bound k bs t s =>
      exact balanced_nil.scoped balanced_nil balanced_nil hinner _ _
    | _ => simpa using hinner
  | expr e =>
    cases e with
    | letIn bs body s => exact balanced_nil.scoped balanced_nil balanced_nil hinner _ _
    | function ps body s => exact hbefore.scoped balanced_nil (balanced_params ps) hinner _ _
    | comprehension head cs body s => exact absurd rfl (hcomp head cs body s)
    | _ => simpa using hinner
  | assignment b =>
    cases b with
    | mk n e s => exact hinner.append (balanced_assign n e s)
  | clause k => cases hx
  | arg a | param p | name n => simpa using hinner

/-- Every element but a clause closes the scopes that it opens. -/
theorem balanced_edits {x : Element} (hx : x.isClause = false) : Balanced x.edits := by
  induction x using Element.induct_row with
  | step x ih =>
    have hrow : ∀ {ys : List Element}, ys ⊆ x.row → Balanced (ys.flatMap edits) := fun hys =>
      .flatMap fun y hy => ih y (hys hy) (isClause_row (hys hy))
    by_cases hcomp : ∃ head cs body s, x = .expr (.comprehension head cs body s)
    · obtain ⟨head, cs, body, s, rfl⟩ := hcomp
      have hhead : Balanced (head.elements.flatMap edits) := hrow (by simp [row])
      have hbody : Balanced ([expr body].flatMap edits) := hrow (by simp [row])
      have hcs : ∀ k ∈ cs, Balanced (k.elements.flatMap edits) := by
        intro k hk
        refine hrow fun y hy => ?_
        simp only [row, List.mem_append, List.mem_flatMap]
        exact .inr (.inl ⟨k, hk, hy⟩)
      rw [edits_eq]
      simpa using (hhead.append (balanced_clauses hcs hbody)).wrap .comprehension s
    · have hself : x.row = x.children := by
        unfold row
        split
        · exact absurd ⟨_, _, _, _, rfl⟩ hcomp
        · rfl
      refine balanced_of_parts hx (fun head cs body s h => hcomp ⟨head, cs, body, s, h⟩)
        (hrow (hself ▸ List.subset_append_left _ _)) (hrow (hself ▸ List.subset_append_right _ _))

/-! ### Scopes that stay open -/

theorem edits_flatMap {xs : List Element} {x y : Element} (hx : x ∈ xs)
    (h : ∃ as bs, x.edits = as ++ (y.edits ++ bs)) :
    ∃ as bs, xs.flatMap edits = as ++ (y.edits ++ bs) := by
  obtain ⟨as, bs, hsplit⟩ := h
  obtain ⟨front, back, rfl⟩ := List.append_of_mem hx
  exact ⟨front.flatMap edits ++ as, bs ++ back.flatMap edits, by simp [hsplit]⟩

/-- The steps of an element among those of one that it is in. -/
theorem edits_of_mem {x y : Element} (hy : y ∈ x.all) :
    ∃ as bs, x.edits = as ++ (y.edits ++ bs) := by
  induction x using Element.induct with
  | step x ih =>
    rcases mem_all.1 hy with rfl | ⟨z, hz, hy⟩
    · exact ⟨[], [], by simp⟩
    · have hsplit := ih z hz hy
      rw [edits_eq]
      rcases List.mem_append.1 hz with hz | hz
      · obtain ⟨as, bs, hbefore⟩ := edits_flatMap hz hsplit
        exact ⟨as, bs ++ (x.opening ++ (x.inner.flatMap edits ++ x.closing)),
          by simp only [hbefore, List.append_assoc]⟩
      · obtain ⟨as, bs, hinner⟩ := edits_flatMap hz hsplit
        exact ⟨x.before.flatMap edits ++ (x.opening ++ as), bs ++ x.closing,
          by simp only [hinner, List.append_assoc]⟩

/-- Clauses open their scopes one in the other. -/
theorem opens_clauses (cs : List Clause) :
    Edit.Opens ((cs.map clause).flatMap edits) ((cs.map clause).filterMap opens?) := by
  induction cs with
  | nil => exact Edit.opens_nil
  | cons k cs ih =>
    have hk : Balanced (k.elements.flatMap edits) :=
      .flatMap fun y hy => balanced_edits (isClause_elements hy)
    have hrest := ih.after hk
    cases k with
    | filter cond s => simpa [edits_eq (.clause _), List.filterMap_cons] using hrest
    | loop head s => simpa [edits_eq (.clause _)] using hrest.under .comprehension s
    | letIn bs s => simpa [edits_eq (.clause _)] using hrest.under .letIn s

/-- A comprehension opens a scope as its first loop would as a clause. -/
theorem opens_comprehension (head : LoopHead) (cs : List Clause) (body : Expr) (s : Span) :
    Edit.Opens (expr (.comprehension head cs body s)).edits
      ((.comprehension, s) :: (cs.map clause).filterMap opens?) := by
  have h := (opens_clauses (.loop head s :: cs)).append
    ((expr body).edits ++ (cs.reverse.flatMap Clause.closing ++ [.pop]))
  rw [edits_eq]
  simpa [edits_eq (.clause _), Clause.elements] using h

end Element

namespace Context

/-- There are scopes with these kinds and places, opened in this order and each the child of the one
before. -/
def Nests (c : Context) (l : List (ScopeKind × Span)) : Prop :=
  ∃ ss : List Scope, ss.Sublist c.scopes ∧ ss.map Scope.head = l ∧
    ss.IsChain fun s t => t.parent = some s.id

theorem stack_replay {c : Context} (es : List Edit) (hc : c.stack ≠ []) :
    (c.replay es).stack ≠ [] := by
  induction es generalizing c with
  | nil => exact hc
  | cons e es ih =>
    refine ih ?_
    cases e with
    | push kind span => exact List.cons_ne_nil _ _
    | pop =>
      rw [edit, Context.pop]
      split
      · exact List.cons_ne_nil _ _
      · exact hc
    | assign n v span => exact (Edit.balanced_assign n v span c hc).trans_ne hc
    | declare | defineModule | defineFunction => exact hc

end Context

namespace Program

variable {source : List Char} {t : Tree} {p : Program}

theorem bare_of_tree (h : Program.ofTree source t = .ok p) :
    p.context.bare =
      ((Context.start p.span).replay ((p.items.map Element.item).flatMap Element.edits)).bare := by
  rw [context_of_tree h]
  rfl

/-- The scopes of a program are the root and those that its elements open. -/
theorem scopes_of_elements (h : Program.ofTree source t = .ok p) :
    (p.context.scopes.map Scope.head).Perm
      ((.root, p.span) :: p.elements.filterMap Element.opens?) := by
  have hheads : p.context.scopes.map Scope.head = p.context.bare.map Scope.head := by
    simp [Context.bare, Scope.head, Scope.bare, Function.comp_def]
  rw [hheads, bare_of_tree h, Context.heads_replay]
  refine List.Perm.cons _ ?_
  simp only [elements, List.filterMap_flatMap, List.flatMap_map]
  exact List.Perm.flatMap_left _ fun i _ => Element.opens_edits (.item i)

/-- The scopes of a comprehension and of its clauses are nested one in the other. -/
theorem comprehension_nests (h : Program.ofTree source t = .ok p) {head : LoopHead}
    {cs : List Clause} {body : Expr} {s : Span}
    (he : .expr (.comprehension head cs body s) ∈ p.elements) :
    p.context.Nests ((.comprehension, s) :: (cs.map Element.clause).filterMap Element.opens?) := by
  obtain ⟨i, hi, hmem⟩ := List.mem_flatMap.1 he
  obtain ⟨as, bs, hsplit⟩ :=
    Element.edits_flatMap (List.mem_map_of_mem hi) (Element.edits_of_mem hmem)
  obtain ⟨new, ss, hnew, hsub, hheads, -, hchain⟩ :=
    (Element.opens_comprehension head cs body s).append bs ((Context.start p.span).replay as)
      (Context.stack_replay as (List.cons_ne_nil _ _))
  rw [← Context.replay_append, ← hsplit, ← bare_of_tree h] at hnew
  obtain ⟨scopes, hscopes, rfl⟩ : ∃ scopes : List Scope,
      scopes.Sublist p.context.scopes ∧ ss = scopes.map Scope.bare := by
    refine List.sublist_map_iff.1 ?_
    rw [← Context.bare, hnew]
    exact hsub.trans (List.sublist_append_right _ _)
  refine ⟨scopes, hscopes, ?_, (List.isChain_map _).1 hchain⟩
  rw [← hheads, List.map_map]
  rfl

end Program
end Scad
