import Scad.Proofs.Scope.Openings

/-!
# Scopes are closed on every way out

A step of reading may fail at any depth, inside any number of scopes. However it ends, the scopes
that are open are those that were open before, and the scopes in the table are still what they were
when they were opened. Main statement: `Tree.balanced`, for all readings of all trees.
-/

namespace Scad

open Read

/-! ## Contexts with the same scopes open -/

namespace Context

variable {c d e : Context}

/-- The same scopes are open as before, and those in the table before are still there, each in its
place with its number, parent, kind and span. There may be more scopes behind them, all closed. -/
structure Kept (c d : Context) : Prop where
  stack : d.stack = c.stack
  scopes : c.bare <+: d.bare

theorem Kept.refl (c : Context) : c.Kept c := ⟨rfl, List.prefix_rfl⟩

theorem Kept.trans (h : c.Kept d) (h' : d.Kept e) : c.Kept e :=
  ⟨h'.stack.trans h.stack, h.scopes.trans h'.scopes⟩

theorem kept_replay {es : List Edit} (h : Edit.Balanced es) (hc : c.stack ≠ []) :
    c.Kept (c.replay es) := by
  obtain ⟨new, hnew⟩ := bare_replay (c := c) es
  exact ⟨h c hc, new, hnew.symm⟩

/-- A scope that was opened is closed again. -/
theorem Kept.pop (hc : c.stack ≠ []) {kind : ScopeKind} {span : Span}
    (h : (c.push kind span).Kept d) : c.Kept d.pop := by
  obtain ⟨i, rest, hstack⟩ := List.exists_cons_of_ne_nil hc
  have hopen : d.stack = c.scopes.length :: c.stack := h.stack
  -- there is a scope below the new one, so this is not the root and is closed
  refine ⟨?_, ?_⟩
  · rw [Context.pop, hopen, hstack]
  · rw [bare_pop]
    refine List.IsPrefix.trans ?_ h.scopes
    rw [bare_push]
    exact List.prefix_append _ _

end Context

/-! ## Steps -/

namespace Read

variable {α β : Type}

/-- However the step ends, it leaves the same scopes open. -/
def Balanced (m : Read α) : Prop := ∀ c : Context, c.stack ≠ [] → c.Kept (m.run c).2

theorem balanced_pure (a : α) : Balanced (pure a) := fun c _ => .refl c

theorem balanced_throw (e : Failure) : Balanced (throw e : Read α) := fun c _ => .refl c

theorem Balanced.bind {m : Read α} {k : α → Read β} (hm : Balanced m)
    (hk : ∀ a, Balanced (k a)) : Balanced (m >>= k) := by
  intro c hc
  have h := hm c hc
  rw [run_bind]
  generalize m.run c = r at h ⊢
  match r with
  | (.error _, _) => exact h
  | (.ok a, d) => exact h.trans (hk a d (h.stack.trans_ne hc))

theorem balanced_update {f : Context → Context} (es : List Edit) (hes : Edit.Balanced es)
    (hf : ∀ c, f c = c.replay es) : Balanced (update f) := by
  intro c hc
  show c.Kept (f c)
  rw [hf]
  exact Context.kept_replay hes hc

theorem balanced_assign (name : Name) (value : Expr) (span : Span) :
    Balanced (update fun c => c.assign name value span) :=
  balanced_update [.assign name value span] (Edit.balanced_assign name value span) fun _ => rfl

theorem balanced_defineModule (name : Name) (ps : List Param) (span : Span) :
    Balanced (update fun c => c.defineModule name ps span) :=
  balanced_update [.defineModule name ps span] (fun _ _ => rfl) fun _ => rfl

theorem balanced_defineFunction (name : Name) (ps : List Param) (span : Span) :
    Balanced (update fun c => c.defineFunction name ps span) :=
  balanced_update [.defineFunction name ps span] (fun _ _ => rfl) fun _ => rfl

theorem balanced_declareParams (ps : List Param) :
    Balanced (update fun c => c.declareParams ps) :=
  balanced_update (Param.edits ps) (Edit.balanced_params ps) fun c => (c.replay_params ps).symm

theorem Balanced.inScope {m : Read α} (h : Balanced m) (kind : ScopeKind) (span : Span) :
    Balanced (inScope kind span m) :=
  fun c hc => (h (c.push kind span) (List.cons_ne_nil _ _)).pop hc

theorem Balanced.each {g : α → Read β} {as : List α} (h : ∀ a ∈ as, Balanced (g a)) :
    Balanced (Read.each g as) := by
  induction as with
  | nil => exact balanced_pure []
  | cons a as ih =>
    refine (h a List.mem_cons_self).bind fun b => ?_
    refine (ih fun a' ha => h a' (List.mem_cons_of_mem _ ha)).bind fun bs => ?_
    exact balanced_pure _

end Read

/-! ## Readings -/

/-- Whatever a node is read as, the same scopes are left open. -/
structure Reading.Balanced (r : Reading) : Prop where
  item : Read.Balanced r.item
  items : Read.Balanced r.items
  stmt : Read.Balanced r.stmt
  expr : Read.Balanced r.expr
  tail : Read.Balanced r.tail
  argument : Read.Balanced r.argument
  arguments : Read.Balanced r.arguments
  assignment : Read.Balanced r.assignment
  assignments : Read.Balanced r.assignments
  parameter : Read.Balanced r.parameter
  parameters : Read.Balanced r.parameters

theorem balanced_readName (source : List Char) (label : Label) (region : Region) :
    Balanced (readName source label region) := by
  unfold readName
  split
  · exact balanced_pure _
  · exact balanced_pure _
  · exact balanced_throw _

theorem balanced_moduleBody {body : Reading} (h : body.Balanced) :
    Balanced (Shape.moduleBody body) := by
  unfold Shape.moduleBody
  split
  · exact h.items
  · exact h.item.bind fun _ => balanced_pure _

namespace Shape

variable {n : Shape} {α : Type} {g : Reading → Read α} {self : Read Expr}

theorem balanced_need (r : Role) : Balanced (n.need r) := by
  unfold need
  split
  · exact balanced_pure _
  · exact balanced_throw _

theorem balanced_nameIn (r : Role) : Balanced (n.nameIn r) :=
  (balanced_need r).bind fun _ => balanced_readName _ _ _

theorem balanced_symbolIn (r : Role) : Balanced (n.symbolIn r) :=
  (balanced_need r).bind fun _ => balanced_pure _

theorem balanced_file (link : Link) : Balanced (n.file link) := by
  refine (balanced_symbolIn .path).bind fun symbol => ?_
  dsimp only
  split
  · exact balanced_pure _
  · exact balanced_throw _

section

variable (h : ∀ c ∈ n.children, c.Balanced)

include h

/-- A step on the child in a role, and another one where there is no such child. -/
theorem balanced_at (r : Role) (hg : ∀ c : Reading, c.Balanced → Balanced (g c)) {m : Read α}
    (hm : Balanced m) :
    Balanced (match n.child? r with
      | some c => g c
      | none => m) := by
  split
  · rename_i c hc
    exact hg c (h c (mem_of_child? hc).1)
  · exact hm

theorem balanced_child (r : Role) (hg : ∀ c : Reading, c.Balanced → Balanced (g c)) :
    Balanced (n.need r >>= g) := by
  unfold need
  split
  · rename_i c hc
    exact hg c (h c (mem_of_child? hc).1)
  · exact balanced_throw _

theorem balanced_optional (r : Role) (hg : ∀ c : Reading, c.Balanced → Balanced (g c)) :
    Balanced (n.optional r g) :=
  balanced_at h r (fun c hc => (hg c hc).bind fun _ => balanced_pure _) (balanced_pure _)

theorem balanced_exprIn (r : Role) : Balanced (n.exprIn r) :=
  balanced_child h r fun _ hc => hc.expr

theorem balanced_stmtIn (r : Role) : Balanced (n.stmtIn r) :=
  balanced_child h r fun _ hc => hc.stmt

theorem balanced_assignmentsIn (r : Role) : Balanced (n.assignmentsIn r) :=
  balanced_child h r fun _ hc => hc.assignments

theorem balanced_tailIn (r : Role) : Balanced (n.tailIn r) :=
  balanced_child h r fun _ hc => hc.tail

theorem balanced_args : Balanced n.args :=
  balanced_at h .arguments (fun _ hc => hc.arguments) (balanced_pure _)

theorem balanced_params : Balanced n.params :=
  balanced_at h .parameters (fun _ hc => hc.parameters) (balanced_pure _)

theorem balanced_callTail : Balanced n.callTail :=
  balanced_at h .body (fun _ hc => hc.stmt) (balanced_pure _)

theorem balanced_loopHead : Balanced n.loopHead := by
  refine balanced_at h .bindings (fun _ hc => hc.assignments.bind fun _ => balanced_pure _) ?_
  refine (balanced_assignmentsIn h .init).bind fun _ => ?_
  refine (balanced_exprIn h .condition).bind fun _ => ?_
  exact (balanced_assignmentsIn h .update).bind fun _ => balanced_pure _

/-! ### Arguments, bindings and parameters -/

theorem balanced_asArgument (hself : Balanced self) : Balanced (n.asArgument self) := by
  unfold Shape.asArgument
  split
  · refine (balanced_nameIn .name).bind fun _ => (balanced_exprIn h .value).bind fun _ => ?_
    exact balanced_pure _
  · exact hself.bind fun _ => balanced_pure _

theorem balanced_asArguments : Balanced n.asArguments := by
  unfold Shape.asArguments
  split
  · exact .each fun c hc => (h c hc).argument
  · exact balanced_throw _

theorem balanced_asAssignment : Balanced n.asAssignment := by
  unfold Shape.asAssignment
  split
  · refine (balanced_nameIn .name).bind fun _ => (balanced_exprIn h .value).bind fun _ => ?_
    exact (balanced_assign _ _ _).bind fun _ => balanced_pure _
  · exact balanced_throw _

theorem balanced_asAssignments : Balanced n.asAssignments := by
  unfold Shape.asAssignments
  split
  · exact .each fun c hc => (h c hc).assignment
  · exact balanced_throw _

theorem balanced_asParameter : Balanced n.asParameter := by
  unfold Shape.asParameter
  split
  · refine (balanced_nameIn .name).bind fun _ => ?_
    exact (balanced_optional h .default fun _ hc => hc.expr).bind fun _ => balanced_pure _
  · exact balanced_throw _

theorem balanced_asParameters : Balanced n.asParameters := by
  unfold Shape.asParameters
  split
  · exact .each fun c hc => (h c hc).parameter
  · exact balanced_throw _

/-! ### Expressions -/

theorem balanced_asBinary : Balanced n.asBinary := by
  refine (balanced_symbolIn .operator).bind fun symbol => ?_
  dsimp only
  split
  · exact balanced_throw _
  · refine (balanced_exprIn h .left).bind fun _ => ?_
    exact (balanced_exprIn h .right).bind fun _ => balanced_pure _

theorem balanced_asUnary : Balanced n.asUnary := by
  refine (balanced_symbolIn .operator).bind fun symbol => ?_
  dsimp only
  split
  · exact balanced_throw _
  · exact (balanced_exprIn h .operand).bind fun _ => balanced_pure _

theorem balanced_asGuard {f : List Arg → Option Expr → Expr} :
    Balanced (do
      let args ← n.args
      let body ← n.optional .body Reading.expr
      pure (f args body)) := by
  refine (balanced_args h).bind fun _ => ?_
  exact (balanced_optional h .body fun _ hc => hc.expr).bind fun _ => balanced_pure _

theorem balanced_asExpr : Balanced n.asExpr := by
  unfold Shape.asExpr
  split
  · exact (balanced_readName _ _ _).bind fun _ => balanced_pure _
  · exact (balanced_readName _ _ _).bind fun _ => balanced_pure _
  · unfold asNumber
    split
    · exact balanced_pure _
    · exact balanced_throw _
  · exact balanced_pure _
  · unfold asBoolean
    split
    · exact balanced_pure _
    · exact balanced_pure _
    · exact balanced_throw _
  · exact balanced_pure _
  · exact balanced_asBinary h
  · exact balanced_asUnary h
  · refine (balanced_exprIn h .condition).bind fun _ => ?_
    refine (balanced_exprIn h .consequence).bind fun _ => ?_
    exact (balanced_exprIn h .alternative).bind fun _ => balanced_pure _
  · exact (balanced_exprIn h .expression).bind fun _ => balanced_pure _
  · refine (balanced_exprIn h .function).bind fun _ => ?_
    exact (balanced_args h).bind fun _ => balanced_pure _
  · refine (balanced_exprIn h .value).bind fun _ => ?_
    exact (balanced_exprIn h .index).bind fun _ => balanced_pure _
  · refine (balanced_exprIn h .value).bind fun _ => ?_
    exact (balanced_nameIn .field).bind fun _ => balanced_pure _
  · refine Read.Balanced.inScope ?_ _ _
    refine (balanced_assignmentsIn h .bindings).bind fun _ => ?_
    exact (balanced_exprIn h .body).bind fun _ => balanced_pure _
  · exact balanced_asGuard h
  · exact balanced_asGuard h
  · refine (balanced_params h).bind fun ps => Read.Balanced.inScope ?_ _ _
    refine (balanced_declareParams ps).bind fun _ => ?_
    exact (balanced_exprIn h .body).bind fun _ => balanced_pure _
  · exact (Read.Balanced.each fun c hc => (h c hc).expr).bind fun _ => balanced_pure _
  · refine (balanced_exprIn h .start).bind fun _ => ?_
    refine (balanced_optional h .step fun _ hc => hc.expr).bind fun _ => ?_
    exact (balanced_exprIn h .stop).bind fun _ => balanced_pure _
  · refine Read.Balanced.inScope ?_ _ _
    refine (balanced_loopHead h).bind fun _ => ?_
    exact (balanced_tailIn h .body).bind fun _ => balanced_pure _
  · refine (balanced_exprIn h .condition).bind fun _ => ?_
    refine (balanced_exprIn h .consequence).bind fun _ => ?_
    exact (balanced_optional h .alternative fun _ hc => hc.expr).bind fun _ => balanced_pure _
  · exact (balanced_exprIn h .value).bind fun _ => balanced_pure _
  · exact balanced_throw _

theorem balanced_asTail (hself : Balanced self) : Balanced (n.asTail self) := by
  have hbody : Balanced (do let e ← self; pure (([] : List Clause), e)) :=
    hself.bind fun _ => balanced_pure _
  unfold Shape.asTail
  dsimp only
  split
  · refine Read.Balanced.inScope ?_ _ _
    refine (balanced_loopHead h).bind fun _ => ?_
    exact (balanced_tailIn h .body).bind fun _ => balanced_pure _
  · split
    · exact hbody
    · refine (balanced_exprIn h .condition).bind fun _ => ?_
      exact (balanced_tailIn h .consequence).bind fun _ => balanced_pure _
  · refine Read.Balanced.inScope ?_ _ _
    refine (balanced_assignmentsIn h .bindings).bind fun _ => ?_
    exact (balanced_tailIn h .body).bind fun _ => balanced_pure _
  · exact hbody

/-! ### Statements and items -/

theorem balanced_bound (binder : Binder) (kind : ScopeKind) : Balanced (n.bound binder kind) := by
  refine Read.Balanced.inScope ?_ _ _
  refine (balanced_assignmentsIn h .bindings).bind fun _ => ?_
  exact (balanced_stmtIn h .body).bind fun _ => balanced_pure _

theorem balanced_asModified : Balanced n.asModified := by
  refine (balanced_symbolIn .modifier).bind fun symbol => ?_
  dsimp only
  split
  · exact balanced_throw _
  · exact (balanced_stmtIn h .statement).bind fun _ => balanced_pure _

theorem balanced_asStmt : Balanced n.asStmt := by
  unfold Shape.asStmt
  split
  · refine (balanced_nameIn .name).bind fun _ => (balanced_args h).bind fun _ => ?_
    exact (balanced_callTail h).bind fun _ => balanced_pure _
  · refine Read.Balanced.inScope ?_ _ _
    exact (Read.Balanced.each fun c hc => (h c hc).item).bind fun _ => balanced_pure _
  · exact balanced_pure _
  · exact balanced_asModified h
  · exact balanced_bound h _ _
  · exact balanced_bound h _ _
  · exact balanced_bound h _ _
  · exact balanced_bound h _ _
  · refine (balanced_exprIn h .condition).bind fun _ => ?_
    refine (balanced_stmtIn h .consequence).bind fun _ => ?_
    exact (balanced_optional h .alternative fun _ hc => hc.stmt).bind fun _ => balanced_pure _
  · refine (balanced_args h).bind fun _ => ?_
    exact (balanced_callTail h).bind fun _ => balanced_pure _
  · exact balanced_file _
  · exact balanced_file _
  · exact balanced_throw _

theorem balanced_asModule : Balanced n.asModule := by
  refine (balanced_nameIn .name).bind fun name => (balanced_params h).bind fun ps => ?_
  refine (balanced_defineModule name ps n.span).bind fun _ => ?_
  refine balanced_child h .body fun body hbody => ?_
  refine Read.Balanced.bind (Read.Balanced.inScope ?_ _ _) fun _ => balanced_pure _
  exact (balanced_declareParams ps).bind fun _ => balanced_moduleBody hbody

theorem balanced_asFunction : Balanced n.asFunction := by
  refine (balanced_nameIn .name).bind fun name => (balanced_params h).bind fun ps => ?_
  refine (balanced_defineFunction name ps n.span).bind fun _ => ?_
  refine Read.Balanced.bind (Read.Balanced.inScope ?_ _ _) fun _ => balanced_pure _
  exact (balanced_declareParams ps).bind fun _ => balanced_exprIn h .body

theorem balanced_asItem (hself : Balanced n.asStmt) : Balanced (n.asItem n.asStmt) := by
  unfold Shape.asItem
  split
  · exact balanced_asModule h
  · exact balanced_asFunction h
  · refine (balanced_nameIn .name).bind fun _ => (balanced_exprIn h .value).bind fun _ => ?_
    exact (balanced_assign _ _ _).bind fun _ => balanced_pure _
  · exact hself.bind fun _ => balanced_pure _

theorem balanced_reading (role : Option Role) : (n.reading role).Balanced where
  item := balanced_asItem h (balanced_asStmt h)
  items := .each fun c hc => (h c hc).item
  stmt := balanced_asStmt h
  expr := balanced_asExpr h
  tail := balanced_asTail h (balanced_asExpr h)
  argument := balanced_asArgument h (balanced_asExpr h)
  arguments := balanced_asArguments h
  assignment := balanced_asAssignment h
  assignments := balanced_asAssignments h
  parameter := balanced_asParameter h
  parameters := balanced_asParameters h

end

end Shape

section

variable (source : List Char)

mutual

theorem Tree.balanced : ∀ t : Tree, (t.reading source).Balanced
  | ⟨label, region, role, _, _, children⟩ =>
    Shape.balanced_reading (n := ⟨source, label, region, Tree.readings source children⟩)
      (Tree.balanced_all children) role

theorem Tree.balanced_all : ∀ ts : List Tree, ∀ c ∈ Tree.readings source ts, c.Balanced
  | [] => fun _ hc => absurd hc List.not_mem_nil
  | t :: ts => List.forall_mem_cons.2 ⟨Tree.balanced t, Tree.balanced_all ts⟩

end

end

end Scad
