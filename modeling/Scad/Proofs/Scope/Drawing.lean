import Scad.Proofs.Scope.Sites

/-!
# What each construct draws

For each construct of the language, the outline that is drawn when it is read, in the bytes of its
node. From all of them follows what is known of a program that was parsed: its scopes are those of
its outline, and the outline is laid out in the file.
-/

namespace Scad

open Read Outline

namespace Shape

variable {n : Shape}

section

variable (h : n.Sited)

include h

/-- A scope over the whole node, opened before anything is read. -/
theorem Sited.inner {rs : List Role} {a : Outline} (ha : Fits (n.sites rs) a) (k : ScopeKind) :
    Fits n.region.bytes (.scope k n.span .nil a .nil) :=
  h.scope (fits_nil : Fits (n.sites []) .nil) ha (by simp) k

/-! ## Arguments, bindings and parameters -/

theorem Sited.asArgument {self : Read Expr} (hself : Draws Expr.outline n.region.bytes self) :
    Draws Arg.outline n.region.bytes (n.asArgument self) := by
  intro c a d hg
  unfold Shape.asArgument at hg
  split at hg
  · simp only [gets_bind, gets_pure] at hg
    obtain ⟨_, _, hn, v, e, hv, rfl, rfl⟩ := hg
    obtain rfl := nameIn_same hn
    obtain ⟨h1, h2⟩ := h.exprIn .value _ _ _ hv
    exact ⟨h1, h2.mono (h.sites_subset _)⟩
  · simp only [gets_bind, gets_pure] at hg
    obtain ⟨v, e, hv, rfl, rfl⟩ := hg
    exact hself _ _ _ hv

theorem Sited.asArguments : Draws Arg.outlineAll n.region.bytes n.asArguments := by
  unfold Shape.asArguments
  split
  · exact h.each rfl (fun _ _ => rfl) fun _ hx => hx.argument
  · intro c a d hg
    exact absurd hg gets_throw

theorem Sited.asAssignment : Draws Assignment.outline n.region.bytes n.asAssignment := by
  intro c a d hg
  unfold Shape.asAssignment at hg
  split at hg
  · simp only [gets_bind, gets_update, gets_pure] at hg
    obtain ⟨_, _, hn, v, e, hv, _, _, rfl, rfl, rfl⟩ := hg
    obtain rfl := nameIn_same hn
    obtain ⟨h1, h2⟩ := h.exprIn .value _ _ _ hv
    refine ⟨?_, (h2.mono (h.sites_subset _)).binding _ _⟩
    rw [Context.scoping_assign, h1]
    rfl
  · exact absurd hg gets_throw

theorem Sited.asAssignments : Draws Assignment.outlineAll n.region.bytes n.asAssignments := by
  unfold Shape.asAssignments
  split
  · exact h.each rfl (fun _ _ => rfl) fun _ hx => hx.assignment
  · intro c a d hg
    exact absurd hg gets_throw

theorem Sited.asParameter : Draws Param.outline n.region.bytes n.asParameter := by
  intro c a d hg
  unfold Shape.asParameter at hg
  split at hg
  · simp only [gets_bind, gets_pure] at hg
    obtain ⟨_, _, hn, v, e, hv, rfl, rfl⟩ := hg
    obtain rfl := nameIn_same hn
    obtain ⟨h1, h2⟩ := h.optionalExpr .default _ _ _ hv
    exact ⟨h1, (h2.mono (h.sites_subset _)).param _⟩
  · exact absurd hg gets_throw

theorem Sited.asParameters : Draws Param.outlineAll n.region.bytes n.asParameters := by
  unfold Shape.asParameters
  split
  · exact h.each rfl (fun _ _ => rfl) fun _ hx => hx.parameter
  · intro c a d hg
    exact absurd hg gets_throw

/-! ## Expressions -/

omit h in
/-- A literal has no outline but itself. -/
theorem draws_literal (v : Literal) : Draws Expr.outline n.region.bytes (n.literal v) := by
  intro c a d hg
  obtain ⟨rfl, rfl⟩ := gets_pure.1 hg
  exact ⟨rfl, fits_nil.part _⟩

theorem Sited.asName (hl : n.label = .form .identifier) :
    Draws Expr.outline n.region.bytes
      (do let name ← readName n.source n.label n.region; pure (.ident name)) := by
  intro c a d hg
  rw [hl] at hg
  simp only [readName, gets_bind, gets_pure] at hg
  obtain ⟨_, _, ⟨rfl, rfl⟩, rfl, rfl⟩ := hg
  exact ⟨rfl, Fits.part (@fits_name ⟨_, n.span.withText n.source⟩ (h.name hl)) _⟩

/-- An expression over one child. -/
theorem Sited.one (r : Role) {mk : Expr → Expr}
    (hmk : ∀ a, (mk a).outline = .part (.expr (mk a)) a.outline .nil) :
    Draws Expr.outline n.region.bytes (do let a ← n.exprIn r; pure (mk a)) := by
  intro c e d hg
  simp only [gets_bind, gets_pure] at hg
  obtain ⟨a, e1, ha, rfl, rfl⟩ := hg
  obtain ⟨h1, f1⟩ := h.exprIn r _ _ _ ha
  rw [hmk]
  exact ⟨h1, h.part f1 _⟩

/-- An expression over two children. -/
theorem Sited.two {r r' : Role} (hr : r ≠ r') {mk : Expr → Expr → Expr}
    (hmk : ∀ a b, (mk a b).outline = .part (.expr (mk a b)) (a.outline ++ b.outline) .nil) :
    Draws Expr.outline n.region.bytes
      (do let a ← n.exprIn r; let b ← n.exprIn r'; pure (mk a b)) := by
  intro c e d hg
  simp only [gets_bind, gets_pure] at hg
  obtain ⟨a, e1, ha, b, e2, hb, rfl, rfl⟩ := hg
  obtain ⟨h1, f1⟩ := h.exprIn r _ _ _ ha
  obtain ⟨h2, f2⟩ := h.exprIn r' _ _ _ hb
  rw [hmk]
  refine ⟨?_, h.part (h.join f1 f2 (by simpa using hr)) _⟩
  simp [enter, h1, h2]

theorem Sited.asBinary : Draws Expr.outline n.region.bytes n.asBinary := by
  intro c e d hg
  obtain ⟨⟨symbol, place⟩, e1, hx, hrest⟩ := gets_bind.1 hg
  obtain rfl := symbolIn_same hx
  dsimp only at hrest
  split at hrest
  · exact absurd hrest gets_throw
  · exact h.two (by decide) (fun _ _ => rfl) _ _ _ hrest

theorem Sited.asUnary : Draws Expr.outline n.region.bytes n.asUnary := by
  intro c e d hg
  obtain ⟨⟨symbol, place⟩, e1, hx, hrest⟩ := gets_bind.1 hg
  obtain rfl := symbolIn_same hx
  dsimp only at hrest
  split at hrest
  · exact absurd hrest gets_throw
  · exact h.one .operand (fun _ => rfl) _ _ _ hrest

theorem Sited.asGuard (g : Guard) :
    Draws Expr.outline n.region.bytes
      (do
        let args ← n.args
        let body ← n.optional .body Reading.expr
        pure (.guarded g args body n.span)) := by
  intro c e d hg
  simp only [gets_bind, gets_pure] at hg
  obtain ⟨as, e1, has, b, e2, hb, rfl, rfl⟩ := hg
  obtain ⟨h1, f1⟩ := h.args _ _ _ has
  obtain ⟨h2, f2⟩ := h.optionalExpr .body _ _ _ hb
  refine ⟨?_, h.part (h.join f1 f2 (by decide)) _⟩
  simp [Expr.outline, enter, h1, h2]

theorem Sited.exprs : Draws Expr.outlineAll n.region.bytes (Read.each Reading.expr n.children) :=
  h.each rfl (fun _ _ => rfl) fun _ hx => hx.expr

/-- The head of a loop is drawn from its bindings, or from its start, condition and step. -/
theorem Sited.loopHead :
    Draws LoopHead.outline (n.sites [.bindings, .init, .condition, .update]) n.loopHead := by
  intro c a d hg
  unfold Shape.loopHead at hg
  split at hg
  · rename_i x hx
    simp only [gets_bind, gets_pure] at hg
    obtain ⟨bs, e, hbs, rfl, rfl⟩ := hg
    obtain ⟨h1, f1⟩ := (h.children x (mem_of_child? hx).1).assignments _ _ _ hbs
    refine ⟨h1, (f1.mono (bytes_subset_sites hx)).mono ?_⟩
    rw [show n.sites [.bindings, .init, .condition, .update] = _ from
      sites_append [.bindings] [.init, .condition, .update]]
    exact Set.subset_union_left
  · simp only [gets_bind, gets_pure] at hg
    obtain ⟨is, e1, his, b, e2, hb, us, e3, hus, rfl, rfl⟩ := hg
    obtain ⟨h1, f1⟩ := h.assignmentsIn .init _ _ _ his
    obtain ⟨h2, f2⟩ := h.exprIn .condition _ _ _ hb
    obtain ⟨h3, f3⟩ := h.assignmentsIn .update _ _ _ hus
    refine ⟨by simp [LoopHead.outline, h1, h2, h3], ?_⟩
    refine (h.join f1 (h.join f2 f3 (by decide)) (by decide)).mono ?_
    rw [show n.sites [.bindings, .init, .condition, .update] = _ from
      sites_append [.bindings] [.init, .condition, .update]]
    exact Set.subset_union_right

theorem Sited.asExpr : Draws Expr.outline n.region.bytes n.asExpr := by
  intro c e d hg
  unfold Shape.asExpr at hg
  split at hg
  · rename_i hl
    exact h.asName hl _ _ _ hg
  · simp only [gets_bind, gets_pure] at hg
    obtain ⟨_, _, hn, rfl, rfl⟩ := hg
    obtain rfl := readName_same hn
    exact ⟨rfl, fits_nil.part _⟩
  · unfold asNumber at hg
    split at hg
    · exact draws_literal _ _ _ _ hg
    · exact absurd hg gets_throw
  · exact draws_literal _ _ _ _ hg
  · unfold asBoolean at hg
    split at hg
    · exact draws_literal _ _ _ _ hg
    · exact draws_literal _ _ _ _ hg
    · exact absurd hg gets_throw
  · exact draws_literal _ _ _ _ hg
  · exact h.asBinary _ _ _ hg
  · exact h.asUnary _ _ _ hg
  · simp only [gets_bind, gets_pure] at hg
    obtain ⟨x, e1, hx, a, e2, ha, b, e3, hb, rfl, rfl⟩ := hg
    obtain ⟨h1, f1⟩ := h.exprIn .condition _ _ _ hx
    obtain ⟨h2, f2⟩ := h.exprIn .consequence _ _ _ ha
    obtain ⟨h3, f3⟩ := h.exprIn .alternative _ _ _ hb
    refine ⟨?_, h.part (h.join f1 (h.join f2 f3 (by decide)) (by decide)) _⟩
    simp [Expr.outline, enter, h1, h2, h3]
  · exact h.one .expression (fun _ => rfl) _ _ _ hg
  · simp only [gets_bind, gets_pure] at hg
    obtain ⟨f, e1, hf, as, e2, has, rfl, rfl⟩ := hg
    obtain ⟨h1, f1⟩ := h.exprIn .function _ _ _ hf
    obtain ⟨h2, f2⟩ := h.args _ _ _ has
    refine ⟨?_, h.part (h.join f1 f2 (by decide)) _⟩
    simp [Expr.outline, enter, h1, h2]
  · exact h.two (by decide) (fun _ _ => rfl) _ _ _ hg
  · simp only [gets_bind, gets_pure] at hg
    obtain ⟨a, e1, ha, _, _, hn, rfl, rfl⟩ := hg
    obtain rfl := nameIn_same hn
    obtain ⟨h1, f1⟩ := h.exprIn .value _ _ _ ha
    exact ⟨h1, h.part f1 _⟩
  · simp only [gets_inScope, gets_bind, gets_pure] at hg
    obtain ⟨_, ⟨bs, e1, hbs, a, e2, ha, rfl, rfl⟩, rfl⟩ := hg
    obtain ⟨h1, f1⟩ := h.assignmentsIn .bindings _ _ _ hbs
    obtain ⟨h2, f2⟩ := h.exprIn .body _ _ _ ha
    refine ⟨?_, (h.inner (h.join f1 f2 (by decide)) _).part _⟩
    simp [Expr.outline, enter, h1, h2]
  · exact h.asGuard .assert _ _ _ hg
  · exact h.asGuard .echo _ _ _ hg
  · simp only [gets_inScope, gets_bind, gets_update, gets_pure] at hg
    obtain ⟨ps, e1, hps, _, ⟨_, _, rfl, a, e2, ha, rfl, rfl⟩, rfl⟩ := hg
    obtain ⟨h1, f1⟩ := h.params _ _ _ hps
    obtain ⟨h2, f2⟩ := h.exprIn .body _ _ _ ha
    refine ⟨?_, (h.scope f1 f2 (by decide) _).part _⟩
    simp [Expr.outline, enter, h1, h2]
  · simp only [gets_bind, gets_pure] at hg
    obtain ⟨es, e1, hes, rfl, rfl⟩ := hg
    obtain ⟨h1, f1⟩ := h.exprs _ _ _ hes
    exact ⟨h1, f1.part _⟩
  · simp only [gets_bind, gets_pure] at hg
    obtain ⟨a, e1, ha, b, e2, hb, x, e3, hx, rfl, rfl⟩ := hg
    obtain ⟨h1, f1⟩ := h.exprIn .start _ _ _ ha
    obtain ⟨h2, f2⟩ := h.optionalExpr .step _ _ _ hb
    obtain ⟨h3, f3⟩ := h.exprIn .stop _ _ _ hx
    refine ⟨?_, h.part (h.join f1 (h.join f2 f3 (by decide)) (by decide)) _⟩
    simp [Expr.outline, enter, h1, h2, h3]
  · simp only [gets_inScope, gets_bind, gets_pure] at hg
    obtain ⟨_, ⟨x, e1, hx, t, e2, ht, rfl, rfl⟩, rfl⟩ := hg
    obtain ⟨h1, f1⟩ := h.loopHead _ _ _ hx
    obtain ⟨h2, f2⟩ := h.tailIn .body _ _ _ ht
    refine ⟨?_, (h.inner (h.join f1 f2 (by decide)) _).part _⟩
    simp [Expr.outline, enter, h1, h2, tailOutline]
  · simp only [gets_bind, gets_pure] at hg
    obtain ⟨x, e1, hx, a, e2, ha, b, e3, hb, rfl, rfl⟩ := hg
    obtain ⟨h1, f1⟩ := h.exprIn .condition _ _ _ hx
    obtain ⟨h2, f2⟩ := h.exprIn .consequence _ _ _ ha
    obtain ⟨h3, f3⟩ := h.optionalExpr .alternative _ _ _ hb
    refine ⟨?_, h.part (h.join f1 (h.join f2 f3 (by decide)) (by decide)) _⟩
    simp [Expr.outline, enter, h1, h2, h3]
  · exact h.one .value (fun _ => rfl) _ _ _ hg
  · exact absurd hg gets_throw

omit h in
/-- A node that is no clause is the body of the comprehension. -/
theorem draws_body {B : Set Nat} {self : Read Expr} (hself : Draws Expr.outline B self) :
    Draws tailOutline B (do let e ← self; pure ([], e)) := by
  intro c t d hg
  simp only [gets_bind, gets_pure] at hg
  obtain ⟨e, e1, he, rfl, rfl⟩ := hg
  exact hself _ _ _ he

theorem Sited.asTail {self : Read Expr} (hself : Draws Expr.outline n.region.bytes self) :
    Draws tailOutline n.region.bytes (n.asTail self) := by
  intro c t d hg
  unfold Shape.asTail at hg
  dsimp only at hg
  split at hg
  · simp only [gets_inScope, gets_bind, gets_pure] at hg
    obtain ⟨_, ⟨x, e1, hx, t, e2, ht, rfl, rfl⟩, rfl⟩ := hg
    obtain ⟨h1, f1⟩ := h.loopHead _ _ _ hx
    obtain ⟨h2, f2⟩ := h.tailIn .body _ _ _ ht
    refine ⟨?_, h.inner (h.join f1 f2 (by decide)) _⟩
    simp [tailOutline, Clause.outlineAll, Clause.outline, enter, h1, h2]
  · split at hg
    · exact draws_body hself _ _ _ hg
    · simp only [gets_bind, gets_pure] at hg
      obtain ⟨x, e1, hx, t, e2, ht, rfl, rfl⟩ := hg
      obtain ⟨h1, f1⟩ := h.exprIn .condition _ _ _ hx
      obtain ⟨h2, f2⟩ := h.tailIn .consequence _ _ _ ht
      refine ⟨?_, (h.join f1 f2 (by decide)).mono (h.sites_subset _)⟩
      simp [tailOutline, Clause.outlineAll, Clause.outline, h1, h2]
  · simp only [gets_inScope, gets_bind, gets_pure] at hg
    obtain ⟨_, ⟨bs, e1, hbs, t, e2, ht, rfl, rfl⟩, rfl⟩ := hg
    obtain ⟨h1, f1⟩ := h.assignmentsIn .bindings _ _ _ hbs
    obtain ⟨h2, f2⟩ := h.tailIn .body _ _ _ ht
    refine ⟨?_, h.inner (h.join f1 f2 (by decide)) _⟩
    simp [tailOutline, Clause.outlineAll, Clause.outline, enter, h1, h2]
  · exact draws_body hself _ _ _ hg

/-! ## Statements -/

theorem Sited.callTail : Draws Stmt.outline (n.sites [.body]) n.callTail := by
  unfold Shape.callTail
  split
  · rename_i x hx
    exact (h.children x (mem_of_child? hx).1).stmt.mono (bytes_subset_sites hx)
  · intro c s d hg
    obtain ⟨rfl, rfl⟩ := gets_pure.1 hg
    exact ⟨rfl, fits_nil.part _⟩

theorem Sited.bound (k : Binder) : Draws Stmt.outline n.region.bytes (n.bound k k.scopeKind) := by
  intro c s d hg
  simp only [Shape.bound, gets_inScope, gets_bind, gets_pure] at hg
  obtain ⟨_, ⟨bs, e1, hbs, t, e2, ht, rfl, rfl⟩, rfl⟩ := hg
  obtain ⟨h1, f1⟩ := h.assignmentsIn .bindings _ _ _ hbs
  obtain ⟨h2, f2⟩ := h.stmtIn .body _ _ _ ht
  refine ⟨?_, (h.inner (h.join f1 f2 (by decide)) _).part _⟩
  simp [Stmt.outline, enter, h1, h2]

omit h in
theorem draws_file (k : Link) : Draws Stmt.outline n.region.bytes (n.file k) := by
  intro c s d hg
  obtain ⟨⟨text, place⟩, e1, hx, hrest⟩ := gets_bind.1 hg
  obtain rfl := symbolIn_same hx
  dsimp only at hrest
  split at hrest
  · obtain ⟨rfl, rfl⟩ := gets_pure.1 hrest
    exact ⟨rfl, fits_nil.part _⟩
  · exact absurd hrest gets_throw

theorem Sited.asModified : Draws Stmt.outline n.region.bytes n.asModified := by
  intro c s d hg
  obtain ⟨⟨symbol, place⟩, e1, hx, hrest⟩ := gets_bind.1 hg
  obtain rfl := symbolIn_same hx
  dsimp only at hrest
  split at hrest
  · exact absurd hrest gets_throw
  · simp only [gets_bind, gets_pure] at hrest
    obtain ⟨t, e2, ht, rfl, rfl⟩ := hrest
    obtain ⟨h1, f1⟩ := h.stmtIn .statement _ _ _ ht
    exact ⟨h1, h.part f1 _⟩

theorem Sited.items : Draws Item.outlineAll n.region.bytes (Read.each Reading.item n.children) :=
  h.each rfl (fun _ _ => rfl) fun _ hx => hx.item

theorem Sited.asStmt : Draws Stmt.outline n.region.bytes n.asStmt := by
  intro c s d hg
  unfold Shape.asStmt at hg
  split at hg
  · simp only [gets_bind, gets_pure] at hg
    obtain ⟨_, _, hn, as, e1, has, t, e2, ht, rfl, rfl⟩ := hg
    obtain rfl := nameIn_same hn
    obtain ⟨h1, f1⟩ := h.args _ _ _ has
    obtain ⟨h2, f2⟩ := h.callTail _ _ _ ht
    refine ⟨?_, h.part (h.join f1 f2 (by decide)) _⟩
    simp [Stmt.outline, enter, h1, h2]
  · simp only [gets_inScope, gets_bind, gets_pure] at hg
    obtain ⟨_, ⟨is, e1, his, rfl, rfl⟩, rfl⟩ := hg
    obtain ⟨h1, f1⟩ := h.items _ _ _ his
    refine ⟨?_, Fits.part (Fits.scope (s := n.span) (fits_nil (B := ∅)) f1 ?_ ?_ ?_ _) _⟩
    · simp [Stmt.outline, enter, h1]
    · exact Set.empty_disjoint _
    · exact Set.empty_subset _
    · exact Set.Subset.rfl
  · obtain ⟨rfl, rfl⟩ := gets_pure.1 hg
    exact ⟨rfl, fits_nil.part _⟩
  · exact h.asModified _ _ _ hg
  · exact h.bound .loop _ _ _ hg
  · exact h.bound .intersectionLoop _ _ _ hg
  · exact h.bound .letIn _ _ _ hg
  · exact h.bound .assign _ _ _ hg
  · simp only [gets_bind, gets_pure] at hg
    obtain ⟨x, e1, hx, a, e2, ha, b, e3, hb, rfl, rfl⟩ := hg
    obtain ⟨h1, f1⟩ := h.exprIn .condition _ _ _ hx
    obtain ⟨h2, f2⟩ := h.stmtIn .consequence _ _ _ ha
    obtain ⟨h3, f3⟩ := h.optionalStmt .alternative _ _ _ hb
    refine ⟨?_, h.part (h.join f1 (h.join f2 f3 (by decide)) (by decide)) _⟩
    simp [Stmt.outline, enter, h1, h2, h3]
  · simp only [gets_bind, gets_pure] at hg
    obtain ⟨as, e1, has, t, e2, ht, rfl, rfl⟩ := hg
    obtain ⟨h1, f1⟩ := h.args _ _ _ has
    obtain ⟨h2, f2⟩ := h.callTail _ _ _ ht
    refine ⟨?_, h.part (h.join f1 f2 (by decide)) _⟩
    simp [Stmt.outline, enter, h1, h2]
  · exact draws_file _ _ _ _ hg
  · exact draws_file _ _ _ _ hg
  · exact absurd hg gets_throw

/-! ## Items -/

omit h in
/-- The body of a module has no scope of its own, be it a block or not. -/
theorem draws_moduleBody {x : Reading} (hx : x.Sited) :
    Draws Item.outlineAll x.region.bytes (moduleBody x) := by
  unfold moduleBody
  split
  · exact hx.items
  · intro c is d hg
    simp only [gets_bind, gets_pure] at hg
    obtain ⟨i, e, hi, rfl, rfl⟩ := hg
    obtain ⟨h1, f1⟩ := hx.item _ _ _ hi
    simp only [Item.outlineAll, append_nil]
    exact ⟨h1, f1⟩

theorem Sited.asModule : Draws Item.outline n.region.bytes n.asModule := by
  intro c i d hg
  simp only [Shape.asModule, gets_bind, gets_update, gets_need, gets_inScope, gets_pure] at hg
  obtain ⟨_, _, hn, ps, e1, hps, _, _, rfl, x, _, ⟨hx, rfl⟩, is, _, ⟨e2, ⟨_, _, rfl, his⟩, rfl⟩, rfl,
    rfl⟩ := hg
  obtain rfl := nameIn_same hn
  obtain ⟨h1, f1⟩ := h.params _ _ _ hps
  obtain ⟨h2, f2⟩ := draws_moduleBody (h.children x (mem_of_child? hx).1) _ _ _ his
  refine ⟨?_, (h.scope f1 (f2.mono (bytes_subset_sites hx)) (by decide) _).part _⟩
  simp [Item.outline, enter, h1, h2]

theorem Sited.asFunction : Draws Item.outline n.region.bytes n.asFunction := by
  intro c i d hg
  simp only [Shape.asFunction, gets_bind, gets_update, gets_inScope, gets_pure] at hg
  obtain ⟨_, _, hn, ps, e1, hps, _, _, rfl, a, _, ⟨e2, ⟨_, _, rfl, ha⟩, rfl⟩, rfl, rfl⟩ := hg
  obtain rfl := nameIn_same hn
  obtain ⟨h1, f1⟩ := h.params _ _ _ hps
  obtain ⟨h2, f2⟩ := h.exprIn .body _ _ _ ha
  refine ⟨?_, (h.scope f1 f2 (by decide) _).part _⟩
  simp [Item.outline, enter, h1, h2]

theorem Sited.asItem {self : Read Stmt} (hself : Draws Stmt.outline n.region.bytes self) :
    Draws Item.outline n.region.bytes (n.asItem self) := by
  intro c i d hg
  unfold Shape.asItem at hg
  split at hg
  · exact h.asModule _ _ _ hg
  · exact h.asFunction _ _ _ hg
  · simp only [gets_bind, gets_update, gets_pure] at hg
    obtain ⟨_, _, hn, v, e, hv, _, _, rfl, rfl, rfl⟩ := hg
    obtain rfl := nameIn_same hn
    obtain ⟨h1, f1⟩ := h.exprIn .value _ _ _ hv
    refine ⟨?_, (Fits.binding (f1.mono (h.sites_subset _)) _ _).part _⟩
    simp [Item.outline, enter, h1]
  · simp only [gets_bind, gets_pure] at hg
    obtain ⟨t, e, ht, rfl, rfl⟩ := hg
    obtain ⟨h1, f1⟩ := hself _ _ _ ht
    exact ⟨h1, f1.part _⟩

/-- Where the children of a node draw outlines in their bytes, so does the node. -/
theorem Sited.reading (role : Option Role) : (n.reading role).Sited where
  item := h.asItem h.asStmt
  items := h.items
  stmt := h.asStmt
  expr := h.asExpr
  tail := h.asTail h.asExpr
  argument := h.asArgument h.asExpr
  arguments := h.asArguments
  assignment := h.asAssignment
  assignments := h.asAssignments
  parameter := h.asParameter
  parameters := h.asParameters

end
end Shape

/-! ## Nodes and programs -/

theorem Node.bytes_reading (source : List Char) (n : Node) :
    (n.reading source).region.bytes = n.bytes := by
  obtain ⟨_, r, _, _, _⟩ := n
  exact r.bytes_forward

/-- A nested node draws outlines in its bytes. -/
theorem Node.Nested.sited {n : Node} (h : n.Nested) (source : List Char) :
    (n.reading source).Sited := by
  induction h with
  | @mk n name inside apart inner ih =>
    obtain ⟨kind, region, role, missing, children⟩ := n
    have hforward : region.forward.bytes = region.bytes := region.bytes_forward
    have hreading : ∀ c : Node, (c.reading source).region.bytes = c.bytes := fun c =>
      c.bytes_reading source
    refine Shape.Sited.reading (n := ⟨source, .ofKind kind, region.forward, _⟩) ?_ role
    rw [Node.readings_eq]
    refine ⟨fun hl => ?_, fun c hc => ?_, ?_, fun c hc => ?_⟩
    · exact Nat.lt_of_lt_of_le (name hl) (Nat.le_max_left _ _)
    · obtain ⟨m, hm, rfl⟩ := List.mem_map.1 hc
      rw [hreading]
      exact (inside m hm).trans hforward.symm.subset
    · rw [List.pairwise_map]
      simpa only [hreading] using apart
    · obtain ⟨m, hm, rfl⟩ := List.mem_map.1 hc
      exact ih m hm

/-- The scopes of a program that was parsed are those of its outline, and the outline is laid out in
the file. -/
theorem Program.outline_of_parse {source : List Char} {p : Program}
    (h : Program.parse source = .ok p) :
    (Item.outlineAll p.items).Fits p.span.bytes ∧
      p.context.scopes = ((Item.outlineAll p.items).enter (.start p.span)).scopes := by
  obtain ⟨nodes, fs, t, hparse, htree⟩ := SyntaxTree.ofSource_eq source
  obtain rfl : fs = [] := by
    have hfaults := faultless_of_parse h
    rwa [htree] at hfaults
  obtain ⟨-, items, context, hrun, hp⟩ := parse_of_items hparse
  obtain rfl := Except.ok.inj (h.symm.trans hp)
  have hlaid := Grammar.items_laid hparse
  have hbytes := Node.bytes_reading source
  have hdraws : Draws Item.outlineAll {x | ∃ c ∈ nodes.map (Node.reading source), x ∈ c.region.bytes}
      (Read.each Reading.item (nodes.map (Node.reading source))) := by
    refine Shape.draws_each rfl (fun _ _ => rfl) ?_ fun x hx => ?_
    · rw [List.pairwise_map]
      simpa only [hbytes] using hlaid.apart
    · obtain ⟨c, hc, rfl⟩ := List.mem_map.1 hx
      exact ((hlaid.nested c hc).sited source).item
  obtain ⟨hscoping, hfits⟩ := hdraws _ _ _ hrun
  have hscopes : context.scoping.scopes = _ := congrArg Context.scopes hscoping
  refine ⟨hfits.mono ?_, hscopes⟩
  rintro x ⟨r, hr, hx⟩
  obtain ⟨c, hc, rfl⟩ := List.mem_map.1 hr
  rw [hbytes] at hx
  show x ∈ (Region.forward ⟨{}, (tokenize source).stop⟩).bytes
  rw [Region.bytes_forward]
  exact hlaid.within c hc hx

end Scad
