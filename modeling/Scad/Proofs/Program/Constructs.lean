import Scad.Proofs.Program.Origin

/-!
# What each construct tells

For each construct of the language, the edits that are made when it is read, and the bytes in which
its elements stand. From all of them follows what is known of every program: its context is the
replay of its edits.
-/

namespace Scad

open Read Element

namespace Shape

variable {n : Shape} {placed : Prop}

section

variable (h : n.Told placed)

include h

/-! ## Arguments, bindings and parameters -/

theorem Told.asArgument {self : Read Expr}
    (hself : Makes n.source placed n.region.bytes (fun e => [.expr e]) self) :
    Makes n.source placed n.region.bytes (fun a => [.arg a]) (n.asArgument self) := by
  intro c a d hg
  unfold Shape.asArgument at hg
  split at hg
  · rename_i hl
    simp only [gets_bind, gets_pure] at hg
    obtain ⟨x, e1, hx, v, e2, hv, rfl, rfl⟩ := hg
    obtain ⟨rfl, f1⟩ := h.nameIn .name _ _ _ hx
    obtain ⟨rfl, f2⟩ := h.exprIn .value _ _ _ hv
    exact ⟨by simp [replay_edits], h.two hl rfl f1 f2 (by decide) rfl rfl rfl trivial⟩
  · simp only [gets_bind, gets_pure] at hg
    obtain ⟨v, e, hv, rfl, rfl⟩ := hg
    obtain ⟨rfl, f1⟩ := hself _ _ _ hv
    refine ⟨?_, fun hp => (f1 hp).wrap rfl trivial rfl rfl⟩
    simp [replay_edits]

theorem Told.asArguments : Makes n.source placed n.region.bytes (·.map .arg) n.asArguments := by
  unfold Shape.asArguments
  split
  · exact h.each fun _ hx => hx.argument
  · exact tells_throw

theorem Told.asAssignment :
    Makes n.source placed n.region.bytes (fun b => [.assignment b]) n.asAssignment := by
  intro c a d hg
  unfold Shape.asAssignment at hg
  split at hg
  · rename_i hl
    simp only [gets_bind, gets_update, gets_pure] at hg
    obtain ⟨x, e1, hx, v, e2, hv, _, _, rfl, rfl, rfl⟩ := hg
    obtain ⟨rfl, f1⟩ := h.nameIn .name _ _ _ hx
    obtain ⟨rfl, f2⟩ := h.exprIn .value _ _ _ hv
    exact ⟨by simp [replay_edits], h.two hl rfl f1 f2 (by decide) rfl rfl rfl trivial⟩
  · exact absurd hg gets_throw

theorem Told.asAssignments :
    Makes n.source placed n.region.bytes (·.map .assignment) n.asAssignments := by
  unfold Shape.asAssignments
  split
  · exact h.each fun _ hx => hx.assignment
  · exact tells_throw

theorem Told.asParameter :
    Makes n.source placed n.region.bytes (fun p => [.param p]) n.asParameter := by
  intro c a d hg
  unfold Shape.asParameter at hg
  split at hg
  · rename_i hl
    simp only [gets_bind, gets_pure] at hg
    obtain ⟨x, e1, hx, v, e2, hv, rfl, rfl⟩ := hg
    obtain ⟨rfl, f1⟩ := h.nameIn .name _ _ _ hx
    obtain ⟨rfl, f2⟩ := h.optional .default (fun _ hx => hx.expr) _ _ _ hv
    exact ⟨by simp [replay_edits], h.two hl rfl f1 f2 (by decide) rfl rfl rfl trivial⟩
  · exact absurd hg gets_throw

theorem Told.asParameters : Makes n.source placed n.region.bytes (·.map .param) n.asParameters := by
  unfold Shape.asParameters
  split
  · exact h.each fun _ hx => hx.parameter
  · exact tells_throw

/-! ## Expressions -/

theorem Told.literal {f : Form} (hl : n.label = .form f) (hf : f.isRow = false) (v : Literal) :
    Makes n.source placed n.region.bytes (fun e => [.expr e]) (n.literal v) := by
  intro c e d hg
  obtain ⟨rfl, rfl⟩ := gets_pure.1 hg
  refine ⟨by simp [replay_edits], fun hp => ?_⟩
  obtain ⟨cs, hcs⟩ := (h.stands hp).self.marked.slice
  exact (h.stands hp).leaf hl hf rfl rfl rfl ⟨cs, hcs, withText_of_marked hcs⟩

theorem Told.asBinary (hl : n.label = .form .binaryExpression) :
    Makes n.source placed n.region.bytes (fun e => [.expr e]) n.asBinary := by
  intro c e d hg
  obtain ⟨⟨symbol, place⟩, e1, hx, hrest⟩ := gets_bind.1 hg
  obtain rfl := symbolIn_same hx
  dsimp only at hrest
  split at hrest
  · exact absurd hrest gets_throw
  · simp only [gets_bind, gets_pure] at hrest
    obtain ⟨a, e2, ha, b, e3, hb, rfl, rfl⟩ := hrest
    obtain ⟨rfl, f1⟩ := h.exprIn .left _ _ _ ha
    obtain ⟨rfl, f2⟩ := h.exprIn .right _ _ _ hb
    exact ⟨by simp [replay_edits], h.two hl rfl f1 f2 (by decide) rfl rfl rfl trivial⟩

theorem Told.asUnary (hl : n.label = .form .unaryExpression) :
    Makes n.source placed n.region.bytes (fun e => [.expr e]) n.asUnary := by
  intro c e d hg
  obtain ⟨⟨symbol, place⟩, e1, hx, hrest⟩ := gets_bind.1 hg
  obtain rfl := symbolIn_same hx
  dsimp only at hrest
  split at hrest
  · exact absurd hrest gets_throw
  · simp only [gets_bind, gets_pure] at hrest
    obtain ⟨a, e2, ha, rfl, rfl⟩ := hrest
    obtain ⟨rfl, f1⟩ := h.exprIn .operand _ _ _ ha
    exact ⟨by simp [replay_edits], h.one hl rfl f1 rfl rfl rfl trivial⟩

theorem Told.asGuard {f : Form} (hl : n.label = .form f) (hf : f.isRow = false) (g : Guard) :
    Makes n.source placed n.region.bytes (fun e => [.expr e])
      (do
        let args ← n.args
        let body ← n.optional .body Reading.expr
        pure (.guarded g args body n.span)) := by
  intro c e d hg
  simp only [gets_bind, gets_pure] at hg
  obtain ⟨as, e1, has, b, e2, hb, rfl, rfl⟩ := hg
  obtain ⟨rfl, f1⟩ := h.args _ _ _ has
  obtain ⟨rfl, f2⟩ := h.optional .body (fun _ hx => hx.expr) _ _ _ hb
  exact ⟨by simp [replay_edits], h.two hl hf f1 f2 (by decide) rfl rfl rfl trivial⟩

/-- The head of a loop is read from its bindings, or from its start, condition and step. -/
theorem Told.loopHead :
    Makes n.source placed (n.sites [.bindings, .init, .condition, .update]) LoopHead.elements
      n.loopHead := by
  have hsites : n.sites [.bindings, .init, .condition, .update] =
      n.sites [.bindings] ∪ n.sites [.init, .condition, .update] :=
    sites_append [.bindings] [.init, .condition, .update]
  intro c a d hg
  unfold Shape.loopHead at hg
  rw [hsites]
  split at hg
  · rename_i x hx
    simp only [gets_bind, gets_pure] at hg
    obtain ⟨bs, e, hbs, rfl, rfl⟩ := hg
    obtain ⟨rfl, f1⟩ := (h.children x (mem_of_child? hx).1).assignments _ _ _ hbs
    exact ⟨rfl, fun hp => (f1 hp).mono ((bytes_subset_sites hx).trans Set.subset_union_left)⟩
  · simp only [gets_bind, gets_pure] at hg
    obtain ⟨is, e1, his, b, e2, hb, us, e3, hus, rfl, rfl⟩ := hg
    obtain ⟨rfl, f1⟩ := h.assignmentsIn .init _ _ _ his
    obtain ⟨rfl, f2⟩ := h.exprIn .condition _ _ _ hb
    obtain ⟨rfl, f3⟩ := h.assignmentsIn .update _ _ _ hus
    refine ⟨by simp [LoopHead.elements], fun hp => ?_⟩
    have hfits := (h.stands hp).join (f1 hp) ((h.stands hp).join (f2 hp) (f3 hp) (by decide))
      (by decide)
    exact hfits.mono Set.subset_union_right

theorem Told.asExpr : Makes n.source placed n.region.bytes (fun e => [.expr e]) n.asExpr := by
  intro c e d hg
  unfold Shape.asExpr at hg
  split at hg <;> rename_i hl
  · simp only [gets_bind, gets_pure] at hg
    obtain ⟨x, e1, hx, rfl, rfl⟩ := hg
    obtain ⟨rfl, f1⟩ := makes_name (fun hp => (h.stands hp).self) _ _ _ hx
    exact ⟨by simp [replay_edits], fun hp => (f1 hp).wrap rfl trivial rfl rfl⟩
  · simp only [gets_bind, gets_pure] at hg
    obtain ⟨x, e1, hx, rfl, rfl⟩ := hg
    obtain ⟨rfl, f1⟩ := makes_name (fun hp => (h.stands hp).self) _ _ _ hx
    exact ⟨by simp [replay_edits], fun hp => (f1 hp).wrap rfl trivial rfl rfl⟩
  · unfold asNumber at hg
    split at hg
    · exact h.literal hl rfl _ _ _ _ hg
    · exact absurd hg gets_throw
  · exact h.literal hl rfl _ _ _ _ hg
  · unfold asBoolean at hg
    split at hg
    · exact h.literal hl rfl _ _ _ _ hg
    · exact h.literal hl rfl _ _ _ _ hg
    · exact absurd hg gets_throw
  · exact h.literal hl rfl _ _ _ _ hg
  · exact h.asBinary hl _ _ _ hg
  · exact h.asUnary hl _ _ _ hg
  · simp only [gets_bind, gets_pure] at hg
    obtain ⟨x, e1, hx, a, e2, ha, b, e3, hb, rfl, rfl⟩ := hg
    obtain ⟨rfl, f1⟩ := h.exprIn .condition _ _ _ hx
    obtain ⟨rfl, f2⟩ := h.exprIn .consequence _ _ _ ha
    obtain ⟨rfl, f3⟩ := h.exprIn .alternative _ _ _ hb
    refine ⟨by simp [replay_edits], ?_⟩
    exact h.three hl rfl f1 f2 f3 (by decide) (by decide) rfl rfl rfl trivial
  · simp only [gets_bind, gets_pure] at hg
    obtain ⟨a, e1, ha, rfl, rfl⟩ := hg
    obtain ⟨rfl, f1⟩ := h.exprIn .expression _ _ _ ha
    exact ⟨by simp [replay_edits], h.one hl rfl f1 rfl rfl rfl trivial⟩
  · simp only [gets_bind, gets_pure] at hg
    obtain ⟨f, e1, hf, as, e2, has, rfl, rfl⟩ := hg
    obtain ⟨rfl, f1⟩ := h.exprIn .function _ _ _ hf
    obtain ⟨rfl, f2⟩ := h.args _ _ _ has
    exact ⟨by simp [replay_edits], h.two hl rfl f1 f2 (by decide) rfl rfl rfl trivial⟩
  · simp only [gets_bind, gets_pure] at hg
    obtain ⟨a, e1, ha, b, e2, hb, rfl, rfl⟩ := hg
    obtain ⟨rfl, f1⟩ := h.exprIn .value _ _ _ ha
    obtain ⟨rfl, f2⟩ := h.exprIn .index _ _ _ hb
    exact ⟨by simp [replay_edits], h.two hl rfl f1 f2 (by decide) rfl rfl rfl trivial⟩
  · simp only [gets_bind, gets_pure] at hg
    obtain ⟨a, e1, ha, x, e2, hx, rfl, rfl⟩ := hg
    obtain ⟨rfl, f1⟩ := h.exprIn .value _ _ _ ha
    obtain ⟨rfl, f2⟩ := h.nameIn .field _ _ _ hx
    exact ⟨by simp [replay_edits], h.two hl rfl f1 f2 (by decide) rfl rfl rfl trivial⟩
  · simp only [gets_inScope, gets_bind, gets_pure] at hg
    obtain ⟨_, ⟨bs, e1, hbs, a, e2, ha, rfl, rfl⟩, rfl⟩ := hg
    obtain ⟨rfl, f1⟩ := h.assignmentsIn .bindings _ _ _ hbs
    obtain ⟨rfl, f2⟩ := h.exprIn .body _ _ _ ha
    exact ⟨by simp [replay_edits], h.two hl rfl f1 f2 (by decide) rfl rfl rfl trivial⟩
  · exact h.asGuard hl rfl .assert _ _ _ hg
  · exact h.asGuard hl rfl .echo _ _ _ hg
  · simp only [gets_inScope, gets_bind, gets_update, gets_pure] at hg
    obtain ⟨ps, e1, hps, _, ⟨_, _, rfl, a, e2, ha, rfl, rfl⟩, rfl⟩ := hg
    obtain ⟨rfl, f1⟩ := h.params _ _ _ hps
    obtain ⟨rfl, f2⟩ := h.exprIn .body _ _ _ ha
    exact ⟨by simp [replay_edits], h.two hl rfl f1 f2 (by decide) rfl rfl rfl trivial⟩
  · simp only [gets_bind, gets_pure] at hg
    obtain ⟨es, e1, hes, rfl, rfl⟩ := hg
    obtain ⟨rfl, f1⟩ := h.each (fun _ hx => hx.expr) _ _ _ hes
    refine ⟨by simp [replay_edits], fun hp => ?_⟩
    exact .over (h.stands hp).self.marked ((h.stands hp).self.solid _ hl rfl) rfl trivial (f1 hp)
      fun _ hy => (f1 hp).mem hy
  · simp only [gets_bind, gets_pure] at hg
    obtain ⟨a, e1, ha, b, e2, hb, x, e3, hx, rfl, rfl⟩ := hg
    obtain ⟨rfl, f1⟩ := h.exprIn .start _ _ _ ha
    obtain ⟨rfl, f2⟩ := h.optional .step (fun _ hx => hx.expr) _ _ _ hb
    obtain ⟨rfl, f3⟩ := h.exprIn .stop _ _ _ hx
    refine ⟨by simp [replay_edits], ?_⟩
    exact h.three hl rfl f1 f2 f3 (by decide) (by decide) rfl rfl rfl trivial
  · simp only [gets_inScope, gets_bind, gets_pure] at hg
    obtain ⟨_, ⟨x, e1, hx, t, e2, ht, rfl, rfl⟩, rfl⟩ := hg
    obtain ⟨rfl, f1⟩ := h.loopHead _ _ _ hx
    obtain ⟨rfl, f2⟩ := h.tailIn .body _ _ _ ht
    refine ⟨by simp [replay_edits, tailEdits], fun hp => ?_⟩
    exact (h.stands hp).whole_tail hl rfl (f1 hp) (f2 hp) (by decide) rfl rfl rfl trivial
  · simp only [gets_bind, gets_pure] at hg
    obtain ⟨x, e1, hx, a, e2, ha, b, e3, hb, rfl, rfl⟩ := hg
    obtain ⟨rfl, f1⟩ := h.exprIn .condition _ _ _ hx
    obtain ⟨rfl, f2⟩ := h.exprIn .consequence _ _ _ ha
    obtain ⟨rfl, f3⟩ := h.optional .alternative (fun _ hx => hx.expr) _ _ _ hb
    refine ⟨by simp [replay_edits], ?_⟩
    exact h.three hl rfl f1 f2 f3 (by decide) (by decide) rfl rfl rfl trivial
  · simp only [gets_bind, gets_pure] at hg
    obtain ⟨a, e1, ha, rfl, rfl⟩ := hg
    obtain ⟨rfl, f1⟩ := h.exprIn .value _ _ _ ha
    exact ⟨by simp [replay_edits], h.one hl rfl f1 rfl rfl rfl trivial⟩
  · exact absurd hg gets_throw

omit h in
/-- A node that is no clause is the body of the comprehension. -/
theorem tells_body {source : List Char} {B : Set Nat} {self : Read Expr}
    (hself : Makes source placed B (fun e => [.expr e]) self) :
    Tells placed tailEdits (TailFits source B) (do let e ← self; pure ([], e)) := by
  intro c t d hg
  simp only [gets_bind, gets_pure] at hg
  obtain ⟨e, e1, he, rfl, rfl⟩ := hg
  obtain ⟨rfl, f1⟩ := hself _ _ _ he
  exact ⟨by simp [tailEdits], fun hp => ⟨by simp, f1 hp⟩⟩

/-- A clause in front of others. It stands over the node, and its parts stand in the children. -/
theorem Told.clause {f : Form} (hl : n.label = .form f) (hf : f.isRow = false) (hp : placed)
    {rs : List Role} {k : Clause} (hk : Fits n.source (n.sites rs) k.elements)
    (hspan : k.span.toRegion = n.region) {r : Role} {t : List Clause × Expr}
    (ht : TailFits n.source (n.sites [r]) t) (hrs : ∀ r' ∈ rs, ∀ q ∈ [r], r'.turn < q.turn) :
    TailFits n.source n.region.bytes (k :: t.1, t.2) := by
  have hn := h.stands hp
  have hclause := hn.whole hl hf hk (x := .clause k) rfl rfl hspan trivial
  refine ⟨fun c hc => ?_, ?_⟩
  · rcases List.mem_cons.1 hc with rfl | hc
    · exact hclause
    · exact (ht.clauses c hc).mono (hn.sites_subset _)
  · rw [List.flatMap_cons, List.append_assoc]
    exact (hn.join hk ht.row hrs).mono (hn.sites_subset _)

theorem Told.asTail {self : Read Expr}
    (hself : Makes n.source placed n.region.bytes (fun e => [.expr e]) self) :
    Tells placed tailEdits (TailFits n.source n.region.bytes) (n.asTail self) := by
  intro c t d hg
  unfold Shape.asTail at hg
  dsimp only at hg
  split at hg
  · rename_i hl
    simp only [gets_inScope, gets_bind, gets_pure] at hg
    obtain ⟨_, ⟨x, e1, hx, t, e2, ht, rfl, rfl⟩, rfl⟩ := hg
    obtain ⟨rfl, f1⟩ := h.loopHead _ _ _ hx
    obtain ⟨rfl, f2⟩ := h.tailIn .body _ _ _ ht
    refine ⟨?_, fun hp => h.clause hl rfl hp (f1 hp) rfl (f2 hp) (by decide)⟩
    simp [replay_edits, tailEdits, Clause.elements, Clause.closing]
  · rename_i hl
    split at hg
    · exact tells_body hself _ _ _ hg
    · simp only [gets_bind, gets_pure] at hg
      obtain ⟨x, e1, hx, t, e2, ht, rfl, rfl⟩ := hg
      obtain ⟨rfl, f1⟩ := h.exprIn .condition _ _ _ hx
      obtain ⟨rfl, f2⟩ := h.tailIn .consequence _ _ _ ht
      refine ⟨?_, fun hp =>
        h.clause hl rfl hp (k := .filter x n.span) (f1 hp) rfl (f2 hp) (by decide)⟩
      simp [replay_edits, tailEdits, Clause.elements, Clause.closing]
  · rename_i hl
    simp only [gets_inScope, gets_bind, gets_pure] at hg
    obtain ⟨_, ⟨bs, e1, hbs, t, e2, ht, rfl, rfl⟩, rfl⟩ := hg
    obtain ⟨rfl, f1⟩ := h.assignmentsIn .bindings _ _ _ hbs
    obtain ⟨rfl, f2⟩ := h.tailIn .body _ _ _ ht
    refine ⟨?_, fun hp =>
      h.clause hl rfl hp (k := .letIn bs n.span) (f1 hp) rfl (f2 hp) (by decide)⟩
    simp [replay_edits, tailEdits, Clause.elements, Clause.closing]
  · exact tells_body hself _ _ _ hg

/-! ## Statements -/

theorem Told.callTail :
    Tells placed (fun t => [Element.stmt t].flatMap edits)
      (fun t => Fits n.source (n.sites [.body]) [.stmt t] ∨ t = .empty n.span.endPoint)
      n.callTail := by
  unfold Shape.callTail
  split
  · rename_i x hx
    intro c t d hg
    obtain ⟨h1, f1⟩ := (h.children x (mem_of_child? hx).1).stmt _ _ _ hg
    exact ⟨h1, fun hp => .inl ((f1 hp).mono (bytes_subset_sites hx))⟩
  · intro c t d hg
    obtain ⟨rfl, rfl⟩ := gets_pure.1 hg
    exact ⟨by simp [replay_edits], fun _ => .inr rfl⟩

theorem Told.bound {f : Form} (hl : n.label = .form f) (hf : f.isRow = false) (k : Binder) :
    Makes n.source placed n.region.bytes (fun s => [.stmt s]) (n.bound k k.scopeKind) := by
  intro c s d hg
  simp only [Shape.bound, gets_inScope, gets_bind, gets_pure] at hg
  obtain ⟨_, ⟨bs, e1, hbs, t, e2, ht, rfl, rfl⟩, rfl⟩ := hg
  obtain ⟨rfl, f1⟩ := h.assignmentsIn .bindings _ _ _ hbs
  obtain ⟨rfl, f2⟩ := h.stmtIn .body _ _ _ ht
  exact ⟨by simp [replay_edits], h.two hl hf f1 f2 (by decide) rfl rfl rfl trivial⟩

theorem Told.file {f : Form} (hl : n.label = .form f) (hf : f.isRow = false) (k : Link) :
    Makes n.source placed n.region.bytes (fun s => [.stmt s]) (n.file k) := by
  intro c s d hg
  obtain ⟨⟨text, place⟩, e1, hx, hrest⟩ := gets_bind.1 hg
  obtain rfl := symbolIn_same hx
  dsimp only at hrest
  split at hrest
  · obtain ⟨rfl, rfl⟩ := gets_pure.1 hrest
    refine ⟨by simp [replay_edits], fun hp => ?_⟩
    exact (h.stands hp).leaf hl hf rfl rfl rfl trivial
  · exact absurd hrest gets_throw

theorem Told.asModified (hl : n.label = .form .modifierChain) :
    Makes n.source placed n.region.bytes (fun s => [.stmt s]) n.asModified := by
  intro c s d hg
  obtain ⟨⟨symbol, place⟩, e1, hx, hrest⟩ := gets_bind.1 hg
  obtain rfl := symbolIn_same hx
  dsimp only at hrest
  split at hrest
  · exact absurd hrest gets_throw
  · simp only [gets_bind, gets_pure] at hrest
    obtain ⟨t, e2, ht, rfl, rfl⟩ := hrest
    obtain ⟨rfl, f1⟩ := h.stmtIn .statement _ _ _ ht
    exact ⟨by simp [replay_edits], h.one hl rfl f1 rfl rfl rfl trivial⟩

theorem Told.items :
    Makes n.source placed n.region.bytes (·.map .item) (Read.each Reading.item n.children) :=
  h.each fun _ hx => hx.item

theorem Told.asStmt : Makes n.source placed n.region.bytes (fun s => [.stmt s]) n.asStmt := by
  intro c s d hg
  unfold Shape.asStmt at hg
  split at hg <;> rename_i hl
  · simp only [gets_bind, gets_pure] at hg
    obtain ⟨x, e1, hx, as, e2, has, t, e3, ht, rfl, rfl⟩ := hg
    obtain ⟨rfl, f1⟩ := h.nameIn .name _ _ _ hx
    obtain ⟨rfl, f2⟩ := h.args _ _ _ has
    obtain ⟨rfl, f3⟩ := h.callTail _ _ _ ht
    refine ⟨by simp [replay_edits], fun hp => ?_⟩
    have hf := (h.stands hp).join (f1 hp) (f2 hp) (by decide)
    exact (h.stands hp).whole_call hl rfl hf (by decide) (f3 hp) rfl rfl rfl trivial
  · simp only [gets_inScope, gets_bind, gets_pure] at hg
    obtain ⟨_, ⟨is, e1, his, rfl, rfl⟩, rfl⟩ := hg
    obtain ⟨rfl, f1⟩ := h.items _ _ _ his
    refine ⟨by simp [replay_edits], fun hp => ?_⟩
    exact .over (h.stands hp).self.marked ((h.stands hp).self.solid _ hl rfl) rfl trivial (f1 hp)
      fun _ hy => (f1 hp).mem hy
  · obtain ⟨rfl, rfl⟩ := gets_pure.1 hg
    refine ⟨by simp [replay_edits], fun hp => ?_⟩
    exact (h.stands hp).leaf hl rfl rfl rfl rfl trivial
  · exact h.asModified hl _ _ _ hg
  · exact h.bound hl rfl .loop _ _ _ hg
  · exact h.bound hl rfl .intersectionLoop _ _ _ hg
  · exact h.bound hl rfl .letIn _ _ _ hg
  · exact h.bound hl rfl .assign _ _ _ hg
  · simp only [gets_bind, gets_pure] at hg
    obtain ⟨x, e1, hx, a, e2, ha, b, e3, hb, rfl, rfl⟩ := hg
    obtain ⟨rfl, f1⟩ := h.exprIn .condition _ _ _ hx
    obtain ⟨rfl, f2⟩ := h.stmtIn .consequence _ _ _ ha
    obtain ⟨rfl, f3⟩ := h.optional .alternative (fun _ hx => hx.stmt) _ _ _ hb
    refine ⟨by simp [replay_edits], ?_⟩
    exact h.three hl rfl f1 f2 f3 (by decide) (by decide) rfl rfl rfl trivial
  · simp only [gets_bind, gets_pure] at hg
    obtain ⟨as, e1, has, t, e2, ht, rfl, rfl⟩ := hg
    obtain ⟨rfl, f1⟩ := h.args _ _ _ has
    obtain ⟨rfl, f2⟩ := h.callTail _ _ _ ht
    refine ⟨by simp [replay_edits], fun hp => ?_⟩
    exact (h.stands hp).whole_call hl rfl (f1 hp) (by decide) (f2 hp) rfl rfl rfl trivial
  · exact h.file hl rfl _ _ _ _ hg
  · exact h.file hl rfl _ _ _ _ hg
  · exact absurd hg gets_throw

/-! ## Items -/

omit h in
/-- The body of a module has no scope of its own, be it a block or not. -/
theorem makes_moduleBody {source : List Char} {x : Reading} (hx : x.Told source placed) :
    Makes source placed x.region.bytes (·.map .item) (moduleBody x) := by
  unfold moduleBody
  split
  · exact hx.items
  · intro c is d hg
    simp only [gets_bind, gets_pure] at hg
    obtain ⟨i, e, hi, rfl, rfl⟩ := hg
    exact hx.item _ _ _ hi

theorem Told.asModule (hl : n.label = .form .moduleItem) :
    Makes n.source placed n.region.bytes (fun i => [.item i]) n.asModule := by
  intro c i d hg
  simp only [Shape.asModule, gets_bind, gets_update, gets_need, gets_inScope, gets_pure] at hg
  obtain ⟨a, e0, ha, ps, e1, hps, _, _, rfl, x, _, ⟨hx, rfl⟩, is, _, ⟨e2, ⟨_, _, rfl, his⟩, rfl⟩,
    rfl, rfl⟩ := hg
  obtain ⟨rfl, f1⟩ := h.nameIn .name _ _ _ ha
  obtain ⟨rfl, f2⟩ := h.params _ _ _ hps
  obtain ⟨rfl, f3⟩ := (makes_moduleBody (h.children x (mem_of_child? hx).1)).mono
    (bytes_subset_sites hx) _ _ _ his
  refine ⟨by simp [replay_edits], ?_⟩
  exact h.three hl rfl f1 f2 f3 (by decide) (by decide) rfl rfl rfl trivial

theorem Told.asFunction (hl : n.label = .form .functionItem) :
    Makes n.source placed n.region.bytes (fun i => [.item i]) n.asFunction := by
  intro c i d hg
  simp only [Shape.asFunction, gets_bind, gets_update, gets_inScope, gets_pure] at hg
  obtain ⟨x, e0, hx, ps, e1, hps, _, _, rfl, a, _, ⟨e2, ⟨_, _, rfl, ha⟩, rfl⟩, rfl, rfl⟩ := hg
  obtain ⟨rfl, f1⟩ := h.nameIn .name _ _ _ hx
  obtain ⟨rfl, f2⟩ := h.params _ _ _ hps
  obtain ⟨rfl, f3⟩ := h.exprIn .body _ _ _ ha
  refine ⟨by simp [replay_edits], ?_⟩
  exact h.three hl rfl f1 f2 f3 (by decide) (by decide) rfl rfl rfl trivial

theorem Told.asItem {self : Read Stmt}
    (hself : Makes n.source placed n.region.bytes (fun s => [.stmt s]) self) :
    Makes n.source placed n.region.bytes (fun i => [.item i]) (n.asItem self) := by
  intro c i d hg
  unfold Shape.asItem at hg
  split at hg <;> rename_i hl
  · exact h.asModule hl _ _ _ hg
  · exact h.asFunction hl _ _ _ hg
  · simp only [gets_bind, gets_update, gets_pure] at hg
    obtain ⟨x, e0, hx, v, e, hv, _, _, rfl, rfl, rfl⟩ := hg
    obtain ⟨rfl, f1⟩ := h.nameIn .name _ _ _ hx
    obtain ⟨rfl, f2⟩ := h.exprIn .value _ _ _ hv
    exact ⟨by simp [replay_edits], h.two hl rfl f1 f2 (by decide) rfl rfl rfl trivial⟩
  · simp only [gets_bind, gets_pure] at hg
    obtain ⟨t, e, ht, rfl, rfl⟩ := hg
    obtain ⟨rfl, f1⟩ := hself _ _ _ ht
    exact ⟨by simp [replay_edits], fun hp => (f1 hp).wrap rfl trivial rfl rfl⟩

/-- Where the children of a node tell what they do, so does the node. -/
theorem Told.reading (role : Option Role) : (n.reading role).Told n.source placed where
  item := h.asItem h.asStmt
  items := h.items
  stmt := h.asStmt
  expr := h.asExpr
  tail := h.asTail h.asExpr
  argument := h.asArgument h.asExpr
  arguments := h.asArguments
  assignment := h.asAssignment
  assignments := h.asAssignments
  parameter := h.asParameter
  parameters := h.asParameters

end
end Shape

/-! ## Trees -/

section

variable (source : List Char)

mutual

/-- Every tree tells what it does, wherever its nodes stand. -/
theorem Tree.told : ∀ t : Tree, (t.reading source).Told source False
  | ⟨label, region, role, _, _, children⟩ =>
    Shape.Told.reading (n := ⟨source, label, region, Tree.readings source children⟩)
      ⟨False.elim, Tree.told_all children⟩ role

theorem Tree.told_all : ∀ ts : List Tree, ∀ c ∈ Tree.readings source ts, c.Told source False
  | [] => fun _ hc => absurd hc List.not_mem_nil
  | t :: ts => List.forall_mem_cons.2 ⟨Tree.told t, Tree.told_all ts⟩

end

/-- The context of a program is the replay of its edits. -/
theorem Program.context_of_tree {source : List Char} {t : Tree} {p : Program}
    (h : Program.ofTree source t = .ok p) :
    p.context =
      ((Context.start p.span).replay ((p.items.map Element.item).flatMap edits)).finish := by
  unfold Program.ofTree at h
  split at h
  · cases h
  · split at h
    · dsimp only at h
      split at h
      rename_i result context hrun
      split at h
      · obtain rfl := Except.ok.inj h
        have hreplay := (Tree.told source t).items _ _ _ hrun
        exact congrArg Context.finish hreplay.1
      · cases h
    · cases h

end
end Scad
