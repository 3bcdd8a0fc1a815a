import Scad.Proofs.Scope.Balance

/-!
# The scopes of a comprehension, counted

The clauses of a comprehension open scope after scope, and any of them may fail. Instead of closing
each scope where its clause ends, one can go along the clauses with a count of the scopes that they
opened, and close as many at the end, whatever happened. This comes to the same (`Tree.counted_eq`).
Main statement: `Tree.reading_balanced`.
-/

namespace Scad

open Read

/-! ## Scopes that are counted -/

/-- A step that leaves scopes open and counts them. -/
abbrev Walk (α : Type) := ExceptT Failure (StateM (Context × Nat)) α

namespace Walk

variable {α β : Type}

/-- A step of reading, which leaves no scope open. -/
def step (m : Read α) : Walk α :=
  ExceptT.mk fun (c, n) =>
    let (result, d) := m.run c
    (result, d, n)

/-- Opens a scope. -/
def opening (kind : ScopeKind) (span : Span) : Walk Unit :=
  modify fun (c, n) => (c.push kind span, n + 1)

/-- Closes as many scopes as were counted, however the walk ended. -/
def closed (w : Walk α) : Read α :=
  ExceptT.mk fun c =>
    let (result, d, n) := w.run (c, 0)
    (result, Context.pop^[n] d)

/-- The walk goes as the step does, but for the scopes that it has counted: the step has closed
them. -/
def Counts (w : Walk α) (m : Read α) : Prop :=
  ∀ c n, ∃ d k, w.run (c, n) = ((m.run c).1, d, n + k) ∧ (m.run c).2 = Context.pop^[k] d

theorem Counts.closed_eq {w : Walk α} {m : Read α} (h : Counts w m) : w.closed = m := by
  funext c
  obtain ⟨d, k, hw, hm⟩ := h c 0
  rw [Nat.zero_add] at hw
  show ((w.run (c, 0)).1, Context.pop^[(w.run (c, 0)).2.2] (w.run (c, 0)).2.1) = m.run c
  rw [hw, ← hm]
  rfl

theorem counts_throw (e : Failure) : Counts (throw e : Walk α) (throw e) :=
  fun c _ => ⟨c, 0, rfl, rfl⟩

theorem counts_step {m : Read α} {v : α → Walk β} {k : α → Read β} (h : ∀ a, Counts (v a) (k a)) :
    Counts (step m >>= v) (m >>= k) := by
  intro c n
  have hstep : (step m).run (c, n) = ((m.run c).1, (m.run c).2, n) := rfl
  rw [run_bind, run_bind, hstep]
  match m.run c with
  | (.error _, d) => exact ⟨d, 0, rfl, rfl⟩
  | (.ok a, d) => exact h a d n

theorem counts_pure (a : α) : Counts (pure a) (pure a) := fun c _ => ⟨c, 0, rfl, rfl⟩

/-- What is made of the result of a walk opens no scope. -/
theorem Counts.bind {w : Walk α} {m : Read α} {v : α → Walk β} {k : α → Read β} (h : Counts w m)
    (hv : ∀ a, ∃ b, v a = pure b ∧ k a = pure b) : Counts (w >>= v) (m >>= k) := by
  intro c n
  obtain ⟨d, j, hw, hm⟩ := h c n
  refine ⟨d, j, ?_⟩
  rw [run_bind, run_bind, hw]
  generalize m.run c = r at hm ⊢
  match r with
  | (.error _, _) => exact ⟨rfl, hm⟩
  | (.ok a, _) =>
    obtain ⟨b, hv, hk⟩ := hv a
    simp only [hv, hk]
    exact ⟨rfl, hm⟩

/-- A scope that is opened is closed after those that are opened in it. -/
theorem Counts.inScope {w : Walk α} {m : Read α} (h : Counts w m) (kind : ScopeKind)
    (span : Span) : Counts (opening kind span >>= fun _ => w) (inScope kind span m) := by
  intro c n
  obtain ⟨d, k, hw, hm⟩ := h (c.push kind span) (n + 1)
  -- the scope of this step lies below the scopes of the walk, so it is the last to be closed
  refine ⟨d, k + 1, ?_, ?_⟩
  · show w.run (c.push kind span, n + 1) = ((m.run (c.push kind span)).1, d, n + (k + 1))
    rw [hw, Nat.add_assoc, Nat.add_comm 1 k]
  · show (m.run (c.push kind span)).2.pop = _
    rw [hm, Function.iterate_succ_apply']

end Walk

/-- A walk along the clauses of a comprehension to its body. -/
abbrev TailWalk := Walk (List Clause × Expr)

namespace Shape

variable (n : Shape)

/-- The walk goes on at the child in a role, which must be there. -/
def walkIn (next : List (Option Role × TailWalk)) (r : Role) : TailWalk :=
  match next.find? fun w => w.1 == some r with
  | some w => w.2
  | none => throw (.malformed (.noField n.label.name r) n.span)

/-- The walk from a node on, with the walks of its children. -/
def walk (self : Read Expr) (next : List (Option Role × TailWalk)) : TailWalk :=
  let body : TailWalk := do
    let e ← Walk.step self
    pure ([], e)
  match n.label with
  | .form .listComprehension => do
    Walk.opening .comprehension n.span
    let head ← Walk.step n.loopHead
    let (clauses, body) ← n.walkIn next .body
    pure (.loop head n.span :: clauses, body)
  | .form .ifComprehension =>
    match n.child? .alternative with
    | some _ => body
    | none => do
      let cond ← Walk.step (n.exprIn .condition)
      let (clauses, body) ← n.walkIn next .consequence
      pure (.filter cond n.span :: clauses, body)
  | .form .letExpression => do
    Walk.opening .letIn n.span
    let bindings ← Walk.step (n.assignmentsIn .bindings)
    let (clauses, body) ← n.walkIn next .body
    pure (.letIn bindings n.span :: clauses, body)
  | _ => body

/-- A comprehension that closes the scopes of all its clauses at its end. -/
def counted (next : List (Option Role × TailWalk)) : Read Expr :=
  Walk.closed do
    Walk.opening .comprehension n.span
    let head ← Walk.step n.loopHead
    let (clauses, body) ← n.walkIn next .body
    pure (.comprehension head clauses body n.span)

variable {n} {next : List (Option Role × TailWalk)}
  (h : List.Forall₂ (fun w c => w.1 = c.role ∧ Walk.Counts w.2 c.tail) next n.children)

include h

theorem counts_walkIn (r : Role) : Walk.Counts (n.walkIn next r) (n.tailIn r) := by
  unfold walkIn tailIn need child?
  generalize n.children = children at h
  -- the roles are the same in both lists, so both searches end at the same child
  induction h with
  | nil => exact Walk.counts_throw _
  | @cons w c next children hw _ ih =>
    rw [List.find?_cons, List.find?_cons, hw.1]
    cases c.role == some r with
    | true => exact hw.2
    | false => exact ih

theorem counts_walk (self : Read Expr) : Walk.Counts (n.walk self next) (n.asTail self) := by
  have hbody : Walk.Counts (do let e ← Walk.step self; pure (([] : List Clause), e))
      (do let e ← self; pure ([], e)) :=
    Walk.counts_step fun _ => Walk.counts_pure _
  unfold walk asTail
  generalize n.label = label
  cases label with
  | other _ => exact hbody
  | form f =>
    cases f
    case listComprehension =>
      refine Walk.Counts.inScope (Walk.counts_step fun head => ?_) _ _
      exact (counts_walkIn h .body).bind fun _ => ⟨_, rfl, rfl⟩
    case ifComprehension =>
      dsimp only
      cases n.child? .alternative with
      | some _ => exact hbody
      | none =>
        refine Walk.counts_step fun cond => ?_
        exact (counts_walkIn h .consequence).bind fun _ => ⟨_, rfl, rfl⟩
    case letExpression =>
      refine Walk.Counts.inScope (Walk.counts_step fun bindings => ?_) _ _
      exact (counts_walkIn h .body).bind fun _ => ⟨_, rfl, rfl⟩
    all_goals exact hbody

theorem counted_eq (hl : n.label = .form .listComprehension) : n.counted next = n.asExpr := by
  have hexpr : n.asExpr = inScope .comprehension n.span (do
      let head ← n.loopHead
      let (clauses, body) ← n.tailIn .body
      pure (.comprehension head clauses body n.span)) := by
    rw [asExpr, hl]
  rw [hexpr]
  refine Walk.Counts.closed_eq (Walk.Counts.inScope (Walk.counts_step fun head => ?_) _ _)
  exact (counts_walkIn h .body).bind fun _ => ⟨_, rfl, rfl⟩

end Shape

section

variable (source : List Char)

mutual

/-- The walk from a tree on. -/
def Tree.walk : Tree → TailWalk
  | ⟨label, region, _, _, _, children⟩ =>
    let n : Shape := ⟨source, label, region, Tree.readings source children⟩
    n.walk n.asExpr (Tree.walks children)

def Tree.walks : List Tree → List (Option Role × TailWalk)
  | [] => []
  | t :: ts => (t.role, t.walk) :: Tree.walks ts

end

theorem Tree.reading_eq (t : Tree) : t.reading source =
    Shape.reading ⟨source, t.label, t.region, Tree.readings source t.children⟩ t.role := by
  cases t
  rfl

/-- A tree as a comprehension, with a count of the scopes of its clauses. -/
def Tree.counted (t : Tree) : Read Expr :=
  Shape.counted ⟨source, t.label, t.region, Tree.readings source t.children⟩
    (Tree.walks source t.children)

mutual

theorem Tree.counts_walk : ∀ t : Tree, Walk.Counts (t.walk source) (t.reading source).tail
  | ⟨label, region, _, _, _, children⟩ =>
    Shape.counts_walk (n := ⟨source, label, region, Tree.readings source children⟩)
      (Tree.counts_walks children) _

theorem Tree.counts_walks : ∀ ts : List Tree,
    List.Forall₂ (fun w c => w.1 = c.role ∧ Walk.Counts w.2 c.tail) (Tree.walks source ts)
      (Tree.readings source ts)
  | [] => .nil
  | t :: ts => .cons ⟨by rw [Tree.reading_eq]; rfl, Tree.counts_walk t⟩ (Tree.counts_walks ts)

end

/-- A comprehension is read the same when the scopes of its clauses are counted. -/
theorem Tree.counted_eq {t : Tree} (hl : t.label = .form .listComprehension) :
    t.counted source = (t.reading source).expr := by
  rw [Tree.reading_eq]
  exact Shape.counted_eq (n := ⟨source, t.label, t.region, Tree.readings source t.children⟩)
    (Tree.counts_walks source t.children) hl

end

/-- Whatever a tree is read as, and whether this succeeds or fails at any depth, the same scopes are
open afterwards as before, and the scopes that were in the table have kept their places, numbers,
parents, kinds and spans. A comprehension that opens the scopes of its clauses one after the other,
counts them, and closes as many as it counted, is read in the same way. -/
theorem Tree.reading_balanced (source : List Char) (t : Tree) (c : Context) (hc : c.stack ≠ []) :
    c.Kept ((t.reading source).item.run c).2 ∧ c.Kept ((t.reading source).stmt.run c).2 ∧
      c.Kept ((t.reading source).expr.run c).2 ∧
      (t.label = .form .listComprehension → t.counted source = (t.reading source).expr) := by
  have h := Tree.balanced source t
  exact ⟨h.item c hc, h.stmt c hc, h.expr c hc, Tree.counted_eq source⟩

/-- A loop with a `let` in it, which has a stray node for its body. -/
def Tree.strayBody : Tree :=
  let name (role : Role) : Tree := { label := .form .identifier, region := {}, role }
  let bindings : Tree :=
    { label := .form .assignments, region := {}, role := some .bindings, children :=
      [{ label := .form .assignment, region := {}, children := [name .name, name .value] }] }
  let body : Tree := { label := .other "stray", region := {}, role := some .body }
  { label := .form .listComprehension, region := {}, children :=
    [bindings, { label := .form .letExpression, region := {}, role := some .body, children :=
      [bindings, body] }] }

/-- A failure inside two scopes of a comprehension, in a block. -/
theorem Tree.reading_balanced_stray :
    let c := (Context.start {}).push .block {}
    let after := (Tree.strayBody.reading []).expr.run c
    c.stack = [1, 0] ∧ after.1.toOption.isNone = true ∧ after.2.stack = [1, 0] ∧
      after.2.scopes.map (fun s => (s.kind, s.parent)) =
        [(.root, none), (.block, some 0), (.comprehension, some 1), (.letIn, some 2)] ∧
      c.Kept ((Tree.strayBody.reading []).item.run c).2 ∧
      c.Kept ((Tree.strayBody.reading []).stmt.run c).2 ∧ c.Kept after.2 ∧
      Tree.strayBody.counted [] = (Tree.strayBody.reading []).expr := by
  have hc : ((Context.start {}).push .block {}).stack ≠ [] := List.cons_ne_nil _ _
  obtain ⟨hitem, hstmt, hexpr, hcounted⟩ :=
    Tree.reading_balanced [] Tree.strayBody ((Context.start {}).push .block {}) hc
  refine ⟨rfl, ?_, ?_, ?_, hitem, hstmt, hexpr, hcounted rfl⟩
  all_goals decide +kernel

end Scad
