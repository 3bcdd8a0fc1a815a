import Scad.Proofs.Grammar.Braces
import Scad.Proofs.Program.Values
import Scad.Proofs.Scope.Openings

/-!
# Comprehensions

Behind its first loop, a comprehension takes all loops, filters and bindings for its clauses, up to
the first element that is none of them: its body. In the tree these are a chain of nodes, each the
body of the one before (`Node.Chain`), and the clauses of the comprehension stand for the nodes of
this chain. Main statement: `Program.comprehensions_normal`.
-/

namespace Scad

open Read

/-! ## Clauses -/

/-- The form of the nodes that are read as this kind of clause. -/
def Clause.form : Clause → Form
  | loop _ _ => .listComprehension
  | filter _ _ => .ifComprehension
  | letIn _ _ => .letExpression

/-- The clause stands for the node. -/
structure Clause.IsOf (k : Clause) (n : Node) : Prop where
  kind : n.kind = .form k.form
  span : k.span = .ofRegion n.region

/-- The expressions that are clauses when they stand behind the head of a comprehension. -/
def Expr.isClause : Expr → Bool
  | comprehension _ _ _ _ | letIn _ _ _ | choice _ _ none _ => true
  | _ => false

namespace Node

variable {source : List Char} {n : Node}

/-- Where a comprehension goes on behind a node, if the node is a clause of it. -/
def clauseRole? (n : Node) : Option Role :=
  match n.kind with
  | .form .listComprehension | .form .letExpression => some .body
  | .form .ifComprehension => if (n.child? .alternative).isSome then none else some .consequence
  | _ => none

/-- The clauses from a node on, up to the first node that is none. -/
inductive Chain : Node → List Node → Node → Prop
  | body {n : Node} (hn : n.clauseRole? = none) : Chain n [] n
  | clause {n m b : Node} {ms : List Node} {r : Role} (hn : n.clauseRole? = some r)
      (hm : n.child? r = some m) (rest : Chain m ms b) : Chain n (n :: ms) b

theorem child?_shape (r : Role) :
    (n.shape source).child? r = (n.child? r).map (reading source) := by
  have hrole : (fun c : Reading => c.role == some r) ∘ reading source =
      fun c : Node => c.role == some r :=
    funext fun c => congrArg (· == some r) (reading_role source c)
  rw [Shape.child?, shape, List.find?_map, hrole, child?]

/-- Only nodes of such a form are labelled so. -/
theorem kind_of_label {f : Form} (hf : f = .listComprehension ∨ f = .ifComprehension ∨
    f = .letExpression) (h : (n.shape source).label = .form f) : n.kind = .form f := by
  obtain ⟨kind, region, role, missing, children⟩ := n
  have h : Label.ofKind kind = .form f := h
  cases kind with
  | form g => rw [Label.form.inj h]
  | error => rcases hf with rfl | rfl | rfl <;> exact absurd h (by decide)
  | token k => rcases hf with rfl | rfl | rfl <;> exact absurd h (by cases k <;> decide)

theorem gets_tailIn {r : Role} {c d : Context} {t : List Clause × Expr}
    (h : Gets ((n.shape source).tailIn r) c t d) :
    ∃ m, n.child? r = some m ∧ m ∈ n.children ∧ Gets (m.reading source).tail c t d := by
  obtain ⟨x, e, hx, ht⟩ := gets_bind.1 h
  obtain ⟨hchild, rfl⟩ := Shape.gets_need.1 hx
  rw [child?_shape] at hchild
  obtain ⟨m, hm, rfl⟩ := Option.map_eq_some_iff.1 hchild
  exact ⟨m, hm, List.mem_of_find?_eq_some hm, ht⟩

theorem Placed.span_shape (h : n.Placed source) : (n.shape source).span = .ofRegion n.region := by
  obtain ⟨marked, -, -, -⟩ := h
  exact congrArg Span.ofRegion (Region.forward_eq marked.forward)

/-- The clauses and the body that a node is read as are those of a chain. -/
def Unfolds (source : List Char) (n : Node) (cs : List Clause) (body : Expr) : Prop :=
  ∃ ms b, n.Chain ms b ∧ List.Forall₂ Clause.IsOf cs ms ∧
    ∃ c d, Gets (b.reading source).expr c body d

theorem unfolds_body {e : Expr} (hn : n.clauseRole? = none) {c d : Context}
    (h : Gets (n.reading source).expr c e d) : n.Unfolds source [] e :=
  ⟨[], n, .body hn, .nil, c, d, h⟩

theorem Unfolds.clause {m : Node} {cs : List Clause} {e : Expr} {r : Role} {k : Clause}
    (h : m.Unfolds source cs e) (hn : n.clauseRole? = some r) (hm : n.child? r = some m)
    (hk : k.IsOf n) : n.Unfolds source (k :: cs) e := by
  obtain ⟨ms, b, hchain, hcs, hbody⟩ := h
  exact ⟨n :: ms, b, .clause hn hm hchain, .cons hk hcs, hbody⟩

/-- The tail of a comprehension goes along a chain of nodes. -/
theorem Placed.unfolds (h : n.Placed source) {c d : Context} {t : List Clause × Expr}
    (hg : Gets (n.reading source).tail c t d) : n.Unfolds source t.1 t.2 := by
  induction h generalizing c d t with
  | @mk n marked inside inOrder inner ih =>
    have hspan := (Placed.mk marked inside inOrder inner).span_shape
    -- what is read from the child behind a clause
    have hrest : ∀ {r : Role} {c d : Context} {t : List Clause × Expr} {k : Clause},
        n.clauseRole? = some r → Gets ((n.shape source).tailIn r) c t d →
          (n.shape source).label = .form k.form → k.span = (n.shape source).span →
            n.Unfolds source (k :: t.1) t.2 := by
      intro r c d t k hr ht hl hs
      obtain ⟨m, hm, hmem, ht⟩ := gets_tailIn ht
      exact (ih m hmem ht).clause hr hm ⟨kind_of_label (by cases k <;> simp [Clause.form]) hl,
        hs.trans hspan⟩
    have hbody : n.clauseRole? = none →
        Gets (do let e ← (n.shape source).asExpr; pure (([] : List Clause), e)) c t d →
          n.Unfolds source t.1 t.2 := by
      intro hn hg
      obtain ⟨e, d', he, ht⟩ := gets_bind.1 hg
      obtain ⟨rfl, -⟩ := gets_pure.1 ht
      exact unfolds_body hn (by rw [reading_eq]; exact he)
    rw [reading_eq] at hg
    replace hg : Gets ((n.shape source).asTail (n.shape source).asExpr) c t d := hg
    unfold Shape.asTail at hg
    dsimp only at hg
    split at hg <;> rename_i hl
    · have hkind := kind_of_label (by simp) hl
      simp only [gets_inScope, gets_bind, gets_pure] at hg
      obtain ⟨_, ⟨head, _, -, t, _, ht, rfl, rfl⟩, rfl⟩ := hg
      exact hrest (by simp [clauseRole?, hkind]) ht hl rfl
    · have hkind := kind_of_label (by simp) hl
      have halt := @child?_shape source n .alternative
      split at hg <;> rename_i hchild
      · refine hbody ?_ hg
        rw [hchild] at halt
        obtain ⟨m, hm, -⟩ := Option.map_eq_some_iff.1 halt.symm
        simp [clauseRole?, hkind, hm]
      · rw [hchild] at halt
        simp only [gets_bind, gets_pure] at hg
        obtain ⟨cond, _, -, t, _, ht, rfl, rfl⟩ := hg
        exact hrest (by simp [clauseRole?, hkind, Option.map_eq_none_iff.1 halt.symm]) ht hl rfl
    · have hkind := kind_of_label (by simp) hl
      simp only [gets_inScope, gets_bind, gets_pure] at hg
      obtain ⟨_, ⟨bs, _, -, t, _, ht, rfl, rfl⟩, rfl⟩ := hg
      exact hrest (by simp [clauseRole?, hkind]) ht hl rfl
    · rename_i h1 h2
      refine hbody ?_ hg
      unfold clauseRole?
      split <;> rename_i hkind
      · exact absurd (congrArg Label.ofKind hkind) h1
      · exact absurd (congrArg Label.ofKind hkind) hl
      · exact absurd (congrArg Label.ofKind hkind) h2
      · rfl

theorem child?_none_of_optional {x : Shape} {r : Role} {c d : Context}
    (h : Gets (x.optional r Reading.expr) c none d) : x.child? r = none := by
  unfold Shape.optional at h
  split at h
  · simp only [gets_bind, gets_pure] at h
    obtain ⟨_, _, -, ho, -⟩ := h
    cases ho
  · assumption

theorem Chain.stops {b : Node} {ms : List Node} (h : n.Chain ms b) : b.clauseRole? = none := by
  induction h with
  | body hn => exact hn
  | clause _ _ _ ih => exact ih

/-- What a node is read as that is no clause is none either. -/
theorem isClause_of_gets (hn : n.clauseRole? = none) {c d : Context} {e : Expr}
    (h : Gets (n.reading source).expr c e d) : e.isClause = false := by
  rw [reading_eq] at h
  replace h : Gets (n.shape source).asExpr c e d := h
  have hl : (n.shape source).label = .form e.form := Shape.form_asExpr c e d h
  cases e with
  | comprehension head cs body s =>
    have hkind : n.kind = .form .listComprehension := kind_of_label (by simp) hl
    simp [clauseRole?, hkind] at hn
  | letIn bs body s =>
    have hkind : n.kind = .form .letExpression := kind_of_label (by simp) hl
    simp [clauseRole?, hkind] at hn
  | choice cond yes no s =>
    have hkind : n.kind = .form .ifComprehension := kind_of_label (by simp) hl
    cases no with
    | some e => rfl
    | none =>
      unfold Shape.asExpr at h
      simp only [hl, Expr.form, gets_bind, gets_pure] at h
      obtain ⟨_, _, -, _, _, -, o, _, ho, he, -⟩ := h
      obtain rfl : none = o := (Expr.choice.inj he).2.2.1
      have halt := child?_none_of_optional ho
      rw [child?_shape, Option.map_eq_none_iff] at halt
      simp [clauseRole?, hkind, halt] at hn
  | _ => rfl

theorem Unfolds.isClause {cs : List Clause} {e : Expr} (h : n.Unfolds source cs e) :
    e.isClause = false := by
  obtain ⟨ms, b, hchain, -, c, d, hbody⟩ := h
  exact isClause_of_gets hchain.stops hbody

/-- A comprehension is read from a loop, and its clauses and its body from what is behind it. -/
theorem Placed.unfolds_comprehension (h : n.Placed source) {c d : Context} {head : LoopHead}
    {cs : List Clause} {body : Expr} {s : Span}
    (hg : Gets (n.reading source).expr c (.comprehension head cs body s) d) :
    (Clause.loop head s).IsOf n ∧ ∃ m, n.child? .body = some m ∧ m.Unfolds source cs body := by
  rw [reading_eq] at hg
  replace hg : Gets (n.shape source).asExpr c (.comprehension head cs body s) d := hg
  have hl : (n.shape source).label = .form .listComprehension := Shape.form_asExpr c _ d hg
  unfold Shape.asExpr at hg
  simp only [hl, gets_inScope, gets_bind, gets_pure, Expr.comprehension.injEq] at hg
  obtain ⟨_, ⟨head, _, -, t, _, ht, ⟨rfl, rfl, rfl, rfl⟩, rfl⟩, rfl⟩ := hg
  obtain ⟨m, hm, hmem, ht⟩ := gets_tailIn ht
  refine ⟨⟨kind_of_label (.inl rfl) hl, h.span_shape⟩, m, hm, ?_⟩
  obtain ⟨-, -, -, inner⟩ := h
  exact (inner m hmem).unfolds ht

theorem Placed.throughout {root : Node} (h : n.Placed source) (hn : n.Within root) :
    n.Throughout fun m => m.Within root ∧ m.Placed source := by
  induction h with
  | @mk n marked inside inOrder inner ih =>
    refine .mk ⟨hn, .mk marked inside inOrder inner⟩ fun c hc => ih c hc ?_
    exact Within.trans (.child hc (.self c)) hn

end Node

/-! ## Programs -/

namespace Program

variable {source : List Char} {p : Program}

/-- Every expression is what some node of the tree is read as. -/
theorem read_of_mem (h : Program.parse source = .ok p) {e : Expr} (he : .expr e ∈ p.elements) :
    ∃ n : Node, n.Within (SyntaxTree.ofSource source).root ∧ n.Placed source ∧
      ∃ c d, Gets (n.reading source).expr c e d := by
  obtain ⟨nodes, t, hparse, rfl⟩ := nodes_of_parse h
  have hplaced := (Grammar.items_lined hparse).placed
  refine every_of_nodes (P := fun e => ∃ n : Node, n.Within (SyntaxTree.ofSource source).root ∧
    n.Placed source ∧ ∃ c d, Gets (n.reading source).expr c e d) h hparse (fun n hn => ?_) e he
  refine ((hplaced n hn).throughout (.child hn (.self n))).imp fun m hm => ?_
  exact fun c e d hg => ⟨m, hm.1, hm.2, c, d, hg⟩

/-- Comprehensions are in normal form. The body of each is none of what would be a clause, and its
clauses stand for the nodes between its first loop and the body, one for each and in order. Loops,
choices and spreads stand only where elements of a list are wanted. A comprehension opens one scope,
and one more for each clause that is a loop or bindings, each the child of the one before. Apart
from the root, there are no scopes but those that elements open. -/
theorem comprehensions_normal (h : Program.parse source = .ok p) :
    (∀ head cs body s, .expr (.comprehension head cs body s) ∈ p.elements →
      body.isClause = false ∧
      (∃ n m : Node, n.Within (SyntaxTree.ofSource source).root ∧
        (Clause.loop head s).IsOf n ∧ n.child? .body = some m ∧ m.Unfolds source cs body) ∧
      p.context.Nests
        ((.comprehension, s) :: (cs.map Element.clause).filterMap Element.opens?)) ∧
    (∀ e, .expr e ∈ p.elements → e.isGenerator = true →
      p.Stands true (.expr e) ∧ ¬ p.Stands false (.expr e)) ∧
    (p.context.scopes.map Scope.head).Perm
      ((.root, p.span) :: p.elements.filterMap Element.opens?) := by
  refine ⟨fun head cs body s he => ?_, fun e he hgen => ?_, scopes_of_elements h⟩
  · obtain ⟨n, hn, hplaced, c, d, hg⟩ := read_of_mem h he
    obtain ⟨hloop, m, hm, hunfolds⟩ := hplaced.unfolds_comprehension hg
    exact ⟨hunfolds.isClause, ⟨n, m, hn, hloop, hm, hunfolds⟩, comprehension_nests h he⟩
  · have hclosed : ¬ p.Stands false (.expr e) := by
      intro hstands
      have hvalue := (isValue_of_stands (settled_of_parse h) hstands).2 rfl e rfl
      rw [Expr.isGenerator_of_isValue hvalue] at hgen
      cases hgen
    obtain ⟨wanted, hstands⟩ := stands_of_mem he
    cases wanted with
    | true => exact ⟨hstands, hclosed⟩
    | false => exact absurd hstands hclosed

/-- Two loops, a filter and bindings before a body, and bindings before a spread in a branch of a
choice. -/
theorem comprehensions_normal_nested :
    ∃ p, Program.parse
        "x = [for (i=v) for (j=w) if (j) let (k=i) k, if (b) let (c=1) each d];".toList = .ok p ∧
      p.items.map (fun
        | .variableDef _ (.list (.comprehension _ cs body _ :: es) _) _ =>
          (cs.map Clause.form, body.form, es.map Expr.form)
        | _ => ([], .list, [])) =
        [([.listComprehension, .ifComprehension, .letExpression], .identifier,
          [.ifComprehension])] ∧
      p.context.scopes.map (fun s => (s.kind, s.parent)) =
        [(.root, none), (.comprehension, some 0), (.comprehension, some 1), (.letIn, some 2),
          (.letIn, some 0)] ∧
      (∀ head cs body s, .expr (.comprehension head cs body s) ∈ p.elements →
        body.isClause = false ∧
        (∃ n m : Node, n.Within (SyntaxTree.ofSource
            "x = [for (i=v) for (j=w) if (j) let (k=i) k, if (b) let (c=1) each d];".toList).root ∧
          (Clause.loop head s).IsOf n ∧ n.child? .body = some m ∧ m.Unfolds
            "x = [for (i=v) for (j=w) if (j) let (k=i) k, if (b) let (c=1) each d];".toList
            cs body) ∧
        p.context.Nests
          ((.comprehension, s) :: (cs.map Element.clause).filterMap Element.opens?)) ∧
      (∀ e, .expr e ∈ p.elements → e.isGenerator = true →
        p.Stands true (.expr e) ∧ ¬ p.Stands false (.expr e)) ∧
      (p.context.scopes.map Scope.head).Perm
        ((.root, p.span) :: p.elements.filterMap Element.opens?) := by
  have hok : (SyntaxTree.ofSource
      "x = [for (i=v) for (j=w) if (j) let (k=i) k, if (b) let (c=1) each d];".toList).faults =
        [] := by
    decide +kernel
  have hforms : (Program.parse
      "x = [for (i=v) for (j=w) if (j) let (k=i) k, if (b) let (c=1) each d];".toList).toOption.map
        (fun p => p.items.map (fun
          | .variableDef _ (.list (.comprehension _ cs body _ :: es) _) _ =>
            (cs.map Clause.form, body.form, es.map Expr.form)
          | _ => ([], .list, []))) =
      some [([.listComprehension, .ifComprehension, .letExpression], .identifier,
        [.ifComprehension])] := by
    decide +kernel
  have hscopes : (Program.parse
      "x = [for (i=v) for (j=w) if (j) let (k=i) k, if (b) let (c=1) each d];".toList).toOption.map
        (fun p => p.context.scopes.map (fun s => (s.kind, s.parent))) =
      some [(.root, none), (.comprehension, some 0), (.comprehension, some 1), (.letIn, some 2),
        (.letIn, some 0)] := by
    decide +kernel
  obtain ⟨p, hp, -⟩ := parse_of_faultless hok
  rw [hp] at hforms hscopes
  exact ⟨p, hp, Option.some.inj hforms, Option.some.inj hscopes, comprehensions_normal hp⟩

end Program
end Scad
