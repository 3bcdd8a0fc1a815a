import Mathlib.Data.List.Forall2
import Scad.Program.Agree

/-!
# What agrees has the same form

Agreement is decided by going through both parts at once. For proofs it is turned round: if two parts
agree wherever they stand, they are of the same form and what they are made of agrees (`matched`).
-/

namespace Scad

/-! ## Lists -/

/-- What goes through two lists side by side says that they are related place by place. -/
theorem forall₂_of_pairwise {α : Type} {one : α → α → Bool} {all : List α → List α → Bool}
    (nil : ∀ bs, all [] bs = bs.isEmpty) (short : ∀ a as, all (a :: as) [] = false)
    (cons : ∀ a as b bs, all (a :: as) (b :: bs) = (one a b && all as bs)) {as bs : List α} :
    all as bs = true ↔ List.Forall₂ (fun a b => one a b = true) as bs := by
  induction as generalizing bs with
  | nil => cases bs <;> simp [nil]
  | cons a as ih => cases bs <;> simp [short, cons, ih]

section

variable {w : Places}

theorem Expr.agreeAll_iff {as bs : List Expr} :
    Expr.agreeAll w as bs = true ↔ List.Forall₂ (fun a b => a.agree w b = true) as bs :=
  forall₂_of_pairwise (by simp [Expr.agreeAll]) (by simp [Expr.agreeAll]) (by simp [Expr.agreeAll])

theorem Arg.agreeAll_iff {as bs : List Arg} :
    Arg.agreeAll w as bs = true ↔ List.Forall₂ (fun a b => a.agree w b = true) as bs :=
  forall₂_of_pairwise (by simp [Arg.agreeAll]) (by simp [Arg.agreeAll]) (by simp [Arg.agreeAll])

theorem Assignment.agreeAll_iff {as bs : List Assignment} :
    Assignment.agreeAll w as bs = true ↔ List.Forall₂ (fun a b => a.agree w b = true) as bs :=
  forall₂_of_pairwise (by simp [Assignment.agreeAll]) (by simp [Assignment.agreeAll])
    (by simp [Assignment.agreeAll])

theorem Param.agreeAll_iff {as bs : List Param} :
    Param.agreeAll w as bs = true ↔ List.Forall₂ (fun a b => a.agree w b = true) as bs :=
  forall₂_of_pairwise (by simp [Param.agreeAll]) (by simp [Param.agreeAll])
    (by simp [Param.agreeAll])

theorem Clause.agreeAll_iff {as bs : List Clause} :
    Clause.agreeAll w as bs = true ↔ List.Forall₂ (fun a b => a.agree w b = true) as bs :=
  forall₂_of_pairwise (by simp [Clause.agreeAll]) (by simp [Clause.agreeAll])
    (by simp [Clause.agreeAll])

theorem Item.agreeAll_iff {as bs : List Item} :
    Item.agreeAll w as bs = true ↔ List.Forall₂ (fun a b => a.agree w b = true) as bs :=
  forall₂_of_pairwise (by simp [Item.agreeAll]) (by simp [Item.agreeAll]) (by simp [Item.agreeAll])

theorem Expr.agreeOption_iff {a b : Option Expr} :
    Expr.agreeOption w a b = true ↔ Option.Rel (fun a b => a.agree w b = true) a b := by
  cases a <;> cases b <;> simp [Expr.agreeOption]

theorem Stmt.agreeOption_iff {a b : Option Stmt} :
    Stmt.agreeOption w a b = true ↔ Option.Rel (fun a b => a.agree w b = true) a b := by
  cases a <;> cases b <;> simp [Stmt.agreeOption]

end

/-! ## Expressions -/

/-- Two expressions of the same form, of which the parts agree. -/
inductive Expr.Matched : Expr → Expr → Prop
  | literal {v v' : Literal} (s s' : Span) (value : v.agree v' = true) :
    Matched (.literal v s) (.literal v' s')
  | ident {n n' : Name} (text : n.text = n'.text) : Matched (.ident n) (.ident n')
  | special {n n' : Name} (text : n.text = n'.text) : Matched (.special n) (.special n')
  | call {f f' : Expr} {as as' : List Arg} (s s' : Span) (callee : f.agree .ignored f' = true)
    (args : Arg.agreeAll .ignored as as' = true) : Matched (.call f as s) (.call f' as' s')
  | index {a a' b b' : Expr} (s s' : Span) (base : a.agree .ignored a' = true)
    (position : b.agree .ignored b' = true) : Matched (.index a b s) (.index a' b' s')
  | member {a a' : Expr} {n n' : Name} (s s' : Span) (text : n.text = n'.text)
    (base : a.agree .ignored a' = true) : Matched (.member a n s) (.member a' n' s')
  | unary (o : UnaryOp) {a a' : Expr} (s s' : Span) (operand : a.agree .ignored a' = true) :
    Matched (.unary o a s) (.unary o a' s')
  | binary (o : BinaryOp) {a a' b b' : Expr} (s s' : Span) (left : a.agree .ignored a' = true)
    (right : b.agree .ignored b' = true) : Matched (.binary o a b s) (.binary o a' b' s')
  | ternary {c c' a a' b b' : Expr} (s s' : Span) (cond : c.agree .ignored c' = true)
    (yes : a.agree .ignored a' = true) (no : b.agree .ignored b' = true) :
    Matched (.ternary c a b s) (.ternary c' a' b' s')
  | paren {a a' : Expr} (s s' : Span) (inner : a.agree .ignored a' = true) :
    Matched (.paren a s) (.paren a' s')
  | letIn {bs bs' : List Assignment} {a a' : Expr} (s s' : Span)
    (bindings : Assignment.agreeAll .ignored bs bs' = true) (body : a.agree .ignored a' = true) :
    Matched (.letIn bs a s) (.letIn bs' a' s')
  | guarded (g : Guard) {as as' : List Arg} {a a' : Option Expr} (s s' : Span)
    (args : Arg.agreeAll .ignored as as' = true) (body : Expr.agreeOption .ignored a a' = true) :
    Matched (.guarded g as a s) (.guarded g as' a' s')
  | list {es es' : List Expr} (s s' : Span) (elements : Expr.agreeAll .ignored es es' = true) :
    Matched (.list es s) (.list es' s')
  | range {a a' c c' : Expr} {b b' : Option Expr} (s s' : Span) (start : a.agree .ignored a' = true)
    (step : Expr.agreeOption .ignored b b' = true) (stop : c.agree .ignored c' = true) :
    Matched (.range a b c s) (.range a' b' c' s')
  | function {ps ps' : List Param} {a a' : Expr} (s s' : Span)
    (params : Param.agreeAll .ignored ps ps' = true) (body : a.agree .ignored a' = true) :
    Matched (.function ps a s) (.function ps' a' s')
  | each {a a' : Expr} (s s' : Span) (inner : a.agree .ignored a' = true) :
    Matched (.each a s) (.each a' s')
  | comprehension {h h' : LoopHead} {cs cs' : List Clause} {a a' : Expr} (s s' : Span)
    (head : h.agree .ignored h' = true) (clauses : Clause.agreeAll .ignored cs cs' = true)
    (body : a.agree .ignored a' = true) :
    Matched (.comprehension h cs a s) (.comprehension h' cs' a' s')
  | choice {c c' a a' : Expr} {b b' : Option Expr} (s s' : Span) (cond : c.agree .ignored c' = true)
    (yes : a.agree .ignored a' = true) (no : Expr.agreeOption .ignored b b' = true) :
    Matched (.choice c a b s) (.choice c' a' b' s')

theorem Expr.matched {e e' : Expr} (h : e.agree .ignored e' = true) : e.Matched e' := by
  cases e with
  | literal v s =>
    cases e' with
    | literal v' s' => exact .literal s s' (by simpa [Expr.agree, Places.ignored] using h)
    | _ => simp [Expr.agree] at h
  | ident n =>
    cases e' with
    | ident n' => exact .ident (by simpa [Expr.agree, Name.agree, Places.ignored] using h)
    | _ => simp [Expr.agree] at h
  | special n =>
    cases e' with
    | special n' => exact .special (by simpa [Expr.agree, Name.agree, Places.ignored] using h)
    | _ => simp [Expr.agree] at h
  | call f as s =>
    cases e' with
    | call f' as' s' =>
      simp only [Expr.agree, Places.ignored, Bool.and_eq_true, true_and] at h
      exact .call s s' h.1 h.2
    | _ => simp [Expr.agree] at h
  | index a b s =>
    cases e' with
    | index a' b' s' =>
      simp only [Expr.agree, Places.ignored, Bool.and_eq_true, true_and] at h
      exact .index s s' h.1 h.2
    | _ => simp [Expr.agree] at h
  | member a n s =>
    cases e' with
    | member a' n' s' =>
      simp only [Expr.agree, Name.agree, Places.ignored, Bool.and_eq_true, true_and, and_true,
        beq_iff_eq] at h
      exact .member s s' h.1 h.2
    | _ => simp [Expr.agree] at h
  | unary o a s =>
    cases e' with
    | unary o' a' s' =>
      simp only [Expr.agree, Places.ignored, Bool.and_eq_true, true_and, beq_iff_eq] at h
      obtain ⟨rfl, ha⟩ := h
      exact .unary o s s' ha
    | _ => simp [Expr.agree] at h
  | binary o a b s =>
    cases e' with
    | binary o' a' b' s' =>
      simp only [Expr.agree, Places.ignored, Bool.and_eq_true, true_and, beq_iff_eq] at h
      obtain ⟨⟨rfl, ha⟩, hb⟩ := h
      exact .binary o s s' ha hb
    | _ => simp [Expr.agree] at h
  | ternary c a b s =>
    cases e' with
    | ternary c' a' b' s' =>
      simp only [Expr.agree, Places.ignored, Bool.and_eq_true, true_and] at h
      exact .ternary s s' h.1.1 h.1.2 h.2
    | _ => simp [Expr.agree] at h
  | paren a s =>
    cases e' with
    | paren a' s' => exact .paren s s' (by simpa [Expr.agree, Places.ignored] using h)
    | _ => simp [Expr.agree] at h
  | letIn bs a s =>
    cases e' with
    | letIn bs' a' s' =>
      simp only [Expr.agree, Places.ignored, Bool.and_eq_true, true_and] at h
      exact .letIn s s' h.1 h.2
    | _ => simp [Expr.agree] at h
  | guarded g as a s =>
    cases e' with
    | guarded g' as' a' s' =>
      simp only [Expr.agree, Places.ignored, Bool.and_eq_true, true_and, beq_iff_eq] at h
      obtain ⟨⟨rfl, has⟩, ha⟩ := h
      exact .guarded g s s' has ha
    | _ => simp [Expr.agree] at h
  | list es s =>
    cases e' with
    | list es' s' => exact .list s s' (by simpa [Expr.agree, Places.ignored] using h)
    | _ => simp [Expr.agree] at h
  | range a b c s =>
    cases e' with
    | range a' b' c' s' =>
      simp only [Expr.agree, Places.ignored, Bool.and_eq_true, true_and] at h
      exact .range s s' h.1.1 h.1.2 h.2
    | _ => simp [Expr.agree] at h
  | function ps a s =>
    cases e' with
    | function ps' a' s' =>
      simp only [Expr.agree, Places.ignored, Bool.and_eq_true, true_and] at h
      exact .function s s' h.1 h.2
    | _ => simp [Expr.agree] at h
  | each a s =>
    cases e' with
    | each a' s' => exact .each s s' (by simpa [Expr.agree, Places.ignored] using h)
    | _ => simp [Expr.agree] at h
  | comprehension l cs a s =>
    cases e' with
    | comprehension l' cs' a' s' =>
      simp only [Expr.agree, Places.ignored, Bool.and_eq_true, true_and] at h
      exact .comprehension s s' h.1.1 h.1.2 h.2
    | _ => simp [Expr.agree] at h
  | choice c a b s =>
    cases e' with
    | choice c' a' b' s' =>
      simp only [Expr.agree, Places.ignored, Bool.and_eq_true, true_and] at h
      exact .choice s s' h.1.1 h.1.2 h.2
    | _ => simp [Expr.agree] at h

/-! ## What expressions are made of -/

inductive Arg.Matched : Arg → Arg → Prop
  | positional {a a' : Expr} (value : a.agree .ignored a' = true) :
    Matched (.positional a) (.positional a')
  | named {n n' : Name} {a a' : Expr} (s s' : Span) (text : n.text = n'.text)
    (value : a.agree .ignored a' = true) : Matched (.named n a s) (.named n' a' s')

theorem Arg.matched {a a' : Arg} (h : a.agree .ignored a' = true) : a.Matched a' := by
  cases a with
  | positional v =>
    cases a' with
    | positional v' => exact .positional (by simpa [Arg.agree] using h)
    | named => simp [Arg.agree] at h
  | named n v s =>
    cases a' with
    | positional => simp [Arg.agree] at h
    | named n' v' s' =>
      simp only [Arg.agree, Name.agree, Places.ignored, Bool.and_eq_true, true_and, and_true,
        beq_iff_eq] at h
      exact .named s s' h.1 h.2

inductive Assignment.Matched : Assignment → Assignment → Prop
  | mk {n n' : Name} {a a' : Expr} (s s' : Span) (text : n.text = n'.text)
    (value : a.agree .ignored a' = true) : Matched (.mk n a s) (.mk n' a' s')

theorem Assignment.matched {b b' : Assignment} (h : b.agree .ignored b' = true) :
    b.Matched b' := by
  obtain ⟨n, v, s⟩ := b
  obtain ⟨n', v', s'⟩ := b'
  simp only [Assignment.agree, Name.agree, Places.ignored, Bool.and_eq_true, true_and, and_true,
    beq_iff_eq] at h
  exact .mk s s' h.1 h.2

inductive Param.Matched : Param → Param → Prop
  | mk {n n' : Name} {a a' : Option Expr} (s s' : Span) (text : n.text = n'.text)
    (default : Expr.agreeOption .ignored a a' = true) : Matched (.mk n a s) (.mk n' a' s')

theorem Param.matched {p p' : Param} (h : p.agree .ignored p' = true) : p.Matched p' := by
  obtain ⟨n, v, s⟩ := p
  obtain ⟨n', v', s'⟩ := p'
  simp only [Param.agree, Name.agree, Places.ignored, Bool.and_eq_true, true_and, and_true,
    beq_iff_eq] at h
  exact .mk s s' h.1 h.2

inductive LoopHead.Matched : LoopHead → LoopHead → Prop
  | iterating {bs bs' : List Assignment} (bindings : Assignment.agreeAll .ignored bs bs' = true) :
    Matched (.iterating bs) (.iterating bs')
  | counting {is is' us us' : List Assignment} {c c' : Expr}
    (init : Assignment.agreeAll .ignored is is' = true) (cond : c.agree .ignored c' = true)
    (update : Assignment.agreeAll .ignored us us' = true) :
    Matched (.counting is c us) (.counting is' c' us')

theorem LoopHead.matched {l l' : LoopHead} (h : l.agree .ignored l' = true) : l.Matched l' := by
  cases l with
  | iterating bs =>
    cases l' with
    | iterating bs' => exact .iterating (by simpa [LoopHead.agree] using h)
    | counting => simp [LoopHead.agree] at h
  | counting is c us =>
    cases l' with
    | iterating => simp [LoopHead.agree] at h
    | counting is' c' us' =>
      simp only [LoopHead.agree, Bool.and_eq_true] at h
      exact .counting h.1.1 h.1.2 h.2

inductive Clause.Matched : Clause → Clause → Prop
  | loop {l l' : LoopHead} (s s' : Span) (head : l.agree .ignored l' = true) :
    Matched (.loop l s) (.loop l' s')
  | filter {c c' : Expr} (s s' : Span) (cond : c.agree .ignored c' = true) :
    Matched (.filter c s) (.filter c' s')
  | letIn {bs bs' : List Assignment} (s s' : Span)
    (bindings : Assignment.agreeAll .ignored bs bs' = true) : Matched (.letIn bs s) (.letIn bs' s')

theorem Clause.matched {c c' : Clause} (h : c.agree .ignored c' = true) : c.Matched c' := by
  cases c with
  | loop l s =>
    cases c' with
    | loop l' s' => exact .loop s s' (by simpa [Clause.agree, Places.ignored] using h)
    | _ => simp [Clause.agree] at h
  | filter x s =>
    cases c' with
    | filter x' s' => exact .filter s s' (by simpa [Clause.agree, Places.ignored] using h)
    | _ => simp [Clause.agree] at h
  | letIn bs s =>
    cases c' with
    | letIn bs' s' => exact .letIn s s' (by simpa [Clause.agree, Places.ignored] using h)
    | _ => simp [Clause.agree] at h

/-! ## Statements and items -/

/-- Two statements of the same form, of which the parts agree. -/
inductive Stmt.Matched : Stmt → Stmt → Prop
  | call {n n' : Name} {as as' : List Arg} {t t' : Stmt} (s s' : Span) (text : n.text = n'.text)
    (args : Arg.agreeAll .ignored as as' = true) (tail : t.agree .ignored t' = true) :
    Matched (.call n as t s) (.call n' as' t' s')
  | block {is is' : List Item} (s s' : Span) (items : Item.agreeAll .ignored is is' = true) :
    Matched (.block is s) (.block is' s')
  | bound (k : Binder) {bs bs' : List Assignment} {t t' : Stmt} (s s' : Span)
    (bindings : Assignment.agreeAll .ignored bs bs' = true) (body : t.agree .ignored t' = true) :
    Matched (.bound k bs t s) (.bound k bs' t' s')
  | choice {c c' : Expr} {a a' : Stmt} {b b' : Option Stmt} (s s' : Span)
    (cond : c.agree .ignored c' = true) (yes : a.agree .ignored a' = true)
    (no : Stmt.agreeOption .ignored b b' = true) : Matched (.choice c a b s) (.choice c' a' b' s')
  | file (k : Link) (p : String) (s s' : Span) : Matched (.file k p s) (.file k p s')
  | assert {as as' : List Arg} {t t' : Stmt} (s s' : Span)
    (args : Arg.agreeAll .ignored as as' = true) (body : t.agree .ignored t' = true) :
    Matched (.assert as t s) (.assert as' t' s')
  | modified (m : Modifier) {t t' : Stmt} (s s' : Span) (stmt : t.agree .ignored t' = true) :
    Matched (.modified m t s) (.modified m t' s')
  | empty (s s' : Span) : Matched (.empty s) (.empty s')

theorem Stmt.matched {t t' : Stmt} (h : t.agree .ignored t' = true) : t.Matched t' := by
  cases t with
  | call n as t s =>
    cases t' with
    | call n' as' t' s' =>
      simp only [Stmt.agree, Name.agree, Places.ignored, Bool.and_eq_true, true_and, and_true,
        beq_iff_eq] at h
      exact .call s s' h.1.1 h.1.2 h.2
    | _ => simp [Stmt.agree] at h
  | block is s =>
    cases t' with
    | block is' s' => exact .block s s' (by simpa [Stmt.agree, Places.ignored] using h)
    | _ => simp [Stmt.agree] at h
  | bound k bs t s =>
    cases t' with
    | bound k' bs' t' s' =>
      simp only [Stmt.agree, Places.ignored, Bool.and_eq_true, true_and, beq_iff_eq] at h
      obtain ⟨⟨rfl, hbs⟩, ht⟩ := h
      exact .bound k s s' hbs ht
    | _ => simp [Stmt.agree] at h
  | choice c a b s =>
    cases t' with
    | choice c' a' b' s' =>
      simp only [Stmt.agree, Places.ignored, Bool.and_eq_true, true_and] at h
      exact .choice s s' h.1.1 h.1.2 h.2
    | _ => simp [Stmt.agree] at h
  | file k p s =>
    cases t' with
    | file k' p' s' =>
      simp only [Stmt.agree, Places.ignored, Bool.and_eq_true, true_and, beq_iff_eq] at h
      obtain ⟨rfl, rfl⟩ := h
      exact .file k p s s'
    | _ => simp [Stmt.agree] at h
  | assert as t s =>
    cases t' with
    | assert as' t' s' =>
      simp only [Stmt.agree, Places.ignored, Bool.and_eq_true, true_and] at h
      exact .assert s s' h.1 h.2
    | _ => simp [Stmt.agree] at h
  | modified m t s =>
    cases t' with
    | modified m' t' s' =>
      simp only [Stmt.agree, Places.ignored, Bool.and_eq_true, true_and, beq_iff_eq] at h
      obtain ⟨rfl, ht⟩ := h
      exact .modified m s s' ht
    | _ => simp [Stmt.agree] at h
  | empty s =>
    cases t' with
    | empty s' => exact .empty s s'
    | _ => simp [Stmt.agree] at h

/-- Two items of the same form, of which the parts agree. -/
inductive Item.Matched : Item → Item → Prop
  | moduleDef {n n' : Name} {ps ps' : List Param} {is is' : List Item} (s s' : Span)
    (text : n.text = n'.text) (params : Param.agreeAll .ignored ps ps' = true)
    (body : Item.agreeAll .ignored is is' = true) :
    Matched (.moduleDef n ps is s) (.moduleDef n' ps' is' s')
  | functionDef {n n' : Name} {ps ps' : List Param} {a a' : Expr} (s s' : Span)
    (text : n.text = n'.text) (params : Param.agreeAll .ignored ps ps' = true)
    (body : a.agree .ignored a' = true) :
    Matched (.functionDef n ps a s) (.functionDef n' ps' a' s')
  | variableDef {n n' : Name} {a a' : Expr} (s s' : Span) (text : n.text = n'.text)
    (value : a.agree .ignored a' = true) : Matched (.variableDef n a s) (.variableDef n' a' s')
  | stmt {t t' : Stmt} (stmt : t.agree .ignored t' = true) : Matched (.stmt t) (.stmt t')

theorem Item.matched {i i' : Item} (h : i.agree .ignored i' = true) : i.Matched i' := by
  cases i with
  | moduleDef n ps is s =>
    cases i' with
    | moduleDef n' ps' is' s' =>
      simp only [Item.agree, Name.agree, Places.ignored, Bool.and_eq_true, true_and, and_true,
        beq_iff_eq] at h
      exact .moduleDef s s' h.1.1 h.1.2 h.2
    | _ => simp [Item.agree] at h
  | functionDef n ps a s =>
    cases i' with
    | functionDef n' ps' a' s' =>
      simp only [Item.agree, Name.agree, Places.ignored, Bool.and_eq_true, true_and, and_true,
        beq_iff_eq] at h
      exact .functionDef s s' h.1.1 h.1.2 h.2
    | _ => simp [Item.agree] at h
  | variableDef n a s =>
    cases i' with
    | variableDef n' a' s' =>
      simp only [Item.agree, Name.agree, Places.ignored, Bool.and_eq_true, true_and, and_true,
        beq_iff_eq] at h
      exact .variableDef s s' h.1 h.2
    | _ => simp [Item.agree] at h
  | stmt t =>
    cases i' with
    | stmt t' => exact .stmt (by simpa [Item.agree] using h)
    | _ => simp [Item.agree] at h

end Scad
