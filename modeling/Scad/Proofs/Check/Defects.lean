import Scad.Check.Strict

/-!
# Defects of matrices and steps of zero

What is wrong with a matrix is said here by what its parts stand for, row by row, and without the
functions that look for it: `Matrix.Defective` holds of exactly what is found (`Matrix.defect_iff`).
The same is done for zeros as they are written (`Strict.isLiteralZero_iff`).
-/

namespace Scad

/-! ## What expressions look like -/

namespace Expr

/-- An element of a list that may give any number of values. -/
inductive Generates : Expr → Prop
  | each (a : Expr) (s : Span) : Generates (.each a s)
  | comprehension (head : LoopHead) (clauses : List Clause) (body : Expr) (s : Span) :
    Generates (.comprehension head clauses body s)
  | choice (cond then_ : Expr) (else_ : Option Expr) (s : Span) :
    Generates (.choice cond then_ else_ s)
  | letIn (bindings : List Assignment) (body : Expr) (s : Span) : Generates (.letIn bindings body s)

/-- Something that is seen to be no list. -/
inductive Flat : Expr → Prop
  | literal (v : Literal) (s : Span) : Flat (.literal v s)
  | range (first : Expr) (step : Option Expr) (last : Expr) (s : Span) :
    Flat (.range first step last s)

/-- Zero as it is written: the number, with signs and parentheses around it. -/
inductive WrittenZero : Expr → Prop
  | number {x : Double} {s : Span} (zero : x.isZero = true) : WrittenZero (.literal (.number x) s)
  | negative {a : Expr} {s : Span} (inner : WrittenZero a) : WrittenZero (.unary .neg a s)
  | positive {a : Expr} {s : Span} (inner : WrittenZero a) : WrittenZero (.unary .pos a s)
  | paren {a : Expr} {s : Span} (inner : WrittenZero a) : WrittenZero (.paren a s)

end Expr

namespace Matrix

theorem isGenerated_iff {e : Expr} : isGenerated e = true ↔ e.Generates := by
  constructor
  · intro h
    cases e <;> first | constructor | cases h
  · rintro (_ | _ | _ | _) <;> rfl

theorem any_isGenerated_eq_false {es : List Expr} :
    es.any isGenerated = false ↔ ∀ e ∈ es, ¬ e.Generates := by
  simp [← isGenerated_iff]

/-! ## What expressions stand for -/

variable (c : Context)

/-- An expression is seen to stand for another one, through so many parentheses and names: a name
stands for what the value of its innermost declaration stands for. -/
inductive Means : Nat → Expr → Expr → Prop
  | self {e : Expr} (bare : ∀ inner s, e ≠ .paren inner s) (known : ∀ n, e ≠ .ident n) : Means 0 e e
  | paren {k : Nat} {inner e : Expr} {s : Span} (means : Means k inner e) :
    Means (k + 1) (.paren inner s) e
  | name {k : Nat} {n : Name} {b : Binding} {value e : Expr}
    (declared : c.lookup (c.scopeAt n.span) n.text = some b) (given : b.value = some value)
    (means : Means k value e) : Means (k + 1) (.ident n) e

/-- It takes no more steps than are taken. -/
def Stands (e r : Expr) : Prop := ∃ k < resolveDepth, Means c k e r

variable {c}

theorem resolve_iff {n : Nat} {e r : Expr} :
    resolve c n e = some r ↔ ∃ k < n, Means c k e r := by
  induction n generalizing e with
  | zero => simp [resolve]
  | succ n ih =>
    constructor
    · intro h
      cases e with
      | paren inner s =>
        obtain ⟨k, hk, hmeans⟩ := ih.1 h
        exact ⟨k + 1, Nat.succ_lt_succ hk, .paren hmeans⟩
      | ident name =>
        obtain ⟨value, hvalue, hresolve⟩ := Option.bind_eq_some_iff.1 h
        obtain ⟨b, hb, hgiven⟩ := Option.bind_eq_some_iff.1 hvalue
        obtain ⟨k, hk, hmeans⟩ := ih.1 hresolve
        exact ⟨k + 1, Nat.succ_lt_succ hk, .name hb hgiven hmeans⟩
      | _ =>
        obtain rfl := Option.some.inj h
        exact ⟨0, Nat.succ_pos n, .self nofun nofun⟩
    · rintro ⟨k, hk, hmeans⟩
      cases hmeans with
      | self bare known =>
        cases r with
        | paren inner s => exact absurd rfl (bare inner s)
        | ident name => exact absurd rfl (known name)
        | _ => rfl
      | paren hmeans => exact ih.2 ⟨_, Nat.lt_of_succ_lt_succ hk, hmeans⟩
      | name hb hgiven hmeans =>
        rw [resolve, hb, Option.bind_some, hgiven, Option.bind_some]
        exact ih.2 ⟨_, Nat.lt_of_succ_lt_succ hk, hmeans⟩

theorem resolve_eq_some {e r : Expr} : resolve c resolveDepth e = some r ↔ Stands c e r :=
  resolve_iff

/-! ## Rows -/

variable (c)

/-- The row in this place, counted from one, is seen to be no list, or to have the wrong number of
columns. -/
inductive RowDefective (index : Nat) (row : Expr) : MatrixDefect → Prop
  | notList {r : Expr} (stands : Stands c row r) (flat : r.Flat) :
    RowDefective index row (.rowNotList index)
  | columns {elements : List Expr} {s : Span} (stands : Stands c row (.list elements s))
    (counted : ∀ e ∈ elements, ¬ e.Generates) (wrong : elements.length ≠ matrixColumns) :
    RowDefective index row (.columns index elements.length)

/-- A matrix is seen to be no list, to have too few rows or too many, or to have a defective row. Of
several rows the first one counts. -/
inductive Defective (matrix : Expr) : MatrixDefect → Prop
  | notList {r : Expr} (stands : Stands c matrix r) (flat : r.Flat) : Defective matrix .notList
  | rows {rows : List Expr} {s : Span} (stands : Stands c matrix (.list rows s))
    (counted : ∀ e ∈ rows, ¬ e.Generates)
    (wrong : rows.length < matrixMinRows ∨ matrixMaxRows < rows.length) :
    Defective matrix (.rows rows.length)
  | row {front back : List Expr} {row : Expr} {s : Span} {d : MatrixDefect}
    (stands : Stands c matrix (.list (front ++ row :: back) s))
    (counted : ∀ e ∈ front ++ row :: back, ¬ e.Generates)
    (least : matrixMinRows ≤ (front ++ row :: back).length)
    (most : (front ++ row :: back).length ≤ matrixMaxRows)
    (sound : ∀ r ∈ front, ∀ i d, ¬ RowDefective c i r d)
    (defective : RowDefective c (front.length + 1) row d) : Defective matrix d

variable {c} {d : MatrixDefect}

theorem rowDefect_iff {i : Nat} {row : Expr} :
    rowDefect c i row = some d ↔ RowDefective c i row d := by
  unfold rowDefect
  constructor
  · intro h
    split at h
    · rename_i elements s hr
      split at h
      · cases h
      · rename_i hcounted
        obtain ⟨hcounted, hwrong⟩ := not_or.1 hcounted
        obtain rfl := Option.some.inj h
        refine .columns (resolve_eq_some.1 hr) (any_isGenerated_eq_false.1 ?_) hwrong
        exact Bool.eq_false_iff.2 hcounted
    · rename_i v s hr
      obtain rfl := Option.some.inj h
      exact .notList (resolve_eq_some.1 hr) (.literal v s)
    · rename_i first step last s hr
      obtain rfl := Option.some.inj h
      exact .notList (resolve_eq_some.1 hr) (.range first step last s)
    · cases h
  · rintro (⟨stands, flat⟩ | ⟨stands, counted, wrong⟩)
    · rw [resolve_eq_some.2 stands]
      cases flat <;> rfl
    · rw [resolve_eq_some.2 stands]
      refine if_neg (not_or.2 ⟨?_, wrong⟩)
      rw [any_isGenerated_eq_false.2 counted]
      decide

theorem rowDefect_eq_none {i : Nat} {row : Expr} :
    rowDefect c i row = none ↔ ∀ d, ¬ RowDefective c i row d := by
  simp only [← rowDefect_iff, Option.eq_none_iff_forall_ne_some, ne_eq]

/-- Whether a row has a defect does not depend on its place. -/
theorem RowDefective.move {i : Nat} {row : Expr} (h : RowDefective c i row d) (j : Nat) :
    ∃ d, RowDefective c j row d := by
  cases h with
  | notList stands flat => exact ⟨_, .notList stands flat⟩
  | columns stands counted wrong => exact ⟨_, .columns stands counted wrong⟩

theorem rowsDefect_iff {rows : List Expr} {i : Nat} : rowsDefect c i rows = some d ↔
    ∃ front row back, rows = front ++ row :: back ∧ (∀ r ∈ front, ∀ j d, ¬ RowDefective c j r d) ∧
      RowDefective c (i + front.length) row d := by
  induction rows generalizing i with
  | nil => simp [rowsDefect]
  | cons row rows ih =>
    rw [rowsDefect]
    split
    · rename_i d' hrow
      have hrow := rowDefect_iff.1 hrow
      constructor
      · rintro h
        obtain rfl := Option.some.inj h
        exact ⟨[], row, rows, rfl, nofun, hrow⟩
      · rintro ⟨front, row', back, he, hsound, h⟩
        cases front with
        | nil =>
          obtain ⟨rfl, -⟩ := List.cons.inj he
          exact (rowDefect_iff.2 hrow).symm.trans (rowDefect_iff.2 h)
        | cons r front =>
          obtain ⟨rfl, -⟩ := List.cons.inj he
          exact absurd hrow (hsound row List.mem_cons_self i d')
    · rename_i hrow
      have hrow := rowDefect_eq_none.1 hrow
      rw [ih]
      constructor
      · rintro ⟨front, row', back, rfl, hsound, h⟩
        refine ⟨row :: front, row', back, rfl, List.forall_mem_cons.2 ⟨fun j d hd => ?_, hsound⟩, ?_⟩
        · obtain ⟨d, hd⟩ := hd.move i
          exact hrow d hd
        · rwa [List.length_cons, Nat.add_comm front.length 1, ← Nat.add_assoc]
      · rintro ⟨front, row', back, he, hsound, h⟩
        cases front with
        | nil =>
          obtain ⟨rfl, -⟩ := List.cons.inj he
          exact absurd h (hrow d)
        | cons r front =>
          obtain ⟨rfl, rfl⟩ := List.cons.inj he
          refine ⟨front, row', back, rfl, fun r hr => hsound r (List.mem_cons_of_mem _ hr), ?_⟩
          rwa [List.length_cons, Nat.add_comm front.length 1, ← Nat.add_assoc] at h

/-- What is found to be wrong with a matrix is what is wrong with it. -/
theorem defect_iff {matrix : Expr} : defect c matrix = some d ↔ Defective c matrix d := by
  unfold defect
  constructor
  · intro h
    split at h
    · rename_i rows s hr
      have hr := resolve_eq_some.1 hr
      split at h
      · cases h
      · rename_i hcounted
        have hcounted := any_isGenerated_eq_false.1 (Bool.eq_false_iff.2 hcounted)
        split at h
        · rename_i hwrong
          obtain rfl := Option.some.inj h
          exact .rows hr hcounted hwrong
        · rename_i hright
          obtain ⟨hleast, hmost⟩ := not_or.1 hright
          obtain ⟨front, row, back, rfl, hsound, hrow⟩ := rowsDefect_iff.1 h
          rw [Nat.add_comm] at hrow
          exact .row hr hcounted (Nat.le_of_not_lt hleast) (Nat.le_of_not_lt hmost) hsound hrow
    · rename_i v s hr
      obtain rfl := Option.some.inj h
      exact .notList (resolve_eq_some.1 hr) (.literal v s)
    · rename_i first step last s hr
      obtain rfl := Option.some.inj h
      exact .notList (resolve_eq_some.1 hr) (.range first step last s)
    · cases h
  · intro h
    cases h with
    | notList stands flat =>
      rw [resolve_eq_some.2 stands]
      cases flat <;> rfl
    | rows stands counted wrong =>
      rw [resolve_eq_some.2 stands]
      dsimp only
      rw [any_isGenerated_eq_false.2 counted, if_neg Bool.false_ne_true, if_pos wrong]
    | row stands counted least most sound defective =>
      rw [resolve_eq_some.2 stands]
      dsimp only
      rw [any_isGenerated_eq_false.2 counted, if_neg Bool.false_ne_true,
        if_neg (not_or.2 ⟨Nat.not_lt.2 least, Nat.not_lt.2 most⟩)]
      rw [Nat.add_comm] at defective
      exact rowsDefect_iff.2 ⟨_, _, _, rfl, sound, defective⟩

end Matrix

/-! ## Zeros -/

theorem Strict.isLiteralZero_iff {e : Expr} : isLiteralZero e = true ↔ e.WrittenZero := by
  constructor
  · intro h
    fun_induction isLiteralZero e with
    | case1 a s ih => exact .negative (ih h)
    | case2 a s ih => exact .positive (ih h)
    | case3 a s ih => exact .paren (ih h)
    | case4 x s => exact .number ((Double.equal_zero x).symm.trans h)
    | case5 => cases h
  · intro h
    induction h with
    | number zero => exact (Double.equal_zero _).trans zero
    | negative _ ih | positive _ ih | paren _ ih => exact ih

end Scad
