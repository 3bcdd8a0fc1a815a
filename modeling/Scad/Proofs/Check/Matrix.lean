import Scad.Check.Strict
import Scad.Proofs.Scope.Drawing

/-!
# Matrices that are given by name

A matrix may be a name, in parentheses or not. Then it is judged by the value in the innermost
declaration of the name, whatever declares it: a parameter without a default passes, a parameter with
a default is judged by the default, and the variable of a loop by all that the loop runs over
(`matrix_of_name`). So a call can be refused for a value that it never gets.
-/

namespace Scad

/-! ## Parentheses -/

namespace Expr

/-- What stands in the parentheses. -/
def bare : Expr → Expr
  | paren inner _ => inner.bare
  | e => e

/-- How many parentheses stand around an expression. -/
def parens : Expr → Nat
  | paren inner _ => inner.parens + 1
  | _ => 0

end Expr

namespace Matrix

variable (c : Context)

/-- What is wrong with a matrix that is no name. -/
def shapeDefect : Expr → Option MatrixDefect
  | .list rows _ =>
    if rows.any isGenerated then none
    else if rows.length < matrixMinRows ∨ matrixMaxRows < rows.length then
      some (.rows rows.length)
    else rowsDefect c 1 rows
  | .literal _ _ | .range _ _ _ _ => some .notList
  | _ => none

theorem defect_eq_bind (e : Expr) : defect c e = (resolve c resolveDepth e).bind (shapeDefect c) := by
  unfold defect
  cases resolve c resolveDepth e with
  | none => rfl
  | some r => cases r <;> rfl

/-- A name in parentheses stands for what the value of its innermost declaration stands for, seen in
fewer steps. -/
theorem resolve_name {n : Name} : ∀ (k : Nat) {e : Expr}, e.bare = .ident n → resolve c k e =
    ((c.lookup (c.scopeAt n.span) n.text).bind Binding.value).bind (resolve c (k - (e.parens + 1)))
  | 0, e, _ => by
    rw [Nat.zero_sub]
    exact (Option.bind_fun_none _).symm
  | k + 1, e, h => by
    cases e with
    | paren inner s =>
      rw [Expr.parens, Nat.add_sub_add_right]
      exact resolve_name k h
    | ident x =>
      obtain rfl : x = n := by simpa [Expr.bare] using h
      rfl
    | _ => cases h

end Matrix

namespace Strict

theorem ofMatrix_eq (c : Context) (args : List Arg) : ofMatrix c args =
    ((Matrix.argument? args).bind fun e => (Matrix.defect c e).map
      fun d => ((.matrix d, e.span) : Finding)).toList := by
  unfold ofMatrix
  cases Matrix.argument? args with
  | none => rfl
  | some e => cases hd : Matrix.defect c e <;> simp [hd]

/-- The finding of a matrix, if there is one. -/
theorem matrix_eq_some {c : Context} {e : Option Expr} {v : Violation} {s : Span} :
    e.bind (fun e => (Matrix.defect c e).map fun d => ((.matrix d, e.span) : Finding)) =
      some (v, s) ↔
    ∃ m d, e = some m ∧ Matrix.defect c m = some d ∧ v = .matrix d ∧ s = m.span := by
  simp only [Option.bind_eq_some_iff, Option.map_eq_some_iff, Prod.mk.injEq]
  constructor
  · rintro ⟨m, rfl, d, hd, rfl, rfl⟩
    exact ⟨m, d, rfl, hd, rfl, rfl⟩
  · rintro ⟨m, d, rfl, hd, rfl, rfl⟩
    exact ⟨m, rfl, d, hd, rfl, rfl⟩

theorem mem_ofMatrix {c : Context} {args : List Arg} {v : Violation} {s : Span} :
    (v, s) ∈ ofMatrix c args ↔ ∃ e d, Matrix.argument? args = some e ∧
      Matrix.defect c e = some d ∧ v = .matrix d ∧ s = e.span := by
  rw [ofMatrix_eq, Option.mem_toList]
  exact matrix_eq_some

theorem matrix_not_mem_ofArgs {args : List Arg} {d : MatrixDefect} {s : Span} :
    (Violation.matrix d, s) ∉ ofArgs args := by
  unfold ofArgs
  split <;> simp

/-- A call is refused for its matrix if and only if the matrix has a defect. -/
theorem matrix_mem_findings {c : Context} {name : Name} (hname : name.text = Matrix.moduleName)
    {args : List Arg} {tail : Stmt} {span : Span} {d : MatrixDefect} {s : Span} :
    (Violation.matrix d, s) ∈ findings c (.stmt (.call name args tail span)) ↔
      ∃ e, Matrix.argument? args = some e ∧ Matrix.defect c e = some d ∧ s = e.span := by
  rw [findings, ofStmt, if_pos hname, List.mem_append, or_iff_right matrix_not_mem_ofArgs,
    mem_ofMatrix]
  simp

end Strict

namespace Program

/-- The rule that something is refused for. -/
def refusal? {α : Type} : Except Failure α → Option Violation
  | .error (.violation v _) => some v
  | _ => none

/-- A name that is found in a program was declared in it. -/
theorem declared_of_lookup {source : List Char} {p : Program} (h : parse source = .ok p) {id : Nat}
    {name : String} {b : Binding} (hb : p.context.lookup id name = some b) :
    b ∈ (Item.outlineAll p.items).declared := by
  obtain ⟨s, hs, k, hk⟩ := Context.holds_of_lookupIn hb
  rw [(outline_of_parse h).2] at hs
  rcases Outline.declared_of_holds ⟨s, hs, k, hk⟩ with ⟨s, hs, k, hk⟩ | h
  · obtain rfl := List.mem_singleton.1 hs
    cases hk
  · exact h

/-- A matrix that is given by name is refused for exactly what is wrong with the value that the
innermost declaration of the name has, be it the default of a parameter or all that a loop runs over.
Without such a value, as for a parameter without a default, it passes. -/
theorem matrix_of_name {source : List Char} {p : Program} (h : parse source = .ok p)
    {name n : Name} {args : List Arg} {e : Expr} {b : Binding}
    (hmodule : name.text = Matrix.moduleName) (harg : Matrix.argument? args = some e)
    (hname : e.bare = .ident n)
    (hb : p.context.lookup (p.context.scopeAt n.span) n.text = some b) :
    b ∈ (Item.outlineAll p.items).declared ∧
      ∀ tail span d s,
        (Violation.matrix d, s) ∈ Strict.findings p.context (.stmt (.call name args tail span)) ↔
        s = e.span ∧ ∃ value shape, b.value = some value ∧
          Matrix.resolve p.context (Matrix.resolveDepth - (e.parens + 1)) value = some shape ∧
          Matrix.shapeDefect p.context shape = some d := by
  refine ⟨declared_of_lookup h hb, fun tail span d s => ?_⟩
  have hdefect : Matrix.defect p.context e = ((b.value.bind
      (Matrix.resolve p.context (Matrix.resolveDepth - (e.parens + 1)))).bind
      (Matrix.shapeDefect p.context)) := by
    rw [Matrix.defect_eq_bind, Matrix.resolve_name p.context _ hname, hb]
    rfl
  rw [Strict.matrix_mem_findings hmodule]
  constructor
  · rintro ⟨e', he', hd, rfl⟩
    obtain rfl := Option.some.inj (harg.symm.trans he')
    rw [hdefect] at hd
    obtain ⟨shape, hshape, hd⟩ := Option.bind_eq_some_iff.1 hd
    obtain ⟨value, hvalue, hshape⟩ := Option.bind_eq_some_iff.1 hshape
    exact ⟨rfl, value, shape, hvalue, hshape, hd⟩
  · rintro ⟨rfl, value, shape, hvalue, hshape, hd⟩
    refine ⟨e, harg, ?_, rfl⟩
    rw [hdefect, hvalue, Option.bind_some, hshape, Option.bind_some, hd]

/-- The parameter of a module, in parentheses: it has no default, and the call passes. -/
theorem matrix_of_name_parameter :
    ∃ p n b, parse "module warp(m) multmatrix((m)) cube(1);".toList = .ok p ∧
      n = ⟨"m", .ofRegion ⟨⟨27, 0, 27⟩, ⟨28, 0, 28⟩⟩⟩ ∧
      p.context.lookup (p.context.scopeAt n.span) n.text = some b ∧
      b ∈ (Item.outlineAll p.items).declared ∧
      ∀ tail span d s, (Violation.matrix d, s) ∉ Strict.findings p.context (.stmt
        (.call ⟨Matrix.moduleName, span⟩ [.positional (.paren (.ident n) span)] tail span)) := by
  have hok : (SyntaxTree.ofSource "module warp(m) multmatrix((m)) cube(1);".toList).faults = [] := by
    decide +kernel
  have hlookup : ((parse "module warp(m) multmatrix((m)) cube(1);".toList).toOption.bind fun p =>
      (p.context.lookup (p.context.scopeAt (.ofRegion ⟨⟨27, 0, 27⟩, ⟨28, 0, 28⟩⟩)) "m").map
        fun b => b.value.isNone) = some true := by
    decide +kernel
  obtain ⟨p, hp, -⟩ := parse_of_faultless hok
  rw [hp] at hlookup
  obtain ⟨b, hb, hnone⟩ := Option.map_eq_some_iff.1 hlookup
  obtain ⟨n, hn⟩ : ∃ n : Name, n = ⟨"m", .ofRegion ⟨⟨27, 0, 27⟩, ⟨28, 0, 28⟩⟩⟩ := ⟨_, rfl⟩
  replace hb : p.context.lookup (p.context.scopeAt n.span) n.text = some b := hn ▸ hb
  refine ⟨p, n, b, hp, hn, hb, declared_of_lookup hp hb, fun tail span d s hmem => ?_⟩
  have hmodule : (⟨Matrix.moduleName, span⟩ : Name).text = Matrix.moduleName := rfl
  have hbare : (Expr.paren (.ident n) span).bare = .ident n := rfl
  obtain ⟨-, value, -, hvalue, -⟩ := ((matrix_of_name hp hmodule rfl hbare hb).2 tail span d s).1 hmem
  rw [hvalue] at hnone
  cases hnone

/-- A parameter with a default and the variable of a loop are judged by values that they need not
have. -/
theorem default_and_loop_refused :
    refusal? (parseStrict "module warp(m = 3) multmatrix(m) cube(1);".toList) =
      some (.matrix .notList) ∧
    refusal? (parseStrict "for (m = [a, b]) multmatrix(m) cube(1);".toList) =
      some (.matrix (.rows 2)) := by
  decide +kernel

end Program
end Scad
