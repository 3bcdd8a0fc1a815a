import Mathlib.Tactic.MkIffOfInductiveProp
import Scad.Proofs.Check.Defects
import Scad.Proofs.Check.Flag
import Scad.Proofs.Check.Matrix
import Scad.Proofs.Program.Parts

/-!
# Every broken rule and the first one

The rules are said here without the functions that check them: `Strict.Breaks` tells what a part of
a program breaks, and `mem_findings` that the checks find exactly this. Which of several broken rules
a part is refused for is told by `Strict.BreaksFirst`. A program is strict if and only if none of its
parts breaks a rule, and it is refused for what the first part that breaks one breaks first, where
the parts stand in preorder (`Program.validate_first`).
-/

namespace Scad

/-! ## Names that are repeated -/

/-- The entry `(a, b)` is the first one whose key has occurred before. -/
def Repeats {α β : Type} (entries : List (α × β)) (a : α) (b : β) : Prop :=
  ∃ front back, entries = front ++ (a, b) :: back ∧ (front.map Prod.fst).Nodup ∧
    a ∈ front.map Prod.fst

theorem AssertParam.firstRepeat_eq_some {α β : Type} [DecidableEq α] {entries : List (α × β)}
    {a : α} {b : β} : ∀ {seen : List α}, firstRepeat seen entries = some (a, b) ↔
      ∃ front back, entries = front ++ (a, b) :: back ∧ (front.map Prod.fst).Nodup ∧
        (∀ x ∈ front.map Prod.fst, x ∉ seen) ∧ (a ∈ seen ∨ a ∈ front.map Prod.fst) := by
  induction entries with
  | nil => simp [firstRepeat]
  | cons e entries ih =>
    intro seen
    obtain ⟨k, v⟩ := e
    rw [firstRepeat]
    split
    · rename_i hk
      constructor
      · intro h
        obtain ⟨rfl, rfl⟩ := Prod.mk.inj (Option.some.inj h)
        exact ⟨[], entries, rfl, .nil, by simp, .inl hk⟩
      · rintro ⟨front, back, he, -, hseen, -⟩
        cases front with
        | nil =>
          obtain ⟨he, -⟩ := List.cons.inj he
          rw [he]
        | cons x front =>
          obtain ⟨rfl, -⟩ := List.cons.inj he
          exact absurd hk (hseen k (by simp))
    · rename_i hk
      rw [ih]
      constructor
      · rintro ⟨front, back, rfl, hnodup, hseen, ha⟩
        refine ⟨(k, v) :: front, back, rfl, ?_, ?_, ?_⟩
        · rw [List.map_cons, List.nodup_cons]
          exact ⟨fun h => hseen k h List.mem_cons_self, hnodup⟩
        · rintro x hx
          rcases List.mem_cons.1 hx with rfl | hx
          · exact hk
          · exact fun h => hseen x hx (List.mem_cons_of_mem _ h)
        · rcases ha with ha | ha
          · rcases List.mem_cons.1 ha with rfl | ha
            · exact .inr List.mem_cons_self
            · exact .inl ha
          · exact .inr (List.mem_cons_of_mem _ ha)
      · rintro ⟨front, back, he, hnodup, hseen, ha⟩
        cases front with
        | nil =>
          obtain ⟨he, -⟩ := List.cons.inj he
          obtain ⟨rfl, -⟩ := Prod.mk.inj he
          exact absurd (ha.resolve_right (by simp)) hk
        | cons x front =>
          obtain ⟨rfl, rfl⟩ := List.cons.inj he
          rw [List.map_cons, List.nodup_cons] at hnodup
          refine ⟨front, back, rfl, hnodup.2, fun y hy hmem => ?_, ?_⟩
          · rcases List.mem_cons.1 hmem with rfl | hmem
            · exact hnodup.1 hy
            · exact hseen y (List.mem_cons_of_mem _ hy) hmem
          · rcases ha with ha | ha
            · exact .inl (List.mem_cons_of_mem _ ha)
            · exact (List.mem_cons.1 ha).imp_left fun h => by simp [h]

theorem AssertParam.firstRepeat_iff {α β : Type} [DecidableEq α] {entries : List (α × β)} {a : α}
    {b : β} : firstRepeat [] entries = some (a, b) ↔ Repeats entries a b := by
  simp [firstRepeat_eq_some, Repeats]

theorem not_repeats_nil {α β : Type} {a : α} {b : β} : ¬ Repeats [] a b := by
  simp [Repeats]

/-- Only one entry is the first one that repeats a key. -/
theorem Repeats.unique {α β : Type} [DecidableEq α] {entries : List (α × β)} {a : α} {b b' : β}
    (h : Repeats entries a b) (h' : Repeats entries a b') : b = b' := by
  have heq := (AssertParam.firstRepeat_iff.2 h).symm.trans (AssertParam.firstRepeat_iff.2 h')
  exact (Prod.mk.inj (Option.some.inj heq)).2

/-! ## What the rules speak of -/

/-- The bindings that a loop runs over, with the keyword and the place of the loop. A loop that
counts runs over none. -/
def LoopHead.bindingLists (head : LoopHead) (span : Span) :
    List (String × List Assignment × Span) :=
  match head with
  | iterating bindings => [(Binder.loop.text, bindings, span)]
  | counting _ _ _ => []

def Clause.bindingLists : Clause → List (String × List Assignment × Span)
  | loop head span => head.bindingLists span
  | letIn bindings span => [(Binder.letIn.text, bindings, span)]
  | filter _ _ => []

namespace Part

/-- The lists of bindings that belong to a part, each with its keyword and place. -/
@[simp]
def bindingLists : Part → List (String × List Assignment × Span)
  | stmt (.bound binder bindings _ span) => [(binder.text, bindings, span)]
  | expr (.letIn bindings _ span) => [(Binder.letIn.text, bindings, span)]
  | expr (.comprehension head clauses _ span) =>
    head.bindingLists span ++ clauses.flatMap Clause.bindingLists
  | _ => []

/-- The parameters that a part declares. -/
@[simp]
def params : Part → List Param
  | item (.moduleDef _ params _ _) | item (.functionDef _ params _ _) => params
  | expr (.function params _ _) => params
  | _ => []

/-- The arguments that a part gives. -/
@[simp]
def args : Part → List Arg
  | stmt (.call _ args _ _) | stmt (.assert args _ _) => args
  | expr (.call _ args _) | expr (.guarded _ args _ _) => args
  | _ => []

/-- The arguments that a part gives to an assertion. -/
@[simp]
def assertArgs : Part → List Arg
  | stmt (.assert args _ _) | expr (.guarded .assert args _ _) => args
  | _ => []

/-- The matrix that a part applies. -/
@[simp]
def matrix? : Part → Option Expr
  | stmt (.call name args _ _) =>
    if name.text = Matrix.moduleName then Matrix.argument? args else none
  | _ => none

/-- The step of a range. -/
@[simp]
def step? : Part → Option Expr
  | expr (.range _ step _ _) => step
  | _ => none

end Part

namespace Strict

/-- The named arguments with their places. -/
def namedArgs (args : List Arg) : List (String × Span) :=
  args.filterMap fun a => a.name?.map fun n => (n.text, a.span)

/-- A part breaks a rule at a place: it binds nothing where something has to be bound, it declares a
parameter twice, names an argument twice or binds a parameter of an assertion twice, it applies a
matrix of the wrong shape, or it makes steps of zero. -/
@[mk_iff]
inductive Breaks (c : Context) (q : Part) : Violation → Span → Prop
  | noBindings {keyword : String} {span : Span} (empty : (keyword, [], span) ∈ q.bindingLists) :
    Breaks c q (.emptyBinding keyword) span
  | parameterTwice {name : String} {span : Span}
    (twice : Repeats (q.params.map fun p => (p.name.text, p.span)) name span) :
    Breaks c q (.repeatedParameter name) span
  | argumentTwice {name : String} {span : Span} (twice : Repeats (namedArgs q.args) name span) :
    Breaks c q (.repeatedArgument name) span
  | assertTwice {p : AssertParam} {a : Arg}
    (twice : Repeats (AssertParam.bindings q.assertArgs) p a) :
    Breaks c q (.repeatedAssert p.text) a.span
  | matrix {e : Expr} {d : MatrixDefect} (applied : q.matrix? = some e)
    (defective : Matrix.Defective c e d) : Breaks c q (.matrix d) e.span
  | zeroStep {e : Expr} (step : q.step? = some e) (zero : e.WrittenZero) :
    Breaks c q .zeroStep e.span

/-- What a part is refused for where it breaks more than one rule. An argument that is named twice
goes before what is wrong with the assertion or the matrix, and of several lists without bindings the
first one counts. -/
structure BreaksFirst (c : Context) (q : Part) (v : Violation) (s : Span) : Prop where
  breaks : Breaks c q v s
  argument : ∀ name span, Repeats (namedArgs q.args) name span → v = .repeatedArgument name
  bindings : ∀ keyword, v = .emptyBinding keyword → ∃ front back,
    q.bindingLists = front ++ (keyword, [], s) :: back ∧ ∀ l ∈ front, l.2.1 ≠ []

/-! ## The checks of a part

A part is checked for lists without bindings, then for arguments that are named twice, and then for
at most one rule more. No part has both lists of bindings and arguments. -/

variable {c : Context} {q : Part} {v : Violation} {s : Span}

/-- The findings of lists of bindings. -/
def ofLists (ls : List (String × List Assignment × Span)) : List Finding :=
  ls.flatMap fun l => ofBindings l.1 l.2.1 l.2.2

/-- The finding that is neither about lists of bindings nor about the names of arguments. -/
def other? (c : Context) (q : Part) : Option Finding :=
  (repeated (q.params.map fun p => (p.name.text, p.span))).map
      (fun n => (.repeatedParameter n.1, n.2)) <|>
    (AssertParam.firstRebinding q.assertArgs).map (fun b => (.repeatedAssert b.1.text, b.2.span)) <|>
    q.matrix?.bind (fun e => (Matrix.defect c e).map fun d => (.matrix d, e.span)) <|>
    q.step?.bind fun e => if isLiteralZero e then some (.zeroStep, e.span) else none

theorem ofParams_eq (ps : List Param) : ofParams ps =
    ((repeated (ps.map fun p => (p.name.text, p.span))).map
      fun n => ((.repeatedParameter n.1, n.2) : Finding)).toList := by
  unfold ofParams
  cases repeated (ps.map fun p => (p.name.text, p.span)) <;> rfl

theorem ofArgs_eq (as : List Arg) : ofArgs as =
    ((repeated (namedArgs as)).map fun n => ((.repeatedArgument n.1, n.2) : Finding)).toList := by
  unfold ofArgs namedArgs
  cases repeated (as.filterMap fun a => a.name?.map fun n => (n.text, a.span)) <;> rfl

theorem ofAssertArgs_eq (as : List Arg) : ofAssertArgs as = ofArgs as ++
    ((AssertParam.firstRebinding as).map
      fun b => ((.repeatedAssert b.1.text, b.2.span) : Finding)).toList := by
  unfold ofAssertArgs
  cases AssertParam.firstRebinding as <;> rfl

theorem ofLists_append (ls ms : List (String × List Assignment × Span)) :
    ofLists (ls ++ ms) = ofLists ls ++ ofLists ms := List.flatMap_append

theorem ofLists_head (head : LoopHead) (span : Span) :
    ofLists (head.bindingLists span) = ofLoop head span := by
  cases head <;> simp [ofLists, LoopHead.bindingLists, ofLoop]

theorem ofLists_clauses (clauses : List Clause) :
    ofLists (clauses.flatMap Clause.bindingLists) = clauses.flatMap ofClause := by
  rw [ofLists, List.flatMap_assoc]
  refine List.flatMap_congr fun x _ => ?_
  cases x with
  | loop head span => exact ofLists_head head span
  | letIn bindings span => simp [Clause.bindingLists, ofClause]
  | filter => rfl

/-- The checks of all sorts of parts, one after the other. -/
theorem findings_eq (c : Context) (q : Part) :
    findings c q = ofLists q.bindingLists ++ (ofArgs q.args ++ (other? c q).toList) := by
  have hargs : ofArgs [] = [] := rfl
  have hparams : repeated [] = none := rfl
  have hrebinding : AssertParam.firstRebinding [] = none := rfl
  cases q with
  | item i =>
    cases i <;> simp [findings, ofItem, ofLists, other?, hargs, hparams, hrebinding, ofParams_eq]
  | stmt t =>
    cases t with
    | call name as tail span =>
      by_cases hname : name.text = Matrix.moduleName <;>
        simp [findings, ofStmt, ofLists, other?, hparams, hrebinding, ofMatrix_eq, hname]
    | _ => simp [findings, ofStmt, ofLists, other?, hargs, hparams, hrebinding, ofAssertArgs_eq]
  | expr e =>
    cases e with
    | guarded g as =>
      cases g <;> simp [findings, ofExpr, ofLists, other?, hparams, hrebinding, ofAssertArgs_eq]
    | range first step =>
      cases step with
      | none => simp [findings, ofExpr, ofLists, other?, hargs, hparams, hrebinding]
      | some step =>
        cases hstep : isLiteralZero step <;>
          simp [findings, ofExpr, ofLists, other?, hargs, hparams, hrebinding, hstep]
    | comprehension head clauses =>
      simp [findings, ofExpr, other?, hargs, hparams, hrebinding, ofLists_append, ofLists_head,
        ofLists_clauses]
    | _ => simp [findings, ofExpr, ofLists, other?, hargs, hparams, hrebinding, ofParams_eq]

/-- Lists of bindings stand alone. -/
theorem findings_alone (c : Context) (q : Part) :
    q.bindingLists = [] ∧ findings c q = ofArgs q.args ++ (other? c q).toList ∨
    q.args = [] ∧ findings c q = ofLists q.bindingLists := by
  have hparams : repeated [] = none := rfl
  have hrebinding : AssertParam.firstRebinding [] = none := rfl
  have halone : q.bindingLists = [] ∨ q.args = [] ∧ other? c q = none := by
    cases q with
    | item i => cases i <;> exact .inl rfl
    | stmt t => cases t <;> first | exact .inl rfl | simp [other?, hparams, hrebinding]
    | expr e => cases e <;> first | exact .inl rfl | simp [other?, hparams, hrebinding]
  rw [findings_eq]
  rcases halone with hlists | ⟨hargs, hother⟩
  · exact .inl ⟨hlists, by rw [hlists]; rfl⟩
  · exact .inr ⟨hargs, by rw [hargs, hother]; exact List.append_nil _⟩

/-! ## The checks find what is broken -/

theorem mem_ofLists {ls : List (String × List Assignment × Span)} :
    (v, s) ∈ ofLists ls ↔ ∃ k, (k, [], s) ∈ ls ∧ v = .emptyBinding k := by
  simp only [ofLists, List.mem_flatMap, ofBindings, List.isEmpty_iff]
  constructor
  · rintro ⟨⟨k, bs, span⟩, hl, h⟩
    split at h
    · rename_i hbs
      obtain ⟨rfl, rfl⟩ := Prod.mk.inj (List.mem_singleton.1 h)
      exact ⟨k, hbs ▸ hl, rfl⟩
    · cases h
  · rintro ⟨k, hl, rfl⟩
    exact ⟨(k, [], s), hl, List.mem_singleton_self _⟩

theorem ofLists_cons {ls : List (String × List Assignment × Span)} :
    (∃ rest, ofLists ls = (v, s) :: rest) ↔ ∃ k front back, ls = front ++ (k, [], s) :: back ∧
      (∀ l ∈ front, l.2.1 ≠ []) ∧ v = .emptyBinding k := by
  induction ls with
  | nil => simp [ofLists]
  | cons l ls ih =>
    obtain ⟨k, bs, span⟩ := l
    have hcons : ofLists ((k, bs, span) :: ls) = ofBindings k bs span ++ ofLists ls := rfl
    cases bs with
    | nil =>
      have hempty : ofBindings k [] span = [(.emptyBinding k, span)] := rfl
      rw [hcons, hempty]
      constructor
      · rintro ⟨rest, h⟩
        obtain ⟨rfl, rfl⟩ := Prod.mk.inj (List.cons.inj h).1
        exact ⟨k, [], ls, rfl, nofun, rfl⟩
      · rintro ⟨k', front, back, he, hfront, rfl⟩
        cases front with
        | nil =>
          obtain ⟨he, -⟩ := List.cons.inj he
          obtain ⟨rfl, hspan⟩ := Prod.mk.inj he
          obtain ⟨-, rfl⟩ := Prod.mk.inj hspan
          exact ⟨ofLists ls, rfl⟩
        | cons x front =>
          obtain ⟨rfl, -⟩ := List.cons.inj he
          exact absurd rfl (hfront _ List.mem_cons_self)
    | cons b bs =>
      have hbound : ofBindings k (b :: bs) span = [] := rfl
      rw [hcons, hbound, List.nil_append, ih]
      constructor
      · rintro ⟨k', front, back, rfl, hfront, hv⟩
        refine ⟨k', (k, b :: bs, span) :: front, back, rfl, ?_, hv⟩
        exact List.forall_mem_cons.2 ⟨List.cons_ne_nil b bs, hfront⟩
      · rintro ⟨k', front, back, he, hfront, hv⟩
        cases front with
        | nil =>
          obtain ⟨he, -⟩ := List.cons.inj he
          cases he
        | cons x front =>
          obtain ⟨rfl, rfl⟩ := List.cons.inj he
          exact ⟨k', front, back, rfl, (List.forall_mem_cons.1 hfront).2, hv⟩

/-- The finding of a name that is repeated. -/
theorem mem_repeated {entries : List (String × Span)} {broken : String → Violation} :
    (repeated entries).map (fun n => ((broken n.1, n.2) : Finding)) = some (v, s) ↔
      ∃ name, Repeats entries name s ∧ v = broken name := by
  simp only [← AssertParam.firstRepeat_iff, repeated, Option.map_eq_some_iff, Prod.exists,
    Prod.mk.injEq]
  constructor
  · rintro ⟨name, span, h, rfl, rfl⟩
    exact ⟨name, h, rfl⟩
  · rintro ⟨name, h, rfl⟩
    exact ⟨name, s, h, rfl, rfl⟩

theorem mem_rebinding {as : List Arg} :
    (AssertParam.firstRebinding as).map
      (fun b => ((.repeatedAssert b.1.text, b.2.span) : Finding)) = some (v, s) ↔
    ∃ p a, Repeats (AssertParam.bindings as) p a ∧ v = .repeatedAssert p.text ∧ s = a.span := by
  simp only [← AssertParam.firstRepeat_iff, AssertParam.firstRebinding, Option.map_eq_some_iff,
    Prod.exists, Prod.mk.injEq]
  constructor
  · rintro ⟨p, a, h, rfl, rfl⟩
    exact ⟨p, a, h, rfl, rfl⟩
  · rintro ⟨p, a, h, rfl, rfl⟩
    exact ⟨p, a, h, rfl, rfl⟩

theorem mem_matrix {e : Option Expr} :
    e.bind (fun e => (Matrix.defect c e).map fun d => ((.matrix d, e.span) : Finding)) =
      some (v, s) ↔
    ∃ m d, e = some m ∧ Matrix.Defective c m d ∧ v = .matrix d ∧ s = m.span := by
  simp only [← Matrix.defect_iff]
  exact matrix_eq_some

theorem mem_step {e : Option Expr} :
    e.bind (fun e => if isLiteralZero e then some ((.zeroStep, e.span) : Finding) else none) =
      some (v, s) ↔
    ∃ z, e = some z ∧ z.WrittenZero ∧ v = .zeroStep ∧ s = z.span := by
  simp only [← isLiteralZero_iff, Option.bind_eq_some_iff, Option.ite_none_right_eq_some,
    Option.some.injEq, Prod.mk.injEq]
  constructor
  · rintro ⟨z, rfl, hz, rfl, rfl⟩
    exact ⟨z, rfl, hz, rfl, rfl⟩
  · rintro ⟨z, rfl, hz, rfl, rfl⟩
    exact ⟨z, rfl, hz, rfl, rfl⟩

/-- Of the four rules that come last a part can break one only. -/
theorem other?_iff : other? c q = some (v, s) ↔
    (∃ name, Repeats (q.params.map fun p => (p.name.text, p.span)) name s ∧
      v = .repeatedParameter name) ∨
    (∃ p a, Repeats (AssertParam.bindings q.assertArgs) p a ∧ v = .repeatedAssert p.text ∧
      s = a.span) ∨
    (∃ e d, q.matrix? = some e ∧ Matrix.Defective c e d ∧ v = .matrix d ∧ s = e.span) ∨
    ∃ e, q.step? = some e ∧ e.WrittenZero ∧ v = .zeroStep ∧ s = e.span := by
  rw [← mem_repeated, ← mem_rebinding, ← mem_matrix, ← mem_step]
  have hparams : repeated [] = none := rfl
  have hrebinding : AssertParam.firstRebinding [] = none := rfl
  cases q with
  | item i => cases i <;> simp [other?, hparams, hrebinding]
  | stmt t => cases t <;> simp [other?, hparams, hrebinding]
  | expr e =>
    cases e with
    | guarded g => cases g <;> simp [other?, hparams, hrebinding]
    | _ => simp [other?, hparams, hrebinding]

/-- The checks find exactly what a part breaks. -/
theorem mem_findings : (v, s) ∈ findings c q ↔ Breaks c q v s := by
  rw [findings_eq, ofArgs_eq, breaks_iff]
  simp only [List.mem_append, Option.mem_toList, mem_ofLists, mem_repeated, other?_iff]
  exact or_congr_right or_left_comm

theorem findings_eq_nil : findings c q = [] ↔ ∀ v s, ¬ Breaks c q v s := by
  simp only [← mem_findings, List.eq_nil_iff_forall_not_mem, Prod.forall]

/-- The first finding of a part is what it breaks first. -/
theorem findings_eq_cons : (∃ rest, findings c q = (v, s) :: rest) ↔ BreaksFirst c q v s := by
  constructor
  · rintro ⟨rest, h⟩
    have hbreaks : Breaks c q v s := mem_findings.1 (h ▸ List.mem_cons_self)
    rcases findings_alone c q with ⟨hlists, hq⟩ | ⟨hargs, hq⟩ <;> rw [hq] at h
    · refine ⟨hbreaks, fun name span twice => ?_, fun keyword hv => ?_⟩
      · have hname : repeated (namedArgs q.args) = some (name, span) :=
          AssertParam.firstRepeat_iff.2 twice
        rw [ofArgs_eq, hname] at h
        exact (Prod.mk.inj (List.cons.inj h).1).1.symm
      · subst hv
        cases hbreaks with
        | noBindings empty =>
          rw [hlists] at empty
          cases empty
    · obtain ⟨k, front, back, hls, hfront, rfl⟩ := ofLists_cons.1 ⟨rest, h⟩
      refine ⟨hbreaks, fun name span twice => ?_, fun keyword hv => ?_⟩
      · rw [hargs] at twice
        exact absurd twice not_repeats_nil
      · obtain rfl := Violation.emptyBinding.inj hv
        exact ⟨front, back, hls, hfront⟩
  · rintro ⟨hbreaks, hargument, hbindings⟩
    have hmem := mem_findings.2 hbreaks
    rcases findings_alone c q with ⟨-, hq⟩ | ⟨-, hq⟩ <;> rw [hq] at hmem ⊢
    · rw [ofArgs_eq] at hmem ⊢
      cases hrepeated : repeated (namedArgs q.args) with
      | none =>
        rw [hrepeated] at hmem
        have hother : other? c q = some (v, s) := Option.mem_toList.1 hmem
        exact ⟨[], by rw [hother]; rfl⟩
      | some n =>
        obtain ⟨name, span⟩ := n
        have twice : Repeats (namedArgs q.args) name span :=
          AssertParam.firstRepeat_iff.1 hrepeated
        obtain rfl := hargument name span twice
        cases hbreaks with
        | argumentTwice twice' =>
          obtain rfl := twice.unique twice'
          exact ⟨_, rfl⟩
    · obtain ⟨k, -, rfl⟩ := mem_ofLists.1 hmem
      obtain ⟨front, back, hls, hfront⟩ := hbindings k rfl
      exact ofLists_cons.2 ⟨k, front, back, hls, hfront, rfl⟩

/-! ## Checking part after part -/

theorem check_eq_ok {q : Part} : check c q = .ok () ↔ findings c q = [] := by
  unfold check
  split <;> simp_all

theorem check_eq_error {q : Part} {f : Failure} :
    check c q = .error f ↔ ∃ v s rest, findings c q = (v, s) :: rest ∧ f = .violation v s := by
  unfold check
  split
  · simp_all
  · rename_i v s rest hq
    simpa [hq] using eq_comm

theorem forM_check_eq_ok {parts : List Part} :
    forM parts (check c) = .ok () ↔ ∀ q ∈ parts, findings c q = [] := by
  induction parts with
  | nil => simp [pure, Except.pure]
  | cons q parts ih =>
    rw [List.forM_cons, List.forall_mem_cons, ← ih, ← check_eq_ok]
    cases hq : check c q <;> simp [bind, Except.bind]

/-- The parts are checked in their order up to the first one that breaks a rule. -/
theorem forM_check_eq_error {parts : List Part} {f : Failure} :
    forM parts (check c) = .error f ↔ ∃ front q back, parts = front ++ q :: back ∧
      (∀ b ∈ front, findings c b = []) ∧ check c q = .error f := by
  induction parts with
  | nil => simp [pure, Except.pure]
  | cons q parts ih =>
    rw [List.forM_cons]
    cases hq : check c q with
    | error g =>
      constructor
      · intro h
        exact ⟨[], q, parts, rfl, by simp, hq.trans h⟩
      · rintro ⟨front, q', back, he, hfront, hf⟩
        cases front with
        | nil =>
          obtain ⟨rfl, -⟩ := List.cons.inj he
          exact hq.symm.trans hf
        | cons b front =>
          obtain ⟨rfl, -⟩ := List.cons.inj he
          rw [check_eq_ok.2 (hfront q List.mem_cons_self)] at hq
          cases hq
    | ok u =>
      refine Iff.trans ih ⟨?_, ?_⟩
      · rintro ⟨front, q', back, rfl, hfront, hf⟩
        exact ⟨q :: front, q', back, rfl, List.forall_mem_cons.2 ⟨check_eq_ok.1 hq, hfront⟩, hf⟩
      · rintro ⟨front, q', back, he, hfront, hf⟩
        cases front with
        | nil =>
          obtain ⟨rfl, -⟩ := List.cons.inj he
          rw [hf] at hq
          cases hq
        | cons b front =>
          obtain ⟨rfl, rfl⟩ := List.cons.inj he
          exact ⟨front, q', back, rfl, fun b hb => hfront b (List.mem_cons_of_mem _ hb), hf⟩

end Strict

namespace Program

/-- A program is strict if and only if no item, statement or expression in it breaks a rule.
Otherwise it is refused for what the first one in preorder that breaks one breaks first. The list of
what is found at a part holds what the part breaks and begins with what it breaks first. -/
theorem validate_first (p : Program) :
    (p.validate = .ok () ↔ ∀ q ∈ p.parts, ∀ v s, ¬ Strict.Breaks p.context q v s) ∧
    (∀ f, p.validate = .error f ↔ ∃ front q back v s, p.parts = front ++ q :: back ∧
      (∀ b ∈ front, ∀ v s, ¬ Strict.Breaks p.context b v s) ∧
      Strict.BreaksFirst p.context q v s ∧ f = .violation v s) ∧
    ∀ q v s, ((v, s) ∈ Strict.findings p.context q ↔ Strict.Breaks p.context q v s) ∧
      ((∃ rest, Strict.findings p.context q = (v, s) :: rest) ↔
        Strict.BreaksFirst p.context q v s) := by
  have hvisit : p.validate = forM p.parts (Strict.check p.context) :=
    p.validate_eq.trans (p.visit_eq _)
  refine ⟨?_, fun f => ?_, fun q v s => ⟨Strict.mem_findings, Strict.findings_eq_cons⟩⟩
  · simp only [hvisit, Strict.forM_check_eq_ok, Strict.findings_eq_nil]
  · simp only [hvisit, Strict.forM_check_eq_error, Strict.check_eq_error, Strict.findings_eq_nil,
      ← Strict.findings_eq_cons]
    constructor
    · rintro ⟨front, q, back, hparts, hfront, v, s, rest, hq, hf⟩
      exact ⟨front, q, back, v, s, hparts, hfront, ⟨rest, hq⟩, hf⟩
    · rintro ⟨front, q, back, v, s, hparts, hfront, ⟨rest, hq⟩, hf⟩
      exact ⟨front, q, back, hparts, hfront, v, s, rest, hq, hf⟩

end Program
end Scad
