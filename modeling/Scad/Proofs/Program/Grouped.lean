import Scad.Proofs.Program.Readings

/-!
# Grouped expressions

Operators bind more or less tightly. What stands to the left of an operator binds at least as
tightly, what stands to its right more tightly; powers group the other way round, and a sign binds
looser than a power. Nothing that reaches as far to the right as it can (`let`, a function, a guarded
expression) stands to the left of an operator or a suffix, unless brackets close it.

An expression is `Grouped` if this holds of its own operands. A node is read as a grouped expression
if its children in the roles of operands are read as what may stand there.
-/

namespace Scad

open Read Rule

/-! ## Grouped expressions -/

/-- How tightly an operator binds, from the loosest to the tightest. -/
def BinaryOp.tightness : BinaryOp → Nat
  | .or => 1
  | .and => 2
  | .eq | .ne => 3
  | .lt | .gt | .le | .ge => 4
  | .add | .sub => 5
  | .mul | .div | .mod => 6
  | .pow => 7

namespace Expr

/-- The operator of a binary expression. -/
def binaryOp? : Expr → Option BinaryOp
  | .binary o _ _ _ => some o
  | _ => none

def isUnary : Expr → Bool
  | .unary _ _ _ => true
  | _ => false

def isTernary : Expr → Bool
  | .ternary _ _ _ _ => true
  | _ => false

/-- At its right edge the expression ends with a body that reaches as far as it can: of `let`, of a
function or of a guard. Brackets of any kind close what is in them. -/
def endsOpen : Expr → Bool
  | .letIn _ _ _ | .function _ _ _ | .guarded _ _ (some _) _ => true
  | .unary _ a _ => a.endsOpen
  | .binary _ _ b _ => b.endsOpen
  | .ternary _ _ b _ => b.endsOpen
  | .each a _ => a.endsOpen
  | .comprehension _ _ a _ => a.endsOpen
  | .choice _ _ (some b) _ => b.endsOpen
  | .choice _ a none _ => a.endsOpen
  | .literal _ _ | .ident _ | .special _ | .call _ _ _ | .index _ _ _ | .member _ _ _ | .paren _ _
  | .guarded _ _ none _ | .list _ _ | .range _ _ _ _ => false

/-- The expression itself is not made by an operator. -/
structure Plain (e : Expr) : Prop where
  unary : e.isUnary = false
  binary : e.binaryOp? = none
  ternary : e.isTernary = false

/-- The operands of an expression are what they may be without parentheses around them. -/
def Grouped : Expr → Prop
  | .binary o a b _ =>
    a.isTernary = false ∧ a.endsOpen = false ∧ b.isTernary = false ∧
      if o = .pow then
        a.isUnary = false ∧ a.binaryOp? = none ∧ ∀ o' ∈ b.binaryOp?, o' = .pow
      else
        (∀ o' ∈ a.binaryOp?, o.tightness ≤ o'.tightness) ∧
          ∀ o' ∈ b.binaryOp?, o.tightness < o'.tightness
  | .unary _ a _ => a.isTernary = false ∧ ∀ o ∈ a.binaryOp?, o = .pow
  | .ternary c _ _ _ => c.isTernary = false ∧ c.endsOpen = false
  | .call a _ _ | .index a _ _ | .member a _ _ => a.Plain ∧ a.endsOpen = false
  | _ => True

/-! ## What an operand may be -/

/-- The expression may stand to the left of an operator of this level. -/
structure LeftOf (m : Level) (e : Expr) : Prop where
  ternary : e.isTernary = false
  closed : e.endsOpen = false
  unary : m = .power → e.isUnary = false
  binary : ∀ o ∈ e.binaryOp?, m ≠ .power ∧ m.rank ≤ o.tightness + 1

/-- Whatever operator the token is, the expression may stand to its left. -/
def Before (k : TokenKind) (e : Expr) : Prop := ∀ m, Level.ofToken? k = some m → e.LeftOf m

/-- The operator of the expression, if there is one, is of this level or a tighter one. -/
structure AtLeast (l : Level) (e : Expr) : Prop where
  ternary : e.isTernary = true → l = .ternary
  binary : ∀ o ∈ e.binaryOp?, l.rank ≤ o.tightness + 1

end Expr

/-- With this token no operand goes on: it is no operator and starts no suffix. -/
def TokenKind.Stops (k : TokenKind) : Prop := k.extends = false ∧ Level.ofToken? k = none

/-- The level of a token is that of the operator it stands for. A right operand binds more tightly;
that of a power may be one itself. -/
structure BinaryOp.HasLevel (o : BinaryOp) (m : Level) : Prop where
  rank : m.rank = o.tightness + 1
  power : m = .power ↔ o = .pow
  right : m.ofRight.rank = if o = .pow then 8 else o.tightness + 2
  tighter : m.ofRight ≠ .ternary

theorem BinaryOp.hasLevel {o : BinaryOp} {m : Level} (h : Level.ofToken? o.token = some m) :
    o.HasLevel m := by
  cases o <;> cases h <;> exact ⟨rfl, by decide, rfl, by decide⟩

theorem BinaryOp.eq_pow {o : BinaryOp} (h : 7 ≤ o.tightness) : o = .pow := by
  revert h
  cases o <;> decide

namespace Expr

variable {o : BinaryOp} {m : Level} {a b c : Expr} {k : TokenKind}

theorem grouped_binary (ho : o.HasLevel m) (ha : a.LeftOf m) (hb : b.AtLeast m.ofRight)
    (s : Span) : (Expr.binary o a b s).Grouped := by
  have hternary : b.isTernary = false := by
    by_contra h
    exact ho.tighter (hb.ternary (by simpa using h))
  refine ⟨ha.ternary, ha.closed, hternary, ?_⟩
  have hright := ho.right
  split
  · rename_i hpow
    rw [if_pos hpow] at hright
    refine ⟨ha.unary (ho.power.2 hpow), ?_, fun o' ho' => BinaryOp.eq_pow ?_⟩
    · exact Option.eq_none_iff_forall_not_mem.2 fun o' ho' => (ha.binary o' ho').1 (ho.power.2 hpow)
    · have := hb.binary o' ho'
      omega
  · rename_i hpow
    rw [if_neg hpow] at hright
    have hrank := ho.rank
    refine ⟨fun o' ho' => ?_, fun o' ho' => ?_⟩
    · have := (ha.binary o' ho').2
      omega
    · have := hb.binary o' ho'
      omega

/-- A binary expression may stand to the left of the operator that its right operand ended at. -/
theorem before_binary (ho : o.HasLevel m)
    (hk : ∀ m', Level.ofToken? k = some m' → m'.rank < m.ofRight.rank) (hb : b.Before k) (s : Span) :
    (Expr.binary o a b s).Before k := by
  intro m' hm'
  have hlt := hk m' hm'
  have hright := ho.right
  refine ⟨rfl, (hb m' hm').closed, fun _ => rfl, fun o' ho' => ?_⟩
  obtain rfl : o = o' := Option.some.inj ho'
  -- The right operand of a power may be a power, so a power is never what stops it.
  have hrank : m'.rank < 8 ∧ m'.rank ≤ o.tightness + 1 := by
    have hcases : o = .pow ∧ o.tightness = 7 ∨ o ≠ .pow ∧ o.tightness ≤ 6 := by
      cases o <;> decide
    rcases hcases with ⟨h, ht⟩ | ⟨h, ht⟩
    · rw [if_pos h] at hright
      omega
    · rw [if_neg h] at hright
      omega
  refine ⟨?_, hrank.2⟩
  rintro rfl
  exact absurd hrank.1 (Nat.lt_irrefl 8)

theorem before_unary {o : UnaryOp}
    (hk : ∀ m, Level.ofToken? k = some m → m.rank < Level.power.rank) (ha : a.Before k) (s : Span) :
    (Expr.unary o a s).Before k := by
  intro m hm
  refine ⟨rfl, (ha m hm).closed, ?_, by simp [binaryOp?]⟩
  rintro rfl
  exact absurd (hk _ hm) (Nat.lt_irrefl _)

theorem grouped_unary {o : UnaryOp} (ha : a.AtLeast .power) (s : Span) :
    (Expr.unary o a s).Grouped := by
  refine ⟨?_, fun o' ho' => BinaryOp.eq_pow ?_⟩
  · by_contra h
    exact absurd (ha.ternary (by simpa using h)) (by decide)
  · have : Level.power.rank = 8 := rfl
    have := ha.binary o' ho'
    omega

end Expr

/-! ## What nodes are read as -/

/-- Whatever expression the node is read as has the property. -/
def Node.ReadAs (source : List Char) (Q : Expr → Prop) (n : Node) : Prop :=
  All Q (n.reading source).expr

@[simp]
theorem Node.readAs_inRole {source : List Char} {Q : Expr → Prop} {n : Node} {r : Role} :
    (n.inRole r).ReadAs source Q ↔ n.ReadAs source Q := by
  rw [ReadAs, ReadAs, reading_inRole]

/-- The forms of which the parts are operands. -/
def Form.hasOperands : Form → Bool
  | binaryExpression | unaryExpression | ternaryExpression | functionCall | indexExpression
  | dotIndexExpression => true
  | _ => false

/-- The forms that end with a body that reaches as far as it can. -/
def Form.opens : Form → Bool
  | letExpression | functionLiteral | assertExpression | echoExpression => true
  | _ => false

/-- The forms that nothing goes on with but operators and suffixes. -/
def Form.encloses : Form → Bool
  | number | string | boolean | undef | identifier | specialVariable | list | range
  | parenthesizedExpression => true
  | _ => false

namespace Shape

variable {n : Shape} {f : Form} {Q : Expr → Prop}

/-- What a node of any other form is read as has no operands. If it ends with an open body, this is
the body of the node. -/
theorem all_operand {K : Prop} (hl : n.label = .form f) (hf : f.hasOperands = false)
    (hbody : f.opens = true → ∀ c ∈ n.children, c.role = some .body → All (fun _ => K) c.expr) :
    All (fun e => e.Grouped ∧ e.Plain ∧
      (f.opens = true ∨ f.encloses = true → e.endsOpen = true → K)) n.asExpr := by
  have hclosed : ∀ {e : Expr}, e.Grouped → e.Plain → e.endsOpen = false →
      e.Grouped ∧ e.Plain ∧ (f.opens = true ∨ f.encloses = true → e.endsOpen = true → K) :=
    fun hg hp he => ⟨hg, hp, fun _ h => absurd h (by simp [he])⟩
  unfold Shape.asExpr
  split <;> rename_i h <;> try obtain rfl := Label.form.inj (hl.symm.trans h)
  · exact (all_true _).bind fun _ _ => all_pure (hclosed trivial ⟨rfl, rfl, rfl⟩ rfl)
  · exact (all_true _).bind fun _ _ => all_pure (hclosed trivial ⟨rfl, rfl, rfl⟩ rfl)
  · unfold asNumber
    split
    · exact all_pure (hclosed trivial ⟨rfl, rfl, rfl⟩ rfl)
    · exact all_throw
  · exact all_pure (hclosed trivial ⟨rfl, rfl, rfl⟩ rfl)
  · unfold asBoolean
    split
    · exact all_pure (hclosed trivial ⟨rfl, rfl, rfl⟩ rfl)
    · exact all_pure (hclosed trivial ⟨rfl, rfl, rfl⟩ rfl)
    · exact all_throw
  · exact all_pure (hclosed trivial ⟨rfl, rfl, rfl⟩ rfl)
  · cases hf
  · cases hf
  · cases hf
  · exact (all_true _).bind fun _ _ => all_pure (hclosed trivial ⟨rfl, rfl, rfl⟩ rfl)
  · cases hf
  · cases hf
  · cases hf
  · refine All.inScope ((all_true _).bind fun _ _ => ?_) _ _
    refine (all_need (hbody rfl)).bind fun _ hK => all_pure ?_
    exact ⟨trivial, ⟨rfl, rfl, rfl⟩, fun _ _ => hK⟩
  · refine (all_true _).bind fun _ _ => (all_optional (hbody rfl)).bind fun o ho => all_pure ?_
    cases o with
    | none => exact hclosed trivial ⟨rfl, rfl, rfl⟩ rfl
    | some e => exact ⟨trivial, ⟨rfl, rfl, rfl⟩, fun _ _ => ho e rfl⟩
  · refine (all_true _).bind fun _ _ => (all_optional (hbody rfl)).bind fun o ho => all_pure ?_
    cases o with
    | none => exact hclosed trivial ⟨rfl, rfl, rfl⟩ rfl
    | some e => exact ⟨trivial, ⟨rfl, rfl, rfl⟩, fun _ _ => ho e rfl⟩
  · refine (all_true _).bind fun _ _ => All.inScope ((all_true _).bind fun _ _ => ?_) _ _
    refine (all_need (hbody rfl)).bind fun _ hK => all_pure ?_
    exact ⟨trivial, ⟨rfl, rfl, rfl⟩, fun _ _ => hK⟩
  · exact (all_true _).bind fun _ _ => all_pure (hclosed trivial ⟨rfl, rfl, rfl⟩ rfl)
  · refine (all_true _).bind fun _ _ => (all_true _).bind fun _ _ => ?_
    exact (all_true _).bind fun _ _ => all_pure (hclosed trivial ⟨rfl, rfl, rfl⟩ rfl)
  · refine All.inScope ((all_true _).bind fun _ _ => (all_true _).bind fun _ _ => ?_) _ _
    exact all_pure ⟨trivial, ⟨rfl, rfl, rfl⟩, by simp [Form.opens, Form.encloses]⟩
  · refine (all_true _).bind fun _ _ => (all_true _).bind fun _ _ => (all_true _).bind fun _ _ => ?_
    exact all_pure ⟨trivial, ⟨rfl, rfl, rfl⟩, by simp [Form.opens, Form.encloses]⟩
  · refine (all_true _).bind fun _ _ => ?_
    exact all_pure ⟨trivial, ⟨rfl, rfl, rfl⟩, by simp [Form.opens, Form.encloses]⟩
  · exact all_throw

end Shape

namespace Node

variable {source : List Char} {n : Node}

/-- Whatever the node and the nodes in it are read as is grouped. -/
def Groups (source : List Char) : Node → Prop := Throughout (ReadAs source Expr.Grouped)

theorem Groups.inRole (h : n.Groups source) (r : Role) : (n.inRole r).Groups source := by
  obtain ⟨self, inner⟩ := h
  exact .mk (readAs_inRole.2 self) inner

theorem readAs_form {Q : Expr → Prop} {f : Form} {region : Region} {children : List Node} :
    ReadAs source Q ⟨.form f, region, none, false, children⟩ ↔
      All Q (Shape.asExpr ⟨source, .form f, region.forward, children.map (reading source)⟩) := by
  rw [ReadAs, reading_form]
  rfl

/-- A node without operands is grouped if its children are. -/
theorem groups_of_form {f : Form} (hf : f.hasOperands = false) {region : Region}
    {children : List Node} (h : ∀ c ∈ children, c.Groups source) :
    Groups source ⟨.form f, region, none, false, children⟩ := by
  refine .mk (readAs_form.2 ?_) h
  exact (Shape.all_operand (K := True) rfl hf fun _ _ _ _ => all_true _).imp fun _ he => he.1

end Node

/-! ### Nodes with operands -/

namespace Node

variable {source : List Char} {region : Region} {children : List Node} {A B C : Expr → Prop}

/-- All children in a role are read so. -/
def Reads (source : List Char) (r : Role) (Q : Expr → Prop) (children : List Node) : Prop :=
  ∀ n ∈ children, n.role = some r → n.ReadAs source Q

theorem reads_append {r : Role} {ms : List Node} :
    Reads source r A (children ++ ms) ↔ Reads source r A children ∧ Reads source r A ms :=
  List.forall_mem_append

theorem reads_inRole {r : Role} (h : ∀ n ∈ children, n.ReadAs source A) :
    Reads source r A (children.map (·.inRole r)) :=
  List.forall_mem_map.2 fun n hn _ => readAs_inRole.2 (h n hn)

theorem reads_of_ne {r r' : Role} (h : r' ≠ r) : Reads source r A (children.map (·.inRole r')) :=
  List.forall_mem_map.2 fun _ _ hrole => absurd (Option.some.inj hrole) h

theorem Reads.readings {r : Role} (h : Reads source r A children) :
    ∀ c ∈ children.map (reading source), c.role = some r → All A c.expr :=
  List.forall_mem_map.2 fun n hn hrole => h n hn (by rwa [reading_role] at hrole)

theorem Reads.exprIn {r : Role} {label : Label} (h : Reads source r A children) :
    All A (Shape.exprIn ⟨source, label, region, children.map (reading source)⟩ r) :=
  Shape.all_need h.readings

/-- A binary expression, if its operator is spelled so. -/
theorem all_binary {o : BinaryOp} (hleft : Reads source .left A children)
    (hright : Reads source .right B children)
    (hop : ∀ n ∈ children, n.role = some .operator →
      String.ofList (textIn source (n.reading source).region) = o.text) :
    All (fun e => ∃ a b s, e = .binary o a b s ∧ A a ∧ B b)
      (Shape.asExpr ⟨source, .form .binaryExpression, region, children.map (reading source)⟩) := by
  have hsymbol : All (fun x => x.1 = o.text)
      (Shape.symbolIn ⟨source, .form .binaryExpression, region, children.map (reading source)⟩
        .operator) := by
    refine Shape.all_need (List.forall_mem_map.2 fun n hn hrole => all_pure ?_)
    exact hop n hn (by rwa [reading_role] at hrole)
  show All _ (Shape.asBinary _)
  refine hsymbol.bind fun x hx => ?_
  obtain ⟨symbol, place⟩ := x
  obtain rfl : symbol = o.text := hx
  simp only [BinaryOp.ofText?_text]
  refine hleft.exprIn.bind fun a ha => hright.exprIn.bind fun b hb => all_pure ?_
  exact ⟨a, b, _, rfl, ha, hb⟩

theorem all_unary (h : Reads source .operand A children) :
    All (fun e => ∃ o a s, e = .unary o a s ∧ A a)
      (Shape.asExpr ⟨source, .form .unaryExpression, region, children.map (reading source)⟩) := by
  show All _ (Shape.asUnary _)
  refine (all_true _).bind fun x _ => ?_
  dsimp only
  split
  · exact all_throw
  · exact h.exprIn.bind fun a ha => all_pure ⟨_, a, _, rfl, ha⟩

theorem all_ternary (hcond : Reads source .condition A children)
    (hno : Reads source .alternative B children) :
    All (fun e => ∃ c a b s, e = .ternary c a b s ∧ A c ∧ B b)
      (Shape.asExpr ⟨source, .form .ternaryExpression, region, children.map (reading source)⟩) := by
  refine hcond.exprIn.bind fun c hc => (all_true _).bind fun a _ => ?_
  exact hno.exprIn.bind fun b hb => all_pure ⟨c, a, b, _, rfl, hc, hb⟩

theorem all_call (h : Reads source .function A children) :
    All (fun e => ∃ a as s, e = .call a as s ∧ A a)
      (Shape.asExpr ⟨source, .form .functionCall, region, children.map (reading source)⟩) :=
  h.exprIn.bind fun a ha => (all_true _).bind fun as _ => all_pure ⟨a, as, _, rfl, ha⟩

theorem all_index (h : Reads source .value A children) :
    All (fun e => ∃ a b s, e = .index a b s ∧ A a)
      (Shape.asExpr ⟨source, .form .indexExpression, region, children.map (reading source)⟩) :=
  h.exprIn.bind fun a ha => (all_true _).bind fun b _ => all_pure ⟨a, b, _, rfl, ha⟩

theorem all_member (h : Reads source .value A children) :
    All (fun e => ∃ a n s, e = .member a n s ∧ A a)
      (Shape.asExpr ⟨source, .form .dotIndexExpression, region, children.map (reading source)⟩) :=
  h.exprIn.bind fun a ha => (all_true _).bind fun n _ => all_pure ⟨a, n, _, rfl, ha⟩

end Node

end Scad
