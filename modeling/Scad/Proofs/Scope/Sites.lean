import Scad.Proofs.Grammar.Nested
import Scad.Proofs.Program.RoundTrip
import Scad.Proofs.Scope.Outline

/-!
# Where the outline of a program stands

Reading a node draws an outline: the scopes and names that it leaves in the context are those of the
outline of what was read. As nodes are nested, the outline is laid out in the bytes of the node:
everything in a scope lies inside it, and things that are not in each other are apart. Main statement:
a program that was parsed has the scopes of its outline, and the outline is laid out in the file.
-/

namespace Scad

/-! ## Outlines that are laid out -/

namespace Outline

/-- The bytes that an outline covers. -/
def bytes : Outline → Set Nat
  | nil => ∅
  | name n next => n.span.bytes ∪ next.bytes
  | part _ inner next | binding _ _ inner next | param _ inner next => inner.bytes ∪ next.bytes
  | scope _ s _ _ next => s.bytes ∪ next.bytes

/-- All that is in a scope lies inside it, what stands side by side is apart, and no name is empty. -/
def Laid : Outline → Prop
  | nil => True
  | name n next =>
    n.span.start.byte < n.span.stop.byte ∧ next.Laid ∧ Disjoint n.span.bytes next.bytes
  | part _ inner next | binding _ _ inner next | param _ inner next =>
    inner.Laid ∧ next.Laid ∧ Disjoint inner.bytes next.bytes
  | scope _ s before inner next =>
    before.Laid ∧ inner.Laid ∧ next.Laid ∧ Disjoint before.bytes inner.bytes ∧
      before.bytes ⊆ s.bytes ∧ inner.bytes ⊆ s.bytes ∧ Disjoint s.bytes next.bytes

/-- The outline is laid out in these bytes. -/
structure Fits (B : Set Nat) (o : Outline) : Prop where
  laid : o.Laid
  within : o.bytes ⊆ B

attribute [local simp] bytes Laid

variable {A B : Set Nat} {a b : Outline}

@[simp]
theorem bytes_append : (a ++ b).bytes = a.bytes ∪ b.bytes := by
  induction a <;> simp_all [Set.union_assoc]

theorem laid_append : (a ++ b).Laid ↔ a.Laid ∧ b.Laid ∧ Disjoint a.bytes b.bytes := by
  induction a <;> simp_all <;> tauto

theorem fits_nil : Fits B nil := ⟨trivial, Set.empty_subset B⟩

theorem fits_name {n : Name} (h : n.span.start.byte < n.span.stop.byte) :
    Fits n.span.bytes (name n nil) := by
  refine ⟨⟨h, trivial, by simp⟩, by simp⟩

theorem Fits.mono (h : Fits A a) (hAB : A ⊆ B) : Fits B a := ⟨h.laid, h.within.trans hAB⟩

theorem Fits.append (ha : Fits A a) (hb : Fits B b) (hAB : Disjoint A B) :
    Fits (A ∪ B) (a ++ b) := by
  refine ⟨laid_append.2 ⟨ha.laid, hb.laid, ?_⟩, ?_⟩
  · exact Set.disjoint_of_subset ha.within hb.within hAB
  · rw [bytes_append]
    exact Set.union_subset_union ha.within hb.within

theorem Fits.part (h : Fits B a) (p : Part) : Fits B (part p a nil) :=
  ⟨⟨h.laid, trivial, by simp⟩, by simpa using h.within⟩

theorem Fits.binding (h : Fits B a) (n : Name) (v : Expr) : Fits B (binding n v a nil) :=
  ⟨⟨h.laid, trivial, by simp⟩, by simpa using h.within⟩

theorem Fits.param (h : Fits B a) (p : Param) : Fits B (param p a nil) :=
  ⟨⟨h.laid, trivial, by simp⟩, by simpa using h.within⟩

theorem Fits.scope {s : Span} (ha : Fits A a) (hb : Fits B b) (hAB : Disjoint A B)
    (hA : A ⊆ s.bytes) (hB : B ⊆ s.bytes) (k : ScopeKind) : Fits s.bytes (scope k s a b nil) := by
  refine ⟨⟨ha.laid, hb.laid, trivial, ?_, ha.within.trans hA, hb.within.trans hB, ?_⟩, ?_⟩
  · exact Set.disjoint_of_subset ha.within hb.within hAB
  · simp
  · simp

end Outline

/-! ## Contexts without their registries -/

namespace Context

/-- The scopes alone. -/
def scoping (c : Context) : Context := { c with specials := {}, modules := {}, functions := {} }

variable (c : Context)

@[simp]
theorem scoping_push (k : ScopeKind) (s : Span) : (c.push k s).scoping = c.scoping.push k s := rfl

@[simp]
theorem scoping_pop : c.pop.scoping = c.scoping.pop := by
  unfold pop
  rw [show c.scoping.stack = c.stack from rfl]
  split <;> rfl

@[simp]
theorem scoping_declare (n : Name) (v : Option Expr) :
    (c.declare n v).scoping = c.scoping.declare n v := rfl

@[simp]
theorem scoping_assign (n : Name) (v : Expr) (s : Span) :
    (c.assign n v s).scoping = c.scoping.declare n (some v) := by
  unfold assign
  dsimp only
  split <;> rfl

@[simp]
theorem scoping_defineModule (n : Name) (ps : List Param) (s : Span) :
    (c.defineModule n ps s).scoping = c.scoping := rfl

@[simp]
theorem scoping_defineFunction (n : Name) (ps : List Param) (s : Span) :
    (c.defineFunction n ps s).scoping = c.scoping := rfl

@[simp]
theorem scoping_declareParams (ps : List Param) :
    (c.declareParams ps).scoping = c.scoping.declareParams ps := by
  induction ps generalizing c with
  | nil => rfl
  | cons p ps ih => exact ih (c.declare p.name p.default)

end Context

/-! ## Steps of reading -/

namespace Read

variable {α β : Type} {c d : Context}

/-- The step succeeds and leads from one context to the other. -/
def Gets (m : Read α) (c : Context) (a : α) (d : Context) : Prop := m.run c = (.ok a, d)

@[simp]
theorem gets_pure {a b : α} : Gets (pure a) c b d ↔ b = a ∧ d = c := by
  show ((Except.ok a : Except Failure α), c) = (.ok b, d) ↔ _
  simp [eq_comm]

@[simp]
theorem gets_throw {e : Failure} {a : α} : ¬ Gets (throw e) c a d := by
  show ¬ ((Except.error e : Except Failure α), c) = (.ok a, d)
  simp

@[simp]
theorem gets_bind {m : Read α} {k : α → Read β} {b : β} :
    Gets (m >>= k) c b d ↔ ∃ a e, Gets m c a e ∧ Gets (k a) e b d := by
  show (m >>= k).run c = (.ok b, d) ↔ _
  rw [run_bind]
  constructor
  · intro h
    cases hm : m.run c with
    | mk result e =>
      rw [hm] at h
      cases result with
      | error x => cases (Prod.mk.inj h).1
      | ok a => exact ⟨a, e, hm, h⟩
  · rintro ⟨a, e, hm, hk⟩
    rw [show m.run c = (.ok a, e) from hm]
    exact hk

@[simp]
theorem gets_update {f : Context → Context} {u : Unit} : Gets (update f) c u d ↔ d = f c := by
  show ((Except.ok () : Except Failure Unit), f c) = (.ok u, d) ↔ _
  simp [eq_comm]

@[simp]
theorem gets_inScope {k : ScopeKind} {s : Span} {m : Read α} {a : α} :
    Gets (inScope k s m) c a d ↔ ∃ e, Gets m (c.push k s) a e ∧ d = e.pop := by
  show ((m.run (c.push k s)).1, (m.run (c.push k s)).2.pop) = (.ok a, d) ↔ _
  constructor
  · intro h
    obtain ⟨h1, h2⟩ := Prod.mk.inj h
    exact ⟨_, Prod.ext h1 rfl, h2.symm⟩
  · rintro ⟨e, hm, rfl⟩
    rw [show m.run (c.push k s) = (.ok a, e) from hm]

/-- What the step gives has an outline that is laid out in these bytes, and the step brings the
scopes of this outline into the context. -/
def Draws (out : α → Outline) (B : Set Nat) (m : Read α) : Prop :=
  ∀ c a d, Gets m c a d → d.scoping = (out a).enter c.scoping ∧ (out a).Fits B

theorem Draws.mono {out : α → Outline} {A B : Set Nat} {m : Read α} (h : Draws out A m)
    (hAB : A ⊆ B) : Draws out B m :=
  fun c a d hm => ⟨(h c a d hm).1, (h c a d hm).2.mono hAB⟩

end Read

open Read Outline

/-! ## Shapes -/

/-- The clauses of a comprehension with its body. -/
def tailOutline (t : List Clause × Expr) : Outline := Clause.outlineAll t.1 t.2.outline

/-- All readings of a node draw outlines in its bytes. -/
structure Reading.Sited (c : Reading) : Prop where
  item : Draws Item.outline c.region.bytes c.item
  items : Draws Item.outlineAll c.region.bytes c.items
  stmt : Draws Stmt.outline c.region.bytes c.stmt
  expr : Draws Expr.outline c.region.bytes c.expr
  tail : Draws tailOutline c.region.bytes c.tail
  argument : Draws Arg.outline c.region.bytes c.argument
  arguments : Draws Arg.outlineAll c.region.bytes c.arguments
  assignment : Draws Assignment.outline c.region.bytes c.assignment
  assignments : Draws Assignment.outlineAll c.region.bytes c.assignments
  parameter : Draws Param.outline c.region.bytes c.parameter
  parameters : Draws Param.outlineAll c.region.bytes c.parameters

namespace Shape

/-- The children lie inside the node and apart from each other. -/
structure Sited (n : Shape) : Prop where
  name : n.label = .form .identifier → n.region.start.byte < n.region.stop.byte
  inside : ∀ c ∈ n.children, c.region.bytes ⊆ n.region.bytes
  apart : n.children.Pairwise fun a b => Disjoint a.region.bytes b.region.bytes
  children : ∀ c ∈ n.children, c.Sited

/-- The bytes of the children in these roles. -/
def sites (n : Shape) (rs : List Role) : Set Nat :=
  {x | ∃ r ∈ rs, ∃ c, n.child? r = some c ∧ x ∈ c.region.bytes}

variable {n : Shape} {r : Role} {c : Reading} {α : Type}

theorem mem_of_child? (h : n.child? r = some c) : c ∈ n.children ∧ c.role = some r := by
  refine ⟨List.mem_of_find?_eq_some h, ?_⟩
  simpa using List.find?_some h

theorem bytes_subset_sites (h : n.child? r = some c) : c.region.bytes ⊆ n.sites [r] :=
  fun _ hx => ⟨r, by simp, c, h, hx⟩

theorem sites_append (rs rs' : List Role) : n.sites (rs ++ rs') = n.sites rs ∪ n.sites rs' := by
  ext x
  simp only [sites, List.mem_append, Set.mem_ofPred_eq, Set.mem_union]
  grind

theorem Sited.sites_subset (h : n.Sited) (rs : List Role) : n.sites rs ⊆ n.region.bytes := by
  rintro x ⟨r, -, c, hc, hx⟩
  exact h.inside c (mem_of_child? hc).1 hx

/-- Children in different roles are apart. -/
theorem Sited.disjoint_sites (h : n.Sited) {rs rs' : List Role} (hd : ∀ r ∈ rs, r ∉ rs') :
    Disjoint (n.sites rs) (n.sites rs') := by
  refine Set.disjoint_left.2 ?_
  rintro x ⟨r, hr, c, hc, hx⟩ ⟨r', hr', c', hc', hx'⟩
  obtain ⟨hmem, hrole⟩ := mem_of_child? hc
  obtain ⟨hmem', hrole'⟩ := mem_of_child? hc'
  have hne : c ≠ c' := by
    rintro rfl
    rw [hrole] at hrole'
    exact hd r hr (Option.some.inj hrole' ▸ hr')
  have hapart : Disjoint c.region.bytes c'.region.bytes := h.apart.forall hmem hmem' hne
  exact Set.disjoint_left.1 hapart hx hx'

/-- What is drawn from children in different roles is put together. -/
theorem Sited.join (h : n.Sited) {rs rs' : List Role} {a b : Outline} (ha : Fits (n.sites rs) a)
    (hb : Fits (n.sites rs') b) (hd : ∀ r ∈ rs, r ∉ rs') : Fits (n.sites (rs ++ rs')) (a ++ b) := by
  rw [sites_append]
  exact ha.append hb (h.disjoint_sites hd)

/-- A part that is drawn from children of a node lies in the node. -/
theorem Sited.part (h : n.Sited) {rs : List Role} {a : Outline} (ha : Fits (n.sites rs) a)
    (p : Part) : Fits n.region.bytes (.part p a .nil) :=
  (ha.mono (h.sites_subset rs)).part p

/-- A scope over the whole node, with what is drawn from the children. -/
theorem Sited.scope (h : n.Sited) {rs rs' : List Role} {a b : Outline} (ha : Fits (n.sites rs) a)
    (hb : Fits (n.sites rs') b) (hd : ∀ r ∈ rs, r ∉ rs') (k : ScopeKind) :
    Fits n.region.bytes (.scope k n.span a b .nil) :=
  @Fits.scope _ _ _ _ n.span ha hb (h.disjoint_sites hd) (h.sites_subset rs) (h.sites_subset rs') k

/-! ### Children -/

@[simp]
theorem gets_need {c d : Context} {x : Reading} :
    Gets (n.need r) c x d ↔ n.child? r = some x ∧ d = c := by
  unfold need
  cases n.child? r <;> simp [eq_comm]

theorem readName_same {source : List Char} {label : Label} {region : Region} {c d : Context}
    {a : Name} (h : Gets (readName source label region) c a d) : d = c := by
  unfold readName at h
  split at h <;> simp at h <;> exact h.2

theorem nameIn_same {c d : Context} {a : Name} (h : Gets (n.nameIn r) c a d) : d = c := by
  obtain ⟨x, e, hx, ha⟩ := gets_bind.1 h
  rw [readName_same ha, (gets_need.1 hx).2]

theorem symbolIn_same {c d : Context} {a : String × Span} (h : Gets (n.symbolIn r) c a d) :
    d = c := by
  obtain ⟨x, e, hx, ha⟩ := gets_bind.1 h
  rw [(gets_pure.1 ha).2, (gets_need.1 hx).2]

theorem draws_child {out : α → Outline} {g : Reading → Read α}
    (hg : ∀ x ∈ n.children, Draws out x.region.bytes (g x)) :
    Draws out (n.sites [r]) (n.need r >>= g) := by
  intro c a d h
  obtain ⟨x, e, hneed, ha⟩ := gets_bind.1 h
  obtain ⟨hx, rfl⟩ := gets_need.1 hneed
  exact (hg x (mem_of_child? hx).1).mono (bytes_subset_sites hx) e a d ha

theorem draws_optional {out : α → Outline} {outOption : Option α → Outline} {g : Reading → Read α}
    (hnone : outOption none = .nil) (hsome : ∀ a, outOption (some a) = out a)
    (hg : ∀ x ∈ n.children, Draws out x.region.bytes (g x)) :
    Draws outOption (n.sites [r]) (n.optional r g) := by
  intro c a d h
  unfold optional at h
  split at h
  · rename_i x hx
    obtain ⟨b, e, hb, ha⟩ := gets_bind.1 h
    obtain ⟨rfl, rfl⟩ := gets_pure.1 ha
    rw [hsome]
    exact (hg x (mem_of_child? hx).1).mono (bytes_subset_sites hx) c b d hb
  · obtain ⟨rfl, rfl⟩ := gets_pure.1 h
    rw [hnone]
    exact ⟨rfl, fits_nil⟩

theorem draws_each {out : α → Outline} {outAll : List α → Outline} {g : Reading → Read α}
    (hnil : outAll [] = .nil) (hcons : ∀ a as, outAll (a :: as) = out a ++ outAll as) :
    ∀ {cs : List Reading}, (cs.Pairwise fun a b => Disjoint a.region.bytes b.region.bytes) →
      (∀ x ∈ cs, Draws out x.region.bytes (g x)) →
      Draws outAll {x | ∃ c ∈ cs, x ∈ c.region.bytes} (Read.each g cs) := by
  intro cs hp hg
  induction cs with
  | nil =>
    intro c a d h
    obtain ⟨rfl, rfl⟩ := gets_pure.1 h
    rw [hnil]
    exact ⟨rfl, fits_nil⟩
  | cons x cs ih =>
    intro c as d h
    obtain ⟨hx, hp⟩ := List.pairwise_cons.1 hp
    obtain ⟨b, e, hb, h⟩ := gets_bind.1 h
    obtain ⟨bs, e', hbs, h⟩ := gets_bind.1 h
    obtain ⟨rfl, rfl⟩ := gets_pure.1 h
    obtain ⟨hb1, hb2⟩ := hg x (by simp) c b e hb
    obtain ⟨hbs1, hbs2⟩ := ih hp (fun y hy => hg y (by simp [hy])) e bs d hbs
    rw [hcons]
    refine ⟨by rw [enter_append, hbs1, hb1], (hb2.append hbs2 ?_).mono ?_⟩
    · refine Set.disjoint_left.2 ?_
      rintro y hy ⟨c', hc', hy'⟩
      exact Set.disjoint_left.1 (hx c' hc') hy hy'
    · rintro y (hy | ⟨c', hc', hy⟩)
      · exact ⟨x, by simp, hy⟩
      · exact ⟨c', by simp [hc'], hy⟩

section

variable (h : n.Sited)

include h

theorem Sited.each {out : α → Outline} {outAll : List α → Outline} {g : Reading → Read α}
    (hnil : outAll [] = .nil) (hcons : ∀ a as, outAll (a :: as) = out a ++ outAll as)
    (hg : ∀ x : Reading, x.Sited → Draws out x.region.bytes (g x)) :
    Draws outAll n.region.bytes (Read.each g n.children) := by
  refine (draws_each hnil hcons h.apart fun x hx => hg x (h.children x hx)).mono ?_
  rintro y ⟨c, hc, hy⟩
  exact h.inside c hc hy

theorem Sited.exprIn (r : Role) : Draws Expr.outline (n.sites [r]) (n.exprIn r) :=
  draws_child fun x hx => (h.children x hx).expr

theorem Sited.stmtIn (r : Role) : Draws Stmt.outline (n.sites [r]) (n.stmtIn r) :=
  draws_child fun x hx => (h.children x hx).stmt

theorem Sited.tailIn (r : Role) : Draws tailOutline (n.sites [r]) (n.tailIn r) :=
  draws_child fun x hx => (h.children x hx).tail

theorem Sited.assignmentsIn (r : Role) :
    Draws Assignment.outlineAll (n.sites [r]) (n.assignmentsIn r) :=
  draws_child fun x hx => (h.children x hx).assignments

theorem Sited.optionalExpr (r : Role) :
    Draws Expr.outlineOption (n.sites [r]) (n.optional r Reading.expr) :=
  draws_optional rfl (fun _ => rfl) fun x hx => (h.children x hx).expr

theorem Sited.optionalStmt (r : Role) :
    Draws Stmt.outlineOption (n.sites [r]) (n.optional r Reading.stmt) :=
  draws_optional rfl (fun _ => rfl) fun x hx => (h.children x hx).stmt

theorem Sited.args : Draws Arg.outlineAll (n.sites [.arguments]) n.args := by
  unfold Shape.args
  split
  · rename_i x hx
    exact (h.children x (mem_of_child? hx).1).arguments.mono (bytes_subset_sites hx)
  · intro c a d h
    obtain ⟨rfl, rfl⟩ := gets_pure.1 h
    exact ⟨rfl, fits_nil⟩

theorem Sited.params : Draws Param.outlineAll (n.sites [.parameters]) n.params := by
  unfold Shape.params
  split
  · rename_i x hx
    exact (h.children x (mem_of_child? hx).1).parameters.mono (bytes_subset_sites hx)
  · intro c a d h
    obtain ⟨rfl, rfl⟩ := gets_pure.1 h
    exact ⟨rfl, fits_nil⟩

end
end Shape
end Scad
