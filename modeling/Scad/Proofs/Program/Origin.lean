import Scad.Proofs.Grammar.Turns
import Scad.Proofs.Program.Faithful
import Scad.Proofs.Scope.Edits
import Scad.Proofs.Scope.Sites

/-!
# Where elements come from

What a step of reading leaves behind in the context is told by the elements that it gives
(`Read.Tells`), whatever tree it reads. If the tree is placed in a source, the elements fit the bytes
of the nodes that they come from: children in different roles stand in the order of their turns.
-/

namespace Scad

open Read Element

/-! ## Steps of reading -/

namespace Read

variable {α β : Type} {placed : Prop}

/-- The step edits the context as its result says, and if the tree is placed, the result fits. -/
def Tells (placed : Prop) (log : α → List Edit) (fit : α → Prop) (m : Read α) : Prop :=
  ∀ c a d, Gets m c a d → d = c.replay (log a) ∧ (placed → fit a)

/-- The step gives elements in these bytes. -/
def Makes (source : List Char) (placed : Prop) (B : Set Nat) (out : α → List Element) :
    Read α → Prop :=
  Tells placed (fun a => (out a).flatMap edits) fun a => Fits source B (out a)

theorem Makes.mono {source : List Char} {out : α → List Element} {A B : Set Nat} {m : Read α}
    (h : Makes source placed A out m) (hAB : A ⊆ B) : Makes source placed B out m :=
  fun c a d hm => ⟨(h c a d hm).1, fun hp => ((h c a d hm).2 hp).mono hAB⟩

theorem tells_throw {log : α → List Edit} {fit : α → Prop} {e : Failure} :
    Tells placed log fit (throw e : Read α) :=
  fun _ _ _ h => absurd h gets_throw

/-- A step that leaves the context alone. -/
theorem makes_nil {source : List Char} {B : Set Nat} {out : α → List Element} {a : α}
    (h : out a = []) : Makes source placed B out (pure a : Read α) := by
  intro c b d hg
  obtain ⟨rfl, rfl⟩ := gets_pure.1 hg
  show d = d.replay ((out b).flatMap edits) ∧ (placed → Fits source B (out b))
  rw [h]
  exact ⟨rfl, fun _ => fits_nil⟩

end Read

/-! ## Clauses with a body -/

/-- The steps of clauses with the body behind them. -/
def tailEdits (t : List Clause × Expr) : List Edit :=
  (t.1.map Element.clause ++ [Element.expr t.2]).flatMap edits ++ t.1.reverse.flatMap Clause.closing

/-- Clauses in these bytes, with their parts and the body in order. -/
structure TailFits (source : List Char) (B : Set Nat) (t : List Clause × Expr) : Prop where
  clauses : ∀ c ∈ t.1, Fits source B [.clause c]
  row : Fits source B (t.1.flatMap Clause.elements ++ [.expr t.2])

theorem TailFits.mono {source : List Char} {A B : Set Nat} {t : List Clause × Expr}
    (h : TailFits source A t) (hAB : A ⊆ B) : TailFits source B t :=
  ⟨fun c hc => (h.clauses c hc).mono hAB, h.row.mono hAB⟩

/-- All readings of a node tell what they do. -/
structure Reading.Told (source : List Char) (placed : Prop) (c : Reading) : Prop where
  item : Makes source placed c.region.bytes (fun i => [.item i]) c.item
  items : Makes source placed c.region.bytes (·.map .item) c.items
  stmt : Makes source placed c.region.bytes (fun s => [.stmt s]) c.stmt
  expr : Makes source placed c.region.bytes (fun e => [.expr e]) c.expr
  tail : Tells placed tailEdits (TailFits source c.region.bytes) c.tail
  argument : Makes source placed c.region.bytes (fun a => [.arg a]) c.argument
  arguments : Makes source placed c.region.bytes (·.map .arg) c.arguments
  assignment : Makes source placed c.region.bytes (fun b => [.assignment b]) c.assignment
  assignments : Makes source placed c.region.bytes (·.map .assignment) c.assignments
  parameter : Makes source placed c.region.bytes (fun p => [.param p]) c.parameter
  parameters : Makes source placed c.region.bytes (·.map .param) c.parameters

/-- A region of the source with a label. Only a list may be empty. -/
structure Label.Stands (source : List Char) (label : Label) (r : Region) : Prop where
  marked : r.Marked source
  solid : ∀ f, label = .form f → f.isRow = false → r.start.byte < r.stop.byte

namespace Shape

/-- The node stands in the source, and its children stand in it, in order and in turn. -/
structure Placed (n : Shape) : Prop where
  self : n.label.Stands n.source n.region
  each : ∀ c ∈ n.children, c.label.Stands n.source c.region
  inside : ∀ c ∈ n.children, c.region.bytes ⊆ n.region.bytes
  inOrder : n.children.Pairwise fun a b => Precedes a.region.bytes b.region.bytes
  turns : n.children.Pairwise fun a b =>
    ∀ r r', a.role = some r → b.role = some r' → r.turn ≤ r'.turn

/-- The children tell what they do, and if the tree is placed, so is this node. -/
structure Told (placed : Prop) (n : Shape) : Prop where
  stands : placed → n.Placed
  children : ∀ c ∈ n.children, c.Told n.source placed

variable {n : Shape} {r : Role} {α : Type} {placed : Prop}

/-! ### Children in turn -/

theorem Placed.sites_subset (h : n.Placed) (rs : List Role) : n.sites rs ⊆ n.region.bytes := by
  rintro x ⟨r, -, c, hc, hx⟩
  exact h.inside c (mem_of_child? hc).1 hx

/-- Children whose turn is earlier stand before the others. -/
theorem Placed.sites_precede (h : n.Placed) {rs rs' : List Role}
    (hd : ∀ r ∈ rs, ∀ r' ∈ rs', r.turn < r'.turn) : Precedes (n.sites rs) (n.sites rs') := by
  rintro x ⟨r, hr, c, hc, hx⟩ y ⟨r', hr', c', hc', hy⟩
  obtain ⟨hmem, hrole⟩ := mem_of_child? hc
  obtain ⟨hmem', hrole'⟩ := mem_of_child? hc'
  have hlt := hd r hr r' hr'
  obtain ⟨i, hi, rfl⟩ := List.getElem_of_mem hmem
  obtain ⟨j, hj, rfl⟩ := List.getElem_of_mem hmem'
  rcases Nat.lt_trichotomy i j with hij | rfl | hij
  · exact List.pairwise_iff_getElem.1 h.inOrder i j hi hj hij x hx y hy
  · rw [hrole, Option.some.injEq] at hrole'
    rw [hrole'] at hlt
    exact absurd hlt (Nat.lt_irrefl _)
  · have := List.pairwise_iff_getElem.1 h.turns j i hj hi hij r' r hrole' hrole
    omega

/-- What stands in children whose turns come one after the other is put together. -/
theorem Placed.join (h : n.Placed) {rs rs' : List Role} {xs ys : List Element}
    (hx : Fits n.source (n.sites rs) xs) (hy : Fits n.source (n.sites rs') ys)
    (hd : ∀ r ∈ rs, ∀ r' ∈ rs', r.turn < r'.turn) :
    Fits n.source (n.sites (rs ++ rs')) (xs ++ ys) := by
  rw [sites_append]
  exact hx.append hy (h.sites_precede hd)

/-- An element over the whole node, with parts that stand in the children. -/
theorem Placed.whole (h : n.Placed) {f : Form} (hl : n.label = .form f) (hf : f.isRow = false)
    {rs : List Role} {xs : List Element} (hxs : Fits n.source (n.sites rs) xs) {x : Element}
    (hx : x.children = xs) (hrow : x.row = xs) (hspan : x.span.toRegion = n.region)
    (hq : x.Quotes n.source) : Fits n.source n.region.bytes [x] := by
  have hfits := hxs.mono (h.sites_subset rs)
  refine .over h.self.marked (h.self.solid f hl hf) hspan hq (hrow ▸ hfits) fun y hy => ?_
  exact hfits.mem (hx ▸ hy)

/-- An element over the whole node that has no parts. -/
theorem Placed.leaf (h : n.Placed) {f : Form} (hl : n.label = .form f) (hf : f.isRow = false)
    {x : Element} (hx : x.children = []) (hrow : x.row = []) (hspan : x.span.toRegion = n.region)
    (hq : x.Quotes n.source) : Fits n.source n.region.bytes [x] :=
  h.whole hl hf (fits_nil : Fits n.source (n.sites []) []) hx hrow hspan hq

/-- A call over the whole node. What it is applied to stands in a child, or it is the empty statement
at the end of the node. -/
theorem Placed.whole_call (h : n.Placed) {f : Form} (hl : n.label = .form f) (hf : f.isRow = false)
    {rs : List Role} {xs : List Element} (hxs : Fits n.source (n.sites rs) xs)
    (hrs : ∀ r ∈ rs, ∀ r' ∈ [Role.body], r.turn < r'.turn) {t : Stmt}
    (ht : Fits n.source (n.sites [.body]) [.stmt t] ∨ t = .empty n.span.endPoint) {x : Element}
    (hx : x.children = xs ++ [.stmt t]) (hrow : x.row = xs ++ [.stmt t])
    (hspan : x.span.toRegion = n.region) (hq : x.Quotes n.source) :
    Fits n.source n.region.bytes [x] := by
  rcases ht with ht | rfl
  · exact h.whole hl hf (h.join hxs ht hrs) hx hrow hspan hq
  obtain ⟨start, stop, forward⟩ := h.self.marked
  have hsolid := h.self.solid f hl hf
  have hpoint : (Element.stmt (.empty n.span.endPoint)).Sound n.source :=
    .mk ⟨stop, stop, Nat.le_refl _, fun h => absurd rfl (h _), nofun, .nil, trivial⟩ nofun
  have hfits : Fits n.source x.span.bytes xs := by
    rw [hspan]
    exact hxs.mono (h.sites_subset rs)
  refine Sound.fits (.mk ⟨?_, ?_, ?_, fun _ => ?_, ?_, ?_, hq⟩ ?_) ?_ ?_
  · rwa [hspan]
  · rwa [hspan]
  · rwa [hspan]
  · rwa [hspan]
  · intro y hy
    rw [hx, List.mem_append, List.mem_singleton] at hy
    rcases hy with hy | rfl
    · exact hfits.inside y hy
    · simp only [Span.contains, hspan, Bool.and_eq_true, decide_eq_true_eq]
      exact ⟨forward, Nat.le_refl _⟩
  · rw [hrow, List.pairwise_append]
    refine ⟨hfits.ordered, List.pairwise_singleton _ _, fun y hy z hz => ?_⟩
    obtain rfl := List.mem_singleton.1 hz
    have hinside := hfits.inside y hy
    simp only [Span.contains, hspan, Bool.and_eq_true, decide_eq_true_eq] at hinside
    exact hinside.2
  · intro y hy
    rw [hx, List.mem_append, List.mem_singleton] at hy
    rcases hy with hy | rfl
    · exact hfits.sound y hy
    · exact hpoint
  · rwa [hspan]
  · rw [hspan]

/-- A comprehension over the whole node. Its clauses and its body stand in the last child. -/
theorem Placed.whole_tail (h : n.Placed) {f : Form} (hl : n.label = .form f) (hf : f.isRow = false)
    {rs : List Role} {xs : List Element} (hxs : Fits n.source (n.sites rs) xs)
    {t : List Clause × Expr} (ht : TailFits n.source (n.sites [r]) t)
    (hrs : ∀ r' ∈ rs, ∀ q ∈ [r], r'.turn < q.turn) {x : Element}
    (hx : x.children = xs ++ (t.1.map .clause ++ [.expr t.2]))
    (hrow : x.row = xs ++ (t.1.flatMap Clause.elements ++ [.expr t.2]))
    (hspan : x.span.toRegion = n.region) (hq : x.Quotes n.source) :
    Fits n.source n.region.bytes [x] := by
  have hfits := (h.join hxs ht.row hrs).mono (h.sites_subset _)
  refine .over h.self.marked (h.self.solid f hl hf) hspan hq (hrow ▸ hfits) fun y hy => ?_
  rw [hx, List.mem_append, List.mem_append, List.mem_map, List.mem_singleton] at hy
  rcases hy with hy | ⟨c, hc, rfl⟩ | rfl
  · exact hfits.mem (by simp [hy])
  · exact (ht.clauses c hc).mono (h.sites_subset _)
  · exact hfits.mem (by simp)

/-! ### Names -/

@[simp]
theorem edits_name (a : Name) : (Element.name a).edits = [] := by
  simp [edits_eq]

/-- A leaf keeps the text that it covers. -/
theorem withText_of_marked {source cs : List Char} {r : Region}
    (h : Text.slice? source r.start.byte r.stop.byte = some cs) :
    ((Span.ofRegion r).withText source).text = some (String.ofList cs) := by
  show Option.map String.ofList (Text.slice? source r.start.byte r.stop.byte) = _
  rw [h, Option.map_some]

theorem makes_name {source : List Char} {label : Label} {region : Region}
    (h : placed → label.Stands source region) :
    Makes source placed region.bytes (fun a => [.name a]) (readName source label region) := by
  have key : ∀ f, label = .form f → f.isRow = false →
      Makes source placed region.bytes (fun a => [.name a])
        (pure ⟨String.ofList (textIn source region), (Span.ofRegion region).withText source⟩) := by
    intro f hl hf c a d hg
    obtain ⟨rfl, rfl⟩ := gets_pure.1 hg
    refine ⟨by simp, fun hp => ?_⟩
    obtain ⟨cs, hcs⟩ := (h hp).marked.slice
    refine .over (h hp).marked ((h hp).solid f hl hf) rfl ⟨?_, ?_⟩ fits_nil nofun
    · simp [textIn, hcs, Span.withText, Span.ofRegion]
    · simpa [textIn, hcs] using withText_of_marked hcs
  unfold readName
  split
  · exact key _ rfl rfl
  · exact key _ rfl rfl
  · exact tells_throw

/-! ### Children -/

theorem tells_child {log : α → List Edit} {fit : α → Prop} {g : Reading → Read α}
    (hg : ∀ x ∈ n.children, n.child? r = some x → Tells placed log fit (g x)) :
    Tells placed log fit (n.need r >>= g) := by
  intro c a d h
  obtain ⟨x, e, hneed, ha⟩ := gets_bind.1 h
  obtain ⟨hx, rfl⟩ := gets_need.1 hneed
  exact hg x (mem_of_child? hx).1 hx e a d ha

theorem makes_each {source : List Char} {el : α → Element} {g : Reading → Read α} :
    ∀ {cs : List Reading},
      (placed → cs.Pairwise fun a b => Precedes a.region.bytes b.region.bytes) →
      (∀ x ∈ cs, Makes source placed x.region.bytes (fun a => [el a]) (g x)) →
      Makes source placed {x | ∃ c ∈ cs, x ∈ c.region.bytes} (·.map el) (Read.each g cs) := by
  intro cs hp hg
  induction cs with
  | nil => exact makes_nil rfl
  | cons x cs ih =>
    intro c as d h
    obtain ⟨b, e, hb, h⟩ := gets_bind.1 h
    obtain ⟨bs, e', hbs, h⟩ := gets_bind.1 h
    obtain ⟨rfl, rfl⟩ := gets_pure.1 h
    obtain ⟨rfl, f1⟩ := hg x (by simp) c b e hb
    obtain ⟨rfl, f2⟩ := ih (fun h => (List.pairwise_cons.1 (hp h)).2)
      (fun y hy => hg y (by simp [hy])) _ bs d hbs
    refine ⟨by simp, fun h => ((f1 h).append (f2 h) ?_).mono ?_⟩
    · rintro y hy z ⟨c', hc', hz⟩
      exact (List.pairwise_cons.1 (hp h)).1 c' hc' y hy z hz
    · rintro y (hy | ⟨c', hc', hy⟩)
      · exact ⟨x, by simp, hy⟩
      · exact ⟨c', by simp [hc'], hy⟩

section

variable (h : n.Told placed)

include h

theorem Told.each {el : α → Element} {g : Reading → Read α}
    (hg : ∀ x : Reading, x.Told n.source placed →
      Makes n.source placed x.region.bytes (fun a => [el a]) (g x)) :
    Makes n.source placed n.region.bytes (·.map el) (Read.each g n.children) := by
  intro c as d hgets
  obtain ⟨h1, f1⟩ := makes_each (fun hp => (h.stands hp).inOrder)
    (fun x hx => hg x (h.children x hx)) c as d hgets
  refine ⟨h1, fun hp => (f1 hp).mono ?_⟩
  rintro y ⟨x, hx, hy⟩
  exact (h.stands hp).inside x hx hy

/-! ### Elements over the whole node -/

section

variable {f : Form} (hl : n.label = .form f) (hf : f.isRow = false) {rs rs' rs'' : List Role}
  {xs ys zs : List Element} (f1 : placed → Fits n.source (n.sites rs) xs)
  (f2 : placed → Fits n.source (n.sites rs') ys) (f3 : placed → Fits n.source (n.sites rs'') zs)
  {x : Element}

include hl hf f1

theorem Told.one (hx : x.children = xs) (hrow : x.row = xs) (hspan : x.span.toRegion = n.region)
    (hq : x.Quotes n.source) : placed → Fits n.source n.region.bytes [x] :=
  fun hp => (h.stands hp).whole hl hf (f1 hp) hx hrow hspan hq

include f2

theorem Told.two (hd : ∀ r ∈ rs, ∀ r' ∈ rs', r.turn < r'.turn) (hx : x.children = xs ++ ys)
    (hrow : x.row = xs ++ ys) (hspan : x.span.toRegion = n.region) (hq : x.Quotes n.source) :
    placed → Fits n.source n.region.bytes [x] :=
  h.one hl hf (fun hp => (h.stands hp).join (f1 hp) (f2 hp) hd) hx hrow hspan hq

include f3

theorem Told.three (hd : ∀ r ∈ rs, ∀ r' ∈ rs' ++ rs'', r.turn < r'.turn)
    (hd' : ∀ r ∈ rs', ∀ r' ∈ rs'', r.turn < r'.turn) (hx : x.children = xs ++ (ys ++ zs))
    (hrow : x.row = xs ++ (ys ++ zs)) (hspan : x.span.toRegion = n.region)
    (hq : x.Quotes n.source) : placed → Fits n.source n.region.bytes [x] :=
  h.two hl hf f1 (fun hp => (h.stands hp).join (f2 hp) (f3 hp) hd') hd hx hrow hspan hq

end

/-! ### What the children tell -/

theorem Told.nameIn (r : Role) :
    Makes n.source placed (n.sites [r]) (fun a => [.name a]) (n.nameIn r) :=
  tells_child fun x hx hc =>
    (makes_name fun hp => (h.stands hp).each x hx).mono (bytes_subset_sites hc)

theorem Told.exprIn (r : Role) :
    Makes n.source placed (n.sites [r]) (fun e => [.expr e]) (n.exprIn r) :=
  tells_child fun x hx hc => (h.children x hx).expr.mono (bytes_subset_sites hc)

theorem Told.stmtIn (r : Role) :
    Makes n.source placed (n.sites [r]) (fun s => [.stmt s]) (n.stmtIn r) :=
  tells_child fun x hx hc => (h.children x hx).stmt.mono (bytes_subset_sites hc)

theorem Told.assignmentsIn (r : Role) :
    Makes n.source placed (n.sites [r]) (·.map .assignment) (n.assignmentsIn r) :=
  tells_child fun x hx hc => (h.children x hx).assignments.mono (bytes_subset_sites hc)

theorem Told.tailIn (r : Role) :
    Tells placed tailEdits (TailFits n.source (n.sites [r])) (n.tailIn r) :=
  tells_child fun x hx hc c t d hg =>
    ((h.children x hx).tail c t d hg).imp_right fun f hp => (f hp).mono (bytes_subset_sites hc)

theorem Told.optional {el : α → Element} {g : Reading → Read α} (r : Role)
    (hg : ∀ x : Reading, x.Told n.source placed →
      Makes n.source placed x.region.bytes (fun a => [el a]) (g x)) :
    Makes n.source placed (n.sites [r]) (fun a => a.toList.map el) (n.optional r g) := by
  unfold Shape.optional
  split
  · rename_i x hx
    intro c a d hgets
    obtain ⟨b, e, hb, ha⟩ := gets_bind.1 hgets
    obtain ⟨rfl, rfl⟩ := gets_pure.1 ha
    exact (hg x (h.children x (mem_of_child? hx).1)).mono (bytes_subset_sites hx) c b d hb
  · exact makes_nil rfl

theorem Told.args : Makes n.source placed (n.sites [.arguments]) (·.map .arg) n.args := by
  unfold Shape.args
  split
  · rename_i x hx
    exact (h.children x (mem_of_child? hx).1).arguments.mono (bytes_subset_sites hx)
  · exact makes_nil rfl

theorem Told.params : Makes n.source placed (n.sites [.parameters]) (·.map .param) n.params := by
  unfold Shape.params
  split
  · rename_i x hx
    exact (h.children x (mem_of_child? hx).1).parameters.mono (bytes_subset_sites hx)
  · exact makes_nil rfl

end
end Shape
end Scad
