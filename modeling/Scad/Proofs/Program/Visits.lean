import Scad.Proofs.Program.Parts
import Scad.Proofs.Program.Spans

/-!
# What a visitor is shown

A visitor has up to three hooks, for items, for statements and for expressions, and each call of a
hook is written down. The places of a program are paths into its tree; with all hooks there is one
call for every place of a part, and a place comes before those that lie in it. A hook that is missing
leaves its calls out and changes nothing else. In a program that was parsed the parts are shown in
the order in which they start. Main statement: `Program.visits_complete`.
-/

namespace Scad

/-! ## Hooks -/

/-- The sorts of parts; a visitor has a hook for each. -/
inductive PartSort where
  | item | stmt | expr
deriving DecidableEq

namespace Part

def sort : Part → PartSort
  | item _ => .item
  | stmt _ => .stmt
  | expr _ => .expr

def span : Part → Span
  | item i => i.span
  | stmt s => s.span
  | expr e => e.span

/-- What happens at a part: it is written down, if there is a hook for it. -/
def record (hooks : PartSort → Bool) (part : Part) : StateM (List Part) Unit :=
  if hooks part.sort then modify (· ++ [part]) else pure ()

theorem run_record (hooks : PartSort → Bool) (part : Part) (log : List Part) :
    (record hooks part).run log = ((), log ++ [part].filter (hooks ·.sort)) := by
  unfold record
  by_cases h : hooks part.sort = true
  · simp only [h, if_true, List.filter_cons_of_pos]
    rfl
  · simp only [h, if_false, List.filter_cons_of_neg, List.filter_nil, List.append_nil,
      not_false_eq_true, Bool.false_eq_true]
    rfl

theorem run_forM_record (hooks : PartSort → Bool) (parts log : List Part) :
    (forM parts (record hooks)).run log = ((), log ++ parts.filter (hooks ·.sort)) := by
  induction parts generalizing log with
  | nil => rw [List.forM_nil, List.filter_nil, List.append_nil]; rfl
  | cons part parts ih =>
    rw [List.forM_cons, StateT.run_bind, run_record]
    show (forM parts (record hooks)).run _ = _
    rw [ih, List.append_assoc, ← List.filter_append, List.singleton_append]

end Part

/-- A visitor with all hooks, which write down the parts they are called with and walk on. -/
def Visitor.noting : Visitor (StateM (List Part)) := .entering fun part => modify (· ++ [part])

/-- The same with some of the hooks; the others are left out. -/
def Visitor.recording (hooks : PartSort → Bool) : Visitor (StateM (List Part)) where
  item := if hooks .item then noting.item else ({} : Visitor _).item
  stmt := if hooks .stmt then noting.stmt else ({} : Visitor _).stmt
  expr := if hooks .expr then noting.expr else ({} : Visitor _).expr

/-- A hook that is left out walks on like one that has nothing to write down. -/
theorem Visitor.recording_eq (hooks : PartSort → Bool) :
    recording hooks = .entering (Part.record hooks) := by
  simp only [recording, noting, entering, Visitor.mk.injEq]
  refine ⟨?_, ?_, ?_⟩ <;> funext part walk
  · cases h : hooks .item <;> simp [Part.record, Part.sort, h]
  · cases h : hooks .stmt <;> simp [Part.record, Part.sort, h]
  · cases h : hooks .expr <;> simp [Part.record, Part.sort, h]

namespace Program

/-- What a visitor with some of the hooks is shown, one entry for each call. -/
def shown (hooks : PartSort → Bool) (p : Program) : List Part :=
  ((p.accept (.recording hooks)).run []).2

theorem shown_eq (hooks : PartSort → Bool) (p : Program) :
    p.shown hooks = p.parts.filter (hooks ·.sort) := by
  rw [shown, Visitor.recording_eq]
  show ((p.visit (Part.record hooks)).run []).2 = _
  rw [visit_eq, Part.run_forM_record, List.nil_append]

end Program

/-! ## Places -/

namespace Element

/-- The element at the end of a path, which tells at each step which part to go to. -/
def at? (x : Element) : List Nat → Option Element
  | [] => some x
  | i :: path => x.children[i]?.bind (·.at? path)

/-- The element at the end of a path that starts with a member of a list. -/
def atIn? (xs : List Element) : List Nat → Option Element
  | [] => none
  | i :: path => xs[i]?.bind (·.at? path)

end Element

/-- The part at the end of a path. -/
def Program.part? (p : Program) (path : List Nat) : Option Part :=
  (Element.atIn? (p.items.map .item) path).bind Element.part?

/-- The places of a tree in preorder, and what stands at them. In the order of paths a place is less
than those that lie in it and than those to its right. -/
structure Preorder {α : Type} (at? : List Nat → Option α) (places : List (List Nat))
    (shown : List α) : Prop where
  inOrder : places.Pairwise (· < ·)
  complete : ∀ path, path ∈ places ↔ (at? path).isSome
  stands : shown = places.filterMap at?

namespace Preorder

variable {α β : Type} {at? : List Nat → Option α} {places : List (List Nat)} {shown : List α}

/-- No place is shown twice. -/
theorem once (h : Preorder at? places shown) : places.Nodup :=
  h.inOrder.imp fun hlt => ne_of_lt hlt

/-- What encloses a place is shown before it. -/
theorem parentsFirst (h : Preorder at? places shown) :
    places.Pairwise fun path later => ¬ later <+: path :=
  h.inOrder.imp fun hlt hencloses => hencloses.le hlt

/-- Some of the places, in the same order. -/
theorem filterMap (h : Preorder at? places shown) (f : α → Option β) :
    Preorder (fun path => (at? path).bind f)
      (places.filter fun path => ((at? path).bind f).isSome) (shown.filterMap f) := by
  refine ⟨h.inOrder.filter _, fun path => ?_, ?_⟩
  · rw [List.mem_filter, h.complete, and_iff_right_iff_imp]
    intro hpath
    obtain ⟨y, hy⟩ := Option.isSome_iff_exists.1 hpath
    obtain ⟨x, hx, -⟩ := Option.bind_eq_some_iff.1 hy
    exact Option.isSome_iff_exists.2 ⟨x, hx⟩
  · rw [h.stands, List.filterMap_filterMap, List.filterMap_filter]
    refine List.filterMap_congr fun path _ => ?_
    cases (at? path).bind f <;> rfl

end Preorder

namespace Element

variable {x : Element} {xs : List Element}

theorem head_lt_of_atIn? {path : List Nat} (h : (atIn? xs path).isSome) :
    ∃ i rest, path = i :: rest ∧ i < xs.length := by
  cases path with
  | nil => cases h
  | cons i rest =>
    obtain ⟨y, hy⟩ := Option.isSome_iff_exists.1 h
    obtain ⟨z, hz, -⟩ := Option.bind_eq_some_iff.1 hy
    exact ⟨i, rest, rfl, (List.getElem?_eq_some_iff.1 hz).1⟩

theorem atIn?_append_left {path : List Nat} (h : (atIn? xs path).isSome) (ys : List Element) :
    atIn? (xs ++ ys) path = atIn? xs path := by
  obtain ⟨i, rest, rfl, hi⟩ := head_lt_of_atIn? h
  rw [atIn?, atIn?, List.getElem?_append_left hi]

theorem atIn?_concat (path : List Nat) :
    atIn? (xs ++ [x]) (xs.length :: path) = x.at? path := by
  simp [atIn?]

/-- A path into a list starts with its last member or before it. -/
theorem isSome_atIn?_concat (path : List Nat) :
    (atIn? (xs ++ [x]) path).isSome ↔
      (atIn? xs path).isSome ∨ ∃ rest, (x.at? rest).isSome ∧ xs.length :: rest = path := by
  constructor
  · intro h
    obtain ⟨i, rest, rfl, hi⟩ := head_lt_of_atIn? h
    rw [List.length_append, List.length_singleton] at hi
    rcases Nat.lt_succ_iff_lt_or_eq.1 hi with hi | rfl
    · left
      rwa [atIn?, List.getElem?_append_left hi] at h
    · right
      rw [atIn?_concat] at h
      exact ⟨rest, h, rfl⟩
  · rintro (h | ⟨rest, h, rfl⟩)
    · rwa [atIn?_append_left h]
    · rwa [atIn?_concat]

/-- Elements side by side are shown one after the other. -/
theorem preorder_list (h : ∀ x ∈ xs, ∃ places, Preorder x.at? places x.all) :
    ∃ places, Preorder (atIn? xs) places (xs.flatMap all) := by
  -- The list grows at its end, where the paths that are there already keep their meaning.
  induction xs using List.reverseRecOn with
  | nil =>
    refine ⟨[], .nil, fun path => ?_, rfl⟩
    cases path <;> simp [atIn?]
  | append_singleton xs x ih =>
    obtain ⟨places, hplaces⟩ := ih fun y hy => h y (List.mem_append_left _ hy)
    obtain ⟨inner, hinner⟩ := h x (List.mem_append_right _ (List.mem_singleton_self x))
    refine ⟨places ++ inner.map (xs.length :: ·), ?_, fun path => ?_, ?_⟩
    · refine List.pairwise_append.2 ⟨hplaces.inOrder, List.pairwise_map.2 ?_, ?_⟩
      · exact hinner.inOrder.imp fun hlt => List.cons_lt_cons_iff.2 (.inr ⟨rfl, hlt⟩)
      · intro path hpath later hlater
        obtain ⟨i, rest, rfl, hi⟩ := head_lt_of_atIn? ((hplaces.complete path).1 hpath)
        obtain ⟨rest', -, rfl⟩ := List.mem_map.1 hlater
        exact List.cons_lt_cons_iff.2 (.inl hi)
    · rw [isSome_atIn?_concat, List.mem_append, hplaces.complete, List.mem_map]
      simp only [hinner.complete, and_comm, eq_comm]
    · rw [List.flatMap_append, List.flatMap_singleton, List.filterMap_append, List.filterMap_map,
        hplaces.stands, hinner.stands]
      congr 1
      · refine List.filterMap_congr fun path hpath => ?_
        exact (atIn?_append_left ((hplaces.complete path).1 hpath) [x]).symm
      · exact List.filterMap_congr fun path _ => (atIn?_concat path).symm

/-- An element is shown before what it is made of. -/
theorem preorder_all (x : Element) : ∃ places, Preorder x.at? places x.all := by
  induction x using Element.induct with
  | step x ih =>
    obtain ⟨places, h⟩ := preorder_list ih
    have hne : ∀ path ∈ places, ∃ i rest, path = i :: rest := by
      intro path hpath
      obtain ⟨i, rest, hcons, -⟩ := head_lt_of_atIn? ((h.complete path).1 hpath)
      exact ⟨i, rest, hcons⟩
    refine ⟨[] :: places, List.pairwise_cons.2 ⟨fun path hpath => ?_, h.inOrder⟩, fun path => ?_, ?_⟩
    · obtain ⟨i, rest, rfl⟩ := hne path hpath
      exact List.nil_lt_cons i rest
    · cases path with
      | nil => simp [at?]
      | cons i rest =>
        rw [List.mem_cons, or_iff_right (List.cons_ne_nil i rest)]
        exact h.complete (i :: rest)
    · rw [all_eq, h.stands]
      refine congrArg (List.cons x) (List.filterMap_congr fun path hpath => ?_)
      obtain ⟨i, rest, rfl⟩ := hne path hpath
      rfl

/-! ## Starts -/

theorem flatMap_parts_clause (c : Clause) : (clause c).parts = c.elements.flatMap parts := by
  rw [parts_eq]
  rfl

/-- A clause is no part, so that its parts are shown in its place. -/
theorem parts_row (x : Element) : x.parts = x.part?.toList ++ x.row.flatMap parts := by
  rw [parts_eq]
  unfold row
  split
  · rename_i head clauses body span
    simp only [children, before, inner, List.nil_append, List.flatMap_append, List.flatMap_map,
      flatMap_parts_clause, List.flatMap_assoc]
  · rfl

theorem span_part? {part : Part} (h : x.part? = some part) : part.span = x.span := by
  cases x <;> cases h <;> rfl

variable {source : List Char}

/-- The parts of elements that stand in order start in order. -/
theorem flatMap_parts_inOrder
    (hwithin : ∀ x ∈ xs, ∀ part ∈ x.parts,
      x.span.start.byte ≤ part.span.start.byte ∧ part.span.start.byte ≤ x.span.stop.byte)
    (hinner : ∀ x ∈ xs, x.parts.Pairwise fun a b => a.span.start.byte ≤ b.span.start.byte)
    (hxs : xs.Pairwise fun x y => x.span.stop.byte ≤ y.span.start.byte) :
    (xs.flatMap parts).Pairwise fun a b => a.span.start.byte ≤ b.span.start.byte := by
  refine List.pairwise_flatMap.2 ⟨hinner, hxs.imp_of_mem fun {x y} hx hy hxy a ha b hb => ?_⟩
  calc a.span.start.byte
    _ ≤ x.span.stop.byte := (hwithin x hx a ha).2
    _ ≤ y.span.start.byte := hxy
    _ ≤ b.span.start.byte := (hwithin y hy b hb).1

/-- The parts of a sound element start in it and in order. -/
theorem Sound.parts_inOrder (h : x.Sound source) :
    (∀ part ∈ x.parts,
      x.span.start.byte ≤ part.span.start.byte ∧ part.span.start.byte ≤ x.span.stop.byte) ∧
    x.parts.Pairwise fun a b => a.span.start.byte ≤ b.span.start.byte := by
  induction x using Element.induct_row with
  | step x ih =>
    have hrow : ∀ part ∈ x.row.flatMap parts,
        x.span.start.byte ≤ part.span.start.byte ∧ part.span.start.byte ≤ x.span.stop.byte := by
      intro part hpart
      obtain ⟨y, hy, hpart⟩ := List.mem_flatMap.1 hpart
      obtain ⟨hsound, hinside⟩ := h.row hy
      have hy := (ih y hy hsound).1 part hpart
      rw [Span.contains_eq_true] at hinside
      omega
    have hself : ∀ part ∈ x.part?.toList, part.span = x.span :=
      fun part hpart => span_part? (Option.mem_toList.1 hpart)
    have hordered := flatMap_parts_inOrder (fun y hy => (ih y hy (h.row hy).1).1)
      (fun y hy => (ih y hy (h.row hy).1).2) h.faithful.inOrder
    rw [parts_row]
    refine ⟨fun part hpart => ?_, List.pairwise_append.2 ⟨?_, hordered, fun part hpart b hb => ?_⟩⟩
    · rcases List.mem_append.1 hpart with hpart | hpart
      · rw [hself part hpart]
        exact ⟨Nat.le_refl _, h.faithful.forward⟩
      · exact hrow part hpart
    · cases x.part? <;> simp
    · rw [hself part hpart]
      exact (hrow b hb).1

end Element

/-! ## Programs -/

namespace Program

/-- With all three hooks a visitor is shown the part at every place of the tree that has one, once,
and each place before those that lie in it. A visitor with fewer hooks is shown the parts of its
sorts, in the same order. If the program was parsed, the parts are shown in the order in which they
start. -/
theorem visits_complete (p : Program) :
    (∃ places : List (List Nat), places.Nodup ∧
      (∀ path, path ∈ places ↔ (p.part? path).isSome) ∧
      places.Pairwise (fun path later => ¬ later <+: path) ∧
      p.shown (fun _ => true) = places.filterMap p.part?) ∧
    (∀ hooks, p.shown hooks = (p.shown fun _ => true).filter (hooks ·.sort)) ∧
    ∀ source, Program.parse source = .ok p →
      (p.shown fun _ => true).Pairwise fun a b => a.span.start.byte ≤ b.span.start.byte := by
  have hall : p.shown (fun _ => true) = p.parts := by
    rw [shown_eq]
    exact List.filter_true p.parts
  rw [hall]
  refine ⟨?_, fun hooks => shown_eq hooks p, fun source h => ?_⟩
  · have hitems : ∀ x ∈ p.items.map Element.item, _ := fun x _ => x.preorder_all
    obtain ⟨places, hplaces⟩ := Element.preorder_list hitems
    have hparts := hplaces.filterMap Element.part?
    refine ⟨_, hparts.once, hparts.complete, hparts.parentsFirst, ?_⟩
    rw [parts, elements, ← List.flatMap_map]
    exact hparts.stands
  · have hfits := items_fit h
    have hsound := fun x hx => (hfits.sound x hx).parts_inOrder
    rw [parts_eq]
    exact Element.flatMap_parts_inOrder (fun x hx => (hsound x hx).1) (fun x hx => (hsound x hx).2)
      hfits.ordered

/-- A default, a binding of a comprehension and what is inside it. -/
theorem visits_complete_default :
    ∃ p, Program.parse "module f(k=[for(i=k)if(i)i])cube();".toList = .ok p ∧
      (p.shown fun _ => true).map (·.span.start.byte) = [0, 11, 12, 18, 23, 25, 28, 28, 35] ∧
      (p.shown fun s => s == .stmt) = (p.shown fun _ => true).filter (·.sort == .stmt) ∧
      (p.shown fun _ => true).Pairwise fun a b => a.span.start.byte ≤ b.span.start.byte := by
  have hok : (SyntaxTree.ofSource "module f(k=[for(i=k)if(i)i])cube();".toList).faults = [] := by
    decide +kernel
  have hstarts : (Program.parse "module f(k=[for(i=k)if(i)i])cube();".toList).toOption.map
      (fun p => (p.shown fun _ => true).map (·.span.start.byte)) =
        some [0, 11, 12, 18, 23, 25, 28, 28, 35] := by
    decide +kernel
  obtain ⟨p, hp, -⟩ := parse_of_faultless hok
  rw [hp] at hstarts
  obtain ⟨-, hhooks, hordered⟩ := visits_complete p
  exact ⟨p, hp, Option.some.inj hstarts, hhooks (· == .stmt), hordered _ hp⟩

end Program
end Scad
