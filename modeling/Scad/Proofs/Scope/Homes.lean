import Scad.Proofs.Program.Faithful
import Scad.Proofs.Scope.Drawing
import Scad.Proofs.Scope.Twin

/-!
# The scopes that a name lies in

If twin outlines are both laid out, corresponding names lie in corresponding scopes
(`Twin.sees`), and the contexts that the outlines are entered into stay twins. So a name is looked up
from the same scope in both programs, and what is found is the same wherever it stands.
-/

namespace Scad

/-- The spans are around the bytes, or they are apart from them. -/
def Beside (B B' : Set Nat) (s s' : Span) : Prop :=
  (B ⊆ s.bytes ∧ B' ⊆ s'.bytes) ∨ (Disjoint B s.bytes ∧ Disjoint B' s'.bytes)

theorem Beside.mono {A A' B B' : Set Nat} {s s' : Span} (h : Beside B B' s s') (hA : A ⊆ B)
    (hA' : A' ⊆ B') : Beside A A' s s' := by
  rcases h with ⟨h, h'⟩ | ⟨h, h'⟩
  · exact .inl ⟨hA.trans h, hA'.trans h'⟩
  · exact .inr ⟨h.mono_left hA, h'.mono_left hA'⟩

/-- What is not empty lies in both spans or in none. -/
theorem Beside.contains_eq {s s' t t' : Span} (h : Beside t.bytes t'.bytes s s')
    (ht : t.start.byte < t.stop.byte) (ht' : t'.start.byte < t'.stop.byte) :
    s.contains t = s'.contains t' := by
  have outside : ∀ {s t : Span}, t.start.byte < t.stop.byte → Disjoint t.bytes s.bytes →
      s.contains t = false := by
    intro s t ht hd
    rw [Bool.eq_false_iff]
    intro hc
    have hmem : t.start.byte ∈ t.bytes := ⟨Nat.le_refl _, ht⟩
    exact Set.disjoint_left.1 hd hmem ((Span.contains_iff ht).1 hc hmem)
  rcases h with ⟨h, h'⟩ | ⟨h, h'⟩
  · rw [(Span.contains_iff ht).2 h, (Span.contains_iff ht').2 h']
  · rw [outside ht h, outside ht' h']

namespace Outline

/-- The names lie in the same ones of two lists of spans. -/
def Sees (S S' : List Span) (n n' : Name) : Prop :=
  List.Forall₂ (fun s s' => s.contains n.span = s'.contains n'.span) S S'

theorem Laid.opened_subset {o : Outline} (h : o.Laid) : ∀ s ∈ o.opened, s.bytes ⊆ o.bytes := by
  induction o with
  | nil => simp [opened]
  | name n next ih =>
    intro s hs
    exact (ih h.2.1 s hs).trans Set.subset_union_right
  | part _ inner next ihi ihn | binding _ _ inner next ihi ihn | param _ inner next ihi ihn =>
    intro s hs
    rcases List.mem_append.1 hs with hs | hs
    · exact (ihi h.1 s hs).trans Set.subset_union_left
    · exact (ihn h.2.1 s hs).trans Set.subset_union_right
  | scope k t before inner next ihb ihi ihn =>
    obtain ⟨hb, hi, hn, -, hbt, hit, -⟩ := h
    intro s hs
    simp only [opened, List.mem_append, List.mem_cons] at hs
    rcases hs with hs | rfl | hs | hs
    · exact ((ihb hb s hs).trans hbt).trans Set.subset_union_left
    · exact Set.subset_union_left
    · exact ((ihi hi s hs).trans hit).trans Set.subset_union_left
    · exact (ihn hn s hs).trans Set.subset_union_right

variable {W : Name → Name → Prop} {o o' : Outline}

theorem Twin.opened (h : Twin W o o') : List.Forall₂ (fun _ _ => True) o.opened o'.opened := by
  induction h with
  | nil => exact .nil
  | name _ _ _ ih => exact ih
  | part _ _ _ _ _ ihi ihn | binding _ _ _ _ ihi ihn | param _ _ _ ihi ihn =>
    exact List.rel_append ihi ihn
  | scope _ _ _ _ _ _ ihb ihi ihn =>
    exact List.rel_append ihb (.cons trivial (List.rel_append ihi ihn))

/-- The scopes in two outlines are apart from what is apart from the outlines. -/
theorem Twin.beside (h : Twin W o o') (hl : o.Laid) (hl' : o'.Laid) {A A' : Set Nat}
    (hA : Disjoint A o.bytes) (hA' : Disjoint A' o'.bytes) :
    List.Forall₂ (Beside A A') o.opened o'.opened := by
  have hs := hl.opened_subset
  have hs' := hl'.opened_subset
  have hopened := h.opened
  generalize o.opened = S at hs hopened
  generalize o'.opened = S' at hs' hopened
  induction hopened with
  | nil => exact .nil
  | @cons s s' S S' _ _ ih =>
    refine .cons (.inr ⟨hA.mono_right (hs s (by simp)), hA'.mono_right (hs' s' (by simp))⟩) ?_
    exact ih (fun t ht => hs t (by simp [ht])) (fun t ht => hs' t (by simp [ht]))

/-- Whatever is around the two outlines, corresponding names lie in the same scopes. -/
def Steady (o o' : Outline) : Prop :=
  ∀ (S S' pre pre' post post' : List Span), o.Laid → o'.Laid →
    S = pre ++ (o.opened ++ post) → S' = pre' ++ (o'.opened ++ post') →
    List.Forall₂ (Beside o.bytes o'.bytes) pre pre' →
    List.Forall₂ (Beside o.bytes o'.bytes) post post' → Twin (Sees S S') o o'

/-- Outlines that stand side by side are out of each other's way. -/
theorem Steady.pair {a a' b b' : Outline} (ta : Like a a') (tb : Like b b') (ha : Steady a a')
    (hb : Steady b b') {S S' pre pre' post post' : List Span}
    (hl : a.Laid ∧ b.Laid ∧ Disjoint a.bytes b.bytes)
    (hl' : a'.Laid ∧ b'.Laid ∧ Disjoint a'.bytes b'.bytes)
    (hS : S = pre ++ ((a.opened ++ b.opened) ++ post))
    (hS' : S' = pre' ++ ((a'.opened ++ b'.opened) ++ post'))
    (hpre : List.Forall₂ (Beside (a.bytes ∪ b.bytes) (a'.bytes ∪ b'.bytes)) pre pre')
    (hpost : List.Forall₂ (Beside (a.bytes ∪ b.bytes) (a'.bytes ∪ b'.bytes)) post post') :
    Twin (Sees S S') a a' ∧ Twin (Sees S S') b b' := by
  constructor
  · refine ha S S' pre pre' (b.opened ++ post) (b'.opened ++ post') hl.1 hl'.1 (by simp [hS])
      (by simp [hS']) (hpre.imp fun _ _ h => h.mono ?_ ?_)
      (List.rel_append (tb.beside hl.2.1 hl'.2.1 hl.2.2 hl'.2.2)
        (hpost.imp fun _ _ h => h.mono ?_ ?_))
    all_goals exact Set.subset_union_left
  · refine hb S S' (pre ++ a.opened) (pre' ++ a'.opened) post post' hl.2.1 hl'.2.1 (by simp [hS])
      (by simp [hS']) (List.rel_append (hpre.imp fun _ _ h => h.mono ?_ ?_)
        (ta.beside hl.1 hl'.1 hl.2.2.symm hl'.2.2.symm)) (hpost.imp fun _ _ h => h.mono ?_ ?_)
    all_goals exact Set.subset_union_right

/-- Corresponding names of twin outlines that are laid out lie in the same scopes. -/
theorem Twin.steady (h : Like o o') : Steady o o' := by
  induction h with
  | nil => exact fun _ _ _ _ _ _ _ _ _ _ _ _ => .nil
  | @name n n' next next' text _ hnext ih =>
    intro S S' pre pre' post post' hl hl' hS hS' hpre hpost
    obtain ⟨hn, hl, hd⟩ := hl
    obtain ⟨hn', hl', hd'⟩ := hl'
    refine .name text ?_ (ih S S' pre pre' post post' hl hl' hS hS' ?_ ?_)
    · have hall : List.Forall₂ (Beside n.span.bytes n'.span.bytes) S S' := by
        rw [hS, hS']
        refine List.rel_append (hpre.imp fun _ _ h => h.mono ?_ ?_) (List.rel_append
          (hnext.beside hl hl' hd hd') (hpost.imp fun _ _ h => h.mono ?_ ?_))
        all_goals exact Set.subset_union_left
      exact hall.imp fun _ _ h => h.contains_eq hn hn'
    · exact hpre.imp fun _ _ h => h.mono Set.subset_union_right Set.subset_union_right
    · exact hpost.imp fun _ _ h => h.mono Set.subset_union_right Set.subset_union_right
  | part agree whole whole' hinner hnext ihi ihn =>
    intro S S' pre pre' post post' hl hl' hS hS' hpre hpost
    obtain ⟨hi, hn⟩ := Steady.pair hinner hnext ihi ihn hl hl' hS hS' hpre hpost
    exact .part agree whole whole' hi hn
  | binding text agree hinner hnext ihi ihn =>
    intro S S' pre pre' post post' hl hl' hS hS' hpre hpost
    obtain ⟨hi, hn⟩ := Steady.pair hinner hnext ihi ihn hl hl' hS hS' hpre hpost
    exact .binding text agree hi hn
  | param agree hinner hnext ihi ihn =>
    intro S S' pre pre' post post' hl hl' hS hS' hpre hpost
    obtain ⟨hi, hn⟩ := Steady.pair hinner hnext ihi ihn hl hl' hS hS' hpre hpost
    exact .param agree hi hn
  | @scope k s s' before before' inner inner' next next' hbefore hinner hnext ihb ihi ihn =>
    intro S S' pre pre' post post' hl hl' hS hS' hpre hpost
    obtain ⟨hlb, hli, hln, hd, hb, hi, hdn⟩ := hl
    obtain ⟨hlb', hli', hln', hd', hb', hi', hdn'⟩ := hl'
    have around : ∀ {A A' : Set Nat} {L L' : List Span}, A ⊆ s.bytes → A' ⊆ s'.bytes →
        List.Forall₂ (Beside (s.bytes ∪ next.bytes) (s'.bytes ∪ next'.bytes)) L L' →
        List.Forall₂ (Beside A A') L L' := fun hA hA' hL =>
      hL.imp fun _ _ h => h.mono (hA.trans Set.subset_union_left) (hA'.trans Set.subset_union_left)
    refine .scope k s s' ?_ ?_ ?_
    · refine ihb S S' pre pre' (s :: (inner.opened ++ (next.opened ++ post)))
        (s' :: (inner'.opened ++ (next'.opened ++ post'))) hlb hlb' (by simp [hS, Outline.opened])
        (by simp [hS', Outline.opened]) (around hb hb' hpre) (.cons (.inl ⟨hb, hb'⟩) ?_)
      exact List.rel_append (hinner.beside hli hli' hd hd') (List.rel_append
        (hnext.beside hln hln' (hdn.mono_left hb) (hdn'.mono_left hb')) (around hb hb' hpost))
    · refine ihi S S' (pre ++ (before.opened ++ [s])) (pre' ++ (before'.opened ++ [s']))
        (next.opened ++ post) (next'.opened ++ post') hli hli' (by simp [hS, Outline.opened])
        (by simp [hS', Outline.opened]) ?_ ?_
      · exact List.rel_append (around hi hi' hpre) (List.rel_append
          (hbefore.beside hlb hlb' hd.symm hd'.symm) (.cons (.inl ⟨hi, hi'⟩) .nil))
      · exact List.rel_append (hnext.beside hln hln' (hdn.mono_left hi) (hdn'.mono_left hi'))
          (around hi hi' hpost)
    · refine ihn S S' (pre ++ (before.opened ++ s :: inner.opened))
        (pre' ++ (before'.opened ++ s' :: inner'.opened)) post post' hln hln' (by simp [hS, Outline.opened])
        (by simp [hS', Outline.opened]) ?_ (hpost.imp fun _ _ h => h.mono ?_ ?_)
      · refine List.rel_append (hpre.imp fun _ _ h => h.mono ?_ ?_) (List.rel_append
          (hbefore.beside hlb hlb' (hdn.symm.mono_right hb) (hdn'.symm.mono_right hb'))
          (.cons (.inr ⟨hdn.symm, hdn'.symm⟩)
            (hinner.beside hli hli' (hdn.symm.mono_right hi) (hdn'.symm.mono_right hi'))))
        all_goals exact Set.subset_union_right
      all_goals exact Set.subset_union_right

end Outline

/-! ## Contexts -/

/-- The same expressions wherever they stand, with names that are related by `W`. -/
structure Expr.Twin (W : Name → Name → Prop) (e e' : Expr) : Prop where
  agree : e.agree .ignored e' = true
  outline : Outline.Twin W e.outline e'.outline

/-- The values of two declarations are the same. -/
def Binding.Twin (W : Name → Name → Prop) (b b' : Binding) : Prop :=
  Option.Rel (Expr.Twin W) b.value b'.value

structure Param.Twin (W : Name → Name → Prop) (p p' : Param) : Prop where
  text : p.name.text = p'.name.text
  default : Option.Rel (Expr.Twin W) p.default p'.default

/-- The same names with the same values, in the same order. -/
def Table.Twin (W : Name → Name → Prop) (t t' : Table Binding) : Prop :=
  List.Forall₂ (fun x y => x.1 = y.1 ∧ Binding.Twin W x.2 y.2) t.entries t'.entries

structure Scope.Twin (W : Name → Name → Prop) (s s' : Scope) : Prop where
  id : s.id = s'.id
  parent : s.parent = s'.parent
  names : Table.Twin W s.names s'.names

/-- The same scopes wherever they stand. -/
structure Context.Twin (W : Name → Name → Prop) (c c' : Context) : Prop where
  scopes : List.Forall₂ (Scope.Twin W) c.scopes c'.scopes
  stack : c.stack = c'.stack

variable {W : Name → Name → Prop}

theorem Table.Twin.get? {t t' : Table Binding} (h : Table.Twin W t t') (name : String) :
    Option.Rel (Binding.Twin W) (t.get? name) (t'.get? name) := by
  obtain ⟨es⟩ := t
  obtain ⟨es'⟩ := t'
  replace h : List.Forall₂ (fun x y => x.1 = y.1 ∧ Binding.Twin W x.2 y.2) es es' := h
  show Option.Rel _ (es.lookup name) (es'.lookup name)
  induction h with
  | nil => exact .none
  | @cons x y es es' hxy _ ih =>
    obtain ⟨k, v⟩ := x
    obtain ⟨k', v'⟩ := y
    obtain ⟨rfl, hv⟩ : k = k' ∧ Binding.Twin W v v' := hxy
    rw [Table.lookup_cons, Table.lookup_cons]
    split
    · exact .some hv
    · exact ih

theorem Table.Twin.insert {t t' : Table Binding} (h : Table.Twin W t t') {name name' : String}
    (hn : name = name') {b b' : Binding} (hb : Binding.Twin W b b') :
    Table.Twin W (t.insert name b) (t'.insert name' b') := by
  subst hn
  obtain ⟨es⟩ := t
  obtain ⟨es'⟩ := t'
  replace h : List.Forall₂ (fun x y => x.1 = y.1 ∧ Binding.Twin W x.2 y.2) es es' := h
  show List.Forall₂ _ (Table.insertIn name b es) (Table.insertIn name b' es')
  induction h with
  | nil => exact .cons ⟨rfl, hb⟩ .nil
  | @cons x y es es' hxy hrest ih =>
    obtain ⟨k, v⟩ := x
    obtain ⟨k', v'⟩ := y
    obtain ⟨rfl, hv⟩ : k = k' ∧ Binding.Twin W v v' := hxy
    simp only [Table.insertIn]
    split
    · exact .cons ⟨rfl, hb⟩ hrest
    · exact .cons ⟨rfl, hv⟩ ih

namespace Context

variable {c c' : Context}

theorem Twin.current (h : c.Twin W c') : c.current = c'.current := by
  rw [Context.current, h.stack]
  rfl

theorem Twin.push (h : c.Twin W c') (kind : ScopeKind) (s s' : Span) :
    (c.push kind s).Twin W (c'.push kind s') := by
  have hlength := h.scopes.length_eq
  refine ⟨List.rel_append h.scopes (.cons ⟨hlength, ?_, .nil⟩ .nil), ?_⟩
  · rw [h.current]
  · simp [Context.push, hlength, h.stack]

theorem Twin.pop (h : c.Twin W c') : c.pop.Twin W c'.pop := by
  unfold Context.pop
  rw [h.stack]
  split
  · exact ⟨h.scopes, rfl⟩
  · exact h

theorem Twin.declare (h : c.Twin W c') {n n' : Name} (hn : n.text = n'.text) {v v' : Option Expr}
    (hv : Option.Rel (Expr.Twin W) v v') : (c.declare n v).Twin W (c'.declare n' v') := by
  refine ⟨?_, h.stack⟩
  simp only [Context.declare, h.current]
  exact forall₂_modify (fun s s' hs => ⟨hs.id, hs.parent, hs.names.insert hn hv⟩) h.scopes _

theorem Twin.declareParams {ps ps' : List Param} (hp : List.Forall₂ (Param.Twin W) ps ps') :
    ∀ {c c' : Context}, c.Twin W c' → (c.declareParams ps).Twin W (c'.declareParams ps') := by
  induction hp with
  | nil => exact fun h => h
  | cons hp _ ih => exact fun h => ih (h.declare hp.text hp.default)

end Context

namespace Outline

variable {o o' : Outline}

theorem Twin.option {v v' : Option Expr} (h : Expr.agreeOption .ignored v v' = true)
    (ho : Twin W (Expr.outlineOption v) (Expr.outlineOption v')) : Option.Rel (Expr.Twin W) v v' := by
  cases Expr.agreeOption_iff.1 h with
  | none => exact .none
  | some hv => exact .some ⟨hv, ho⟩

theorem Twin.params (h : Twin W o o') : List.Forall₂ (Param.Twin W) o.params o'.params := by
  induction h with
  | nil => exact .nil
  | name _ _ _ ih => exact ih
  | part _ _ _ _ _ _ ih | binding _ _ _ _ _ ih | scope _ _ _ _ _ _ _ _ ih => exact ih
  | @param p p' next next' agree hinner _ _ ih =>
    cases Param.matched agree with
    | mk _ _ text default => exact .cons ⟨text, Twin.option default hinner⟩ ih

/-- Twin outlines bring the same scopes into the contexts. -/
theorem Twin.enter (h : Twin W o o') :
    ∀ {c c' : Context}, c.Twin W c' → (o.enter c).Twin W (o'.enter c') := by
  induction h with
  | nil => exact fun hc => hc
  | name _ _ _ ih => exact fun hc => ih hc
  | part _ _ _ _ _ ihi ihn | param _ _ _ ihi ihn => exact fun hc => ihn (ihi hc)
  | binding text agree hinner _ ihi ihn =>
    exact fun hc => ihn ((ihi hc).declare text (.some ⟨agree, hinner⟩))
  | scope k s s' hbefore _ _ ihb ihi ihn =>
    intro c c' hc
    exact ihn (ihi (((ihb hc).push k s s').declareParams hbefore.params)).pop

end Outline

/-! ## Looking names up -/

theorem forall₂_getElem? {α β : Type} {R : α → β → Prop} {as : List α} {bs : List β}
    (h : List.Forall₂ R as bs) : ∀ i : Nat, Option.Rel R as[i]? bs[i]? := by
  induction h with
  | nil => exact fun _ => .none
  | cons hab _ ih =>
    intro i
    cases i with
    | zero => exact .some hab
    | succ i => exact ih i

theorem rel_bind {α β : Type} {R : α → α → Prop} {S : β → β → Prop} {a a' : Option α}
    {f f' : α → Option β} (h : Option.Rel R a a')
    (hf : ∀ x x', R x x' → Option.Rel S (f x) (f' x')) : Option.Rel S (a.bind f) (a'.bind f') := by
  cases h with
  | none => exact .none
  | some h => exact hf _ _ h

namespace Context

variable {c c' : Context}

theorem Twin.lookupIn (h : List.Forall₂ (Scope.Twin W) c.scopes c'.scopes) (name : String) :
    ∀ n id : Nat, Option.Rel (Binding.Twin W) (c.lookupIn name n id) (c'.lookupIn name n id)
  | 0, _ => .none
  | n + 1, id => by
    have hscope := forall₂_getElem? h id
    unfold Context.lookupIn Context.scope?
    generalize c.scopes[id]? = s at hscope
    generalize c'.scopes[id]? = s' at hscope
    cases hscope with
    | none => exact .none
    | @some s s' hs =>
      have hget := hs.names.get? name
      dsimp only
      generalize s.names.get? name = b at hget
      generalize s'.names.get? name = b' at hget
      cases hget with
      | some hb => exact .some hb
      | none =>
        dsimp only
        rw [hs.parent]
        cases s'.parent with
        | none => exact .none
        | some id => exact Twin.lookupIn h name n id

/-- From the same scope the same declaration is seen. -/
theorem Twin.lookup (h : List.Forall₂ (Scope.Twin W) c.scopes c'.scopes) (id : Nat) (name : String) :
    Option.Rel (Binding.Twin W) (c.lookup id name) (c'.lookup id name) := by
  rw [Context.lookup, Context.lookup, h.length_eq]
  exact Twin.lookupIn h name _ id

/-- The scope at a place depends only on which scopes contain it. -/
theorem scopeAt_eq {s s' : Span} (h : List.Forall₂ (fun x y : Scope => x.id = y.id ∧
    x.span.contains s = y.span.contains s') c.scopes c'.scopes) : c.scopeAt s = c'.scopeAt s' := by
  have hfind : ∀ {xs ys : List Scope}, List.Forall₂ (fun x y : Scope => x.id = y.id ∧
      x.span.contains s = y.span.contains s') xs ys →
      ((xs.find? fun x => x.span.contains s).map Scope.id) =
        (ys.find? fun y => y.span.contains s').map Scope.id := by
    intro xs ys h
    induction h with
    | nil => rfl
    | @cons x y xs ys hxy _ ih =>
      rw [List.find?_cons, List.find?_cons, hxy.2]
      cases y.span.contains s' with
      | true => simp [hxy.1]
      | false => exact ih
  have hmap := hfind (List.rel_reverse h)
  unfold Context.scopeAt
  generalize c.scopes.reverse.find? _ = x at hmap
  generalize c'.scopes.reverse.find? _ = y at hmap
  cases x <;> cases y <;> simp_all

theorem spans_declare (c : Context) (n : Name) (v : Option Expr) :
    (c.declare n v).scopes.map (·.span) = c.scopes.map (·.span) := by
  unfold Context.declare
  generalize c.current = i
  induction c.scopes generalizing i with
  | nil => cases i <;> rfl
  | cons s ss ih =>
    cases i with
    | zero => rfl
    | succ i => simpa using ih i

theorem spans_declareParams (ps : List Param) (c : Context) :
    (c.declareParams ps).scopes.map (·.span) = c.scopes.map (·.span) := by
  induction ps generalizing c with
  | nil => rfl
  | cons p ps ih => exact (ih (c.declare p.name p.default)).trans (c.spans_declare p.name p.default)

end Context

/-- An outline adds the scopes that it opens. -/
theorem Outline.spans_enter (o : Outline) (c : Context) :
    (o.enter c).scopes.map (·.span) = c.scopes.map (·.span) ++ o.opened := by
  induction o generalizing c with
  | nil => simp [enter, opened]
  | name _ next ih => exact ih c
  | part _ inner next ihi ihn | param _ inner next ihi ihn => simp [enter, opened, ihi, ihn]
  | binding _ _ inner next ihi ihn => simp [enter, opened, ihi, ihn, Context.spans_declare]
  | scope k s before inner next ihb ihi ihn =>
    simp [enter, opened, ihb, ihi, ihn, Context.spans_declareParams, Context.push]

/-- Two programs that agree wherever things stand have the same scopes and names, and each name is
looked up from the same scope. -/
theorem Program.twin {a b : List Char} {p q : Program} (hp : Program.parse a = .ok p)
    (hq : Program.parse b = .ok q) (h : Item.agreeAll .ignored p.items q.items = true) :
    ∃ W : Name → Name → Prop, Outline.Twin W (Item.outlineAll p.items) (Item.outlineAll q.items) ∧
      List.Forall₂ (Scope.Twin W) p.context.scopes q.context.scopes ∧
      ∀ n n', W n n' → p.context.scopeAt n.span = q.context.scopeAt n'.span := by
  obtain ⟨hfits, hscopes⟩ := outline_of_parse hp
  obtain ⟨hfits', hscopes'⟩ := outline_of_parse hq
  have hspans := (Item.outlineAll p.items).spans_enter (.start p.span)
  have hspans' := (Item.outlineAll q.items).spans_enter (.start q.span)
  rw [← hscopes] at hspans
  rw [← hscopes'] at hspans'
  have htwin := (Item.likeAll h).steady _ _ [p.span] [q.span] [] [] hfits.laid hfits'.laid
    (by simpa [Context.start] using hspans) (by simpa [Context.start] using hspans')
    (.cons (.inl ⟨hfits.within, hfits'.within⟩) .nil) .nil
  have hstart : Context.Twin (Outline.Sees (p.context.scopes.map (·.span))
      (q.context.scopes.map (·.span))) (.start p.span) (.start q.span) :=
    ⟨.cons ⟨rfl, rfl, .nil⟩ .nil, rfl⟩
  have hcontext := (htwin.enter hstart).scopes
  rw [← hscopes, ← hscopes'] at hcontext
  refine ⟨_, htwin, hcontext, fun n n' hn => Context.scopeAt_eq ?_⟩
  have hsees := List.forall₂_map_left_iff.1 (List.forall₂_map_right_iff.1 hn)
  refine List.forall₂_iff_zip.2 ⟨hcontext.length_eq, fun hmem => ⟨?_, ?_⟩⟩
  · exact ((List.forall₂_iff_zip.1 hcontext).2 hmem).id
  · exact (List.forall₂_iff_zip.1 hsees).2 hmem

end Scad
