import Scad.Program
import Scad.Proofs.Program.Matched
import Scad.Proofs.Program.Yields

/-!
# Programs that are alike

Two parts of programs are alike if they agree wherever they stand and are printed in the same way.
`Read.Follows` carries this over to steps of reading: where one step succeeds so does the other, the
results are alike, and so are the contexts that the steps leave behind.
-/

namespace Scad

open Piece

/-! ## Parts of programs -/

/-- The same name, wherever it stands. -/
def Name.Alike (n n' : Name) : Prop := n'.text = n.text

theorem Name.Alike.agree {n n' : Name} (h : n.Alike n') : n'.agree .ignored n = true := by
  have h : n'.text = n.text := h
  simp [Name.agree, Places.ignored, h]

theorem Name.Alike.pieces {n n' : Name} (h : n.Alike n') : n'.pieces = n.pieces := by
  have h : n'.text = n.text := h
  simp [Name.pieces, Name.isSpecial, h]

structure Expr.Alike (e e' : Expr) : Prop where
  agree : e'.agree .ignored e = true
  pieces : e'.pieces = e.pieces
  number : e'.number?.isSome = e.number?.isSome

structure Arg.Alike (a a' : Arg) : Prop where
  agree : a'.agree .ignored a = true
  pieces : a'.pieces = a.pieces

structure Assignment.Alike (b b' : Assignment) : Prop where
  agree : b'.agree .ignored b = true
  pieces : b'.pieces = b.pieces

structure Param.Alike (p p' : Param) : Prop where
  agree : p'.agree .ignored p = true
  pieces : p'.pieces = p.pieces
  name : p.name.Alike p'.name
  default : Option.Rel Expr.Alike p.default p'.default

structure LoopHead.Alike (h h' : LoopHead) : Prop where
  agree : h'.agree .ignored h = true
  pieces : h'.pieces = h.pieces

/-- The clauses of a comprehension with its body. -/
structure TailAlike (t t' : List Clause × Expr) : Prop where
  agree : Clause.agreeAll .ignored t'.1 t.1 = true
  pieces : Clause.piecesAll t'.1 = Clause.piecesAll t.1
  body : t.2.Alike t'.2

structure Stmt.Alike (s s' : Stmt) : Prop where
  agree : s'.agree .ignored s = true
  pieces : ∀ d, s'.pieces d = s.pieces d
  isEmpty : s'.isEmpty = s.isEmpty

structure Item.Alike (i i' : Item) : Prop where
  agree : i'.agree .ignored i = true
  pieces : ∀ d, i'.pieces d = i.pieces d

/-! ### Lists and options -/

theorem Expr.alike_all {as as' : List Expr} (h : List.Forall₂ Expr.Alike as as') :
    Expr.agreeAll .ignored as' as = true ∧ Expr.piecesAll as' = Expr.piecesAll as := by
  induction h with
  | nil => simp [Expr.agreeAll]
  | cons ha _ ih => simp [Expr.agreeAll, Expr.piecesAll, ha.agree, ha.pieces, ih]

theorem Arg.alike_all {as as' : List Arg} (h : List.Forall₂ Arg.Alike as as') :
    Arg.agreeAll .ignored as' as = true ∧ Arg.piecesAll as' = Arg.piecesAll as := by
  induction h with
  | nil => simp [Arg.agreeAll]
  | cons ha _ ih => simp [Arg.agreeAll, Arg.piecesAll, ha.agree, ha.pieces, ih]

theorem Assignment.alike_all {as as' : List Assignment}
    (h : List.Forall₂ Assignment.Alike as as') :
    Assignment.agreeAll .ignored as' as = true ∧
      Assignment.piecesAll as' = Assignment.piecesAll as := by
  induction h with
  | nil => simp [Assignment.agreeAll]
  | cons ha _ ih => simp [Assignment.agreeAll, Assignment.piecesAll, ha.agree, ha.pieces, ih]

theorem Param.alike_all {as as' : List Param} (h : List.Forall₂ Param.Alike as as') :
    Param.agreeAll .ignored as' as = true ∧ Param.piecesAll as' = Param.piecesAll as := by
  induction h with
  | nil => simp [Param.agreeAll]
  | cons ha _ ih => simp [Param.agreeAll, Param.piecesAll, ha.agree, ha.pieces, ih]

theorem Item.alike_all {is is' : List Item} (h : List.Forall₂ Item.Alike is is') :
    Item.agreeAll .ignored is' is = true ∧ ∀ d, Item.lines d is' = Item.lines d is := by
  induction h with
  | nil => simp [Item.agreeAll]
  | cons ha _ ih => simp [Item.agreeAll, Item.lines, ha.agree, ha.pieces, ih]

theorem Expr.agreeOption_of_rel {e e' : Option Expr} (h : Option.Rel Expr.Alike e e') :
    Expr.agreeOption .ignored e' e = true := by
  cases h with
  | none => simp [Expr.agreeOption]
  | some h => simp [Expr.agreeOption, h.agree]

/-! ## Contexts -/

theorem Table.agreeIn_insertIn {α : Type} {same : α → α → Bool} {v v' : α} (hv : same v' v = true)
    (name : String) : ∀ es es' : List (String × α), agreeIn same es' es = true →
      agreeIn same (insertIn name v' es') (insertIn name v es) = true
  | [], [], _ => by simp [insertIn, agreeIn, hv]
  | [], _ :: _, h => by simp [agreeIn] at h
  | _ :: _, [], h => by simp [agreeIn] at h
  | (k, x) :: es, (k', x') :: es', h => by
    simp only [agreeIn, Bool.and_eq_true, beq_iff_eq] at h
    obtain ⟨⟨rfl, hx⟩, hrest⟩ := h
    simp only [insertIn]
    split
    · simp [agreeIn, hv, hrest]
    · simp [agreeIn, hx, agreeIn_insertIn hv name es es' hrest]

theorem Table.agree_insert {α : Type} {same : α → α → Bool} {t t' : Table α} {v v' : α}
    {name name' : String} (h : t'.agree same t = true) (hn : name' = name)
    (hv : same v' v = true) : (t'.insert name' v').agree same (t.insert name v) = true := by
  rw [hn]
  exact agreeIn_insertIn hv name _ _ h

theorem listAgree_of_forall₂ {α : Type} {same : α → α → Bool} {as as' : List α}
    (h : List.Forall₂ (fun a a' => same a' a = true) as as') : listAgree same as' as = true := by
  induction h with
  | nil => rfl
  | cons ha _ ih => simp [listAgree, ha, ih]

theorem forall₂_modify {α : Type} {R : α → α → Prop} {f f' : α → α}
    (hf : ∀ a a', R a a' → R (f a) (f' a')) {as as' : List α} (h : List.Forall₂ R as as') :
    ∀ i, List.Forall₂ R (as.modify i f) (as'.modify i f') := by
  induction h with
  | nil => intro i; cases i <;> exact .nil
  | cons ha hrest ih =>
    intro i
    cases i with
    | zero => exact .cons (hf _ _ ha) hrest
    | succ i => exact .cons ha (ih i)

namespace Context

/-- The same scopes, names and registries, wherever things stand. -/
structure Alike (c c' : Context) : Prop where
  scopes : List.Forall₂ (fun s s' => s'.agree .ignored s = true) c.scopes c'.scopes
  specials : c'.specials.agree (SpecialBinding.agree .ignored) c.specials = true
  modules : c'.modules.agree (Signature.agree .ignored) c.modules = true
  functions : c'.functions.agree (Signature.agree .ignored) c.functions = true
  stack : c'.stack = c.stack

variable {c c' : Context}

theorem Alike.agree (h : c.Alike c') : c'.finish.agree .ignored c.finish = true := by
  simp [Context.agree, finish, listAgree_of_forall₂ h.scopes, h.specials, h.modules, h.functions]

theorem alike_start (span span' : Span) : (start span).Alike (start span') :=
  ⟨.cons rfl .nil, rfl, rfl, rfl, rfl⟩

theorem Alike.current (h : c.Alike c') : c'.current = c.current := by
  rw [Context.current, h.stack]
  rfl

theorem Alike.push (h : c.Alike c') (kind : ScopeKind) (span span' : Span) :
    (c.push kind span).Alike (c'.push kind span') := by
  refine ⟨?_, h.specials, h.modules, h.functions, ?_⟩
  · refine List.rel_append h.scopes (.cons ?_ .nil)
    simp [Scope.agree, Scope.alike, Places.ignored, h.scopes.length_eq, h.current, Table.agree,
      Table.agreeIn]
  · simp [Context.push, h.scopes.length_eq, h.stack]

theorem Alike.pop (h : c.Alike c') : c.pop.Alike c'.pop := by
  have hs := h.stack
  unfold Context.pop
  rw [hs]
  split
  · exact ⟨h.scopes, h.specials, h.modules, h.functions, rfl⟩
  · exact h

theorem Alike.declare (h : c.Alike c') {n n' : Name} {e e' : Option Expr} (hn : n.Alike n')
    (he : Expr.agreeOption .ignored e' e = true) : (c.declare n e).Alike (c'.declare n' e') := by
  refine ⟨?_, h.specials, h.modules, h.functions, h.stack⟩
  simp only [Context.declare, h.current]
  refine forall₂_modify (fun s s' hs => ?_) h.scopes _
  simp only [Scope.agree, Scope.alike, Bool.and_eq_true] at hs ⊢
  refine ⟨hs.1, Table.agree_insert hs.2 hn ?_⟩
  simp [Binding.agree, hn.agree, he]

theorem Alike.assign (h : c.Alike c') {n n' : Name} {e e' : Expr} (hn : n.Alike n')
    (he : e'.agree .ignored e = true) (span span' : Span) :
    (c.assign n e span).Alike (c'.assign n' e' span') := by
  have hd := h.declare hn (Expr.agreeOption_iff.2 (.some he))
  have hsp : n'.isSpecial = n.isSpecial := by
    rw [Name.isSpecial, show n'.text = n.text from hn]
    rfl
  unfold Context.assign
  dsimp only
  rw [hsp]
  split
  · refine ⟨hd.scopes, Table.agree_insert hd.specials hn ?_, hd.modules, hd.functions, hd.stack⟩
    simp [SpecialBinding.agree, he, Places.ignored]
  · exact hd

theorem agree_signature {n n' : Name} {ps ps' : List Param} (hn : n.Alike n')
    (hp : Param.agreeAll .ignored ps' ps = true) (span span' : Span) {i i' : Nat} (hi : i' = i) :
    Signature.agree .ignored ⟨n', ps', span', i'⟩ ⟨n, ps, span, i⟩ = true := by
  simp [Signature.agree, hn.agree, hp, Places.ignored, hi]

theorem Alike.defineModule (h : c.Alike c') {n n' : Name} {ps ps' : List Param} (hn : n.Alike n')
    (hp : Param.agreeAll .ignored ps' ps = true) (span span' : Span) :
    (c.defineModule n ps span).Alike (c'.defineModule n' ps' span') :=
  ⟨h.scopes, h.specials,
    Table.agree_insert h.modules hn (agree_signature hn hp span span' h.current), h.functions,
    h.stack⟩

theorem Alike.defineFunction (h : c.Alike c') {n n' : Name} {ps ps' : List Param}
    (hn : n.Alike n') (hp : Param.agreeAll .ignored ps' ps = true) (span span' : Span) :
    (c.defineFunction n ps span).Alike (c'.defineFunction n' ps' span') :=
  ⟨h.scopes, h.specials, h.modules,
    Table.agree_insert h.functions hn (agree_signature hn hp span span' h.current), h.stack⟩

theorem Alike.declareParams {ps ps' : List Param} (hp : List.Forall₂ Param.Alike ps ps') :
    ∀ {c c' : Context}, c.Alike c' → (c.declareParams ps).Alike (c'.declareParams ps') := by
  induction hp with
  | nil => exact fun h => h
  | cons hp _ ih => exact fun h => ih (h.declare hp.name (Expr.agreeOption_of_rel hp.default))

end Context

/-! ## Steps of reading -/

namespace Read

variable {α β : Type} {R : α → α → Prop} {T : β → β → Prop}

/-- Where the first step succeeds, the second one does too, and all that they give is alike. -/
def Follows (R : α → α → Prop) (m m' : Read α) : Prop :=
  ∀ c c' a d, Context.Alike c c' → m.run c = (.ok a, d) →
    ∃ a' d', m'.run c' = (.ok a', d') ∧ R a a' ∧ Context.Alike d d'

theorem follows_pure {a a' : α} (h : R a a') : Follows R (pure a) (pure a') := by
  intro c c' b d hc hrun
  have hrun : ((Except.ok a : Except Failure α), c) = (.ok b, d) := hrun
  obtain ⟨rfl, rfl⟩ : a = b ∧ c = d := by simpa using hrun
  exact ⟨a', c', rfl, h, hc⟩

/-- A step that fails is followed by any other. -/
theorem follows_throw (e : Failure) (m : Read α) : Follows R (throw e) m := by
  intro c c' a d _ hrun
  have hrun : ((Except.error e : Except Failure α), c) = (.ok a, d) := hrun
  simp at hrun

theorem Follows.bind {m m' : Read α} {k k' : α → Read β} (hm : Follows R m m')
    (hk : ∀ a a', R a a' → Follows T (k a) (k' a')) : Follows T (m >>= k) (m' >>= k') := by
  intro c c' b d hc hrun
  rw [run_bind] at hrun
  cases h : m.run c with
  | mk result c1 =>
    rw [h] at hrun
    cases result with
    | error e =>
      have hrun : ((Except.error e : Except Failure β), c1) = (.ok b, d) := hrun
      simp at hrun
    | ok a =>
      obtain ⟨a', c1', h', ha, hc1⟩ := hm c c' a c1 hc h
      obtain ⟨b', d', hb, hT, hd⟩ := hk a a' ha c1 c1' b d hc1 hrun
      refine ⟨b', d', ?_, hT, hd⟩
      rw [run_bind, h']
      exact hb

theorem follows_update {g g' : Context → Context} (h : ∀ c c', c.Alike c' → (g c).Alike (g' c')) :
    Follows (fun _ _ => True) (update g) (update g') := by
  intro c c' a d hc hrun
  have hrun : ((Except.ok () : Except Failure Unit), g c) = (.ok a, d) := hrun
  obtain rfl : g c = d := by simpa using hrun
  exact ⟨(), g' c', rfl, trivial, h c c' hc⟩

theorem Follows.inScope {m m' : Read α} (h : Follows R m m') (kind : ScopeKind)
    (span span' : Span) : Follows R (Read.inScope kind span m) (Read.inScope kind span' m') := by
  intro c c' a d hc hrun
  have hrun : ((m.run (c.push kind span)).1, (m.run (c.push kind span)).2.pop) = (.ok a, d) := hrun
  obtain ⟨h1, rfl⟩ := Prod.mk.inj hrun
  obtain ⟨a', d', h', ha, hd⟩ := h _ _ a _ (hc.push kind span span') (Prod.ext h1 rfl)
  refine ⟨a', d'.pop, ?_, ha, hd.pop⟩
  show ((m'.run (c'.push kind span')).1, (m'.run (c'.push kind span')).2.pop) = _
  rw [h']

theorem Follows.each {γ : Type} {g g' : γ → Read α} {as as' : List γ}
    (h : List.Forall₂ (fun a a' => Follows R (g a) (g' a')) as as') :
    Follows (List.Forall₂ R) (Read.each g as) (Read.each g' as') := by
  induction h with
  | nil => exact follows_pure .nil
  | cons ha _ ih =>
    exact ha.bind fun _ _ hb => ih.bind fun _ _ hbs => follows_pure (.cons hb hbs)

end Read
end Scad
