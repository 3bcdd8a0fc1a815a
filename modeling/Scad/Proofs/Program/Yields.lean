import Mathlib.Data.List.Forall2
import Scad.Program.Reading
import Scad.Token

/-!
# Steps of reading that succeed

What a node is read as does not depend on the context in which it is read. `Yields` says that a step
gives the same result in every context; each step of reading yields what its parts do.
-/

namespace Scad

namespace Read

/-- The step succeeds with this result in every context. -/
def Yields {α : Type} (m : Read α) (a : α) : Prop := ∀ c : Context, ∃ c', m.run c = (.ok a, c')

variable {α β : Type} {a : α} {b : β}

/-- The second step goes on where the first one succeeds. Where it fails, so do both. -/
theorem run_bind {σ : Type} (m : ExceptT Failure (StateM σ) α)
    (k : α → ExceptT Failure (StateM σ) β) (s : σ) :
    (m >>= k).run s = match m.run s with
      | (.ok a, s') => (k a).run s'
      | (.error e, s') => (.error e, s') := by
  show ExceptT.bindCont k (m.run s).1 (m.run s).2 = _
  obtain ⟨result, s'⟩ := m.run s
  cases result <;> rfl

theorem yields_pure (a : α) : Yields (pure a) a := fun c => ⟨c, rfl⟩

theorem Yields.bind {m : Read α} {k : α → Read β} (hm : Yields m a) (hk : Yields (k a) b) :
    Yields (m >>= k) b := by
  intro c
  obtain ⟨c1, h1⟩ := hm c
  obtain ⟨c2, h2⟩ := hk c1
  refine ⟨c2, ?_⟩
  rw [run_bind, h1]
  exact h2

theorem yields_update (f : Context → Context) : Yields (update f) () := fun c => ⟨f c, rfl⟩

theorem Yields.inScope {m : Read α} (h : Yields m a) (kind : ScopeKind) (span : Span) :
    Yields (Read.inScope kind span m) a := by
  intro c
  obtain ⟨c', hc⟩ := h (c.push kind span)
  refine ⟨c'.pop, ?_⟩
  show ((m.run (c.push kind span)).1, (m.run (c.push kind span)).2.pop) = _
  rw [hc]

theorem Yields.each {f : α → Read β} {as : List α} {bs : List β}
    (h : List.Forall₂ (fun a b => Yields (f a) b) as bs) : Yields (Read.each f as) bs := by
  induction h with
  | nil => exact yields_pure []
  | cons ha _ ih => exact ha.bind (ih.bind (yields_pure _))

end Read

open Read

namespace Shape

variable {n : Shape} {r : Role} {c : Reading}

theorem yields_need (h : n.child? r = some c) : Yields (n.need r) c := by
  rw [need, h]
  exact yields_pure c

theorem yields_exprIn {e : Expr} (h : n.child? r = some c) (hc : Yields c.expr e) :
    Yields (n.exprIn r) e :=
  (yields_need h).bind hc

theorem yields_stmtIn {s : Stmt} (h : n.child? r = some c) (hc : Yields c.stmt s) :
    Yields (n.stmtIn r) s :=
  (yields_need h).bind hc

theorem yields_assignmentsIn {bs : List Assignment} (h : n.child? r = some c)
    (hc : Yields c.assignments bs) : Yields (n.assignmentsIn r) bs :=
  (yields_need h).bind hc

theorem yields_tailIn {t : List Clause × Expr} (h : n.child? r = some c) (hc : Yields c.tail t) :
    Yields (n.tailIn r) t :=
  (yields_need h).bind hc

theorem yields_symbolIn (h : n.child? r = some c) :
    Yields (n.symbolIn r) (String.ofList (textIn n.source c.region), .ofRegion c.region) :=
  (yields_need h).bind (yields_pure _)

theorem yields_optional {α : Type} {f : Reading → Read α} {a : α} (h : n.child? r = some c)
    (hc : Yields (f c) a) : Yields (n.optional r f) (some a) := by
  rw [optional, h]
  exact hc.bind (yields_pure _)

theorem yields_optional_none {α : Type} {f : Reading → Read α} (h : n.child? r = none) :
    Yields (n.optional r f) none := by
  rw [optional, h]
  exact yields_pure none

theorem yields_args {as : List Arg} (h : n.child? .arguments = some c) (hc : Yields c.arguments as) :
    Yields n.args as := by
  rw [args, h]
  exact hc

theorem yields_params {ps : List Param} (h : n.child? .parameters = some c)
    (hc : Yields c.parameters ps) : Yields n.params ps := by
  rw [params, h]
  exact hc

theorem yields_nameIn (h : n.child? r = some c)
    (hl : c.label = .form .identifier ∨ c.label = .form .specialVariable) :
    Yields (n.nameIn r)
      ⟨String.ofList (textIn n.source c.region), (Span.ofRegion c.region).withText n.source⟩ := by
  refine (yields_need h).bind ?_
  rcases hl with hl | hl <;> simp only [readName, hl] <;> exact yields_pure _

end Shape
end Scad
