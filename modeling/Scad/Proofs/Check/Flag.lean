import Scad.Check.Strict
import Scad.Proofs.Scope.Outline

/-!
# The first finding, by a flag or by an exit

A program is checked by a visitor that keeps a flag: once a finding is noted, its hooks return at
once. This comes to the same as a visit that stops at the first finding (`Program.validate_eq`), one
hook at a time and then along the outline of the program.
-/

namespace Scad
namespace Strict

/-- Stops at the first finding of a part. -/
def check (c : Context) (p : Part) : Except Failure Unit :=
  match findings c p with
  | [] => .ok ()
  | (v, span) :: _ => .error (.violation v span)

/-- What is noted where nothing was before. -/
def noted? : Except Failure Unit → Option Failure
  | .ok _ => none
  | .error f => some f

/-- A walk with the flag does what one with an exit does: it notes the failure that the other stops
with, and nothing where a failure has been noted before. -/
def Flags (w : StateM (Option Failure) Unit) (x : Except Failure Unit) : Prop :=
  ∀ flag, w.run flag = ((), flag <|> noted? x)

theorem flags_pure : Flags (pure ()) (.ok ()) := fun flag => by cases flag <;> rfl

theorem Flags.bind {w w' : StateM (Option Failure) Unit} {x x' : Except Failure Unit}
    (h : Flags w x) (h' : Flags w' x') :
    Flags (do w; w') (do x; x') := by
  intro flag
  rw [StateT.run_bind, h flag]
  show w'.run (flag <|> noted? x) = _
  rw [h']
  cases flag <;> cases x <;> rfl

/-- Of several findings the first one is noted. -/
theorem run_note (fs : List Finding) (flag : Option Failure) : (fs.forM note).run flag =
    ((), flag <|> fs.head?.map fun f => .violation f.1 f.2) := by
  induction fs generalizing flag with
  | nil => cases flag <;> rfl
  | cons f fs ih =>
    rw [List.forM_eq_forM, List.forM_cons, StateT.run_bind]
    show (fs.forM note).run (flag <|> some (.violation f.1 f.2)) = _
    rw [ih]
    cases flag <;> rfl

theorem noted?_check (c : Context) (p : Part) :
    noted? (check c p) = (findings c p).head?.map fun f => .violation f.1 f.2 := by
  unfold check
  cases findings c p <;> rfl

theorem hook_visitor (c : Context) (p : Part) (w : StateM (Option Failure) Unit) :
    (visitor c).hook p w = hook (findings c p) w := by
  cases p <;> rfl

/-- At a part the findings come before the walk, and the walk only where there are none. -/
theorem Flags.hook (c : Context) (p : Part) {w : StateM (Option Failure) Unit}
    {x : Except Failure Unit} (h : Flags w x) :
    Flags ((visitor c).hook p w) ((Visitor.entering (check c)).hook p x) := by
  have hnote : Flags ((findings c p).forM note) (check c p) := fun flag => by
    rw [run_note, noted?_check]
  rw [hook_visitor, Visitor.hook_entering]
  rintro (_ | f)
  · exact (hnote.bind h) none
  · rfl

/-- The whole visit, one entry of the outline after the other. -/
theorem flags_visit (c : Context) (o : Outline) :
    Flags (o.visit (visitor c)) (o.visit (.entering (check c))) := by
  induction o with
  | nil => exact flags_pure
  | name _ _ ih => exact ih
  | part p _ _ ihi ihn => exact (ihi.hook c p).bind ihn
  | binding _ _ _ _ ihi ihn | param _ _ _ ihi ihn => exact ihi.bind ihn
  | scope _ _ _ _ _ ihb ihi ihn => exact ihb.bind (ihi.bind ihn)

end Strict

/-- Checking with the flag is checking up to the first finding. -/
theorem Program.validate_eq (p : Program) : p.validate = p.visit (Strict.check p.context) := by
  have h := Strict.flags_visit p.context (Item.outlineAll p.items) none
  rw [Item.visitAll_outline, Item.visitAll_outline] at h
  have hflag : ((p.accept (Strict.visitor p.context)).run none).2 =
      Strict.noted? (p.visit (Strict.check p.context)) := congrArg Prod.snd h
  unfold validate
  rw [hflag]
  cases p.visit (Strict.check p.context) <;> rfl

end Scad
