/-!
# Tables in order of first entry

A table from names to values. A name keeps the place at which it was first entered, also when its
value is replaced.
-/

namespace Scad

/-- Names with their values, in order of first entry. -/
structure Table (α : Type) where
  entries : List (String × α) := []

namespace Table

variable {α : Type}

def get? (t : Table α) (name : String) : Option α := t.entries.lookup name

/-- Replaces the value of a name in place, or enters the name at the end. -/
def insertIn (name : String) (value : α) : List (String × α) → List (String × α)
  | [] => [(name, value)]
  | (k, v) :: rest =>
    if k == name then (k, value) :: rest else (k, v) :: insertIn name value rest

def insert (t : Table α) (name : String) (value : α) : Table α :=
  ⟨insertIn name value t.entries⟩

/-- Same names in the same order, with values that agree. -/
def agreeIn (same : α → α → Bool) : List (String × α) → List (String × α) → Bool
  | [], [] => true
  | (k, v) :: rest, (k', v') :: rest' => k == k' && same v v' && agreeIn same rest rest'
  | _, _ => false

def agree (same : α → α → Bool) (a b : Table α) : Bool := agreeIn same a.entries b.entries

/-- Same names, in whatever order, with values that are the same. -/
def equal (same : α → α → Bool) (a b : Table α) : Bool :=
  a.entries.length == b.entries.length &&
    a.entries.all fun (k, v) =>
      match b.get? k with
      | some v' => same v v'
      | none => false

/-! ## Reading what was written -/

theorem lookup_cons (k name : String) (value : α) (es : List (String × α)) :
    ((name, value) :: es).lookup k = if k = name then some value else es.lookup k := by
  by_cases h : k = name
  · rw [h, List.lookup_cons_self, if_pos rfl]
  · have hb : (k == name) = false := by simp [h]
    rw [List.lookup_cons, hb, if_neg h]

theorem lookup_insertIn (k name : String) (value : α) (es : List (String × α)) :
    (insertIn name value es).lookup k = if k = name then some value else es.lookup k := by
  induction es with
  | nil => exact lookup_cons k name value []
  | cons e es ih =>
    obtain ⟨x, v⟩ := e
    by_cases hx : x = name
    · subst hx
      by_cases hk : k = x <;> simp [insertIn, lookup_cons, hk]
    · by_cases hk : k = name
      · subst hk
        have hx' : ¬ k = x := fun h => hx h.symm
        rw [if_pos rfl] at ih
        simp [insertIn, lookup_cons, hx, hx', ih]
      · simp [insertIn, lookup_cons, hx, ih, hk]

/-- The last value written under a name is the one that is found. -/
theorem get?_insert (t : Table α) (k name : String) (value : α) :
    (t.insert name value).get? k = if k = name then some value else t.get? k :=
  lookup_insertIn k name value t.entries

end Table
end Scad
