import Scad.Proofs.Program.Spans

/-!
# What is registered

The registries of a context keep one entry for each name, in order of first entry, and the entry is
the last one that was made. Definitions are entered before their bodies are read, so the last one is
the last in the source. A binding is entered when its value has been read: the last one is the one
that ends last. Main statement: `Program.registries_complete`.
-/

namespace Scad

/-! ## Tables that keep the last entry -/

namespace Table

variable {α β : Type}

theorem keys_insertIn (name : String) (value : α) (es : List (String × α)) :
    (insertIn name value es).map Prod.fst =
      if name ∈ es.map Prod.fst then es.map Prod.fst else es.map Prod.fst ++ [name] := by
  induction es with
  | nil => rfl
  | cons e es ih =>
    obtain ⟨k, v⟩ := e
    by_cases hk : k = name
    · simp [insertIn, hk]
    · have hk' : ¬ name = k := fun h => hk h.symm
      simp only [insertIn, beq_iff_eq, hk, if_false, List.map_cons, ih, List.mem_cons, hk',
        false_or]
      split <;> rfl

/-- Where no name is entered twice, the old value of a name is gone. -/
theorem mem_insertIn_of_nodup {name : String} {value : α} {es : List (String × α)}
    (hes : (es.map Prod.fst).Nodup) {e : String × α} (he : e ∈ insertIn name value es) :
    e = (name, value) ∨ e.1 ≠ name ∧ e ∈ es := by
  induction es with
  | nil => exact .inl (List.mem_singleton.1 he)
  | cons x es ih =>
    obtain ⟨k, v⟩ := x
    obtain ⟨hk, hes⟩ := List.nodup_cons.1 hes
    rw [insertIn] at he
    split at he
    · rename_i hname
      obtain rfl := beq_iff_eq.1 hname
      rcases List.mem_cons.1 he with rfl | hmem
      · exact .inl rfl
      · refine .inr ⟨?_, List.mem_cons_of_mem _ hmem⟩
        rintro rfl
        exact hk (List.mem_map.2 ⟨e, hmem, rfl⟩)
    · rename_i hname
      rcases List.mem_cons.1 he with rfl | he
      · exact .inr ⟨by simpa using hname, List.mem_cons_self⟩
      · exact (ih hes he).imp_right (And.imp_right (List.mem_cons_of_mem _))

theorem eraseDups_concat (ks : List String) (k : String) :
    (ks ++ [k]).eraseDups = if k ∈ ks then ks.eraseDups else ks.eraseDups ++ [k] := by
  rw [List.eraseDups_append]
  by_cases h : k ∈ ks
  · simp [List.removeAll, h]
  · simp [List.removeAll, h, List.eraseDups_cons]

/-- A table that was written from a log: the names of the log in order of first entry, each with
what was written last under it. -/
structure Records (t : Table α) (key : β → String) (writes : β → α → Prop) (log : List β) :
    Prop where
  names : t.entries.map Prod.fst = (log.map key).eraseDups
  distinct : (t.entries.map Prod.fst).Nodup
  latest : ∀ e ∈ t.entries, ∃ b, log.reverse.find? (fun b => key b == e.1) = some b ∧ writes b e.2

variable {key : β → String} {writes : β → α → Prop}

theorem records_nil : ({} : Table α).Records key writes [] := ⟨rfl, .nil, nofun⟩

theorem Records.insert {t : Table α} {log : List β} (h : t.Records key writes log) {b : β}
    {value : α} (hb : writes b value) : (t.insert (key b) value).Records key writes (log ++ [b]) := by
  have hkeys := keys_insertIn (key b) value t.entries
  refine ⟨?_, ?_, fun e he => ?_⟩
  · rw [Table.insert, hkeys, List.map_append, List.map_singleton, eraseDups_concat, ← h.names]
    simp only [h.names, List.mem_eraseDups]
  · rw [Table.insert, hkeys]
    split
    · exact h.distinct
    · rename_i hnew
      exact List.nodup_append.2 ⟨h.distinct, List.nodup_singleton _, by
        rintro k hk k' hk' rfl
        exact hnew (List.mem_singleton.1 hk' ▸ hk)⟩
  · rw [List.reverse_append, List.reverse_singleton, List.singleton_append, List.find?_cons]
    rcases mem_insertIn_of_nodup h.distinct he with rfl | ⟨hne, he⟩
    · exact ⟨b, by simp, hb⟩
    · have hne' : (key b == e.1) = false := beq_false_of_ne hne.symm
      rw [hne']
      exact h.latest e he

end Table

/-! ## Registries -/

/-- What can be defined. -/
inductive Definable where
  | module | function

/-- A definition without its body. -/
structure Definition where
  name : Name
  params : List Param
  span : Span

def Definition.key (d : Definition) : String := d.name.text

/-- The definition is registered with this signature. -/
def Definition.Signed (d : Definition) (s : Signature) : Prop :=
  s.name = d.name ∧ s.params = d.params ∧ s.span = d.span

def Assignment.key (b : Assignment) : String := b.name.text

/-- The binding is registered with this value. -/
def Assignment.Registered (b : Assignment) (s : SpecialBinding) : Prop :=
  s.value = b.value ∧ s.span = b.span

def Context.registry (c : Context) : Definable → Table Signature
  | .module => c.modules
  | .function => c.functions

namespace Edit

/-- What a step defines. -/
def definition? : Definable → Edit → Option Definition
  | .module, .defineModule n ps s | .function, .defineFunction n ps s => some ⟨n, ps, s⟩
  | _, _ => none

/-- What a step binds. -/
def binding? : Edit → Option Assignment
  | .assign n e s => some (.mk n e s)
  | _ => none

/-- What a step binds to a special name. -/
def special? (e : Edit) : Option Assignment := e.binding?.filter (·.name.isSpecial)

end Edit

namespace Context

variable {c : Context} {α β : Type} {key : β → String} {writes : β → α → Prop}

theorem registry_pop (k : Definable) : c.pop.registry k = c.registry k := by
  unfold Context.pop
  split <;> cases k <;> rfl

theorem specials_pop : c.pop.specials = c.specials := by
  unfold Context.pop
  split <;> rfl

theorem registry_assign (k : Definable) (n : Name) (e : Expr) (s : Span) :
    (c.assign n e s).registry k = c.registry k := by
  unfold Context.assign
  dsimp only
  split <;> cases k <;> rfl

theorem records_definition {k : Definable} {log : List Definition}
    (h : (c.registry k).Records Definition.key Definition.Signed log) (e : Edit) :
    ((c.edit e).registry k).Records Definition.key Definition.Signed
      (log ++ (e.definition? k).toList) := by
  have same : ∀ c' : Context, c'.registry k = c.registry k →
      (c'.registry k).Records Definition.key Definition.Signed (log ++ []) := by
    intro c' hc'
    rwa [hc', List.append_nil]
  cases e with
  | push => cases k <;> exact same _ rfl
  | pop => cases k <;> exact same _ (registry_pop _)
  | declare => cases k <;> exact same _ rfl
  | assign n e s => cases k <;> exact same _ (registry_assign _ n e s)
  | defineModule n ps s =>
    cases k with
    | module => exact h.insert (b := ⟨n, ps, s⟩) ⟨rfl, rfl, rfl⟩
    | function => exact same _ rfl
  | defineFunction n ps s =>
    cases k with
    | module => exact same _ rfl
    | function => exact h.insert (b := ⟨n, ps, s⟩) ⟨rfl, rfl, rfl⟩

theorem records_special {log : List Assignment}
    (h : c.specials.Records Assignment.key Assignment.Registered log) (e : Edit) :
    (c.edit e).specials.Records Assignment.key Assignment.Registered
      (log ++ e.special?.toList) := by
  have same : ∀ c' : Context, c'.specials = c.specials →
      c'.specials.Records Assignment.key Assignment.Registered (log ++ []) := by
    intro c' hc'
    rwa [hc', List.append_nil]
  cases e with
  | pop => exact same _ specials_pop
  | assign n e s =>
    show (c.assign n e s).specials.Records _ _ _
    unfold Context.assign
    by_cases hn : n.isSpecial = true
    · have hlog : (Edit.assign n e s).special? = some (.mk n e s) := by
        simp [Edit.special?, Edit.binding?, Assignment.name, hn]
      rw [if_pos hn, hlog]
      exact h.insert (b := .mk n e s) ⟨rfl, rfl⟩
    · have hlog : (Edit.assign n e s).special? = none := by
        simp [Edit.special?, Edit.binding?, Assignment.name, hn]
      rw [if_neg hn, hlog]
      exact same _ rfl
  | _ => exact same _ rfl

/-- What every step of an edit keeps up is kept up by a run. -/
theorem records_replay (view : Context → Table α) {log : Edit → Option β}
    (step : ∀ {c : Context} {done : List β}, (view c).Records key writes done →
      ∀ e, (view (c.edit e)).Records key writes (done ++ (log e).toList))
    {done : List β} (h : (view c).Records key writes done) (es : List Edit) :
    (view (c.replay es)).Records key writes (done ++ es.filterMap log) := by
  induction es generalizing c done with
  | nil => simpa using h
  | cons e es ih =>
    have hrun := ih (step h e)
    cases hlog : log e <;> simpa [hlog] using hrun

end Context

/-! ## Definitions, in the order of the source -/

namespace Element

/-- What an element defines itself. -/
def definition? : Definable → Element → Option Definition
  | .module, item (.moduleDef n ps _ s) | .function, item (.functionDef n ps _ s) => some ⟨n, ps, s⟩
  | _, _ => none

/-- Neither an item nor a statement. -/
def isPlain : Element → Bool
  | item _ | stmt _ => false
  | _ => true

theorem isPlain_child {x y : Element} (hx : x.isPlain = true) (hy : y ∈ x.children) :
    y.isPlain = true := by
  have head : ∀ {h : LoopHead}, y ∈ h.elements → y.isPlain = true := by
    intro h hy
    cases h <;> simp [LoopHead.elements] at hy <;> grind [isPlain]
  cases x with
  | item => cases hx
  | stmt => cases hx
  | expr e => cases e <;> simp [children] at hy <;> grind [isPlain]
  | arg a => cases a <;> simp [children] at hy <;> grind [isPlain]
  | assignment b => cases b; simp [children] at hy; grind [isPlain]
  | param p => cases p; simp [children] at hy; grind [isPlain]
  | name n => simp [children] at hy
  | clause c => cases c <;> simp [children, Clause.elements] at hy <;> grind [isPlain]

theorem isPlain_before {x y : Element} (hy : y ∈ x.before) : y.isPlain = true := by
  unfold before at hy
  split at hy <;> simp at hy <;> grind [isPlain]

/-- Definitions are found in items and statements only. -/
theorem definitions_plain (k : Definable) {x : Element} (hx : x.isPlain = true) :
    x.all.filterMap (definition? k) = [] := by
  induction x using Element.induct with
  | step x ih =>
    have hself : x.definition? k = none := by
      cases x <;> cases k <;> first | rfl | cases hx
    rw [all_eq, List.filterMap_cons_none hself, List.filterMap_flatMap, List.flatMap_eq_nil_iff]
    exact fun y hy => ih y hy (isPlain_child hx hy)

theorem definitions_opening (k : Definable) (x : Element) :
    x.opening.filterMap (Edit.definition? k) = (x.definition? k).toList := by
  have params : ∀ ps, (Param.edits ps).filterMap (Edit.definition? k) = [] :=
    Param.filterMap_edits fun _ _ => by cases k <;> rfl
  cases x with
  | item i =>
    cases i with
    | moduleDef n ps is s =>
      cases k with
      | module => exact congrArg (List.cons _) (params ps)
      | function => exact params ps
    | functionDef n ps e s =>
      cases k with
      | module => exact params ps
      | function => exact congrArg (List.cons _) (params ps)
    | _ => cases k <;> rfl
  | expr e =>
    cases e with
    | function ps body s => cases k <;> exact params ps
    | _ => cases k <;> rfl
  | stmt t => cases t <;> cases k <;> rfl
  | clause c => cases c <;> cases k <;> rfl
  | _ => cases k <;> rfl

theorem definitions_closing (k : Definable) (x : Element) :
    x.closing.filterMap (Edit.definition? k) = [] := by
  cases x with
  | item i => cases i <;> cases k <;> rfl
  | expr e =>
    cases e with
    | comprehension head cs body s =>
      have pop : Edit.definition? k .pop = none := by cases k <;> rfl
      simp [Clause.filterMap_closing, pop]
    | _ => cases k <;> rfl
  | stmt t => cases t <;> cases k <;> rfl
  | assignment b => cases b; cases k <;> rfl
  | _ => cases k <;> rfl

/-- The steps of an element define what is found in it, each definition before those in its body. -/
theorem definitions_edits (k : Definable) (x : Element) :
    x.edits.filterMap (Edit.definition? k) = x.all.filterMap (definition? k) := by
  induction x using Element.induct with
  | step x ih =>
    -- no definition stands in front of the scope of another one, so it does not matter that the
    -- parts there are read before the definition is entered
    have hbefore : x.before.flatMap (fun y => y.all.filterMap (definition? k)) = [] :=
      List.flatMap_eq_nil_iff.2 fun y hy => definitions_plain k (isPlain_before hy)
    have hbefore' : x.before.flatMap (fun y => y.edits.filterMap (Edit.definition? k)) = [] := by
      rw [← hbefore]
      exact List.flatMap_congr fun y hy => ih y (List.mem_append_left _ hy)
    have hinner : x.inner.flatMap (fun y => y.edits.filterMap (Edit.definition? k)) =
        x.inner.flatMap fun y => y.all.filterMap (definition? k) :=
      List.flatMap_congr fun y hy => ih y (List.mem_append_right _ hy)
    rw [edits_eq, all_eq, children]
    simp only [List.filterMap_append, List.filterMap_flatMap, List.flatMap_append,
      List.filterMap_cons, hbefore, hbefore', hinner, definitions_opening, definitions_closing]
    cases x.definition? k <;> simp

/-! ## Bindings, in the order in which they end -/

/-- What an element binds itself. -/
def binding? : Element → Option Assignment
  | item (.variableDef n e s) => some (.mk n e s)
  | assignment b => some b
  | _ => none

/-- What the steps of an element bind. -/
def bindings (x : Element) : List Assignment := x.edits.filterMap Edit.binding?

theorem bindings_opening (x : Element) : x.opening.filterMap Edit.binding? = [] := by
  have params : ∀ ps, (Param.edits ps).filterMap Edit.binding? = [] :=
    Param.filterMap_edits fun _ _ => rfl
  cases x with
  | item i =>
    cases i with
    | moduleDef n ps is s | functionDef n ps e s => exact params ps
    | _ => rfl
  | expr e =>
    cases e with
    | function ps body s => exact params ps
    | _ => rfl
  | stmt t => cases t <;> rfl
  | clause c => cases c <;> rfl
  | _ => rfl

theorem bindings_closing (x : Element) :
    x.closing.filterMap Edit.binding? = x.binding?.toList := by
  cases x with
  | item i => cases i <;> rfl
  | expr e =>
    cases e with
    | comprehension head cs body s =>
      have pop : Edit.binding? .pop = none := rfl
      simp [Clause.filterMap_closing, pop, binding?]
    | _ => rfl
  | stmt t => cases t <;> rfl
  | assignment b => cases b; rfl
  | _ => rfl

/-- A binding comes behind those in its value. -/
theorem bindings_eq (x : Element) :
    x.bindings = x.children.flatMap bindings ++ x.binding?.toList := by
  unfold bindings
  rw [edits_eq, children]
  simp only [List.filterMap_append, List.filterMap_flatMap, List.flatMap_append, bindings_opening,
    bindings_closing, List.append_nil]

theorem bindings_row (x : Element) : x.bindings = x.row.flatMap bindings ++ x.binding?.toList := by
  rw [bindings_eq]
  unfold row
  split
  · have hclause (c : Clause) : (clause c).bindings = c.elements.flatMap bindings := by
      simp [bindings_eq, children, binding?]
    simp [children, List.flatMap_map, List.flatMap_assoc, hclause]
  · rfl

/-- The bindings of an element are those that are found in it. -/
theorem mem_bindings {x : Element} {b : Assignment} :
    b ∈ x.bindings ↔ b ∈ x.all.filterMap binding? := by
  induction x using Element.induct with
  | step x ih =>
    have hchildren : b ∈ x.children.flatMap bindings ↔
        b ∈ x.children.flatMap fun y => y.all.filterMap binding? := by
      simp only [List.mem_flatMap]
      exact exists_congr fun y => and_congr_right fun hy => ih y hy
    rw [bindings_eq, all_eq, List.mem_append, hchildren, List.filterMap_cons,
      List.filterMap_flatMap]
    cases x.binding? <;> simp [or_comm]

/-- What a value is made of, apart from bindings: an expression, an argument or a name. -/
def isTerm : Element → Bool
  | expr _ | arg _ | name _ => true
  | _ => false

/-- A term that has parts ends with a term: behind the bindings of a value stands its body. -/
theorem isTerm_last {x z : Element} {ys : List Element} (hx : x.isTerm = true)
    (hrow : x.row = ys ++ [z]) : z.isTerm = true := by
  have hz : z ∈ x.row := by simp [hrow]
  have last : ∀ {zs : List Element} {e : Expr}, x.row = zs ++ [expr e] → z.isTerm = true := by
    intro zs e h
    obtain ⟨-, hlast⟩ := List.append_inj' (hrow.symm.trans h) rfl
    rw [List.singleton_inj.1 hlast]
    rfl
  cases x with
  | expr e =>
    cases e with
    | letIn bs body s => exact last rfl
    | function ps body s => exact last rfl
    | comprehension head cs body s => exact last (List.append_assoc _ _ _).symm
    | literal v s => simp [row, children] at hz
    | _ => simp [row, children] at hz; grind [isTerm]
  | arg a => cases a <;> simp [row, children] at hz <;> grind [isTerm]
  | name n => simp [row, children] at hz
  | _ => cases hx

/-- A binding is made of a name and a value, and stands where its element does. -/
theorem of_binding {x : Element} {b : Assignment} (h : x.binding? = some b) :
    (∀ y ∈ x.row, y.isTerm = true) ∧ x.span = b.span ∧ ∀ s, x ≠ .stmt (.empty s) := by
  cases x with
  | item i =>
    cases i with
    | variableDef n e s =>
      cases h
      exact ⟨by simp [row, children, isTerm], rfl, by simp⟩
    | _ => cases h
  | assignment b' =>
    cases b'
    cases h
    exact ⟨by simp [row, children, isTerm], rfl, by simp⟩
  | _ => cases h

variable {source : List Char} {x : Element}

theorem Sound.bindings_inside (h : x.Sound source) {b : Assignment} (hb : b ∈ x.bindings) :
    x.span.contains b.span = true ∧ b.span.start.byte < b.span.stop.byte := by
  induction x using Element.induct_row with
  | step x ih =>
    rw [bindings_row, List.mem_append, List.mem_flatMap, Option.mem_toList] at hb
    rcases hb with ⟨y, hy, hb⟩ | hb
    · obtain ⟨hsound, hinside⟩ := h.row hy
      exact (ih y hy hsound hb).imp_left (Span.contains_trans hinside)
    · obtain ⟨-, hspan, hne⟩ := of_binding hb
      rw [← hspan, Span.contains_eq_true]
      exact ⟨⟨Nat.le_refl _, Nat.le_refl _⟩, h.faithful.solid hne⟩

/-- The bindings in a term end before it does. -/
theorem Sound.bindings_lt (h : x.Sound source) (hx : x.isTerm = true) {b : Assignment}
    (hb : b ∈ x.bindings) : b.span.stop.byte < x.span.stop.byte := by
  induction x using Element.induct_row with
  | step x ih =>
    have hself : x.binding? = none := by cases x <;> first | rfl | cases hx
    rw [bindings_row, hself, Option.toList_none, List.append_nil, List.mem_flatMap] at hb
    obtain ⟨y, hy, hb⟩ := hb
    rcases List.eq_nil_or_concat x.row with hnil | ⟨ys, z, hrow⟩
    · rw [hnil] at hy
      cases hy
    rw [List.concat_eq_append] at hrow
    have hz : z ∈ x.row := by simp [hrow]
    have hterm := isTerm_last hx hrow
    obtain ⟨hsound, hinside⟩ := h.row hz
    have hstop := (Span.contains_eq_true.1 hinside).2
    rw [hrow, List.mem_append, List.mem_singleton] at hy
    rcases hy with hy | rfl
    · -- what stands before the last part ends where that part starts, if not before
      have horder := h.faithful.inOrder
      rw [hrow, List.pairwise_append] at horder
      have hle := horder.2.2 y hy z (by simp)
      have hb' := (h.row (y := y) (by simp [hrow, hy])).1.bindings_inside hb
      have hbstop := (Span.contains_eq_true.1 hb'.1).2
      have hsolid := hsound.faithful.solid fun s hs => by rw [hs] at hterm; cases hterm
      omega
    · have := ih y hz hsound hterm hb
      omega

/-- This binding ends before the other one. -/
def EndsBefore (a b : Assignment) : Prop := a.span.stop.byte < b.span.stop.byte

theorem endsBefore_flatMap {xs : List Element} (sound : ∀ x ∈ xs, x.Sound source)
    (inOrder : xs.Pairwise fun x y => x.span.stop.byte ≤ y.span.start.byte)
    (each : ∀ x ∈ xs, x.bindings.Pairwise EndsBefore) :
    (xs.flatMap bindings).Pairwise EndsBefore := by
  refine List.pairwise_flatMap.2 ⟨each, inOrder.imp_of_mem fun {x y} hx hy hxy a ha b hb => ?_⟩
  have ha' := Span.contains_eq_true.1 ((sound x hx).bindings_inside ha).1
  obtain ⟨hb', hsolid⟩ := (sound y hy).bindings_inside hb
  have hb' := Span.contains_eq_true.1 hb'
  show a.span.stop.byte < b.span.stop.byte
  omega

/-- The bindings of an element come in the order in which they end. -/
theorem Sound.bindings_endsBefore (h : x.Sound source) : x.bindings.Pairwise EndsBefore := by
  induction x using Element.induct_row with
  | step x ih =>
    rw [bindings_row, List.pairwise_append]
    refine ⟨endsBefore_flatMap (fun y hy => (h.row hy).1) h.faithful.inOrder
      fun y hy => ih y hy (h.row hy).1, ?_, fun a ha b hb => ?_⟩
    · cases x.binding? <;> simp
    · obtain ⟨y, hy, ha⟩ := List.mem_flatMap.1 ha
      obtain ⟨hterm, hspan, -⟩ := of_binding (Option.mem_toList.1 hb)
      obtain ⟨hsound, hinside⟩ := h.row hy
      have hlt := hsound.bindings_lt (hterm y hy) ha
      have hstop := (Span.contains_eq_true.1 hinside).2
      show a.span.stop.byte < b.span.stop.byte
      rw [← hspan]
      omega

end Element

/-- Of a list in order the last member with a property is behind all others that have it. -/
theorem last_of_pairwise {α : Type} {R : α → α → Prop} {p : α → Bool} {as : List α} {a : α}
    (has : as.Pairwise R) (h : as.reverse.find? p = some a) {b : α} (hb : b ∈ as)
    (hp : p b = true) : b = a ∨ R b a := by
  obtain ⟨-, later, earlier, hrev, hlater⟩ := List.find?_eq_some_iff_append.1 h
  obtain rfl : as = earlier.reverse ++ a :: later.reverse := by
    rw [← List.reverse_reverse as, hrev]
    simp
  rw [List.pairwise_append] at has
  simp only [List.mem_append, List.mem_cons, List.mem_reverse] at hb
  rcases hb with hb | rfl | hb
  · exact .inr (has.2.2 b (List.mem_reverse.2 hb) a List.mem_cons_self)
  · exact .inl rfl
  · have := hlater b hb
    simp [hp] at this

namespace Program

/-- All definitions of a program, in the order of the source, each before those in its body. -/
def definitions (p : Program) (k : Definable) : List Definition :=
  p.elements.filterMap (Element.definition? k)

/-- All bindings of a program: declarations of names and the bindings of statements, expressions and
clauses. -/
def bindings (p : Program) : List Assignment := p.elements.filterMap Element.binding?

section

variable {source : List Char} {t : Tree} {p : Program}

/-- Every definition is registered, whatever tree the program comes from. -/
theorem definitions_registered (h : Program.ofTree source t = .ok p) (k : Definable) :
    (p.context.registry k).Records Definition.key Definition.Signed (p.definitions k) := by
  have hstart : ((Context.start p.span).registry k).Records Definition.key Definition.Signed
      [] := by
    cases k <;> exact Table.records_nil
  have hrun := Context.records_replay (·.registry k) Context.records_definition hstart
    ((p.items.map Element.item).flatMap Element.edits)
  have hlog : ((p.items.map Element.item).flatMap Element.edits).filterMap (Edit.definition? k) =
      p.definitions k := by
    simp only [List.filterMap_flatMap, List.flatMap_map, Element.definitions_edits, definitions,
      elements]
  rw [context_of_tree h]
  rw [hlog, List.nil_append] at hrun
  cases k <;> exact hrun

/-- Bindings of special names are registered in the order of the steps. -/
theorem specials_registered (h : Program.ofTree source t = .ok p) :
    p.context.specials.Records Assignment.key Assignment.Registered
      (((p.items.map Element.item).flatMap Element.bindings).filter (·.name.isSpecial)) := by
  have hstart : (Context.start p.span).specials.Records Assignment.key Assignment.Registered [] :=
    Table.records_nil
  have hrun := Context.records_replay (·.specials) Context.records_special hstart
    ((p.items.map Element.item).flatMap Element.edits)
  have hlog : ((p.items.map Element.item).flatMap Element.edits).filterMap Edit.special? =
      ((p.items.map Element.item).flatMap Element.bindings).filter (·.name.isSpecial) := by
    show _ = ((p.items.map Element.item).flatMap fun x => x.edits.filterMap Edit.binding?).filter _
    rw [← List.filterMap_flatMap, List.filter_filterMap]
    rfl
  rw [context_of_tree h]
  rwa [hlog, List.nil_append] at hrun

theorem mem_bindings_items {b : Assignment} :
    b ∈ (p.items.map Element.item).flatMap Element.bindings ↔ b ∈ p.bindings := by
  simp only [bindings, elements, List.filterMap_flatMap, List.flatMap_map, List.mem_flatMap,
    Element.mem_bindings]

end

/-- The registries of a program hold what is defined and bound in it. -/
structure Registered (p : Program) : Prop where
  /-- Modules by name, in order of first definition, each with the last definition. -/
  modules : p.context.modules.Records Definition.key Definition.Signed (p.definitions .module)
  /-- Functions in the same way. -/
  functions : p.context.functions.Records Definition.key Definition.Signed (p.definitions .function)
  distinct : (p.context.specials.entries.map Prod.fst).Nodup
  /-- The special names are those of bindings. -/
  specials : ∀ name, name ∈ p.context.specials.entries.map Prod.fst ↔
    ∃ b ∈ p.bindings, b.name.isSpecial = true ∧ b.name.text = name
  /-- A special name is registered with the binding that ends last. -/
  latest : ∀ e ∈ p.context.specials.entries, ∃ b ∈ p.bindings,
    b.name.text = e.1 ∧ e.2.value = b.value ∧ e.2.span = b.span ∧
      ∀ b' ∈ p.bindings, b'.name.text = e.1 → b' = b ∨ b'.span.stop.byte < b.span.stop.byte

/-- The registries of a program that was parsed are complete. -/
theorem registries_complete {source : List Char} {p : Program} (h : Program.parse source = .ok p) :
    p.Registered := by
  have hspecials := specials_registered h
  refine ⟨definitions_registered h .module, definitions_registered h .function, hspecials.distinct,
    fun name => ?_, fun e he => ?_⟩
  · rw [hspecials.names, List.mem_eraseDups]
    simp only [List.mem_map, List.mem_filter, mem_bindings_items, and_assoc]
    rfl
  · obtain ⟨b, hlast, hvalue, hspan⟩ := hspecials.latest e he
    have hordered := Element.endsBefore_flatMap (items_fit h).sound (items_fit h).ordered
      fun x hx => ((items_fit h).sound x hx).bindings_endsBefore
    have hb := List.mem_of_find?_eq_some hlast
    have hkey : b.name.text = e.1 := beq_iff_eq.1 (List.find?_some hlast :)
    rw [List.mem_reverse, List.mem_filter, mem_bindings_items] at hb
    refine ⟨b, hb.1, hkey, hvalue, hspan, fun b' hb' hname => ?_⟩
    have hspecial : b'.name.isSpecial = true := by
      rw [Name.isSpecial, hname, ← hkey]
      exact hb.2
    refine last_of_pairwise (hordered.filter _) hlast ?_ (beq_iff_eq.2 hname)
    exact List.mem_filter.2 ⟨mem_bindings_items.2 hb', hspecial⟩

/-- A module that is defined again in its own body, and a special name that is bound in the value of
its own binding. -/
theorem registries_complete_nested :
    ∃ p, Program.parse
        "module a(){module a(k)f($r=k);}function f()=[for($q=[let($q=3)$q])$q];".toList = .ok p ∧
      p.context.modules.entries.map (fun e => (e.1, e.2.params.length)) = [("a", 1)] ∧
      p.context.functions.entries.map (fun e => (e.1, e.2.params.length)) = [("f", 0)] ∧
      p.context.specials.entries.map (fun e => (e.1, e.2.span.start.byte)) = [("$q", 49)] ∧
      p.Registered := by
  have hok : (SyntaxTree.ofSource
      "module a(){module a(k)f($r=k);}function f()=[for($q=[let($q=3)$q])$q];".toList).faults = [] := by
    decide +kernel
  have hentries : (Program.parse
      "module a(){module a(k)f($r=k);}function f()=[for($q=[let($q=3)$q])$q];".toList).toOption.map
        (fun p => (p.context.modules.entries.map (fun e => (e.1, e.2.params.length)),
          p.context.functions.entries.map (fun e => (e.1, e.2.params.length)),
          p.context.specials.entries.map (fun e => (e.1, e.2.span.start.byte)))) =
      some ([("a", 1)], [("f", 0)], [("$q", 49)]) := by
    decide +kernel
  obtain ⟨p, hp, -⟩ := parse_of_faultless hok
  rw [hp] at hentries
  obtain ⟨hmodules, hrest⟩ := Prod.mk.inj (Option.some.inj hentries)
  obtain ⟨hfunctions, hspecials⟩ := Prod.mk.inj hrest
  exact ⟨p, hp, hmodules, hfunctions, hspecials, registries_complete hp⟩

end Program
end Scad
