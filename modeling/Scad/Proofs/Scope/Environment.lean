import Scad.Proofs.Scope.Innermost
import Scad.Proofs.Scope.Registry

/-!
# A context is a stack of environments

A context keeps all scopes, the closed ones too, in one table, and beside it the numbers of those
that are open. While it is made it can be seen as something simpler: a stack of environments, each
the list of declarations made in an open scope. Opening and closing pushes and pops, a declaration
goes to the top, and a name is looked up from the top down. Main statement:
`Context.replay_refines`, for every list of steps.
-/

namespace Scad

/-! ## Environments -/

/-- The declarations made in an open scope, the latest first. -/
abbrev Environment := List Binding

namespace Environment

/-- What a step makes of the environments of the open scopes, the innermost first. The last one is
kept. -/
def step (envs : List Environment) : Edit → List Environment
  | .push _ _ => [] :: envs
  | .pop =>
    match envs with
    | _ :: env :: outer => env :: outer
    | envs => envs
  | .declare name value => envs.modifyHead (⟨name, value⟩ :: ·)
  | .assign name value _ => envs.modifyHead (⟨name, some value⟩ :: ·)
  | .defineModule _ _ _ | .defineFunction _ _ _ => envs

/-- The environments after a list of steps. -/
def run (es : List Edit) : List Environment := es.foldl step [[]]

/-- The latest declaration of a name in one environment. -/
def find? (env : Environment) (name : String) : Option Binding :=
  List.find? (fun b => b.name.text == name) env

/-- The latest declaration of a name in the innermost environment that has one. -/
def lookup (envs : List Environment) (name : String) : Option Binding :=
  envs.findSome? (find? · name)

theorem find?_cons (b : Binding) (env : Environment) (name : String) :
    find? (b :: env) name = if name = b.name.text then some b else find? env name := by
  by_cases h : name = b.name.text
  · simp [find?, h]
  · have h' : ¬ b.name.text = name := fun he => h he.symm
    simp [find?, h, h']

end Environment

/-- The value and the place of the last step that binds a name. -/
def Edit.lastBound? (es : List Edit) (name : String) : Option SpecialBinding :=
  (es.reverse.filterMap Edit.binding?).find? (·.name.text == name)
    |>.map fun b => ⟨b.value, b.span⟩

theorem Edit.lastBound?_append (es fs : List Edit) (name : String) :
    lastBound? (es ++ fs) name = (lastBound? fs name).or (lastBound? es name) := by
  simp only [lastBound?, List.reverse_append, List.filterMap_append, List.find?_append,
    Option.map_or]

namespace Context

variable {c : Context} {i j : Nat} {s : Scope} {name : String}

/-! ## Scopes after a step -/

/-- What a scope itself declares under a name. -/
def own? (c : Context) (i : Nat) (name : String) : Option Binding :=
  (c.scope? i).bind (·.names.get? name)

theorem scope?_push (kind : ScopeKind) (span : Span) (i : Nat) :
    (c.push kind span).scope? i =
      if i = c.scopes.length then some ⟨c.scopes.length, some c.current, kind, span, {}⟩
      else c.scope? i := by
  simp only [scope?, Context.push]
  by_cases h : i = c.scopes.length
  · simp [h]
  · rw [if_neg h, List.getElem?_append]
    split
    · rfl
    · rw [List.getElem?_eq_none (by simp; omega), List.getElem?_eq_none (by omega)]

theorem scope?_pop (i : Nat) : c.pop.scope? i = c.scope? i := by
  rw [scope?, scopes_pop, scope?]

theorem scope?_declare (n : Name) (v : Option Expr) (i : Nat) :
    (c.declare n v).scope? i =
      if i = c.current then
        (c.scope? i).map fun s => { s with names := s.names.insert n.text ⟨n, v⟩ }
      else c.scope? i := by
  simp only [scope?, Context.declare, List.getElem?_modify]
  by_cases h : c.current = i
  · simp [h]
  · have h' : ¬ i = c.current := fun he => h he.symm
    simp [h, h']

theorem scope?_assign (n : Name) (v : Expr) (span : Span) (i : Nat) :
    (c.assign n v span).scope? i = (c.declare n (some v)).scope? i := by
  unfold Context.assign
  dsimp only
  split <;> rfl

theorem stack_assign (n : Name) (v : Expr) (span : Span) :
    (c.assign n v span).stack = c.stack := by
  unfold Context.assign
  dsimp only
  split <;> rfl

/-- A step leaves all scopes but the current one as they are. -/
theorem scope?_edit (e : Edit) (h : c.scope? i = some s) (hi : i ≠ c.current) :
    (c.edit e).scope? i = some s := by
  cases e with
  | push kind span =>
    have hlt : i < c.scopes.length := (List.getElem?_eq_some_iff.1 h).1
    rw [edit, scope?_push, if_neg (by omega)]
    exact h
  | pop => rwa [edit, scope?_pop]
  | declare n v => rwa [edit, scope?_declare, if_neg hi]
  | assign n v span => rwa [edit, scope?_assign, scope?_declare, if_neg hi]
  | defineModule | defineFunction => exact h

/-! ## Nested scopes -/

/-- Scopes are numbered in the order in which they were opened, each but the first has one opened
earlier for a parent, and the open ones lead from parent to parent up to the root. -/
structure Nested (c : Context) : Prop where
  numbered : c.Numbered
  orphan : ∀ i s, c.scope? i = some s → (s.parent = none ↔ i = 0)
  upward : ∀ i s j, c.scope? i = some s → s.parent = some j → j < i
  root : (c.scope? 0).isSome = true
  chain : c.stack.IsChain fun i j => ∃ s, c.scope? i = some s ∧ s.parent = some j
  last : c.stack.getLast? = some 0

theorem nested_start (span : Span) : (Context.start span).Nested := by
  have hscope : ∀ i s, (Context.start span).scope? i = some s →
      i = 0 ∧ s = ⟨0, none, .root, span, {}⟩ := by
    intro i s h
    obtain ⟨hi, hs⟩ : i = 0 ∧ _ = s := by
      simpa [scope?, Context.start, List.getElem?_eq_some_iff] using h
    exact ⟨hi, hs.symm⟩
  refine ⟨?_, ?_, ?_, rfl, .singleton 0, rfl⟩
  · rintro i s h
    obtain ⟨rfl, rfl⟩ := hscope i s h
    rfl
  · rintro i s h
    obtain ⟨rfl, rfl⟩ := hscope i s h
    simp
  · rintro i s j h
    obtain ⟨rfl, rfl⟩ := hscope i s h
    simp

/-- The current scope is the innermost of the open ones. -/
theorem Nested.current (h : c.Nested) : ∃ outer, c.stack = c.current :: outer := by
  cases hstack : c.stack with
  | nil => simpa [hstack] using h.last
  | cons i outer => exact ⟨outer, by simp [Context.current, hstack]⟩

/-- Every open scope is in the table. -/
theorem Nested.opened (h : c.Nested) (hi : i ∈ c.stack) : ∃ s, c.scope? i = some s := by
  obtain ⟨front, back, hsplit⟩ := List.append_of_mem hi
  cases back with
  | nil =>
    have hlast := h.last
    rw [hsplit, List.getLast?_append] at hlast
    obtain rfl : i = 0 := by simpa using hlast
    exact Option.isSome_iff_exists.1 h.root
  | cons j back =>
    obtain ⟨s, hs, -⟩ := (List.isChain_iff_forall_rel_of_append_cons_cons.1 h.chain) hsplit
    exact ⟨s, hs⟩

/-- The open scopes have lower and lower numbers from the innermost to the root. -/
theorem Nested.descending (h : c.Nested) : c.stack.Pairwise (· > ·) := by
  refine List.isChain_iff_pairwise.1 (h.chain.imp fun i j => ?_)
  rintro ⟨s, hs, hparent⟩
  exact h.upward i s j hs hparent

/-- Nothing but numbers, parents and the stack counts. -/
theorem Nested.congr (h : c.Nested) {d : Context} (hstack : d.stack = c.stack)
    (hscope : ∀ i, ∃ f : Scope → Scope, (∀ s, (f s).id = s.id ∧ (f s).parent = s.parent) ∧
      d.scope? i = (c.scope? i).map f) : d.Nested := by
  have back : ∀ i s, d.scope? i = some s →
      ∃ s', c.scope? i = some s' ∧ s.id = s'.id ∧ s.parent = s'.parent := by
    intro i s hs
    obtain ⟨f, hf, hd⟩ := hscope i
    obtain ⟨s', hs', rfl⟩ := Option.map_eq_some_iff.1 (hd ▸ hs)
    exact ⟨s', hs', hf s'⟩
  refine ⟨fun i s hs => ?_, fun i s hs => ?_, fun i s j hs hj => ?_, ?_, ?_, hstack ▸ h.last⟩
  · obtain ⟨s', hs', hid, -⟩ := back i s hs
    rw [hid, h.numbered i s' hs']
  · obtain ⟨s', hs', -, hparent⟩ := back i s hs
    rw [hparent, h.orphan i s' hs']
  · obtain ⟨s', hs', -, hparent⟩ := back i s hs
    exact h.upward i s' j hs' (hparent ▸ hj)
  · obtain ⟨f, -, hd⟩ := hscope 0
    rw [hd, Option.isSome_map]
    exact h.root
  · rw [hstack]
    refine h.chain.imp fun i j => ?_
    rintro ⟨s, hs, hj⟩
    obtain ⟨f, hf, hd⟩ := hscope i
    exact ⟨f s, by rw [hd, hs, Option.map_some], (hf s).2.trans hj⟩

theorem Nested.push (h : c.Nested) (kind : ScopeKind) (span : Span) :
    (c.push kind span).Nested := by
  obtain ⟨outer, hstack⟩ := h.current
  have hlt : ∀ {i s}, c.scope? i = some s → i < c.scopes.length :=
    fun hs => (List.getElem?_eq_some_iff.1 hs).1
  obtain ⟨r, hr⟩ := Option.isSome_iff_exists.1 h.root
  obtain ⟨t, ht⟩ := h.opened (i := c.current) (by simp [hstack])
  have hroot := hlt hr
  have hcurrent := hlt ht
  have old : ∀ i s, c.scope? i = some s → (c.push kind span).scope? i = some s := by
    intro i s hs
    have := hlt hs
    rwa [scope?_push, if_neg (by omega)]
  refine ⟨h.numbered.push kind span, fun i s hs => ?_, fun i s j hs hj => ?_, ?_, ?_, ?_⟩
  · rw [scope?_push] at hs
    split at hs
    · obtain rfl := Option.some.inj hs
      simp only [reduceCtorEq, false_iff]
      omega
    · exact h.orphan i s hs
  · rw [scope?_push] at hs
    split at hs
    · rename_i hi
      obtain rfl := Option.some.inj hs
      obtain rfl := Option.some.inj hj
      omega
    · exact h.upward i s j hs hj
  · rw [old 0 r hr]
    rfl
  · show (c.scopes.length :: c.stack).IsChain _
    have hchain := h.chain.imp (S := fun i j => ∃ s, (c.push kind span).scope? i = some s ∧
      s.parent = some j) fun i j ⟨s, hs, hj⟩ => ⟨s, old i s hs, hj⟩
    rw [hstack] at hchain ⊢
    exact .cons_cons ⟨_, by rw [scope?_push, if_pos rfl], rfl⟩ hchain
  · show (c.scopes.length :: c.stack).getLast? = some 0
    have hlast := h.last
    rw [hstack] at hlast ⊢
    rwa [List.getLast?_cons_cons]

theorem Nested.pop (h : c.Nested) : c.pop.Nested := by
  unfold Context.pop
  split
  · rename_i i rest hstack
    have hchain := h.chain
    have hlast := h.last
    rw [hstack] at hchain hlast
    rw [List.getLast?_cons_cons] at hlast
    exact ⟨h.numbered, h.orphan, h.upward, h.root, hchain.tail, hlast⟩
  · exact h

theorem Nested.declare (h : c.Nested) (n : Name) (v : Option Expr) : (c.declare n v).Nested := by
  refine h.congr rfl fun i => ?_
  rw [scope?_declare]
  split
  · exact ⟨fun s => { s with names := s.names.insert n.text ⟨n, v⟩ }, fun _ => ⟨rfl, rfl⟩, rfl⟩
  · exact ⟨id, fun _ => ⟨rfl, rfl⟩, by simp⟩

/-- The scopes stay nested, whatever the step. -/
theorem Nested.edit (h : c.Nested) (e : Edit) : (c.edit e).Nested := by
  cases e with
  | push kind span => exact h.push kind span
  | pop => exact h.pop
  | declare n v => exact h.declare n v
  | assign n v span =>
    refine (h.declare n (some v)).congr (stack_assign n v span) fun i => ?_
    refine ⟨id, fun _ => ⟨rfl, rfl⟩, ?_⟩
    rw [Context.edit, scope?_assign, Option.map_id]
    rfl
  | defineModule | defineFunction =>
    exact h.congr rfl fun i => ⟨id, fun _ => ⟨rfl, rfl⟩, by simp [scope?, Context.edit,
      defineModule, defineFunction]⟩

/-! ## Names in open scopes -/

/-- A name is looked up in one open scope after the other. -/
theorem lookupIn_open (h : c.Nested) (name : String) :
    ∀ {outer : List Nat} {i n : Nat}, i :: outer <:+ c.stack → i < n →
      c.lookupIn name n i = (i :: outer).findSome? (c.own? · name)
  | outer, i, 0, _, hn => absurd hn (Nat.not_lt_zero i)
  | [], i, n + 1, hsuffix, hn => by
    obtain ⟨s, hs⟩ := h.opened (hsuffix.mem List.mem_cons_self)
    obtain ⟨front, hstack⟩ := hsuffix
    have hlast := h.last
    obtain rfl : i = 0 := by
      rw [← hstack, List.getLast?_append] at hlast
      simpa using hlast
    have hparent := (h.orphan 0 s hs).2 rfl
    rw [lookupIn, hs]
    simp only [hparent, own?, hs, Option.bind_some, Option.bind_none, List.findSome?_cons,
      List.findSome?_nil]
    cases s.names.get? name <;> rfl
  | j :: outer, i, n + 1, hsuffix, hn => by
    obtain ⟨front, hstack⟩ := id hsuffix
    obtain ⟨s, hs, hparent⟩ :=
      List.isChain_iff_forall_rel_of_append_cons_cons.1 h.chain hstack.symm
    have hj := h.upward i s j hs hparent
    have ih := lookupIn_open h name (n := n)
      ((List.suffix_cons i (j :: outer)).trans hsuffix) (by omega)
    rw [lookupIn, hs]
    simp only [hparent, own?, hs, Option.bind_some, List.findSome?_cons (a := i)]
    rw [ih]
    cases s.names.get? name <;> rfl

/-- From the current scope a name is looked up in all open scopes, the innermost first. -/
theorem Nested.lookup_current (h : c.Nested) (name : String) :
    c.lookup c.current name = c.stack.findSome? (c.own? · name) := by
  obtain ⟨outer, hstack⟩ := h.current
  obtain ⟨s, hs⟩ := h.opened (i := c.current) (by simp [hstack])
  have hlt : c.current < c.scopes.length := (List.getElem?_eq_some_iff.1 hs).1
  rw [hstack]
  exact lookupIn_open h name (hstack ▸ List.suffix_refl _) hlt

theorem own?_push (kind : ScopeKind) (span : Span) (i : Nat) :
    (c.push kind span).own? i = if i = c.scopes.length then fun _ => none else c.own? i := by
  funext name
  rw [own?, scope?_push]
  split <;> rfl

theorem own?_declare (n : Name) (v : Option Expr) (name : String) (hi : c.scope? i = some s) :
    (c.declare n v).own? i name =
      if i = c.current ∧ name = n.text then some ⟨n, v⟩ else c.own? i name := by
  simp only [own?, scope?_declare, hi]
  by_cases hc : i = c.current
  · simp [hc, Table.get?_insert]
  · simp [hc]

/-- The open scopes declare what the environments say, one scope for each environment. -/
def Realizes (c : Context) (envs : List Environment) : Prop :=
  c.stack.map c.own? = envs.map Environment.find?

theorem Realizes.push {envs : List Environment} (hc : c.Nested) (h : c.Realizes envs)
    (kind : ScopeKind) (span : Span) : (c.push kind span).Realizes ([] :: envs) := by
  show (c.scopes.length :: c.stack).map (c.push kind span).own? = _
  rw [List.map_cons, List.map_cons, own?_push, if_pos rfl, ← h]
  refine congrArg (List.cons _) (List.map_congr_left fun i hi => ?_)
  obtain ⟨s, hs⟩ := hc.opened hi
  have hlt : i < c.scopes.length := (List.getElem?_eq_some_iff.1 hs).1
  rw [own?_push, if_neg (by omega)]

theorem Realizes.declare {envs : List Environment} (hc : c.Nested) (h : c.Realizes envs) (n : Name)
    (v : Option Expr) : (c.declare n v).Realizes (envs.modifyHead (⟨n, v⟩ :: ·)) := by
  obtain ⟨outer, hstack⟩ := hc.current
  have hopen := fun i (hi : i ∈ c.stack) => hc.opened hi
  have hdesc := hc.descending
  have hreal : (c.current :: outer).map c.own? = envs.map Environment.find? := hstack ▸ h
  rw [hstack] at hopen hdesc
  show c.stack.map (c.declare n v).own? = _
  rw [hstack]
  cases envs with
  | nil => cases hreal
  | cons env envs =>
    obtain ⟨hhead, htail⟩ := List.cons.inj hreal
    rw [List.modifyHead_cons, List.map_cons, List.map_cons, ← htail]
    refine congrArg₂ List.cons (funext fun name => ?_) (List.map_congr_left fun i hi => ?_)
    · obtain ⟨s, hs⟩ := hopen c.current List.mem_cons_self
      rw [own?_declare n v name hs, Environment.find?_cons, ← hhead]
      simp
    · -- a scope further out is not the current one, and keeps what it has
      obtain ⟨s, hs⟩ := hopen i (List.mem_cons_of_mem _ hi)
      have hlt : c.current > i := (List.pairwise_cons.1 hdesc).1 i hi
      funext name
      rw [own?_declare n v name hs, if_neg (by omega)]

theorem Realizes.pop {envs : List Environment} (h : c.Realizes envs) :
    c.pop.Realizes (Environment.step envs .pop) := by
  have hown : c.pop.own? = c.own? := by
    funext i name
    rw [own?, scope?_pop, own?]
  unfold Realizes at h ⊢
  rw [hown]
  unfold Context.pop Environment.step
  match hstack : c.stack, envs with
  | _ :: _ :: _, _ :: _ :: _ =>
    rw [hstack] at h
    exact (List.cons.inj h).2
  | [], [] | [_], [_] => rwa [hstack] at h ⊢
  | [], _ :: _ | _ :: _, [] | [_], _ :: _ :: _ | _ :: _ :: _, [_] => simp [hstack] at h

/-- The environments go along with every step. -/
theorem Realizes.edit {envs : List Environment} (hc : c.Nested) (h : c.Realizes envs) (e : Edit) :
    (c.edit e).Realizes (Environment.step envs e) := by
  cases e with
  | push kind span => exact h.push hc kind span
  | pop => exact h.pop
  | declare n v => exact h.declare hc n v
  | assign n v span =>
    have hown : (c.assign n v span).own? = (c.declare n (some v)).own? := by
      funext i name
      rw [own?, scope?_assign, own?]
    have hdeclare := h.declare hc n (some v)
    unfold Realizes at hdeclare ⊢
    rwa [Context.edit, stack_assign, hown]
  | defineModule | defineFunction => exact h

/-- After a run the scopes are nested, and the open ones are mirrored by the environments. -/
theorem replay_realizes (es : List Edit) {envs : List Environment} (hc : c.Nested)
    (h : c.Realizes envs) :
    (c.replay es).Nested ∧ (c.replay es).Realizes (es.foldl Environment.step envs) := by
  induction es generalizing c envs with
  | nil => exact ⟨hc, h⟩
  | cons e es ih => exact ih (hc.edit e) (h.edit hc e)

/-! ## Special names -/

theorem specials_edit (e : Edit) (name : String) :
    (c.edit e).specials.get? name =
      if name.toList.head? = some specialSigil then
        (Edit.lastBound? [e] name).or (c.specials.get? name)
      else c.specials.get? name := by
  have same : ∀ {d : Context}, Edit.lastBound? [e] name = none → d.specials = c.specials →
      d.specials.get? name =
        if name.toList.head? = some specialSigil then
          (Edit.lastBound? [e] name).or (c.specials.get? name)
        else c.specials.get? name := by
    intro d he hd
    rw [he, hd, Option.none_or, ite_self]
  cases e with
  | assign n v span =>
    show (c.assign n v span).specials.get? name = _
    unfold Context.assign
    by_cases hname : name = n.text
    · have hbound : Edit.lastBound? [.assign n v span] name = some ⟨v, span⟩ := by
        simp [Edit.lastBound?, Edit.binding?, Assignment.name, Assignment.value, Assignment.span,
          hname]
      by_cases hn : n.text.toList.head? = some specialSigil
      · simp [Name.isSpecial, hn, hname ▸ hbound, hname, Table.get?_insert]
      · simp [Name.isSpecial, hn, hname, Context.declare]
    · have hname' : ¬ n.text = name := fun h => hname h.symm
      have hbound : Edit.lastBound? [.assign n v span] name = none := by
        simp [Edit.lastBound?, Edit.binding?, Assignment.name, hname']
      split
      · rw [Table.get?_insert, if_neg hname, hbound, Option.none_or, ite_self]
        rfl
      · exact same hbound rfl
  | pop => exact same rfl specials_pop
  | _ => exact same rfl rfl

/-- A special name is registered with the value that was bound to it last. -/
theorem specials_replay (span : Span) (es : List Edit) (name : String) :
    ((Context.start span).replay es).specials.get? name =
      if name.toList.head? = some specialSigil then Edit.lastBound? es name else none := by
  induction es using List.reverseRecOn with
  | nil =>
    show none = _
    exact (ite_self none).symm
  | append_singleton es e ih =>
    rw [replay_append, replay_cons, replay_nil, specials_edit, ih, Edit.lastBound?_append]
    split <;> rfl

/-! ## Any list of steps -/

/-- The root is never closed. -/
theorem Nested.closing?_ne (h : c.Nested) : c.closing? ≠ some 0 := by
  intro hc
  have hdesc := h.descending
  unfold closing? at hc
  split at hc
  · rename_i i j outer hstack
    obtain rfl := Option.some.inj hc
    rw [hstack, List.pairwise_cons] at hdesc
    exact absurd (hdesc.1 j List.mem_cons_self) (Nat.not_lt_zero j)
  · cases hc

/-- Whatever steps are taken from the start, the scopes are nested: they are numbered in order, only
the root has no parent and every other parent has a lower number, the open ones lead from the current
one to the root, which is never closed. A name is found from the current scope as in a stack of
environments, no step changes a scope that is not current, and a special name is registered with the
value bound to it last. -/
theorem replay_refines (span : Span) (es : List Edit) :
    let c := (Context.start span).replay es
    c.Nested ∧ c.stack.head? = some c.current ∧ c.closing? ≠ some 0 ∧
      (∀ name, c.lookup c.current name = Environment.lookup (Environment.run es) name) ∧
      (∀ e i s, c.scope? i = some s → i ≠ c.current →
        ((Context.start span).replay (es ++ [e])).scope? i = some s) ∧
      ∀ name, c.specials.get? name =
        if name.toList.head? = some specialSigil then Edit.lastBound? es name else none := by
  intro c
  obtain ⟨hnested, hreal⟩ : c.Nested ∧ c.Realizes (Environment.run es) :=
    replay_realizes es (nested_start span) rfl
  obtain ⟨outer, hstack⟩ := hnested.current
  refine ⟨hnested, by rw [hstack, List.head?_cons], hnested.closing?_ne, fun name => ?_,
    fun e i s hs hi => ?_, specials_replay span es⟩
  · have hfind := congrArg (List.findSome? (· name)) hreal
    rw [List.findSome?_map, List.findSome?_map] at hfind
    rw [hnested.lookup_current]
    exact hfind
  · rw [replay_append]
    exact scope?_edit e hs hi

end Context
end Scad
