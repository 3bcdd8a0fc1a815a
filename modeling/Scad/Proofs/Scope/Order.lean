import Scad.Proofs.Program.Matched
import Scad.Proofs.Scope.Environment

/-!
# Equal contexts and the order of their entries

Contexts are compared in two ways. Equality minds the places and not the order of the entries in a
table; agreement wherever things stand minds the order and not the places. Of equal contexts those
agree of which all tables list their names in the same order, and no others. A name keeps the place
at which it was first entered when it is bound again, so that equal contexts can list their names
in different orders. Main statement: `Context.agree_iff_listing`.
-/

namespace Scad

/-! ## What agrees in its place agrees anywhere -/

section

variable {w : Places}

theorem Name.agree_ignored {n n' : Name} (h : n.agree w n' = true) :
    n.agree .ignored n' = true := by
  simp only [Name.agree, Bool.and_eq_true] at h ⊢
  exact ⟨h.1, rfl⟩

mutual

theorem Expr.agree_ignored {e e' : Expr} (h : e.agree w e' = true) :
    e.agree .ignored e' = true := by
  cases e with
  | literal v s =>
    cases e' <;> simp only [Expr.agree, Bool.and_eq_true, Bool.false_eq_true] at h ⊢
    exact ⟨h.1, rfl⟩
  | ident n | special n =>
    cases e' <;> simp only [Expr.agree, Bool.false_eq_true] at h ⊢
    exact Name.agree_ignored h
  | call f as s =>
    cases e' <;> simp only [Expr.agree, Bool.and_eq_true, Bool.false_eq_true] at h ⊢
    exact ⟨⟨rfl, Expr.agree_ignored h.1.2⟩, Arg.agreeAll_ignored h.2⟩
  | index b i s =>
    cases e' <;> simp only [Expr.agree, Bool.and_eq_true, Bool.false_eq_true] at h ⊢
    exact ⟨⟨rfl, Expr.agree_ignored h.1.2⟩, Expr.agree_ignored h.2⟩
  | member b n s =>
    cases e' <;> simp only [Expr.agree, Bool.and_eq_true, Bool.false_eq_true] at h ⊢
    exact ⟨⟨rfl, Name.agree_ignored h.1.2⟩, Expr.agree_ignored h.2⟩
  | unary o a s =>
    cases e' <;> simp only [Expr.agree, Bool.and_eq_true, Bool.false_eq_true] at h ⊢
    exact ⟨⟨rfl, h.1.2⟩, Expr.agree_ignored h.2⟩
  | binary o a b s =>
    cases e' <;> simp only [Expr.agree, Bool.and_eq_true, Bool.false_eq_true] at h ⊢
    exact ⟨⟨⟨rfl, h.1.1.2⟩, Expr.agree_ignored h.1.2⟩, Expr.agree_ignored h.2⟩
  | ternary c a b s =>
    cases e' <;> simp only [Expr.agree, Bool.and_eq_true, Bool.false_eq_true] at h ⊢
    exact ⟨⟨⟨rfl, Expr.agree_ignored h.1.1.2⟩, Expr.agree_ignored h.1.2⟩, Expr.agree_ignored h.2⟩
  | paren a s | each a s =>
    cases e' <;> simp only [Expr.agree, Bool.and_eq_true, Bool.false_eq_true] at h ⊢
    exact ⟨rfl, Expr.agree_ignored h.2⟩
  | letIn bs a s =>
    cases e' <;> simp only [Expr.agree, Bool.and_eq_true, Bool.false_eq_true] at h ⊢
    exact ⟨⟨rfl, Assignment.agreeAll_ignored h.1.2⟩, Expr.agree_ignored h.2⟩
  | guarded g as a s =>
    cases e' <;> simp only [Expr.agree, Bool.and_eq_true, Bool.false_eq_true] at h ⊢
    exact ⟨⟨⟨rfl, h.1.1.2⟩, Arg.agreeAll_ignored h.1.2⟩, Expr.agreeOption_ignored h.2⟩
  | list es s =>
    cases e' <;> simp only [Expr.agree, Bool.and_eq_true, Bool.false_eq_true] at h ⊢
    exact ⟨rfl, Expr.agreeAll_ignored h.2⟩
  | range a b c s =>
    cases e' <;> simp only [Expr.agree, Bool.and_eq_true, Bool.false_eq_true] at h ⊢
    exact ⟨⟨⟨rfl, Expr.agree_ignored h.1.1.2⟩, Expr.agreeOption_ignored h.1.2⟩,
      Expr.agree_ignored h.2⟩
  | function ps a s =>
    cases e' <;> simp only [Expr.agree, Bool.and_eq_true, Bool.false_eq_true] at h ⊢
    exact ⟨⟨rfl, Param.agreeAll_ignored h.1.2⟩, Expr.agree_ignored h.2⟩
  | comprehension l cs a s =>
    cases e' <;> simp only [Expr.agree, Bool.and_eq_true, Bool.false_eq_true] at h ⊢
    exact ⟨⟨⟨rfl, LoopHead.agree_ignored h.1.1.2⟩, Clause.agreeAll_ignored h.1.2⟩,
      Expr.agree_ignored h.2⟩
  | choice c a b s =>
    cases e' <;> simp only [Expr.agree, Bool.and_eq_true, Bool.false_eq_true] at h ⊢
    exact ⟨⟨⟨rfl, Expr.agree_ignored h.1.1.2⟩, Expr.agree_ignored h.1.2⟩,
      Expr.agreeOption_ignored h.2⟩
termination_by structural e

theorem Expr.agreeOption_ignored {e e' : Option Expr} (h : Expr.agreeOption w e e' = true) :
    Expr.agreeOption .ignored e e' = true := by
  cases Expr.agreeOption_iff.1 h with
  | none => exact Expr.agreeOption_iff.2 .none
  | some he => exact Expr.agreeOption_iff.2 (.some (Expr.agree_ignored he))
termination_by structural e

theorem Expr.agreeAll_ignored {es es' : List Expr} (h : Expr.agreeAll w es es' = true) :
    Expr.agreeAll .ignored es es' = true := by
  cases Expr.agreeAll_iff.1 h with
  | nil => exact Expr.agreeAll_iff.2 .nil
  | cons he hes =>
    have htail := Expr.agreeAll_ignored (Expr.agreeAll_iff.2 hes)
    exact Expr.agreeAll_iff.2 (.cons (Expr.agree_ignored he) (Expr.agreeAll_iff.1 htail))
termination_by structural es

theorem Arg.agree_ignored {a a' : Arg} (h : a.agree w a' = true) : a.agree .ignored a' = true := by
  cases a with
  | positional v =>
    cases a' <;> simp only [Arg.agree, Bool.false_eq_true] at h ⊢
    exact Expr.agree_ignored h
  | named n v s =>
    cases a' <;> simp only [Arg.agree, Bool.and_eq_true, Bool.false_eq_true] at h ⊢
    exact ⟨⟨rfl, Name.agree_ignored h.1.2⟩, Expr.agree_ignored h.2⟩
termination_by structural a

theorem Arg.agreeAll_ignored {as as' : List Arg} (h : Arg.agreeAll w as as' = true) :
    Arg.agreeAll .ignored as as' = true := by
  cases Arg.agreeAll_iff.1 h with
  | nil => exact Arg.agreeAll_iff.2 .nil
  | cons ha has =>
    have htail := Arg.agreeAll_ignored (Arg.agreeAll_iff.2 has)
    exact Arg.agreeAll_iff.2 (.cons (Arg.agree_ignored ha) (Arg.agreeAll_iff.1 htail))
termination_by structural as

theorem Assignment.agree_ignored {b b' : Assignment} (h : b.agree w b' = true) :
    b.agree .ignored b' = true := by
  obtain ⟨n, v, s⟩ := b
  obtain ⟨n', v', s'⟩ := b'
  simp only [Assignment.agree, Bool.and_eq_true] at h ⊢
  exact ⟨⟨rfl, Name.agree_ignored h.1.2⟩, Expr.agree_ignored h.2⟩
termination_by structural b

theorem Assignment.agreeAll_ignored {bs bs' : List Assignment}
    (h : Assignment.agreeAll w bs bs' = true) : Assignment.agreeAll .ignored bs bs' = true := by
  cases Assignment.agreeAll_iff.1 h with
  | nil => exact Assignment.agreeAll_iff.2 .nil
  | cons hb hbs =>
    have htail := Assignment.agreeAll_ignored (Assignment.agreeAll_iff.2 hbs)
    exact Assignment.agreeAll_iff.2
      (.cons (Assignment.agree_ignored hb) (Assignment.agreeAll_iff.1 htail))
termination_by structural bs

theorem Param.agree_ignored {p p' : Param} (h : p.agree w p' = true) :
    p.agree .ignored p' = true := by
  obtain ⟨n, v, s⟩ := p
  obtain ⟨n', v', s'⟩ := p'
  simp only [Param.agree, Bool.and_eq_true] at h ⊢
  exact ⟨⟨rfl, Name.agree_ignored h.1.2⟩, Expr.agreeOption_ignored h.2⟩
termination_by structural p

theorem Param.agreeAll_ignored {ps ps' : List Param} (h : Param.agreeAll w ps ps' = true) :
    Param.agreeAll .ignored ps ps' = true := by
  cases Param.agreeAll_iff.1 h with
  | nil => exact Param.agreeAll_iff.2 .nil
  | cons hp hps =>
    have htail := Param.agreeAll_ignored (Param.agreeAll_iff.2 hps)
    exact Param.agreeAll_iff.2 (.cons (Param.agree_ignored hp) (Param.agreeAll_iff.1 htail))
termination_by structural ps

theorem LoopHead.agree_ignored {l l' : LoopHead} (h : l.agree w l' = true) :
    l.agree .ignored l' = true := by
  cases l with
  | iterating bs =>
    cases l' <;> simp only [LoopHead.agree, Bool.false_eq_true] at h ⊢
    exact Assignment.agreeAll_ignored h
  | counting is c us =>
    cases l' <;> simp only [LoopHead.agree, Bool.and_eq_true, Bool.false_eq_true] at h ⊢
    exact ⟨⟨Assignment.agreeAll_ignored h.1.1, Expr.agree_ignored h.1.2⟩,
      Assignment.agreeAll_ignored h.2⟩
termination_by structural l

theorem Clause.agree_ignored {c c' : Clause} (h : c.agree w c' = true) :
    c.agree .ignored c' = true := by
  cases c with
  | loop l s =>
    cases c' <;> simp only [Clause.agree, Bool.and_eq_true, Bool.false_eq_true] at h ⊢
    exact ⟨rfl, LoopHead.agree_ignored h.2⟩
  | filter e s =>
    cases c' <;> simp only [Clause.agree, Bool.and_eq_true, Bool.false_eq_true] at h ⊢
    exact ⟨rfl, Expr.agree_ignored h.2⟩
  | letIn bs s =>
    cases c' <;> simp only [Clause.agree, Bool.and_eq_true, Bool.false_eq_true] at h ⊢
    exact ⟨rfl, Assignment.agreeAll_ignored h.2⟩
termination_by structural c

theorem Clause.agreeAll_ignored {cs cs' : List Clause} (h : Clause.agreeAll w cs cs' = true) :
    Clause.agreeAll .ignored cs cs' = true := by
  cases Clause.agreeAll_iff.1 h with
  | nil => exact Clause.agreeAll_iff.2 .nil
  | cons hc hcs =>
    have htail := Clause.agreeAll_ignored (Clause.agreeAll_iff.2 hcs)
    exact Clause.agreeAll_iff.2 (.cons (Clause.agree_ignored hc) (Clause.agreeAll_iff.1 htail))
termination_by structural cs

end

theorem Binding.agree_ignored {a b : Binding} (h : a.agree w b = true) :
    a.agree .ignored b = true := by
  simp only [Binding.agree, Bool.and_eq_true] at h ⊢
  exact ⟨Name.agree_ignored h.1, Expr.agreeOption_ignored h.2⟩

theorem SpecialBinding.agree_ignored {a b : SpecialBinding} (h : a.agree w b = true) :
    a.agree .ignored b = true := by
  simp only [SpecialBinding.agree, Bool.and_eq_true] at h ⊢
  exact ⟨Expr.agree_ignored h.1, rfl⟩

theorem Signature.agree_ignored {a b : Signature} (h : a.agree w b = true) :
    a.agree .ignored b = true := by
  simp only [Signature.agree, Bool.and_eq_true] at h ⊢
  exact ⟨⟨⟨Name.agree_ignored h.1.1.1, Param.agreeAll_ignored h.1.1.2⟩, rfl⟩, h.2⟩

theorem Scope.alike_ignored {a b : Scope} (h : a.alike w b = true) : a.alike .ignored b = true := by
  simp only [Scope.alike, Bool.and_eq_true] at h ⊢
  exact ⟨h.1, rfl⟩

end

/-! ## Tables -/

namespace Table

variable {α : Type} {same same' : α → α → Bool} {a b : Table α}

/-- The names of a table, in order of first entry. -/
def keys (t : Table α) : List String := t.entries.map Prod.fst

/-- No name is entered twice, whatever is inserted. -/
theorem nodup_keys_insert {t : Table α} (h : t.keys.Nodup) (name : String) (value : α) :
    (t.insert name value).keys.Nodup := by
  rw [keys, Table.insert, keys_insertIn]
  split
  · exact h
  · rename_i hnew
    refine List.nodup_append.2 ⟨h, List.nodup_singleton _, ?_⟩
    rintro k hk k' hk' rfl
    exact hnew (List.mem_singleton.1 hk' ▸ hk)

theorem keys_of_agreeIn {xs ys : List (String × α)} (h : agreeIn same xs ys = true) :
    xs.map Prod.fst = ys.map Prod.fst := by
  induction xs generalizing ys with
  | nil =>
    cases ys with
    | nil => rfl
    | cons => simp [agreeIn] at h
  | cons x xs ih =>
    cases ys with
    | nil => simp [agreeIn] at h
    | cons y ys =>
      simp only [agreeIn, Bool.and_eq_true, beq_iff_eq] at h
      rw [List.map_cons, List.map_cons, h.1.1, ih h.2]

/-- Where the names stand in the same order, what is found under a name is what stands beside it. -/
theorem agreeIn_of_lookup {xs ys : List (String × α)}
    (hkeys : xs.map Prod.fst = ys.map Prod.fst) (hdistinct : (xs.map Prod.fst).Nodup)
    (hfound : ∀ x ∈ xs, ∃ v, ys.lookup x.1 = some v ∧ same x.2 v = true) :
    agreeIn same xs ys = true := by
  induction xs generalizing ys with
  | nil =>
    cases ys with
    | nil => rfl
    | cons => simp at hkeys
  | cons x xs ih =>
    cases ys with
    | nil => simp at hkeys
    | cons y ys =>
      obtain ⟨k, v⟩ := x
      obtain ⟨k', v'⟩ := y
      obtain ⟨rfl, hrest⟩ : k = k' ∧ xs.map Prod.fst = ys.map Prod.fst := by simpa using hkeys
      obtain ⟨hnew, hdistinct⟩ := List.nodup_cons.1 hdistinct
      obtain ⟨u, hu, hsame⟩ := hfound (k, v) List.mem_cons_self
      rw [lookup_cons, if_pos rfl] at hu
      obtain rfl := Option.some.inj hu
      have htail : agreeIn same xs ys = true := by
        refine ih hrest hdistinct fun x hx => ?_
        have hne : x.1 ≠ k := fun he => hnew (List.mem_map.2 ⟨x, hx, he⟩)
        have hx' := hfound x (List.mem_cons_of_mem _ hx)
        rwa [lookup_cons, if_neg hne] at hx'
      rw [agreeIn, Bool.and_eq_true, Bool.and_eq_true]
      exact ⟨⟨beq_self_eq_true k, hsame⟩, htail⟩

/-- Of equal tables those agree that list their names in the same order. -/
theorem agree_iff_keys (hdistinct : a.keys.Nodup) (h : a.equal same b = true)
    (hsame : ∀ u v, same u v = true → same' u v = true) :
    a.agree same' b = true ↔ a.keys = b.keys := by
  refine ⟨keys_of_agreeIn, fun hkeys => agreeIn_of_lookup hkeys hdistinct fun x hx => ?_⟩
  simp only [Table.equal, Bool.and_eq_true, List.all_eq_true] at h
  have hfound := h.2 x hx
  split at hfound
  · rename_i v hv
    exact ⟨v, hv, hsame _ _ hfound⟩
  · cases hfound

end Table

/-! ## Contexts -/

/-- Scopes that are equal but for the order of names agree if there is nothing but that order. -/
theorem Scope.agree_iff_keys {a b : Scope} (hdistinct : a.names.keys.Nodup)
    (h : a.equal b = true) : a.agree .ignored b = true ↔ a.names.keys = b.names.keys := by
  simp only [Scope.equal, Bool.and_eq_true] at h
  rw [Scope.agree, Scope.alike_ignored h.1, Bool.true_and]
  exact Table.agree_iff_keys hdistinct h.2 fun _ _ => Binding.agree_ignored

theorem listAgree_iff_keys {as bs : List Scope} (hdistinct : ∀ s ∈ as, s.names.keys.Nodup)
    (h : listAgree Scope.equal as bs = true) :
    listAgree (Scope.agree .ignored) as bs = true ↔
      as.map (·.names.keys) = bs.map (·.names.keys) := by
  induction as generalizing bs with
  | nil =>
    cases bs with
    | nil => simp [listAgree]
    | cons => simp [listAgree] at h
  | cons a as ih =>
    cases bs with
    | nil => simp [listAgree] at h
    | cons b bs =>
      simp only [listAgree, Bool.and_eq_true] at h
      have hhead := Scope.agree_iff_keys (hdistinct a List.mem_cons_self) h.1
      have htail := ih (fun s hs => hdistinct s (List.mem_cons_of_mem _ hs)) h.2
      rw [listAgree, Bool.and_eq_true, hhead, htail, List.map_cons, List.map_cons, List.cons.injEq]

namespace Context

variable {c a b : Context}

/-- The names in all tables of a context, in order of first entry. -/
structure Listing where
  scopes : List (List String)
  specials : List String
  modules : List String
  functions : List String
deriving DecidableEq

def listing (c : Context) : Listing :=
  ⟨c.scopes.map (·.names.keys), c.specials.keys, c.modules.keys, c.functions.keys⟩

/-- No table of the context enters a name twice. -/
structure Distinct (c : Context) : Prop where
  names : ∀ i s, c.scope? i = some s → s.names.keys.Nodup
  specials : c.specials.keys.Nodup
  modules : c.modules.keys.Nodup
  functions : c.functions.keys.Nodup

theorem distinct_start (span : Span) : (start span).Distinct := by
  refine ⟨fun i s hs => ?_, .nil, .nil, .nil⟩
  obtain rfl := List.mem_singleton.1 (List.mem_of_getElem? hs)
  exact .nil

theorem Distinct.push (h : c.Distinct) (kind : ScopeKind) (span : Span) :
    (c.push kind span).Distinct := by
  refine ⟨fun i s hs => ?_, h.specials, h.modules, h.functions⟩
  rw [scope?_push] at hs
  split at hs
  · obtain rfl := Option.some.inj hs
    exact .nil
  · exact h.names i s hs

theorem Distinct.pop (h : c.Distinct) : c.pop.Distinct := by
  unfold Context.pop
  split
  · exact ⟨h.names, h.specials, h.modules, h.functions⟩
  · exact h

theorem Distinct.declare (h : c.Distinct) (n : Name) (v : Option Expr) :
    (c.declare n v).Distinct := by
  refine ⟨fun i s hs => ?_, h.specials, h.modules, h.functions⟩
  rw [scope?_declare] at hs
  split at hs
  · obtain ⟨s₀, hs₀, rfl⟩ := Option.map_eq_some_iff.1 hs
    exact Table.nodup_keys_insert (h.names i s₀ hs₀) n.text ⟨n, v⟩
  · exact h.names i s hs

theorem Distinct.assign (h : c.Distinct) (n : Name) (v : Expr) (span : Span) :
    (c.assign n v span).Distinct := by
  have hd := h.declare n (some v)
  unfold Context.assign
  dsimp only
  split
  · exact ⟨hd.names, Table.nodup_keys_insert hd.specials n.text ⟨v, span⟩, hd.modules, hd.functions⟩
  · exact hd

theorem Distinct.edit (h : c.Distinct) (e : Edit) : (c.edit e).Distinct := by
  cases e with
  | push kind span => exact h.push kind span
  | pop => exact h.pop
  | declare n v => exact h.declare n v
  | assign n v span => exact h.assign n v span
  | defineModule n ps span =>
    exact ⟨h.names, h.specials, Table.nodup_keys_insert h.modules n.text _, h.functions⟩
  | defineFunction n ps span =>
    exact ⟨h.names, h.specials, h.modules, Table.nodup_keys_insert h.functions n.text _⟩

theorem Distinct.replay (h : c.Distinct) (es : List Edit) : (c.replay es).Distinct := by
  induction es generalizing c with
  | nil => exact h
  | cons e es ih => exact ih (h.edit e)

/-- The contexts there are: what steps make of a new one, and those of programs. -/
inductive Made : Context → Prop
  | built (span : Span) (es : List Edit) : Made ((start span).replay es)
  | parsed {source : List Char} {p : Program} (h : Program.parse source = .ok p) : Made p.context

theorem Made.distinct (h : c.Made) : c.Distinct := by
  cases h with
  | built span es => exact (distinct_start span).replay es
  | @parsed source p h =>
    rw [Program.context_of_tree h]
    have hd := (distinct_start p.span).replay ((p.items.map Element.item).flatMap Element.edits)
    exact ⟨hd.names, hd.specials, hd.modules, hd.functions⟩

/-- Equal contexts agree wherever things stand exactly if all their tables list the names in the
same order. -/
theorem agree_iff_listing (ha : a.Made) (h : a.equal b = true) :
    a.agree .ignored b = true ↔ a.listing = b.listing := by
  have hd := ha.distinct
  simp only [Context.equal, Bool.and_eq_true] at h
  obtain ⟨⟨⟨⟨hscopes, hspecials⟩, hmodules⟩, hfunctions⟩, -⟩ := h
  have hnames : ∀ s ∈ a.scopes, s.names.keys.Nodup := by
    intro s hs
    obtain ⟨i, hi⟩ := List.getElem?_of_mem hs
    exact hd.names i s hi
  rw [Context.agree, Bool.and_eq_true, Bool.and_eq_true, Bool.and_eq_true,
    listAgree_iff_keys hnames hscopes,
    Table.agree_iff_keys hd.specials hspecials fun _ _ => SpecialBinding.agree_ignored,
    Table.agree_iff_keys hd.modules hmodules fun _ _ => Signature.agree_ignored,
    Table.agree_iff_keys hd.functions hfunctions fun _ _ => Signature.agree_ignored,
    listing, listing, Listing.mk.injEq, and_assoc, and_assoc]

/-- Values that are replaced later leave no trace. -/
theorem agree_iff_listing_again :
    ∃ a b, Program.parse "a=1;b=2;b=3;$c=a;a=4;".toList = .ok a ∧
      Program.parse "a=0;b=0;b=3;$c=a;a=4;".toList = .ok b ∧ a.context.equal b.context = true ∧
      a.context.listing = b.context.listing ∧ a.context.agree .ignored b.context = true := by
  have hok : (SyntaxTree.ofSource "a=1;b=2;b=3;$c=a;a=4;".toList).faults = [] := by decide +kernel
  have hok' : (SyntaxTree.ofSource "a=0;b=0;b=3;$c=a;a=4;".toList).faults = [] := by decide +kernel
  have hcompare : ((Program.parse "a=1;b=2;b=3;$c=a;a=4;".toList).toOption.bind
      fun a => (Program.parse "a=0;b=0;b=3;$c=a;a=4;".toList).toOption.map
      fun b => (a.context.equal b.context, decide (a.context.listing = b.context.listing))) =
      some (true, true) := by
    decide +kernel
  obtain ⟨a, ha, -⟩ := Program.parse_of_faultless hok
  obtain ⟨b, hb, -⟩ := Program.parse_of_faultless hok'
  rw [ha, hb] at hcompare
  obtain ⟨hequal, hlisting⟩ := Prod.mk.inj (Option.some.inj hcompare)
  have hsame := of_decide_eq_true hlisting
  exact ⟨a, b, ha, hb, hequal, hsame, (agree_iff_listing (.parsed ha) hequal).2 hsame⟩

/-- Two programs with equal contexts that do not agree: the names were first bound in different
orders. -/
theorem equal_not_agree :
    ∃ a b, Program.parse "a=1;b=2;b=3;a=4;".toList = .ok a ∧
      Program.parse "b=1;a=2;b=3;a=4;".toList = .ok b ∧ a.context.equal b.context = true ∧
      a.context.agree .ignored b.context = false := by
  have hok : (SyntaxTree.ofSource "a=1;b=2;b=3;a=4;".toList).faults = [] := by decide +kernel
  have hok' : (SyntaxTree.ofSource "b=1;a=2;b=3;a=4;".toList).faults = [] := by decide +kernel
  have hcompare : ((Program.parse "a=1;b=2;b=3;a=4;".toList).toOption.bind
      fun a => (Program.parse "b=1;a=2;b=3;a=4;".toList).toOption.map
      fun b => (a.context.equal b.context, a.context.agree .ignored b.context)) =
      some (true, false) := by
    decide +kernel
  obtain ⟨a, ha, -⟩ := Program.parse_of_faultless hok
  obtain ⟨b, hb, -⟩ := Program.parse_of_faultless hok'
  rw [ha, hb] at hcompare
  obtain ⟨hequal, hagree⟩ := Prod.mk.inj (Option.some.inj hcompare)
  exact ⟨a, b, ha, hb, hequal, hagree⟩

end Context
end Scad
