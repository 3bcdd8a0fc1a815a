import Scad.Proofs.Program.Matched
import Scad.Proofs.Scope.Sites

/-!
# Twins

Two outlines are twins if they are the same wherever things stand. The outlines of programs that
agree are twins. If both are laid out, a name of the one lies in the same scopes as the name of the
other that it corresponds to: in those around it and in no other ones. So what a name stands for does
not depend on where things stand.
-/

namespace Scad

def Part.agree (w : Places) : Part → Part → Bool
  | .item a, .item b => a.agree w b
  | .stmt a, .stmt b => a.agree w b
  | .expr a, .expr b => a.agree w b
  | _, _ => false

namespace Outline

/-- The same outlines wherever things stand, where names that correspond are related by `W`. -/
inductive Twin (W : Name → Name → Prop) : Outline → Outline → Prop
  | nil : Twin W nil nil
  | name {n n' : Name} {next next' : Outline} (text : n.text = n'.text) (same : W n n')
    (hnext : Twin W next next') : Twin W (name n next) (name n' next')
  | part {p p' : Part} {inner inner' next next' : Outline} (agree : p.agree .ignored p' = true)
    (whole : p.outline = part p inner nil) (whole' : p'.outline = part p' inner' nil)
    (hinner : Twin W inner inner') (hnext : Twin W next next') :
    Twin W (part p inner next) (part p' inner' next')
  | binding {n n' : Name} {v v' : Expr} {next next' : Outline} (text : n.text = n'.text)
    (agree : v.agree .ignored v' = true) (hinner : Twin W v.outline v'.outline)
    (hnext : Twin W next next') :
    Twin W (binding n v v.outline next) (binding n' v' v'.outline next')
  | param {p p' : Param} {next next' : Outline} (agree : p.agree .ignored p' = true)
    (hinner : Twin W (Expr.outlineOption p.default) (Expr.outlineOption p'.default))
    (hnext : Twin W next next') :
    Twin W (param p (Expr.outlineOption p.default) next)
      (param p' (Expr.outlineOption p'.default) next')
  | scope (k : ScopeKind) (s s' : Span) {before before' inner inner' next next' : Outline}
    (hbefore : Twin W before before') (hinner : Twin W inner inner') (hnext : Twin W next next') :
    Twin W (scope k s before inner next) (scope k s' before' inner' next')

/-- Twins with no more said of the names than what they are. -/
abbrev Like : Outline → Outline → Prop := Twin fun _ _ => True

variable {W : Name → Name → Prop} {a a' b b' : Outline}

theorem Twin.append (ha : Twin W a a') (hb : Twin W b b') : Twin W (a ++ b) (a' ++ b') := by
  induction ha with
  | nil => exact hb
  | name text same _ ih => exact .name text same ih
  | part agree whole whole' hinner _ _ ih => exact .part agree whole whole' hinner ih
  | binding text agree hinner _ _ ih => exact .binding text agree hinner ih
  | param agree hinner _ _ ih => exact .param agree hinner ih
  | scope k s s' hbefore hinner _ _ _ ih => exact .scope k s s' hbefore hinner ih

theorem Twin.scoped (k : ScopeKind) (s s' : Span) (ha : Twin W a a') :
    Twin W (.scope k s .nil a .nil) (.scope k s' .nil a' .nil) :=
  .scope k s s' .nil ha .nil

end Outline

/-! ## Programs that agree -/

open Outline

mutual

theorem Expr.like {e e' : Expr} (h : e.agree .ignored e' = true) : Like e.outline e'.outline := by
  cases Expr.matched h with
  | literal | special => exact .part h rfl rfl .nil .nil
  | ident text => exact .part h rfl rfl (.name text trivial .nil) .nil
  | call _ _ callee args => exact .part h rfl rfl ((Expr.like callee).append (Arg.likeAll args)) .nil
  | index _ _ a b | binary _ _ _ a b =>
    exact .part h rfl rfl ((Expr.like a).append (Expr.like b)) .nil
  | member _ _ _ a | unary _ _ _ a | paren _ _ a | each _ _ a =>
    exact .part h rfl rfl (Expr.like a) .nil
  | ternary _ _ cond yes no =>
    exact .part h rfl rfl ((Expr.like cond).append ((Expr.like yes).append (Expr.like no))) .nil
  | letIn s s' bindings body =>
    exact .part h rfl rfl
      (.scoped _ s s' ((Assignment.likeAll bindings).append (Expr.like body))) .nil
  | guarded _ _ _ args body =>
    exact .part h rfl rfl ((Arg.likeAll args).append (Expr.likeOption body)) .nil
  | list _ _ elements => exact .part h rfl rfl (Expr.likeAll elements) .nil
  | range _ _ start step stop =>
    exact .part h rfl rfl
      ((Expr.like start).append ((Expr.likeOption step).append (Expr.like stop))) .nil
  | function s s' params body =>
    exact .part h rfl rfl (.scope _ s s' (Param.likeAll params) (Expr.like body) .nil) .nil
  | comprehension s s' head clauses body =>
    exact .part h rfl rfl
      (.scoped _ s s' ((LoopHead.like head).append (Clause.likeAll clauses (Expr.like body)))) .nil
  | choice _ _ cond yes no =>
    exact .part h rfl rfl
      ((Expr.like cond).append ((Expr.like yes).append (Expr.likeOption no))) .nil
termination_by structural e

theorem Expr.likeOption {e e' : Option Expr} (h : Expr.agreeOption .ignored e e' = true) :
    Like (Expr.outlineOption e) (Expr.outlineOption e') := by
  cases Expr.agreeOption_iff.1 h with
  | none => exact .nil
  | some he => exact Expr.like he
termination_by structural e

theorem Expr.likeAll {es es' : List Expr} (h : Expr.agreeAll .ignored es es' = true) :
    Like (Expr.outlineAll es) (Expr.outlineAll es') := by
  cases Expr.agreeAll_iff.1 h with
  | nil => exact .nil
  | cons he hes => exact (Expr.like he).append (Expr.likeAll (Expr.agreeAll_iff.2 hes))
termination_by structural es

theorem Arg.like {a a' : Arg} (h : a.agree .ignored a' = true) : Like a.outline a'.outline := by
  cases Arg.matched h with
  | positional value | named _ _ _ value => exact Expr.like value
termination_by structural a

theorem Arg.likeAll {as as' : List Arg} (h : Arg.agreeAll .ignored as as' = true) :
    Like (Arg.outlineAll as) (Arg.outlineAll as') := by
  cases Arg.agreeAll_iff.1 h with
  | nil => exact .nil
  | cons ha has => exact (Arg.like ha).append (Arg.likeAll (Arg.agreeAll_iff.2 has))
termination_by structural as

theorem Assignment.like {b b' : Assignment} (h : b.agree .ignored b' = true) :
    Like b.outline b'.outline := by
  cases Assignment.matched h with
  | mk _ _ text value => exact .binding text value (Expr.like value) .nil
termination_by structural b

theorem Assignment.likeAll {bs bs' : List Assignment}
    (h : Assignment.agreeAll .ignored bs bs' = true) :
    Like (Assignment.outlineAll bs) (Assignment.outlineAll bs') := by
  cases Assignment.agreeAll_iff.1 h with
  | nil => exact .nil
  | cons hb hbs =>
    exact (Assignment.like hb).append (Assignment.likeAll (Assignment.agreeAll_iff.2 hbs))
termination_by structural bs

theorem Param.like {p p' : Param} (h : p.agree .ignored p' = true) : Like p.outline p'.outline := by
  cases Param.matched h with
  | mk _ _ _ default => exact .param h (Expr.likeOption default) .nil
termination_by structural p

theorem Param.likeAll {ps ps' : List Param} (h : Param.agreeAll .ignored ps ps' = true) :
    Like (Param.outlineAll ps) (Param.outlineAll ps') := by
  cases Param.agreeAll_iff.1 h with
  | nil => exact .nil
  | cons hp hps => exact (Param.like hp).append (Param.likeAll (Param.agreeAll_iff.2 hps))
termination_by structural ps

theorem LoopHead.like {l l' : LoopHead} (h : l.agree .ignored l' = true) :
    Like l.outline l'.outline := by
  cases LoopHead.matched h with
  | iterating bindings => exact Assignment.likeAll bindings
  | counting init cond update =>
    exact (Assignment.likeAll init).append ((Expr.like cond).append (Assignment.likeAll update))
termination_by structural l

theorem Clause.like {c c' : Clause} {rest rest' : Outline} (h : c.agree .ignored c' = true)
    (hrest : Like rest rest') : Like (c.outline rest) (c'.outline rest') := by
  cases Clause.matched h with
  | loop s s' head => exact .scoped _ s s' ((LoopHead.like head).append hrest)
  | filter _ _ cond => exact (Expr.like cond).append hrest
  | letIn s s' bindings => exact .scoped _ s s' ((Assignment.likeAll bindings).append hrest)
termination_by structural c

theorem Clause.likeAll {cs cs' : List Clause} {rest rest' : Outline}
    (h : Clause.agreeAll .ignored cs cs' = true) (hrest : Like rest rest') :
    Like (Clause.outlineAll cs rest) (Clause.outlineAll cs' rest') := by
  cases Clause.agreeAll_iff.1 h with
  | nil => exact hrest
  | cons hc hcs => exact Clause.like hc (Clause.likeAll (Clause.agreeAll_iff.2 hcs) hrest)
termination_by structural cs

end

mutual

theorem Stmt.like {t t' : Stmt} (h : t.agree .ignored t' = true) : Like t.outline t'.outline := by
  cases Stmt.matched h with
  | call _ _ _ args tail | assert _ _ args tail =>
    exact .part h rfl rfl ((Arg.likeAll args).append (Stmt.like tail)) .nil
  | block s s' items => exact .part h rfl rfl (.scoped _ s s' (Item.likeAll items)) .nil
  | bound _ s s' bindings body =>
    exact .part h rfl rfl
      (.scoped _ s s' ((Assignment.likeAll bindings).append (Stmt.like body))) .nil
  | choice _ _ cond yes no =>
    exact .part h rfl rfl
      ((Expr.like cond).append ((Stmt.like yes).append (Stmt.likeOption no))) .nil
  | file | empty => exact .part h rfl rfl .nil .nil
  | modified _ _ _ stmt => exact .part h rfl rfl (Stmt.like stmt) .nil
termination_by structural t

theorem Stmt.likeOption {t t' : Option Stmt} (h : Stmt.agreeOption .ignored t t' = true) :
    Like (Stmt.outlineOption t) (Stmt.outlineOption t') := by
  cases Stmt.agreeOption_iff.1 h with
  | none => exact .nil
  | some ht => exact Stmt.like ht
termination_by structural t

theorem Item.like {i i' : Item} (h : i.agree .ignored i' = true) : Like i.outline i'.outline := by
  cases Item.matched h with
  | moduleDef s s' _ params body =>
    exact .part h rfl rfl (.scope _ s s' (Param.likeAll params) (Item.likeAll body) .nil) .nil
  | functionDef s s' _ params body =>
    exact .part h rfl rfl (.scope _ s s' (Param.likeAll params) (Expr.like body) .nil) .nil
  | variableDef _ _ text value =>
    exact .part h rfl rfl (.binding text value (Expr.like value) .nil) .nil
  | stmt stmt => exact .part h rfl rfl (Stmt.like stmt) .nil
termination_by structural i

/-- Items that agree wherever they stand have outlines that are twins. -/
theorem Item.likeAll {is is' : List Item} (h : Item.agreeAll .ignored is is' = true) :
    Like (Item.outlineAll is) (Item.outlineAll is') := by
  cases Item.agreeAll_iff.1 h with
  | nil => exact .nil
  | cons hi his => exact (Item.like hi).append (Item.likeAll (Item.agreeAll_iff.2 his))
termination_by structural is

end

end Scad
