import Scad.Proofs.Grammar.Late
import Scad.Proofs.Grammar.Solid

/-!
# Trees of broken sources

Whatever the source is, the children of a node lie inside it and in order, with one exception. A
list in parentheses that is empty stands where the next token starts, and a closing parenthesis that
is missing stands where the last token ends. So an empty list that is not closed stands behind what
should close it, and behind the end of the node around it if no token follows (`root_housed`).
-/

namespace Scad

/-- A token ends at the byte `lo`, and the next one starts at `hi`. -/
def Token.Between (ts : List Token) (lo hi : Nat) : Prop :=
  ∃ a b, [a, b] <:+: ts ∧ a.region.stop.byte = lo ∧ b.region.start.byte = hi

/-! ## Nodes -/

namespace Node

/-- A list in parentheses that covers nothing. -/
structure Hollow (n : Node) : Prop where
  row : ∃ f, n.kind = .form f ∧ f.isRow = true
  empty : n.region.stop.byte = n.region.start.byte

/-- A node follows another one. The only exception is an empty list at the next token and a missing
token behind the last one. -/
def Follows (ts : List Token) (a b : Node) : Prop :=
  a.region.stop.byte ≤ b.region.start.byte ∨
    a.Hollow ∧ b.missing = true ∧ Token.Between ts b.region.start.byte a.region.start.byte

/-- The children of a node lie inside it and follow each other, and so theirs. The only exception is
an empty list at the token behind the node, with a missing token beside it. -/
inductive Housed (ts : List Token) : Node → Prop
  | mk {n : Node} (forward : n.region.start.byte ≤ n.region.stop.byte)
    (starts : ∀ c ∈ n.children, n.region.start.byte ≤ c.region.start.byte)
    (stops : ∀ c ∈ n.children, c.region.stop.byte ≤ n.region.stop.byte ∨
      c.Hollow ∧ Token.Between ts n.region.stop.byte c.region.start.byte ∧
        ∃ d ∈ n.children, d.missing = true)
    (inOrder : n.children.Pairwise (Follows ts))
    (inner : ∀ c ∈ n.children, c.Housed ts) : Housed ts n

variable {ts : List Token}

theorem Housed.forward {n : Node} (h : n.Housed ts) : n.region.start.byte ≤ n.region.stop.byte := by
  obtain ⟨forward, -, -, -, -⟩ := h
  exact forward

theorem Housed.inRole {n : Node} (h : n.Housed ts) (r : Role) : (n.inRole r).Housed ts := by
  obtain ⟨forward, starts, stops, inOrder, inner⟩ := h
  exact .mk forward starts stops inOrder inner

theorem housed_leaf {n : Node} (hc : n.children = [])
    (h : n.region.start.byte ≤ n.region.stop.byte) : n.Housed ts :=
  .mk h (by simp [hc]) (by simp [hc]) (by simp [hc]) (by simp [hc])

@[simp]
theorem region_inRole (n : Node) (r : Role) : (n.inRole r).region = n.region := rfl

@[simp]
theorem missing_inRole (n : Node) (r : Role) : (n.inRole r).missing = n.missing := rfl

@[simp]
theorem hollow_inRole {n : Node} {r : Role} : (n.inRole r).Hollow ↔ n.Hollow :=
  ⟨fun h => ⟨h.row, h.empty⟩, fun h => ⟨h.row, h.empty⟩⟩

/-- Housed nodes between two bytes, one behind the other. -/
structure Stands (ts : List Token) (lo hi : Nat) (ns : List Node) : Prop where
  housed : ∀ n ∈ ns, n.Housed ts
  after : ∀ n ∈ ns, lo ≤ n.region.start.byte
  before : ∀ n ∈ ns, n.region.stop.byte ≤ hi
  inOrder : ns.Pairwise fun a b => a.region.stop.byte ≤ b.region.start.byte

end Node

namespace Stream

variable {ts : List Token} {s t u : Stream} {run : List Token}

/-- A place in the tokens of a source, of which the closing one is the last. -/
structure Along (ts : List Token) (s : Stream) : Prop where
  even : s.Even
  line : s.line <:+ ts

theorem Along.passes (hs : s.Along ts) (h : s.Passes run t) : t.Along ts :=
  ⟨hs.even.passes h, h.line_suffix.trans hs.line⟩

theorem Along.between (hs : s.Along ts) (h : s.last ≠ none) :
    Token.Between ts s.floor s.position.byte := by
  obtain ⟨x, hx⟩ := Option.ne_none_iff_exists'.1 h
  obtain ⟨rest, hline⟩ := s.line_eq
  refine ⟨x, s.peek, ?_, by simp [floor, hx], rfl⟩
  have hpair : [x, s.peek] <:+: s.line := ⟨[], rest, by simp [hline, hx]⟩
  exact hpair.trans hs.line.isInfix

theorem Passes.position_eq (h : s.Passes [] t) : t.position = s.position := by
  rw [position, position, h.peek_eq (by simp [h.count])]

theorem Passes.last_eq (h : s.Passes [] t) : t.last = s.last := by
  simpa using h.last

theorem Passes.floor_eq (h : s.Passes [] t) : t.floor = s.floor := by
  rw [floor, floor, h.last_eq]

theorem regionFrom_stop (s : Stream) (p : Position) :
    (s.regionFrom p).stop.byte = max p.byte s.floor := by
  unfold regionFrom floor
  cases s.last with
  | none => simp [Region.emptyAt]
  | some x =>
    dsimp only [Option.map_some, Option.getD_some]
    split
    · rename_i h
      exact (max_eq_left h.le).symm
    · rename_i h
      exact (max_eq_right (not_lt.1 h)).symm

/-- A frame begins at this place, or a token was passed in it. -/
def Begun (s : Stream) (p : Position) : Prop := p.byte = s.position.byte ∨ p.byte < s.floor

theorem Even.begun (hs : s.Even) {p : Position} (h : s.Begun p) (hp : s.Passes run t) :
    t.Begun p := by
  by_cases hne : run = []
  · subst hne
    rwa [Begun, hp.position_eq, hp.floor_eq]
  · refine .inr (lt_of_le_of_lt ?_ (hs.position_lt_floor hp hne))
    exact h.elim Eq.le fun h => h.le.trans hs.floor_le

end Stream

/-! ## Nodes between two places -/

namespace Node

/-- The nodes that a rule gives between two places. They may begin with tokens missed where the rule
started, if it is not `late`, and hold lists that are still empty where it ended, if it is not
`bare`. If it `shuts` such a list, then by a token or by a node for a missing one. -/
structure Strung (ts : List Token) (lo : Nat) (late bare shuts : Prop) (s t : Stream)
    (ns : List Node) : Prop where
  housed : ∀ n ∈ ns, n.Housed ts
  after : ∀ n ∈ ns, lo ≤ n.region.start.byte ∨
    ¬ late ∧ n.missing = true ∧ n.region.start.byte = s.floor ∧ s.last ≠ none
  before : ∀ n ∈ ns, n.region.stop.byte ≤ t.floor ∨
    ¬ bare ∧ n.Hollow ∧ n.region.start.byte = t.position.byte ∧
      (shuts → ∃ d ∈ ns, d.missing = true)
  inOrder : ns.Pairwise fun a b => a.region.stop.byte ≤ b.region.start.byte ∨
    ¬ bare ∧ Follows ts a b

variable {ts : List Token} {lo lo' : Nat} {late bare shuts : Prop} {s t u : Stream}
  {ns ms : List Node}

theorem strung_nil : Strung ts lo late bare shuts s t [] := ⟨by simp, by simp, by simp, .nil⟩

theorem strung_singleton {n : Node} (h : n.Housed ts) (hlo : lo ≤ n.region.start.byte)
    (hhi : n.region.stop.byte ≤ t.floor) : Strung ts lo late bare shuts s t [n] :=
  ⟨by simpa using h, by simp [hlo], by simp [hhi], List.pairwise_singleton _ _⟩

theorem Strung.inRole (h : Strung ts lo late bare shuts s t ns) (r : Role) :
    Strung ts lo late bare shuts s t (ns.map (·.inRole r)) := by
  refine ⟨?_, ?_, ?_, List.pairwise_map.2 ?_⟩
  · simpa using fun n hn => (h.housed n hn).inRole r
  · simpa using h.after
  · simpa using h.before
  · simpa [Follows] using h.inOrder

theorem Strung.mono {late' bare' shuts' : Prop} (h : Strung ts lo late bare shuts s t ns)
    (hl : late' → late) (hb : bare' → bare) (hsh : shuts' → shuts) :
    Strung ts lo late' bare' shuts' s t ns :=
  ⟨h.housed, fun n hn => (h.after n hn).imp_right fun k => ⟨fun l => k.1 (hl l), k.2⟩,
    fun n hn => (h.before n hn).imp_right fun k =>
      ⟨fun b => k.1 (hb b), k.2.1, k.2.2.1, fun sh => k.2.2.2 (hsh sh)⟩,
    h.inOrder.imp fun hab => hab.imp_right fun k => ⟨fun b => k.1 (hb b), k.2⟩⟩

/-- What a rule gave is to the left of the next one. -/
theorem Strung.left (h : Strung ts lo late bare shuts s t ns) (hl : late) {v : Bool}
    (hb : v = true → bare) : Strung ts lo True (v = true) (v = true) t t ns := by
  refine ⟨h.housed, fun n hn => ?_, fun n hn => ?_, ?_⟩
  · exact (h.after n hn).imp_right fun k => absurd hl k.1
  · exact (h.before n hn).imp_right fun k =>
      ⟨fun hv => k.1 (hb hv), k.2.1, k.2.2.1, fun hv => absurd (hb hv) k.1⟩
  · exact h.inOrder.imp fun hab => hab.imp_right fun k => ⟨fun hv => k.1 (hb hv), k.2⟩

theorem Stands.strung (h : Stands ts lo t.floor ns) : Strung ts lo late bare shuts s t ns :=
  ⟨h.housed, fun n hn => .inl (h.after n hn), fun n hn => .inl (h.before n hn),
    h.inOrder.imp fun hab => .inl hab⟩

theorem Strung.stands (h : Strung ts lo late bare shuts s t ns) (hl : late) (hb : bare) :
    Stands ts lo t.floor ns :=
  ⟨h.housed, fun n hn => (h.after n hn).resolve_right fun k => k.1 hl,
    fun n hn => (h.before n hn).resolve_right fun k => k.1 hb,
    h.inOrder.imp fun hab => hab.resolve_right fun k => k.1 hb⟩

/-- The nodes of one rule and then those of another. -/
theorem Strung.append {la ba sa lb bb sb : Prop} {run more : List Token}
    (h : Strung ts lo la ba sa s u ns) (k : Strung ts lo' lb bb sb u t ms) (hs : s.Along ts)
    (hp : s.Passes run u) (hq : u.Passes more t) (hlo : lo ≤ s.position.byte) (hlo' : lo ≤ lo')
    (hmid : ns = [] ∨ u.position.byte ≤ lo') (hlate : late → la ∧ (run ≠ [] ∨ lb))
    (hbare : bare → ba ∧ bb)
    (hshuts : shuts → sb ∧ (sa ∨ more ≠ [] ∨ ∃ d ∈ ms, d.missing = true)) :
    Strung ts lo late bare shuts s t (ns ++ ms) := by
  have hu := hs.passes hp
  refine ⟨fun n hn => ?_, fun n hn => ?_, fun n hn => ?_, List.pairwise_append.2 ⟨?_, ?_, ?_⟩⟩
  · exact (List.mem_append.1 hn).elim (h.housed n) (k.housed n)
  · rcases List.mem_append.1 hn with hn | hn
    · exact (h.after n hn).imp_right fun ⟨hl, hm⟩ => ⟨fun hl' => hl (hlate hl').1, hm⟩
    · rcases k.after n hn with hle | ⟨hl, hm, hstart, hlast⟩
      · exact .inl (hlo'.trans hle)
      · by_cases hne : run = []
        · subst hne
          refine .inr ⟨fun hl' => hl ((hlate hl').2.resolve_left (by simp)), hm, ?_, ?_⟩
          · rw [hstart, hp.floor_eq]
          · rwa [← hp.last_eq]
        · refine .inl (hlo.trans ?_)
          rw [hstart]
          exact (hs.even.position_lt_floor hp hne).le
  · rcases List.mem_append.1 hn with hn | hn
    · rcases h.before n hn with hle | ⟨hb, hhollow, hstart, hsa⟩
      · exact .inl (hle.trans (hu.even.floor_mono hq))
      · by_cases hne : more = []
        · subst hne
          refine .inr ⟨fun hb' => hb (hbare hb').1, hhollow, ?_, fun hsh => ?_⟩
          · rw [hstart, hq.position_eq]
          · rcases (hshuts hsh).2 with hsh | hsh | ⟨d, hd, hm⟩
            · obtain ⟨d, hd, hm⟩ := hsa hsh
              exact ⟨d, List.mem_append_left _ hd, hm⟩
            · exact absurd rfl hsh
            · exact ⟨d, List.mem_append_right _ hd, hm⟩
        · refine .inl ?_
          rw [hhollow.empty, hstart]
          exact (hu.even.position_lt_floor hq hne).le
    · refine (k.before n hn).imp_right fun ⟨hb, hhollow, hstart, hsb⟩ =>
        ⟨fun hb' => hb (hbare hb').2, hhollow, hstart, fun hsh => ?_⟩
      obtain ⟨d, hd, hm⟩ := hsb (hshuts hsh).1
      exact ⟨d, List.mem_append_right _ hd, hm⟩
  · exact h.inOrder.imp fun hab => hab.imp_right fun ⟨hb, hf⟩ => ⟨fun hb' => hb (hbare hb').1, hf⟩
  · exact k.inOrder.imp fun hab => hab.imp_right fun ⟨hb, hf⟩ => ⟨fun hb' => hb (hbare hb').2, hf⟩
  · intro a ha b hb
    have hmid : u.position.byte ≤ lo' := hmid.resolve_left (List.ne_nil_of_mem ha)
    have hfloor := hu.even.floor_le
    rcases h.before a ha with hle | ⟨hbare', hhollow, hstart, -⟩ <;>
      rcases k.after b hb with hle' | ⟨-, hm, hstart', hlast⟩
    · exact .inl (by omega)
    · exact .inl (by omega)
    · exact .inl (by rw [hhollow.empty]; omega)
    · refine .inr ⟨fun hb' => hbare' (hbare hb').1, .inr ⟨hhollow, hm, ?_⟩⟩
      rw [hstart, hstart']
      exact hu.between hlast

/-- A node is around the nodes that a rule gave, if it begins in front of what is missed there, and
covers a token or holds no list that is still empty. -/
theorem Strung.house {p : Position} (h : Strung ts p.byte late bare shuts s t ns) (g : Form)
    (ht : t.Along ts) (hlate : late ∨ p.byte < s.floor) (hcover : bare ∨ p.byte < t.floor)
    (hshuts : shuts) :
    Housed ts { kind := .form g, region := t.regionFrom p, children := ns } := by
  have hstart := t.regionFrom_start p
  have hstop := t.regionFrom_stop p
  refine .mk ?_ (fun n hn => ?_) (fun n hn => ?_) ?_ h.housed
  · dsimp only
    rw [hstart]
    omega
  · dsimp only
    rw [hstart]
    rcases h.after n hn with hle | ⟨hnot, -, hfloor, -⟩
    · exact hle
    · exact hfloor ▸ (hlate.resolve_left hnot).le
  · rcases h.before n hn with hle | ⟨hnot, hhollow, hpos, hmissing⟩
    · refine .inl (hle.trans ?_)
      dsimp only
      omega
    · have hlt := hcover.resolve_left hnot
      have hlast : t.last ≠ none := fun h => by simp [Stream.floor, h] at hlt
      refine .inr ⟨hhollow, ?_, hmissing hshuts⟩
      dsimp only
      rw [hstop, max_eq_right hlt.le, hpos]
      exact ht.between hlast
  · exact h.inOrder.imp fun hab => hab.elim .inl And.right

end Node

/-! ## Rules -/

namespace Rule

/-- A rule that is late where it starts. -/
def LateAt (r : Rule) (s : Stream) : Prop := ∃ e, (e = true → s.peek.kind ≠ .eof) ∧ r.Late e

/-- No list in parentheses and no missing token is among the nodes given. The flag tells that none
is to the left. -/
@[simp]
def Bare : Bool → Rule → Prop
  | v, keep => v = true
  | _, closing _ => False
  | v, seq a b => a.Bare v ∧ b.Bare true
  | v, feed a b => a.Bare v ∧ b.Bare true
  | v, as _ a => a.Bare v
  | _, build g _ => g.isRow = false
  | _, fresh a => a.Bare true
  | v, look g => ∀ a, (g a).Bare v
  | v, recover a => a.Bare v
  | _, _ => True

@[simp]
def isClosing : Rule → Bool
  | closing k => k ≠ .eof
  | _ => false

/-- Behind a list in parentheses a token is passed, or one is missed. The flag tells that no list is
to the left. -/
@[simp]
def Shuts : Bool → Rule → Prop
  | v, keep => v = true
  | v, seq a b => b.Shuts true ∧ (a.Shuts v ∨ b.isClosing = true ∨ b.Eats false)
  | v, feed a b => a.Bare v ∧ b.Shuts true
  | v, as _ a => a.Shuts v
  | _, build g _ => g.isRow = false
  | _, fresh a => a.Shuts true
  | v, look g => ∀ a, (g a).Shuts v
  | v, recover a => a.Shuts v
  | _, _ => True

/-- Where a node is built, its lists are shut, and a token was passed since the frame began before
one is missed; the node covers a token, unless it is a list. The flags tell that no list is to the
left, that a token was passed since the frame began and that one is ahead. -/
@[simp]
def Houses : Bool → Bool → Bool → Rule → Prop
  | v, m, e, seq a b => a.Houses v m e ∧
    (b.Houses true m false ∨ a.Eats e ∧ b.Houses true true false)
  | v, m, e, feed a b => a.Houses v m e ∧ a.Late e ∧ (¬ a.Bare v ∧ b.Houses false m false ∨
    a.Bare v ∧ (b.Houses true m false ∨ a.Eats e ∧ b.Houses true true false))
  | v, m, e, as _ a => a.Houses v m e
  | v, m, e, build g a => a.Houses v m e ∧ a.Shuts v ∧ (m = true ∨ a.Late e) ∧
    (g.isRow = true ∧ a.Bare v ∨ m = true ∨ a.Eats e)
  | _, _, e, fresh a => a.Houses true false e
  | v, m, _, look g => ∀ a, (g a).Houses v m (a.kind ≠ .eof)
  | v, _, _, call p => v = true ∨ p.carries = false
  | v, m, e, recover a => e = true ∧ a.Houses v m e
  | _, _, _, _ => True

end Rule

/-- The nodes that the phrases give stand behind the start of the frame if they carry nodes on, and
else behind the place where they start. -/
def Phrases.Standing (ts : List Token) (f : Phrases) : Prop :=
  ∀ p fr s ns fs t, Stream.Along ts s → fr.start.byte ≤ s.position.byte →
    (p.carries = true → Node.Stands ts fr.start.byte s.floor fr.left ∧ s.Begun fr.start) →
    f p fr s = .ok ns fs t →
    Node.Stands ts (if p.carries then fr.start.byte else s.position.byte) t.floor ns

namespace Rule

open Node

variable {ts : List Token} {f : Phrases}

/-- Behind a rule that is not late itself a token was passed, or the next rule is late. -/
theorem lateAt_behind (hf : f.Forward) (he : f.Eating) {a b : Rule} {fr : Frame} {s u : Stream}
    {ns : List Node} {fs : List Fault} {run : List Token} (hs : s.Proper)
    (ha : a.apply f fr s = .ok ns fs u) (hp : s.Passes run u)
    (h : ∃ e, (e = true → s.peek.kind ≠ .eof) ∧ a.Late e ∧ (a.Eats e ∨ b.Late e)) :
    a.LateAt s ∧ (run ≠ [] ∨ b.LateAt u) := by
  obtain ⟨e, hpeek, hla, hlb⟩ := h
  refine ⟨⟨e, hpeek, hla⟩, ?_⟩
  rcases hlb with heats | hlb
  · exact .inl (hp.ne_nil_of_count_lt (count_lt_of_eats hf he a e fr s ns fs u hs heats hpeek ha))
  · by_cases hne : run = []
    · subst hne
      exact .inr ⟨e, by rwa [hp.peek_eq (by simp [hp.count])], hlb⟩
    · exact .inl hne

/-- A closing token is passed, or there is a node for it. -/
theorem closing_shuts {k : TokenKind} {fr : Frame} {s t : Stream} {ns : List Node} {fs : List Fault}
    {run : List Token} (hk : k ≠ .eof) (hs : s.Proper) (hp : s.Passes run t)
    (h : (closing k).apply f fr s = .ok ns fs t) : run ≠ [] ∨ ∃ d ∈ ns, d.missing = true := by
  rcases closing_eq_ok.1 h with ⟨hpeek, -, -, rfl⟩ | ⟨-, rfl, -, -⟩
  · have hcount := (Stream.passes_peek hs (hpeek ▸ hk)).count
    refine .inl (hp.ne_nil_of_count_lt ?_)
    simp only [List.length_singleton] at hcount
    omega
  · exact .inr ⟨_, List.mem_singleton_self _, rfl⟩

/-- What is known where a rule is applied. The flag `c` tells that the rule gives the nodes to the
left of it, and the others are those of `Houses`. -/
structure Ready (ts : List Token) (c v m e : Bool) (known : Option TokenKind) (lo : Nat)
    (fr : Frame) (s : Stream) (r : Rule) : Prop where
  along : s.Along ts
  known : ∀ k, known = some k → s.peek.kind = k
  ahead : e = true → s.peek.kind ≠ .eof
  forward : fr.start.byte ≤ s.position.byte
  passed : m = true → fr.start.byte < s.floor
  last : s.last ≠ none ∨ r.LateAt s
  lo_le : lo ≤ s.position.byte
  begun : r.Free ∨ lo ≤ fr.start.byte ∧ s.Begun fr.start
  left : c = true → Strung ts lo True (v = true) (v = true) s s fr.left ∧
    Strung ts fr.start.byte True (v = true) (v = true) s s fr.left

/-- Wherever the rule is applied, the nodes that it gives are strung. -/
def Strings (ts : List Token) (f : Phrases) (r : Rule) : Prop :=
  ∀ {c v m e : Bool} {known : Option TokenKind} {lo : Nat} {fr : Frame} {s t : Stream}
    {ns : List Node} {fs : List Fault}, r.InLine → r.Carries c → r.Worded known → r.Houses v m e →
    r.Ready ts c v m e known lo fr s → r.apply f fr s = .ok ns fs t →
    Strung ts lo (r.LateAt s) (r.Bare v) (r.Shuts v) s t ns

section

variable {a b : Rule} {c v m e : Bool} {known : Option TokenKind} {lo : Nat} {fr : Frame}
  {s t u : Stream} {ns : List Node} {fs : List Fault} {run : List Token}

theorem apply_along (hf : f.Forward) (hs : s.Along ts) (h : a.apply f fr s = .ok ns fs t) :
    ∃ run, s.Passes run t ∧ t.Along ts := by
  obtain ⟨run, hp⟩ := apply_passes hf a fr s hs.even.proper
  rw [h] at hp
  exact ⟨run, hp, hs.passes hp⟩

theorem ne_nil_of_eats (hf : f.Forward) (he : f.Eating) (hs : s.Along ts) (hp : s.Passes run t)
    (hr : a.Eats e) (hpeek : e = true → s.peek.kind ≠ .eof) (h : a.apply f fr s = .ok ns fs t) :
    run ≠ [] :=
  hp.ne_nil_of_count_lt (count_lt_of_eats hf he a e fr s ns fs t hs.even.proper hr hpeek h)

/-- What is known for a rule is known for another one that is late and free where the rule is. -/
theorem Ready.into (h : a.Ready ts c v m e known lo fr s) (hlate : a.LateAt s → b.LateAt s)
    (hfree : a.Free → b.Free) : b.Ready ts c v m e known lo fr s :=
  ⟨h.along, h.known, h.ahead, h.forward, h.passed, h.last.imp_right hlate, h.lo_le,
    h.begun.imp_left hfree, h.left⟩

theorem Ready.fromStart (h : a.Ready ts c v m e known lo fr s) :
    a.Ready ts c v m e known fr.start.byte fr s :=
  ⟨h.along, h.known, h.ahead, h.forward, h.passed, h.last, h.forward,
    h.begun.imp_right fun k => ⟨Nat.le_refl _, k.2⟩, fun hc => ⟨(h.left hc).2, (h.left hc).2⟩⟩

/-! ### Two rules in a row -/

theorem Ready.first (h : (seq a b).Ready ts c v m e known lo fr s) :
    a.Ready ts c v m e known lo fr s := by
  refine h.into ?_ And.left
  rintro ⟨e, hpeek, hla, -⟩
  exact ⟨e, hpeek, hla⟩

/-- Behind the first of two rules a token was passed, or the second one is late. -/
theorem Ready.last_behind (hf : f.Forward) (he : f.Eating)
    (h : (seq a b).Ready ts c v m e known lo fr s) (hp : s.Passes run u)
    (ha : a.apply f fr s = .ok ns fs u) : u.last ≠ none ∨ b.LateAt u := by
  rcases h.last with hlast | hlate
  · refine .inl ?_
    rw [hp.last]
    cases hl : s.last with
    | none => exact absurd hl hlast
    | some y => cases run.getLast? <;> simp
  · have hbehind := lateAt_behind hf he h.along.even.proper ha hp hlate
    exact hbehind.2.imp_left hp.last_ne_none

/-- Whether a token was passed in the frame is told to the second of two rules. -/
theorem Ready.houses_behind {w : Bool} (hf : f.Forward) (he : f.Eating)
    (h : a.Ready ts c v m e known lo fr s) (hp : s.Passes run u)
    (ha : a.apply f fr s = .ok ns fs u)
    (hb : b.Houses w m false ∨ a.Eats e ∧ b.Houses w true false) :
    ∃ m', b.Houses w m' false ∧ (m' = true → fr.start.byte < u.floor) := by
  rcases hb with hb | ⟨heats, hb⟩
  · exact ⟨m, hb, fun hm => (h.passed hm).trans_le (h.along.even.floor_mono hp)⟩
  · have hne := ne_nil_of_eats hf he h.along hp heats h.ahead ha
    exact ⟨true, hb, fun _ => h.forward.trans_lt (h.along.even.position_lt_floor hp hne)⟩

/-- What is known where the second of two rules is applied, with other nodes to its left. -/
theorem Ready.second (hf : f.Forward) (he : f.Eating) {c' v' m' : Bool}
    {known' : Option TokenKind} {lo' : Nat} {left : List Node}
    (h : (seq a b).Ready ts c v m e known lo fr s) (hp : s.Passes run u)
    (ha : a.apply f fr s = .ok ns fs u) (hk : ∀ k, known' = some k → u.peek.kind = k)
    (hm : m' = true → fr.start.byte < u.floor) (hlo : lo' ≤ u.position.byte)
    (hfree : b.Free ∨ lo' ≤ fr.start.byte ∧ u.Begun fr.start)
    (hleft : c' = true → Strung ts lo' True (v' = true) (v' = true) u u left ∧
      Strung ts fr.start.byte True (v' = true) (v' = true) u u left) :
    b.Ready ts c' v' m' false known' lo' { fr with left := left } u where
  along := h.along.passes hp
  known := hk
  ahead := by simp
  forward := h.forward.trans (h.along.even.position_mono hp)
  passed := hm
  last := h.last_behind hf he hp ha
  lo_le := hlo
  begun := hfree
  left := hleft

theorem strings_seq (hf : f.Forward) (he : f.Eating) (iha : a.Strings ts f)
    (ihb : b.Strings ts f) : (seq a b).Strings ts f := by
  intro c v m e known lo fr s t ns fs hi hc hw hr hs h
  obtain ⟨x, gs, u, y, hs', ha, hb, rfl, rfl⟩ := seq_eq_ok.1 h
  obtain ⟨run, pa, hu⟩ := apply_along hf hs.along ha
  obtain ⟨more, pb, -⟩ := apply_along hf hu hb
  have hmono := hs.along.even.position_mono pa
  have h1 := iha hi.1 hc.1 hw.1 hr.1 hs.first ha
  have hku : ∀ k, (if a.isStill then known else none) = some k → u.peek.kind = k := by
    intro k hk
    split at hk
    · rename_i hstill
      rw [stream_of_isStill hstill ha]
      exact hs.known k hk
    · cases hk
  obtain ⟨m', hb', hm'⟩ := hs.first.houses_behind hf he pa ha hr.2
  have go : ∀ lo', lo' ≤ u.position.byte → (b.Free ∨ lo' ≤ fr.start.byte ∧ u.Begun fr.start) →
      Strung ts lo' (b.LateAt u) (b.Bare true) (b.Shuts true) u t y := fun lo' hlo hfree =>
    ihb hi.2.1 hc.2 hw.2 hb' (hs.second hf he pa ha hku hm' hlo hfree (by simp)) hb
  -- the second rule begins behind the first one, or the first one gives nothing
  obtain ⟨lo', hlo', hmid, h2⟩ : ∃ lo', lo ≤ lo' ∧ (x = [] ∨ u.position.byte ≤ lo') ∧
      Strung ts lo' (b.LateAt u) (b.Bare true) (b.Shuts true) u t y := by
    rcases hi.2.2 with rfl | hfree
    · obtain ⟨rfl, -⟩ : [] = x ∧ _ := by simpa [apply] using ha
      refine ⟨lo, Nat.le_refl _, .inl rfl, go lo (hs.lo_le.trans hmono) ?_⟩
      exact hs.begun.imp And.right fun k => ⟨k.1, hs.along.even.begun k.2 pa⟩
    · exact ⟨_, hs.lo_le.trans hmono, .inr (Nat.le_refl _), go _ (Nat.le_refl _) (.inl hfree)⟩
  refine h1.append h2 hs.along pa pb hs.lo_le hlo' hmid
    (fun hlate => lateAt_behind hf he hs.along.even.proper ha pa hlate) id fun hsh => ⟨hsh.1, ?_⟩
  rcases hsh.2 with hsh | hsh | hsh
  · exact .inl hsh
  · cases b with
    | closing k => exact .inr (closing_shuts (by simpa using hsh) hu.even.proper pb hb)
    | _ => cases hsh
  · exact .inr (.inl (ne_nil_of_eats hf he hu pb hsh (by simp) hb))

theorem strings_feed (hf : f.Forward) (he : f.Eating) (iha : a.Strings ts f)
    (ihb : b.Strings ts f) : (feed a b).Strings ts f := by
  intro c v m e known lo fr s t ns fs hi hc hw hr hs h
  obtain ⟨x, gs, u, hs', ha, hb, rfl⟩ := feed_eq_ok.1 h
  obtain ⟨run, pa, hu⟩ := apply_along hf hs.along ha
  obtain ⟨more, pb, -⟩ := apply_along hf hu hb
  replace hs : (seq a b).Ready ts c v m e known lo fr s := hs.into id id
  have hlate : a.LateAt s := ⟨e, hs.ahead, hr.2.1⟩
  have h1 := iha hi.1 hc.1 hw.1 hr.1 hs.first ha
  have h2 := iha hi.1 hc.1 hw.1 hr.1 hs.first.fromStart ha
  -- the second rule is told whether the first one gave an open list
  obtain ⟨v', m', hv, hv', hb', hm'⟩ : ∃ v' m', (v' = true → a.Bare v) ∧
      (v' = false → ¬ a.Bare v) ∧ b.Houses v' m' false ∧
      (m' = true → fr.start.byte < u.floor) := by
    rcases hr.2.2 with ⟨hbare, hb'⟩ | ⟨hbare, hb'⟩
    · obtain ⟨m', hb', hm'⟩ := hs.first.houses_behind hf he pa ha (.inl hb')
      exact ⟨false, m', by simp, fun _ => hbare, hb', hm'⟩
    · obtain ⟨m', hb', hm'⟩ := hs.first.houses_behind hf he pa ha hb'
      exact ⟨true, m', fun _ => hbare, by simp, hb', hm'⟩
  have hsame : a.Bare v → v' = true := by
    intro hbare
    cases v' with
    | true => rfl
    | false => exact absurd hbare (hv' rfl)
  have hready : b.Ready ts true v' m' false none lo { fr with left := x } u :=
    hs.second hf he pa ha (by simp) hm'
      (hs.lo_le.trans (hs.along.even.position_mono pa))
      (hs.begun.imp And.right fun k => ⟨k.1, hs.along.even.begun k.2 pa⟩)
      fun _ => ⟨h1.left hlate hv, h2.left hlate hv⟩
  refine (strung_nil : Strung ts lo True True True s u []).append
    (ihb hi.2 hc.2 hw.2 hb' hready hb) hs.along pa pb hs.lo_le (Nat.le_refl _) (.inl rfl)
    (fun hlate => ⟨trivial, ?_⟩) (fun hbare => ⟨trivial, ?_⟩) fun hsh => ⟨?_, .inl trivial⟩
  · exact (lateAt_behind hf he hs.along.even.proper ha pa hlate).2
  · rw [hsame hbare.1]
    exact hbare.2
  · rw [hsame hsh.1]
    exact hsh.2

/-! ### Nodes that are made -/

theorem strings_leaf (g : Form) : (leaf g).Strings ts f := by
  intro c v m e known lo fr s t ns fs _ _ hw _ hs h
  obtain ⟨rfl, -, rfl⟩ : [_] = ns ∧ [] = fs ∧ s.advance = t := by simpa [apply] using h
  obtain ⟨k, hknown, hne, -⟩ := hw
  rw [← hs.known k hknown] at hne
  have hp := Stream.passes_peek hs.along.even.proper hne
  have hsolid := hs.along.even.solid s.peek (by simp [hp.ahead])
  have hfloor : s.advance.floor = s.peek.region.stop.byte := by
    rw [Stream.floor, hp.last]
    rfl
  exact strung_singleton (housed_leaf rfl hsolid.le) hs.lo_le hfloor.ge

theorem not_closing_lateAt {k : TokenKind} : ¬ (closing k).LateAt s := by
  rintro ⟨e, -, h⟩
  exact h

theorem strings_closing (k : TokenKind) : (closing k).Strings ts f := by
  intro c v m e known lo fr s t ns fs _ _ _ _ hs h
  rcases closing_eq_ok.1 h with ⟨-, rfl, -, -⟩ | ⟨-, rfl, -, rfl⟩
  · exact strung_nil
  · have hlast : t.last ≠ none := hs.last.resolve_right not_closing_lateAt
    have hgap := Stream.gapPosition_of_last hlast
    refine ⟨?_, ?_, ?_, List.pairwise_singleton _ _⟩
    · simpa using housed_leaf rfl (Nat.le_refl _)
    · intro n hn
      obtain rfl := List.mem_singleton.1 hn
      exact .inr ⟨not_closing_lateAt, rfl, hgap, hlast⟩
    · intro n hn
      obtain rfl := List.mem_singleton.1 hn
      exact .inl hgap.le

theorem strings_build (hf : f.Forward) (he : f.Eating) (iha : a.Strings ts f) (g : Form) :
    (build g a).Strings ts f := by
  intro c v m e known lo fr s t ns fs hi hc hw hr hs h
  obtain ⟨x, ha, rfl⟩ := build_eq_ok.1 h
  obtain ⟨run, pa, ht⟩ := apply_along hf hs.along ha
  obtain ⟨hlo, hbegun⟩ := hs.begun.resolve_left id
  obtain ⟨hr, hshuts, hlate, hcover⟩ := hr
  have hx := iha hi hc hw.2 hr (hs.fromStart.into id False.elim) ha
  -- the node covers a token, or it is a list with nothing in it that is still open
  replace hcover : g.isRow = true ∧ a.Bare v ∨ fr.start.byte < t.floor := by
    refine hcover.imp_right fun h => ?_
    rcases h with hm | heats
    · exact (hs.passed hm).trans_le (hs.along.even.floor_mono pa)
    · have hne := ne_nil_of_eats hf he hs.along pa heats hs.ahead ha
      exact hs.forward.trans_lt (hs.along.even.position_lt_floor pa hne)
  have hhoused := hx.house g ht (hlate.symm.imp (fun h => ⟨e, hs.ahead, h⟩) hs.passed)
    (hcover.imp_left And.right) hshuts
  have hstart := t.regionFrom_start fr.start
  have hstop := t.regionFrom_stop fr.start
  have hafter : lo ≤ (t.regionFrom fr.start).start.byte := hstart.symm ▸ hlo
  by_cases hlt : fr.start.byte < t.floor
  · refine strung_singleton hhoused hafter ?_
    dsimp only
    omega
  · have hrow := (hcover.resolve_right hlt).1
    have hrun : run = [] := by
      by_contra hne
      exact hlt (hs.forward.trans_lt (hs.along.even.position_lt_floor pa hne))
    subst hrun
    have hpos := hbegun.resolve_right (pa.floor_eq ▸ hlt)
    refine ⟨by simpa using hhoused, ?_, ?_, List.pairwise_singleton _ _⟩
    · intro n hn
      obtain rfl := List.mem_singleton.1 hn
      exact .inl hafter
    · intro n hn
      obtain rfl := List.mem_singleton.1 hn
      refine .inr ⟨fun hbare => by simp [hrow] at hbare, ⟨⟨g, rfl, hrow⟩, ?_⟩, ?_,
        fun hshuts => by simp [hrow] at hshuts⟩
      · dsimp only
        rw [hstart]
        omega
      · dsimp only
        rw [hstart, hpos, pa.position_eq]

theorem strings_look {g : Ahead → Rule} (ih : ∀ a, (g a).Strings ts f) : (look g).Strings ts f := by
  intro c v m e known lo fr s t ns fs hi hc hw hr hs h
  have hlook : (look g).LateAt s → (g s.look).LateAt s := by
    rintro ⟨e, -, hlate⟩
    exact ⟨_, by simp, hlate s.look⟩
  have hready : (g s.look).Ready ts c v m (s.look.kind ≠ .eof) (some s.look.kind) lo fr s :=
    ⟨hs.along, fun k hk => Option.some.inj hk, by simp, hs.forward, hs.passed,
      hs.last.imp_right hlook, hs.lo_le, hs.begun.imp_left fun h => h s.look, hs.left⟩
  exact (ih s.look (hi _) (hc _) (hw _) (hr _) hready h).mono hlook (fun h => h _) fun h => h _

theorem strings_call (hstand : f.Standing ts) (p : Phrase) : (call p).Strings ts f := by
  intro c v m e known lo fr s t ns fs _ hc _ hr hs h
  have hc : c = p.carries := hc
  have hleft : p.carries = true →
      Stands ts fr.start.byte s.floor fr.left ∧ s.Begun fr.start := by
    intro hcarries
    have hv : v = true := hr.resolve_right (by simp [hcarries])
    refine ⟨(hs.left (hc.trans hcarries)).2.stands trivial hv, ?_⟩
    exact (hs.begun.resolve_left (by simp [hcarries])).2
  have hns := hstand p fr s ns fs t hs.along hs.forward hleft h
  refine Stands.strung
    ⟨hns.housed, fun n hn => (hns.after n hn).trans' ?_, hns.before, hns.inOrder⟩
  split
  · rename_i hcarries
    exact (hs.begun.resolve_left (by simp [hcarries])).1
  · exact hs.lo_le

theorem strings_recover (hf : f.Forward) (iha : a.Strings ts f) : (recover a).Strings ts f := by
  intro c v m e known lo fr s t ns fs hi hc hw hr hs h
  rcases recover_eq_ok.1 h with ha | ⟨fault, gs, u, ha, rfl, rfl, rfl⟩
  · obtain rfl := hc.1
    exact iha hi hc.2 hw hr.2 (hs.into id id) ha
  · obtain ⟨run, pa⟩ := apply_passes hf a fr s hs.along.even.proper
    rw [ha, Outcome.stream_failed] at pa
    obtain ⟨more, pm⟩ := Stream.resume_passes (hs.along.even.proper.of_passes pa) s
    have hall := pa.trans pm
    have hcount := Stream.resume_count_lt hs.along.even.proper pa (hs.ahead hr.1)
    have hlt := hs.along.even.position_lt_floor hall (hall.ne_nil_of_count_lt hcount)
    have hstart := (u.resume s).regionFrom_start s.position
    have hstop := (u.resume s).regionFrom_stop s.position
    refine strung_singleton (housed_leaf rfl ?_) ?_ ?_
    · dsimp only
      rw [hstart]
      omega
    · dsimp only
      rw [hstart]
      exact hs.lo_le
    · dsimp only
      omega

end

theorem apply_strung (hf : f.Forward) (he : f.Eating) (hstand : f.Standing ts) (r : Rule) :
    r.Strings ts f := by
  induction r with
  | done | take =>
    intro c v m e known lo fr s t ns fs _ _ _ _ _ h
    obtain ⟨rfl, -⟩ : [] = ns ∧ _ := by simpa [apply] using h
    exact strung_nil
  | keep =>
    intro c v m e known lo fr s t ns fs _ hc _ _ hs h
    obtain ⟨rfl, -, rfl⟩ : fr.left = ns ∧ [] = fs ∧ s = t := by simpa [apply] using h
    exact (hs.left hc).1.mono (fun _ => trivial) id id
  | leaf g => exact strings_leaf g
  | expect k =>
    intro c v m e known lo fr s t ns fs _ _ _ _ _ h
    obtain ⟨-, rfl, -, -⟩ := expect_eq_ok.1 h
    exact strung_nil
  | closing k => exact strings_closing k
  | refuse w =>
    intro c v m e known lo fr s t ns fs _ _ _ _ _ h
    simp [apply] at h
  | seq a b iha ihb => exact strings_seq hf he iha ihb
  | feed a b iha ihb => exact strings_feed hf he iha ihb
  | as r a iha =>
    intro c v m e known lo fr s t ns fs hi hc hw hr hs h
    obtain ⟨x, ha, rfl⟩ := as_eq_ok.1 h
    exact (iha hi hc hw.2 hr (hs.into id id) ha).inRole r
  | build g a iha => exact strings_build hf he iha g
  | fresh a iha =>
    intro c v m e known lo fr s t ns fs hi hc hw hr hs h
    exact iha hi hc.2 hw hr ⟨hs.along, hs.known, hs.ahead, Nat.le_refl _, by simp, hs.last,
      hs.lo_le, .inr ⟨hs.lo_le, .inl rfl⟩, by simp⟩ h
  | look g ih => exact strings_look ih
  | call p => exact strings_call hstand p
  | recover a iha => exact strings_recover hf iha

end Rule

/-! ## The table -/

namespace Grammar

open Rule

theorem bare_ite {p : Prop} [Decidable p] {a b : Rule} {v : Bool} :
    (if p then a else b).Bare v ↔ if p then a.Bare v else b.Bare v := by
  split <;> rfl

theorem shuts_ite {p : Prop} [Decidable p] {a b : Rule} {v : Bool} :
    (if p then a else b).Shuts v ↔ if p then a.Shuts v else b.Shuts v := by
  split <;> rfl

theorem houses_ite {p : Prop} [Decidable p] {a b : Rule} {v m e : Bool} :
    (if p then a else b).Houses v m e ↔ if p then a.Houses v m e else b.Houses v m e := by
  split <;> rfl

theorem argumentList_shuts {v : Bool} : argumentList.Shuts v := by
  simp [argumentList, node, all]

theorem argumentList_houses {v m e : Bool} : argumentList.Houses v m e := by
  refine ⟨trivial, .inl ⟨⟨fun a => ?_, fun a => ?_, .inr fun a => ?_, .inl ⟨rfl, fun a => ?_⟩⟩,
    .inl trivial⟩⟩ <;>
  · dsimp only
    split <;> simp

theorem bindingList_shuts {v : Bool} : bindingList.Shuts v := by
  simp [bindingList, assignments, node, all]

theorem bindingList_houses {v m e : Bool} : bindingList.Houses v m e := by
  simp [bindingList, assignments, node, all, Form.isRow, Phrase.carries]

theorem parameterList_shuts {v : Bool} : parameterList.Shuts v := by
  simp [parameterList, node, all]

theorem parameterList_houses {v m e : Bool} : parameterList.Houses v m e := by
  simp [parameterList, node, all, Form.isRow, Phrase.carries]

theorem callTail_shuts {v : Bool} : callTail.Shuts v := by
  intro a
  dsimp only
  split <;> simp

theorem callTail_houses {v m e : Bool} : callTail.Houses v m e := by
  intro a
  dsimp only
  split <;> simp [Phrase.carries]

theorem statement_houses : statement.Houses true false false := by
  rintro ⟨k, x, k2⟩
  cases k with
  | identifier =>
    show (namedStatement _).Houses true false true
    unfold namedStatement
    split
    · split_ifs <;> simp [node, all, Eats, boundStatement, assertStatement, moduleCall,
        bindingList_houses, bindingList_shuts, argumentList_houses, argumentList_shuts,
        callTail_houses, callTail_shuts]
    · simp [node, all, Eats, declaration, expression]
    · simp [node, all, Eats, moduleCall, argumentList_houses, argumentList_shuts, callTail_houses,
        callTail_shuts]
  | _ =>
    simp [node, all, Eats, moduleItem, functionItem, boundStatement, ifStatement, fileStatement,
      unionBlock, declaration, expression, bindingList_houses, bindingList_shuts,
      parameterList_houses, parameterList_shuts, houses_ite, shuts_ite]

theorem named_houses {g : Form → Rule} {w : Wanted} {v m e : Bool}
    (h : ∀ n, (g n).Houses v m true) :
    (named g w).Houses v m e := by
  rintro ⟨k, x, k2⟩
  cases k <;> simp [h]

theorem named_bare {g : Form → Rule} {w : Wanted} {v : Bool} (h : ∀ n, (g n).Bare v) :
    (named g w).Bare v := by
  rintro ⟨k, x, k2⟩
  cases k <;> simp [h]

theorem primary_houses : primary.Houses true false false := by
  rintro ⟨k, x, k2⟩
  cases k with
  | identifier =>
    dsimp only
    split_ifs <;> simp [node, all, Eats, guardExpression, expression, argumentList_houses,
      argumentList_shuts, houses_ite, shuts_ite]
  | lbracket =>
    refine ⟨trivial, .inr ⟨rfl, fun a => ?_⟩⟩
    dsimp only
    split <;> simp [all, Eats, rangeBounds, expression, houses_ite, shuts_ite, bare_ite, Form.isRow,
      Phrase.eats]
  | _ =>
    simp [node, all, Eats, expression, bindingList_houses, bindingList_shuts, parameterList_houses,
      parameterList_shuts]

/-- In every node that a rule of the table builds, the lists are shut. -/
theorem rule_houses (p : Phrase) : (rule p).Houses true false false := by
  cases p with
  | items | blockItems =>
    rintro ⟨k, x, k2⟩
    cases k <;> simp
  | statement => exact statement_houses
  | body =>
    intro a
    dsimp only
    split <;> simp
  | arguments =>
    refine ⟨fun a => ?_, .inl fun a => ?_⟩
    · dsimp only
      split <;> simp [node, all, Eats, namedArgument, expression]
    · simp [houses_ite]
  | bindings =>
    intro a
    dsimp only
    split
    case h_4 =>
      refine ⟨named_houses fun n => ?_, .inl fun a => ?_⟩
      · simp [node, all, Eats, binding, expression]
      · simp [houses_ite]
    all_goals trivial
  | parameters =>
    intro a
    dsimp only
    split
    case h_3 =>
      refine ⟨named_houses fun n => ?_, .inl fun a => ?_⟩
      · simp [node, all, Eats, parameter, expression, houses_ite, shuts_ite]
      · simp [houses_ite]
    all_goals trivial
  | element =>
    rintro ⟨k, x, k2⟩
    cases k <;> simp [node, all, Eats, expression, loopHead, assignments, houses_ite, shuts_ite,
      bindingList_houses, bindingList_shuts, Form.isRow, Phrase.carries, Phrase.eats]
  | elements => simp [rule, elements, houses_ite]
  | expr l => simp [rule, expr]
  | operators l =>
    rintro ⟨k, x, k2⟩
    dsimp only
    split
    · trivial
    · rename_i q hq
      have hk : k ≠ .eof := by
        rintro rfl
        simp [Level.ofToken?] at hq
      split_ifs <;> simp [all, Eats, expression, Phrase.eats, Form.isRow, hk]
  | unary =>
    rintro ⟨k, x, k2⟩
    cases k <;> simp [node, all, Eats]
  | primary => exact primary_houses
  | suffixes =>
    rintro ⟨k, x, k2⟩
    cases k <;> simp [all, Eats, expression, argumentList_houses, argumentList_shuts,
      argumentList_eats, argumentList_late, houses_ite, shuts_ite, Form.isRow]

theorem statement_bare : statement.Bare true := by
  rintro ⟨k, x, k2⟩
  cases k with
  | identifier =>
    show (namedStatement _).Bare true
    unfold namedStatement
    split
    · split_ifs <;> rfl
    · rfl
    · rfl
  | _ => first | rfl | trivial

theorem primary_bare : primary.Bare true := by
  rintro ⟨k, x, k2⟩
  cases k with
  | identifier =>
    dsimp only
    split_ifs <;> first | rfl | trivial
  | lbracket =>
    refine ⟨trivial, fun a => ?_⟩
    dsimp only
    split <;> simp [bare_ite, Form.isRow]
  | _ => first | rfl | trivial

/-- No phrase gives a list in parentheses or a missing token. -/
theorem rule_bare (p : Phrase) : (rule p).Bare true := by
  cases p with
  | items | blockItems =>
    rintro ⟨k, x, k2⟩
    cases k <;> simp
  | statement => exact statement_bare
  | body =>
    intro a
    dsimp only
    split <;> trivial
  | arguments =>
    refine ⟨fun a => ?_, fun a => ?_⟩
    · dsimp only
      split <;> first | rfl | trivial
    · simp [bare_ite]
  | bindings =>
    intro a
    dsimp only
    split
    case h_4 => exact ⟨named_bare fun n => rfl, fun a => by simp [bare_ite]⟩
    all_goals trivial
  | parameters =>
    intro a
    dsimp only
    split
    case h_3 => exact ⟨named_bare fun n => rfl, fun a => by simp [bare_ite]⟩
    all_goals trivial
  | element =>
    rintro ⟨k, x, k2⟩
    cases k <;> first | rfl | trivial
  | elements => simp [rule, elements, bare_ite]
  | expr l => simp [rule, expr]
  | operators l =>
    intro a
    dsimp only
    split
    · rfl
    · split_ifs <;> simp [Form.isRow]
  | unary =>
    rintro ⟨k, x, k2⟩
    cases k <;> simp [node, Form.isRow]
  | primary => exact primary_bare
  | suffixes =>
    rintro ⟨k, x, k2⟩
    cases k <;> simp [Form.isRow]

theorem parsePhrase_standing (ts : List Token) : Phrases.Standing ts parsePhrase := by
  intro p fr s ns fs t hs hfr hl h
  refine parsePhrase_induct_proper
    (P := fun p fr s o => ∀ ns fs t, Stream.Along ts s → fr.start.byte ≤ s.position.byte →
      (p.carries = true → Node.Stands ts fr.start.byte s.floor fr.left ∧ s.Begun fr.start) →
      o = .ok ns fs t →
      Node.Stands ts (if p.carries then fr.start.byte else s.position.byte) t.floor ns)
    ?_ ?_ p fr s hs.even.proper ns fs t hs hfr hl h
  · intro p fr s ns fs t _ _ _ h
    cases h
  · intro f forward eating hf p fr s _ ns fs t hs hfr hl h
    have stand : f.Standing ts := fun p fr s ns fs t hs => hf p fr s hs.even.proper ns fs t hs
    have late : (rule p).LateAt s := ⟨false, by simp, rule_late p⟩
    have hready : (rule p).Ready ts p.carries true false false none
        (if p.carries then fr.start.byte else s.position.byte) fr s := by
      refine ⟨hs, by simp, by simp, hfr, by simp, .inr late, ?_, ?_, fun hc => ?_⟩
      · split
        · exact hfr
        · exact Nat.le_refl _
      · cases hc : p.carries with
        | true => exact .inr ⟨Nat.le_refl _, (hl hc).2⟩
        | false => exact .inl (rule_free p hc)
      · rw [if_pos hc]
        exact ⟨(hl hc).1.strung, (hl hc).1.strung⟩
    exact (apply_strung forward eating stand (rule p) (rule_inLine p) (rule_carries p)
      (rule_worded none p) (rule_houses p) hready h).stands late (rule_bare p)

end Grammar

namespace SyntaxTree

/-- In the tree of any source, the children of a node lie inside it and in order. The only exception
is an empty list in parentheses that is not closed. -/
theorem root_housed (source : List Char) :
    (ofSource source).root.Housed (tokenize source).all := by
  obtain ⟨nodes, fs, t, h, htree⟩ := ofSource_eq source
  have hover : (Stream.start (tokenize source)).Along (tokenize source).all :=
    ⟨Stream.start_even source, List.suffix_rfl⟩
  have hstands := Grammar.parsePhrase_standing _ .items _ _ nodes fs t hover (Nat.zero_le _)
    (by simp [Phrase.carries]) h
  obtain ⟨run, hp⟩ := Grammar.parsePhrase_passes .items { start := {} } _ hover.even.proper
  rw [h, Outcome.stream_ok] at hp
  have hle := (hover.even.passes hp).floor_le_eof
  rw [hp.eof] at hle
  rw [htree]
  refine .mk (Nat.zero_le _) (fun c hc => Nat.zero_le _) (fun c hc => .inl ?_) ?_ hstands.housed
  · exact (hstands.before c hc).trans hle
  · exact hstands.inOrder.imp .inl

/-- The arguments of a call that is cut off stand behind the call, and the parenthesis that is
missing after them stands in front of them. -/
theorem arguments_cut_off :
    (ofSource "cube( ".toList).root.children.map (fun n => (n.region.start.byte, n.region.stop.byte,
      n.children.map fun c => (c.kind.name, c.region.start.byte, c.region.stop.byte))) =
      [(0, 5, [("identifier", 0, 4), ("arguments", 6, 6), (")", 5, 5), (";", 5, 5)])] := by
  decide +kernel

end SyntaxTree
end Scad
