import Mathlib.Order.CompletePartialOrder
import Mathlib.Order.Interval.Set.Disjoint
import Mathlib.Order.Interval.Set.LinearOrder
import Scad.Proofs.Grammar.Cover
import Scad.Proofs.Grammar.Faults
import Scad.Proofs.Grammar.Matching
import Scad.Proofs.Token.Lossless

/-!
# Where nodes are placed

In the tree of a source without faults both ends of a node are points of the source, its children lie
inside it, and they stand in order. What counts is the bytes that a node covers: a list without
elements covers none, and so it is out of everybody's way wherever it stands.
-/

namespace Scad

/-- The bytes that a region covers. -/
def Region.bytes (r : Region) : Set Nat := Set.Ico r.start.byte r.stop.byte

/-- Every byte of the first set comes before every byte of the second. -/
def Precedes (A B : Set Nat) : Prop := ∀ x ∈ A, ∀ y ∈ B, x < y

theorem Precedes.mono {A A' B B' : Set Nat} (h : Precedes A B) (hA : A' ⊆ A) (hB : B' ⊆ B) :
    Precedes A' B' :=
  fun x hx y hy => h x (hA hx) y (hB hy)

theorem Precedes.disjoint {A B : Set Nat} (h : Precedes A B) : Disjoint A B :=
  Set.disjoint_left.2 fun x hx hx' => Nat.lt_irrefl x (h x hx x hx')

theorem precedes_Ico {lo mid mid' hi : Nat} (h : mid ≤ mid') :
    Precedes (Set.Ico lo mid) (Set.Ico mid' hi) :=
  fun _ hx _ hy => hx.2.trans_le (h.trans hy.1)

/-- A region between two points of the source. -/
structure Region.Marked (source : List Char) (r : Region) : Prop where
  start : r.start.Marks source
  stop : r.stop.Marks source
  forward : r.start.byte ≤ r.stop.byte

namespace Node

/-- The bytes that a node covers. -/
def bytes (n : Node) : Set Nat := n.region.bytes

@[simp]
theorem bytes_inRole (n : Node) (r : Role) : (n.inRole r).bytes = n.bytes := rfl

/-- A node between two points of the source, with its children inside it and in order, and so theirs. -/
inductive Placed (source : List Char) : Node → Prop
  | mk {n : Node} (marked : n.region.Marked source)
    (inside : ∀ c ∈ n.children, c.bytes ⊆ n.bytes)
    (inOrder : n.children.Pairwise fun a b => Precedes a.bytes b.bytes)
    (inner : ∀ c ∈ n.children, c.Placed source) : Placed source n

variable {source : List Char}

theorem Placed.inRole {n : Node} (h : n.Placed source) (r : Role) : (n.inRole r).Placed source := by
  obtain ⟨marked, inside, inOrder, inner⟩ := h
  exact .mk marked inside inOrder inner

/-- Nodes that are placed between two bytes, in order. -/
structure Lined (source : List Char) (lo hi : Nat) (ns : List Node) : Prop where
  placed : ∀ n ∈ ns, n.Placed source
  within : ∀ n ∈ ns, n.bytes ⊆ Set.Ico lo hi
  inOrder : ns.Pairwise fun a b => Precedes a.bytes b.bytes

variable {lo hi : Nat} {ns ms : List Node}

theorem lined_nil : Lined source lo hi [] := ⟨by simp, by simp, .nil⟩

theorem Lined.mono {lo' hi' : Nat} (h : Lined source lo hi ns) (hlo : lo' ≤ lo) (hhi : hi ≤ hi') :
    Lined source lo' hi' ns :=
  ⟨h.placed, fun n hn => (h.within n hn).trans (Set.Ico_subset_Ico hlo hhi), h.inOrder⟩

theorem Lined.append {mid mid' : Nat} (h : Lined source lo mid ns) (k : Lined source mid' hi ms)
    (hmid : mid ≤ mid') (hlo : lo ≤ mid') (hhi : mid ≤ hi) : Lined source lo hi (ns ++ ms) := by
  refine ⟨fun n hn => ?_, fun n hn => ?_, List.pairwise_append.2 ⟨h.inOrder, k.inOrder, ?_⟩⟩
  · exact (List.mem_append.1 hn).elim (h.placed n) (k.placed n)
  · rcases List.mem_append.1 hn with hn | hn
    · exact (h.within n hn).trans (Set.Ico_subset_Ico_right hhi)
    · exact (k.within n hn).trans (Set.Ico_subset_Ico_left hlo)
  · exact fun a ha b hb => (precedes_Ico hmid).mono (h.within a ha) (k.within b hb)

theorem Lined.inRole (h : Lined source lo hi ns) (r : Role) :
    Lined source lo hi (ns.map (·.inRole r)) := by
  refine ⟨fun n hn => ?_, fun n hn => ?_, List.pairwise_map.2 h.inOrder⟩
  · obtain ⟨m, hm, rfl⟩ := List.mem_map.1 hn
    exact (h.placed m hm).inRole r
  · obtain ⟨m, hm, rfl⟩ := List.mem_map.1 hn
    exact h.within m hm

theorem lined_singleton {n : Node} (h : n.Placed source) (hw : n.bytes ⊆ Set.Ico lo hi) :
    Lined source lo hi [n] :=
  ⟨by simpa using h, by simpa using hw, List.pairwise_singleton _ _⟩

end Node

/-! ## Places between tokens -/

namespace Stream

/-- The end of the token passed last. -/
def floor (s : Stream) : Nat := (s.last.map (·.region.stop.byte)).getD 0

/-- The token passed last, those ahead and the closing one. -/
def line (s : Stream) : List Token := s.last.toList ++ (s.ahead ++ [s.eof])

/-- The tokens around a place stand in order, and none of those ahead is empty. -/
structure Even (s : Stream) : Prop where
  proper : s.Proper
  aligned : Token.Aligned s.line
  solid : ∀ t ∈ s.ahead, t.region.start.byte < t.region.stop.byte

variable {s t : Stream} {run : List Token}

theorem Passes.line_suffix (h : s.Passes run t) : t.line <:+ s.line := by
  rcases List.eq_nil_or_concat run with rfl | ⟨front, x, rfl⟩
  · have hlast : t.last = s.last := by simpa using h.last
    rw [line, line, hlast, h.eof, show t.ahead = s.ahead by simpa using h.ahead.symm]
  · have hlast : t.last = some x := by simp [h.last]
    refine ⟨s.last.toList ++ front, ?_⟩
    simp [line, hlast, h.ahead, h.eof]

theorem Even.passes (hs : s.Even) (h : s.Passes run t) : t.Even :=
  ⟨hs.proper.of_passes h, hs.aligned.of_suffix h.line_suffix, fun x hx =>
    hs.solid x (by rw [h.ahead]; exact List.mem_append_right _ hx)⟩

theorem line_eq (s : Stream) : ∃ rest, s.line = s.last.toList ++ s.peek :: rest := by
  unfold line peek
  cases s.ahead with
  | nil => exact ⟨[], rfl⟩
  | cons x xs => exact ⟨xs ++ [s.eof], rfl⟩

/-- The token passed last ends before the next one starts. -/
theorem Even.floor_le (hs : s.Even) : s.floor ≤ s.position.byte := by
  obtain ⟨rest, hline⟩ := s.line_eq
  have hordered := hs.aligned.ordered
  rw [hline] at hordered
  unfold floor position
  cases hl : s.last with
  | none => exact Nat.zero_le _
  | some x =>
    rw [hl] at hordered
    exact (List.pairwise_cons.1 hordered).1 _ (by simp)

theorem Even.floor_le_eof (hs : s.Even) : s.floor ≤ s.eof.region.start.byte := by
  have hordered := hs.aligned.ordered
  unfold line at hordered
  unfold floor
  cases hl : s.last with
  | none => exact Nat.zero_le _
  | some x =>
    rw [hl] at hordered
    exact (List.pairwise_cons.1 hordered).1 _ (by simp)

/-- What is passed lies between the two places. -/
theorem Even.position_lt_floor (hs : s.Even) (h : s.Passes run t) (hne : run ≠ []) :
    s.position.byte < t.floor := by
  obtain ⟨a, rest, rfl⟩ := List.exists_cons_of_ne_nil hne
  obtain ⟨b, hb⟩ : ∃ b, (a :: rest).getLast? = some b :=
    ⟨_, List.getLast?_eq_some_getLast (by simp)⟩
  have hsolid : b.region.start.byte < b.region.stop.byte :=
    hs.solid b (by rw [h.ahead]; exact List.mem_append_left _ (List.mem_of_getLast? hb))
  have hline : a :: rest ++ (t.ahead ++ [s.eof]) <:+ s.line :=
    ⟨s.last.toList, by simp [line, h.ahead]⟩
  have haligned := hs.aligned.of_suffix hline
  have hle : a.region.start.byte ≤ b.region.start.byte := by
    rcases List.mem_cons.1 (List.mem_of_getLast? hb) with rfl | hmem
    · exact Nat.le_refl _
    · exact (haligned.forward a (by simp)).trans
        ((List.pairwise_cons.1 haligned.ordered).1 b (by simp [hmem]))
  have hpos : s.position = a.region.start := by
    rw [position, peek, h.ahead]
    rfl
  have hfloor : t.floor = b.region.stop.byte := by
    rw [floor, h.last, hb]
    rfl
  rw [hpos, hfloor]
  exact hle.trans_lt hsolid

theorem Even.floor_mono (hs : s.Even) (h : s.Passes run t) : s.floor ≤ t.floor := by
  by_cases hne : run = []
  · subst hne
    rw [floor, floor, show t.last = s.last by simpa using h.last]
  · exact hs.floor_le.trans (hs.position_lt_floor h hne).le

theorem Even.position_mono (hs : s.Even) (h : s.Passes run t) :
    s.position.byte ≤ t.position.byte := by
  by_cases hne : run = []
  · subst hne
    have hpeek : t.peek = s.peek := h.peek_eq (by have := h.count; simp at this; omega)
    rw [position, position, hpeek]
  · exact (hs.position_lt_floor h hne).le.trans (hs.passes h).floor_le

theorem bytes_regionFrom (s : Stream) (p : Position) :
    (s.regionFrom p).bytes = Set.Ico p.byte s.floor := by
  unfold regionFrom floor
  cases s.last with
  | none => simp [Region.bytes, Region.emptyAt]
  | some x =>
    dsimp only [Option.map_some, Option.getD_some]
    split
    · rename_i h
      simp only [Region.bytes, Region.emptyAt, Set.Ico_self]
      exact (Set.Ico_eq_empty (by omega)).symm
    · rfl

theorem regionFrom_solid {p : Position} (h : p.byte < s.floor) :
    (s.regionFrom p).start.byte < (s.regionFrom p).stop.byte := by
  unfold floor at h
  unfold regionFrom
  split
  · rename_i hl
    simp [hl] at h
  · rename_i x hl
    rw [hl, Option.map_some, Option.getD_some] at h
    rw [if_neg (by omega)]
    exact h

theorem start_even (source : List Char) : (Stream.start (tokenize source)).Even := by
  have hsound := tokenize_sound source
  have hline : (Stream.start (tokenize source)).line = (tokenize source).all := rfl
  refine ⟨(start_at source).proper, ⟨?_, fun t ht => ?_⟩, fun t ht => (hsound t ht).start_lt_stop⟩
  · exact tokenize_all_ordered source
  · rcases List.mem_append.1 (hline ▸ ht) with ht | ht
    · exact Nat.le_of_lt (hsound t ht).start_lt_stop
    · obtain rfl := List.mem_singleton.1 ht
      exact Nat.le_refl _

/-- A place between the tokens of a source, of which all ends are points of the source. -/
structure Over (source : List Char) (s : Stream) : Prop where
  even : s.Even
  marks : ∀ t ∈ s.line, t.region.start.Marks source ∧ t.region.stop.Marks source

theorem start_over (source : List Char) : (Stream.start (tokenize source)).Over source :=
  ⟨start_even source, tokenize_marks source⟩

theorem Over.passes {source : List Char} (hs : s.Over source) (h : s.Passes run t) :
    t.Over source :=
  ⟨hs.even.passes h, fun x hx => hs.marks x (h.line_suffix.subset hx)⟩

theorem Over.peek {source : List Char} (hs : s.Over source) :
    s.peek.region.start.Marks source ∧ s.peek.region.stop.Marks source := by
  obtain ⟨rest, hline⟩ := s.line_eq
  exact hs.marks _ (by simp [hline])

theorem Over.regionFrom {source : List Char} (hs : s.Over source) {p : Position}
    (hp : p.Marks source) : (s.regionFrom p).Marked source := by
  have hline : ∀ x, s.last = some x → x ∈ s.line := fun x hx => by simp [line, hx]
  unfold Stream.regionFrom
  split
  · exact ⟨hp, hp, Nat.le_refl _⟩
  · rename_i x hx
    split
    · exact ⟨hp, hp, Nat.le_refl _⟩
    · rename_i h
      exact ⟨hp, (hs.marks x (hline x hx)).2, Nat.le_of_not_lt h⟩

end Stream

/-! ## Rules -/

/-- What the phrases give is lined up behind the start of the frame if they carry nodes on, and else
behind the place where they start. -/
def Phrases.Lining (source : List Char) (f : Phrases) : Prop :=
  ∀ p fr s ns t, Stream.Over source s → fr.start.Marks source → fr.start.byte ≤ s.position.byte →
    (p.carries = true → Node.Lined source fr.start.byte s.floor fr.left) → f p fr s = .ok ns [] t →
    Node.Lined source (if p.carries then fr.start.byte else s.position.byte) t.floor ns

namespace Rule

/-- The rule builds no node that begins with the frame around it. -/
@[simp]
def Free : Rule → Prop
  | seq a b => a.Free ∧ b.Free
  | feed a b => a.Free ∧ b.Free
  | as _ a => a.Free
  | build _ _ => False
  | look g => ∀ a, (g a).Free
  | call p => p.carries = false
  | recover a => a.Free
  | _ => True

/-- Behind a rule that gives nodes, no node is built that begins before them. -/
@[simp]
def InLine : Rule → Prop
  | seq a b => a.InLine ∧ b.InLine ∧ (a = take ∨ b.Free)
  | feed a b => a.InLine ∧ b.InLine
  | as _ a => a.InLine
  | build _ a => a.InLine
  | fresh a => a.InLine
  | look g => ∀ a, (g a).InLine
  | recover a => a.InLine
  | _ => True

open Node

theorem gives_lined {source : List Char} {f : Phrases} (hf : f.Forward) (hline : f.Lining source) :
    ∀ (r : Rule) (c : Bool) (known : Option TokenKind) (lo : Nat) (fr : Frame) (s t : Stream)
      (ns : List Node), r.InLine → r.Carries c → r.Worded known → s.Over source →
      (∀ k, known = some k → s.peek.kind = k) → fr.start.Marks source →
      fr.start.byte ≤ s.position.byte → lo ≤ s.position.byte → (r.Free ∨ lo ≤ fr.start.byte) →
      (c = true → Lined source fr.start.byte s.floor fr.left ∧ Lined source lo s.floor fr.left) →
      Gives f r fr s ns t → Lined source lo t.floor ns := by
  have passes : ∀ {r : Rule} {fr : Frame} {s t : Stream} {ns : List Node}, s.Over source →
      Gives f r fr s ns t → ∃ run, s.Passes run t := by
    intro r fr s t ns hs h
    obtain ⟨run, hp⟩ := apply_passes hf r fr s hs.even.proper
    rw [h] at hp
    exact ⟨run, hp⟩
  intro r
  induction r with
  | done | take =>
    intro c known lo fr s t ns _ _ _ _ _ _ _ _ _ _ h
    obtain ⟨rfl, -⟩ : ns = [] ∧ _ := by simpa using h
    exact lined_nil
  | keep =>
    intro c known lo fr s t ns _ hc _ _ _ _ _ _ _ hl h
    obtain ⟨rfl, rfl⟩ := gives_keep.1 h
    exact (hl hc).2
  | leaf g =>
    intro c known lo fr s t ns _ _ hw hs hk _ _ hlo _ _ h
    obtain ⟨rfl, rfl⟩ := gives_leaf.1 h
    obtain ⟨k, hknown, hne, -⟩ := hw
    rw [← hk k hknown] at hne
    have hp := Stream.passes_peek hs.even.proper hne
    have hsolid := hs.even.solid s.peek (by simp [hp.ahead])
    have hfloor : s.advance.floor = s.peek.region.stop.byte := by
      rw [Stream.floor, hp.last]
      rfl
    refine lined_singleton (.mk ⟨hs.peek.1, hs.peek.2, hsolid.le⟩ (by simp) .nil (by simp)) ?_
    rw [hfloor]
    exact Set.Ico_subset_Ico_left hlo
  | expect k | closing k =>
    intro c known lo fr s t ns _ _ _ _ _ _ _ _ _ _ h
    obtain ⟨-, rfl, -⟩ : _ ∧ ns = [] ∧ _ := by simpa using h
    exact lined_nil
  | refuse w => intro c known lo fr s t ns _ _ _ _ _ _ _ _ _ _ h; simp at h
  | seq a b iha ihb =>
    intro c known lo fr s t ns hi hc hw hs hk hm hfr hlo hb hl h
    obtain ⟨m, u, n, ha, hgb, rfl⟩ := gives_seq.1 h
    obtain ⟨run, pa⟩ := passes hs ha
    have hu := hs.passes pa
    obtain ⟨_, pb⟩ := passes hu hgb
    have hmono := hs.even.position_mono pa
    have hku : ∀ k, (if a.isStill then known else none) = some k → u.peek.kind = k := by
      intro k hk'
      split at hk'
      · rename_i hstill
        rw [stream_of_isStill hstill ha]
        exact hk k hk'
      · cases hk'
    rcases hi.2.2 with rfl | hfree
    · obtain ⟨rfl, -⟩ := gives_take.1 ha
      exact ihb false _ lo fr u t n hi.2.1 hc.2 hw.2 hu hku hm (hfr.trans hmono) (hlo.trans hmono)
        (hb.imp_left And.right) (by simp) hgb
    · have h1 := iha c known lo fr s u m hi.1 hc.1 hw.1 hs hk hm hfr hlo (hb.imp_left And.left) hl ha
      have h2 := ihb false _ u.position.byte fr u t n hi.2.1 hc.2 hw.2 hu hku hm (hfr.trans hmono)
        (Nat.le_refl _) (.inl hfree) (by simp) hgb
      exact h1.append h2 hu.even.floor_le (hlo.trans hmono) (hu.even.floor_mono pb)
  | feed a b iha ihb =>
    intro c known lo fr s t ns hi hc hw hs hk hm hfr hlo hb hl h
    obtain ⟨m, u, ha, hgb⟩ := gives_feed.1 h
    obtain ⟨run, pa⟩ := passes hs ha
    have hmono := hs.even.position_mono pa
    have h1 := iha c known lo fr s u m hi.1 hc.1 hw.1 hs hk hm hfr hlo (hb.imp_left And.left) hl ha
    have h2 := iha c known fr.start.byte fr s u m hi.1 hc.1 hw.1 hs hk hm hfr hfr
      (.inr (Nat.le_refl _)) (fun h => ⟨(hl h).1, (hl h).1⟩) ha
    exact ihb true none lo { fr with left := m } u t ns hi.2 hc.2 hw.2 (hs.passes pa) (by simp) hm
      (hfr.trans hmono) (hlo.trans hmono) (hb.imp_left And.right) (fun _ => ⟨h2, h1⟩) hgb
  | as r a iha =>
    intro c known lo fr s t ns hi hc hw hs hk hm hfr hlo hb hl h
    obtain ⟨m, ha, rfl⟩ := gives_as.1 h
    exact (iha c known lo fr s t m hi hc hw.2 hs hk hm hfr hlo hb hl ha).inRole r
  | build g a iha =>
    intro c known lo fr s t ns hi hc hw hs hk hm hfr hlo hb hl h
    obtain ⟨m, ha, rfl⟩ := gives_build.1 h
    obtain ⟨run, pa⟩ := passes hs ha
    have hchildren := iha c known fr.start.byte fr s t m hi hc hw.2 hs hk hm hfr hfr
      (.inr (Nat.le_refl _)) (fun h => ⟨(hl h).1, (hl h).1⟩) ha
    have hbytes := t.bytes_regionFrom fr.start
    refine lined_singleton (.mk ((hs.passes pa).regionFrom hm) (fun n hn => ?_) hchildren.inOrder
      hchildren.placed) ?_
    · show n.bytes ⊆ (t.regionFrom fr.start).bytes
      rw [hbytes]
      exact hchildren.within n hn
    · rw [Node.bytes, hbytes]
      exact Set.Ico_subset_Ico_left (hb.resolve_left fun h => h)
  | fresh a iha =>
    intro c known lo fr s t ns hi hc hw hs hk _ _ hlo _ _ h
    exact iha false known lo _ s t ns hi hc.2 hw hs hk hs.peek.1 (Nat.le_refl _) hlo (.inr hlo)
      (by simp) h
  | look g ih =>
    intro c known lo fr s t ns hi hc hw hs _ hm hfr hlo hb hl h
    exact ih s.look c _ lo fr s t ns (hi _) (hc _) (hw _) hs (fun k hk => Option.some.inj hk) hm hfr
      hlo (hb.imp_left fun h => h s.look) hl h
  | call p =>
    intro c known lo fr s t ns _ hc _ hs _ hm hfr hlo hb hl h
    have hc : c = p.carries := hc
    have hcall := hline p fr s ns t hs hm hfr (fun h => (hl (hc.trans h)).1) h
    split at hcall
    · rename_i hcarries
      refine hcall.mono (hb.resolve_left fun hfree => ?_) (Nat.le_refl _)
      have hfree : p.carries = false := hfree
      rw [hfree] at hcarries
      cases hcarries
    · exact hcall.mono hlo (Nat.le_refl _)
  | recover a iha =>
    intro c known lo fr s t ns hi hc hw hs hk hm hfr hlo hb _ h
    exact iha false known lo fr s t ns hi hc.2 hw hs hk hm hfr hlo hb (by simp) (gives_recover.1 h)

end Rule

/-! ## The table -/

namespace Grammar

open Rule

theorem free_ite {p : Prop} [Decidable p] {a b : Rule} :
    (if p then a else b).Free ↔ if p then a.Free else b.Free := by
  split <;> rfl

theorem inLine_ite {p : Prop} [Decidable p] {a b : Rule} :
    (if p then a else b).InLine ↔ if p then a.InLine else b.InLine := by
  split <;> rfl

theorem argumentList_inLine : argumentList.InLine ∧ argumentList.Free := by
  refine ⟨⟨trivial, ⟨fun a => ?_, trivial, .inr trivial⟩, .inr ⟨trivial, trivial⟩⟩, ?_⟩
  · dsimp only
    split <;> trivial
  · simp [argumentList, node, all]

theorem callTail_inLine : callTail.InLine ∧ callTail.Free := by
  constructor <;> intro a <;> dsimp only <;> split <;> simp [Phrase.carries]

theorem bindingList_inLine : bindingList.InLine ∧ bindingList.Free := by
  simp [bindingList, assignments, node, all]

theorem parameterList_inLine : parameterList.InLine ∧ parameterList.Free := by
  simp [parameterList, node, all]

theorem statement_inLine : statement.InLine := by
  rintro ⟨k, x, k2⟩
  cases k with
  | identifier =>
    show (namedStatement _).InLine
    unfold namedStatement
    split
    · split_ifs <;> simp [node, all, boundStatement, assertStatement, moduleCall, Phrase.carries,
        bindingList_inLine, argumentList_inLine, callTail_inLine]
    · simp [node, all, declaration, expression, Phrase.carries]
    · simp [node, all, moduleCall, argumentList_inLine, callTail_inLine]
  | _ =>
    simp [node, all, moduleItem, functionItem, boundStatement, ifStatement, fileStatement,
      unionBlock, declaration, expression, Phrase.carries, bindingList_inLine,
      parameterList_inLine, inLine_ite, free_ite]

theorem statement_free : statement.Free := by
  rintro ⟨k, x, k2⟩
  cases k with
  | identifier =>
    show (namedStatement _).Free
    unfold namedStatement
    split
    · split_ifs <;> trivial
    · trivial
    · trivial
  | _ => trivial

theorem named_inLine {g : Form → Rule} {w : Wanted} (h : ∀ n, (g n).InLine ∧ (g n).Free) :
    (named g w).InLine ∧ (named g w).Free := by
  constructor <;> rintro ⟨k, x, k2⟩ <;> cases k <;> simp [h]

theorem primary_inLine : primary.InLine := by
  rintro ⟨k, x, k2⟩
  cases k with
  | identifier =>
    dsimp only
    split_ifs <;> simp [node, all, guardExpression, expression, argumentList_inLine, inLine_ite,
      free_ite, Phrase.carries]
  | lbracket =>
    refine ⟨trivial, fun a => ?_, .inl rfl⟩
    dsimp only
    split <;> simp [all, rangeBounds, expression, inLine_ite, free_ite, Phrase.carries]
  | _ =>
    simp [node, all, expression, bindingList_inLine, parameterList_inLine, Phrase.carries]

theorem primary_free : primary.Free := by
  rintro ⟨k, x, k2⟩
  cases k with
  | identifier =>
    dsimp only
    split_ifs <;> trivial
  | _ => trivial

/-- In no rule of the table does a node reach back over another. -/
theorem rule_inLine (p : Phrase) : (rule p).InLine := by
  cases p with
  | items | blockItems =>
    rintro ⟨k, x, k2⟩
    cases k <;> simp [Phrase.carries]
  | statement => exact statement_inLine
  | body =>
    intro a
    dsimp only
    split <;> trivial
  | arguments =>
    refine ⟨fun a => ?_, fun a => ?_, .inr fun a => ?_⟩
    · dsimp only
      split <;> simp [node, all, namedArgument, expression, Phrase.carries]
    · simp [inLine_ite]
    · simp [free_ite, Phrase.carries]
  | bindings =>
    intro a
    dsimp only
    split
    case h_4 =>
      refine ⟨(named_inLine fun n => ?_).1, fun a => ?_, .inr fun a => ?_⟩
      · simp [node, all, binding, expression, Phrase.carries]
      · simp [inLine_ite]
      · simp [free_ite, Phrase.carries]
    all_goals trivial
  | parameters =>
    intro a
    dsimp only
    split
    case h_3 =>
      refine ⟨(named_inLine fun n => ?_).1, fun a => ?_, .inr fun a => ?_⟩
      · simp [node, all, parameter, expression, Phrase.carries, inLine_ite, free_ite]
      · simp [inLine_ite]
      · simp [free_ite, Phrase.carries]
    all_goals trivial
  | element =>
    rintro ⟨k, x, k2⟩
    cases k <;> simp [node, all, expression, loopHead, assignments, inLine_ite, free_ite,
      Phrase.carries, bindingList_inLine]
  | elements => simp [rule, elements, inLine_ite, free_ite, Phrase.carries]
  | expr l => simp [rule, expr]
  | operators l =>
    intro a
    dsimp only
    split
    · trivial
    · split_ifs <;> simp [all, expression, Phrase.carries]
  | unary =>
    rintro ⟨k, x, k2⟩
    cases k <;> simp [node, all, Phrase.carries]
  | primary => exact primary_inLine
  | suffixes =>
    rintro ⟨k, x, k2⟩
    cases k <;> simp [all, expression, argumentList_inLine, inLine_ite, free_ite, Phrase.carries]

/-- A phrase that carries no nodes on builds none in the frame around it. -/
theorem rule_free (p : Phrase) (h : p.carries = false) : (rule p).Free := by
  cases p with
  | items | blockItems =>
    rintro ⟨k, x, k2⟩
    cases k <;> simp [Phrase.carries]
  | statement => exact statement_free
  | body =>
    intro a
    dsimp only
    split <;> simp [Phrase.carries]
  | arguments =>
    refine ⟨fun a => ?_, fun a => ?_⟩
    · dsimp only
      split <;> simp [node, all, namedArgument, expression, Phrase.carries]
    · simp [free_ite, Phrase.carries]
  | bindings =>
    intro a
    dsimp only
    split
    case h_4 =>
      refine ⟨(named_inLine fun n => ?_).2, fun a => ?_⟩
      · simp [node, all, binding, expression, Phrase.carries]
      · simp [free_ite, Phrase.carries]
    all_goals trivial
  | parameters =>
    intro a
    dsimp only
    split
    case h_3 =>
      refine ⟨(named_inLine fun n => ?_).2, fun a => ?_⟩
      · simp [node, all, parameter, expression, Phrase.carries, inLine_ite, free_ite]
      · simp [free_ite, Phrase.carries]
    all_goals trivial
  | element =>
    rintro ⟨k, x, k2⟩
    cases k <;> simp [node, all, expression, Phrase.carries]
  | elements => simp [rule, elements, free_ite, Phrase.carries]
  | expr l => simp [rule, expr]
  | unary =>
    rintro ⟨k, x, k2⟩
    cases k <;> simp [node, all]
  | primary => exact primary_free
  | operators l => cases h
  | suffixes => cases h

theorem parsePhrase_lining (source : List Char) : Phrases.Lining source parsePhrase := by
  intro p fr s ns t hs hm hfr hl h
  refine parsePhrase_induct_proper
    (P := fun p fr s o => ∀ ns t, Stream.Over source s → fr.start.Marks source →
      fr.start.byte ≤ s.position.byte →
      (p.carries = true → Node.Lined source fr.start.byte s.floor fr.left) → o = .ok ns [] t →
      Node.Lined source (if p.carries then fr.start.byte else s.position.byte) t.floor ns)
    ?_ ?_ p fr s hs.even.proper ns t hs hm hfr hl h
  · intro p fr s ns t _ _ _ _ h
    cases h
  · intro f forward _ hf p fr s _ ns t hs hm hfr hl h
    have line : f.Lining source := fun p fr s ns t hs => hf p fr s hs.even.proper ns t hs
    refine gives_lined forward line (rule p) p.carries none _ fr s t ns (rule_inLine p)
      (rule_carries p) (rule_worded none p) hs (by simp) hm hfr ?_ ?_ (fun hc => ?_) h
    · split
      · exact hfr
      · exact Nat.le_refl _
    · cases hc : p.carries with
      | true => exact .inr (Nat.le_refl _)
      | false => exact .inl (rule_free p hc)
    · rw [if_pos hc]
      exact ⟨hl hc, hl hc⟩

/-- The statements of a file without faults are placed in the file and in order. -/
theorem items_lined {source : List Char} {nodes : List Node} {t : Stream}
    (h : parsePhrase .items { start := {} } (.start (tokenize source)) = .ok nodes [] t) :
    Node.Lined source 0 (tokenize source).stop.byte nodes := by
  have hover := Stream.start_over source
  have hmarks : Position.Marks source {} := Position.marks_after [] source
  have hlined := parsePhrase_lining source .items _ _ nodes t hover hmarks (Nat.zero_le _)
    (by simp [Phrase.carries]) h
  obtain ⟨run, hp⟩ := parsePhrase_passes .items { start := {} } _ hover.even.proper
  rw [h, Outcome.stream_ok] at hp
  refine hlined.mono (Nat.zero_le _) ?_
  have hle := (hover.even.passes hp).floor_le_eof
  rwa [hp.eof] at hle

end Grammar
end Scad
