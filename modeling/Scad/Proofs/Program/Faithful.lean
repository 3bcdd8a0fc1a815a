import Scad.Proofs.Grammar.Nested
import Scad.Proofs.Program.Element

/-!
# Faithful elements

What it means that an element stands in a source where its span says: the ends are points of the
source, the parts lie inside, side by side and in order, and names and literals keep the text that
they cover. `Fits` says this of all elements that stand in a set of bytes.
-/

namespace Scad

/-- A span that covers bytes lies in another one if its bytes do. -/
theorem Span.contains_iff {s t : Span} (h : t.start.byte < t.stop.byte) :
    s.contains t = true ↔ t.bytes ⊆ s.bytes := by
  rw [Region.bytes, Region.bytes, Set.Ico_subset_Ico_iff h]
  simp [Span.contains]

theorem Span.contains_eq_true {s t : Span} :
    s.contains t = true ↔ s.start.byte ≤ t.start.byte ∧ t.stop.byte ≤ s.stop.byte := by
  simp [Span.contains]

theorem Span.contains_trans {s t u : Span} (hst : s.contains t = true) (htu : t.contains u = true) :
    s.contains u = true := by
  rw [Span.contains_eq_true] at *
  omega

/-- Between two points of a source there is a slice of it. -/
theorem Region.Marked.slice {source : List Char} {r : Region} (h : r.Marked source) :
    ∃ cs, Text.slice? source r.start.byte r.stop.byte = some cs := by
  obtain ⟨⟨a, ha, hstart⟩, ⟨b, hb, hstop⟩, hle⟩ := h
  simp only [hstart, hstop] at hle ⊢
  have hab : a <+: b := by
    rcases List.prefix_or_prefix_of_prefix ha hb with hab | ⟨z, rfl⟩
    · exact hab
    · cases z with
      | nil => simp
      | cons c z =>
        have := c.utf8Size_pos
        simp at hle
        omega
  obtain ⟨z, rfl⟩ := hab
  obtain ⟨rest, rfl⟩ := hb
  refine ⟨z, ?_⟩
  simpa using Text.slice?_append a z rest

namespace Element

/-- A name and a literal keep the text that they cover, and a name is this text. -/
def Quotes (source : List Char) : Element → Prop
  | name n =>
    Text.slice? source n.span.start.byte n.span.stop.byte = some n.text.toList ∧
      n.span.text = some n.text
  | expr (.literal _ s) =>
    ∃ cs, Text.slice? source s.start.byte s.stop.byte = some cs ∧ s.text = some (String.ofList cs)
  | _ => True

/-- An element stands in the source where its span says. Only an empty statement may cover
nothing. -/
structure Faithful (source : List Char) (x : Element) : Prop where
  start : x.span.start.Marks source
  stop : x.span.stop.Marks source
  forward : x.span.start.byte ≤ x.span.stop.byte
  solid : (∀ s, x ≠ .stmt (.empty s)) → x.span.start.byte < x.span.stop.byte
  inside : ∀ y ∈ x.children, x.span.contains y.span = true
  inOrder : x.row.Pairwise fun y z => y.span.stop.byte ≤ z.span.start.byte
  quotes : x.Quotes source

/-- The element is faithful, and so is all that it is made of. -/
inductive Sound (source : List Char) : Element → Prop
  | mk {x : Element} (faithful : x.Faithful source) (inner : ∀ y ∈ x.children, y.Sound source) :
    Sound source x

variable {source : List Char} {x y : Element}

theorem Sound.faithful (h : x.Sound source) : x.Faithful source := by
  cases h with
  | mk faithful => exact faithful

theorem Sound.child (h : x.Sound source) (hy : y ∈ x.children) : y.Sound source := by
  cases h with
  | mk _ inner => exact inner y hy

/-- What stands in the row of a sound element is sound and lies inside. -/
theorem Sound.row (h : x.Sound source) (hy : y ∈ x.row) :
    y.Sound source ∧ x.span.contains y.span = true := by
  rcases mem_row hy with hy | ⟨z, hz, hy⟩
  · exact ⟨h.child hy, h.faithful.inside y hy⟩
  · have hz' := h.child hz
    refine ⟨hz'.child hy, ?_⟩
    exact Span.contains_trans (h.faithful.inside z hz) (hz'.faithful.inside y hy)

theorem Sound.all (h : x.Sound source) : ∀ y ∈ x.all, y.Faithful source := by
  induction h with
  | mk faithful _ ih =>
    intro y hy
    rcases mem_all.1 hy with rfl | ⟨z, hz, hy⟩
    · exact faithful
    · exact ih z hz y hy

/-! ## Elements in a set of bytes -/

/-- Sound elements that cover some of these bytes each, in order. -/
structure Fits (source : List Char) (B : Set Nat) (xs : List Element) : Prop where
  sound : ∀ x ∈ xs, x.Sound source
  solid : ∀ x ∈ xs, x.span.start.byte < x.span.stop.byte
  within : ∀ x ∈ xs, x.span.bytes ⊆ B
  inOrder : xs.Pairwise fun x y => Precedes x.span.bytes y.span.bytes

variable {A B : Set Nat} {xs ys : List Element}

theorem fits_nil : Fits source B [] := ⟨by simp, by simp, by simp, .nil⟩

theorem Fits.mono (h : Fits source A xs) (hAB : A ⊆ B) : Fits source B xs :=
  ⟨h.sound, h.solid, fun x hx => (h.within x hx).trans hAB, h.inOrder⟩

theorem Fits.append (hx : Fits source A xs) (hy : Fits source B ys) (hAB : Precedes A B) :
    Fits source (A ∪ B) (xs ++ ys) := by
  refine ⟨fun x h => ?_, fun x h => ?_, fun x h => ?_,
    List.pairwise_append.2 ⟨hx.inOrder, hy.inOrder, ?_⟩⟩
  · exact (List.mem_append.1 h).elim (hx.sound x) (hy.sound x)
  · exact (List.mem_append.1 h).elim (hx.solid x) (hy.solid x)
  · rcases List.mem_append.1 h with h | h
    · exact (hx.within x h).trans Set.subset_union_left
    · exact (hy.within x h).trans Set.subset_union_right
  · exact fun x hx' y hy' => hAB.mono (hx.within x hx') (hy.within y hy')

theorem Sound.fits (h : x.Sound source) (hs : x.span.start.byte < x.span.stop.byte)
    (hB : x.span.bytes ⊆ B) : Fits source B [x] :=
  ⟨by simpa using h, by simpa using hs, by simpa using hB, List.pairwise_singleton _ _⟩

theorem Fits.ordered (h : Fits source B xs) :
    xs.Pairwise fun x y => x.span.stop.byte ≤ y.span.start.byte := by
  refine h.inOrder.imp_of_mem fun {x y} hx hy hxy => ?_
  have hsx := h.solid x hx
  have hlast : x.span.stop.byte - 1 ∈ x.span.bytes := ⟨by omega, by omega⟩
  have hfirst : y.span.start.byte ∈ y.span.bytes := ⟨Nat.le_refl _, h.solid y hy⟩
  have := hxy _ hlast _ hfirst
  omega

theorem Fits.inside {s : Span} (h : Fits source s.bytes xs) :
    ∀ x ∈ xs, s.contains x.span = true :=
  fun x hx => (Span.contains_iff (h.solid x hx)).2 (h.within x hx)

theorem Fits.mem (h : Fits source B xs) (hx : x ∈ xs) : Fits source B [x] :=
  (h.sound x hx).fits (h.solid x hx) (h.within x hx)

/-- An element over a region, of which the parts lie in the region. -/
theorem Fits.over {r : Region} (hr : r.Marked source) (hs : r.start.byte < r.stop.byte)
    (hspan : x.span.toRegion = r) (hq : x.Quotes source) (hrow : Fits source r.bytes x.row)
    (hx : ∀ y ∈ x.children, Fits source r.bytes [y]) : Fits source r.bytes [x] := by
  subst hspan
  refine Sound.fits (.mk ⟨hr.start, hr.stop, hr.forward, fun _ => hs, ?_, hrow.ordered, hq⟩ ?_) hs
    Set.Subset.rfl
  · exact fun y hy => (hx y hy).inside y (by simp)
  · exact fun y hy => (hx y hy).sound y (by simp)

/-- An element with one part, which stands in its place. -/
theorem Fits.wrap (h : Fits source B [y]) (hspan : x.span = y.span) (hq : x.Quotes source)
    (hrow : x.row = x.children) (hx : x.children = [y]) : Fits source B [x] := by
  have hy := h.sound y (by simp)
  have hs : x.span.start.byte < x.span.stop.byte := by
    rw [hspan]
    exact h.solid y (by simp)
  have hB : x.span.bytes ⊆ B := by
    rw [hspan]
    exact h.within y (by simp)
  refine Sound.fits (.mk ⟨?_, ?_, hs.le, fun _ => hs, ?_, ?_, hq⟩ ?_) hs hB
  · rw [hspan]
    exact hy.faithful.start
  · rw [hspan]
    exact hy.faithful.stop
  · simp [hx, hspan, Span.contains]
  · simp [hrow, hx]
  · simpa [hx] using hy

end Element
end Scad
