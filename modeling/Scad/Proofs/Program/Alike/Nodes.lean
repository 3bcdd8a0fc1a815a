import Scad.Proofs.Program.Alike.Shapes
import Scad.Proofs.Program.Forms.Stmt

/-!
# Nodes that are read alike

A node that the grammar built from one source is read alike as a node of another source if both have
the same form and children that are read alike. For a leaf the tokens decide: they have to be the
same but for the spelling of a number or a string.
-/

namespace Scad

open Read Piece

/-- A leaf of a number or a string is made from such a token, and no other leaf is. -/
def Form.Suits (f : Form) (k : TokenKind) : Prop :=
  (f = .number ↔ k = .number) ∧ (f = .string ↔ k = .string)

theorem Form.Suits.verbatim {f : Form} {k : TokenKind} (h : f.Suits k) (h1 : f ≠ .number)
    (h2 : f ≠ .string) : k ≠ .number ∧ k ≠ .string :=
  ⟨h.1.not.1 h1, h.2.not.1 h2⟩

namespace Node

/-- The nodes of two sources are read alike. -/
def Alike (source source' : List Char) (n n' : Node) : Prop :=
  Reading.Alike source source' (n.reading source) (n'.reading source')

section

variable {source source' : List Char} {region region' : Region} {f : Form} {n n' : Node}

theorem Alike.inRole (h : n.Alike source source' n') {r : Role} (hr : r.isSymbol = false) :
    (n.inRole r).Alike source source' (n'.inRole r) := by
  have h : Reading.Alike source source' (n.reading source) (n'.reading source') := h
  unfold Alike
  rw [reading_inRole, reading_inRole]
  refine { h with role := rfl, symbol := fun q hq hs => ?_ }
  obtain rfl := Option.some.inj hq
  rw [hr] at hs
  cases hs

/-! ## Compound nodes -/

theorem shape_alike {ns ns' : List Node}
    (h : List.Forall₂ (Alike source source') ns ns') :
    Shape.Alike ⟨source, .form f, region, ns.map (reading source)⟩
      ⟨source', .form f, region', ns'.map (reading source')⟩ :=
  ⟨rfl, List.forall₂_map_left_iff.2 (List.forall₂_map_right_iff.2 h)⟩

theorem readName_follows (hf : f.isText = false) (m : Read Name) :
    Follows Name.Alike (readName source (.form f) region) m := by
  cases f with
  | identifier | specialVariable => cases hf
  | _ => exact follows_throw _ _

theorem alike_form {ns ns' : List Node} (hf : f.isText = false)
    (h : List.Forall₂ (Alike source source') ns ns') :
    Alike source source' ⟨.form f, region, none, false, ns⟩ ⟨.form f, region', none, false, ns'⟩ := by
  have hs : Shape.Alike ⟨source, .form f, region.forward, ns.map (reading source)⟩
      ⟨source', .form f, region'.forward, ns'.map (reading source')⟩ := shape_alike h
  unfold Alike
  rw [reading_form, reading_form]
  refine hs.reading none (readName_follows hf _)
    (hs.asExpr fun g hg => ?_) (by simp)
  obtain rfl := Label.form.inj hg
  exact hf

theorem reading_role (source : List Char) (n : Node) : (n.reading source).role = n.role := by
  cases n
  rfl

/-- A module, whose body may have got braces. -/
theorem alike_module {d d' p p' a a' : Node} (hd : d.Alike source source' d')
    (hdr : d.role = some .name) (hp : p.Alike source source' p') (hpr : p.role = some .parameters)
    (ha : Shape.BodyAlike (a.reading source) (a'.reading source')) (har : a.role = some .body)
    (har' : a'.role = some .body) :
    Alike source source' ⟨.form .moduleItem, region, none, false, [d, p, a]⟩
      ⟨.form .moduleItem, region', none, false, [d', p', a']⟩ := by
  have hdr' : (d'.reading source').role = some .name := by rw [hd.role, reading_role, hdr]
  have hpr' : (p'.reading source').role = some .parameters := by rw [hp.role, reading_role, hpr]
  rw [← reading_role source] at hdr hpr har
  rw [← reading_role source'] at har'
  unfold Alike
  rw [reading_form, reading_form]
  simp only [List.map_cons, List.map_nil]
  exact
    { label := rfl
      role := rfl
      name := readName_follows rfl _
      symbol := by simp [Shape.reading]
      item := by
        refine Shape.asModule_follows ?_ ?_ ?_ ?_ ?_ ?_ hd.name hp.parameters ha
        all_goals simp [Shape.child?, hdr, hdr', hpr, hpr', har, har']
      items := fun hl => by cases hl
      stmt := Shape.follows_unsupported _
      expr := Shape.follows_unsupported _
      tail := Shape.follows_body (Shape.follows_unsupported _)
      argument := Follows.bind (R := Expr.Alike) (Shape.follows_unsupported _) fun _ _ he =>
        follows_pure ⟨by simp [Arg.agree, he.agree], he.pieces⟩
      arguments := Shape.follows_unsupported _
      assignment := Shape.follows_unsupported _
      assignments := Shape.follows_unsupported _
      parameter := Shape.follows_unsupported _
      parameters := Shape.follows_unsupported _ }

theorem bodyAlike_inRole {a a' : Node}
    (h : Shape.BodyAlike (a.reading source) (a'.reading source')) (r : Role) :
    Shape.BodyAlike ((a.inRole r).reading source) ((a'.inRole r).reading source') := by
  rw [reading_inRole, reading_inRole]
  exact h

/-- A body that got braces. -/
theorem bodyAlike_block {a a' : Node} (ha : a.Alike source source' a')
    (hk : a.kind ≠ .form .unionBlock) :
    Shape.BodyAlike (a.reading source)
      (reading source' ⟨.form .unionBlock, region', none, false, [a']⟩) := by
  unfold Shape.BodyAlike Shape.moduleBody
  split
  · rename_i hl
    exact absurd (kind_of_reading_label hl) hk
  · rw [reading_form]
    exact ha.item.bind fun _ _ hi => follows_pure (.cons hi .nil)

/-! ## Leaves -/

/-- Texts that a leaf of this form takes for the same: the same number, the same string, or else the
same characters. -/
structure SpelledAlike (f : Form) (text text' : List Char) : Prop where
  number : f = .number →
    ∃ x, Number.read? text = some x ∧ Number.read? text' = some x ∧ x.Plain
  string : f = .string → Text.Quoted.decode text' = Text.Quoted.decode text
  verbatim : f ≠ .number → f ≠ .string → text' = text

theorem SpelledAlike.readName
    (h : SpelledAlike f (textIn source region) (textIn source' region')) :
    Follows Name.Alike (readName source (.form f) region) (readName source' (.form f) region') := by
  cases f with
  | identifier | specialVariable =>
    exact follows_pure (by simp [Name.Alike, h.verbatim (by decide) (by decide)])
  | _ => exact follows_throw _ _

theorem SpelledAlike.asExpr
    (h : SpelledAlike f (textIn source region) (textIn source' region')) :
    Follows Expr.Alike (Shape.asExpr ⟨source, .form f, region, []⟩)
      (Shape.asExpr ⟨source', .form f, region', []⟩) := by
  cases f with
  | identifier | specialVariable =>
    refine h.readName.bind fun _ _ hn => follows_pure ?_
    exact ⟨by simp [Expr.agree, hn.agree], by simp [Expr.pieces, hn.pieces], rfl⟩
  | number =>
    obtain ⟨x, h1, h2, hx⟩ := h.number rfl
    have hsame : x.equal x = true := by simp [Double.equal, hx.isNaN]
    simp only [Shape.asExpr, Shape.asNumber, Shape.text, h1, h2]
    exact follows_pure ⟨by simp [Expr.agree, Literal.agree, Places.ignored, hsame], rfl, rfl⟩
  | string =>
    simp only [Shape.asExpr, Shape.text, h.string rfl]
    exact follows_pure ⟨by simp [Expr.agree, Literal.agree, Places.ignored], rfl, rfl⟩
  | boolean =>
    simp only [Shape.asExpr, Shape.asBoolean, Shape.text, h.verbatim (by decide) (by decide)]
    split
    · exact follows_pure ⟨by simp [Expr.agree, Literal.agree, Places.ignored], rfl, rfl⟩
    · exact follows_pure ⟨by simp [Expr.agree, Literal.agree, Places.ignored], rfl, rfl⟩
    · exact follows_throw _ _
  | _ => exact (shape_alike .nil).asExpr (by rintro g ⟨⟩; rfl)

theorem SpelledAlike.alike {role : Option Role}
    (h : SpelledAlike f (textIn source region.forward) (textIn source' region'.forward))
    (hr : ∀ r, role = some r → r.isSymbol = true →
      textIn source' region'.forward = textIn source region.forward) :
    Alike source source' ⟨.form f, region, role, false, []⟩
      ⟨.form f, region', role, false, []⟩ := by
  unfold Alike
  rw [reading_form, reading_form]
  exact (shape_alike .nil).reading role h.readName h.asExpr hr

section

variable {t t' : Token} (ht : t.Sound source) (ht' : t'.Sound source')

include ht in
/-- What a token of a number spells can be read. -/
theorem read?_number (hk : t.kind = .number) :
    ∃ d : Decimal, Number.read? t.text.toList = some d.toDouble := by
  have hs := ht.scanned.spelling (by rw [hk]; decide)
  generalize t.text.toList = cs at hs
  rw [hk] at hs
  cases hs with
  | number hn => exact hn.read?_eq
  | mark hm | keyword hm => cases hm

include ht ht'

/-- The same word in both sources. -/
theorem alike_same {role : Option Role} (hw : t'.text = t.text)
    (hf : f = .number → t.kind = .number) :
    Alike source source' ⟨.form f, t.region, role, false, []⟩
      ⟨.form f, t'.region, role, false, []⟩ := by
  have htext : textIn source' t'.region.forward = textIn source t.region.forward := by
    rw [ht.textIn_eq, ht'.textIn_eq, hw]
  refine SpelledAlike.alike ⟨fun hn => ?_, fun _ => by rw [htext], fun _ _ => htext⟩
    fun _ _ _ => htext
  obtain ⟨d, hd⟩ := read?_number ht (hf hn)
  exact ⟨d.toDouble, by rw [ht.textIn_eq, hd], by rw [ht'.textIn_eq, hw, hd], d.toDouble_plain⟩

/-- The same word, but for the spelling of a number or a string. In a role in which the text counts
neither may stand. -/
theorem alike_leaf {role : Option Role} (hw : t'.word = t.word.respell) (hf : f.Suits t.kind)
    (hr : ∀ r, role = some r → r.isSymbol = true → t.kind ≠ .number ∧ t.kind ≠ .string) :
    Alike source source' ⟨.form f, t.region, role, false, []⟩
      ⟨.form f, t'.region, role, false, []⟩ := by
  have htext : t'.text = t.word.respell.text := congrArg Word.text hw
  have hsame : t.kind ≠ .number → t.kind ≠ .string →
      textIn source' t'.region.forward = textIn source t.region.forward := by
    intro h1 h2
    rw [ht.textIn_eq, ht'.textIn_eq, htext, Word.respell_of_kind h1 h2]
    rfl
  refine SpelledAlike.alike ⟨fun hn => ?_, fun hs => ?_, fun h1 h2 => ?_⟩ fun r hrole hs => ?_
  · have hk := hf.1.1 hn
    obtain ⟨d, hd⟩ := read?_number ht hk
    obtain ⟨-, -, -, -, -, hread⟩ := d.toDouble_plain.text_numeral
    refine ⟨d.toDouble, by rw [ht.textIn_eq, hd], ?_, d.toDouble_plain⟩
    have hspelled : t'.text = String.ofList d.toDouble.text := by
      simpa [Token.word, Word.respell, hk, hd] using htext
    rw [ht'.textIn_eq, hspelled, String.toList_ofList, hread]
  · have hspelled : t'.text =
        String.ofList (Text.Quoted.encode (Text.Quoted.decode t.text.toList)) := by
      simpa [Token.word, Word.respell, hf.2.1 hs] using htext
    rw [ht.textIn_eq, ht'.textIn_eq, hspelled, String.toList_ofList, Text.Quoted.decode_encode]
  · obtain ⟨hk1, hk2⟩ := hf.verbatim h1 h2
    exact hsame hk1 hk2
  · obtain ⟨hk1, hk2⟩ := hr r hrole hs
    exact hsame hk1 hk2

end

end

end Node
end Scad
