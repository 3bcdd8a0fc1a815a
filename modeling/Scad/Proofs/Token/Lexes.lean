import Scad.Token.Lexer.Lemmas
import Scad.Source.Span

/-!
# What it means to be the tokens of a text

`Lexes` says, without any bound on rounds, how a text falls into gaps and tokens. The tokens of a
source are the ones that it gives (`tokenize_lexes`), and there is only one way to lex a text
(`Lexes.unique`). From it we read off where tokens stand: each covers its own text in the source, no
two overlap, and they are in source order.
-/

namespace Scad
namespace Lexer

/-- The text `cs` that starts at `p` falls into the tokens `ts` and ends at `stop`. The flag tells
whether a `<` opens a path here. -/
inductive Lexes : Bool → Position → List Char → List Token → Position → Prop
  | nil {path : Bool} {p : Position} {cs : List Char} (hg : gap .blank cs = cs) :
      Lexes path p cs [] (p.after cs)
  | cons {path : Bool} {p : Position} {g : List Char} {x : Char} {xs : List Char} {kind : TokenKind}
      {text rest : List Char} {ts : List Token} {stop : Position}
      (hg : gap .blank (g ++ x :: xs) = g) (hs : scan path x xs = (kind, text))
      (hr : x :: xs = text ++ rest)
      (h : Lexes kind.opensPath ((p.after g).after text) rest ts stop) :
      Lexes path p (g ++ x :: xs)
        (⟨kind, String.ofList text, ⟨p.after g, (p.after g).after text⟩⟩ :: ts) stop

theorem drop_of_starts {a cs : List Char} (h : a <+: cs) : cs = a ++ cs.drop a.length := by
  obtain ⟨r, rfl⟩ := h
  rw [List.drop_left]

theorem take_of_starts {a cs : List Char} (h : a <+: cs) : cs.take a.length = a := by
  obtain ⟨r, rfl⟩ := h
  exact List.take_left

/-- A token holds what is passed between the cursor in front of it and the one behind it. -/
theorem sliceFrom_scan {c : Cursor} (h : c.Placed) {x : Char} {xs : List Char}
    (hc : c.ahead = x :: xs) (path : Bool) :
    (c.skip (scan path x xs).2.length).sliceFrom c.position = (scan path x xs).2 := by
  rw [Cursor.sliceFrom_skip h, hc, take_of_starts (scan_starts path x xs)]

theorem rounds_lexes : ∀ (n : Nat) (path : Bool) (c : Cursor), c.ahead.length < n →
    Lexes path c.position c.ahead (rounds n path c).tokens (rounds n path c).stop
  | 0, _, _, h => absurd h (Nat.not_lt_zero _)
  | n + 1, path, c, h => by
    have hg := gap_starts .blank c.ahead
    have hsplit := drop_of_starts hg
    rw [rounds]
    simp only [Cursor.skip, take_of_starts hg]
    split
    · rename_i hd
      rw [hd, List.append_nil] at hsplit
      show Lexes path c.position c.ahead [] (c.position.after (gap .blank c.ahead))
      rw [← hsplit]
      exact .nil hsplit.symm
    · rename_i x xs hd
      rw [hd] at hsplit
      have hst := scan_starts path x xs
      have hpos : 0 < (scan path x xs).2.length := List.length_pos_iff.2 (scan_ne_nil path x xs)
      have ih := rounds_lexes n (scan path x xs).1.opensPath
        ⟨c.source, (x :: xs).drop (scan path x xs).2.length,
          (c.position.after (gap .blank c.ahead)).after (scan path x xs).2⟩ (by
            have := congrArg List.length hsplit
            simp only [List.length_append, List.length_cons] at this
            simp only [List.length_drop, List.length_cons]
            omega)
      have hs : scan path x xs = ((scan path x xs).1, (scan path x xs).2) := rfl
      have hcons := Lexes.cons (p := c.position) (by rw [← hsplit]) hs (drop_of_starts hst) ih
      rw [← hsplit] at hcons
      simpa only [hd, take_of_starts hst] using hcons

/-- The tokens of a source, and its end. -/
theorem tokenize_lexes (source : List Char) :
    Lexes false {} source (tokenize source).tokens (tokenize source).stop :=
  rounds_lexes _ _ (Cursor.start source) (Nat.lt_succ_self _)

/-- The gap at the start of a text that goes on with a token. -/
theorem gap_append_inj {g h xs ys : List Char} {x y : Char} (e : g ++ x :: xs = h ++ y :: ys)
    (hg : gap .blank (g ++ x :: xs) = g) (hh : gap .blank (h ++ y :: ys) = h) :
    g = h ∧ x = y ∧ xs = ys := by
  have hgh : g = h := by rw [← hg, e, hh]
  subst hgh
  have := List.append_cancel_left e
  exact ⟨rfl, by simpa using this⟩

/-- A text is lexed in one way only. -/
theorem Lexes.unique {path : Bool} {p q : Position} {cs : List Char} {ts us : List Token}
    {stop stop' : Position} (h : Lexes path p cs ts stop) (k : Lexes path q cs us stop') (e : p = q) :
    ts = us ∧ stop = stop' := by
  induction h generalizing q us stop' with
  | nil hg =>
    cases k with
    | nil _ => exact ⟨rfl, by rw [e]⟩
    | cons hg' _ _ _ => simp [hg'] at hg
  | @cons path p g x xs kind text rest ts stop hg hs hr _ ih =>
    generalize hcs : g ++ x :: xs = cs at k
    cases k with
    | nil hg' =>
      subst hcs
      simp [hg] at hg'
    | @cons _ _ g' x' xs' kind' text' rest' ts' _ hg' hs' hr' h' =>
      obtain ⟨rfl, rfl, rfl⟩ := gap_append_inj hcs hg hg'
      rw [hs] at hs'
      obtain ⟨rfl, rfl⟩ : kind = kind' ∧ text = text' := by simpa using hs'
      rw [hr] at hr'
      obtain rfl := List.append_cancel_left hr'
      obtain ⟨rfl, rfl⟩ := ih h' (by rw [e])
      exact ⟨by rw [e], rfl⟩

/-! ## Where tokens stand -/

/-- The end of a lexed text is the end of its characters. -/
theorem Lexes.stop_eq {path : Bool} {p : Position} {cs : List Char} {ts : List Token}
    {stop : Position} (h : Lexes path p cs ts stop) : stop = p.after cs := by
  induction h with
  | nil hg => rfl
  | cons hg hs hr _ ih => rw [ih, hr, Position.after_append, Position.after_append]

/-- The token was scanned from a text that starts with it. -/
def Scanned (kind : TokenKind) (text : List Char) : Prop :=
  ∃ path x xs, gap .blank (x :: xs) = [] ∧ scan path x xs = (kind, text)

/-- Behind a gap the text does not go on with another one. -/
theorem gap_behind (st : Gap) (cs : List Char) : ∀ g x xs, cs = g ++ x :: xs → gap st cs = g →
    gap .blank (x :: xs) = [] := by
  fun_induction gap st cs with
  | case1 st => intro g x xs e; simp at e
  | case2 c cs ih | case4 c cs _ ih =>
    intro g x xs e h
    cases g with
    | nil => simp at h
    | cons y g =>
      obtain ⟨rfl, rfl⟩ : c = y ∧ cs = g ++ x :: xs := by simpa using e
      exact ih g x xs rfl (by simpa using h)
  | case3 cs ih | case5 cs ih | case6 cs ih =>
    intro g x xs e h
    subst h
    exact ih _ x xs (by simpa using e) rfl
  | case7 c cs _ _ hb ih =>
    intro g x xs e h
    cases g with
    | nil => simp at h
    | cons y g =>
      obtain ⟨rfl, rfl⟩ : c = y ∧ cs = g ++ x :: xs := by simpa using e
      exact ih g x xs rfl (by simpa using h)
  | case8 c cs h1 h2 hb =>
    intro g x xs e h
    subst h
    rw [← show c :: cs = x :: xs from e, gap]
    · simp [hb]
    · exact h1
    · exact h2

end Lexer

/-- The token stands in the source where it says, and is a token of the language. -/
structure Token.Sound (source : List Char) (t : Token) : Prop where
  slice : Text.slice? source t.region.start.byte t.region.stop.byte = some t.text.toList
  start_lt_stop : t.region.start.byte < t.region.stop.byte
  scanned : Lexer.Scanned t.kind t.text.toList

/-- No token starts before the one in front of it ends. -/
def Token.Ordered (ts : List Token) : Prop :=
  ts.Pairwise fun a b => a.region.stop.byte ≤ b.region.start.byte

namespace Lexer

theorem byteSize_pos {cs : List Char} (h : cs ≠ []) : 0 < Text.byteSize cs := by
  cases cs with
  | nil => exact absurd rfl h
  | cons c cs =>
    have := Char.utf8Size_pos c
    rw [Text.byteSize_cons]
    omega

theorem Lexes.sound {path : Bool} {p : Position} {cs : List Char} {ts : List Token}
    {stop : Position} (h : Lexes path p cs ts stop) (source before : List Char)
    (hp : p.byte = Text.byteSize before) (hs : source = before ++ cs) :
    ∀ t ∈ ts, t.Sound source := by
  induction h generalizing before with
  | nil hg => intro t ht; simp at ht
  | @cons path p g x xs kind text rest ts stop hg hscan hr _ ih =>
    intro t ht
    rw [hr] at hs
    have hne : text ≠ [] := by
      have := scan_ne_nil path x xs
      rwa [hscan] at this
    have hsize := byteSize_pos hne
    rcases List.mem_cons.1 ht with rfl | ht
    · refine ⟨?_, ?_, ⟨path, x, xs, gap_behind _ _ _ _ _ rfl hg, by simpa using hscan⟩⟩
      · have := Text.slice?_append (before ++ g) text rest
        simp only [Position.after_byte, hp, String.toList_ofList]
        rw [hs]
        simpa using this
      · simp only [Position.after_byte]
        omega
    · refine ih (before ++ g ++ text) ?_ ?_ t ht
      · simp only [Position.after_byte, Text.byteSize_append, hp]
      · rw [hs, List.append_assoc, List.append_assoc]

theorem Lexes.ordered {path : Bool} {p : Position} {cs : List Char} {ts : List Token}
    {stop : Position} (h : Lexes path p cs ts stop) :
    Token.Ordered ts ∧ ∀ t ∈ ts, p.byte ≤ t.region.start.byte := by
  induction h with
  | nil hg => exact ⟨.nil, by simp⟩
  | cons hg hs hr _ ih =>
    refine ⟨List.pairwise_cons.2 ⟨ih.2, ih.1⟩, ?_⟩
    intro t ht
    rcases List.mem_cons.1 ht with rfl | ht
    · simp only [Position.after_byte]
      omega
    · have := ih.2 t ht
      simp only [Position.after_byte] at this
      omega

/-- No token reaches beyond the end of the text. -/
theorem Lexes.le_stop {path : Bool} {p : Position} {cs : List Char} {ts : List Token}
    {stop : Position} (h : Lexes path p cs ts stop) :
    ∀ t ∈ ts, t.region.stop.byte ≤ stop.byte := by
  induction h with
  | nil hg => simp
  | cons hg hs hr hrest ih =>
    intro t ht
    rcases List.mem_cons.1 ht with rfl | ht
    · have hstop := congrArg Position.byte hrest.stop_eq
      rw [Position.after_byte] at hstop
      exact hstop ▸ Nat.le_add_right _ _
    · exact ih t ht

end Lexer

theorem tokenize_sound (source : List Char) : ∀ t ∈ (tokenize source).tokens, t.Sound source :=
  (Lexer.tokenize_lexes source).sound source [] rfl rfl

theorem tokenize_ordered (source : List Char) : Token.Ordered (tokenize source).tokens :=
  (Lexer.tokenize_lexes source).ordered.1

/-- The text ends where its characters do. -/
theorem tokenize_stop (source : List Char) : (tokenize source).stop = Position.after {} source :=
  (Lexer.tokenize_lexes source).stop_eq

end Scad
