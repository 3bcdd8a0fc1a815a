import Scad.Program.Printer
import Scad.Proofs.Grammar.Cover
import Scad.Proofs.Number.ReadBack
import Scad.Proofs.Text.Quoted

/-!
# Words

What is left of a token when its place is forgotten. Printing changes the words of a source in few
ways, and `tidy` says which: a comma at the end of a list goes, the body of a module gets braces if
it has none, numbers and strings are spelled anew. `Stream.Says` follows the words from one place in
the tokens to a later one.
-/

namespace Scad

/-- A token without its place. -/
structure Word where
  kind : TokenKind
  text : String
deriving DecidableEq, Repr

namespace Word

/-- The word of a kind with one spelling. -/
def ofKind (k : TokenKind) : Word := ⟨k, k.text⟩

/-- The word as it is printed: a number as the double it is read as is written, a string as its
value is quoted. -/
def respell (w : Word) : Word :=
  match w.kind with
  | .number =>
    match Number.read? w.text.toList with
    | some x => ⟨.number, String.ofList x.text⟩
    | none => w
  | .string => ⟨.string, String.ofList (Text.Quoted.encode (Text.Quoted.decode w.text.toList))⟩
  | _ => w

@[simp]
theorem respell_kind (w : Word) : w.respell.kind = w.kind := by
  unfold respell
  split
  · split <;> simp [*]
  · simp [*]
  · rfl

theorem respell_of_kind {w : Word} (h1 : w.kind ≠ .number) (h2 : w.kind ≠ .string) :
    w.respell = w := by
  unfold respell
  split
  · contradiction
  · contradiction
  · rfl

end Word

def Token.word (t : Token) : Word := ⟨t.kind, t.text⟩

/-- The marks in front of which a comma is dropped. -/
def TokenKind.endsList : TokenKind → Bool
  | .rparen | .rbracket | .semicolon => true
  | _ => false

/-- The kind of the first token of a list, or of what follows the list. -/
def nextKind (ts : List Token) (next : TokenKind) : TokenKind := (ts.head?.map (·.kind)).getD next

/-- How many of the regions satisfy a test, as so many words. -/
def braces (k : TokenKind) (test : Region → Bool) (bodies : List Region) : List Word :=
  List.replicate (bodies.countP test) (.ofKind k)

/-- The words of a token in front of a token of kind `next`. `bodies` are the regions that get
braces. -/
def tidyToken (bodies : List Region) (t : Token) (next : TokenKind) : List Word :=
  braces .lbrace (·.start = t.region.start) bodies ++
    (if t.kind = .comma ∧ next.endsList then [] else [t.word.respell]) ++
    braces .rbrace (·.stop = t.region.stop) bodies

/-- The words of a run of tokens as they are printed. `next` is the kind of the token behind the
run. -/
def tidy (bodies : List Region) : List Token → TokenKind → List Word
  | [], _ => []
  | t :: ts, next => tidyToken bodies t (nextKind ts next) ++ tidy bodies ts next

@[simp]
theorem nextKind_nil (next : TokenKind) : nextKind [] next = next := rfl

@[simp]
theorem nextKind_cons (t : Token) (ts : List Token) (next : TokenKind) :
    nextKind (t :: ts) next = t.kind := rfl

theorem nextKind_append (a b : List Token) (next : TokenKind) :
    nextKind (a ++ b) next = nextKind a (nextKind b next) := by
  cases a <;> rfl

theorem tidy_append (bodies : List Region) (a b : List Token) (next : TokenKind) :
    tidy bodies (a ++ b) next = tidy bodies a (nextKind b next) ++ tidy bodies b next := by
  induction a with
  | nil => rfl
  | cons t a ih =>
    simp only [List.cons_append, tidy, nextKind_append, ih, List.append_assoc]

/-! ## Bodies without braces -/

namespace Node

mutual

/-- The regions of all bodies of modules that are no blocks. -/
def bareBodies : Node → List Region
  | ⟨kind, _, _, _, children⟩ =>
    (if kind = .form .moduleItem then
      (children.filter fun c => c.role == some .body && c.kind != .form .unionBlock).map (·.region)
    else []) ++ bareBodiesAll children

def bareBodiesAll : List Node → List Region
  | [] => []
  | n :: ns => n.bareBodies ++ bareBodiesAll ns

end

@[simp]
theorem bareBodiesAll_nil : bareBodiesAll [] = [] := rfl

@[simp]
theorem bareBodiesAll_cons (n : Node) (ns : List Node) :
    bareBodiesAll (n :: ns) = n.bareBodies ++ bareBodiesAll ns := rfl

@[simp]
theorem bareBodiesAll_append (a b : List Node) :
    bareBodiesAll (a ++ b) = bareBodiesAll a ++ bareBodiesAll b := by
  induction a with
  | nil => rfl
  | cons n a ih => simp [ih]

@[simp]
theorem bareBodies_inRole (n : Node) (r : Role) : (n.inRole r).bareBodies = n.bareBodies := by
  cases n
  rfl

theorem bareBodies_form {f : Form} (hf : f ≠ .moduleItem) (region : Region) (role : Option Role)
    (missing : Bool) (children : List Node) :
    bareBodies ⟨.form f, region, role, missing, children⟩ = bareBodiesAll children := by
  simp [bareBodies, hf]

/-- The body of a module counts if it is no block. -/
theorem bareBodies_module (d p a : Node) (region : Region) (role : Option Role) (missing : Bool) :
    bareBodies ⟨.form .moduleItem, region, role, missing,
        [d.inRole .name, p.inRole .parameters, a.inRole .body]⟩ =
      (if a.kind = .form .unionBlock then [] else [a.region]) ++
        (d.bareBodies ++ (p.bareBodies ++ a.bareBodies)) := by
  have hbody : ([d.inRole .name, p.inRole .parameters, a.inRole .body].filter fun c =>
      c.role == some .body && c.kind != .form .unionBlock) =
      if a.kind = .form .unionBlock then [] else [a.inRole .body] := by
    by_cases h : a.kind = .form .unionBlock <;> simp [inRole, h]
  rw [bareBodies, if_pos rfl, hbody]
  simp only [bareBodiesAll_cons, bareBodiesAll_nil, bareBodies_inRole, List.append_nil]
  split <;> rfl

end Node

/-! ## Where the braces go -/

/-- The regions start and end with tokens of the run. -/
def RegionsIn (bodies : List Region) (run : List Token) : Prop :=
  ∀ r ∈ bodies, (∃ a ∈ run, a.region.start = r.start) ∧ ∃ b ∈ run, b.region.stop = r.stop

theorem RegionsIn.append {x y : List Region} {a b : List Token} (hx : RegionsIn x a)
    (hy : RegionsIn y b) : RegionsIn (x ++ y) (a ++ b) := by
  intro r hr
  rcases List.mem_append.1 hr with hr | hr
  · obtain ⟨⟨p, hp, h1⟩, ⟨q, hq, h2⟩⟩ := hx r hr
    exact ⟨⟨p, by simp [hp], h1⟩, ⟨q, by simp [hq], h2⟩⟩
  · obtain ⟨⟨p, hp, h1⟩, ⟨q, hq, h2⟩⟩ := hy r hr
    exact ⟨⟨p, by simp [hp], h1⟩, ⟨q, by simp [hq], h2⟩⟩

/-- No token of one list starts or ends where one of the other does. -/
def Apart (a b : List Token) : Prop :=
  ∀ x ∈ a, ∀ y ∈ b, x.region.start ≠ y.region.start ∧ x.region.stop ≠ y.region.stop

theorem Apart.symm {a b : List Token} (h : Apart a b) : Apart b a :=
  fun y hy x hx => ⟨(h x hx y hy).1.symm, (h x hx y hy).2.symm⟩

theorem tidyToken_nil (t : Token) (next : TokenKind) :
    tidyToken [] t next = if t.kind = .comma ∧ next.endsList then [] else [t.word.respell] := by
  simp [tidyToken, braces]

theorem tidyToken_cons (r : Region) (x : List Region) (t : Token) (next : TokenKind) :
    tidyToken (r :: x) t next =
      (if r.start = t.region.start then [.ofKind .lbrace] else []) ++ tidyToken x t next ++
        (if r.stop = t.region.stop then [.ofKind .rbrace] else []) := by
  unfold tidyToken braces
  rw [List.countP_cons, List.countP_cons]
  by_cases h1 : r.start = t.region.start <;> by_cases h2 : r.stop = t.region.stop <;>
    simp [h1, h2, List.replicate_succ, ← List.replicate_succ']

/-- A region of other tokens puts no braces into a run. -/
theorem tidy_cons_of_ne {r : Region} {x : List Region} {a : List Token}
    (h : ∀ t ∈ a, r.start ≠ t.region.start ∧ r.stop ≠ t.region.stop) (next : TokenKind) :
    tidy (r :: x) a next = tidy x a next := by
  induction a with
  | nil => rfl
  | cons t a ih =>
    obtain ⟨h1, h2⟩ := h t (by simp)
    rw [tidy, tidy, tidyToken_cons, if_neg h1, if_neg h2, ih fun t ht => h t (by simp [ht])]
    simp

theorem tidy_comm {x y : List Region} (a : List Token) (next : TokenKind) :
    tidy (x ++ y) a next = tidy (y ++ x) a next := by
  induction a with
  | nil => rfl
  | cons t a ih => simp only [tidy, tidyToken, braces, List.countP_append, Nat.add_comm, ih]

theorem tidy_of_apart {x y : List Region} {a b : List Token} (hy : RegionsIn y b)
    (hab : Apart a b) (next : TokenKind) : tidy (y ++ x) a next = tidy x a next := by
  induction y with
  | nil => rfl
  | cons r y ih =>
    obtain ⟨⟨p, hp, h1⟩, ⟨q, hq, h2⟩⟩ := hy r (by simp)
    rw [List.cons_append, tidy_cons_of_ne, ih fun r hr => hy r (by simp [hr])]
    intro t ht
    rw [← h1, ← h2]
    exact ⟨(hab t ht p hp).1.symm, (hab t ht q hq).2.symm⟩

/-- Two runs one after the other, each with its own braces. -/
theorem tidy_append_apart {x y : List Region} {a b : List Token} (hx : RegionsIn x a)
    (hy : RegionsIn y b) (hab : Apart a b) (next : TokenKind) :
    tidy (x ++ y) (a ++ b) next = tidy x a (nextKind b next) ++ tidy y b next := by
  rw [tidy_append, tidy_of_apart hx hab.symm, tidy_comm a, tidy_of_apart hy hab]

/-- Tokens of which no two start or end at the same point. -/
def Distinct (ts : List Token) : Prop :=
  ts.Pairwise fun x y => x.region.start ≠ y.region.start ∧ x.region.stop ≠ y.region.stop

/-- Braces around a run that is a body as a whole. -/
theorem tidy_wrap {r : Region} (x : List Region) {run : List Token} {a b : Token}
    (ha : run.head? = some a) (hb : run.getLast? = some b) (hr : r = ⟨a.region.start, b.region.stop⟩)
    (hd : Distinct run) (next : TokenKind) :
    tidy (r :: x) run next = .ofKind .lbrace :: (tidy x run next ++ [.ofKind .rbrace]) := by
  subst hr
  obtain ⟨ts, rfl⟩ := List.head?_eq_some_iff.1 ha
  rcases List.eq_nil_or_concat ts with rfl | ⟨mid, c, rfl⟩
  · obtain rfl : a = b := by simpa using hb
    simp [tidy, tidyToken_cons]
  · rw [List.concat_eq_append] at hb hd ⊢
    obtain rfl : c = b := by
      rw [List.getLast?_cons_of_ne_nil (by simp)] at hb
      simpa using hb
    obtain ⟨hfirst, hrest⟩ := List.pairwise_cons.1 hd
    have hac := hfirst c (by simp)
    have hmid : ∀ t ∈ mid, a.region.start ≠ t.region.start ∧ c.region.stop ≠ t.region.stop := by
      intro t ht
      have h := (List.pairwise_append.1 hrest).2.2 t ht c (by simp)
      exact ⟨(hfirst t (by simp [ht])).1, h.2.symm⟩
    have hskip := tidy_cons_of_ne (r := ⟨a.region.start, c.region.stop⟩) (x := x) hmid c.kind
    simp [tidy, tidy_append, tidyToken_cons, hskip, hac.1, hac.2.symm]

/-! ## Words along a stream -/

namespace Stream

/-- A place in the tokens of this source. -/
structure Of (source : List Char) (s : Stream) : Prop where
  proper : s.Proper
  sound : ∀ t ∈ s.ahead, t.Sound source
  ordered : Token.Ordered s.ahead

theorem start_of (source : List Char) : (Stream.start (tokenize source)).Of source :=
  ⟨(start_at source).proper, tokenize_sound source, tokenize_ordered source⟩

theorem Of.passes {source : List Char} {s t : Stream} {run : List Token} (h : s.Of source)
    (hp : s.Passes run t) : t.Of source := by
  have hsuf : t.ahead <:+ s.ahead := ⟨run, hp.ahead.symm⟩
  exact ⟨h.proper.of_passes hp, fun t ht => h.sound t (hsuf.subset ht),
    h.ordered.sublist hsuf.sublist⟩

theorem Of.aligned {source : List Char} {s : Stream} (h : s.Of source) : Token.Aligned s.ahead :=
  ⟨h.ordered, fun t ht => Nat.le_of_lt (h.sound t ht).start_lt_stop⟩

theorem Of.apart {source : List Char} {s : Stream} (h : s.Of source) {a b c : List Token}
    (hs : s.ahead = a ++ (b ++ c)) : Apart a b := by
  intro x hx y hy
  have ho := h.ordered
  rw [Token.Ordered, hs] at ho
  have hxy := (List.pairwise_append.1 ho).2.2 x hx y (by simp [hy])
  have h1 := (h.sound x (by simp [hs, hx])).start_lt_stop
  have h2 := (h.sound y (by simp [hs, hy])).start_lt_stop
  constructor
  · intro he
    rw [he] at h1
    omega
  · intro he
    rw [he] at hxy
    omega

theorem Of.distinct {source : List Char} {s : Stream} (h : s.Of source) {a b : List Token}
    (hs : s.ahead = a ++ b) : Distinct a := by
  have ho := h.ordered
  rw [Token.Ordered, hs] at ho
  refine ((List.pairwise_append.1 ho).1).imp_of_mem fun {x y} hx hy hxy => ?_
  have h1 := (h.sound x (by simp [hs, hx])).start_lt_stop
  have h2 := (h.sound y (by simp [hs, hy])).start_lt_stop
  constructor
  · intro he
    rw [he] at h1
    omega
  · intro he
    rw [he] at hxy
    omega

/-- The tokens from `s` to `t` are printed as these words, with braces around `bodies`. None of them
is a broken token. -/
def Says (bodies : List Region) (s t : Stream) (ws : List Word) : Prop :=
  ∃ run, s.Passes run t ∧ RegionsIn bodies run ∧ (∀ x ∈ run, x.kind ≠ .error) ∧
    tidy bodies run t.peek.kind = ws

theorem Says.passes {bodies : List Region} {s t : Stream} {ws : List Word} (h : Says bodies s t ws) :
    ∃ run, s.Passes run t := by
  obtain ⟨run, hp, -⟩ := h
  exact ⟨run, hp⟩

theorem Says.of {source : List Char} {bodies : List Region} {s t : Stream} {ws : List Word}
    (hs : s.Of source) (h : Says bodies s t ws) : t.Of source := by
  obtain ⟨run, hp⟩ := h.passes
  exact hs.passes hp

theorem Says.refl (s : Stream) : Says [] s s [] :=
  ⟨[], .refl s, by simp [RegionsIn], by simp, rfl⟩

/-- Behind a run the next token of the run that follows is seen. -/
theorem Passes.nextKind {s t : Stream} {run : List Token} (h : s.Passes run t) :
    nextKind run t.peek.kind = s.peek.kind := by
  rw [peek, peek, h.ahead, ← h.eof]
  cases run <;> rfl

theorem Says.trans {source : List Char} {s t u : Stream} {x y : List Region} {a b : List Word}
    (hs : s.Of source) (h : Says x s t a) (k : Says y t u b) : Says (x ++ y) s u (a ++ b) := by
  obtain ⟨ra, pa, ia, ea, rfl⟩ := h
  obtain ⟨rb, pb, ib, eb, rfl⟩ := k
  refine ⟨ra ++ rb, pa.trans pb, ia.append ib, fun x hx => ?_, ?_⟩
  · rcases List.mem_append.1 hx with hx | hx
    · exact ea x hx
    · exact eb x hx
  have hab : Apart ra rb := hs.apart (c := u.ahead) (by rw [pa.ahead, pb.ahead])
  rw [tidy_append_apart ia ib hab, pb.nextKind]

/-- One token, unless it is a comma that goes. -/
theorem says_token {s : Stream} (hs : s.Proper) (he : s.peek.kind ≠ .eof)
    (hb : s.peek.kind ≠ .error)
    (hc : ¬ (s.peek.kind = .comma ∧ s.advance.peek.kind.endsList = true)) :
    Says [] s s.advance [s.peek.word.respell] := by
  refine ⟨[s.peek], passes_peek hs he, by simp [RegionsIn], by simpa using hb, ?_⟩
  rw [tidy, tidyToken_nil, nextKind_nil, if_neg hc]
  rfl

/-- A comma at the end of a list goes. -/
theorem says_comma_dropped {s : Stream} (hs : s.Proper) (hk : s.peek.kind = .comma)
    (hn : s.advance.peek.kind.endsList = true) : Says [] s s.advance [] := by
  refine ⟨[s.peek], passes_peek hs (by rw [hk]; decide), by simp [RegionsIn], by simp [hk], ?_⟩
  rw [tidy, tidyToken_nil, nextKind_nil, if_pos ⟨hk, hn⟩]
  rfl

theorem Of.peek_sound {source : List Char} {s : Stream} (hs : s.Of source)
    (he : s.peek.kind ≠ .eof) : s.peek.Sound source := by
  refine hs.sound _ ?_
  rw [peek_eq_head hs.proper he]
  exact List.mem_cons_self

theorem Of.peek_spelling {source : List Char} {s : Stream} (hs : s.Of source)
    (h1 : s.peek.kind ≠ .eof) (h2 : s.peek.kind ≠ .error) :
    Lexer.Spelling s.peek.kind s.peek.text.toList :=
  (hs.peek_sound h1).scanned.spelling h2

/-- A token of a kind with one spelling. -/
theorem says_mark {source : List Char} {s : Stream} (hs : s.Of source) {k : TokenKind}
    (hk : s.peek.kind = k) (hf : k.isFixed = true) (hc : k ≠ .comma) :
    Says [] s s.advance [.ofKind k] := by
  subst hk
  have h1 : s.peek.kind ≠ .eof := by intro h; rw [h] at hf; cases hf
  have h2 : s.peek.kind ≠ .error := by intro h; rw [h] at hf; cases hf
  have h3 : s.peek.kind ≠ .number := by intro h; rw [h] at hf; cases hf
  have h4 : s.peek.kind ≠ .string := by intro h; rw [h] at hf; cases hf
  have ht := (hs.peek_spelling h1 h2).text_eq hf
  have hsay := says_token hs.proper h1 h2 (fun h => hc h.1)
  rwa [Word.respell_of_kind h3 h4, Token.word, ← String.ofList_toList (s := s.peek.text), ht,
    String.ofList_toList] at hsay

/-- A comma inside a list. -/
theorem says_comma {source : List Char} {s : Stream} (hs : s.Of source) (hk : s.peek.kind = .comma)
    (hn : s.advance.peek.kind.endsList = false) : Says [] s s.advance [.ofKind .comma] := by
  have ht := (hs.peek_spelling (by rw [hk]; decide) (by rw [hk]; decide)).text_eq (by rw [hk]; rfl)
  have hsay := says_token hs.proper (by rw [hk]; decide) (by rw [hk]; decide) (by simp [hn])
  rwa [Word.respell_of_kind (by simp [Token.word, hk]) (by simp [Token.word, hk]),
    Token.word, ← String.ofList_toList (s := s.peek.text), ht, String.ofList_toList, hk] at hsay

/-- A name or a path stays as it is written. -/
theorem says_verbatim {s : Stream} (hs : s.Proper) {k : TokenKind} (hk : s.peek.kind = k)
    (h : k = .identifier ∨ k = .special ∨ k = .path) :
    Says [] s s.advance [⟨k, s.peek.text⟩] := by
  subst hk
  have hsay := says_token hs (by rcases h with h | h | h <;> simp [h])
    (by rcases h with h | h | h <;> simp [h]) (by rcases h with h | h | h <;> simp [h])
  rwa [Word.respell_of_kind (by rcases h with h | h | h <;> simp [Token.word, h])
    (by rcases h with h | h | h <;> simp [Token.word, h]), Token.word] at hsay

theorem Passes.run_unique {s t : Stream} {a b : List Token} (ha : s.Passes a t)
    (hb : s.Passes b t) : a = b :=
  List.append_cancel_right (ha.ahead.symm.trans hb.ahead)

/-- Braces around a body that stands alone. -/
theorem Says.wrap {source : List Char} {s t : Stream} {x : List Region} {ws : List Word}
    {run : List Token} {n : Node} (hs : s.Of source) (h : Says x s t ws) (hp : s.Passes run t)
    (hn : n.Spans run) :
    Says (n.region :: x) s t (.ofKind .lbrace :: (ws ++ [.ofKind .rbrace])) := by
  obtain ⟨run', hp', hin, herr, rfl⟩ := h
  obtain rfl := hp.run_unique hp'
  obtain ⟨a, b, ha, hb, hab⟩ := hn
  refine ⟨run, hp, fun q hq => ?_, herr, tidy_wrap x ha hb hab (hs.distinct hp.ahead) _⟩
  rcases List.mem_cons.1 hq with rfl | hq
  · exact ⟨⟨a, List.mem_of_head? ha, by rw [hab]⟩, ⟨b, List.mem_of_getLast? hb, by rw [hab]⟩⟩
  · exact hin q hq

end Stream

/-! ## Words of pieces -/

namespace Piece

def word? : Piece → Option Word
  | word k s => some ⟨k, s⟩
  | _ => none

/-- The words of a printed program. -/
def words (ps : List Piece) : List Word := ps.filterMap word?

@[simp]
theorem words_nil : words [] = [] := rfl

@[simp]
theorem words_word (k : TokenKind) (s : String) (ps : List Piece) :
    words (word k s :: ps) = ⟨k, s⟩ :: words ps := rfl

@[simp]
theorem words_mark (k : TokenKind) (ps : List Piece) :
    words (mark k :: ps) = .ofKind k :: words ps := rfl

@[simp]
theorem words_blank (ps : List Piece) : words (blank :: ps) = words ps := rfl

@[simp]
theorem words_newline (ps : List Piece) : words (newline :: ps) = words ps := rfl

@[simp]
theorem words_indent (n : Nat) (ps : List Piece) : words (indent n :: ps) = words ps := rfl

@[simp]
theorem words_append (a b : List Piece) : words (a ++ b) = words a ++ words b :=
  List.filterMap_append

@[simp]
theorem words_parens (ps : List Piece) :
    words (parens ps) = .ofKind .lparen :: (words ps ++ [.ofKind .rparen]) := by
  simp [parens]

@[simp]
theorem words_spaced (k : TokenKind) : words (spaced k) = [.ofKind k] := rfl

@[simp]
theorem commas_nil : commas [] = [] := rfl

@[simp]
theorem commas_singleton (p : List Piece) : commas [p] = p := rfl

@[simp]
theorem commas_cons_cons (p q : List Piece) (ps : List (List Piece)) :
    commas (p :: q :: ps) = p ++ mark .comma :: blank :: commas (q :: ps) := by
  simp [commas, join]

end Piece
end Scad
