import Scad.Proofs.Grammar.Cover
import Scad.Proofs.Grammar.Matching

/-!
# Recovery and braces

What a broken statement takes up is the tokens that its phrases passed and those that were skipped
behind them. No token is skipped beyond a closing brace, and a phrase passes a closing brace only
behind the opening one of a block. So the error node of the statement covers no closing brace whose
opening one stands in front of it (`Token.Contained`), and every block is closed by the first brace
that its statements leave over. The one exception is a brace outside of all blocks: it is an error
node of its own.
-/

namespace Scad

/-! ## Runs that open what they close -/

namespace Token

/-- No front part of the run closes more braces than it opens. -/
def Contained (run : List Token) : Prop :=
  ∀ front, front <+: run →
    front.countP (·.kind == .rbrace) ≤ front.countP (·.kind == .lbrace)

theorem contained_of_ne {run : List Token} (h : ∀ t ∈ run, t.kind ≠ .rbrace) : Contained run := by
  intro front hf
  have hzero : front.countP (·.kind == .rbrace) = 0 :=
    List.countP_eq_zero.2 fun t ht => by simpa using h t (hf.subset ht)
  omega

@[simp]
theorem contained_nil : Contained [] := contained_of_ne (by simp)

theorem Contained.append {a b : List Token} (ha : Contained a) (hb : Contained b) :
    Contained (a ++ b) := by
  intro front hf
  rcases List.prefix_or_prefix_of_prefix hf (List.prefix_append a b) with h | ⟨rest, rfl⟩
  · exact ha front h
  · have h1 := ha a List.prefix_rfl
    have h2 := hb rest ((List.prefix_append_right_inj a).1 hf)
    rw [List.countP_append, List.countP_append]
    omega

/-- A block opens the brace that it closes. -/
theorem Contained.block {opening closing : Token} {run : List Token} (h : Contained run)
    (ho : opening.kind = .lbrace) : Contained (opening :: (run ++ [closing])) := by
  intro front hf
  cases front with
  | nil => simp
  | cons x front =>
    obtain ⟨rfl, hrest⟩ := List.cons_prefix_cons.1 hf
    rcases List.prefix_concat_iff.1 hrest with rfl | hfront
    · have hrun := h run List.prefix_rfl
      by_cases hc : closing.kind = .rbrace
      · simp [List.countP_append, ho, hc]
        omega
      · simp [List.countP_append, ho, hc]
        omega
    · have hfront := h front hfront
      simp [ho]
      omega

end Token

/-! ## Where tokens are skipped -/

namespace TokenKind

/-- The kinds of token at which the statements of a block end. -/
def endsBlock : TokenKind → Bool
  | rbrace | eof => true
  | _ => false

@[simp]
theorem endsBlock_eq_false {k : TokenKind} : k.endsBlock = false ↔ k ≠ .rbrace ∧ k ≠ .eof := by
  cases k <;> simp [endsBlock]

end TokenKind

namespace Stream

theorem advance_contained {s : Stream} (hs : s.Proper) (h : s.peek.kind ≠ .rbrace) :
    ∃ run, s.Passes run s.advance ∧ Token.Contained run := by
  rcases s.advance_passes hs with ⟨-, he⟩ | hp
  · exact ⟨[], by rw [he]; exact .refl s, Token.contained_nil⟩
  · exact ⟨[s.peek], hp, Token.contained_of_ne (by simpa using h)⟩

/-- The search for the next statement passes no closing brace. -/
theorem seek_contained (eof : Token) : ∀ (ts : List Token) (n : Nat) (last : Option Token),
    n = ts.length →
    ∃ run, (⟨ts, n, last, eof⟩ : Stream).Passes run (seek eof ts n last) ∧ Token.Contained run
  | [], n, last, _ => ⟨[], .refl _, Token.contained_nil⟩
  | t :: ts, n, last, h => by
    rw [seek]
    split
    · exact ⟨[], .refl _, Token.contained_nil⟩
    · rename_i hstop
      have hn : n = ts.length + 1 := h
      obtain ⟨run, hr, hc⟩ := seek_contained eof ts (n - 1) (some t) (by omega)
      have hstep : (⟨t :: ts, n, last, eof⟩ : Stream).Passes [t] ⟨ts, n - 1, some t, eof⟩ := by
        refine ⟨rfl, ?_, rfl, rfl⟩
        show n = 1 + (n - 1)
        omega
      have ht : t.kind ≠ .rbrace := by
        intro hk
        simp [hk, startsAfresh] at hstop
      exact ⟨[t] ++ run, hstep.trans hr, (Token.contained_of_ne (by simpa using ht)).append hc⟩

/-- After a statement that began at no closing brace, none is skipped. -/
theorem resume_contained {began s : Stream} {run : List Token} (hb : began.Proper)
    (h : began.Passes run s) (hk : began.peek.kind ≠ .rbrace) :
    ∃ more, s.Passes more (s.resume began) ∧ Token.Contained more := by
  have hs := hb.of_passes h
  unfold resume
  split
  · rename_i hcount
    have hpeek : s.peek = began.peek := h.peek_eq (by omega)
    obtain ⟨first, hp, hc⟩ := advance_contained hs (by rw [hpeek]; exact hk)
    dsimp only
    rw [hpeek, if_neg hk]
    obtain ⟨more, hm, hcm⟩ := seek_contained s.advance.eof s.advance.ahead s.advance.count
      s.advance.last (hs.of_passes hp).count
    exact ⟨first ++ more, hp.trans hm, hc.append hcm⟩
  · exact seek_contained s.eof s.ahead s.count s.last hs.count

end Stream

/-! ## The tokens under a node -/

/-- Every token of a run stands between the start of the first and the end of the last one. -/
theorem Token.Ordered.between {part : List Token} (ho : Token.Ordered part)
    (hpos : ∀ t ∈ part, t.region.start.byte < t.region.stop.byte) {a b : Token}
    (ha : part.head? = some a) (hb : part.getLast? = some b) {t : Token} (ht : t ∈ part) :
    a.region.start.byte ≤ t.region.start.byte ∧ t.region.stop.byte ≤ b.region.stop.byte := by
  have hamem : a ∈ part := List.mem_of_head? ha
  have hbmem : b ∈ part := List.mem_of_getLast? hb
  obtain ⟨tail, htail⟩ := List.head?_eq_some_iff.1 ha
  obtain ⟨init, hinit⟩ := List.getLast?_eq_some_iff.1 hb
  constructor
  · have hlt := hpos a hamem
    rw [htail] at ho ht
    rcases List.mem_cons.1 ht with rfl | ht
    · exact Nat.le_refl _
    · have hle := (List.pairwise_cons.1 ho).1 t ht
      omega
  · have hlt := hpos b hbmem
    rw [hinit] at ho ht
    rcases List.mem_append.1 ht with ht | ht
    · have hle := (List.pairwise_append.1 ho).2.2 t ht b (by simp)
      omega
    · rw [List.mem_singleton.1 ht]

namespace Node

/-- Whether a token stands in the region of a node. -/
def holds (n : Node) (t : Token) : Bool :=
  n.region.start.byte ≤ t.region.start.byte && t.region.stop.byte ≤ n.region.stop.byte

/-- The tokens that stand in the region of a node. -/
def covered (ts : List Token) (n : Node) : List Token := ts.filter n.holds

/-- A node that spans a part of the tokens covers this part. -/
theorem covered_eq {ts part : List Token} {n : Node} (ho : Token.Ordered ts)
    (hpos : ∀ t ∈ ts, t.region.start.byte < t.region.stop.byte) (hp : part <:+: ts)
    (hn : n.Spans part) : n.covered ts = part := by
  obtain ⟨before, after, rfl⟩ := hp
  obtain ⟨a, b, ha, hb, hregion⟩ := hn
  obtain ⟨hfront, -, hrear⟩ := List.pairwise_append.1 ho
  obtain ⟨-, hpart, hbefore⟩ := List.pairwise_append.1 hfront
  have hamem : a ∈ part := List.mem_of_head? ha
  have hbmem : b ∈ part := List.mem_of_getLast? hb
  have hfrontOut : before.filter n.holds = [] := by
    refine List.filter_eq_nil_iff.2 fun t ht => ?_
    have hle := hbefore t ht a hamem
    have hlt := hpos t (by simp [ht])
    simp [holds, hregion]
    omega
  have hrearOut : after.filter n.holds = [] := by
    refine List.filter_eq_nil_iff.2 fun t ht => ?_
    have hle := hrear b (by simp [hbmem]) t ht
    have hlt := hpos t (by simp [ht])
    simp [holds, hregion]
    omega
  have hinside : part.filter n.holds = part := by
    refine List.filter_eq_self.2 fun t ht => ?_
    have hbetween := Token.Ordered.between hpart (fun t ht => hpos t (by simp [ht])) ha hb ht
    simp [holds, hregion, hbetween]
  rw [covered, List.filter_append, List.filter_append, hfrontOut, hrearOut, hinside]
  simp

theorem covered_of_source {source : List Char} {part : List Token} {n : Node}
    (hp : part <:+: (tokenize source).tokens) (hn : n.Spans part) :
    n.covered (tokenize source).tokens = part :=
  covered_eq (tokenize_ordered source)
    (fun t ht => (tokenize_sound source t ht).start_lt_stop) hp hn

theorem Within.trans {l m n : Node} (h : l.Within m) (k : m.Within n) : l.Within n := by
  induction k with
  | self => exact h
  | child hc _ ih => exact .child hc ih

theorem within_of_descend {m : Node} : ∀ {path : List Nat} {n : Node}, n.descend? path = some m →
    m.Within n
  | [], n, h => by
    obtain rfl : n = m := by simpa [descend?] using h
    exact .self n
  | i :: path, n, h => by
    obtain ⟨c, hc, hpath⟩ := Option.bind_eq_some_iff.1 h
    exact .child (List.mem_of_getElem? hc) (within_of_descend hpath)

/-! ## Trees over contained runs -/

/-- The part stands between the braces of the block: what is there is contained, and the brace that
closes the block is not in the part. A block without such a brace is open to the end of the
tokens. -/
def Encloses (ts : List Token) (m : Node) (part : List Token) : Prop :=
  ∃ before brace inner close after, ts = before ++ brace :: (inner ++ (close ++ after)) ∧
    brace.kind = .lbrace ∧ m.Spans (brace :: (inner ++ close)) ∧ Token.Contained inner ∧
    part <:+: inner ∧
    ((∃ c, close = [c] ∧ c.kind = .rbrace ∧ c ∉ part) ∨ close = [] ∧ after = [])

/-- The error nodes of the tree span contained parts of the run. -/
def ErrorsIn (run : List Token) (n : Node) : Prop :=
  ∀ m : Node, m.Within n → m.kind = .error →
    ∃ part, part <:+: run ∧ m.Spans part ∧ Token.Contained part

/-- The block opens and closes with braces, or is open to the end of the tokens. What stands between
is contained, and so are the parts of it that its error nodes span. -/
def Fenced (ts : List Token) (n : Node) : Prop :=
  ∃ before brace inner close after, ts = before ++ brace :: (inner ++ (close ++ after)) ∧
    brace.kind = .lbrace ∧ n.Spans (brace :: (inner ++ close)) ∧ Token.Contained inner ∧
    (∀ c ∈ n.children, c.ErrorsIn inner) ∧
    ((∃ c, close = [c] ∧ c.kind = .rbrace) ∨ close = [] ∧ after = [])

/-- A tree over a run: its error nodes span contained parts of the run, and its blocks are
fenced. -/
structure Tame (ts run : List Token) (n : Node) : Prop where
  errors : n.ErrorsIn run
  blocks : ∀ m : Node, m.Within n → m.kind = .form .unionBlock → m.Fenced ts

variable {ts run run' : List Token} {n : Node}

theorem ErrorsIn.mono (h : n.ErrorsIn run) (hr : run <:+: run') : n.ErrorsIn run' := by
  intro m hm hk
  obtain ⟨part, hp, hs, hc⟩ := h m hm hk
  exact ⟨part, hp.trans hr, hs, hc⟩

theorem Tame.mono (h : n.Tame ts run) (hr : run <:+: run') : n.Tame ts run' :=
  ⟨h.errors.mono hr, h.blocks⟩

theorem Tame.inRole (h : n.Tame ts run) (r : Role) : (n.inRole r).Tame ts run := by
  constructor
  · intro m hm hk
    cases hm with
    | self => exact h.errors n (.self n) hk
    | child hc hw => exact h.errors m (.child hc hw) hk
  · intro m hm hk
    cases hm with
    | self => exact h.blocks n (.self n) hk
    | child hc hw => exact h.blocks m (.child hc hw) hk

/-- A node that is neither an error nor a block is tame if its children are. -/
theorem tame_of_children (he : n.kind ≠ .error) (hb : n.kind ≠ .form .unionBlock)
    (hc : ∀ c ∈ n.children, c.Tame ts run) : n.Tame ts run := by
  constructor
  · intro m hm hk
    cases hm with
    | self => exact absurd hk he
    | child hmem hw => exact (hc _ hmem).errors m hw hk
  · intro m hm hk
    cases hm with
    | self => exact absurd hk hb
    | child hmem hw => exact (hc _ hmem).blocks m hw hk

theorem tame_error {region : Region} (hs : Spans { kind := .error, region } run)
    (hc : Token.Contained run) : Tame ts run { kind := .error, region } := by
  constructor
  · intro m hm _
    cases hm with
    | self => exact ⟨run, List.infix_rfl, hs, hc⟩
    | child hmem => simp at hmem
  · intro m hm hk
    cases hm with
    | self => cases hk
    | child hmem => simp at hmem

end Node

/-- Whatever came of a rule, it passed a contained run; its nodes are tame over that run and the
tokens under the nodes to the left. -/
def Outcome.Tame (ts left : List Token) (s : Stream) (o : Outcome) : Prop :=
  ∃ run, s.Passes run o.stream ∧ Token.Contained run ∧
    ∀ nodes fs t, o = .ok nodes fs t → ∀ n ∈ nodes, n.Tame ts (left ++ run)

namespace Rule

/-- The rule passes closing braces only by way of the phrases that it calls. The flag tells that a
token is known to be ahead that is no closing brace. -/
@[simp]
def Braceless : Bool → Rule → Prop
  | e, take => e = true
  | e, leaf _ => e = true
  | _, expect k => k ≠ .rbrace
  | _, closing k => k ≠ .rbrace
  | e, seq a b => a.Braceless e ∧ b.Braceless (e && a.isStill)
  | e, feed a b => a.Braceless e ∧ b.Braceless false
  | e, as _ a => a.Braceless e
  | e, build _ a => a.Braceless e
  | e, fresh a => a.Braceless e
  | _, look g => ∀ a, (g a).Braceless !a.kind.endsBlock
  | _, call p => p ≠ .items
  | e, recover a => e = true ∧ a.Braceless e
  | _, _ => True

theorem apply_tame {ts : List Token} {f : Phrases}
    (hf : ∀ p fr (s : Stream) left, p ≠ .items → s.At ts → (∀ n ∈ fr.left, n.Tame ts left) →
      (f p fr s).Tame ts left s) :
    ∀ (r : Rule) (e : Bool) (fr : Frame) (s : Stream) (left : List Token), r.Blockless →
      r.Braceless e → s.At ts → (e = true → s.peek.kind.endsBlock = false) →
      (∀ n ∈ fr.left, n.Tame ts left) → (r.apply f fr s).Tame ts left s := by
  have leaf : ∀ {k : Kind} {region : Region} {missing : Bool} {run : List Token}, k ≠ .error →
      k ≠ .form .unionBlock → Node.Tame ts run { kind := k, region, missing } :=
    fun he hb => Node.tame_of_children he hb (by simp)
  intro r
  induction r with
  | done =>
    intro e fr s left _ _ hs _ _
    refine ⟨[], .refl s, Token.contained_nil, fun nodes fs t h n hn => ?_⟩
    simp only [apply, Outcome.ok.injEq] at h
    simp [← h.1] at hn
  | keep =>
    intro e fr s left _ _ hs _ hl
    refine ⟨[], .refl s, Token.contained_nil, fun nodes fs t h n hn => ?_⟩
    simp only [apply, Outcome.ok.injEq] at h
    simpa using hl n (h.1 ▸ hn)
  | refuse w =>
    intro e fr s left _ _ hs _ _
    exact ⟨[], .refl s, Token.contained_nil, fun nodes fs t h => by simp [apply] at h⟩
  | take =>
    intro e fr s left _ hr hs hp _
    obtain ⟨run, hrun, hc⟩ :=
      Stream.advance_contained hs.proper (TokenKind.endsBlock_eq_false.1 (hp hr)).1
    refine ⟨run, hrun, hc, fun nodes fs t h n hn => ?_⟩
    simp only [apply, Outcome.ok.injEq] at h
    simp [← h.1] at hn
  | leaf g =>
    intro e fr s left hb hr hs hp _
    obtain ⟨run, hrun, hc⟩ :=
      Stream.advance_contained hs.proper (TokenKind.endsBlock_eq_false.1 (hp hr)).1
    refine ⟨run, hrun, hc, fun nodes fs t h n hn => ?_⟩
    simp only [apply, Outcome.ok.injEq] at h
    rw [← h.1, List.mem_singleton] at hn
    rw [hn]
    exact leaf (by simp) (by simpa using hb)
  | expect k =>
    intro e fr s left _ hr hs _ _
    simp only [apply]
    split
    · rename_i hk
      obtain ⟨run, hrun, hc⟩ := Stream.advance_contained hs.proper (by rw [hk]; exact hr)
      refine ⟨run, hrun, hc, fun nodes fs t h n hn => ?_⟩
      rw [Outcome.ok.injEq] at h
      simp [← h.1] at hn
    · exact ⟨[], .refl s, Token.contained_nil, fun nodes fs t h => by cases h⟩
  | closing k =>
    intro e fr s left _ hr hs _ _
    simp only [apply]
    split
    · rename_i hk
      obtain ⟨run, hrun, hc⟩ := Stream.advance_contained hs.proper (by rw [hk]; exact hr)
      refine ⟨run, hrun, hc, fun nodes fs t h n hn => ?_⟩
      rw [Outcome.ok.injEq] at h
      simp [← h.1] at hn
    · refine ⟨[], .refl s, Token.contained_nil, fun nodes fs t h n hn => ?_⟩
      rw [Outcome.ok.injEq] at h
      rw [← h.1, List.mem_singleton] at hn
      rw [hn]
      exact leaf (by simp) (by simp)
  | seq a b iha ihb =>
    intro e fr s left hb hr hs hp hl
    obtain ⟨ra, hra, hca, hna⟩ := iha e fr s left hb.1 hr.1 hs hp hl
    simp only [apply]
    split
    · rename_i na fa u ha
      rw [ha] at hra
      obtain ⟨rb, hrb, hcb, hnb⟩ := ihb _ fr u (left ++ ra) hb.2 hr.2 (hs.of_passes hra)
        (fun he => by
          rw [Bool.and_eq_true] at he
          rw [stream_of_isStill he.2 ha]
          exact hp he.1)
        (fun n hn => (hl n hn).mono (List.prefix_append left ra).isInfix)
      refine ⟨ra ++ rb, hra.trans (by simpa using hrb), hca.append hcb,
        fun nodes fs t h n hn => ?_⟩
      obtain ⟨gs, hmap, -⟩ := Outcome.ok_of_after h
      obtain ⟨nb, hok, rfl⟩ := Outcome.ok_of_map hmap
      rw [← List.append_assoc]
      rcases List.mem_append.1 hn with hn | hn
      · exact (hna na fa u ha n hn).mono (List.prefix_append _ rb).isInfix
      · exact hnb nb gs t hok n hn
    · rename_i ha
      rw [ha] at hra
      exact ⟨ra, hra, hca, fun nodes fs t h => by cases h⟩
  | feed a b iha ihb =>
    intro e fr s left hb hr hs hp hl
    obtain ⟨ra, hra, hca, hna⟩ := iha e fr s left hb.1 hr.1 hs hp hl
    simp only [apply]
    split
    · rename_i na fa u ha
      rw [ha] at hra
      obtain ⟨rb, hrb, hcb, hnb⟩ := ihb false { fr with left := na } u (left ++ ra) hb.2 hr.2
        (hs.of_passes hra) (by simp) (hna na fa u ha)
      refine ⟨ra ++ rb, hra.trans (by simpa using hrb), hca.append hcb,
        fun nodes fs t h n hn => ?_⟩
      obtain ⟨gs, hok, -⟩ := Outcome.ok_of_after h
      rw [← List.append_assoc]
      exact hnb nodes gs t hok n hn
    · rename_i ha
      rw [ha] at hra
      exact ⟨ra, hra, hca, fun nodes fs t h => by cases h⟩
  | as r a iha =>
    intro e fr s left hb hr hs hp hl
    obtain ⟨run, hrun, hc, hn⟩ := iha e fr s left hb hr hs hp hl
    refine ⟨run, by simpa [apply] using hrun, hc, fun nodes fs t h n hmem => ?_⟩
    obtain ⟨m, ha, rfl⟩ := as_eq_ok.1 h
    obtain ⟨c, hc, rfl⟩ := List.mem_map.1 hmem
    exact (hn m fs t ha c hc).inRole r
  | build g a iha =>
    intro e fr s left hb hr hs hp hl
    obtain ⟨run, hrun, hc, hn⟩ := iha e fr s left hb.2 hr hs hp hl
    refine ⟨run, by simpa [apply] using hrun, hc, fun nodes fs t h n hmem => ?_⟩
    obtain ⟨m, ha, rfl⟩ := build_eq_ok.1 h
    rw [List.mem_singleton] at hmem
    rw [hmem]
    exact Node.tame_of_children (by simp) (by simpa using hb.1) (hn m fs t ha)
  | fresh a iha =>
    intro e fr s left hb hr hs hp _
    exact iha e _ s left hb hr hs hp (by simp)
  | look g ih =>
    intro e fr s left hb hr hs _ hl
    exact ih s.look _ fr s left (hb s.look) (hr s.look) hs (by simp) hl
  | call p =>
    intro e fr s left _ hr hs _ hl
    exact hf p fr s left hr hs hl
  | recover a iha =>
    intro e fr s left hb hr hs hp hl
    obtain ⟨ra, hra, hca, hna⟩ := iha e fr s left hb hr.2 hs hp hl
    simp only [apply]
    split
    · rename_i na fa u ha
      rw [ha] at hra
      refine ⟨ra, hra, hca, fun nodes fs t h => ?_⟩
      exact hna nodes fs t (ha.trans h)
    · -- the error node spans what the rule passed and what was skipped behind it
      rename_i fault gs u ha
      rw [ha] at hra
      obtain ⟨hne, heof⟩ := TokenKind.endsBlock_eq_false.1 (hp hr.1)
      obtain ⟨more, hm, hcm⟩ := Stream.resume_contained hs.proper hra hne
      have hall := hra.trans hm
      have hnil := hall.ne_nil_of_count_lt (Stream.resume_count_lt hs.proper hra heof)
      refine ⟨ra ++ more, hall, hca.append hcm, fun nodes fs t h n hn => ?_⟩
      simp only [Outcome.ok.injEq] at h
      rw [← h.1, List.mem_singleton] at hn
      rw [hn]
      have hspan := Stream.spans_of_passes hs.aligned hall hnil
        (n := { kind := .error, region := (u.resume s).regionFrom s.position }) rfl
      exact (Node.tame_error hspan (hca.append hcm)).mono (List.suffix_append left _).isInfix

end Rule

/-! ## Blocks and statements -/

/-- An error node that spans a closing brace and nothing else. -/
def Node.Stray (ts : List Token) (n : Node) : Prop :=
  n.kind = .error ∧ n.children = [] ∧ ∃ b, [b] <:+: ts ∧ b.kind = .rbrace ∧ n.Spans [b]

theorem Stream.At.part_of_passes {ts run : List Token} {s t : Stream} (hs : s.At ts)
    (h : s.Passes run t) : run <:+: ts := by
  obtain ⟨before, hbefore⟩ := hs.suffix
  exact ⟨before, t.ahead, by rw [List.append_assoc, ← h.ahead, hbefore]⟩

namespace Grammar

open Rule

/-- What is known of a phrase that starts at a place in the tokens of a source. -/
structure Phrase.Tame (ts : List Token) (p : Phrase) (fr : Frame) (s : Stream) (o : Outcome) :
    Prop where
  tame : p ≠ .items → ∀ left, (∀ n ∈ fr.left, n.Tame ts left) → o.Tame ts left s
  /-- No statement starts with a closing brace. -/
  refuses : p = .statement → s.peek.kind = .rbrace → ∃ fault fs, o = .failed fault fs s
  ends : p = .blockItems → ∀ nodes fs t, o = .ok nodes fs t → t.peek.kind.endsBlock = true
  items : p = .items → fr.left = [] → ∀ nodes fs t, o = .ok nodes fs t →
    ∀ n ∈ nodes, n.Tame ts ts ∨ n.Stray ts

/-- A block over the tokens passed, if its children are tame over those between its braces. -/
theorem block_tame {ts left inner close : List Token} {s t : Stream} {children : List Node}
    (hs : s.At ts) (hk : s.peek.kind = .lbrace)
    (hp : s.Passes (s.peek :: (inner ++ close)) t) (hc : Token.Contained inner)
    (hchildren : ∀ c ∈ children, c.Tame ts inner)
    (hclose : (∃ c, close = [c] ∧ c.kind = .rbrace) ∨ close = [] ∧ t.ahead = []) :
    Node.Tame ts (left ++ s.peek :: (inner ++ close))
      { kind := .form .unionBlock, region := t.regionFrom s.position, children } := by
  have hinner : inner <:+: left ++ s.peek :: (inner ++ close) :=
    ⟨left ++ [s.peek], close, by simp⟩
  have hfenced : Node.Fenced ts
      { kind := .form .unionBlock, region := t.regionFrom s.position, children } := by
    obtain ⟨before, hbefore⟩ := hs.suffix
    refine ⟨before, s.peek, inner, close, t.ahead, ?_, hk,
      Stream.spans_of_passes hs.aligned hp (by simp) rfl, hc,
      fun c hmem => (hchildren c hmem).errors, hclose⟩
    rw [← hbefore, hp.ahead]
    simp
  constructor
  · intro m hm he
    cases hm with
    | self => cases he
    | child hmem hw => exact ((hchildren _ hmem).mono hinner).errors m hw he
  · intro m hm hb
    cases hm with
    | self => exact hfenced
    | child hmem hw => exact (hchildren _ hmem).blocks m hw hb

theorem unionBlock_tame {ts left : List Token} {f : Phrases} {fr : Frame} {s : Stream}
    (hf : ∀ fr s, Stream.At ts s → Phrase.Tame ts .blockItems fr s (f .blockItems fr s))
    (hs : s.At ts) (hk : s.peek.kind = .lbrace) : (unionBlock.apply f fr s).Tame ts left s := by
  have hopen := Stream.passes_peek hs.proper (by rw [hk]; decide)
  have hin := hf { start := s.position } s.advance (hs.of_passes hopen)
  obtain ⟨inner, hp, hc, hn⟩ := hin.tame (by decide) [] (by simp)
  have hwhole : s.Passes (s.peek :: inner) _ := hopen.trans hp
  have hfirst : Token.Contained [s.peek] := Token.contained_of_ne (by simp [hk])
  have hcontained : Token.Contained (s.peek :: inner) := hfirst.append hc
  cases hb : f .blockItems { start := s.position } s.advance with
  | failed fault gs v =>
    have hu : unionBlock.apply f fr s = .failed fault gs v := by
      simp [unionBlock, node, all, apply, hb, Outcome.map, Outcome.after]
    rw [hb] at hwhole
    rw [hu]
    exact ⟨_, hwhole, hcontained, fun nodes fs t h => by cases h⟩
  | ok items gs v =>
    rw [hb, Outcome.stream_ok] at hwhole
    have hv := hs.of_passes hwhole
    have hitems : ∀ n ∈ items, n.Tame ts inner := hn items gs v hb
    by_cases hr : v.peek.kind = .rbrace
    · have hu : unionBlock.apply f fr s =
          .ok [{ kind := .form .unionBlock, region := v.advance.regionFrom s.position,
                 children := items }] gs v.advance := by
        simp [unionBlock, node, all, apply, hb, hr, Outcome.map, Outcome.after]
      have hclose := Stream.passes_peek hv.proper (by rw [hr]; decide)
      have hall : s.Passes (s.peek :: (inner ++ [v.peek])) v.advance := hwhole.trans hclose
      rw [hu]
      refine ⟨_, hall, hc.block hk, fun nodes fs t h n hmem => ?_⟩
      obtain ⟨rfl, -, rfl⟩ := Outcome.ok.inj h
      rw [List.mem_singleton.1 hmem]
      exact block_tame hs hk hall hc hitems (.inl ⟨_, rfl, hr⟩)
    · have hu : unionBlock.apply f fr s =
          .ok [{ kind := .form .unionBlock, region := v.regionFrom s.position,
                 children := items ++ [.absent .rbrace v.gapPosition] }]
            (gs ++ [.absent .rbrace v.gapPosition]) v := by
        simp [unionBlock, node, all, apply, hb, hr, Outcome.map, Outcome.after]
      have heof : v.ahead = [] := by
        refine (Stream.peek_kind_eq_eof hv.proper).1 ?_
        have hend := hin.ends rfl items gs v hb
        revert hend hr
        cases v.peek.kind <;> simp [TokenKind.endsBlock]
      have hall : s.Passes (s.peek :: (inner ++ [])) v := by simpa using hwhole
      rw [hu]
      refine ⟨_, hall, by simpa using hcontained, fun nodes fs t h n hmem => ?_⟩
      obtain ⟨rfl, -, rfl⟩ := Outcome.ok.inj h
      rw [List.mem_singleton.1 hmem]
      refine block_tame hs hk hall hc (fun c hmem => ?_) (.inr ⟨rfl, heof⟩)
      rcases List.mem_append.1 hmem with hmem | hmem
      · exact hitems c hmem
      · rw [List.mem_singleton.1 hmem]
        exact Node.tame_of_children (by simp [Node.absent]) (by simp [Node.absent])
          (by simp [Node.absent])

/-! ## The table -/

/-- A rule that is taken at a token of one kind is told this kind. -/
theorem braceless_ite {k : TokenKind} {x y : Rule} {a : Ahead} :
    (if a.kind = k then x else y).Braceless (!a.kind.endsBlock) ↔
      (a.kind = k → x.Braceless !k.endsBlock) ∧ (a.kind ≠ k → y.Braceless !a.kind.endsBlock) := by
  split
  · rename_i h
    simp [h]
  · rename_i h
    simp [h]

theorem argumentList_braceless {e : Bool} : argumentList.Braceless e := by
  refine ⟨by simp, fun a => ?_, by simp [all]⟩
  dsimp only
  split <;> simp

theorem callTail_braceless {e : Bool} : callTail.Braceless e := by
  rintro ⟨k, x, k2⟩
  cases k <;> simp

theorem bindingList_braceless {e : Bool} : bindingList.Braceless e := by
  simp [bindingList, assignments, node, all]

theorem parameterList_braceless {e : Bool} : parameterList.Braceless e := by
  simp [parameterList, node, all]

theorem statement_braceless {g : Ahead → Rule} (hg : statement = look g) (a : Ahead)
    (ha : a.kind ≠ .lbrace) : (g a).Braceless !a.kind.endsBlock := by
  obtain rfl := Rule.look.inj hg
  obtain ⟨k, x, k2⟩ := a
  cases k with
  | lbrace => exact absurd rfl ha
  | identifier =>
    show (namedStatement _).Braceless true
    unfold namedStatement
    split
    · split_ifs <;> simp [node, all, boundStatement, assertStatement, moduleCall,
        bindingList_braceless, argumentList_braceless, callTail_braceless]
    · simp [node, all, declaration, expression]
    · simp [node, all, moduleCall, argumentList_braceless, callTail_braceless]
  | _ =>
    simp [node, all, moduleItem, functionItem, boundStatement, ifStatement, fileStatement,
      declaration, expression, bindingList_braceless,
      parameterList_braceless, braceless_ite]

theorem named_braceless {g : Form → Rule} {w : Wanted} {e : Bool} (h : ∀ n, (g n).Braceless true) :
    (named g w).Braceless e := by
  rintro ⟨k, x, k2⟩
  cases k with
  | identifier | special => exact h _
  | _ => trivial

theorem guardExpression_braceless (f : Form) : (guardExpression f).Braceless true := by
  refine ⟨rfl, argumentList_braceless, fun a => ?_⟩
  by_cases h : startsExpression a.kind = true <;> simp [h, expression]

theorem primary_braceless : primary.Braceless false := by
  rintro ⟨k, x, k2⟩
  cases k with
  | identifier =>
    dsimp only
    split_ifs
    · exact guardExpression_braceless _
    · exact guardExpression_braceless _
    · rfl
  | lbracket =>
    refine ⟨rfl, fun a => ?_⟩
    dsimp only
    split
    case h_6 => simp [all, rangeBounds, expression, isStill, braceless_ite]
    all_goals
      rename_i hk
      simp [all, hk]
  | _ =>
    simp [node, all, expression, bindingList_braceless,
      parameterList_braceless]

/-- No other phrase passes a closing brace on its own. -/
theorem rule_braceless {p : Phrase} (hs : p ≠ .statement) (hi : p ≠ .items) :
    (rule p).Braceless false := by
  cases p with
  | statement => exact absurd rfl hs
  | items => exact absurd rfl hi
  | blockItems =>
    rintro ⟨k, x, k2⟩
    cases k <;> simp
  | body =>
    intro a
    dsimp only
    split <;> simp
  | arguments =>
    refine ⟨?_, fun a => ?_⟩
    · rintro ⟨k, x, k2⟩
      dsimp only
      split <;> simp_all [node, all, namedArgument, expression]
    · simp [braceless_ite]
  | bindings =>
    intro a
    dsimp only
    split
    case h_4 =>
      refine ⟨named_braceless fun n => ?_, fun a => ?_⟩
      · simp [node, all, binding, expression]
      · simp [braceless_ite]
    all_goals trivial
  | parameters =>
    intro a
    dsimp only
    split
    case h_3 =>
      refine ⟨named_braceless fun n => ?_, fun a => ?_⟩
      · simp [node, all, parameter, expression, braceless_ite]
      · simp [braceless_ite]
    all_goals trivial
  | element =>
    rintro ⟨k, x, k2⟩
    cases k <;> simp [node, all, expression, loopHead, assignments, isStill,
      braceless_ite, bindingList_braceless]
  | elements =>
    intro a
    simp [braceless_ite]
  | expr l => simp [rule, expr]
  | operators l =>
    rintro ⟨k, x, k2⟩
    dsimp only
    split
    · trivial
    · rename_i m hm
      have hk : k.endsBlock = false := by
        cases k <;> simp [Level.ofToken?] at hm <;> rfl
      split_ifs <;> simp [all, expression, isStill, hk]
  | unary =>
    rintro ⟨k, x, k2⟩
    cases k <;> simp [node, all]
  | primary => exact primary_braceless
  | suffixes =>
    rintro ⟨k, x, k2⟩
    cases k <;> simp [all, expression, isStill, argumentList_braceless,
      braceless_ite]

/-- The statements of a block end where the block does. -/
theorem blockItems_ends_block {ts : List Token} {f : Phrases} (hf : f.Forward) {fr : Frame}
    {s t : Stream} {nodes : List Node} {fs : List Fault} (hs : s.At ts)
    (hends : ∀ fr s, Stream.At ts s → ∀ nodes fs t, f .blockItems fr s = .ok nodes fs t →
      t.peek.kind.endsBlock = true)
    (h : blockItems.apply f fr s = .ok nodes fs t) : t.peek.kind.endsBlock = true := by
  simp only [blockItems, apply] at h
  split at h
  case h_3 =>
    obtain ⟨m, gs, u, n, hs', ha, hb, -, -⟩ := seq_eq_ok.1 h
    obtain ⟨run, pa⟩ := apply_passes hf (recover (call .statement)) fr s hs.proper
    rw [ha, Outcome.stream_ok] at pa
    exact hends fr u (hs.of_passes pa) n hs' t hb
  all_goals
    rename_i hk
    obtain ⟨-, -, rfl⟩ : [] = nodes ∧ [] = fs ∧ s = t := by simpa [apply] using h
    rw [show s.peek.kind = _ from hk]
    rfl

/-- One statement of a file: a closing brace is a stray one, and anything else is tame. -/
theorem recover_tame_or_stray {ts : List Token} {f : Phrases} {fr : Frame} {s t : Stream}
    {nodes : List Node} {fs : List Fault} (hs : s.At ts) (hne : s.peek.kind ≠ .eof)
    (hf : ∀ p fr s, Stream.At ts s → Phrase.Tame ts p fr s (f p fr s))
    (hl : fr.left = [])
    (h : (recover (call .statement)).apply f fr s = .ok nodes fs t) :
    ∀ n ∈ nodes, n.Tame ts ts ∨ n.Stray ts := by
  intro n hn
  by_cases hk : s.peek.kind = .rbrace
  · obtain ⟨fault, gs, hfail⟩ := (hf .statement fr s hs).refuses rfl hk
    have hadv := Stream.passes_peek hs.proper hne
    have hresume : s.resume s = s.advance := by simp [Stream.resume, hk]
    simp only [apply, hfail, hresume, Outcome.ok.injEq] at h
    rw [← h.1, List.mem_singleton] at hn
    rw [hn]
    refine .inr ⟨rfl, rfl, s.peek, hs.part_of_passes hadv, hk, ?_⟩
    exact Stream.spans_of_passes hs.aligned hadv (by simp) rfl
  · obtain ⟨run, hp, -, htame⟩ := apply_tame
      (fun p fr s left hp hs => (hf p fr s hs).tame hp left) (recover (call .statement)) true fr s
      [] trivial ⟨rfl, by simp⟩ hs (by simp [hk, hne]) (by simp [hl])
    exact .inl ((htame nodes fs t h n hn).mono (hs.part_of_passes hp))

theorem parsePhrase_tame {ts : List Token} (p : Phrase) (fr : Frame) (s : Stream) (hs : s.At ts) :
    Phrase.Tame ts p fr s (parsePhrase p fr s) := by
  refine parsePhrase_induct_proper (P := fun p fr s o => s.At ts → Phrase.Tame ts p fr s o) ?_ ?_
    p fr s hs.proper hs
  · intro p fr s _
    refine ⟨fun _ left _ => ?_, fun _ _ => ⟨_, _, rfl⟩, ?_, ?_⟩
    · exact ⟨[], .refl s, Token.contained_nil, fun nodes fs t h => by cases h⟩
    · intro _ nodes fs t h
      cases h
    · intro _ _ nodes fs t h
      cases h
  · intro f forward _ hf p fr s _ hs
    have hphrase : ∀ p fr s, Stream.At ts s → Phrase.Tame ts p fr s (f p fr s) :=
      fun p fr s hs => hf p fr s hs.proper hs
    have plain := apply_tame fun p fr s left hp hs => (hphrase p fr s hs).tame hp left
    refine ⟨fun hp left hl => ?_, ?_, ?_, ?_⟩
    · by_cases hst : p = .statement
      · subst hst
        by_cases hk : s.peek.kind = .lbrace
        · have hlook : s.look.kind = .lbrace := hk
          have hu : (rule .statement).apply f fr s = unionBlock.apply f fr s := by
            simp only [rule, statement, apply, hlook]
          rw [hu]
          exact unionBlock_tame (fun fr s => hphrase .blockItems fr s) hs hk
        · have hrule := plain _ _ fr s left (statement_blockless rfl s.look hk)
            (statement_braceless rfl s.look hk) hs (by simp) hl
          exact hrule
      · exact plain _ false fr s left (rule_blockless hst) (rule_braceless hst hp) hs (by simp) hl
    · rintro rfl hk
      have hlook : s.look.kind = .rbrace := hk
      exact ⟨.ofToken s.peek .statement, [], by simp only [rule, statement, apply, hlook]⟩
    · rintro rfl nodes fs t h
      exact blockItems_ends_block forward hs
        (fun fr s hs => (hphrase .blockItems fr s hs).ends rfl) h
    · rintro rfl hl nodes fs t h n hn
      simp only [rule, items, apply] at h
      split at h
      · obtain ⟨rfl, -, -⟩ : [] = nodes ∧ [] = fs ∧ s = t := by simpa [apply] using h
        simp at hn
      · rename_i hk
        obtain ⟨m, gs, u, more, hs', ha, hb, rfl, -⟩ := seq_eq_ok.1 h
        rcases List.mem_append.1 hn with hn | hn
        · exact recover_tame_or_stray hs hk hphrase hl ha n hn
        · obtain ⟨run, pa⟩ := apply_passes forward (recover (call .statement)) fr s hs.proper
          rw [ha, Outcome.stream_ok] at pa
          exact (hphrase .items fr u (hs.of_passes pa)).items rfl hl more hs' t hb n hn

end Grammar

/-! ## The tree of a source -/

namespace SyntaxTree

/-- The statements of a file: all of them are tame, but for stray closing braces. -/
theorem children_tame_or_stray (source : List Char) :
    ∀ n ∈ (ofSource source).root.children,
      n.Tame (tokenize source).tokens (tokenize source).tokens ∨
        n.Stray (tokenize source).tokens := by
  obtain ⟨nodes, fs, t, h, htree⟩ := ofSource_eq source
  rw [htree]
  exact (Grammar.parsePhrase_tame .items { start := {} } _ (Stream.start_at source)).items rfl
    rfl nodes fs t h

/-- A node of the tree other than the root is in one of the statements of the file. -/
theorem exists_child_of_within {source : List Char} {n : Node}
    (hn : n.Within (ofSource source).root) (hk : n.kind ≠ .form .sourceFile) :
    ∃ c ∈ (ofSource source).root.children, n.Within c := by
  cases hn with
  | self =>
    obtain ⟨nodes, fs, t, -, htree⟩ := ofSource_eq source
    rw [htree] at hk
    exact absurd rfl hk
  | child hc hw => exact ⟨_, hc, hw⟩

/-- An error node is a stray closing brace outside of all blocks, or spans a contained run. -/
theorem error_spans {source : List Char} {n : Node} (hn : n.Within (ofSource source).root)
    (hk : n.kind = .error) :
    (n ∈ (ofSource source).root.children ∧
        ∃ b, [b] <:+: (tokenize source).tokens ∧ n.Spans [b] ∧ b.kind = .rbrace) ∨
      ∃ part, part <:+: (tokenize source).tokens ∧ n.Spans part ∧ Token.Contained part := by
  obtain ⟨c, hc, hw⟩ := exists_child_of_within hn (by simp [hk])
  rcases children_tame_or_stray source c hc with htame | ⟨-, hleaf, b, hb, hbk, hspan⟩
  · exact .inr (htame.errors n hw hk)
  · cases hw with
    | self => exact .inl ⟨hc, b, hb, hspan, hbk⟩
    | child hmem => simp [hleaf] at hmem

theorem block_fenced {source : List Char} {m : Node} (hm : m.Within (ofSource source).root)
    (hk : m.kind = .form .unionBlock) : m.Fenced (tokenize source).tokens := by
  obtain ⟨c, hc, hw⟩ := exists_child_of_within hm (by simp [hk])
  rcases children_tame_or_stray source c hc with htame | ⟨herror, hleaf, -⟩
  · exact htame.blocks m hw hk
  · cases hw with
    | self => simp [herror] at hk
    | child hmem => simp [hleaf] at hmem

/-- A block encloses the tokens that its error nodes cover: what stands between its braces is
contained, those tokens are a part of it, and the brace that closes the block is none of them. -/
theorem block_encloses {source : List Char} {n m : Node} (hm : m.Within (ofSource source).root)
    (hmk : m.kind = .form .unionBlock) (hnm : n.Within m) (hk : n.kind = .error) :
    m.Encloses (tokenize source).tokens (n.covered (tokenize source).tokens) := by
  obtain ⟨before, brace, inner, close, after, hts, hbrace, hspan, hinner, herrors, hclose⟩ :=
    block_fenced hm hmk
  obtain ⟨part, hpart, hnspan, -⟩ : ∃ part, part <:+: inner ∧ n.Spans part ∧
      Token.Contained part := by
    cases hnm with
    | self => simp [hk] at hmk
    | child hmem hw => exact herrors _ hmem n hw hk
  have hinfix : inner <:+: (tokenize source).tokens :=
    ⟨before ++ [brace], close ++ after, by simp [hts]⟩
  rw [Node.covered_of_source (hpart.trans hinfix) hnspan]
  refine ⟨before, brace, inner, close, after, hts, hbrace, hspan, hinner, hpart, ?_⟩
  refine hclose.imp_left fun ⟨c, hc, hck⟩ => ⟨c, hc, hck, fun hmem => ?_⟩
  -- the closing brace stands behind all tokens in the block, and so it is none of them
  have ho := tokenize_ordered source
  rw [hts, hc] at ho
  have hbehind := (List.pairwise_append.1 (List.pairwise_cons.1
    (List.pairwise_append.1 ho).2.1).2).2.2 c (hpart.subset hmem) c (by simp)
  have hlt := (tokenize_sound source c (by simp [hts, hc])).start_lt_stop
  omega

/-- What an error node covers closes no brace that it does not open, unless it is a closing brace
outside of all blocks. So a brace that closes a block is never skipped for a broken statement in the
block. -/
theorem recovery_keeps_braces (source : List Char) (n : Node)
    (hn : n.Within (ofSource source).root) (hk : n.kind = .error) :
    n.covered (tokenize source).tokens <:+: (tokenize source).tokens ∧
      n.Spans (n.covered (tokenize source).tokens) ∧
      ((n ∈ (ofSource source).root.children ∧
          ∃ b, n.covered (tokenize source).tokens = [b] ∧ b.kind = .rbrace) ∨
        Token.Contained (n.covered (tokenize source).tokens)) ∧
      ∀ m : Node, m.Within (ofSource source).root → m.kind = .form .unionBlock → n.Within m →
        m.Encloses (tokenize source).tokens (n.covered (tokenize source).tokens) := by
  have hblock : ∀ m : Node, m.Within (ofSource source).root → m.kind = .form .unionBlock →
      n.Within m → m.Encloses (tokenize source).tokens (n.covered (tokenize source).tokens) :=
    fun m hm hmk hnm => block_encloses hm hmk hnm hk
  rcases error_spans hn hk with ⟨hroot, b, hb, hspan, hbk⟩ | ⟨part, hpart, hspan, hcont⟩
  · rw [Node.covered_of_source hb hspan] at hblock ⊢
    exact ⟨hb, hspan, .inl ⟨hroot, b, rfl, hbk⟩, hblock⟩
  · rw [Node.covered_of_source hpart hspan] at hblock ⊢
    exact ⟨hpart, hspan, .inr hcont, hblock⟩

/-- A broken statement in a block covers the brace that it opens, and not the one that closes the
block. -/
theorem recovery_keeps_brace_of_block :
    ∃ m n : Node, m.Within (ofSource "\x7b x = \x7b 1 \x7d y(); \x7d".toList).root ∧
      m.kind = .form .unionBlock ∧ n.Within m ∧ n.kind = .error ∧
      (n.covered (tokenize "\x7b x = \x7b 1 \x7d y(); \x7d".toList).tokens).map (·.text) =
        ["x", "=", "\x7b", "1"] ∧
      Token.Contained (n.covered (tokenize "\x7b x = \x7b 1 \x7d y(); \x7d".toList).tokens) ∧
      m.Encloses (tokenize "\x7b x = \x7b 1 \x7d y(); \x7d".toList).tokens
        (n.covered (tokenize "\x7b x = \x7b 1 \x7d y(); \x7d".toList).tokens) := by
  have hpaths : ((ofSource "\x7b x = \x7b 1 \x7d y(); \x7d".toList).root.descend? [0]).any
      (fun m => m.kind == .form .unionBlock && (m.descend? [0]).any fun n => n.kind == .error &&
        (n.covered (tokenize "\x7b x = \x7b 1 \x7d y(); \x7d".toList).tokens).map (·.text) ==
          ["x", "=", "\x7b", "1"]) = true := by
    decide +kernel
  obtain ⟨m, hm, hboth⟩ := (Option.any_eq_true _ _).1 hpaths
  rw [Bool.and_eq_true, beq_iff_eq] at hboth
  obtain ⟨n, hn, hboth'⟩ := (Option.any_eq_true _ _).1 hboth.2
  rw [Bool.and_eq_true, beq_iff_eq, beq_iff_eq] at hboth'
  have hmroot := Node.within_of_descend hm
  have hnm := Node.within_of_descend hn
  obtain ⟨-, -, hcov, hblock⟩ := recovery_keeps_braces _ n (hnm.trans hmroot) hboth'.1
  refine ⟨m, n, hmroot, hboth.1, hnm, hboth'.1, hboth'.2, ?_, hblock m hmroot hboth.1 hnm⟩
  rcases hcov with ⟨-, b, hb, -⟩ | h
  · have htext := hboth'.2
    rw [hb] at htext
    simp at htext
  · exact h

end SyntaxTree
end Scad
