import Scad.Proofs.Grammar.Inversion

/-!
# What a phrase cannot start with

A comma, or a mark that closes a list, is never the start of an expression; a comma, a closing brace
or the end of the text is never the start of a statement. So wherever such a phrase was parsed
without a fault, none of these was the next token.
-/

namespace Scad

/-- A comma, or a mark in front of which a list may end with a comma. -/
def TokenKind.closes : TokenKind → Bool
  | .comma | .rparen | .rbracket | .semicolon => true
  | _ => false

/-- A comma, or what ends a list of statements. -/
def TokenKind.parts : TokenKind → Bool
  | .comma | .rbrace | .eof => true
  | _ => false

/-- The tokens that a phrase never starts with. -/
def Phrase.bars : Phrase → TokenKind → Bool
  | .arguments, k | .element, k | .expr _, k | .unary, k | .primary, k => k.closes
  | .statement, k | .body, k => k.parts
  | _, _ => false

/-- No phrase is parsed without a fault in front of a token that it never starts with. -/
def Phrases.Barring (f : Phrases) : Prop :=
  ∀ p fr (s : Stream) nodes t, s.Proper → p.bars s.peek.kind = true → f p fr s ≠ .ok nodes [] t

namespace Rule

/-- The rule fails in front of a token of this kind, or it notes a fault there. -/
def Bars (k : TokenKind) : Rule → Prop
  | expect k' | closing k' => k' ≠ k
  | refuse _ => True
  | seq a _ | feed a _ | as _ a | build _ a | fresh a | recover a => a.Bars k
  | look g => ∀ a, a.kind = k → (g a).Bars k
  | call p => p.bars k = true
  | _ => False

theorem not_gives_of_bars {f : Phrases} (hf : f.Barring) {k : TokenKind} :
    ∀ (r : Rule) (fr : Frame) (s : Stream) (nodes : List Node) (t : Stream),
      s.Proper → s.peek.kind = k → r.Bars k → ¬ Gives f r fr s nodes t := by
  intro r
  induction r with
  | expect k' =>
    intro fr s nodes t _ hk hr h
    exact hr ((gives_expect.1 h).1.symm.trans hk)
  | closing k' =>
    intro fr s nodes t _ hk hr h
    exact hr ((gives_closing.1 h).1.symm.trans hk)
  | refuse w => intro fr s nodes t _ _ _ h; exact gives_refuse h
  | seq a b iha _ =>
    intro fr s nodes t hs hk hr h
    obtain ⟨m, u, n, ha, -⟩ := gives_seq.1 h
    exact iha fr s m u hs hk hr ha
  | feed a b iha _ =>
    intro fr s nodes t hs hk hr h
    obtain ⟨m, u, ha, -⟩ := gives_feed.1 h
    exact iha fr s m u hs hk hr ha
  | as _ a iha =>
    intro fr s nodes t hs hk hr h
    obtain ⟨m, ha, -⟩ := gives_as.1 h
    exact iha fr s m t hs hk hr ha
  | build _ a iha =>
    intro fr s nodes t hs hk hr h
    obtain ⟨m, ha, -⟩ := gives_build.1 h
    exact iha fr s m t hs hk hr ha
  | fresh a iha =>
    intro fr s nodes t hs hk hr h
    exact iha _ s nodes t hs hk hr h
  | look g ih =>
    intro fr s nodes t hs hk hr h
    exact ih s.look fr s nodes t hs hk (hr s.look hk) h
  | call p =>
    intro fr s nodes t hs hk hr h
    exact hf p fr s nodes t hs (by rw [hk]; exact hr) h
  | recover a iha =>
    intro fr s nodes t hs hk hr h
    exact iha fr s nodes t hs hk hr (gives_recover.1 h)
  | _ => intro fr s nodes t _ _ hr; exact absurd hr (by simp [Bars])

end Rule

namespace Grammar

open Rule

theorem closes_cases {k : TokenKind} (h : k.closes = true) :
    k = .comma ∨ k = .rparen ∨ k = .rbracket ∨ k = .semicolon := by
  revert h
  cases k <;> decide

theorem parts_cases {k : TokenKind} (h : k.parts = true) : k = .comma ∨ k = .rbrace ∨ k = .eof := by
  revert h
  cases k <;> decide

theorem rule_bars (p : Phrase) (k : TokenKind) (hp : p.bars k = true) : (rule p).Bars k := by
  cases p with
  | arguments | element | unary | primary =>
    rintro ⟨k', x, k2⟩ rfl
    rcases closes_cases hp with h | h | h | h <;> cases h <;> trivial
  | statement | body =>
    rintro ⟨k', x, k2⟩ rfl
    rcases parts_cases hp with h | h | h <;> cases h <;> trivial
  | expr l => exact hp
  | _ => cases hp

/-- The induction over phrases, with all that is known of where phrases start and end. -/
theorem parsePhrase_induct_barring {P : Phrase → Frame → Stream → Outcome → Prop}
    (refused : ∀ p fr s, P p fr s (.failed (.ofToken s.peek .statement) [] s))
    (step : ∀ f : Phrases, f.Forward → f.Eating → f.Barring →
      (∀ p fr s, s.Proper → P p fr s (f p fr s)) →
      ∀ p fr s, s.Proper → P p fr s ((rule p).apply f fr s))
    (p : Phrase) (fr : Frame) (s : Stream) (hs : s.Proper) : P p fr s (parsePhrase p fr s) := by
  have go := parsePhrase_induct_proper
    (P := fun p fr s o => (∀ nodes t, p.bars s.peek.kind = true → o ≠ .ok nodes [] t) ∧ P p fr s o)
    ?_ ?_
  · exact (go p fr s hs).2
  · intro p fr s
    exact ⟨fun nodes t _ h => by simp at h, refused p fr s⟩
  · intro f forward eating hf p fr s hs
    have barring : f.Barring := fun p fr s nodes t hs => (hf p fr s hs).1 nodes t
    refine ⟨fun nodes t hp h => ?_, ?_⟩
    · exact not_gives_of_bars barring (rule p) fr s nodes t hs rfl (rule_bars p _ hp) h
    · exact step f forward eating barring (fun p fr s hs => (hf p fr s hs).2) p fr s hs

end Grammar
end Scad
