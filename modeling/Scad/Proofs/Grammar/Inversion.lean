import Scad.Proofs.Grammar.Progress

/-!
# How a rule succeeds

For each way to form a rule, what it means that the rule succeeds: which parts succeeded, where each
of them ended, and how nodes and faults were put together. The second half is about success without
faults, for which `Rule.Gives` stands.
-/

namespace Scad

@[simp]
theorem Stream.look_kind (s : Stream) : s.look.kind = s.peek.kind := by
  rw [Stream.look]

@[simp]
theorem Stream.look_text (s : Stream) : s.look.text = s.peek.text := by
  rw [Stream.look]

namespace Rule

variable {f : Phrases} {fr : Frame} {s t : Stream} {nodes : List Node} {fs : List Fault}

theorem seq_eq_ok {a b : Rule} : (seq a b).apply f fr s = .ok nodes fs t ↔
    ∃ m gs u n hs, a.apply f fr s = .ok m gs u ∧ b.apply f fr u = .ok n hs t ∧
      nodes = m ++ n ∧ fs = gs ++ hs := by
  simp only [apply]
  constructor
  · intro h
    split at h
    · rename_i m gs u ha
      obtain ⟨hs, hmap, rfl⟩ := Outcome.ok_of_after h
      obtain ⟨n, hb, rfl⟩ := Outcome.ok_of_map hmap
      exact ⟨m, gs, u, n, hs, ha, hb, rfl, rfl⟩
    · cases h
  · rintro ⟨m, gs, u, n, hs, ha, hb, rfl, rfl⟩
    rw [ha]
    simp only [hb, Outcome.map, Outcome.after]

theorem feed_eq_ok {a b : Rule} : (feed a b).apply f fr s = .ok nodes fs t ↔
    ∃ m gs u hs, a.apply f fr s = .ok m gs u ∧
      b.apply f { fr with left := m } u = .ok nodes hs t ∧ fs = gs ++ hs := by
  simp only [apply]
  constructor
  · intro h
    split at h
    · rename_i m gs u ha
      obtain ⟨hs, hb, rfl⟩ := Outcome.ok_of_after h
      exact ⟨m, gs, u, hs, ha, hb, rfl⟩
    · cases h
  · rintro ⟨m, gs, u, hs, ha, hb, rfl⟩
    rw [ha]
    simp only [hb, Outcome.after]

theorem as_eq_ok {r : Role} {a : Rule} : (as r a).apply f fr s = .ok nodes fs t ↔
    ∃ m, a.apply f fr s = .ok m fs t ∧ nodes = m.map (·.inRole r) := by
  simp only [apply]
  constructor
  · exact Outcome.ok_of_map
  · rintro ⟨m, ha, rfl⟩
    rw [ha, Outcome.map]

theorem build_eq_ok {g : Form} {a : Rule} : (build g a).apply f fr s = .ok nodes fs t ↔
    ∃ m, a.apply f fr s = .ok m fs t ∧
      nodes = [{ kind := .form g, region := t.regionFrom fr.start, children := m }] := by
  simp only [apply]
  constructor
  · exact Outcome.ok_of_map
  · rintro ⟨m, ha, rfl⟩
    rw [ha, Outcome.map]

theorem expect_eq_ok {k : TokenKind} : (expect k).apply f fr s = .ok nodes fs t ↔
    s.peek.kind = k ∧ nodes = [] ∧ fs = [] ∧ t = s.advance := by
  simp only [apply]
  split
  · rename_i h
    simp [h, eq_comm]
  · rename_i h
    simp [h]

theorem closing_eq_ok {k : TokenKind} : (closing k).apply f fr s = .ok nodes fs t ↔
    (s.peek.kind = k ∧ nodes = [] ∧ fs = [] ∧ t = s.advance) ∨
      (s.peek.kind ≠ k ∧ nodes = [.absent k s.gapPosition] ∧ fs = [.absent k s.gapPosition] ∧
        t = s) := by
  simp only [apply]
  split
  · rename_i h
    simp [h, eq_comm]
  · rename_i h
    simp [h, eq_comm]

theorem recover_eq_ok {a : Rule} : (recover a).apply f fr s = .ok nodes fs t ↔
    a.apply f fr s = .ok nodes fs t ∨
      ∃ fault gs u, a.apply f fr s = .failed fault gs u ∧ t = u.resume s ∧ fs = gs ++ [fault] ∧
        nodes = [{ kind := .error, region := t.regionFrom s.position }] := by
  simp only [apply]
  split
  · rename_i ha
    simp [ha]
  · rename_i fault gs u ha
    simp only [ha, Outcome.ok.injEq, reduceCtorEq, Outcome.failed.injEq, false_or]
    constructor
    · rintro ⟨rfl, rfl, rfl⟩
      exact ⟨fault, gs, u, ⟨rfl, rfl, rfl⟩, rfl, rfl, rfl⟩
    · rintro ⟨_, _, _, ⟨rfl, rfl, rfl⟩, rfl, rfl, rfl⟩
      exact ⟨rfl, rfl, rfl⟩

/-! ## Without faults -/

/-- The rule succeeds with these nodes and notes no fault. -/
def Gives (f : Phrases) (r : Rule) (fr : Frame) (s : Stream) (nodes : List Node) (t : Stream) :
    Prop :=
  r.apply f fr s = .ok nodes [] t

@[simp]
theorem gives_done : Gives f done fr s nodes t ↔ nodes = [] ∧ t = s := by
  simp [Gives, apply, eq_comm]

@[simp]
theorem gives_keep : Gives f keep fr s nodes t ↔ nodes = fr.left ∧ t = s := by
  simp [Gives, apply, eq_comm]

@[simp]
theorem gives_take : Gives f take fr s nodes t ↔ nodes = [] ∧ t = s.advance := by
  simp [Gives, apply, eq_comm]

@[simp]
theorem gives_leaf {g : Form} : Gives f (leaf g) fr s nodes t ↔
    nodes = [{ kind := .form g, region := s.peek.region }] ∧ t = s.advance := by
  simp [Gives, apply, eq_comm]

@[simp]
theorem gives_expect {k : TokenKind} : Gives f (expect k) fr s nodes t ↔
    s.peek.kind = k ∧ nodes = [] ∧ t = s.advance := by
  simp [Gives, expect_eq_ok]

@[simp]
theorem gives_closing {k : TokenKind} : Gives f (closing k) fr s nodes t ↔
    s.peek.kind = k ∧ nodes = [] ∧ t = s.advance := by
  simp [Gives, closing_eq_ok]

@[simp]
theorem gives_refuse {w : Wanted} : ¬ Gives f (refuse w) fr s nodes t := by
  simp [Gives, apply]

@[simp]
theorem gives_seq {a b : Rule} : Gives f (seq a b) fr s nodes t ↔
    ∃ m u n, Gives f a fr s m u ∧ Gives f b fr u n t ∧ nodes = m ++ n := by
  simp only [Gives, seq_eq_ok]
  constructor
  · rintro ⟨m, gs, u, n, hs, ha, hb, rfl, h⟩
    obtain ⟨rfl, rfl⟩ := List.append_eq_nil_iff.1 h.symm
    exact ⟨m, u, n, ha, hb, rfl⟩
  · rintro ⟨m, u, n, ha, hb, rfl⟩
    exact ⟨m, [], u, n, [], ha, hb, rfl, rfl⟩

@[simp]
theorem gives_feed {a b : Rule} : Gives f (feed a b) fr s nodes t ↔
    ∃ m u, Gives f a fr s m u ∧ Gives f b { fr with left := m } u nodes t := by
  simp only [Gives, feed_eq_ok]
  constructor
  · rintro ⟨m, gs, u, hs, ha, hb, h⟩
    obtain ⟨rfl, rfl⟩ := List.append_eq_nil_iff.1 h.symm
    exact ⟨m, u, ha, hb⟩
  · rintro ⟨m, u, ha, hb⟩
    exact ⟨m, [], u, [], ha, hb, rfl⟩

@[simp]
theorem gives_as {r : Role} {a : Rule} : Gives f (as r a) fr s nodes t ↔
    ∃ m, Gives f a fr s m t ∧ nodes = m.map (·.inRole r) := as_eq_ok

@[simp]
theorem gives_build {g : Form} {a : Rule} : Gives f (build g a) fr s nodes t ↔
    ∃ m, Gives f a fr s m t ∧
      nodes = [{ kind := .form g, region := t.regionFrom fr.start, children := m }] := build_eq_ok

@[simp]
theorem gives_fresh {a : Rule} : Gives f (fresh a) fr s nodes t ↔
    Gives f a { start := s.position } s nodes t := Iff.rfl

@[simp]
theorem gives_look {g : Ahead → Rule} : Gives f (look g) fr s nodes t ↔
    Gives f (g s.look) fr s nodes t := Iff.rfl

@[simp]
theorem gives_ite {c : Prop} [Decidable c] {a b : Rule} : Gives f (if c then a else b) fr s nodes t ↔
    c ∧ Gives f a fr s nodes t ∨ ¬ c ∧ Gives f b fr s nodes t := by
  split <;> simp [*]

@[simp]
theorem gives_call {p : Phrase} : Gives f (call p) fr s nodes t ↔ f p fr s = .ok nodes [] t :=
  Iff.rfl

@[simp]
theorem gives_recover {a : Rule} : Gives f (recover a) fr s nodes t ↔ Gives f a fr s nodes t := by
  simp [Gives, recover_eq_ok]

end Rule
end Scad
