import Scad.Proofs.Grammar.FaultOrder
import Scad.Proofs.Program.Verdict

/-!
# The first fault

A source that breaks the grammar is refused with the first node of its tree, in preorder, that stands
for a fault. The faults noted by the parser do not come from these nodes one by one: a statement that
fails loses the nodes built in it, and the one error node that it leaves starts where the statement
does. Still no fault stands before the node that is reported (`parse_reports_first_fault`). The
reason is that the nodes stand in the order of the source, and that each fault has one of them in
front of it.
-/

namespace Scad

/-! ## Nodes in preorder -/

namespace Node

/-- A node for a part of the source that was skipped, or for a token that is missing. -/
def isFault (n : Node) : Bool := n.missing || n.isError

mutual

/-- The nodes of a tree, each of them before its children. -/
def preorder : Node → List Node
  | ⟨kind, region, role, missing, children⟩ =>
    ⟨kind, region, role, missing, children⟩ :: preorders children

def preorders : List Node → List Node
  | [] => []
  | n :: ns => n.preorder ++ preorders ns

end

theorem preorder_eq (n : Node) : n.preorder = n :: preorders n.children := by
  cases n
  rw [preorder]

mutual

theorem within_of_mem_preorder {m : Node} : ∀ {n : Node}, m ∈ n.preorder → m.Within n
  | ⟨kind, region, role, missing, children⟩, h => by
    rw [preorder] at h
    rcases List.mem_cons.1 h with rfl | h
    · exact .self _
    · obtain ⟨c, hc, hw⟩ := within_of_mem_preorders h
      exact .child hc hw

theorem within_of_mem_preorders {m : Node} : ∀ {ns : List Node}, m ∈ preorders ns →
    ∃ c ∈ ns, m.Within c
  | [], h => by simp [preorders] at h
  | n :: ns, h => by
    rw [preorders] at h
    rcases List.mem_append.1 h with h | h
    · exact ⟨n, by simp, within_of_mem_preorder h⟩
    · obtain ⟨c, hc, hw⟩ := within_of_mem_preorders h
      exact ⟨c, by simp [hc], hw⟩

end

/-- The failure that a node stands for, if it stands for one. -/
def report (source : List Char) (n : Node) : Failure :=
  if n.missing then .malformed (.missing n.kind.name) (.ofRegion n.region.forward)
  else .malformed (brokenCause (textIn source n.region.forward)) (.ofRegion n.region.forward)

mutual

theorem firstFault?_eq (source : List Char) : ∀ n : Node,
    n.toTree.firstFault? source = (n.preorder.find? isFault).map (report source)
  | ⟨kind, region, role, missing, children⟩ => by
    have ih := firstFaultIn?_eq source children
    rw [toTree, Tree.firstFault?, preorder, Label.name_ofKind]
    cases missing with
    | true => simp [isFault, report]
    | false =>
      by_cases hk : kind = .error
      · simp [isFault, isError, report, hk]
      · simp [isFault, isError, hk, ih]

theorem firstFaultIn?_eq (source : List Char) : ∀ ns : List Node,
    Tree.firstFaultIn? source (toTrees ns) = ((preorders ns).find? isFault).map (report source)
  | [] => rfl
  | n :: ns => by
    have ihn := firstFault?_eq source n
    have ihs := firstFaultIn?_eq source ns
    rw [toTrees, Tree.firstFaultIn?, preorders, List.find?_append, ihn, ihs]
    cases n.preorder.find? isFault <;> rfl

end

theorem find?_preorder_form (f : Form) (region : Region) (children : List Node) :
    (preorder { kind := .form f, region, children }).find? isFault =
      (preorders children).find? isFault := by
  rw [preorder]
  simp [isFault, isError]

/-- Where the nodes that stand for faults start, in preorder. -/
def marks (ns : List Node) : List Nat :=
  ((preorders ns).filter isFault).map (·.region.start.byte)

@[simp]
theorem marks_nil : marks [] = [] := rfl

theorem preorders_append (a b : List Node) : preorders (a ++ b) = preorders a ++ preorders b := by
  induction a with
  | nil => rfl
  | cons n a ih => rw [List.cons_append, preorders, preorders, ih, List.append_assoc]

@[simp]
theorem marks_append (a b : List Node) : marks (a ++ b) = marks a ++ marks b := by
  simp [marks, preorders_append]

theorem marks_cons (n : Node) (ns : List Node) :
    marks (n :: ns) =
      (if n.isFault then [n.region.start.byte] else []) ++ marks n.children ++ marks ns := by
  rw [marks, preorders, preorder_eq, List.cons_append, List.filter_cons]
  split <;> simp [marks]

@[simp]
theorem marks_form (f : Form) (region : Region) (children : List Node) :
    marks [{ kind := .form f, region, children }] = marks children := by
  simp [marks_cons, isFault, isError]

@[simp]
theorem marks_error (region : Region) :
    marks [{ kind := .error, region }] = [region.start.byte] := by
  simp [marks_cons, isFault, isError]

@[simp]
theorem marks_absent (k : TokenKind) (p : Position) : marks [absent k p] = [p.byte] := by
  simp [marks_cons, isFault, absent, Region.emptyAt]

@[simp]
theorem marks_map_inRole (ns : List Node) (r : Role) : marks (ns.map (·.inRole r)) = marks ns := by
  induction ns with
  | nil => rfl
  | cons n ns ih =>
    rw [List.map_cons, marks_cons, marks_cons, ih]
    rfl

end Node

/-! ## Marks between two places -/

namespace Stream

/-- Marks made on the way from one place to another: they stand between the two, in order, and in
front of each fault that was noted there is one of them. -/
structure Marks (s t : Stream) (fs : List Fault) (ms : List Nat) : Prop where
  inOrder : ms.Pairwise (· ≤ ·)
  after : ∀ m ∈ ms, s.gapPosition.byte ≤ m
  before : ∀ m ∈ ms, m ≤ t.gapPosition.byte
  noted : ∀ f ∈ fs, ∃ m ∈ ms, m ≤ f.region.start.byte

variable {s t u : Stream} {fs gs : List Fault} {ms ns : List Nat}

theorem marks_nil : s.Marks t [] [] := ⟨.nil, by simp, by simp, by simp⟩

theorem Marks.append (h : s.Marks u fs ms) (k : u.Marks t gs ns)
    (hs : s.gapPosition.byte ≤ u.gapPosition.byte) (ht : u.gapPosition.byte ≤ t.gapPosition.byte) :
    s.Marks t (fs ++ gs) (ms ++ ns) := by
  refine ⟨List.pairwise_append.2 ⟨h.inOrder, k.inOrder, fun m hm n hn => ?_⟩, fun m hm => ?_,
    fun m hm => ?_, fun f hf => ?_⟩
  · exact (h.before m hm).trans (k.after n hn)
  · exact (List.mem_append.1 hm).elim (h.after m) fun hm => hs.trans (k.after m hm)
  · exact (List.mem_append.1 hm).elim (fun hm => (h.before m hm).trans ht) (k.before m)
  · rcases List.mem_append.1 hf with hf | hf
    · obtain ⟨m, hm, hle⟩ := h.noted f hf
      exact ⟨m, List.mem_append_left _ hm, hle⟩
    · obtain ⟨m, hm, hle⟩ := k.noted f hf
      exact ⟨m, List.mem_append_right _ hm, hle⟩

end Stream

/-- The nodes of a rule have the marks made on its way. With the flag they have those of the nodes to
the left as well, in front. -/
def Outcome.Marked (carried : Bool) (left : List Node) (s : Stream) : Outcome → Prop
  | ok nodes fs t =>
    ∃ ms, Node.marks nodes = (if carried then Node.marks left else []) ++ ms ∧ s.Marks t fs ms
  | failed _ _ _ => True

/-! ## Rules leave marks -/

namespace Rule

/-- The rule recovers only from phrases, and only where a token is known to be ahead, of which the
flag tells. -/
@[simp]
def Recovers : Bool → Rule → Prop
  | e, seq a b => a.Recovers e ∧ b.Recovers false
  | e, feed a b => a.Recovers e ∧ b.Recovers false
  | e, as _ a => a.Recovers e
  | e, build _ a => a.Recovers e
  | e, fresh a => a.Recovers e
  | _, look g => ∀ a, (g a).Recovers (a.kind ≠ .eof)
  | e, recover a => e = true ∧ ∃ p, a = call p
  | _, _ => True

/-- A quiet rule recovers from nothing. -/
theorem recovers_of_quiet {r : Rule} (h : r.Quiet) : ∀ e, r.Recovers e := by
  induction r with
  | seq a b iha ihb | feed a b iha ihb => exact fun e => ⟨iha h.1 e, ihb h.2 false⟩
  | as _ a iha | build _ a iha | fresh a iha => exact iha h
  | look g ih => exact fun e a => ih a (h a) _
  | recover a => exact h.elim
  | _ => exact fun _ => trivial

/-- A phrase that is recovered from leaves a mark where it began, and all faults noted in it stand
behind this mark. -/
theorem recover_marked {f : Phrases} {fr : Frame} {s : Stream} {p : Phrase} (hf : f.Forward)
    (hs : s.Even) (hne : s.peek.kind ≠ .eof) (hp : p.Notes s (f p fr s))
    (hm : (f p fr s).Marked false fr.left s) :
    ((recover (call p)).apply f fr s).Marked false fr.left s := by
  cases h : f p fr s with
  | ok nodes fs t =>
    rw [h] at hm
    simpa only [apply, h] using hm
  | failed fault fs u =>
    obtain ⟨run, hrun⟩ := hf p fr s hs.proper
    rw [h] at hrun hp
    obtain ⟨more, hmore⟩ := Stream.resume_passes (hs.passes hrun).proper s
    have hall := hrun.trans hmore
    have hnil := hall.ne_nil_of_count_lt (Stream.resume_count_lt hs.proper hrun hne)
    obtain ⟨w, rfl⟩ := hp.stops
    simp only [apply, h]
    refine ⟨[s.position.byte], by simp [Stream.regionFrom_start], by simp, ?_, ?_, ?_⟩
    · simpa using hs.gap_le
    · simpa using hs.position_le_gap hall hnil
    · intro g hg
      refine ⟨s.position.byte, by simp, ?_⟩
      rcases List.mem_append.1 hg with hg | hg
      · exact hp.noted.after g hg
      · rw [List.mem_singleton.1 hg]
        exact hs.position_mono hrun

theorem apply_marked {f : Phrases} (hf : f.Forward)
    (hnotes : ∀ (p : Phrase) fr s, Stream.Even s → p.Notes s (f p fr s))
    (hmarks : ∀ (p : Phrase) fr s, Stream.Even s → (f p fr s).Marked p.carries fr.left s) :
    ∀ (r : Rule) (c e : Bool) (fr : Frame) (s : Stream), r.Carries c → r.Recovers e → s.Even →
      (e = true → s.peek.kind ≠ .eof) → (r.apply f fr s).Marked c fr.left s := by
  intro r
  induction r with
  | done | take | leaf =>
    intro c e fr s hc _ hs _
    obtain rfl : c = false := hc
    exact ⟨[], by simp, Stream.marks_nil⟩
  | keep =>
    intro c e fr s hc _ hs _
    obtain rfl : c = true := hc
    exact ⟨[], by simp, Stream.marks_nil⟩
  | refuse w => intro c e fr s _ _ _ _; trivial
  | expect k =>
    intro c e fr s hc _ hs _
    obtain rfl : c = false := hc
    simp only [apply]
    split
    · exact ⟨[], by simp, Stream.marks_nil⟩
    · trivial
  | closing k =>
    intro c e fr s hc _ hs _
    obtain rfl : c = false := hc
    simp only [apply]
    split
    · exact ⟨[], by simp, Stream.marks_nil⟩
    · exact ⟨[s.gapPosition.byte], by simp, by simp, by simp, by simp,
        by simp [Fault.absent, Region.emptyAt]⟩
  | seq a b iha ihb =>
    intro c e fr s hc hr hs hp
    cases h : (seq a b).apply f fr s with
    | failed _ _ _ => trivial
    | ok nodes fs t =>
      obtain ⟨na, ga, u, nb, gb, ha, hb, rfl, rfl⟩ := seq_eq_ok.1 h
      obtain ⟨ra, pa⟩ := apply_passes hf a fr s hs.proper
      rw [ha, Outcome.stream_ok] at pa
      obtain ⟨rb, pb⟩ := apply_passes hf b fr u (hs.passes pa).proper
      rw [hb, Outcome.stream_ok] at pb
      have hma := iha c e fr s hc.1 hr.1 hs hp
      have hmb := ihb false false fr u hc.2 hr.2 (hs.passes pa) (by simp)
      rw [ha] at hma
      rw [hb] at hmb
      obtain ⟨ma, hna, hma⟩ := hma
      obtain ⟨mb, hnb, hmb⟩ := hmb
      refine ⟨ma ++ mb, ?_, hma.append hmb (hs.gap_mono pa) ((hs.passes pa).gap_mono pb)⟩
      rw [Node.marks_append, hna, hnb]
      simp
  | feed a b iha ihb =>
    intro c e fr s hc hr hs hp
    cases h : (feed a b).apply f fr s with
    | failed _ _ _ => trivial
    | ok nodes fs t =>
      obtain ⟨na, ga, u, gb, ha, hb, rfl⟩ := feed_eq_ok.1 h
      obtain ⟨ra, pa⟩ := apply_passes hf a fr s hs.proper
      rw [ha, Outcome.stream_ok] at pa
      obtain ⟨rb, pb⟩ := apply_passes hf b { fr with left := na } u (hs.passes pa).proper
      rw [hb, Outcome.stream_ok] at pb
      have hma := iha c e fr s hc.1 hr.1 hs hp
      have hmb := ihb true false { fr with left := na } u hc.2 hr.2 (hs.passes pa) (by simp)
      rw [ha] at hma
      rw [hb] at hmb
      obtain ⟨ma, hna, hma⟩ := hma
      obtain ⟨mb, hnb, hmb⟩ := hmb
      refine ⟨ma ++ mb, ?_, hma.append hmb (hs.gap_mono pa) ((hs.passes pa).gap_mono pb)⟩
      rw [hnb, if_pos rfl, hna, List.append_assoc]
  | as r a iha =>
    intro c e fr s hc hr hs hp
    have hm := iha c e fr s hc hr hs hp
    cases h : (as r a).apply f fr s with
    | failed _ _ _ => trivial
    | ok nodes fs t =>
      obtain ⟨na, ha, rfl⟩ := as_eq_ok.1 h
      rw [ha] at hm
      simpa [Outcome.Marked] using hm
  | build g a iha =>
    intro c e fr s hc hr hs hp
    have hm := iha c e fr s hc hr hs hp
    cases h : (build g a).apply f fr s with
    | failed _ _ _ => trivial
    | ok nodes fs t =>
      obtain ⟨na, ha, rfl⟩ := build_eq_ok.1 h
      rw [ha] at hm
      simpa [Outcome.Marked] using hm
  | fresh a iha =>
    intro c e fr s hc hr hs hp
    obtain ⟨rfl, hc⟩ := hc
    exact iha false e { start := s.position } s hc hr hs hp
  | look g ih =>
    intro c e fr s hc hr hs _
    exact ih s.look c _ fr s (hc s.look) (hr s.look) hs (by simp)
  | call p =>
    intro c e fr s hc _ hs _
    obtain rfl : c = p.carries := hc
    exact hmarks p fr s hs
  | recover a iha =>
    intro c e fr s hc hr hs hp
    obtain ⟨rfl, hc⟩ := hc
    obtain ⟨he, p, rfl⟩ := hr
    have hm := hmarks p fr s hs
    rw [← (hc : false = p.carries)] at hm
    exact recover_marked hf hs (hp he) (hnotes p fr s hs) hm

end Rule

namespace Grammar

open Rule

theorem statement_recovers : statement.Recovers false := by
  have args := recovers_of_quiet argumentList_quiet
  have binds := recovers_of_quiet bindingList_quiet
  have params := recovers_of_quiet parameterList_quiet
  have tail : ∀ e, callTail.Recovers e := by
    intro e a
    dsimp only
    split <;> trivial
  rintro ⟨k, x, k2⟩
  cases k with
  | identifier =>
    show (namedStatement _).Recovers true
    unfold namedStatement
    split
    · split_ifs <;> simp [node, all, boundStatement, assertStatement, moduleCall, binds, args, tail]
    · simp [node, all, declaration, expression]
    · simp [node, all, moduleCall, args, tail]
  | _ =>
    simp [node, all, moduleItem, functionItem, boundStatement, ifStatement, fileStatement,
      unionBlock, declaration, expression, binds, params]
    all_goals
      intro a
      split <;> simp

theorem rule_recovers (p : Phrase) : (rule p).Recovers false := by
  cases p with
  | items | blockItems =>
    rintro ⟨k, x, k2⟩
    cases k <;> simp
  | statement => exact statement_recovers
  | body =>
    intro a
    dsimp only
    split <;> trivial
  | _ => exact recovers_of_quiet (rule_quiet _ rfl) _

theorem parsePhrase_marked (p : Phrase) (fr : Frame) (s : Stream) (hs : s.Even) :
    (parsePhrase p fr s).Marked p.carries fr.left s := by
  have both := parsePhrase_induct_proper
    (P := fun p fr s o => s.Even → p.Notes s o ∧ o.Marked p.carries fr.left s) ?_ ?_ p fr s
    hs.proper hs
  · exact both.2
  · intro p fr s _
    exact ⟨refused_notes p s, trivial⟩
  · intro f forward eating hf p fr s _ hs
    have hnotes : ∀ (p : Phrase) fr s, Stream.Even s → p.Notes s (f p fr s) :=
      fun p fr s hs => (hf p fr s hs.proper hs).1
    refine ⟨rule_notes forward eating hnotes p fr s hs, ?_⟩
    exact apply_marked forward hnotes (fun p fr s hs => (hf p fr s hs.proper hs).2) (rule p)
      p.carries false fr s (rule_carries p) (rule_recovers p) hs (by simp)

end Grammar

/-! ## The tree of a source -/

namespace SyntaxTree

/-- The first node that stands for a fault stands before every fault that was noted. -/
theorem exists_first_fault {source : List Char} (h : (ofSource source).faults ≠ []) :
    ∃ n, (ofSource source).root.preorder.find? Node.isFault = some n ∧
      ∀ f ∈ (ofSource source).faults, n.region.start.byte ≤ f.region.start.byte := by
  obtain ⟨nodes, fs, t, hparse, htree⟩ := ofSource_eq source
  have hmarked := Grammar.parsePhrase_marked .items { start := {} } _ (Stream.start_even source)
  rw [hparse] at hmarked
  obtain ⟨ms, hms, hm⟩ := hmarked
  rw [htree] at h ⊢
  rw [Node.find?_preorder_form, ← List.head?_filter]
  have hmarks : ((Node.preorders nodes).filter Node.isFault).map (·.region.start.byte) = ms := hms
  cases hfaults : (Node.preorders nodes).filter Node.isFault with
  | nil =>
    -- without a node that stands for a fault there is no mark, and so there is no fault
    obtain ⟨f, hf⟩ := List.exists_mem_of_ne_nil _ h
    obtain ⟨m, hmem, -⟩ := hm.noted f hf
    simp [← hmarks, hfaults] at hmem
  | cons n rest =>
    refine ⟨n, rfl, fun f hf => ?_⟩
    obtain ⟨m, hmem, hle⟩ := hm.noted f hf
    have horder := hm.inOrder
    rw [← hmarks, hfaults, List.map_cons] at hmem horder
    rcases List.mem_cons.1 hmem with rfl | hmem
    · exact hle
    · exact ((List.pairwise_cons.1 horder).1 m hmem).trans hle

end SyntaxTree

namespace Program

theorem parse_eq_report {source : List Char} {n : Node}
    (h : (SyntaxTree.ofSource source).root.preorder.find? Node.isFault = some n) :
    Program.parse source = .error (n.report source) := by
  have hfirst := Node.firstFault?_eq source (SyntaxTree.ofSource source).root
  rw [h, Option.map_some] at hfirst
  rw [Program.parse, Program.ofTree, hfirst]

/-- A source with faults is refused for the first node in preorder that is an error node or stands
for a missing token, at the place of that node; and no fault that was noted stands before it. -/
theorem parse_reports_first_fault (source : List Char)
    (h : (SyntaxTree.ofSource source).faults ≠ []) :
    ∃ n cause, (SyntaxTree.ofSource source).root.preorder.find? Node.isFault = some n ∧
      Program.parse source = .error (.malformed cause (.ofRegion n.region)) ∧
      cause.isFault = true ∧
      ∀ f ∈ (SyntaxTree.ofSource source).faults, n.region.start.byte ≤ f.region.start.byte := by
  obtain ⟨n, hn, hle⟩ := SyntaxTree.exists_first_fault h
  have hparse := parse_eq_report hn
  have hup := SyntaxTree.root_upright source n
    (Node.within_of_mem_preorder (List.mem_of_find?_eq_some hn))
  have hfault : n.missing = true ∨ n.kind = .error := by
    simpa [Node.isFault, Node.isError] using List.find?_some hn
  rw [Node.report, hup hfault] at hparse
  split at hparse
  · exact ⟨n, _, hn, hparse, rfl, hle⟩
  · exact ⟨n, _, hn, hparse, isFault_brokenCause _, hle⟩

/-- A statement that fails loses the parenthesis that it misses first: the error node that is
reported starts where the statement does. -/
theorem parse_reports_failed_statement :
    (SyntaxTree.ofSource "\x7b b(2 = 3; \x7d".toList).faults.map (·.region.start.byte) = [5, 6] ∧
      ∃ n cause,
        (SyntaxTree.ofSource "\x7b b(2 = 3; \x7d".toList).root.preorder.find? Node.isFault = some n ∧
        n.region.start.byte = 2 ∧
        Program.parse "\x7b b(2 = 3; \x7d".toList =
          .error (.malformed cause (.ofRegion n.region)) ∧
        cause.isFault = true := by
  have hfaults : (SyntaxTree.ofSource "\x7b b(2 = 3; \x7d".toList).faults.map
      (·.region.start.byte) = [5, 6] := by decide +kernel
  have hstart : ((SyntaxTree.ofSource "\x7b b(2 = 3; \x7d".toList).root.preorder.find?
      Node.isFault).map (·.region.start.byte) = some 2 := by decide +kernel
  obtain ⟨n, cause, hn, hparse, hcause, -⟩ :=
    parse_reports_first_fault "\x7b b(2 = 3; \x7d".toList fun h => by
      rw [h] at hfaults
      cases hfaults
  rw [hn] at hstart
  exact ⟨hfaults, n, cause, hn, Option.some.inj hstart, hparse, hcause⟩

end Program
end Scad
