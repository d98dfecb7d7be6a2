import TagFlow.Proofs.Flow.Sweep
import TagFlow.Proofs.Policy.Rescan

/-! # Rescans without loops

Where the dataflow has no loop the passes settle whatever the rules are. An operation that
reads only settled results settles at its next visit and is never written again, and there
is always such an operation until all are settled, so that every pass settles one more. Where
every operation comes after those it reads, the first pass settles all of them. Following the
dataflow, the equations have no other solution than what the passes settle on.
-/

namespace TagFlow

namespace Rescan

variable {book : RuleBook} {m : Module} {marks : MarkMap} {o : Operation}
  {settled : List OperationId}

/-- The operation writes a result that `p` reads. -/
def Supplies (o p : Operation) : Prop :=
  o.operator ∈ Sql.operators ∧ Value.default o.id ∈ p.inputs

/-- The settled operations satisfy their equations, and read no result of an operation that
is not settled. -/
structure Frozen (book : RuleBook) (m : Module) (settled : List OperationId) (marks : MarkMap) :
    Prop where
  solved : ∀ o, o ∈ m.operations → o.id ∈ settled → Solved book marks o
  closed : ∀ o, o ∈ m.operations → o.id ∈ settled → ∀ p, p ∈ m.operations → Supplies p o →
    p.id ∈ settled

/-- The operation reads settled results only. -/
def Ready (m : Module) (settled : List OperationId) (o : Operation) : Prop :=
  ∀ p, p ∈ m.operations → Supplies p o → p.id ∈ settled

theorem Frozen.nil : Frozen book m [] marks where
  solved o _ h := absurd h (by simp)
  closed o _ h := absurd h (by simp)

theorem agree_insert {p : Operation} (unread : Value.default o.id ∉ p.inputs) (new : Marks) :
    Agree p marks (marks.insert (.default o.id) new) := by
  intro v hv
  have hne : v ≠ .default o.id := fun e => unread (e ▸ hv)
  rw [OrdMap.find?_insert_of_ne marks new hne]

theorem Solved.insert {p : Operation} {new : Marks} (h : Solved book marks p)
    (other : p.id ≠ o.id) (unread : Value.default o.id ∉ p.inputs) :
    Solved book (marks.insert (.default o.id) new) p := by
  have hown : Value.default p.id ≠ Value.default o.id := by
    simpa [Value.default] using other
  unfold Solved
  rw [← (agree_insert unread new).transfer_eq, OrdMap.find?_insert_of_ne marks new hown]
  exact h

theorem Solved.insert_self {new : Marks} (ht : transfer book marks o = .ok (some new))
    (unread : Value.default o.id ∉ o.inputs) :
    Solved book (marks.insert (.default o.id) new) o :=
  .inr ⟨new, (agree_insert unread new).transfer_eq ▸ ht, OrdMap.find?_insert_self _ _ _⟩

/-! ## One visit -/

theorem Frozen.visit (frozen : Frozen book m settled marks) (ho : o ∈ m.operations)
    {changed : Bool} {s' : MarkMap × Bool} (hv : visit book (marks, changed) o = .ok s') :
    Frozen book m settled s'.1 := by
  by_cases hin : o.id ∈ settled
  · rw [visit_of_solved (frozen.solved o ho hin)] at hv
    cases hv
    exact frozen
  · rcases visit_cases hv with ⟨rfl, -⟩ | ⟨new, ht, rfl⟩
    · exact frozen
    · refine ⟨?_, frozen.closed⟩
      intro p hp hpin
      have other : p.id ≠ o.id := fun e => hin (e ▸ hpin)
      have unread : Value.default o.id ∉ p.inputs := by
        intro hread
        exact hin (frozen.closed p hp hpin o ho ⟨mem_operators_of_transfer ht, hread⟩)
      exact (frozen.solved p hp hpin).insert other unread

theorem Frozen.visit_ready (distinct : (m.operations.map (·.id)).Nodup) (acyclic : m.Acyclic)
    (frozen : Frozen book m settled marks) (ho : o ∈ m.operations) (ready : Ready m settled o)
    {changed : Bool} {s' : MarkMap × Bool} (hv : Rescan.visit book (marks, changed) o = .ok s') :
    Frozen book m (o.id :: settled) s'.1 := by
  have kept := frozen.visit ho hv
  have unread : Value.default o.id ∉ o.inputs := by
    intro hread
    exact acyclic o.id (.single (Module.feeds_of_reads ho hread))
  have own : Solved book s'.1 o := by
    rcases visit_cases hv with ⟨rfl, solved⟩ | ⟨new, ht, rfl⟩
    · exact solved
    · exact Solved.insert_self ht unread
  constructor
  · intro p hp hpin
    rcases List.mem_cons.mp hpin with hid | hpin
    · rw [List.inj_on_of_nodup_map distinct hp ho hid]
      exact own
    · exact kept.solved p hp hpin
  · intro p hp hpin q hq hsupplies
    rcases List.mem_cons.mp hpin with hid | hpin
    · rw [List.inj_on_of_nodup_map distinct hp ho hid] at hsupplies
      exact List.mem_cons_of_mem _ (ready q hq hsupplies)
    · exact List.mem_cons_of_mem _ (kept.closed p hp hpin q hq hsupplies)

/-! ## One pass -/

/-- A pass settles every operation that was ready before it. -/
theorem Frozen.pass (distinct : (m.operations.map (·.id)).Nodup) (acyclic : m.Acyclic)
    (frozen : Frozen book m settled marks) (ho : o ∈ m.operations) (ready : Ready m settled o)
    {s' : MarkMap × Bool} (h : pass book m marks = .ok s') :
    Frozen book m (o.id :: settled) s'.1 := by
  have kept := Outcome.foldlM_keeps
    (fun done (s : MarkMap × Bool) => Frozen book m settled s.1 ∧
      (o ∈ done → Frozen book m (o.id :: settled) s.1))
    ⟨frozen, by simp⟩ ?_ h
  · exact kept.2 ho
  · intro done p s s' hp ih hv
    refine ⟨ih.1.visit hp hv, ?_⟩
    intro hdone
    rcases List.mem_append.mp hdone with hdone | hdone
    · exact (ih.2 hdone).visit hp hv
    · have same := List.mem_singleton.mp hdone
      subst same
      exact ih.1.visit_ready distinct acyclic ho ready hv

def unsettled (m : Module) (settled : List OperationId) : List Operation :=
  m.operations.filter fun o => o.operator ∈ Sql.operators ∧ o.id ∉ settled

theorem mem_unsettled :
    o ∈ unsettled m settled ↔
      o ∈ m.operations ∧ o.operator ∈ Sql.operators ∧ o.id ∉ settled := by
  simp [unsettled]

theorem unsettled_cons_lt (h : o ∈ unsettled m settled) :
    (unsettled m (o.id :: settled)).length < (unsettled m settled).length := by
  have hsplit : unsettled m (o.id :: settled) =
      (unsettled m settled).filter fun p => p.id ≠ o.id := by
    simp only [unsettled, List.filter_filter]
    apply List.filter_congr
    intro p _
    rw [← Bool.decide_and, decide_eq_decide, List.mem_cons, not_or]
    tauto
  rw [hsplit]
  exact List.length_filter_lt_length_iff_exists.mpr ⟨o, h, by simp⟩

/-- As long as some operation is not settled, one of them is ready. -/
theorem exists_ready (acyclic : m.Acyclic) (h : unsettled m settled ≠ []) :
    ∃ o, o ∈ unsettled m settled ∧ Ready m settled o := by
  obtain ⟨first, hfirst⟩ := List.exists_mem_of_ne_nil _ h
  suffices back : ∀ id o, o ∈ unsettled m settled → o.id = id →
      ∃ o, o ∈ unsettled m settled ∧ Ready m settled o from back first.id first hfirst rfl
  intro id
  induction id using acyclic.wellFounded.induction with
  | _ id ih =>
      intro o ho hid
      by_cases ready : Ready m settled o
      · exact ⟨o, ho, ready⟩
      · unfold Ready at ready
        push Not at ready
        obtain ⟨p, hp, hsupplies, hleft⟩ := ready
        have hfeeds := Module.feeds_of_reads (mem_unsettled.mp ho).1 hsupplies.2
        rw [hid] at hfeeds
        exact ih p.id hfeeds p (mem_unsettled.mpr ⟨hp, hsupplies.1, hleft⟩) rfl

theorem Frozen.pass_unchanged (frozen : Frozen book m settled marks)
    (all : unsettled m settled = []) {s' : MarkMap × Bool} (h : Rescan.pass book m marks = .ok s') :
    s' = (marks, false) := by
  apply Outcome.foldlM_keeps (fun _ (s : MarkMap × Bool) => s = (marks, false)) rfl _ h
  intro _ o s s' ho hs hv
  subst hs
  rcases visit_cases hv with ⟨rfl, -⟩ | ⟨new, ht, -⟩
  · rfl
  · have hin : o.id ∈ settled := by
      by_contra hleft
      have hmem := mem_unsettled.mpr ⟨ho, mem_operators_of_transfer ht, hleft⟩
      rw [all] at hmem
      cases hmem
    rw [visit_of_solved (frozen.solved o ho hin), Except.ok.injEq] at hv
    exact hv.symm

/-! ## All passes -/

/-- Without loops there is at most one pass for each operation that is left, and one more. -/
theorem Frozen.run_total (distinct : (m.operations.map (·.id)).Nodup) (acyclic : m.Acyclic)
    (accepts : ∀ o, o ∈ m.operations → Accepts book o) {limit : Nat} {f : Fixpoint}
    (frozen : Frozen book m settled f.marks) (enough : (unsettled m settled).length < limit) :
    ∃ f', run book m limit f = .ok (some f') ∧
      f'.passes ≤ f.passes + (unsettled m settled).length + 1 := by
  induction limit generalizing f settled with
  | zero => omega
  | succ limit ih =>
      obtain ⟨⟨marks, changed⟩, hp⟩ := pass_total accepts f.marks
      cases changed with
      | false =>
          refine ⟨⟨marks, f.passes + 1⟩, ?_, by simp only; omega⟩
          rw [run, hp]
          rfl
      | true =>
          have hleft : unsettled m settled ≠ [] := by
            intro all
            cases frozen.pass_unchanged all hp
          obtain ⟨o, ho, ready⟩ := exists_ready acyclic hleft
          have frozen' := frozen.pass distinct acyclic (mem_unsettled.mp ho).1 ready hp
          have hlt := unsettled_cons_lt ho
          obtain ⟨f', hrun, hpasses⟩ := ih (f := ⟨marks, f.passes + 1⟩) frozen' (by omega)
          refine ⟨f', ?_, by simp only at hpasses; omega⟩
          rw [run, hp]
          exact hrun

theorem length_lt_passLimit (book : RuleBook) (m : Module) :
    m.operations.length < passLimit book m := by
  have hbase : 2 ≤ 4 ^ book.tagNames.length + 1 := by
    have := Nat.one_le_pow book.tagNames.length 4 (by omega)
    omega
  calc
    m.operations.length < 2 ^ m.operations.length := Nat.lt_two_pow_self
    _ ≤ (4 ^ book.tagNames.length + 1) ^ m.operations.length := Nat.pow_le_pow_left hbase _
    _ < passLimit book m := Nat.lt_succ_self _

theorem fixpoint_passes_of_acyclic (distinct : (m.operations.map (·.id)).Nodup)
    (acyclic : m.Acyclic) (accepts : ∀ o, o ∈ m.operations → Accepts book o) :
    ∃ f, fixpoint book m = .ok (some f) ∧ f.passes ≤ (unsettled m []).length + 1 := by
  have enough : (unsettled m []).length < passLimit book m := by
    calc
      (unsettled m []).length ≤ m.operations.length := List.length_filter_le _ _
      _ < passLimit book m := length_lt_passLimit book m
  obtain ⟨f, hf, hpasses⟩ :=
    Frozen.run_total (f := {}) distinct acyclic accepts Frozen.nil enough
  exact ⟨f, hf, by simpa using hpasses⟩

theorem fixpoint_total_of_acyclic (distinct : (m.operations.map (·.id)).Nodup)
    (acyclic : m.Acyclic) (accepts : ∀ o, o ∈ m.operations → Accepts book o) :
    ∃ f, fixpoint book m = .ok (some f) := by
  obtain ⟨f, hf, -⟩ := fixpoint_passes_of_acyclic distinct acyclic accepts
  exact ⟨f, hf⟩

/-! ## Operations in the order of the dataflow -/

/-- Whatever feeds an operation comes before it, so that it is ready when it is visited. -/
theorem ready_of_ordered (acyclic : m.Acyclic) (ordered : m.DependencyOrder m.operations)
    {done : List Operation} (next : done ++ [o] <+: m.operations) :
    Ready m (done.map (·.id)).reverse o := by
  obtain ⟨rest, hsplit⟩ := next
  have ho : o ∈ m.operations := by simp [← hsplit]
  intro p hp hsupplies
  have hfeeds := Module.feeds_of_reads ho hsupplies.2
  rw [← hsplit, List.append_assoc, List.mem_append, List.mem_append, List.mem_singleton] at hp
  rcases hp with before | rfl | after
  · simpa using ⟨p, before, rfl⟩
  · exact absurd (.single hfeeds) (acyclic p.id)
  · have apart := ordered.before
    rw [← hsplit, List.pairwise_append] at apart
    exact absurd hfeeds (apart.2.2 o (by simp) p after)

theorem Frozen.pass_ordered (distinct : (m.operations.map (·.id)).Nodup) (acyclic : m.Acyclic)
    (ordered : m.DependencyOrder m.operations)
    (accepts : ∀ o, o ∈ m.operations → Accepts book o) {s' : MarkMap × Bool}
    (h : Rescan.pass book m marks = .ok s') :
    Frozen book m (m.operations.map (·.id)).reverse s'.1 := by
  obtain ⟨s, hs, frozen⟩ := Outcome.foldlM_total (f := Rescan.visit book) (l := m.operations)
    (s := (marks, false))
    (fun done (s : MarkMap × Bool) => Frozen book m (done.map (·.id)).reverse s.1) Frozen.nil (by
      intro done o s next frozen
      have ho := Outcome.mem_of_concat_isPrefix next
      obtain ⟨s', hs'⟩ := visit_total (accepts o ho) s
      have settled := frozen.visit_ready distinct acyclic ho
        (ready_of_ordered acyclic ordered next) hs'
      exact ⟨s', hs', by simpa using settled⟩)
  rw [Rescan.pass, hs, Except.ok.injEq] at h
  exact h ▸ frozen

theorem passes_le_two (distinct : (m.operations.map (·.id)).Nodup) (acyclic : m.Acyclic)
    (ordered : m.DependencyOrder m.operations)
    (accepts : ∀ o, o ∈ m.operations → Accepts book o) {f : Fixpoint}
    (h : fixpoint book m = .ok (some f)) : f.passes ≤ 2 := by
  obtain ⟨marks, changed, hp, ⟨-, hrun⟩ | ⟨-, rfl⟩⟩ := run_succ_cases h
  · have frozen := Frozen.pass_ordered distinct acyclic ordered accepts hp
    have none : unsettled m (m.operations.map (·.id)).reverse = [] := by
      rw [List.eq_nil_iff_forall_not_mem]
      intro o ho
      obtain ⟨hm, -, hout⟩ := mem_unsettled.mp ho
      exact hout (List.mem_reverse.mpr (List.mem_map_of_mem hm))
    cases hlimit : Nat.pow (Nat.pow 4 book.tagNames.length + 1) m.operations.length with
    | zero =>
        rw [hlimit] at hrun
        cases hrun
    | succ limit =>
        rw [hlimit] at hrun
        have enough : (unsettled m (m.operations.map (·.id)).reverse).length < limit + 1 := by
          simp [none]
        obtain ⟨f', hrun', hpasses⟩ :=
          Frozen.run_total (f := ⟨marks, 1⟩) distinct acyclic accepts frozen enough
        rw [show (({} : Fixpoint).passes + 1) = 1 from rfl, hrun', Except.ok.injEq,
          Option.some.injEq] at hrun
        subst hrun
        simpa [none] using hpasses
  · exact Nat.le_succ 1

/-! ## One solution -/

/-- Where the marks of what an operation reads are the same, so are its own. -/
theorem Solution.unique (acyclic : m.Acyclic) {x y : MarkMap} (hx : Solution book m x)
    (hy : Solution book m y) : x = y := by
  have absent : ∀ v, (¬ ∃ o, o ∈ m.operations ∧ o.operator ∈ Sql.operators ∧
      v = .default o.id) → x.find? v = y.find? v := by
    intro v outside
    rw [Option.eq_none_iff_forall_ne_some.mpr fun new hf => outside ((hx.entries v).mp ⟨new, hf⟩),
      Option.eq_none_iff_forall_ne_some.mpr fun new hf => outside ((hy.entries v).mp ⟨new, hf⟩)]
  have own : ∀ id o, o ∈ m.operations → o.operator ∈ Sql.operators → o.id = id →
      x.find? (.default o.id) = y.find? (.default o.id) := by
    intro id
    induction id using acyclic.wellFounded.induction with
    | _ id ih =>
        intro o ho hop hid
        obtain ⟨a, ha, hfa⟩ := hx.equations o ho hop
        obtain ⟨b, hb, hfb⟩ := hy.equations o ho hop
        have agree : Agree o x y := by
          intro v hv
          by_cases inside : ∃ p, p ∈ m.operations ∧ p.operator ∈ Sql.operators ∧
              v = .default p.id
          · obtain ⟨p, hp, hpop, rfl⟩ := inside
            exact ih p.id (hid ▸ Module.feeds_of_reads ho hv) p hp hpop rfl
          · exact absent v inside
        rw [agree.transfer_eq, hb, Except.ok.injEq, Option.some.injEq] at ha
        rw [hfa, hfb, ha]
  apply OrdMap.ext
  intro v
  by_cases inside : ∃ o, o ∈ m.operations ∧ o.operator ∈ Sql.operators ∧ v = .default o.id
  · obtain ⟨o, ho, hop, rfl⟩ := inside
    exact own o.id o ho hop rfl
  · exact absent v inside

/-- Without loops the passes settle under every rule book, after one pass for each SQL operation
and one more, and after two when the operations are in the order of the dataflow. What they
settle on is the only solution of the equations. -/
theorem fixpoint_unique_of_acyclic (distinct : (m.operations.map (·.id)).Nodup)
    (acyclic : m.Acyclic)
    (evaluable : ∀ o, o ∈ m.operations → ∃ marks r, transfer book marks o = .ok r) :
    ∃ f, fixpoint book m = .ok (some f) ∧
      f.passes ≤ (m.operations.filter fun o => o.operator ∈ Sql.operators).length + 1 ∧
      (m.DependencyOrder m.operations → f.passes ≤ 2) ∧
      Solution book m f.marks ∧ ∀ x, Solution book m x → x = f.marks := by
  have accepts := accepts_of_evaluable evaluable
  have every : unsettled m [] = m.operations.filter fun o => o.operator ∈ Sql.operators := by
    simp [unsettled]
  obtain ⟨f, hf, hpasses⟩ := fixpoint_passes_of_acyclic distinct acyclic accepts
  have solution := run_solution hf
  exact ⟨f, hf, every ▸ hpasses, fun ordered => passes_le_two distinct acyclic ordered accepts hf,
    solution, fun _ other => other.unique acyclic solution⟩

/-! ## Declared backwards -/

namespace Backwards

/-- Every operation stands before what it reads. The release waits for a review, and the
scrubbing of the same tag does not. -/
def root : Module :=
  ⟨0, [⟨0, none, .empty, .empty, .empty,
    [.standalone 6 Sql.output [] [.result 5 0],
      .standalone 5 Sql.merge [(Sql.controlStart, .integer 2)] [.result 3 0, .result 4 0],
      .standalone 4 Sql.tagTransform [(Sql.ruleName, .text "scrub")] [.result 1 0],
      .standalone 3 Sql.tagTransform
        [(Sql.ruleName, .text "release"), ("reviewer", .integer 1)] [.result 1 0, .result 2 0],
      .standalone 2 Sql.tagTransform [(Sql.ruleName, .text "review")] [.result 1 0],
      .standalone 1 Sql.tagTransform [(Sql.ruleName, .text "classify")] [.result 0 0],
      .standalone 0 Sql.literal [] []]⟩]⟩

def rules : List PolicyRule :=
  [⟨"classify", .addConfidentiality, "secret", []⟩, ⟨"review", .addIntegrity, "reviewed", []⟩,
    ⟨"release", .removeConfidentiality, "secret", [⟨"reviewer", "reviewed"⟩]⟩,
    ⟨"scrub", .removeConfidentiality, "secret", []⟩]

theorem acyclic : root.Acyclic :=
  (Module.linked_acyclic_of_rank id (by decide) (by unfold Module.Flat; decide) (by decide)).2

theorem fixpoint_unique_of_acyclic_root :
    (root.operations.map (·.id)).Nodup ∧ root.Acyclic ∧
      ∃ book f, RuleBook.ofRules rules = .ok book ∧
        (∀ o, o ∈ root.operations → ∃ marks r, transfer book marks o = .ok r) ∧
        fixpoint book root = .ok (some f) ∧ f.passes ≤ 8 ∧ Solution book root f.marks ∧
          ∀ x, Solution book root x → x = f.marks := by
  have distinct : (root.operations.map (·.id)).Nodup := by decide
  obtain ⟨book, hbook, onNothing⟩ : ∃ book, RuleBook.ofRules rules = .ok book ∧
      ∀ o, o ∈ root.operations → (transfer book .empty o).isOk = true :=
    ⟨_, rfl, by decide⟩
  have evaluable := evaluable_of_isOk onNothing
  obtain ⟨f, hf, hpasses, -, solution, unique⟩ :=
    fixpoint_unique_of_acyclic distinct acyclic evaluable
  exact ⟨distinct, acyclic, book, f, hbook, evaluable, hf, hpasses, solution, unique⟩

end Backwards

end Rescan

end TagFlow
