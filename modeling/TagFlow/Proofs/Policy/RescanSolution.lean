import TagFlow.Proofs.Policy.Guards

/-! # What the passes settle on

Operations write their marks while a pass goes on, so each is evaluated on what those before it
have just written. Only the last pass, which writes nothing, has evaluated them all on the same
marks, and these solve all equations at once, also where operations share an id and hence an
entry. Tags do not come from nowhere: each was brought in by a tag transform of the module whose
rule adds it.
-/

namespace TagFlow

namespace Rescan

variable {book : RuleBook} {m : Module} {marks : MarkMap} {o : Operation}

def Brings (rules : List PolicyRule) (book : RuleBook) (m : Module) (action : RuleAction)
    (tag : Tag) : Prop :=
  ∃ rule o, rule ∈ rules ∧ rule.action = action ∧ book.tag? rule.tag = some tag ∧
    o ∈ m.operations ∧ o.operator = Sql.tagTransform ∧ o.ruleName = .ok rule.name

theorem Alters.brings {rules : List PolicyRule} (holds : book.Holds rules)
    (ho : o ∈ m.operations) (hop : o.operator = Sql.tagTransform) {action : RuleAction} {tag : Tag}
    (h : Alters book marks o action tag) : Brings rules book m action tag := by
  obtain ⟨rule, hrule, hname, haction, htag⟩ := h.exists_rule holds
  exact ⟨rule, o, hrule, haction, htag, ho, hop, hname⟩

theorem run_confined {rules : List PolicyRule} (holds : book.Holds rules) {limit : Nat}
    {f : Fixpoint} (h : run book m limit {} = .ok (some f)) :
    Confined (Brings rules book m .addConfidentiality) (Brings rules book m .addIntegrity)
      f.marks := by
  refine run_keeps _ ?_ Confined.empty h
  intro o marks new ho confined ht
  exact confined.insert ht (fun _ hop alters => alters.brings holds ho hop)
    fun _ hop alters => alters.brings holds ho hop

/-- However many passes it takes and whichever ids and loops there are, the marks that the passes
settle on are those of the SQL operations and no others, each as its operation gives it on these
same marks. Every tag is that of a rule: as secrecy of one that adds confidentiality, as
integrity of one that adds integrity, named by a tag transform of the module. -/
theorem run_solves_equations {rules : List PolicyRule} {limit : Nat} {f : Fixpoint}
    (hbook : RuleBook.ofRules rules = .ok book) (h : run book m limit {} = .ok (some f)) :
    (∀ o, o ∈ m.operations → o.operator ∈ Sql.operators →
        ∃ new, transfer book f.marks o = .ok (some new) ∧
          f.marks.find? (.default o.id) = some new) ∧
      (∀ v, (∃ new, f.marks.find? v = some new) ↔
        ∃ o, o ∈ m.operations ∧ o.operator ∈ Sql.operators ∧ v = .default o.id) ∧
      ∀ v new, f.marks.find? v = some new →
        (∀ tag, tag ∈ new.secrecy → Brings rules book m .addConfidentiality tag) ∧
          ∀ tag, tag ∈ new.integrity → Brings rules book m .addIntegrity tag := by
  have solution := run_solution h
  exact ⟨solution.equations, solution.entries, run_confined (RuleBook.holds_ofRules hbook) h⟩

/-! ## Two operations with one entry -/

namespace Shared

/-- A transform and a merge have the id 1, and the merge reads the entry that they share.
Operations 2 and 3 form a loop, and the release waits for a review that comes after it.
Operation 6 is not of the SQL front end. -/
def root : Module :=
  ⟨0, [⟨0, none, .empty, .empty, .empty,
    [.standalone 0 Sql.literal [] [],
      .standalone 1 Sql.tagTransform [(Sql.ruleName, .text "classify")] [.result 0 0],
      .standalone 1 Sql.merge [(Sql.controlStart, .integer 1)] [.result 1 0],
      .standalone 2 Sql.merge [(Sql.controlStart, .integer 2)] [.result 1 0, .result 3 0],
      .standalone 3 Sql.tagTransform [(Sql.ruleName, .text "review")] [.result 2 0],
      .standalone 4 Sql.tagTransform
        [(Sql.ruleName, .text "release"), ("reviewer", .integer 1)] [.result 3 0, .result 5 0],
      .standalone 5 Sql.tagTransform [(Sql.ruleName, .text "review")] [.result 0 0],
      .standalone 6 "core.opaque" [] [.result 3 0],
      .standalone 7 Sql.output [] [.result 4 0]]⟩]⟩

def rules : List PolicyRule :=
  [⟨"classify", .addConfidentiality, "secret", []⟩, ⟨"review", .addIntegrity, "reviewed", []⟩,
    ⟨"release", .removeConfidentiality, "secret", [⟨"reviewer", "reviewed"⟩]⟩]

theorem run_solves_equations_root :
    ∃ book f, RuleBook.ofRules rules = .ok book ∧ fixpoint book root = .ok (some f) ∧
      f.marks.find? (.result 3 0) = some ⟨.ofList [0], .ofList [1]⟩ ∧
      (∀ o, o ∈ root.operations → o.id = 1 →
        transfer book f.marks o = .ok (some ⟨.ofList [0], .empty⟩)) ∧
      f.marks.find? (.result 6 0) = none ∧
      Brings rules book root .addConfidentiality 0 ∧ Brings rules book root .addIntegrity 1 := by
  obtain ⟨book, f, hbook, hrun, looped, shared⟩ : ∃ book f, RuleBook.ofRules rules = .ok book ∧
      fixpoint book root = .ok (some f) ∧
      f.marks.find? (.result 3 0) = some ⟨.ofList [0], .ofList [1]⟩ ∧
      f.marks.find? (.result 1 0) = some ⟨.ofList [0], .empty⟩ := ⟨_, _, rfl, rfl, rfl, rfl⟩
  obtain ⟨equations, entries, tags⟩ := run_solves_equations hbook hrun
  have brought := tags _ _ looped
  refine ⟨book, f, hbook, hrun, looped, ?_, ?_, brought.1 0 (by decide), brought.2 1 (by decide)⟩
  · intro o ho hid
    have hop : ∀ o, o ∈ root.operations → o.id = 1 → o.operator ∈ Sql.operators := by decide
    obtain ⟨new, hnew, hf⟩ := equations o ho (hop o ho hid)
    change f.marks.find? (.result o.id 0) = _ at hf
    rw [hid, shared] at hf
    rw [hnew, ← hf]
  · have other : ∀ o, o ∈ root.operations → o.operator ∈ Sql.operators →
        Value.result 6 0 ≠ .default o.id := by decide
    rw [Option.eq_none_iff_forall_ne_some]
    intro new hf
    obtain ⟨o, ho, hop, hv⟩ := (entries _).mp ⟨new, hf⟩
    exact other o ho hop hv

end Shared

end Rescan

end TagFlow
