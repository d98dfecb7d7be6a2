import TagFlow.Proofs.Flow.Loop
import TagFlow.Proofs.Label.Below
import TagFlow.Proofs.Label.Faults
import TagFlow.Proofs.Policy.Privacy

/-! # What the analyses of a module return

Labels and sensitivities are computed by the same worklist. It comes to an end on every
module, and only rules that do not fit an operation can make it fail. For both analyses, and
for every operation of the module with those of implementations, the returned states are
above what the operation asks for, loops and operations that were never queued included.
Where no rule has a premise the labels are exactly what is asked for and as low as they can be,
as sensitivities always are, so that the order of blocks and operations does not matter.
-/

namespace TagFlow

/-- The worklist runs empty or meets an operation that the rules do not fit, whatever cycles,
implementations and repeated ids the module has. Sensitivities are always returned. -/
theorem analyses_end (m : Module) :
    (∀ r : RuleSet, ∃ start count result,
      Worklist.seed r.analysis (.ofModule m) = .ok start ∧
        Worklist.Ends r.analysis (.ofModule m) start count result ∧
          count < Worklist.fuel r.analysis (.ofModule m) ∧ r.labels m = result ∧
            ∀ fault, result = .error fault → ∃ o, o ∈ m.occurrences ∧ r.Rejects o fault) ∧
      ∃ start count states,
        Worklist.seed Privacy.analysis (.ofModule m) = .ok start ∧
          Worklist.Ends Privacy.analysis (.ofModule m) start count (.ok states) ∧
            count < Worklist.fuel Privacy.analysis (.ofModule m) ∧
              Privacy.sensitivities m = .ok states := by
  constructor
  · intro r
    have counted : r.analysis.Counted := fun _ _ _ h => (RuleSet.transfer_outputs h).1
    obtain ⟨start, count, result, seeded, ends, bounded, returned, faults⟩ :=
      Worklist.solve_ends r.analysis_joinLaws r.analysis_ranked counted m.occurrences
    refine ⟨start, count, result, seeded, ends, bounded, returned, ?_⟩
    intro fault hfault
    obtain ⟨o, ho, inputs, arity, failed⟩ := faults fault hfault
    exact ⟨o, ho, RuleSet.transfer_eq_error arity failed⟩
  · have counted : Privacy.analysis.Counted := by
      intro o inputs outs h
      cases h
      exact List.length_replicate
    obtain ⟨start, count, result, seeded, ends, bounded, returned, -⟩ :=
      Worklist.solve_ends Privacy.analysis_joinLaws Privacy.analysis_ranked counted m.occurrences
    obtain ⟨states, hstates⟩ := Worklist.solve_total Privacy.analysis_joinLaws
      (Privacy.analysis_totalOn m.occurrences)
    have same : result = .ok states := returned.symm.trans hstates
    exact ⟨start, count, states, seeded, same ▸ ends, bounded, hstates⟩

/-- Both analyses return. Values from outside have exactly the initial state, no operation
asks for more than its outputs have, and the outputs with entries are those of the
operations that have no inputs, read a value from outside or read something known. -/
theorem analyses_postFixpoint (m : Module) (distinct : (m.occurrences.map (·.id)).Nodup) :
    (∀ r : RuleSet, (∀ o, o ∈ m.occurrences → r.Fits o) →
      ∃ states, r.labels m = .ok states ∧
        Worklist.PostFixpoint r.analysis m.occurrences states) ∧
      ∃ states, Privacy.sensitivities m = .ok states ∧
        Worklist.PostFixpoint Privacy.analysis m.occurrences states := by
  constructor
  · intro r fits
    exact Worklist.solve_postFixpoint r.analysis_joinLaws r.analysis_ranked r.analysis_strict
      distinct (RuleSet.analysis_totalOn fits)
  · exact Worklist.solve_postFixpoint Privacy.analysis_joinLaws Privacy.analysis_ranked
      Privacy.analysis_strict distinct (Privacy.analysis_totalOn _)

/-! ## A module with a loop -/

namespace Feedback

def operation (id : OperationId) (outputs : Nat) (inputs : List Value)
    (body : Option Module := none) : Operation :=
  ⟨id, none, ⟨"core.step", outputs⟩, .empty, inputs, body⟩

/-- Operations 1 and 2 feed each other, operation 3 implements operation 1, and operation 4
reads only itself, so that it is never evaluated. -/
def root : Module :=
  ⟨0, [⟨0, none, .empty, .empty, .empty,
    [operation 0 1 [],
      operation 1 1 [.result 0 0, .result 2 1]
        (some ⟨1, [⟨1, none, .empty, .empty, .empty, [operation 3 1 [.any, .result 4 0]]⟩]⟩),
      operation 2 2 [.result 1 0],
      operation 4 1 [.result 4 0]]⟩]⟩

def rules : RuleSet where
  tagNames := ["secret", "reviewed"]
  actions := .ofList [(1, "classify"), (2, "release")]
  rules := .ofList
    [("classify", .ofList [(0, [⟨.copy 0, []⟩, ⟨.modify .addSecrecy 0, []⟩])]),
      ("release", .ofList
        [(0, [⟨.modify .addIntegrity 1, []⟩]),
          (1, [⟨.copy 0, []⟩, ⟨.modify .removeSecrecy 0, [⟨0, 1⟩]⟩, ⟨.merge .intersect [0], []⟩])])]

theorem analyses_postFixpoint_root :
    (root.occurrences.map (·.id)).Nodup ∧ (∀ o, o ∈ root.occurrences → rules.Fits o) ∧
      (∃ states, rules.labels root = .ok states ∧
        Worklist.PostFixpoint rules.analysis root.occurrences states) ∧
      ∃ states, Privacy.sensitivities root = .ok states ∧
        Worklist.PostFixpoint Privacy.analysis root.occurrences states := by
  have distinct : (root.occurrences.map (·.id)).Nodup := by decide
  have fits : ∀ o, o ∈ root.occurrences → rules.Fits o := by decide
  exact ⟨distinct, fits, (analyses_postFixpoint root distinct).1 rules fits,
    (analyses_postFixpoint root distinct).2⟩

end Feedback

/-! ## The least states -/

/-- Sensitivities, and labels under rules without premises, are the least solution of what the
operations ask for. A rearranged module has the same solutions, and so the same states. -/
theorem analyses_least (m : Module) (distinct : (m.occurrences.map (·.id)).Nodup) :
    (∀ r : RuleSet, r.PremiseFree → (∀ o, o ∈ m.occurrences → r.Fits o) →
      ∃ states, r.labels m = .ok states ∧
        Worklist.Solution r.analysis m.occurrences (Worklist.stateOf r.analysis states) ∧
        (∀ x, Worklist.Solution r.analysis m.occurrences x →
          ∀ v, (Worklist.stateOf r.analysis states v).Below (x v)) ∧
        ∀ m', m.Rearranged m' → ∃ states', r.labels m' = .ok states' ∧
          ∀ v, Worklist.stateOf r.analysis states' v = Worklist.stateOf r.analysis states v) ∧
      ∃ states, Privacy.sensitivities m = .ok states ∧
        Worklist.Solution Privacy.analysis m.occurrences
          (Worklist.stateOf Privacy.analysis states) ∧
        (∀ x, Worklist.Solution Privacy.analysis m.occurrences x →
          ∀ v, Privacy.Below (Worklist.stateOf Privacy.analysis states v) (x v)) ∧
        ∀ m', m.Rearranged m' → ∃ states', Privacy.sensitivities m' = .ok states' ∧
          ∀ v, Worklist.stateOf Privacy.analysis states' v =
            Worklist.stateOf Privacy.analysis states v := by
  constructor
  · intro r free fits
    have laws := r.analysis_joinLaws
    have ranked := r.analysis_ranked
    have monotone := RuleSet.analysis_monotone free
    have total := RuleSet.analysis_totalOn fits
    obtain ⟨states, returned, solution, least⟩ :=
      Worklist.solve_least laws ranked r.analysis_strict monotone total distinct
    rw [RuleSet.analysis_below] at least
    refine ⟨states, returned, solution, least, ?_⟩
    intro m' rearranged
    exact Worklist.solve_sameBare laws ranked r.analysis_strict monotone r.analysis_bare total
      distinct rearranged.sameBare returned
  · have laws := Privacy.analysis_joinLaws
    have ranked := Privacy.analysis_ranked
    have monotone := Privacy.analysis_monotone
    have total := Privacy.analysis_totalOn m.occurrences
    obtain ⟨states, returned, solution, least⟩ :=
      Worklist.solve_least laws ranked Privacy.analysis_strict monotone total distinct
    rw [Privacy.analysis_below] at least
    refine ⟨states, returned, solution, least, ?_⟩
    intro m' rearranged
    exact Worklist.solve_sameBare laws ranked Privacy.analysis_strict monotone
      Privacy.analysis_bare total distinct rearranged.sameBare returned

namespace Feedback

def plainRules : RuleSet where
  tagNames := ["secret", "reviewed"]
  actions := .ofList [(1, "classify"), (2, "review")]
  rules := .ofList
    [("classify", .ofList [(0, [⟨.copy 0, []⟩, ⟨.modify .addSecrecy 0, []⟩])]),
      ("review", .ofList
        [(0, [⟨.merge .union [0], []⟩, ⟨.modify .addIntegrity 1, []⟩]),
          (1, [⟨.merge .intersect [0], []⟩])])]

def reversed : Module :=
  ⟨0, [⟨0, none, .empty, .empty, .empty,
    [operation 4 1 [.result 4 0],
      operation 2 2 [.result 1 0],
      operation 1 1 [.result 0 0, .result 2 1]
        (some ⟨1, [⟨1, none, .empty, .empty, .empty, [operation 3 1 [.any, .result 4 0]]⟩]⟩),
      operation 0 1 []]⟩]⟩

theorem root_rearranged : root.Rearranged reversed :=
  .blocks (.cons (OperationsRearranged.refl _) (List.reverse_perm _).symm .nil) (.refl _)

theorem analyses_least_root :
    (root.occurrences.map (·.id)).Nodup ∧ plainRules.PremiseFree ∧
      (∀ o, o ∈ root.occurrences → plainRules.Fits o) ∧ root.Rearranged reversed ∧
      (∃ states, plainRules.labels root = .ok states ∧
        (∀ x, Worklist.Solution plainRules.analysis root.occurrences x →
          ∀ v, (Worklist.stateOf plainRules.analysis states v).Below (x v)) ∧
        ∃ states', plainRules.labels reversed = .ok states' ∧
          Worklist.stateOf plainRules.analysis states' (.result 2 0) =
            Worklist.stateOf plainRules.analysis states (.result 2 0)) ∧
      ∃ states, Privacy.sensitivities root = .ok states ∧
        ∃ states', Privacy.sensitivities reversed = .ok states' ∧
          ∀ v, Worklist.stateOf Privacy.analysis states' v =
            Worklist.stateOf Privacy.analysis states v := by
  have distinct : (root.occurrences.map (·.id)).Nodup := by decide
  have free : plainRules.PremiseFree := by decide
  have fits : ∀ o, o ∈ root.occurrences → plainRules.Fits o := by decide
  obtain ⟨labels, sensitivities⟩ := analyses_least root distinct
  obtain ⟨states, returned, -, least, order⟩ := labels plainRules free fits
  obtain ⟨states', returned', same⟩ := order reversed root_rearranged
  obtain ⟨amounts, given, -, -, order⟩ := sensitivities
  exact ⟨distinct, free, fits, root_rearranged, ⟨states, returned, least, states', returned',
    same _⟩, amounts, given, order reversed root_rearranged⟩

end Feedback

end TagFlow
