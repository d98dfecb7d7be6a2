import TagFlow.Proofs.Flow.Termination

/-! # Outputs that stay at bottom

An operation that makes nothing of its inputs as long as one of them is at `bottom` has
outputs above `bottom` only when all its inputs are: at the time of the evaluation that
raised the output they were, and states never fall.
-/

namespace TagFlow

/-- One input at `bottom` is enough to leave all outputs at `bottom`. -/
def Analysis.NeedsAll {σ : Type} (a : Analysis σ) (o : Operation) : Prop :=
  ∀ inputs outs, a.transfer o inputs = .ok outs → a.bottom ∈ inputs →
    ∀ s, s ∈ outs → s = a.bottom

namespace Worklist

variable {σ : Type}

/-- What is known about an output rests on something known about every input. -/
def Supported (a : Analysis σ) (ops : List Operation) (states : States σ) : Prop :=
  ∀ o, o ∈ (FlowGraph.ofOperations ops).operations → a.NeedsAll o →
    ∀ i : Nat, stateOf a states (.result o.id i) ≠ a.bottom →
      ∀ v, v ∈ o.inputs → stateOf a states v ≠ a.bottom

theorem Seeding.supported {a : Analysis σ} {ops : List Operation} {p : Progress σ}
    (h : Seeding a ops p) : Supported a ops p.states := by
  intro o _ _ i hknown
  cases hf : p.states.find? (.result o.id i) with
  | none => simp [stateOf, hf] at hknown
  | some s => exact Bool.noConfusion (h.entries _ s hf).1

variable [DecidableEq σ]

theorem evaluate_supported {a : Analysis σ} (laws : a.JoinLaws) {ops : List Operation}
    {states : States σ} {id : OperationId} {rest : List OperationId} {p' : Progress σ}
    (supported : Supported a ops states)
    (h : evaluate a (.ofOperations ops) ⟨states, rest⟩ id = .ok p') :
    Supported a ops p'.states := by
  obtain ⟨o₀, outs, hlook, houts, -, raised⟩ := evaluate_raised h
  have grown := raised.grown laws
  intro o ho needs i hknown v hv
  apply grown.known
  cases hnew : outputStates id 0 outs (.result o.id i) with
  | none =>
      rw [raised.stateOf_kept hnew] at hknown
      exact supported o ho needs i hknown v hv
  | some s =>
      have hid : o.id = id := by
        by_contra hne
        rw [outputStates_eq_none_of_ne outs i hne] at hnew
        cases hnew
      have heq : o₀ = o := by
        have := FlowGraph.mem_operations.mp ho
        rw [hid, hlook] at this
        exact Option.some.inj this
      subst heq
      rw [raised.stateOf_raised hnew] at hknown
      rw [hid, outputStates_result] at hnew
      by_cases hold : stateOf a states (.result o₀.id i) = a.bottom
      · intro hbottom
        have hin : a.bottom ∈ o₀.inputs.map (stateOf a states) := hbottom ▸ List.mem_map_of_mem hv
        have hs := needs _ outs houts hin s (List.mem_of_getElem? hnew)
        rw [hold, hs, laws.join_self] at hknown
        exact hknown rfl
      · exact supported o₀ ho needs i hold v hv

theorem solve_supported {a : Analysis σ} (laws : a.JoinLaws) {ops : List Operation}
    {states : States σ} (h : solve a (.ofOperations ops) = .ok states) :
    Supported a ops states :=
  solve_keeps (Supported a ops) (fun _ seeding => seeding.supported)
    (fun _ _ _ _ => evaluate_supported laws) h

end Worklist

end TagFlow
