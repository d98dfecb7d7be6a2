import TagFlow.Proofs.Flow.Termination

/-! # Returned states are above the transfer function

With the queue empty every operation is settled or dormant. A settled operation has
states at least as high as its transfer function asks for. A dormant one reads only values
at `bottom`, and a transfer function that makes nothing of nothing asks for no more than
`bottom` there.
-/

namespace TagFlow

/-- Inputs that are all at `bottom` give outputs at `bottom`, unless there are no inputs. -/
def Analysis.Strict {σ : Type} (a : Analysis σ) : Prop :=
  ∀ o inputs outs, inputs ≠ [] → (∀ s, s ∈ inputs → s = a.bottom) →
    a.transfer o inputs = .ok outs → ∀ s, s ∈ outs → s = a.bottom

namespace Worklist

variable {σ : Type}

/-- What the states returned for a list of operations satisfy, a value without an entry counting
as `bottom`. A value from outside that is read has exactly the initial state, no operation asks
for more than its outputs have, and outputs have entries exactly when there was a reason to
evaluate the operation. -/
structure PostFixpoint (a : Analysis σ) (ops : List Operation) (states : States σ) : Prop where
  outside : ∀ o, o ∈ ops → ∀ v, v ∈ o.inputs → v.isResult = false →
    states.find? v = some a.initial
  outputs : ∀ o, o ∈ ops → ∃ outs,
    a.transfer o (o.inputs.map (stateOf a states)) = .ok outs ∧ outs.length = o.outputCount ∧
      ∀ (i : Nat) (s : σ), outs[i]? = some s →
        a.join (stateOf a states (.result o.id i)) s = stateOf a states (.result o.id i)
  entries : ∀ o, o ∈ ops → ∀ i : Nat, i < o.outputCount →
    ((states.find? (.result o.id i)).isSome = true ↔ Awake a states o)

theorem Settled.outputs {a : Analysis σ} {states : States σ} {o : Operation}
    (h : Settled a states o) : ∃ outs,
      a.transfer o (o.inputs.map (stateOf a states)) = .ok outs ∧ outs.length = o.outputCount ∧
        ∀ (i : Nat) (s : σ), outs[i]? = some s →
          a.join (stateOf a states (.result o.id i)) s = stateOf a states (.result o.id i) := by
  obtain ⟨outs, houts, hlen, hjoin⟩ := h
  refine ⟨outs, houts, hlen, ?_⟩
  intro i s hi
  obtain ⟨t, ht, hj⟩ := hjoin i s hi
  rw [stateOf_of_find? ht]
  exact hj

theorem Settled.entry {a : Analysis σ} {states : States σ} {o : Operation}
    (h : Settled a states o) {i : Nat} (hi : i < o.outputCount) :
    (states.find? (.result o.id i)).isSome = true := by
  obtain ⟨outs, -, hlen, hjoin⟩ := h
  have hlt : i < outs.length := by omega
  obtain ⟨t, ht, -⟩ := hjoin i outs[i] (List.getElem?_eq_getElem hlt)
  rw [ht]
  rfl

theorem Dormant.outputs {a : Analysis σ} (laws : a.JoinLaws) (strict : a.Strict)
    {ops : List Operation} (total : a.TotalOn ops) {states : States σ} {o : Operation}
    (ho : o ∈ ops) (h : Dormant a states o) : ∃ outs,
      a.transfer o (o.inputs.map (stateOf a states)) = .ok outs ∧ outs.length = o.outputCount ∧
        ∀ (i : Nat) (s : σ), outs[i]? = some s →
          a.join (stateOf a states (.result o.id i)) s = stateOf a states (.result o.id i) := by
  obtain ⟨hne, hbot, -⟩ := h
  obtain ⟨outs, houts, hlen⟩ := total o ho (o.inputs.map (stateOf a states)) (by simp)
  refine ⟨outs, houts, hlen, ?_⟩
  intro i s hi
  have hs : s = a.bottom := by
    refine strict o _ outs (by simpa using hne) ?_ houts s (List.mem_of_getElem? hi)
    intro t ht
    obtain ⟨v, hv, rfl⟩ := List.mem_map.mp ht
    exact (hbot v hv).2
  rw [hs, laws.join_comm, laws.bottom_join]

theorem Invariant.postFixpoint {a : Analysis σ} (laws : a.JoinLaws) (strict : a.Strict)
    {ops : List Operation} (distinct : (ops.map (·.id)).Nodup) (total : a.TotalOn ops)
    {states : States σ} (inv : Invariant a ops ⟨states, []⟩) : PostFixpoint a ops states := by
  have hops : ∀ o, o ∈ ops → o ∈ (FlowGraph.ofOperations ops).operations := by
    intro o ho
    rw [FlowGraph.operations_eq_of_distinct distinct]
    exact ho
  have hcovered : ∀ o, o ∈ ops → Settled a states o ∨ Dormant a states o := by
    intro o ho
    rcases inv.covered o (hops o ho) with hq | h
    · cases hq
    · exact h
  refine ⟨fun o ho => inv.seeded o (hops o ho), ?_, ?_⟩
  · intro o ho
    rcases hcovered o ho with h | h
    · exact h.outputs
    · exact h.outputs laws strict total ho
  · intro o ho i hi
    constructor
    · intro hentry
      obtain ⟨o', ho', hid, hawake⟩ := inv.awake o.id (.inr ⟨i, hentry⟩)
      rw [List.inj_on_of_nodup_map distinct ho' ho hid] at hawake
      exact hawake
    · intro hawake
      rcases hcovered o ho with h | h
      · exact h.entry hi
      · exact absurd hawake h.not_awake

theorem solve_postFixpoint [DecidableEq σ] {Good : σ → Prop} {rank : σ → Nat} {a : Analysis σ}
    (laws : a.JoinLaws) (ranked : a.Ranked Good rank) (strict : a.Strict)
    {ops : List Operation} (distinct : (ops.map (·.id)).Nodup) (total : a.TotalOn ops) :
    ∃ states, solve a (.ofOperations ops) = .ok states ∧ PostFixpoint a ops states := by
  obtain ⟨states, hstates⟩ := solve_total laws total
  have inv := solve_invariant laws ranked hstates
  exact ⟨states, hstates, inv.postFixpoint laws strict distinct total⟩

end Worklist

end TagFlow
