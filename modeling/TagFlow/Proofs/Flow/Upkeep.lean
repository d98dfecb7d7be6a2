import TagFlow.Proofs.Flow.Seed

/-! # Bounds that evaluations keep up

A bound says what states an output may be in, given the present states of the inputs. It
lasts through a whole run when it holds at `bottom`, when an evaluation stays within it, and
when it survives the way in which states move. Unlike the invariant of the worklist, such a
bound limits states from above.
-/

namespace TagFlow

/-- States move along a relation, and what an output may be in is kept both by an evaluation
of the operation and by moves of its inputs. -/
structure Analysis.Upholds {σ : Type} (a : Analysis σ) (ops : List Operation)
    (Moves : σ → σ → Prop) (Allowed : Operation → Nat → List σ → σ → Prop) : Prop where
  refl : ∀ s, Moves s s
  bottom : ∀ o, o ∈ ops → ∀ i inputs, i < o.outputCount → inputs.length = o.inputs.length →
    Allowed o i inputs a.bottom
  moved : ∀ o, o ∈ ops → ∀ i inputs inputs' t, inputs.length = o.inputs.length →
    List.Forall₂ Moves inputs inputs' → Allowed o i inputs t → Allowed o i inputs' t
  joined : ∀ o, o ∈ ops → ∀ i inputs outs s t, inputs.length = o.inputs.length →
    a.transfer o inputs = .ok outs → outs[i]? = some s → Allowed o i inputs t →
      Moves t (a.join t s) ∧ Allowed o i inputs (a.join t s)

namespace Worklist

variable {σ : Type}

/-- Every output is in a state that the present states of the inputs allow. -/
def Within (a : Analysis σ) (ops : List Operation)
    (Allowed : Operation → Nat → List σ → σ → Prop) (states : States σ) : Prop :=
  ∀ o, o ∈ (FlowGraph.ofOperations ops).operations → ∀ i : Nat, i < o.outputCount →
    Allowed o i (o.inputs.map (stateOf a states)) (stateOf a states (.result o.id i))

theorem forall₂_map_inputs {R : σ → σ → Prop} {x y : Value → σ} (h : ∀ v, R (x v) (y v))
    (inputs : List Value) : List.Forall₂ R (inputs.map x) (inputs.map y) := by
  rw [List.forall₂_map_left_iff, List.forall₂_map_right_iff, List.forall₂_same]
  exact fun v _ => h v

variable {Moves : σ → σ → Prop} {Allowed : Operation → Nat → List σ → σ → Prop}
  {a : Analysis σ} {ops : List Operation}

theorem Seeding.within (upholds : a.Upholds ops Moves Allowed) {p : Progress σ}
    (h : Seeding a ops p) : Within a ops Allowed p.states := by
  intro o ho i hi
  have hmem := (FlowGraph.mem_of_lookup (FlowGraph.mem_operations.mp ho)).1
  have habsent : stateOf a p.states (.result o.id i) = a.bottom := by
    rw [stateOf, h.result_absent rfl]
    rfl
  rw [habsent]
  exact upholds.bottom o hmem i _ hi (List.length_map _)

variable [DecidableEq σ]

theorem evaluate_within (upholds : a.Upholds ops Moves Allowed) {states : States σ}
    {id : OperationId} {rest : List OperationId} {p' : Progress σ}
    (within : Within a ops Allowed states)
    (h : evaluate a (.ofOperations ops) ⟨states, rest⟩ id = .ok p') :
    Within a ops Allowed p'.states := by
  obtain ⟨o₀, outs, hlook, houts, hlen, raised⟩ := evaluate_raised h
  obtain ⟨hmem₀, rfl⟩ := FlowGraph.mem_of_lookup hlook
  have own := within o₀ (FlowGraph.mem_operations.mpr hlook)
  have joined : ∀ (i : Nat) (s : σ), outs[i]? = some s →
      Moves (stateOf a states (.result o₀.id i)) (stateOf a p'.states (.result o₀.id i)) ∧
        Allowed o₀ i (o₀.inputs.map (stateOf a states)) (stateOf a p'.states (.result o₀.id i)) := by
    intro i s hs
    have hi : i < o₀.outputCount := hlen ▸ (List.getElem?_eq_some_iff.mp hs).1
    have hnew : outputStates o₀.id 0 outs (.result o₀.id i) = some s := by
      rw [outputStates_result, hs]
    rw [raised.stateOf_raised hnew]
    exact upholds.joined o₀ hmem₀ i _ outs s _ (List.length_map _) houts hs (own i hi)
  have moves : ∀ v, Moves (stateOf a states v) (stateOf a p'.states v) := by
    intro v
    cases hnew : outputStates o₀.id 0 outs v with
    | none =>
        rw [raised.stateOf_kept hnew]
        exact upholds.refl _
    | some s =>
        obtain ⟨i, -, rfl⟩ := (mem_of_outputStates hnew).2
        rw [outputStates_result] at hnew
        exact (joined i s hnew).1
  intro o ho i hi
  have hfind := FlowGraph.mem_operations.mp ho
  have hmem := (FlowGraph.mem_of_lookup hfind).1
  refine upholds.moved o hmem i _ _ _ (List.length_map _) (forall₂_map_inputs moves o.inputs) ?_
  by_cases hid : o.id = o₀.id
  · have heq : o₀ = o := by
      rw [hid, hlook] at hfind
      exact Option.some.inj hfind
    subst heq
    have hlt : i < outs.length := by omega
    exact (joined i outs[i] (List.getElem?_eq_getElem hlt)).2
  · rw [raised.stateOf_kept (outputStates_eq_none_of_ne outs i hid)]
    exact within o ho i hi

theorem solve_within (upholds : a.Upholds ops Moves Allowed) {states : States σ}
    (h : solve a (.ofOperations ops) = .ok states) : Within a ops Allowed states :=
  solve_keeps (Within a ops Allowed) (fun _ seeding => seeding.within upholds)
    (fun _ _ _ _ => evaluate_within upholds) h

end Worklist

end TagFlow
