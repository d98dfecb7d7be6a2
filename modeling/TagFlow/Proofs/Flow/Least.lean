import TagFlow.Proofs.Flow.PostFixpoint
import TagFlow.Proofs.Flow.Upkeep
import TagFlow.Proofs.Program.Rearranged

/-! # The least solution

An analysis asks that every output has what its operation computes from its inputs. Where
higher inputs give higher outputs, no evaluation goes beyond a solution of these equations,
and no output is ever above what its operation computes from the present states. With nothing
left to raise, the states are a solution themselves, and below every other one. So they depend
on the equations alone, and not on the order in which the operations are taken up.
-/

namespace TagFlow

variable {σ : Type} {a : Analysis σ} {ops : List Operation}

/-- Joining the first state leaves the second unchanged. -/
def Analysis.Below (a : Analysis σ) (s t : σ) : Prop := a.join t s = t

namespace Analysis.JoinLaws

theorem below_refl (laws : a.JoinLaws) (s : σ) : a.Below s s := laws.join_self s

theorem below_trans (laws : a.JoinLaws) {s t u : σ} (hst : a.Below s t) (htu : a.Below t u) :
    a.Below s u := by
  unfold Below at *
  calc
    a.join u s = a.join (a.join u t) s := by rw [htu]
    _ = a.join u (a.join t s) := laws.join_assoc u t s
    _ = u := by rw [hst, htu]

theorem below_antisymm (laws : a.JoinLaws) {s t : σ} (hst : a.Below s t) (hts : a.Below t s) :
    s = t := by
  unfold Below at hst hts
  rw [← hts, laws.join_comm, hst]

theorem bottom_below (laws : a.JoinLaws) (s : σ) : a.Below a.bottom s := by
  rw [Below, laws.join_comm, laws.bottom_join]

theorem below_join (laws : a.JoinLaws) (s t : σ) : a.Below s (a.join s t) := by
  rw [Below, laws.join_comm, laws.join_join_left]

theorem below_join_right (laws : a.JoinLaws) (s t : σ) : a.Below t (a.join s t) := by
  rw [Below, laws.join_join_right]

theorem join_below (laws : a.JoinLaws) {s t u : σ} (hs : a.Below s u) (ht : a.Below t u) :
    a.Below (a.join s t) u := by
  unfold Below at *
  rw [← laws.join_assoc, hs, ht]

theorem join_mono (laws : a.JoinLaws) {s s' t t' : σ} (hs : a.Below s s') (ht : a.Below t t') :
    a.Below (a.join s t) (a.join s' t') :=
  laws.join_below (laws.below_trans hs (laws.below_join s' t'))
    (laws.below_trans ht (laws.below_join_right s' t'))

theorem foldl_join_mono (laws : a.JoinLaws) {l l' : List σ} (h : List.Forall₂ a.Below l l')
    {s s' : σ} (hs : a.Below s s') : a.Below (l.foldl a.join s) (l'.foldl a.join s') := by
  induction h generalizing s s' with
  | nil => exact hs
  | cons ht _ ih => exact ih (laws.join_mono hs ht)

end Analysis.JoinLaws

/-- Higher inputs give higher outputs. -/
def Analysis.Monotone (a : Analysis σ) : Prop :=
  ∀ o inputs inputs' outs outs', List.Forall₂ a.Below inputs inputs' →
    a.transfer o inputs = .ok outs → a.transfer o inputs' = .ok outs' →
      List.Forall₂ a.Below outs outs'

/-- The transfer function does not look at what implements an operation. -/
def Analysis.Bare (a : Analysis σ) : Prop :=
  ∀ o inputs, a.transfer o.bare inputs = a.transfer o inputs

namespace Worklist

/-- The equations of an analysis: values from outside have the initial state, and outputs what
their operation computes from its inputs. -/
structure Solution (a : Analysis σ) (ops : List Operation) (x : Value → σ) : Prop where
  outside : ∀ o, o ∈ ops → ∀ v, v ∈ o.inputs → v.isResult = false → x v = a.initial
  outputs : ∀ o, o ∈ ops → ∃ outs,
    a.transfer o (o.inputs.map x) = .ok outs ∧ outs.length = o.outputCount ∧
      ∀ (i : Nat) (s : σ), outs[i]? = some s → x (.result o.id i) = s

/-! ## Below every solution -/

theorem Seeding.below (laws : a.JoinLaws) {p : Progress σ} (h : Seeding a ops p)
    {x : Value → σ} (solution : Solution a ops x) (v : Value) :
    a.Below (stateOf a p.states v) (x v) := by
  cases hf : p.states.find? v with
  | none =>
      rw [stateOf, hf]
      exact laws.bottom_below _
  | some s =>
      obtain ⟨external, rfl, -⟩ := h.entries v s hf
      obtain ⟨o, ho, hv⟩ := h.read v (by rw [hf]; rfl)
      rw [stateOf_of_find? hf, solution.outside o ho v hv external]
      exact laws.below_refl _

variable [DecidableEq σ]

theorem evaluate_below (laws : a.JoinLaws) (monotone : a.Monotone) {x : Value → σ}
    (solution : Solution a ops x) {states : States σ} {id : OperationId}
    {rest : List OperationId} {p' : Progress σ} (below : ∀ v, a.Below (stateOf a states v) (x v))
    (h : evaluate a (.ofOperations ops) ⟨states, rest⟩ id = .ok p') (v : Value) :
    a.Below (stateOf a p'.states v) (x v) := by
  obtain ⟨o, outs, hlook, houts, -, raised⟩ := evaluate_raised h
  obtain ⟨ho, rfl⟩ := FlowGraph.mem_of_lookup hlook
  cases hnew : outputStates o.id 0 outs v with
  | none =>
      rw [raised.stateOf_kept hnew]
      exact below v
  | some s =>
      obtain ⟨i, -, rfl⟩ := (mem_of_outputStates hnew).2
      rw [raised.stateOf_raised hnew]
      rw [outputStates_result] at hnew
      obtain ⟨outs', houts', -, hx⟩ := solution.outputs o ho
      have hin := forall₂_map_inputs below o.inputs
      obtain ⟨s', hs', hle⟩ :=
        Outcome.getElem?_of_forall₂ (monotone o _ _ outs outs' hin houts houts') hnew
      rw [← hx i s' hs'] at hle
      exact laws.join_below (below _) hle

theorem solve_below (laws : a.JoinLaws) (monotone : a.Monotone) {states : States σ}
    (h : solve a (.ofOperations ops) = .ok states) {x : Value → σ} (solution : Solution a ops x) :
    ∀ v, a.Below (stateOf a states v) (x v) :=
  solve_keeps (fun states => ∀ v, a.Below (stateOf a states v) (x v))
    (fun _ seeding => seeding.below laws solution)
    (fun _ _ _ _ below => evaluate_below laws monotone solution below) h

/-! ## A solution -/

/-- What the operation computes from these inputs for the output is at least this state. -/
def Asked (a : Analysis σ) (o : Operation) (i : Nat) (inputs : List σ) (t : σ) : Prop :=
  ∃ outs s, a.transfer o inputs = .ok outs ∧ outs[i]? = some s ∧ a.Below t s

omit [DecidableEq σ] in
/-- No output is above what its operation asks for: inputs only rise, and what is asked for
rises with them. -/
theorem upholds_asked (laws : a.JoinLaws) (monotone : a.Monotone) (total : a.TotalOn ops) :
    a.Upholds ops a.Below (Asked a) where
  refl := laws.below_refl
  bottom o ho i inputs hi arity := by
    obtain ⟨outs, houts, hlen⟩ := total o ho inputs arity
    have hlt : i < outs.length := by omega
    exact ⟨outs, outs[i], houts, List.getElem?_eq_getElem hlt, laws.bottom_below _⟩
  moved o ho i inputs inputs' t arity hin asked := by
    obtain ⟨outs, s, houts, hs, hle⟩ := asked
    obtain ⟨outs', houts', -⟩ := total o ho inputs' (hin.length_eq ▸ arity)
    obtain ⟨s', hs', hrise⟩ :=
      Outcome.getElem?_of_forall₂ (monotone o inputs inputs' outs outs' hin houts houts') hs
    exact ⟨outs', s', houts', hs', laws.below_trans hle hrise⟩
  joined o _ i inputs outs s t _ houts hs asked := by
    obtain ⟨outs', s', houts', hs', hle⟩ := asked
    rw [houts, Except.ok.injEq] at houts'
    rw [← houts', hs, Option.some.injEq] at hs'
    subst hs'
    exact ⟨laws.below_join t s, outs, s, houts, hs, laws.join_below hle (laws.below_refl s)⟩

/-- Neither more nor less than what is asked for is there in the end. -/
theorem PostFixpoint.solution (laws : a.JoinLaws) (monotone : a.Monotone)
    (total : a.TotalOn ops) (distinct : (ops.map (·.id)).Nodup) {states : States σ}
    (post : PostFixpoint a ops states) (h : solve a (.ofOperations ops) = .ok states) :
    Solution a ops (stateOf a states) where
  outside o ho v hv external := stateOf_of_find? (post.outside o ho v hv external)
  outputs o ho := by
    obtain ⟨outs, houts, hlen, hjoin⟩ := post.outputs o ho
    refine ⟨outs, houts, hlen, ?_⟩
    intro i s hs
    have hmem : o ∈ (FlowGraph.ofOperations ops).operations := by
      rw [FlowGraph.operations_eq_of_distinct distinct]
      exact ho
    have hi : i < o.outputCount := hlen ▸ (List.getElem?_eq_some_iff.mp hs).1
    obtain ⟨outs', s', houts', hs', hle⟩ :=
      solve_within (upholds_asked laws monotone total) h o hmem i hi
    rw [houts, Except.ok.injEq] at houts'
    rw [← houts', hs, Option.some.injEq] at hs'
    subst hs'
    exact laws.below_antisymm hle (hjoin i s hs)

/-- Solving returns the least solution. -/
theorem solve_least {Good : σ → Prop} {rank : σ → Nat} (laws : a.JoinLaws)
    (ranked : a.Ranked Good rank) (strict : a.Strict) (monotone : a.Monotone)
    (total : a.TotalOn ops) (distinct : (ops.map (·.id)).Nodup) :
    ∃ states, solve a (.ofOperations ops) = .ok states ∧ Solution a ops (stateOf a states) ∧
      ∀ x, Solution a ops x → ∀ v, a.Below (stateOf a states v) (x v) := by
  obtain ⟨states, h, post⟩ := solve_postFixpoint laws ranked strict distinct total
  exact ⟨states, h, post.solution laws monotone total distinct h,
    fun _ solution => solve_below laws monotone h solution⟩

/-! ## Another order -/

omit [DecidableEq σ] in
theorem Solution.sameBare (bare : a.Bare) {ops' : List Operation} (same : SameBare ops ops')
    {x : Value → σ} (h : Solution a ops x) : Solution a ops' x where
  outside o' ho' := by
    obtain ⟨o, ho, -, -, inputs, -⟩ := same.exists_alike ho'
    rw [← inputs]
    exact h.outside o ho
  outputs o' ho' := by
    obtain ⟨o, ho, alike, id, inputs, count⟩ := same.exists_alike ho'
    rw [← inputs, ← count, ← id, ← bare o', ← alike, bare o]
    exact h.outputs o ho

omit [DecidableEq σ] in
theorem totalOn_sameBare (bare : a.Bare) {ops' : List Operation} (same : SameBare ops ops')
    (total : a.TotalOn ops) : a.TotalOn ops' := by
  intro o' ho'
  obtain ⟨o, ho, alike, -, inputs, count⟩ := same.exists_alike ho'
  intro states
  rw [← inputs, ← count, ← bare o', ← alike, bare o]
  exact total o ho states

/-- The same operations in another order have the same states. -/
theorem solve_sameBare {Good : σ → Prop} {rank : σ → Nat} (laws : a.JoinLaws)
    (ranked : a.Ranked Good rank) (strict : a.Strict) (monotone : a.Monotone) (bare : a.Bare)
    (total : a.TotalOn ops) (distinct : (ops.map (·.id)).Nodup) {ops' : List Operation}
    (same : SameBare ops ops') {states : States σ}
    (h : solve a (.ofOperations ops) = .ok states) :
    ∃ states', solve a (.ofOperations ops') = .ok states' ∧
      ∀ v, stateOf a states' v = stateOf a states v := by
  obtain ⟨states₀, h₀, solution, least⟩ :=
    solve_least laws ranked strict monotone total distinct
  rw [h, Except.ok.injEq] at h₀
  subst h₀
  obtain ⟨states', h', solution', least'⟩ := solve_least laws ranked strict monotone
    (totalOn_sameBare bare same total) (same.nodup_ids distinct)
  refine ⟨states', h', ?_⟩
  intro v
  exact laws.below_antisymm (least' _ (solution.sameBare bare same) v)
    (least _ (solution'.sameBare bare same.symm) v)

end Worklist

end TagFlow
