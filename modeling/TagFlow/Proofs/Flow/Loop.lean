import TagFlow.Proofs.Flow.Termination

/-! # The loop without its limit

A run may make only so many evaluations. The loop that it stands for has no such limit: it
goes on until the queue is empty or an evaluation fails. It ends from every state that
keeps the invariant, well within the limit, and a run returns what the loop returns. What
makes it fail is always the transfer function, never the worklist or a lookup in the graph.
-/

namespace TagFlow

def Analysis.Counted {σ : Type} (a : Analysis σ) : Prop :=
  ∀ o inputs outs, a.transfer o inputs = .ok outs → outs.length = o.outputCount

def Analysis.FailsOn {σ : Type} (a : Analysis σ) (ops : List Operation) (e : Fault) : Prop :=
  ∃ o, o ∈ ops ∧ ∃ inputs : List σ, inputs.length = o.inputs.length ∧
    a.transfer o inputs = .error e

namespace Worklist

variable {σ : Type} [DecidableEq σ]

/-- The loop ends with this result after so many evaluations. -/
inductive Ends (a : Analysis σ) (g : FlowGraph) :
    Progress σ → Nat → Except Fault (States σ) → Prop where
  | done (states : States σ) : Ends a g ⟨states, []⟩ 0 (.ok states)
  | fault {states : States σ} {id : OperationId} {rest : List OperationId} {e : Fault}
      (failed : evaluate a g ⟨states, rest⟩ id = .error e) :
      Ends a g ⟨states, id :: rest⟩ 1 (.error e)
  | step {states : States σ} {id : OperationId} {rest : List OperationId} {mid : Progress σ}
      {count : Nat} {result : Except Fault (States σ)}
      (evaluated : evaluate a g ⟨states, rest⟩ id = .ok mid) (ends : Ends a g mid count result) :
      Ends a g ⟨states, id :: rest⟩ (count + 1) result

theorem Ends.run_eq {a : Analysis σ} {g : FlowGraph} {p : Progress σ} {count : Nat}
    {result : Except Fault (States σ)} (h : Ends a g p count result) (fuel : Nat)
    (enough : count ≤ fuel) : (run a g fuel p).map (·.states) = result := by
  induction h generalizing fuel with
  | done states => cases fuel <;> rfl
  | fault failed =>
      obtain ⟨fuel, rfl⟩ := Nat.exists_eq_succ_of_ne_zero (Nat.ne_of_gt enough)
      rw [run_cons, failed]
      rfl
  | step evaluated _ ih =>
      obtain ⟨fuel, rfl⟩ := Nat.exists_eq_add_of_lt (Nat.lt_of_succ_le enough)
      rw [run_cons, evaluated]
      exact ih _ (by omega)

/-- The operation is there, its outputs are nodes of the graph and their number is right, so
that only the transfer function can fail. -/
theorem evaluate_eq_error {a : Analysis σ} (counted : a.Counted) {ops : List Operation}
    {states : States σ} {id : OperationId} {rest : List OperationId} {e : Fault}
    (inv : Invariant a ops ⟨states, id :: rest⟩)
    (h : evaluate a (.ofOperations ops) ⟨states, rest⟩ id = .error e) : a.FailsOn ops e := by
  obtain ⟨o', ho', hid, -⟩ := inv.awake id (.inl List.mem_cons_self)
  subst hid
  obtain ⟨o, hlook⟩ := FlowGraph.exists_lookup (List.mem_map_of_mem ho')
  have ho := (FlowGraph.mem_of_lookup hlook).1
  rw [evaluate, FlowGraph.operation_eq_ok.mpr hlook] at h
  change (a.transfer o (o.inputs.map (stateOf a states)) >>= fun outs => _) = _ at h
  rcases Outcome.bind_eq_error.mp h with h | ⟨outs, houts, h⟩
  · exact ⟨o, ho, _, List.length_map _, h⟩
  · have hlen := counted o _ outs houts
    obtain ⟨p', hp', -⟩ := updateAll_raised a ho outs 0 (by omega) ⟨states, rest⟩
    rw [if_pos hlen, hp'] at h
    cases h

theorem ends_of_invariant {Good : σ → Prop} {rank : σ → Nat} {a : Analysis σ}
    (laws : a.JoinLaws) (ranked : a.Ranked Good rank) (counted : a.Counted)
    {ops : List Operation} {p : Progress σ} (inv : Invariant a ops p)
    (good : GoodStates Good p.states) :
    ∃ count result, Ends a (.ofOperations ops) p count result ∧
      count ≤ work a rank (.ofOperations ops) p ∧
        ∀ e, result = .error e → a.FailsOn ops e := by
  induction hw : work a rank (.ofOperations ops) p using Nat.strongRecOn generalizing p with
  | ind left ih =>
      obtain ⟨states, queue⟩ := p
      cases queue with
      | nil => exact ⟨0, .ok states, .done states, Nat.zero_le _, by simp⟩
      | cons id rest =>
          have hpos : 1 ≤ work a rank (.ofOperations ops) ⟨states, id :: rest⟩ := by
            simp only [work, List.length_cons]
            omega
          cases hmid : evaluate a (.ofOperations ops) ⟨states, rest⟩ id with
          | error e =>
              refine ⟨1, .error e, .fault hmid, by omega, ?_⟩
              intro e' he
              cases he
              exact evaluate_eq_error counted inv hmid
          | ok mid =>
              have hlt := evaluate_work_lt laws ranked inv good hmid
              have good' := evaluate_good (p := ⟨states, rest⟩) ranked good hmid
              obtain ⟨count, result, ends, hle, hfault⟩ :=
                ih _ (hw ▸ hlt) (evaluate_invariant laws inv hmid) good' rfl
              exact ⟨count + 1, result, .step hmid ends, by omega, hfault⟩

theorem solve_ends {Good : σ → Prop} {rank : σ → Nat} {a : Analysis σ} (laws : a.JoinLaws)
    (ranked : a.Ranked Good rank) (counted : a.Counted) (ops : List Operation) :
    ∃ start count result, seed a (.ofOperations ops) = .ok start ∧
      Ends a (.ofOperations ops) start count result ∧ count < fuel a (.ofOperations ops) ∧
        solve a (.ofOperations ops) = result ∧ ∀ e, result = .error e → a.FailsOn ops e := by
  obtain ⟨start, hstart, seeding, inv⟩ := seed_invariant a ops
  have good := seeding.good ranked
  obtain ⟨count, result, ends, hle, hfault⟩ := ends_of_invariant laws ranked counted inv good
  have hfuel := inv.work_lt_fuel rank
  have hrun := ends.run_eq (fuel a (.ofOperations ops)) (by omega)
  refine ⟨start, count, result, hstart, ends, by omega, ?_, hfault⟩
  rw [solve, hstart]
  exact hrun

end Worklist

end TagFlow
