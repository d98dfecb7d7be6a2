import Mathlib.Algebra.GroupWithZero.Nat
import Mathlib.Algebra.Order.BigOperators.Group.List
import Mathlib.Algebra.Order.Group.Nat
import TagFlow.Proofs.Flow.Seed

/-! # The queue runs empty

Each change of a state uses up some of the room that is left above it, and what is queued
fits into the list of operations. So the room, counted once for every operation, together
with the length of the queue falls with every evaluation, and the fuel of a run exceeds
what there is of it at the start. When the transfer function answers at all, the run
ends with an empty queue.
-/

namespace TagFlow

/-- States that a run can reach, with a rank that rises whenever joining changes a state
and stays within the height. -/
structure Analysis.Ranked {σ : Type} (a : Analysis σ) (Good : σ → Prop) (rank : σ → Nat) :
    Prop where
  good_bottom : Good a.bottom
  good_initial : Good a.initial
  good_join : ∀ s t, Good s → Good t → Good (a.join s t)
  good_transfer : ∀ o inputs outs, (∀ s, s ∈ inputs → Good s) →
    a.transfer o inputs = .ok outs → ∀ s, s ∈ outs → Good s
  rank_le : ∀ s, Good s → rank s ≤ a.height
  rank_lt : ∀ s t, Good s → Good t → a.join s t ≠ s → rank s < rank (a.join s t)

/-- The transfer function answers for these operations, one state for each output. -/
def Analysis.TotalOn {σ : Type} (a : Analysis σ) (ops : List Operation) : Prop :=
  ∀ o, o ∈ ops → ∀ inputs : List σ, inputs.length = o.inputs.length →
    ∃ outs, a.transfer o inputs = .ok outs ∧ outs.length = o.outputCount

namespace Worklist

variable {σ : Type} {Good : σ → Prop} {rank : σ → Nat}

/-! ## Good states -/

def GoodStates (Good : σ → Prop) (states : States σ) : Prop :=
  ∀ v s, states.find? v = some s → Good s

theorem GoodStates.stateOf {a : Analysis σ} (ranked : a.Ranked Good rank) {states : States σ}
    (h : GoodStates Good states) (v : Value) : Good (stateOf a states v) := by
  cases hf : states.find? v with
  | none =>
      rw [Worklist.stateOf, hf]
      exact ranked.good_bottom
  | some s =>
      rw [stateOf_of_find? hf]
      exact h v s hf

theorem Seeding.good {a : Analysis σ} (ranked : a.Ranked Good rank) {ops : List Operation}
    {p : Progress σ} (h : Seeding a ops p) : GoodStates Good p.states := by
  intro v s hs
  rw [(h.entries v s hs).2.1]
  exact ranked.good_initial

theorem Raised.good {a : Analysis σ} (ranked : a.Ranked Good rank) {ops : List Operation}
    {p p' : Progress σ} {new : Value → Option σ} (h : Raised a ops p new p')
    (good : GoodStates Good p.states) (hnew : ∀ v s, new v = some s → Good s) :
    GoodStates Good p'.states := by
  intro v t ht
  cases hv : new v with
  | none =>
      rw [h.kept v hv] at ht
      exact good v t ht
  | some s =>
      rw [h.raised v s hv] at ht
      cases ht
      exact ranked.good_join _ _ (good.stateOf ranked v) (hnew v s hv)

/-! ## Room above the states -/

/-- How often the state at a node can still change. -/
def room (a : Analysis σ) (rank : σ → Nat) (states : States σ) : Node → Nat
  | .value v => a.height - rank (stateOf a states v)
  | .operation _ => 0

def totalRoom (a : Analysis σ) (rank : σ → Nat) (g : FlowGraph) (states : States σ) : Nat :=
  (g.nodes.toList.map (room a rank states)).sum

theorem totalRoom_le (a : Analysis σ) (rank : σ → Nat) (g : FlowGraph) (states : States σ) :
    totalRoom a rank g states ≤ g.nodes.size * a.height := by
  have h := List.sum_le_card_nsmul (g.nodes.toList.map (room a rank states)) a.height (by
    intro x hx
    obtain ⟨n, -, rfl⟩ := List.mem_map.mp hx
    cases n with
    | value v => exact Nat.sub_le _ _
    | operation id => exact Nat.zero_le _)
  simpa [totalRoom, OrdSet.size] using h

theorem Raised.rank_le {a : Analysis σ} (ranked : a.Ranked Good rank) {ops : List Operation}
    {p p' : Progress σ} {new : Value → Option σ} (h : Raised a ops p new p')
    (good : GoodStates Good p.states) (hnew : ∀ v s, new v = some s → Good s) (v : Value) :
    rank (stateOf a p.states v) ≤ rank (stateOf a p'.states v) ∧
      (stateOf a p'.states v ≠ stateOf a p.states v →
        rank (stateOf a p.states v) < rank (stateOf a p'.states v)) := by
  cases hv : new v with
  | none =>
      rw [h.stateOf_kept hv]
      exact ⟨Nat.le_refl _, fun e => absurd rfl e⟩
  | some s =>
      rw [h.stateOf_raised hv]
      have hlt := ranked.rank_lt _ s (good.stateOf ranked v) (hnew v s hv)
      refine ⟨?_, hlt⟩
      by_cases e : a.join (stateOf a p.states v) s = stateOf a p.states v
      · rw [e]
      · exact Nat.le_of_lt (hlt e)

/-- Room never grows, and shrinks when the state of a node changes. -/
theorem Raised.totalRoom_lt {a : Analysis σ} (ranked : a.Ranked Good rank)
    {ops : List Operation} {p p' : Progress σ} {new : Value → Option σ}
    (h : Raised a ops p new p') (good : GoodStates Good p.states)
    (hnew : ∀ v s, new v = some s → Good s) (g : FlowGraph) {v : Value}
    (hv : Node.value v ∈ g.nodes) (changed : stateOf a p'.states v ≠ stateOf a p.states v) :
    totalRoom a rank g p'.states < totalRoom a rank g p.states := by
  have good' := h.good ranked good hnew
  apply List.sum_lt_sum
  · intro n _
    cases n with
    | value w =>
        have := (h.rank_le ranked good hnew w).1
        simp only [room]
        omega
    | operation id => exact Nat.le_refl _
  · refine ⟨.value v, hv, ?_⟩
    have hlt := (h.rank_le ranked good hnew v).2 changed
    have hle := ranked.rank_le _ (good'.stateOf ranked v)
    simp only [room]
    omega

/-! ## One evaluation -/

/-- What is left to do: room for every operation, and the queue. -/
def work (a : Analysis σ) (rank : σ → Nat) (g : FlowGraph) (p : Progress σ) : Nat :=
  totalRoom a rank g p.states * g.order.length + p.queue.length

theorem Invariant.queue_le {a : Analysis σ} {ops : List Operation} {p : Progress σ}
    (inv : Invariant a ops p) : p.queue.length ≤ (FlowGraph.ofOperations ops).order.length := by
  refine (List.subperm_of_subset inv.nodup ?_).length_le
  intro id hid
  obtain ⟨o, ho, rfl, -⟩ := inv.awake id (.inl hid)
  rw [FlowGraph.order_ofOperations]
  exact List.mem_map_of_mem ho

theorem Invariant.work_lt_fuel {a : Analysis σ} {ops : List Operation} {p : Progress σ}
    (inv : Invariant a ops p) (rank : σ → Nat) :
    work a rank (.ofOperations ops) p < fuel a (.ofOperations ops) := by
  have hroom := Nat.mul_le_mul_right (FlowGraph.ofOperations ops).order.length
    (totalRoom_le a rank (.ofOperations ops) p.states)
  have hqueue := inv.queue_le
  unfold work fuel
  rw [Nat.mul_add, Nat.mul_one, Nat.mul_comm _ (_ * a.height)]
  omega

theorem good_outputs {a : Analysis σ} (ranked : a.Ranked Good rank) {states : States σ}
    (good : GoodStates Good states) {o : Operation} {outs : List σ}
    (houts : a.transfer o (o.inputs.map (stateOf a states)) = .ok outs) (id : OperationId)
    (v : Value) (s : σ) (hs : outputStates id 0 outs v = some s) : Good s := by
  refine ranked.good_transfer o _ outs ?_ houts s (mem_of_outputStates hs).1
  intro t ht
  obtain ⟨w, -, rfl⟩ := List.mem_map.mp ht
  exact good.stateOf ranked w

variable [DecidableEq σ]

theorem evaluate_good {a : Analysis σ} (ranked : a.Ranked Good rank) {ops : List Operation}
    {p p' : Progress σ} {id : OperationId} (good : GoodStates Good p.states)
    (h : evaluate a (.ofOperations ops) p id = .ok p') : GoodStates Good p'.states := by
  obtain ⟨o, outs, -, houts, -, raised⟩ := evaluate_raised h
  exact raised.good ranked good (good_outputs ranked good houts id)

/-- A change uses up room, more than the queue can gain by it. -/
theorem work_lt_of_changed {a : Analysis σ} (ranked : a.Ranked Good rank) {ops : List Operation}
    {states : States σ} {id : OperationId} {rest : List OperationId} {p' : Progress σ}
    (inv' : Invariant a ops p') (good : GoodStates Good states)
    (h : evaluate a (.ofOperations ops) ⟨states, rest⟩ id = .ok p') {v : Value}
    (hv : stateOf a p'.states v ≠ stateOf a states v) :
    work a rank (.ofOperations ops) p' < work a rank (.ofOperations ops) ⟨states, id :: rest⟩ := by
  obtain ⟨o, outs, hlook, houts, hlen, raised⟩ := evaluate_raised h
  have hnew := good_outputs ranked good houts id
  have hnode : Node.value v ∈ (FlowGraph.ofOperations ops).nodes := by
    cases hs : outputStates id 0 outs v with
    | none => exact absurd (raised.stateOf_kept hs) hv
    | some s =>
        obtain ⟨-, i, hi, rfl⟩ := mem_of_outputStates hs
        obtain ⟨ho, hid⟩ := FlowGraph.mem_of_lookup hlook
        refine FlowGraph.mem_nodes_ofOperations.mpr ⟨o, ho, .inr ⟨_, .inr ?_, rfl⟩⟩
        exact FlowGraph.mem_outputs.mpr ⟨i, by omega, by rw [hid]⟩
  have hroom := raised.totalRoom_lt ranked good hnew (.ofOperations ops) hnode hv
  have hqueue := inv'.queue_le
  have hmul := Nat.mul_le_mul_right (FlowGraph.ofOperations ops).order.length hroom
  rw [Nat.succ_mul] at hmul
  simp only [work, List.length_cons] at hmul ⊢
  omega

/-- Without a change exactly the evaluated operation has left the queue. -/
theorem work_lt_of_same {a : Analysis σ} {ops : List Operation}
    {states : States σ} {id : OperationId} {rest : List OperationId} {p' : Progress σ}
    (inv : Invariant a ops ⟨states, id :: rest⟩) (inv' : Invariant a ops p')
    (h : evaluate a (.ofOperations ops) ⟨states, rest⟩ id = .ok p')
    (same : ∀ v, stateOf a p'.states v = stateOf a states v) :
    work a rank (.ofOperations ops) p' < work a rank (.ofOperations ops) ⟨states, id :: rest⟩ := by
  obtain ⟨o, outs, -, -, -, raised⟩ := evaluate_raised h
  have hperm : p'.queue.Perm rest := by
    refine (List.perm_ext_iff_of_nodup inv'.nodup inv.nodup.of_cons).mpr fun x => ?_
    rw [raised.queue]
    simp [same]
  have hroom : totalRoom a rank (.ofOperations ops) p'.states =
      totalRoom a rank (.ofOperations ops) states := by
    unfold totalRoom
    congr 2
    funext n
    cases n with
    | value v => simp only [room, same]
    | operation id => rfl
  simp only [work, List.length_cons, hroom, hperm.length_eq]
  omega

theorem evaluate_work_lt {a : Analysis σ} (laws : a.JoinLaws) (ranked : a.Ranked Good rank)
    {ops : List Operation} {states : States σ} {id : OperationId} {rest : List OperationId}
    {p' : Progress σ} (inv : Invariant a ops ⟨states, id :: rest⟩)
    (good : GoodStates Good states)
    (h : evaluate a (.ofOperations ops) ⟨states, rest⟩ id = .ok p') :
    work a rank (.ofOperations ops) p' < work a rank (.ofOperations ops) ⟨states, id :: rest⟩ := by
  have inv' := evaluate_invariant laws inv h
  by_cases hch : ∃ v, stateOf a p'.states v ≠ stateOf a states v
  · obtain ⟨v, hv⟩ := hch
    exact work_lt_of_changed ranked inv' good h hv
  · have same : ∀ v, stateOf a p'.states v = stateOf a states v := by
      intro v
      by_contra e
      exact hch ⟨v, e⟩
    exact work_lt_of_same inv inv' h same

/-! ## Whole runs -/

theorem run_queue_empty {a : Analysis σ} (laws : a.JoinLaws) (ranked : a.Ranked Good rank)
    {ops : List Operation} (fuel : Nat) {p p' : Progress σ} (inv : Invariant a ops p)
    (good : GoodStates Good p.states) (hfuel : work a rank (.ofOperations ops) p < fuel)
    (h : run a (.ofOperations ops) fuel p = .ok p') : p'.queue = [] := by
  induction fuel generalizing p with
  | zero => omega
  | succ fuel ih =>
      obtain ⟨states, queue⟩ := p
      cases queue with
      | nil =>
          cases h
          rfl
      | cons id rest =>
          rw [run_cons] at h
          obtain ⟨mid, hmid, h⟩ := Outcome.bind_eq_ok.mp h
          have hlt := evaluate_work_lt laws ranked inv good hmid
          have good' := evaluate_good (p := ⟨states, rest⟩) ranked good hmid
          exact ih (evaluate_invariant laws inv hmid) good' (by omega) h

theorem evaluate_total {a : Analysis σ} {ops : List Operation} (total : a.TotalOn ops)
    {states : States σ} {id : OperationId} {rest : List OperationId}
    (inv : Invariant a ops ⟨states, id :: rest⟩) :
    ∃ p', evaluate a (.ofOperations ops) ⟨states, rest⟩ id = .ok p' := by
  obtain ⟨o', ho', hid, -⟩ := inv.awake id (.inl (by simp))
  subst hid
  obtain ⟨o, hlook⟩ := FlowGraph.exists_lookup (List.mem_map_of_mem ho')
  have ho := (FlowGraph.mem_of_lookup hlook).1
  obtain ⟨outs, houts, hlen⟩ := total o ho (o.inputs.map (stateOf a states)) (by simp)
  obtain ⟨p', hp', -⟩ := updateAll_raised a ho outs 0 (by omega) ⟨states, rest⟩
  refine ⟨p', ?_⟩
  rw [evaluate, FlowGraph.operation_eq_ok.mpr hlook]
  simp only [bind, Except.bind, houts, hlen, if_true]
  exact hp'

theorem run_total {a : Analysis σ} (laws : a.JoinLaws) {ops : List Operation}
    (total : a.TotalOn ops) (fuel : Nat) {p : Progress σ} (inv : Invariant a ops p) :
    ∃ p', run a (.ofOperations ops) fuel p = .ok p' := by
  induction fuel generalizing p with
  | zero => exact ⟨p, rfl⟩
  | succ fuel ih =>
      obtain ⟨states, queue⟩ := p
      cases queue with
      | nil => exact ⟨_, rfl⟩
      | cons id rest =>
          obtain ⟨mid, hmid⟩ := evaluate_total total inv
          obtain ⟨p', hp'⟩ := ih (evaluate_invariant laws inv hmid)
          exact ⟨p', by rw [run_cons, hmid]; exact hp'⟩

/-- The states that are returned satisfy the invariant with nothing left in the queue. -/
theorem solve_invariant {a : Analysis σ} (laws : a.JoinLaws) (ranked : a.Ranked Good rank)
    {ops : List Operation} {states : States σ} (h : solve a (.ofOperations ops) = .ok states) :
    Invariant a ops ⟨states, []⟩ := by
  obtain ⟨start, hstart, h⟩ := Outcome.bind_eq_ok.mp h
  obtain ⟨done, hdone, h⟩ := Outcome.bind_eq_ok.mp h
  cases h
  obtain ⟨start', hstart', seeding, inv⟩ := seed_invariant a ops
  rw [hstart] at hstart'
  cases hstart'
  have good := seeding.good ranked
  have hfuel := inv.work_lt_fuel rank
  have hempty := run_queue_empty laws ranked _ inv good hfuel hdone
  have hinv := run_invariant laws _ inv hdone
  obtain ⟨states, queue⟩ := done
  cases hempty
  exact hinv

theorem solve_total {a : Analysis σ} (laws : a.JoinLaws) {ops : List Operation}
    (total : a.TotalOn ops) : ∃ states, solve a (.ofOperations ops) = .ok states := by
  obtain ⟨start, hstart, -, inv⟩ := seed_invariant a ops
  obtain ⟨done, hdone⟩ := run_total laws total (fuel a (.ofOperations ops)) inv
  refine ⟨done.states, ?_⟩
  rw [solve, hstart]
  simp only [bind, Except.bind, hdone]
  rfl

end Worklist

end TagFlow
