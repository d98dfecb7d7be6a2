import TagFlow.Flow.Worklist
import TagFlow.Proofs.Related

/-! # Two analyses in lockstep

Analyses over different kinds of states mirror each other when corresponding inputs give
corresponding outputs and no two states correspond to one. Solving them takes the same steps: the
queues agree all along, since a change on one side is a change on the other.
-/

namespace TagFlow

variable {σ τ : Type} {R : σ → τ → Prop} {a : Analysis σ} {b : Analysis τ}

structure Analysis.Mirrors (R : σ → τ → Prop) (a : Analysis σ) (b : Analysis τ) : Prop where
  bottom : R a.bottom b.bottom
  initial : R a.initial b.initial
  height : a.height = b.height
  join : ∀ {x x' : σ} {y y' : τ}, R x y → R x' y' → R (a.join x x') (b.join y y')
  oneToOne : ∀ {x x' : σ} {y y' : τ}, R x y → R x' y' → (x = x' ↔ y = y')
  transfer : ∀ (o : Operation) {inputs : List σ} {inputs' : List τ},
    List.Forall₂ R inputs inputs' →
      Outcome.Related (List.Forall₂ R) (a.transfer o inputs) (b.transfer o inputs')

namespace Worklist

structure Progress.Mirrors (R : σ → τ → Prop) (p : Progress σ) (q : Progress τ) : Prop where
  states : p.states.Related R q.states
  queue : p.queue = q.queue

variable {p : Progress σ} {q : Progress τ}

theorem wake_mirrors (h : p.Mirrors R q) (g : FlowGraph) (v : Value) :
    Outcome.Related (Progress.Mirrors R) (wake g p v) (wake g q v) := by
  refine (Outcome.Related.refl (g.uses v)).bind fun uses _ e => ?_
  rw [← e]
  exact .ok ⟨h.states, by simp only [h.queue]⟩

theorem Progress.Mirrors.insert (h : p.Mirrors R q) (v : Value) {x : σ} {y : τ} (hxy : R x y) :
    Progress.Mirrors R { p with states := p.states.insert v x }
      { q with states := q.states.insert v y } :=
  ⟨h.states.insert v hxy, h.queue⟩

/-! ## Seeding -/

theorem seedInput_mirrors (m : Analysis.Mirrors R a b) (h : p.Mirrors R q) (g : FlowGraph)
    (v : Value) :
    Outcome.Related (Progress.Mirrors R) (seedInput a g p v) (seedInput b g q v) := by
  unfold seedInput
  rw [h.states.contains_eq v]
  split
  · exact .ok h
  · exact wake_mirrors (h.insert v m.initial) g v

theorem seedOperation_mirrors (m : Analysis.Mirrors R a b) (h : p.Mirrors R q) (g : FlowGraph)
    (o : Operation) :
    Outcome.Related (Progress.Mirrors R) (seedOperation a g p o) (seedOperation b g q o) := by
  unfold seedOperation
  refine Outcome.Related.foldlM_same o.inputs ?_ fun _ _ v h => seedInput_mirrors m h g v
  split
  · exact ⟨h.states, by rw [h.queue]⟩
  · exact h

theorem seed_mirrors (m : Analysis.Mirrors R a b) (g : FlowGraph) :
    Outcome.Related (Progress.Mirrors R) (seed a g) (seed b g) :=
  Outcome.Related.foldlM_same g.operations ⟨OrdMap.Related.empty, rfl⟩ fun _ _ o h =>
    seedOperation_mirrors m h g o

/-! ## Evaluating -/

theorem stateOf_mirrors (m : Analysis.Mirrors R a b) (h : p.Mirrors R q) (v : Value) :
    R (stateOf a p.states v) (stateOf b q.states v) :=
  Outcome.rel_getD (h.states v) m.bottom

variable [DecidableEq σ] [DecidableEq τ]

theorem update_mirrors (m : Analysis.Mirrors R a b) (h : p.Mirrors R q) (g : FlowGraph)
    (v : Value) {new : σ} {new' : τ} (hnew : R new new') :
    Outcome.Related (Progress.Mirrors R) (update a g p v new) (update b g q v new') := by
  have hold := stateOf_mirrors m h v
  have hjoined := m.join hold hnew
  unfold update
  rw [h.states.contains_eq v]
  by_cases same : stateOf a p.states v = a.join (stateOf a p.states v) new
  · simp only [if_pos same, if_pos ((m.oneToOne hold hjoined).mp same)]
    split
    · exact .ok h
    · exact .ok (h.insert v hjoined)
  · simp only [if_neg same, if_neg fun e => same ((m.oneToOne hold hjoined).mpr e)]
    exact wake_mirrors (h.insert v hjoined) g v

theorem updateAll_mirrors (m : Analysis.Mirrors R a b) (h : p.Mirrors R q) (g : FlowGraph)
    (o : Operation) (index : Nat) {new : List σ} {new' : List τ} (hnew : List.Forall₂ R new new') :
    Outcome.Related (Progress.Mirrors R) (updateAll a g p o index new)
      (updateAll b g q o index new') := by
  induction hnew generalizing p q index with
  | nil => exact .ok h
  | cons hfirst _ ih =>
      exact (update_mirrors m h g (.result o.id index) hfirst).bind fun _ _ h => ih h (index + 1)

theorem evaluate_mirrors (m : Analysis.Mirrors R a b) (h : p.Mirrors R q) (g : FlowGraph)
    (id : OperationId) :
    Outcome.Related (Progress.Mirrors R) (evaluate a g p id) (evaluate b g q id) := by
  refine (Outcome.Related.refl (g.operation id)).bind fun o _ e => ?_
  rw [← e]
  have inputs : List.Forall₂ R (o.inputs.map (stateOf a p.states))
      (o.inputs.map (stateOf b q.states)) := by
    rw [List.forall₂_map_left_iff, List.forall₂_map_right_iff]
    exact List.forall₂_same.mpr fun v _ => stateOf_mirrors m h v
  refine (m.transfer o inputs).bind fun new new' hnew => ?_
  rw [hnew.length_eq]
  split
  · exact updateAll_mirrors m h g o 0 hnew
  · exact .error _

theorem run_mirrors (m : Analysis.Mirrors R a b) (g : FlowGraph) (fuel : Nat)
    (h : p.Mirrors R q) :
    Outcome.Related (Progress.Mirrors R) (run a g fuel p) (run b g fuel q) := by
  induction fuel generalizing p q with
  | zero => exact .ok h
  | succ fuel ih =>
      unfold run
      rw [← h.queue]
      cases p.queue with
      | nil => exact .ok h
      | cons id rest =>
          have next : Progress.Mirrors R { p with queue := rest } { q with queue := rest } :=
            ⟨h.states, rfl⟩
          exact (evaluate_mirrors m next g id).bind fun _ _ h => ih h

theorem solve_mirrors (m : Analysis.Mirrors R a b) (g : FlowGraph) :
    Outcome.Related (OrdMap.Related R) (solve a g) (solve b g) := by
  have hfuel : fuel a g = fuel b g := by rw [fuel, fuel, m.height]
  unfold solve
  rw [hfuel]
  exact (seed_mirrors m g).bind fun _ _ h => (run_mirrors m g (fuel b g) h).bind fun _ _ h =>
    .ok h.states

end Worklist

end TagFlow
