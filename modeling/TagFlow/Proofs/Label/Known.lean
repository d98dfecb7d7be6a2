import TagFlow.Policy.Egress
import TagFlow.Proofs.Flow.Bottom
import TagFlow.Proofs.Label.Transfer
import TagFlow.Proofs.Program.Dataflow

/-! # Which labels are known

An operation without an action passes every secrecy tag on once all its inputs are known,
and passes nothing on before. Its inputs are known unless a loop lies on the way to it: an
operation that waits for its own result is never evaluated on known inputs.
-/

namespace TagFlow

/-- The label is known and carries the secrecy tag. -/
def Label.HasSecrecy (l : Label) (tag : Tag) : Prop :=
  ∃ secrecy integrity, l = .known secrecy integrity ∧ tag ∈ secrecy

/-- An egress operation of the module reads the value. -/
def Egress.Releases (egress : List String) (m : Module) (v : Value) : Prop :=
  ∃ out, out ∈ m.occurrences ∧ out.operator ∈ egress ∧ v ∈ out.inputs

instance (egress : List String) (m : Module) (v : Value) :
    Decidable (Egress.Releases egress m v) :=
  inferInstanceAs (Decidable (∃ out, out ∈ m.occurrences ∧ out.operator ∈ egress ∧ v ∈ out.inputs))

namespace Label

instance (tag : Tag) : (l : Label) → Decidable (l.HasSecrecy tag)
  | unknown => isFalse fun ⟨_, _, e, _⟩ => Label.noConfusion e
  | known s i => decidable_of_iff (tag ∈ s)
      ⟨fun h => ⟨s, i, rfl, h⟩, fun ⟨_, _, e, h⟩ => (known.inj e).1 ▸ h⟩

theorem HasSecrecy.of_join {l m : Label} {tag : Tag} (h : l.HasSecrecy tag)
    (hjoin : m.join l = m) : m.HasSecrecy tag := by
  obtain ⟨s, i, rfl, htag⟩ := h
  cases m with
  | unknown => cases hjoin
  | known s' i' => exact ⟨s', i', rfl, (join_eq_left_iff.mp hjoin).1 tag htag⟩

theorem known_of_join {l m : Label} (h : l ≠ unknown) (hjoin : m.join l = m) : m ≠ unknown := by
  intro hm
  rw [hm, unknown_join] at hjoin
  exact h hjoin

end Label

namespace RuleSet

open Worklist

variable {r : RuleSet} {m : Module} {states : States Label} {o : Operation}

theorem needsAll_of_unmarked (h : r.actions.find? o.id = none) : r.analysis.NeedsAll o := by
  intro inputs outs houts hunknown s hs
  have ht := transfer_unmarked h inputs
  rw [show r.transfer o inputs = .ok outs from houts, Except.ok.injEq] at ht
  rw [ht] at hs
  rw [List.eq_of_mem_replicate hs]
  exact Label.default_of_unknown hunknown

theorem find?_of_known {v : Value} {s i : TagSet}
    (h : stateOf r.analysis states v = .known s i) : states.find? v = some (.known s i) :=
  find?_of_stateOf h Label.noConfusion

theorem mem_lookup (distinct : (m.occurrences.map (·.id)).Nodup) (ho : o ∈ m.occurrences) :
    o ∈ (FlowGraph.ofOperations m.occurrences).operations := by
  rw [FlowGraph.operations_eq_of_distinct distinct]
  exact ho

theorem outside_known (distinct : (m.occurrences.map (·.id)).Nodup)
    (h : r.labels m = .ok states) (ho : o ∈ m.occurrences) {v : Value} (hv : v ∈ o.inputs)
    (hr : v.isResult = false) : stateOf r.analysis states v ≠ .unknown := by
  have inv := solve_invariant r.analysis_joinLaws r.analysis_ranked h
  rw [stateOf_of_find? (inv.seeded o (mem_lookup distinct ho) v hv hr)]
  exact Label.noConfusion

/-- An operation with known inputs only has been evaluated on them. -/
theorem settled_of_known (distinct : (m.occurrences.map (·.id)).Nodup)
    (h : r.labels m = .ok states) (ho : o ∈ m.occurrences)
    (known : ∀ v, v ∈ o.inputs → stateOf r.analysis states v ≠ .unknown) :
    Settled r.analysis states o := by
  have inv := solve_invariant r.analysis_joinLaws r.analysis_ranked h
  rcases inv.covered o (mem_lookup distinct ho) with hq | settled | dormant
  · cases hq
  · exact settled
  · obtain ⟨hne, hbottom, -⟩ := dormant
    obtain ⟨v, hv⟩ := List.exists_mem_of_ne_nil o.inputs hne
    exact absurd (hbottom v hv).2 (known v hv)

theorem outputs_known (distinct : (m.occurrences.map (·.id)).Nodup)
    (h : r.labels m = .ok states) (ho : o ∈ m.occurrences)
    (known : ∀ v, v ∈ o.inputs → stateOf r.analysis states v ≠ .unknown) :
    ∀ w, w ∈ o.outputs → stateOf r.analysis states w ≠ .unknown := by
  intro w hw
  obtain ⟨i, hi, rfl⟩ := FlowGraph.mem_outputs.mp hw
  obtain ⟨outs, houts, hlen, hjoin⟩ := settled_of_known distinct h ho known
  have hlt : i < outs.length := by omega
  obtain ⟨t, ht, hle⟩ := hjoin i outs[i] (List.getElem?_eq_getElem hlt)
  rw [stateOf_of_find? ht]
  have hout : outs[i] ≠ .unknown := by
    apply transfer_known _ houts _ (List.getElem_mem hlt)
    intro l hl
    obtain ⟨v, hv, rfl⟩ := List.mem_map.mp hl
    exact known v hv
  exact Label.known_of_join hout hle

/-! ## Operations without an action -/

theorem unmarked_outputs (distinct : (m.occurrences.map (·.id)).Nodup)
    (h : r.labels m = .ok states) (ho : o ∈ m.occurrences)
    (unmarked : r.actions.find? o.id = none)
    (known : ∀ v, v ∈ o.inputs → stateOf r.analysis states v ≠ .unknown) {v : Value} {tag : Tag}
    (hv : v ∈ o.inputs) (htag : (stateOf r.analysis states v).HasSecrecy tag) :
    ∀ w, w ∈ o.outputs → (stateOf r.analysis states w).HasSecrecy tag := by
  intro w hw
  obtain ⟨i, hi, rfl⟩ := FlowGraph.mem_outputs.mp hw
  obtain ⟨outs, houts, hlen, hjoin⟩ := settled_of_known distinct h ho known
  have hlt : i < outs.length := by omega
  obtain ⟨t, ht, hle⟩ := hjoin i outs[i] (List.getElem?_eq_getElem hlt)
  rw [stateOf_of_find? ht]
  apply Label.HasSecrecy.of_join _ hle
  have hnone : ¬ .unknown ∈ o.inputs.map (stateOf r.analysis states) := by
    intro hu
    obtain ⟨u, hu, hunknown⟩ := List.mem_map.mp hu
    exact known u hu hunknown
  obtain ⟨secrecy, hdefault, hmem⟩ := Label.default_of_known hnone
  have hout : ∀ l, l ∈ outs → l = Label.default (o.inputs.map (stateOf r.analysis states)) := by
    intro l hl
    have houts' := transfer_unmarked unmarked (o.inputs.map (stateOf r.analysis states))
    rw [show r.transfer o _ = .ok outs from houts, Except.ok.injEq] at houts'
    exact List.eq_of_mem_replicate (houts' ▸ hl)
  obtain ⟨s, j, hs, hts⟩ := htag
  rw [hout _ (List.getElem_mem hlt), hdefault]
  exact ⟨secrecy, .empty, rfl, (hmem tag).mpr ⟨s, j, hs ▸ List.mem_map_of_mem hv, hts⟩⟩

theorem unmarked_outputs_unknown (distinct : (m.occurrences.map (·.id)).Nodup)
    (h : r.labels m = .ok states) (ho : o ∈ m.occurrences)
    (unmarked : r.actions.find? o.id = none) {u : Value} (hu : u ∈ o.inputs)
    (unknown : stateOf r.analysis states u = .unknown) :
    ∀ w, w ∈ o.outputs → stateOf r.analysis states w = .unknown := by
  intro w hw
  obtain ⟨i, -, rfl⟩ := FlowGraph.mem_outputs.mp hw
  have supported := solve_supported r.analysis_joinLaws h
  by_contra hknown
  exact supported o (mem_lookup distinct ho) (needsAll_of_unmarked unmarked) i hknown u hu unknown

/-! ## Along the dataflow -/

/-- All labels on the way to an operation are known, unless there is a loop on it. -/
theorem inputs_known_of_acc (linked : m.Linked) (h : r.labels m = .ok states)
    {id : OperationId} (acc : Acc m.Feeds id) :
    ∀ o, o ∈ m.operations → o.id = id →
      ∀ v, v ∈ o.inputs → stateOf r.analysis states v ≠ .unknown := by
  have hocc : m.occurrences = m.operations := linked.flat.occurrences
  have distinct : (m.occurrences.map (·.id)).Nodup := hocc ▸ linked.distinct
  induction acc with
  | intro id _ ih =>
      intro o ho hid v hv
      cases hr : v.isResult with
      | false => exact outside_known distinct h (hocc ▸ ho) hv hr
      | true =>
          obtain ⟨producer, index, rfl⟩ := Value.isResult_iff.mp hr
          obtain ⟨p, hp, rfl, hindex⟩ := linked.reads o ho producer index hv
          have known := ih p.id ⟨o, ho, hid, index, hv⟩ p hp rfl
          exact outputs_known distinct h (hocc ▸ hp) known _
            (FlowGraph.mem_outputs.mpr ⟨index, hindex, rfl⟩)

/-! ## Egress -/

/-- One secret that an egress operation reads is enough to fail. -/
theorem check_eq_false (distinct : (m.occurrences.map (·.id)).Nodup)
    (h : r.labels m = .ok states) {egress : List String} {v : Value}
    (released : Egress.Releases egress m v) {tag : Tag}
    (htag : (stateOf r.analysis states v).HasSecrecy tag) :
    Egress.check r egress m = .ok false := by
  obtain ⟨out, hout, hop, hv⟩ := released
  have hcheck : Egress.check r egress m =
      .ok (Egress.complies egress (.ofModule m) states) := by
    rw [Egress.check, show Worklist.solve r.analysis (.ofModule m) = .ok states from h]
    rfl
  rw [hcheck, Except.ok.injEq, Bool.eq_false_iff]
  intro hall
  have hharmless : Egress.harmless states v = true := by
    simp only [Egress.complies, List.all_eq_true, List.mem_filter, decide_eq_true_eq] at hall
    exact hall out ⟨mem_lookup distinct hout, hop⟩ v hv
  obtain ⟨s, i, hs, hts⟩ := htag
  rw [Egress.harmless, find?_of_known hs] at hharmless
  exact OrdSet.isEmpty_iff.mp hharmless tag hts

end RuleSet

end TagFlow
