import Mathlib.Data.List.Sort
import Mathlib.SetTheory.Ordinal.Rank
import TagFlow.Proofs.Flow.Termination
import TagFlow.Proofs.Program.Dataflow

/-! # Evaluating every operation once

Where the dataflow has no loops, the operations can be put into an order in which each comes
after those that feed it, and evaluating each of them once in that order solves the analysis:
every operation has what its transfer function says about its inputs. Along the dataflow
such a solution is unique, also up to a relation that the transfer functions keep.
-/

namespace TagFlow

/-- The operations of the module in an order in which none is fed by a later one. -/
structure Module.DependencyOrder (m : Module) (order : List Operation) : Prop where
  perm : order.Perm m.operations
  before : order.Pairwise fun o p => ¬ m.Feeds p.id o.id

theorem Module.Acyclic.exists_dependencyOrder {m : Module} (h : m.Acyclic) :
    ∃ order, m.DependencyOrder order := by
  classical
  have : IsWellFounded OperationId m.Feeds := ⟨h.wellFounded⟩
  let depth : Operation → Ordinal := fun o => IsWellFounded.rank m.Feeds o.id
  let le : Operation → Operation → Prop := fun o p => depth o ≤ depth p
  have : Std.Total le := ⟨fun o p => le_total (depth o) (depth p)⟩
  have : IsTrans Operation le := ⟨fun _ _ _ => le_trans⟩
  refine ⟨m.operations.insertionSort le, List.perm_insertionSort le _, ?_⟩
  apply (List.pairwise_insertionSort le m.operations).imp
  intro o p hle feeds
  exact absurd (IsWellFounded.rank_lt_of_rel feeds) (not_lt.mpr hle)

namespace Worklist

variable {σ : Type}

/-- The state in which an input is read: whatever comes from outside is in the initial one. -/
def inputState (a : Analysis σ) (states : States σ) (v : Value) : σ :=
  if v.isResult then stateOf a states v else a.initial

def record (states : States σ) (id : OperationId) (index : Nat) : List σ → States σ
  | [] => states
  | s :: rest => record (states.insert (.result id index) s) id (index + 1) rest

def sweepOne (a : Analysis σ) (states : States σ) (o : Operation) : Except Fault (States σ) := do
  let outs ← a.transfer o (o.inputs.map (inputState a states))
  return record states o.id 0 outs

def sweep (a : Analysis σ) (order : List Operation) : Except Fault (States σ) :=
  order.foldlM (sweepOne a) .empty

/-- The outputs have exactly what the transfer function says about the inputs. -/
def Solves (a : Analysis σ) (states : States σ) (o : Operation) : Prop :=
  ∃ outs, a.transfer o (o.inputs.map (inputState a states)) = .ok outs ∧
    outs.length = o.outputCount ∧
    ∀ (i : Nat) (s : σ), outs[i]? = some s → states.find? (.result o.id i) = some s

theorem find?_record (states : States σ) (id : OperationId) (index : Nat) (outs : List σ)
    (v : Value) :
    (record states id index outs).find? v =
      (outputStates id index outs v).or (states.find? v) := by
  induction outs generalizing states index with
  | nil => rw [outputStates_nil, Option.none_or, record]
  | cons s outs ih =>
      rw [record, ih, outputStates_cons]
      by_cases e : v = .result id index
      · rw [e, outputStates_succ_self, Option.none_or, OrdMap.find?_insert_self]
        simp [only]
      · rw [only_eq_none.mpr e, Option.none_or, OrdMap.find?_insert_of_ne _ _ e]

theorem find?_record_of_ne {states : States σ} {id : OperationId} {outs : List σ} {v : Value}
    (h : ∀ index, v ≠ .result id index) : (record states id 0 outs).find? v = states.find? v := by
  rw [find?_record]
  cases hnew : outputStates id 0 outs v with
  | none => rw [Option.none_or]
  | some s =>
      obtain ⟨i, -, hv⟩ := (mem_of_outputStates hnew).2
      exact absurd hv (h i)

/-! ## A sweep solves -/

variable {a : Analysis σ} {m : Module} {states : States σ}

theorem inputState_record {o q : Operation} (hq : q ∈ m.operations)
    (apart : ¬ m.Feeds o.id q.id) (outs : List σ) :
    q.inputs.map (inputState a (record states o.id 0 outs)) =
      q.inputs.map (inputState a states) := by
  apply List.map_congr_left
  intro v hv
  unfold inputState stateOf
  rw [find?_record_of_ne]
  intro index e
  exact apart ⟨q, hq, rfl, index, e ▸ hv⟩

theorem Solves.record {o q : Operation} (h : Solves a states q) (hq : q ∈ m.operations)
    (apart : ¬ m.Feeds o.id q.id) (hid : q.id ≠ o.id) (outs : List σ) :
    Solves a (record states o.id 0 outs) q := by
  obtain ⟨own, hown, hlen, hfind⟩ := h
  refine ⟨own, by rw [inputState_record hq apart]; exact hown, hlen, ?_⟩
  intro i s hs
  rw [find?_record_of_ne (by simp [hid])]
  exact hfind i s hs

theorem sweep_solves (distinct : (m.operations.map (·.id)).Nodup) (acyclic : m.Acyclic)
    (total : a.TotalOn m.operations) {order : List Operation} (h : m.DependencyOrder order) :
    ∃ swept, sweep a order = .ok swept ∧ ∀ o, o ∈ m.operations → Solves a swept o := by
  obtain ⟨swept, hswept, solves⟩ := Outcome.foldlM_total (f := sweepOne a)
    (fun done swept => ∀ o, o ∈ done → Solves a swept o) (l := order) (s := .empty) (by simp) (by
      intro done o states hnext solves
      have mem : ∀ q, q ∈ done ++ [o] → q ∈ m.operations := fun q hq =>
        h.perm.mem_iff.mp (hnext.subset hq)
      have ho := mem o (by simp)
      obtain ⟨outs, houts, hlen⟩ :=
        total o ho (o.inputs.map (inputState a states)) (List.length_map _)
      refine ⟨record states o.id 0 outs, by rw [sweepOne, houts]; rfl, ?_⟩
      have ids : ((done ++ [o]).map (·.id)).Nodup :=
        ((h.perm.map _).nodup_iff.mpr distinct).sublist (hnext.sublist.map _)
      rw [List.map_append, List.nodup_append] at ids
      have before := (List.pairwise_append.mp (h.before.sublist hnext.sublist)).2.2
      intro q hq
      rcases List.mem_append.mp hq with hq | hq
      · have hid : q.id ≠ o.id := ids.2.2 _ (List.mem_map_of_mem hq) _ (by simp)
        exact (solves q hq).record (mem q (List.mem_append_left _ hq))
          (before q hq o (by simp)) hid outs
      · rw [List.mem_singleton.mp hq]
        have apart : ¬ m.Feeds o.id o.id := fun feeds => acyclic o.id (.single feeds)
        refine ⟨outs, by rw [inputState_record ho apart]; exact houts, hlen, ?_⟩
        intro i s hs
        rw [find?_record, outputStates_result, hs]
        rfl)
  exact ⟨swept, hswept, fun o ho => solves o (h.perm.mem_iff.mpr ho)⟩

/-! ## Solutions are unique -/

/-- Two solutions are related at an operation if the transfer functions keep the relation and
both solve all that feeds the operation, directly or through others. -/
theorem solves_related {τ : Type} {b : Analysis τ} {states' : States τ} {R : σ → τ → Prop}
    (linked : m.Linked) (initial : R a.initial b.initial)
    (kept : ∀ o, o ∈ m.operations → ∀ inputs inputs' outs outs',
      List.Forall₂ R inputs inputs' → inputs.length = o.inputs.length →
        a.transfer o inputs = .ok outs → b.transfer o inputs' = .ok outs' →
          List.Forall₂ R outs outs')
    {id : OperationId} (acc : Acc m.Feeds id)
    (solved : ∀ q, q ∈ m.operations → Relation.ReflTransGen m.Feeds q.id id →
      Solves a states q ∧ Solves b states' q) :
    ∀ o, o ∈ m.operations → o.id = id → ∀ v, v ∈ o.outputs →
      ∃ s s', states.find? v = some s ∧ states'.find? v = some s' ∧ R s s' := by
  induction acc with
  | intro id _ ih =>
      intro o ho hid v hv
      obtain ⟨⟨outs, houts, hlen, hfind⟩, ⟨outs', houts', hlen', hfind'⟩⟩ :=
        solved o ho (hid ▸ .refl)
      have read : ∀ v, v ∈ o.inputs → R (inputState a states v) (inputState b states' v) := by
        intro v hv
        unfold inputState
        cases hr : v.isResult with
        | false => exact initial
        | true =>
            obtain ⟨producer, index, rfl⟩ := Value.isResult_iff.mp hr
            obtain ⟨p, hp, rfl, hindex⟩ := linked.reads o ho producer index hv
            have feeds : m.Feeds p.id id := ⟨o, ho, hid, index, hv⟩
            obtain ⟨s, s', hs, hs', related⟩ := ih p.id feeds
              (fun q hq way => solved q hq (way.tail feeds)) p hp rfl _
              (FlowGraph.mem_outputs.mpr ⟨index, hindex, rfl⟩)
            simp only [if_true, stateOf_of_find? hs, stateOf_of_find? hs']
            exact related
      have inputs : List.Forall₂ R (o.inputs.map (inputState a states))
          (o.inputs.map (inputState b states')) := by
        rw [List.forall₂_map_left_iff, List.forall₂_map_right_iff, List.forall₂_same]
        exact read
      obtain ⟨i, hi, rfl⟩ := FlowGraph.mem_outputs.mp hv
      have hlt : i < outs.length := by omega
      have hs : outs[i]? = some outs[i] := List.getElem?_eq_getElem hlt
      obtain ⟨s', hs', related⟩ := Outcome.getElem?_of_forall₂
        (kept o ho _ _ outs outs' inputs (List.length_map _) houts houts') hs
      exact ⟨outs[i], s', hfind i _ hs, hfind' i _ hs', related⟩

end Worklist

end TagFlow
