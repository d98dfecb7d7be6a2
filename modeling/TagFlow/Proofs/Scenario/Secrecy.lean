import TagFlow.Policy.Compile
import TagFlow.Proofs.Scenario.Lowering

/-! # Secrecy through operations without an action

In a lowered scenario an operation without an action never drops a secrecy tag, provided
that all its inputs are known. While one of them is unknown its outputs are unknown too, and
no tag leaves it. Only a loop on the way to the operation can leave an input unknown.
-/

namespace TagFlow

open Worklist

/-- With known inputs every output carries the tags of every input, and an egress operation
that reads an output fails the check. With an unknown input every output is unknown. The
inputs are known unless some operation on the way to this one lies on a cycle. -/
theorem Scenario.unmarked_keeps_secrecy {s : Scenario} {p : Program} (h : s.program = .ok p)
    {r : RuleSet} {states : States Label} (hl : r.labels p.root = .ok states) {o : Operation}
    (ho : o ∈ p.root.occurrences) (unmarked : r.actions.find? o.id = none) {v : Value} {tag : Tag}
    (hv : v ∈ o.inputs) (htag : (stateOf r.analysis states v).HasSecrecy tag) :
    ((∀ u, u ∈ o.inputs → stateOf r.analysis states u ≠ .unknown) →
      ∀ w, w ∈ o.outputs → (stateOf r.analysis states w).HasSecrecy tag ∧
        ∀ egress, Egress.Releases egress p.root w → Egress.check r egress p.root = .ok false) ∧
      ((∃ u, u ∈ o.inputs ∧ stateOf r.analysis states u = .unknown) →
        ∀ w, w ∈ o.outputs → stateOf r.analysis states w = .unknown) ∧
      ((∀ a, Relation.ReflTransGen p.root.Feeds a o.id → ¬ Relation.TransGen p.root.Feeds a a) →
        ∀ u, u ∈ o.inputs → stateOf r.analysis states u ≠ .unknown) := by
  have linked := Scenario.program_linked h
  have hocc := linked.flat.occurrences
  have distinct : (p.root.occurrences.map (·.id)).Nodup := hocc ▸ linked.distinct
  refine ⟨?_, ?_, ?_⟩
  · intro known w hw
    have carried := RuleSet.unmarked_outputs distinct hl ho unmarked known hv htag w hw
    exact ⟨carried, fun _ released => RuleSet.check_eq_false distinct hl released carried⟩
  · intro ⟨u, hu, unknown⟩
    exact RuleSet.unmarked_outputs_unknown distinct hl ho unmarked hu unknown
  · intro free
    exact RuleSet.inputs_known_of_acc linked hl (Module.acc_of_no_cycle free) o (hocc ▸ ho) rfl

/-! ## One relay, with and without a loop -/

namespace Relay

def scenario (other : String) : Scenario where
  operators := [⟨"core.relay", 1⟩]
  blocks :=
    [{ name := "main"
       operations :=
        [{ results := ["%a"], operator := Sql.literal },
          { results := ["%s"]
            operator := Sql.tagTransform
            attributes := .ofList [(Sql.ruleName, .text "Secret")]
            inputs := [.reference "%a"] },
          { results := ["%r"]
            operator := "core.relay"
            inputs := [.reference "%s", .reference other] },
          { operator := Sql.output, inputs := [.reference "%r"] }] }]
  policy :=
    { kind := .sql
      checker := .egress
      rules := [⟨"Secret", .addConfidentiality, "secret", []⟩] }

theorem unmarked_keeps_secrecy_literal :
    ∃ p r states o w, (scenario "%a").program = .ok p ∧
      compile (scenario "%a").policy.rules p.root (scenario "%a").policy.seedTags = .ok r ∧
      r.labels p.root = .ok states ∧ o ∈ p.root.occurrences ∧ r.actions.find? o.id = none ∧
      (∃ v, v ∈ o.inputs ∧ (stateOf r.analysis states v).HasSecrecy 0) ∧ w ∈ o.outputs ∧
      (stateOf r.analysis states w).HasSecrecy 0 ∧
      Egress.check r (scenario "%a").policy.egress p.root = .ok false := by
  have start : ∃ p, (scenario "%a").program = .ok p ∧
      ∃ r, compile (scenario "%a").policy.rules p.root (scenario "%a").policy.seedTags = .ok r ∧
      ∃ states, r.labels p.root = .ok states ∧
      ∃ o, o ∈ p.root.occurrences ∧ r.actions.find? o.id = none ∧
        (∃ v, v ∈ o.inputs ∧ (stateOf r.analysis states v).HasSecrecy 0) ∧
        (∀ u, u ∈ o.inputs → stateOf r.analysis states u ≠ .unknown) ∧
        ∃ w, w ∈ o.outputs ∧ Egress.Releases (scenario "%a").policy.egress p.root w := by
    decide +kernel
  obtain ⟨p, hp, r, hr, states, hl, o, ho, unmarked, ⟨v, hv, htag⟩, known, w, hw, released⟩ := start
  have kept := Scenario.unmarked_keeps_secrecy hp hl ho unmarked hv htag
  have hout := kept.1 known w hw
  exact ⟨p, r, states, o, w, hp, hr, hl, ho, unmarked, ⟨v, hv, htag⟩, hw, hout.1,
    hout.2 _ released⟩

/-- The operation reads its own result besides: the secret is dropped, and the check passes. -/
theorem loop_drops_secrecy :
    ∃ p, (scenario "%r").program = .ok p ∧
      ∃ r, compile (scenario "%r").policy.rules p.root (scenario "%r").policy.seedTags = .ok r ∧
      ∃ states, r.labels p.root = .ok states ∧
      (∃ o, o ∈ p.root.occurrences ∧ r.actions.find? o.id = none ∧
        (∃ v, v ∈ o.inputs ∧ (stateOf r.analysis states v).HasSecrecy 0) ∧
        ∃ w, w ∈ o.outputs ∧ stateOf r.analysis states w = .unknown ∧
          Egress.Releases (scenario "%r").policy.egress p.root w) ∧
      Egress.check r (scenario "%r").policy.egress p.root = .ok true := by
  decide +kernel

end Relay

end TagFlow
