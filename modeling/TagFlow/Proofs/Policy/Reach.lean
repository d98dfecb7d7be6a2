import Mathlib.Data.List.Flatten
import TagFlow.Proofs.Policy.Meaning
import TagFlow.Proofs.Program.Preorder

/-! # How far compiled rules reach

Rules are compiled for the operations of a module's own blocks, and labels are computed for
all operations that occur in it. A tag transform of the module's own blocks follows the rule
that it names; one inside an implementation follows none, whatever it names, and only passes
the secrecy of its inputs on.
-/

namespace TagFlow

open Compile TagNames Worklist

theorem Module.operations_sublist (m : Module) : m.operations.Sublist m.occurrences := by
  rw [m.occurrences_eq_flatMap]
  refine List.Sublist.flatMap_right _ fun b _ => ?_
  have heads : (b.operations.flatMap fun o => [o]).Sublist
      (b.operations.flatMap Operation.occurrences) :=
    List.Sublist.flatMap_right _ fun o _ => by simp [Operation.occurrences]
  simpa using heads

theorem Module.nodup_operations {m : Module} (distinct : (m.occurrences.map (·.id)).Nodup) :
    (m.operations.map (·.id)).Nodup :=
  distinct.sublist (m.operations_sublist.map _)

/-- The transform has the action of the one rule with this name. -/
def Operation.Follows (rules : List PolicyRule) (r : RuleSet) (o : Operation) (rule : PolicyRule) :
    Prop :=
  rule ∈ rules ∧ (∀ other, other ∈ rules → other.name = rule.name → other = rule) ∧
    Compiled r o rule

section

variable {rules : List PolicyRule} {m : Module} {seeds : List String} {r : RuleSet}
  {o : Operation} {name : String}

/-! ## Marked operations -/

theorem mem_operations_of_marked (distinct : (m.occurrences.map (·.id)).Nodup)
    (h : compile rules m seeds = .ok r) (ho : o ∈ m.occurrences) {action : String}
    (marked : r.actions.find? o.id = some action) : o ∈ m.operations := by
  obtain ⟨-, -, p, inv, rfl⟩ := compile_invariant h
  obtain ⟨q, target, t, hq, asks, hid⟩ := inv.marked o.id action marked
  have htarget := asks.mem_target (Module.nodup_operations distinct) hq
  have same := List.inj_on_of_nodup_map distinct (m.operations_sublist.subset htarget) ho hid
  exact same ▸ htarget

theorem follows_of_mem_operations (distinct : (m.occurrences.map (·.id)).Nodup)
    (h : compile rules m seeds = .ok r) (ho : o ∈ m.operations) (authored : o.Authored name) :
    ∃ rule, rule.name = name ∧ o.Follows rules r rule := by
  obtain ⟨hrules, -, askable, realizes⟩ := compile_eq_ok (Module.nodup_operations distinct) h
  obtain ⟨rule, hname, ready⟩ := askable.authored ho authored
  have hrule : rule ∈ rules := List.mem_of_find?_eq_some ready.1
  refine ⟨rule, hname, hrule, ?_, realizes.treats o ho _ (.asked ho (.authored authored.1 ready))⟩
  intro other hother e
  exact List.inj_on_of_nodup_map hrules hother hrule e

/-! ## Labels of transforms -/

theorem RuleSet.settled_of_input_known {states : States Label}
    (distinct : (m.occurrences.map (·.id)).Nodup) (h : r.labels m = .ok states)
    (ho : o ∈ m.occurrences) {v : Value} (hv : v ∈ o.inputs)
    (known : stateOf r.analysis states v ≠ .unknown) : Settled r.analysis states o := by
  have inv := solve_invariant r.analysis_joinLaws r.analysis_ranked h
  rcases inv.covered o (mem_lookup distinct ho) with hq | settled | dormant
  · cases hq
  · exact settled
  · exact absurd (dormant.2.1 v hv).2 known

/-- A rule that adds a secrecy tag without preconditions has added it in the end. -/
theorem Compile.Compiled.adds_secrecy {rule : PolicyRule} (compiled : Compiled r o rule)
    (adds : rule.action = .addConfidentiality) (free : rule.preconditions = [])
    {states : States Label} (distinct : (m.occurrences.map (·.id)).Nodup)
    (hl : r.labels m = .ok states) (ho : o ∈ m.occurrences) {v : Value}
    (hv : o.inputs[0]? = some v) (known : stateOf r.analysis states v ≠ .unknown) :
    ∃ tag, number? r.tagNames rule.tag = some tag ∧
      (stateOf r.analysis states (.result o.id 0)).HasSecrecy tag := by
  obtain ⟨outs, houts, hlen, hjoin⟩ :=
    RuleSet.settled_of_input_known distinct hl ho (List.mem_of_getElem? hv) known
  have arity : (o.inputs.map (stateOf r.analysis states)).length = o.inputs.length := by simp
  have suits := Treats.suits (t := .rule rule) compiled arity houts
  obtain ⟨s, i, hs⟩ : ∃ s i, stateOf r.analysis states v = .known s i := by
    cases hs : stateOf r.analysis states v with
    | unknown => exact absurd hs known
    | known s i => exact ⟨s, i, rfl⟩
  obtain ⟨roles, tag, met, -, htag, hmet, ht⟩ :=
    compiled.transfer_set suits.1 arity (l := .known s i) (by simp [hv, hs])
  have fires : met = true := hmet.mpr (by simp [free])
  rw [show r.transfer o _ = .ok outs from houts, Except.ok.injEq] at ht
  have first : outs[0]? = some (.known (s.insert tag) i) := by
    rw [ht, getElem?_first, fires, adds]
    exact ⟨suits.1, rfl⟩
  obtain ⟨l, hfind, hle⟩ := hjoin 0 _ first
  rw [stateOf_of_find? hfind]
  exact ⟨tag, htag, Label.HasSecrecy.of_join ⟨_, _, rfl, by simp⟩ hle⟩

/-! ## All transforms -/

/-- Of all tag transforms that labels are computed for, exactly those of the module's own blocks
follow their rules, and they carry the tag of a rule that adds one without preconditions. The
others have no action, and so the default label. -/
theorem follows_iff_mem_operations (distinct : (m.occurrences.map (·.id)).Nodup)
    (h : compile rules m seeds = .ok r) (ho : o ∈ (FlowGraph.ofModule m).operations)
    (authored : o.Authored name) :
    ((∃ rule, rule.name = name ∧ o.Follows rules r rule) ↔ o ∈ m.operations) ∧
      (o ∈ m.operations → ∀ rule, rule ∈ rules → rule.name = name →
        rule.action = .addConfidentiality → rule.preconditions = [] →
          ∀ states, r.labels m = .ok states → ∀ v, o.inputs[0]? = some v →
            stateOf r.analysis states v ≠ .unknown → ∃ tag, number? r.tagNames rule.tag = some tag ∧
              (stateOf r.analysis states (.result o.id 0)).HasSecrecy tag) ∧
      (o ∉ m.operations → r.actions.find? o.id = none ∧ ∀ inputs,
        r.transfer o inputs = .ok (List.replicate o.outputCount (Label.default inputs))) := by
  have hocc : o ∈ m.occurrences := by
    rw [FlowGraph.ofModule, FlowGraph.operations_eq_of_distinct distinct] at ho
    exact ho
  refine ⟨⟨?_, fun own => follows_of_mem_operations distinct h own authored⟩, ?_, ?_⟩
  · rintro ⟨rule, -, -, -, action, roles, tag, ps, marked, -⟩
    exact mem_operations_of_marked distinct h hocc marked
  · intro own rule hrule hname adds free states hl v hv known
    obtain ⟨found, hfound, -, only, compiled⟩ := follows_of_mem_operations distinct h own authored
    have same : rule = found := only rule hrule (hname.trans hfound.symm)
    subst same
    exact compiled.adds_secrecy adds free distinct hl hocc hv known
  · intro buried
    have unmarked : r.actions.find? o.id = none := by
      cases marked : r.actions.find? o.id with
      | none => rfl
      | some action => exact absurd (mem_operations_of_marked distinct h hocc marked) buried
    exact ⟨unmarked, RuleSet.transfer_unmarked unmarked⟩

end

/-! ## A transform inside an implementation -/

namespace Buried

def classify (id : OperationId) (value : Value) : Operation :=
  .standalone id Sql.tagTransform [(Sql.ruleName, .text "Classify")] [value]

def buried : Operation := classify 1 (.result 0 0)

def inner : Module :=
  ⟨0, [⟨0, none, .empty, .empty, .empty,
    [.standalone 0 Sql.literal [(Sql.literalText, .text "x")] [], buried,
      .standalone 2 Sql.output [] [.result 1 0]]⟩]⟩

/-- A composite operation whose implementation classifies a literal and lets it out, with other
operations beside it. -/
def root (others : List Operation) : Module :=
  ⟨1, [⟨1, none, .empty, .empty, .empty,
    ⟨3, none, ⟨"core.composite", 1⟩, .empty, [], some inner⟩ :: others⟩]⟩

def rules : List PolicyRule := [⟨"Classify", .addConfidentiality, "secret", []⟩]

/-- The secret that the implementation lets out is not found. -/
theorem buried_transform_escapes :
    ((root []).occurrences.map (·.id)).Nodup ∧
      buried ∈ (FlowGraph.ofModule (root [])).operations ∧ buried.Authored "Classify" ∧
      ∃ r, compile rules (root []) [] = .ok r ∧ r.actions.find? buried.id = none ∧
        (∃ states, r.labels (root []) = .ok states ∧
          stateOf r.analysis states (.result 0 0) = .untagged ∧
          stateOf r.analysis states (.result 1 0) = .untagged) ∧
        Egress.check r [Sql.output] (root []) = .ok true := by
  refine ⟨by decide, List.mem_of_getElem? (i := 2) rfl, ⟨rfl, rfl, rfl⟩, ?_⟩
  decide +kernel

def shown : Operation := classify 5 (.result 4 0)

def both : Module := root [.standalone 4 Sql.literal [] [], shown]

/-- Of two transforms that name the same rule, the one of the module's own block follows it. -/
theorem follows_iff_mem_operations_both :
    (both.occurrences.map (·.id)).Nodup ∧ shown ∈ (FlowGraph.ofModule both).operations ∧
      buried ∈ (FlowGraph.ofModule both).operations ∧ shown.Authored "Classify" ∧
      buried.Authored "Classify" ∧ ∃ r states, compile rules both [] = .ok r ∧
        r.labels both = .ok states ∧
        (∃ rule, rule.name = "Classify" ∧ shown.Follows rules r rule) ∧
        (∃ tag, number? r.tagNames "secret" = some tag ∧
          (stateOf r.analysis states (.result shown.id 0)).HasSecrecy tag) ∧
        r.actions.find? buried.id = none ∧ ∀ inputs, r.transfer buried inputs =
          .ok (List.replicate buried.outputCount (Label.default inputs)) := by
  have distinct : (both.occurrences.map (·.id)).Nodup := by decide
  have listed : (FlowGraph.ofModule both).operations = both.occurrences :=
    FlowGraph.operations_eq_of_distinct distinct
  have hshown : shown ∈ (FlowGraph.ofModule both).operations :=
    listed ▸ List.mem_of_getElem? (i := 5) rfl
  have hburied : buried ∈ (FlowGraph.ofModule both).operations :=
    listed ▸ List.mem_of_getElem? (i := 2) rfl
  have named : shown.Authored "Classify" := ⟨rfl, rfl, rfl⟩
  have named' : buried.Authored "Classify" := ⟨rfl, rfl, rfl⟩
  have own : shown ∈ both.operations := List.mem_of_getElem? (i := 2) rfl
  have apart : buried ∉ both.operations := fun hmem =>
    absurd (List.mem_map_of_mem (f := Operation.id) hmem) (by decide)
  obtain ⟨r, hr, states, hl, known⟩ : ∃ r, compile rules both [] = .ok r ∧
      ∃ states, r.labels both = .ok states ∧
        stateOf r.analysis states (.result 4 0) ≠ .unknown := by
    decide +kernel
  obtain ⟨follows, adds, -⟩ := follows_iff_mem_operations distinct hr hshown named
  obtain ⟨-, -, default⟩ := follows_iff_mem_operations distinct hr hburied named'
  exact ⟨distinct, hshown, hburied, named, named', r, states, hr, hl, follows.mpr own,
    adds own _ List.mem_cons_self rfl rfl rfl states hl _ rfl known, default apart⟩

end Buried

end TagFlow
