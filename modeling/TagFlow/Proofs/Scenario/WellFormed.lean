import Mathlib.Data.List.Nodup
import TagFlow.Proofs.Decides
import TagFlow.Proofs.Scenario.Written
import TagFlow.Scenario.Program

/-! # Well-formed scenarios

What a scenario has to keep to, said of its declarations alone: names are distinct, operations fit
their operators, and every reference names something that is declared somewhere. A scope that
knows what the scenario declares resolves exactly the references that are in order.
-/

namespace TagFlow

namespace Scenario

def BlockDecl.inputNames (b : BlockDecl) : List String := b.inputs.map (·.name)

def BlockDecl.outputNames (b : BlockDecl) : List String := b.outputs.map (·.name)

def BlockDecl.resultNames (b : BlockDecl) : List String := b.operations.flatMap (·.results)

def resultNames (s : Scenario) : List String := s.blocks.flatMap BlockDecl.resultNames

/-- The number of outputs of an operator. Those of the front end need no declaration. -/
def arity? (s : Scenario) (name : String) : Option Nat :=
  ((s.operators.find? (·.name = name)).map (·.outputs)).or
    (if name ∈ Sql.operators then some 1 else none)

/-! ## References -/

/-- What the reference names is declared. It may stand inside a block. -/
def Declared (s : Scenario) (inside : Option BlockDecl) : Reference → Prop
  | .any => True
  | .result name => name ∈ s.resultNames
  | .stored name => name ∈ s.storages.map (·.name)
  | .argument none input => ∃ b, inside = some b ∧ input ∈ b.inputNames
  | .argument (some owner) input => ∃ b, b ∈ s.blocks ∧ b.name = owner ∧ input ∈ b.inputNames
  | .constant _ => True

def Resolves (s : Scenario) (inside : Option BlockDecl) (text : String) : Prop :=
  ∃ r, Reference.Written text r ∧ s.Declared inside r

/-! ## Scenarios -/

structure OperationDecl.WellFormed (s : Scenario) (b : BlockDecl) (o : OperationDecl) : Prop where
  operator : ∃ outputs, s.arity? o.operator = some outputs ∧ o.results.length ≤ outputs
  attributes : ∀ e, e ∈ o.attributes.entries → ∀ kind, e.2 ≠ .unsupported kind
  inputs : ∀ text, .reference text ∈ o.inputs → s.Resolves (some b) text

structure BlockDecl.WellFormed (s : Scenario) (b : BlockDecl) : Prop where
  inputs : b.inputNames.Nodup
  outputs : b.outputNames.Nodup
  operations : ∀ o, o ∈ b.operations → o.WellFormed s b
  results : ∀ e, e ∈ b.results.entries → e.1 ∈ b.outputNames ∧ s.Resolves (some b) e.2

structure WellFormed (s : Scenario) : Prop where
  operators : (s.operators.map (·.name)).Nodup
  storages : (s.storages.map (·.name)).Nodup
  blocks : (s.blocks.map (·.name)).Nodup
  results : s.resultNames.Nodup
  body : ∀ b, b ∈ s.blocks → b.WellFormed s
  stored : ∀ d, d ∈ s.storages → ∀ text, text ∈ d.inputs → s.Resolves none text

end Scenario

/-! ## Scopes -/

namespace Workspace

theorem findStorage?_isSome_iff {w : Workspace} {name : String} :
    (w.findStorage? name).isSome = true ↔ name ∈ w.storages.map (·.name) := by
  simp [findStorage?]

theorem findStorage?_lt {w : Workspace} {name : String} {id : StorageId}
    (h : w.findStorage? name = some id) : id < w.storages.length := by
  obtain ⟨hlt, -⟩ := List.findIdx?_eq_some_iff_getElem.mp h
  exact hlt

end Workspace

namespace Scope

open Scenario

/-- The scope knows the inputs and results of blocks. -/
structure Views (s : Scope) (blocks : List BlockDecl) : Prop where
  arguments : ∀ owner, Option.Rel
    (fun inputs b => ∀ input, inputs.contains input = true ↔ input ∈ b.inputNames)
    (s.arguments.find? owner) (blocks.find? (·.name = owner))
  results : ∀ name, s.results.contains name = true ↔ name ∈ blocks.flatMap BlockDecl.resultNames

/-- The workspace has the operators of the scenario, and storages of these names. -/
structure Stocks (s : Scenario) (stored : List StorageDecl) (w : Workspace) : Prop where
  operators : ∀ name, (w.operator? name).map (·.toSignature) =
    (s.arity? name).map (Signature.mk name)
  storages : w.storages.map (·.name) = stored.map (·.name)

theorem Stocks.congr {s : Scenario} {stored : List StorageDecl} {w w' : Workspace}
    (h : Stocks s stored w) (operators : w'.operators = w.operators)
    (storages : w'.storages = w.storages) : Stocks s stored w' := by
  refine ⟨fun name => ?_, storages ▸ h.storages⟩
  rw [Workspace.operator?, operators]
  exact h.operators name

variable {scope : Scope} {s : Scenario}

theorem block_eq_ok {owner : String} {inputs : OrdMap String Value} :
    scope.block owner = .ok inputs ↔ scope.arguments.find? owner = some inputs := by
  unfold block
  cases scope.arguments.find? owner <;> simp

theorem Views.contains_iff {blocks : List BlockDecl} (views : scope.Views blocks) {name : String} :
    scope.arguments.contains name = true ↔ name ∈ blocks.map (·.name) := by
  have found := views.arguments name
  have listed : (blocks.find? (·.name = name)).isSome = true ↔ name ∈ blocks.map (·.name) := by
    simp
  rw [← listed, OrdMap.contains]
  generalize scope.arguments.find? name = known at found ⊢
  generalize blocks.find? (·.name = name) = block at found ⊢
  cases found <;> simp

/-- Declaring one more block, under a new name. -/
theorem Views.insert {blocks : List BlockDecl} (views : scope.Views blocks) {b : BlockDecl}
    {inputs : OrdMap String Value} {scope' : Scope} (fresh : b.name ∉ blocks.map (·.name))
    (known : ∀ input, inputs.contains input = true ↔ input ∈ b.inputNames)
    (arguments : scope'.arguments = scope.arguments.insert b.name inputs)
    (results : ∀ name, scope'.results.contains name = true ↔
      name ∈ (blocks ++ [b]).flatMap BlockDecl.resultNames) : scope'.Views (blocks ++ [b]) := by
  refine ⟨fun owner => ?_, results⟩
  rw [arguments, OrdMap.find?_insert, List.find?_append]
  by_cases e : owner = b.name
  · subst e
    have unlisted : blocks.find? (·.name = b.name) = none := by simpa using fresh
    rw [if_pos rfl, unlisted]
    simpa using known
  · rw [if_neg e, List.find?_cons_of_neg (by simpa using Ne.symm e), List.find?_nil,
      Option.or_none]
    exact views.arguments owner

/-- An input of a block is found when the block is there and declares it. -/
theorem Views.input_iff {blocks : List BlockDecl} (views : scope.Views blocks)
    (distinct : (blocks.map (·.name)).Nodup) {owner input : String} :
    (∃ v, (do return (← scope.block owner).find? input) =
        (.ok (some v) : Except Error (Option Value))) ↔
      ∃ b, b ∈ blocks ∧ b.name = owner ∧ input ∈ b.inputNames := by
  have found := views.arguments owner
  constructor
  · rintro ⟨v, h⟩
    obtain ⟨inputs, hinputs, h⟩ := Outcome.bind_eq_ok.mp h
    rw [block_eq_ok.mp hinputs] at found
    cases hb : blocks.find? (·.name = owner) with
    | none =>
        rw [hb] at found
        cases found
    | some b =>
        rw [hb] at found
        have known : inputs.contains input = true := by
          rw [OrdMap.contains, Except.ok.inj h]
          rfl
        cases found with
        | some same =>
            exact ⟨b, List.mem_of_find?_eq_some hb, by simpa using List.find?_some hb,
              (same input).mp known⟩
  · rintro ⟨b, hb, rfl, hinput⟩
    rw [Outcome.find?_key_of_mem distinct hb] at found
    cases hinputs : scope.arguments.find? b.name with
    | none =>
        rw [hinputs] at found
        cases found
    | some inputs =>
        rw [hinputs] at found
        cases found with
        | some same =>
            obtain ⟨v, hv⟩ := Option.isSome_iff_exists.mp ((same input).mpr hinput)
            exact ⟨v, Outcome.bind_eq_ok.mpr ⟨inputs, block_eq_ok.mpr hinputs, congrArg _ hv⟩⟩

theorem find?_iff (views : scope.Views s.blocks) (stocks : Stocks s s.storages scope.workspace)
    (distinct : (s.blocks.map (·.name)).Nodup) {inside : Option BlockDecl}
    (hinside : ∀ b, inside = some b → b ∈ s.blocks) {r : Reference} :
    (∃ v, scope.find? (inside.map (·.name)) r = .ok (some v)) ↔ s.Declared inside r := by
  cases r with
  | any => simp [find?, Declared]
  | result name =>
      simp only [find?, Declared, Except.ok.injEq]
      rw [resultNames, ← views.results, OrdMap.contains, Option.isSome_iff_exists]
  | stored name =>
      simp only [find?, Declared, Except.ok.injEq]
      rw [← stocks.storages, ← Workspace.findStorage?_isSome_iff, ← Option.isSome_iff_exists,
        Option.isSome_map]
  | argument owner input =>
      cases owner with
      | some owner => exact views.input_iff distinct
      | none =>
          cases inside with
          | none => simp [find?, Declared]
          | some b =>
              refine (views.input_iff distinct).trans ⟨?_, ?_⟩
              · rintro ⟨b', hb', same, hinput⟩
                have e := Outcome.find?_key_of_mem distinct hb'
                rw [same, Outcome.find?_key_of_mem distinct (hinside b rfl), Option.some.injEq] at e
                exact ⟨b, rfl, e ▸ hinput⟩
              · rintro ⟨b', e, hinput⟩
                cases e
                exact ⟨b, hinside b rfl, rfl, hinput⟩
  | constant number => simp [find?, Declared]

theorem resolve_decides (views : scope.Views s.blocks)
    (stocks : Stocks s s.storages scope.workspace) (distinct : (s.blocks.map (·.name)).Nodup)
    (inside : Option BlockDecl) (hinside : ∀ b, inside = some b → b ∈ s.blocks) (place : Place)
    (text : String) :
    Outcome.Decides (fun _ => True) (s.Resolves inside text) (fun _ => True)
      (scope.resolve (inside.map (·.name)) place text) := by
  apply Outcome.Decides.of_ok_iff
  unfold resolve
  cases hparse : Reference.parse? text with
  | none =>
      refine ⟨by simp, ?_⟩
      rintro ⟨r, written, _⟩
      rw [Reference.parse?_eq_some_iff.mpr written] at hparse
      cases hparse
  | some r =>
      have unique : s.Resolves inside text ↔ s.Declared inside r := by
        constructor
        · rintro ⟨r', written, declared⟩
          rw [Reference.parse?_eq_some_iff.mpr written, Option.some.injEq] at hparse
          exact hparse ▸ declared
        · exact fun declared => ⟨r, Reference.parse?_eq_some_iff.mp hparse, declared⟩
      rw [unique, ← find?_iff views stocks distinct hinside]
      constructor
      · rintro ⟨v, h⟩
        obtain ⟨found, hfound, h⟩ := Outcome.bind_eq_ok.mp h
        cases found with
        | none => cases h
        | some value => exact ⟨value, hfound⟩
      · rintro ⟨v, h⟩
        exact ⟨v, Outcome.bind_eq_ok.mpr ⟨some v, h, rfl⟩⟩

end Scope

end TagFlow
