import Mathlib.Data.List.Nodup
import TagFlow.Policy.Sql
import TagFlow.Proofs.Outcome

/-! # What the attributes of SQL operations say

A merge says how many of its inputs are direct ones, and a tag transform names its rule. Every
other attribute of a tag transform gives a role to one of the inputs after the first. Attributes
have distinct names, so a role has one position, and a position always names an input.
-/

namespace TagFlow

theorem Attribute.integer?_eq_some_iff {given : Attribute} {number : Int64} :
    given.integer? = some number ↔ given = .integer number := by
  cases given <;> simp [integer?]

namespace Operation

/-- An operation with one output and neither a parent nor an implementation. -/
def standalone (id : OperationId) (operator : String) (attributes : List (String × Attribute))
    (inputs : List Value) : Operation :=
  ⟨id, none, ⟨operator, 1⟩, .ofList attributes, inputs, none⟩

variable {o : Operation} {roles : List (String × Nat)}

/-! ## Merges and rule names -/

theorem controlStart_eq_ok {direct : Nat} :
    o.controlStart = .ok direct ↔
      ∃ start, o.find? Sql.controlStart = some (.integer start) ∧ 0 ≤ start.toInt ∧
        start.toInt ≤ o.inputs.length ∧ start.toInt.toNat = direct := by
  have read : ∀ start, (o.find? Sql.controlStart).bind Attribute.integer? = some start ↔
      o.find? Sql.controlStart = some (.integer start) := by
    intro start
    simp only [Option.bind_eq_some_iff, Attribute.integer?_eq_some_iff, exists_eq_right]
  simp only [← read]
  unfold controlStart
  cases (o.find? Sql.controlStart).bind Attribute.integer? with
  | none => simp
  | some start =>
      by_cases out : start.toInt < 0 ∨ (o.inputs.length : Int) < start.toInt
      · simp only [out, if_true, reduceCtorEq, Option.some.injEq, exists_eq_left', false_iff]
        omega
      · simp only [out, if_false, Except.ok.injEq, Option.some.injEq, exists_eq_left']
        omega

theorem controlStart_le {direct : Nat} (h : o.controlStart = .ok direct) :
    direct ≤ o.inputs.length := by
  obtain ⟨start, -, -, high, rfl⟩ := controlStart_eq_ok.mp h
  omega

theorem ruleName_eq_ok {name : String} :
    o.ruleName = .ok name ↔ o.find? Sql.ruleName = some (.text name) := by
  unfold Operation.ruleName
  cases o.find? Sql.ruleName with
  | none => simp
  | some given => cases given <;> simp [Attribute.text?]

/-! ## Roles -/

theorem mem_roleEntries_iff {key : String} {given : Attribute} :
    (key, given) ∈ o.attributes.entries.filter (·.1 ≠ Sql.ruleName) ↔
      o.find? key = some given ∧ key ≠ Sql.ruleName := by
  rw [List.mem_filter, find?, OrdMap.find?_eq_some_iff]
  simp

theorem roles_eq_ok :
    o.roles = .ok roles ↔
      List.Forall₂ (fun e role => role.1 = e.1 ∧ o.rolePosition e.1 e.2 = .ok role.2)
        (o.attributes.entries.filter (·.1 ≠ Sql.ruleName)) roles := by
  have one : ∀ (e : String × Attribute) (role : String × Nat),
      (do return (e.1, ← o.rolePosition e.1 e.2) : Except Fault (String × Nat)) = .ok role ↔
        role.1 = e.1 ∧ o.rolePosition e.1 e.2 = .ok role.2 := by
    intro e role
    rw [Outcome.bind_eq_ok]
    constructor
    · intro ⟨position, hposition, h⟩
      cases h
      exact ⟨rfl, hposition⟩
    · intro ⟨hname, hposition⟩
      exact ⟨role.2, hposition, by rw [← hname]; rfl⟩
  unfold Operation.roles
  rw [Outcome.mapM_eq_ok]
  simp only [one]

theorem rolePosition_eq_ok {name : String} {given : Attribute} {position : Nat} :
    o.rolePosition name given = .ok position ↔
      ∃ index, given.integer? = some index ∧ 1 ≤ index.toInt ∧
        index.toInt < o.inputs.length ∧ index.toInt.toNat = position := by
  unfold rolePosition
  cases hi : given.integer? with
  | none => simp
  | some index =>
      by_cases out : index.toInt < 1 ∨ (o.inputs.length : Int) ≤ index.toInt
      · simp only [out, if_true, reduceCtorEq, Option.some.injEq, exists_eq_left', false_iff]
        omega
      · simp only [out, if_false, Except.ok.injEq, Option.some.injEq, exists_eq_left']
        omega

theorem rolePosition_bounds {name : String} {given : Attribute} {position : Nat}
    (h : o.rolePosition name given = .ok position) : 1 ≤ position ∧ position < o.inputs.length := by
  obtain ⟨index, -, low, high, rfl⟩ := rolePosition_eq_ok.mp h
  omega

theorem roles_bounds (h : o.roles = .ok roles) {name : String} {position : Nat}
    (hrole : (name, position) ∈ roles) : 1 ≤ position ∧ position < o.inputs.length := by
  obtain ⟨e, -, -, hposition⟩ := Outcome.exists_left_of_forall₂ (roles_eq_ok.mp h) hrole
  exact rolePosition_bounds hposition

theorem roles_nodup (h : o.roles = .ok roles) : (roles.map (·.1)).Nodup := by
  have hnames : (o.attributes.entries.filter (·.1 ≠ Sql.ruleName)).map (·.1) =
      roles.map (·.1) := by
    rw [← List.forall₂_eq_eq_eq, List.forall₂_map_left_iff, List.forall₂_map_right_iff]
    exact (roles_eq_ok.mp h).imp fun _ _ he => he.1.symm
  rw [← hnames, List.Nodup, List.pairwise_map]
  exact (o.attributes.ordered.filter _).imp fun hlt => Key.ne_of_lt hlt

theorem lookup_roles (h : o.roles = .ok roles) {name : String} {position : Nat} :
    roles.lookup name = some position ↔ (name, position) ∈ roles := by
  rw [List.lookup_eq_some_iff]
  constructor
  · intro ⟨before, after, heq, _⟩
    simp [heq]
  · intro hmem
    obtain ⟨before, after, heq⟩ := List.append_of_mem hmem
    refine ⟨before, after, heq, ?_⟩
    intro role hrole
    have hnodup := roles_nodup h
    rw [heq, List.map_append, List.nodup_append] at hnodup
    have hne := hnodup.2.2 role.1 (List.mem_map_of_mem hrole) name (by simp)
    simpa using Ne.symm hne

theorem input_eq_ok {position : Nat} {v : Value} :
    o.input position = .ok v ↔ o.inputs[position]? = some v := by
  unfold Operation.input
  cases o.inputs[position]? <;> simp

theorem mem_inputs_of_roleValues {values : List (String × Value)}
    (h : o.roleValues = .ok values) {role : String × Value} (hrole : role ∈ values) :
    role.2 ∈ o.inputs := by
  obtain ⟨roles, -, h⟩ := Outcome.bind_eq_ok.mp h
  obtain ⟨e, -, he⟩ := Outcome.exists_left_of_forall₂ (Outcome.mapM_eq_ok.mp h) hrole
  obtain ⟨v, hv, heq⟩ := Outcome.bind_eq_ok.mp he
  cases heq
  exact List.mem_of_getElem? (input_eq_ok.mp hv)

/-- The roles with the values in their positions. -/
theorem roleValues_total (h : o.roles = .ok roles) :
    ∃ values, o.roleValues = .ok values ∧
      List.Forall₂ (fun role value => value.1 = role.1 ∧ o.inputs[role.2]? = some value.2)
        roles values := by
  have read : ∀ role, role ∈ roles → ∃ value : String × Value,
      (do return (role.1, ← o.input role.2) : Except Fault (String × Value)) = .ok value := by
    intro role hrole
    have hlt : role.2 < o.inputs.length := (roles_bounds h hrole).2
    have hinput := input_eq_ok.mpr (List.getElem?_eq_getElem hlt)
    exact ⟨_, Outcome.bind_eq_ok.mpr ⟨_, hinput, rfl⟩⟩
  obtain ⟨values, hvalues⟩ := Outcome.mapM_total read
  refine ⟨values, Outcome.bind_eq_ok.mpr ⟨roles, h, hvalues⟩, ?_⟩
  apply (Outcome.mapM_eq_ok.mp hvalues).imp
  intro role value hvalue
  obtain ⟨v, hv, heq⟩ := Outcome.bind_eq_ok.mp hvalue
  cases heq
  exact ⟨rfl, input_eq_ok.mp hv⟩

/-- An attribute of the operation other than the rule name has this name. -/
def Assigns (o : Operation) (argument : String) : Prop :=
  argument ≠ Sql.ruleName ∧ (o.find? argument).isSome = true

instance (o : Operation) (argument : String) : Decidable (o.Assigns argument) :=
  inferInstanceAs (Decidable (_ ∧ _))

/-- The attribute of this name is the number of this input. -/
def Designates (o : Operation) (argument : String) (v : Value) : Prop :=
  ∃ given index, o.find? argument = some given ∧ given.integer? = some index ∧
    0 ≤ index.toInt ∧ o.inputs[index.toInt.toNat]? = some v

/-- The rule's name is a text and designates nothing. -/
theorem Designates.assigns {argument : String} {v : Value} (h : o.Designates argument v)
    {name : String} (named : o.ruleName = .ok name) : o.Assigns argument := by
  obtain ⟨given, index, hgiven, hindex, -⟩ := h
  constructor
  · intro e
    rw [e, ruleName_eq_ok.mp named, Option.some.injEq] at hgiven
    rw [← hgiven] at hindex
    cases hindex
  · rw [hgiven]
    rfl

/-- The roles are the attributes that assign, and their values are what these designate. -/
theorem mem_roleValues {values : List (String × Value)} (h : o.roleValues = .ok values)
    {argument : String} {v : Value} :
    (argument, v) ∈ values ↔ o.Assigns argument ∧ o.Designates argument v := by
  obtain ⟨roles, hroles, -⟩ := Outcome.bind_eq_ok.mp h
  obtain ⟨values', hvalues, hread⟩ := roleValues_total hroles
  rw [h, Except.ok.injEq] at hvalues
  subst hvalues
  have hplaced := roles_eq_ok.mp hroles
  constructor
  · intro hmem
    obtain ⟨role, hrole, hname, hvalue⟩ := Outcome.exists_left_of_forall₂ hread hmem
    obtain ⟨e, he, hname', hposition⟩ := Outcome.exists_left_of_forall₂ hplaced hrole
    obtain ⟨hfind, hne⟩ := mem_roleEntries_iff.mp he
    obtain ⟨index, hindex, low, -, hnat⟩ := rolePosition_eq_ok.mp hposition
    have hargument : e.1 = argument := (hname.trans hname').symm
    rw [hargument] at hfind hne
    exact ⟨⟨hne, by rw [hfind]; rfl⟩, e.2, index, hfind, hindex, by omega, hnat ▸ hvalue⟩
  · intro ⟨⟨hne, _⟩, given, index, hgiven, hindex, _, hvalue⟩
    obtain ⟨role, hrole, hname, hposition⟩ :=
      Outcome.exists_right_of_forall₂ hplaced (mem_roleEntries_iff.mpr ⟨hgiven, hne⟩)
    obtain ⟨index', hindex', -, -, hnat⟩ := rolePosition_eq_ok.mp hposition
    rw [hindex, Option.some.injEq] at hindex'
    obtain ⟨value, hmem, hname', hvalue'⟩ := Outcome.exists_right_of_forall₂ hread hrole
    rw [← hnat, ← hindex', hvalue, Option.some.injEq] at hvalue'
    have hsame : value = (argument, v) := Prod.ext (hname'.trans hname) hvalue'.symm
    exact hsame ▸ hmem

/-- Once the roles are read, an attribute that assigns designates an input. -/
theorem Assigns.designates {argument : String} (h : o.Assigns argument)
    {values : List (String × Value)} (hvalues : o.roleValues = .ok values) :
    ∃ v, o.Designates argument v := by
  obtain ⟨roles, hroles, -⟩ := Outcome.bind_eq_ok.mp hvalues
  obtain ⟨given, hgiven⟩ := Option.isSome_iff_exists.mp h.2
  obtain ⟨role, -, -, hposition⟩ := Outcome.exists_right_of_forall₂ (roles_eq_ok.mp hroles)
    (mem_roleEntries_iff.mpr ⟨hgiven, h.1⟩)
  obtain ⟨index, hindex, low, high, hnat⟩ := rolePosition_eq_ok.mp hposition
  have hlt : index.toInt.toNat < o.inputs.length := by omega
  exact ⟨_, given, index, hgiven, hindex, by omega, List.getElem?_eq_getElem hlt⟩

end Operation

end TagFlow
