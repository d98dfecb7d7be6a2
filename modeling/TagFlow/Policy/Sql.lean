import TagFlow.Program.Workspace

/-! # Operations of the SQL front end

Four operators: literals, merges, tag transforms and outputs. A merge lists its direct
inputs, which contribute data, before its control inputs, which only decide whether the
data flows. A tag transform applies a named rule to its first input; each of its other
attributes names the input that plays a role in the rule.
-/

namespace TagFlow

namespace Sql

def literal : String := "sql.literal"
def merge : String := "sql.merge"
def tagTransform : String := "sql.tag_transform"
def output : String := "sql.sql_output"

def operators : List String := [literal, merge, tagTransform, output]

def literalText : String := "literal_string"
def controlStart : String := "control_input_start_index"
def ruleName : String := "rule_name"

/-- Two rules are built in: they say how a merge treats integrity. -/
def unionRule : String := "##raksha_internal#union_itag_rule"
def intersectRule : String := "##raksha_internal#intersect_itag_rule"

def isInternalRule (name : String) : Bool := name = unionRule || name = intersectRule

end Sql

/-! ## Reading -/

namespace Operation

def literalText (o : Operation) : Except Fault String :=
  match (o.find? Sql.literalText).bind Attribute.text? with
  | some text => .ok text
  | none => .error .literalWithoutText

/-- The number of direct inputs of a merge. -/
def controlStart (o : Operation) : Except Fault Nat :=
  match (o.find? Sql.controlStart).bind Attribute.integer? with
  | none => .error (.mergeWithoutStart o.id)
  | some start =>
      if start.toInt < 0 ∨ (o.inputs.length : Int) < start.toInt then
        .error (.mergeStartOutOfBounds start.toInt o.inputs.length)
      else .ok start.toInt.toNat

def directInputs (o : Operation) : Except Fault (List Value) := do
  return o.inputs.take (← o.controlStart)

def controlInputs (o : Operation) : Except Fault (List Value) := do
  return o.inputs.drop (← o.controlStart)

/-- The rule that a tag transform names. -/
def ruleName (o : Operation) : Except Fault String :=
  match (o.find? Sql.ruleName).bind Attribute.text? with
  | some name => .ok name
  | none => .error (.transformWithoutRule o.id)

def transformedValue (o : Operation) : Except Fault Value := o.input 0

/-- The position that an attribute of a tag transform gives to a role. -/
def rolePosition (o : Operation) (name : String) (given : Attribute) : Except Fault Nat :=
  match given.integer? with
  | none => .error (.preconditionNotInteger name)
  | some index =>
      if index.toInt < 1 ∨ (o.inputs.length : Int) ≤ index.toInt then
        .error (.preconditionOutOfBounds index.toInt name)
      else .ok index.toInt.toNat

/-- The roles of a tag transform with their input positions, in order of names. -/
def roles (o : Operation) : Except Fault (List (String × Nat)) :=
  (o.attributes.entries.filter (·.1 ≠ Sql.ruleName)).mapM fun e => do
    return (e.1, ← o.rolePosition e.1 e.2)

/-- The roles of a tag transform with the values that play them. -/
def roleValues (o : Operation) : Except Fault (List (String × Value)) := do
  (← o.roles).mapM fun e => do return (e.1, ← o.input e.2)

end Operation

/-! ## Building -/

namespace Workspace

def supplySql (w : Workspace) : Workspace := w.supply Sql.operators

def emitLiteral (w : Workspace) (b : Block) (text : String) :
    Except Fault (OperationId × Block × Workspace) :=
  w.emit b Sql.literal (.ofList [(Sql.literalText, .text text)]) []

def emitMerge (w : Workspace) (b : Block) (direct control : List Value) :
    Except Fault (OperationId × Block × Workspace) :=
  if direct.isEmpty && control.isEmpty then .error .emptyMerge
  else
    w.emit b Sql.merge
      (.ofList [(Sql.controlStart, .integer (Int64.ofNat direct.length))])
      (direct ++ control)

/-- Numbers the roles from one, after the transformed value. -/
def roleAttributes (attributes : Attributes) (position : Nat) :
    List String → Except Fault Attributes
  | [] => .ok attributes
  | name :: rest =>
      if attributes.contains name then .error (.duplicatePrecondition name)
      else
        roleAttributes (attributes.insert name (.integer (Int64.ofNat position))) (position + 1) rest

def emitTagTransform (w : Workspace) (b : Block) (rule : String) (value : Value)
    (roles : List (String × Value)) : Except Fault (OperationId × Block × Workspace) := do
  let attributes ←
    roleAttributes (.ofList [(Sql.ruleName, .text rule)]) 1 (roles.map (·.1))
  w.emit b Sql.tagTransform attributes (value :: roles.map (·.2))

def emitOutput (w : Workspace) (b : Block) (value : Value) :
    Except Fault (OperationId × Block × Workspace) :=
  w.emit b Sql.output .empty [value]

end Workspace

end TagFlow
