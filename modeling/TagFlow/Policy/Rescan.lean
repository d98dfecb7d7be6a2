import TagFlow.Policy.Rule
import TagFlow.Policy.Sql

/-! # Checking by rescanning

Every SQL operation of the module is evaluated in order, again and again, until a whole
pass changes nothing. Only merges and tag transforms move tags. A value that has not been
evaluated contributes nothing.

A removal may let a tag pass at first and take it back later, when its roles are filled. What
has passed may run round a loop for ever, so a pass limit is given from outside; beyond
`passLimit` passes some state has come back and no later pass settles.
-/

namespace TagFlow

namespace Rescan

structure Marks where
  secrecy : TagSet := .empty
  integrity : TagSet := .empty
  deriving DecidableEq

abbrev MarkMap := OrdMap Value Marks

def secrecyOf (marks : MarkMap) (v : Value) : TagSet :=
  match marks.find? v with
  | some m => m.secrecy
  | none => .empty

def integrityOf (marks : MarkMap) (v : Value) : TagSet :=
  match marks.find? v with
  | some m => m.integrity
  | none => .empty

/-- A role is filled when its value has an entry with all tags that the rule requires;
a role that the rule does not know is never filled. -/
def filled (entry : RuleBook.Entry) (marks : MarkMap) (role : String × Value) : Bool :=
  match marks.find? role.2, entry.required.find? role.1 with
  | some present, some required => required.subset present.integrity
  | _, _ => false

def fire (entry : RuleBook.Entry) (m : Marks) : Marks :=
  match entry.action with
  | .addConfidentiality => { m with secrecy := m.secrecy.insert entry.tag }
  | .removeConfidentiality => { m with secrecy := m.secrecy.erase entry.tag }
  | .addIntegrity => { m with integrity := m.integrity.insert entry.tag }

def mergeMarks (marks : MarkMap) (o : Operation) : Marks :=
  { secrecy := o.inputs.foldl (fun acc v => acc.union (secrecyOf marks v)) .empty }

/-- A built-in rule passes secrecy on and drops integrity. -/
def transformMarks (book : RuleBook) (marks : MarkMap) (o : Operation) : Except Fault Marks := do
  let v ← o.transformedValue
  let name ← o.ruleName
  if Sql.isInternalRule name then return { secrecy := secrecyOf marks v }
  match book.rule? name with
  | none => throw (.missingRule name)
  | some entry =>
      let roles ← o.roleValues
      let kept : Marks := ⟨secrecyOf marks v, integrityOf marks v⟩
      return if roles.all (filled entry marks) then fire entry kept else kept

/-- The new marks of an operation's result; other operations have none. -/
def transfer (book : RuleBook) (marks : MarkMap) (o : Operation) : Except Fault (Option Marks) :=
  if o.operator = Sql.merge then .ok (some (mergeMarks marks o))
  else if o.operator = Sql.tagTransform then do return some (← transformMarks book marks o)
  else if o.operator = Sql.literal ∨ o.operator = Sql.output then .ok (some {})
  else .ok none

/-- The marks after evaluating an operation, and whether anything has changed. -/
def visit (book : RuleBook) (s : MarkMap × Bool) (o : Operation) : Except Fault (MarkMap × Bool) := do
  match ← transfer book s.1 o with
  | none => return s
  | some new =>
      let v := Value.default o.id
      if s.1.find? v = some new then return s
      else return (s.1.insert v new, true)

def pass (book : RuleBook) (m : Module) (marks : MarkMap) : Except Fault (MarkMap × Bool) :=
  m.operations.foldlM (visit book) (marks, false)

/-- What the passes have settled on; the last pass, which changed nothing, counts. -/
structure Fixpoint where
  marks : MarkMap := .empty
  passes : Nat := 0

/-- At most `limit` further passes. -/
def run (book : RuleBook) (m : Module) : Nat → Fixpoint → Except Fault (Option Fixpoint)
  | 0, _ => .ok none
  | limit + 1, f => do
      let (marks, changed) ← pass book m f.marks
      let f := ⟨marks, f.passes + 1⟩
      if changed then run book m limit f else return some f

/-- One more than the number of states that the marks can be in. -/
def passLimit (book : RuleBook) (m : Module) : Nat :=
  Nat.pow (Nat.pow 4 book.tagNames.length + 1) m.operations.length + 1

/-- `none` when the passes never settle. -/
def fixpoint (book : RuleBook) (m : Module) : Except Fault (Option Fixpoint) :=
  run book m (passLimit book m) {}

def complies (m : Module) (f : Fixpoint) : Bool :=
  (m.operations.filter (·.operator = Sql.output)).all fun o =>
    o.inputs.all fun v => (secrecyOf f.marks v).isEmpty

def check (book : RuleBook) (m : Module) : Except Fault (Option Bool) := do
  return (← fixpoint book m).map (complies m)

end Rescan

end TagFlow
