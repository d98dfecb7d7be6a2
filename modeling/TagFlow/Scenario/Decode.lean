import TagFlow.Scenario.Basic
import TagFlow.Toml.Document

/-! # Reading scenarios

A scenario is written in TOML. Decoding is strict: a missing field, a value of the wrong
type and an unknown name of a choice are refused, and so are unknown fields, except in
policy rules and their preconditions.

A record is a table, or an array of its fields in order. A choice is a string, or a table
with the choice as its only key and nothing inside.
-/

namespace TagFlow.Scenario

namespace Decode

open Toml (Entries)

/-- The only key of a date that is read as a table. -/
def dateKey : String := "$__toml_private_datetime"

/-! ## Plain values -/

def text : Toml.Value → Option String
  | .string s => some s
  | _ => none

def count : Toml.Value → Option Nat
  | .integer n => if n.toInt < 0 then none else some n.toInt.toNat
  | _ => none

def amount (v : Toml.Value) : Option UInt64 := (count v).map UInt64.ofNat

def list {α : Type} (item : Toml.Value → Option α) : Toml.Value → Option (List α)
  | .array items => items.mapM item
  | .tables items => items.mapM item
  | _ => none

def isEmptyCollection : Toml.Value → Bool
  | .array [] => true
  | .tables [] => true
  | .table _ [] => true
  | _ => false

/-- A table that stands for a choice has no other entry. -/
def choice {α : Type} (options : List α) (render : α → String) : Toml.Value → Option α
  | .string s => options.find? (render · = s)
  | .table _ [(key, inner)] =>
      if isEmptyCollection inner then options.find? (render · = key) else none
  | _ => none

def entriesOf : Toml.Value → Option Entries
  | .table _ entries => some entries
  | .date s => some [(dateKey, .string s)]
  | _ => none

/-! ## Records -/

inductive Fields where
  | named (entries : Entries)
  | listed (items : List Toml.Value)

def fields : Toml.Value → Option Fields
  | .array items => some (.listed items)
  | .tables items => some (.listed items)
  | v => (entriesOf v).map .named

namespace Fields

/-- A field, by its name or by its position. -/
def get? (f : Fields) (position : Nat) (name : String) : Option Toml.Value :=
  match f with
  | named entries => entries.lookup name
  | listed items => items[position]?

def onlyKnows (f : Fields) (names : List String) : Bool :=
  match f with
  | named entries => entries.all fun e => names.contains e.1
  | listed _ => true

variable {α : Type}

def required (f : Fields) (position : Nat) (name : String) (read : Toml.Value → Option α) :
    Option α := do
  read (← f.get? position name)

def orElse (f : Fields) (position : Nat) (name : String) (absent : α)
    (read : Toml.Value → Option α) : Option α :=
  match f.get? position name with
  | some v => read v
  | none => some absent

def maybe (f : Fields) (position : Nat) (name : String) (read : Toml.Value → Option α) :
    Option (Option α) :=
  f.orElse position name none fun v => (read v).map some

/-- A field that a table may leave out and an array may not. -/
def maybeNamed (f : Fields) (position : Nat) (name : String) (read : Toml.Value → Option α) :
    Option (Option α) :=
  match f with
  | named _ => f.maybe position name read
  | listed _ => (f.required position name read).map some

end Fields

/-- A record that has no other fields than the named ones. -/
def strict (names : List String) (v : Toml.Value) : Option Fields := do
  let f ← fields v
  if f.onlyKnows names then return f else failure

/-! ## Attributes -/

mutual

/-- A table whose first key is the key of dates has to hold a date. -/
def isProper : Toml.Value → Bool
  | .array items => areProper items
  | .tables items => areProper items
  | .table _ [] => true
  | .table _ ((key, .string s) :: rest) =>
      if key = dateKey then (Toml.date s.toList).any (·.2.isEmpty) else entriesProper rest
  | .table _ ((key, inner) :: rest) =>
      key ≠ dateKey && isProper inner && entriesProper rest
  | _ => true

def areProper : List Toml.Value → Bool
  | [] => true
  | v :: rest => isProper v && areProper rest

def entriesProper : List (String × Toml.Value) → Bool
  | [] => true
  | (_, v) :: rest => isProper v && entriesProper rest

end

def isDateTable : Entries → Bool
  | (key, _) :: _ => key = dateKey
  | [] => false

def literal (v : Toml.Value) : Option Literal :=
  if isProper v then
    some <| match v with
      | .string s => .text s
      | .integer n => .integer n
      | .float d => .float d
      | .boolean _ => .unsupported .boolean
      | .date _ => .unsupported .datetime
      | .array _ => .unsupported .array
      | .tables _ => .unsupported .array
      | .table _ entries => .unsupported (if isDateTable entries then .datetime else .table)
  else none

def keyed {α : Type} (item : Toml.Value → Option α) (v : Toml.Value) :
    Option (OrdMap String α) := do
  let entries ← entriesOf v
  return .ofList (← entries.mapM fun e => do return (e.1, ← item e.2))

/-! ## Parts of a scenario -/

def operatorDecl (v : Toml.Value) : Option OperatorDecl := do
  let f ← strict ["name", "outputs"] v
  return ⟨← f.required 0 "name" text, ← f.orElse 1 "outputs" 1 count⟩

def storageDecl (v : Toml.Value) : Option StorageDecl := do
  let f ← strict ["name", "type", "inputs"] v
  return ⟨← f.required 0 "name" text, ← f.maybe 1 "type" text,
    ← f.orElse 2 "inputs" [] (list text)⟩

def slotDecl (v : Toml.Value) : Option SlotDecl := do
  let f ← strict ["name", "type"] v
  return ⟨← f.required 0 "name" text, ← f.maybe 1 "type" text⟩

def inputDecl : Toml.Value → Option InputDecl
  | .integer n => some (.constant n)
  | .string s => some (.reference s)
  | _ => none

def operationDecl (v : Toml.Value) : Option OperationDecl := do
  let f ← strict ["results", "operator", "attributes", "inputs"] v
  return ⟨← f.orElse 0 "results" [] (list text), ← f.required 1 "operator" text,
    ← f.orElse 2 "attributes" .empty (keyed literal), ← f.orElse 3 "inputs" [] (list inputDecl)⟩

def blockDecl (v : Toml.Value) : Option BlockDecl := do
  let f ← strict ["name", "inputs", "outputs", "results", "operations"] v
  return ⟨← f.required 0 "name" text, ← f.orElse 1 "inputs" [] (list slotDecl),
    ← f.orElse 2 "outputs" [] (list slotDecl), ← f.orElse 3 "results" .empty (keyed text),
    ← f.orElse 4 "operations" [] (list operationDecl)⟩

def ruleAction : Toml.Value → Option RuleAction := choice RuleAction.all RuleAction.render

def precondition (v : Toml.Value) : Option Precondition := do
  let f ← fields v
  return ⟨← f.required 0 "argument" text, ← f.required 1 "required_integrity_tag" text⟩

def policyRule (v : Toml.Value) : Option PolicyRule := do
  let f ← fields v
  return ⟨← f.required 0 "name" text, ← f.required 1 "action" ruleAction,
    ← f.required 2 "tag" text, ← f.orElse 3 "preconditions" [] (list precondition)⟩

def policyKind : Toml.Value → Option PolicyKind := choice PolicyKind.all PolicyKind.render

def checker : Toml.Value → Option Checker := choice Checker.all Checker.render

def policyDecl (v : Toml.Value) : Option PolicyDecl := do
  let f ← strict
    ["kind", "checker", "facts", "rules", "seed_tags", "egress", "epsilon", "delta"] v
  return ⟨← f.required 0 "kind" policyKind, ← f.required 1 "checker" checker,
    ← f.orElse 2 "facts" "" text, ← f.orElse 3 "rules" [] (list policyRule),
    ← f.orElse 4 "seed_tags" [] (list text),
    ← f.orElse 5 "egress" ["sql.sql_output"] (list text),
    ← f.maybeNamed 6 "epsilon" amount, ← f.maybeNamed 7 "delta" amount⟩

def scenario (v : Toml.Value) : Option Scenario := do
  let f ← strict ["operators", "storages", "blocks", "policy"] v
  return ⟨← f.orElse 0 "operators" [] (list operatorDecl),
    ← f.orElse 1 "storages" [] (list storageDecl),
    ← f.orElse 2 "blocks" [] (list blockDecl), ← f.required 3 "policy" policyDecl⟩

end Decode

/-- The scenario that a text describes. -/
def ofText (source : String) : Except Error Scenario :=
  match (do Decode.scenario (.table .headed (← Toml.parse source)) : Option Scenario) with
  | some s => .ok s
  | none => .error .undecodable

/-- The scenario in a file, given the bytes of the file. -/
def ofBytes (path : String) (bytes : ByteArray) : Except Error Scenario :=
  match String.fromUTF8? bytes with
  | some source => ofText source
  | none => .error (.unreadable path "stream did not contain valid UTF-8")

end TagFlow.Scenario
