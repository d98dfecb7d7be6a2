import TagFlow.Program.Names
import TagFlow.Program.Tree

/-! # Listings

The text of a program: one line an operation, with two spaces of indentation a
level. Things are named while the text is written, inputs before the result of
the operation that reads them, and a module or block once more where it ends.
-/

namespace TagFlow

namespace Listing

def line (depth : Nat) (text : String) : String :=
  String.ofList (List.replicate (2 * depth) ' ') ++ text ++ "\n"

def values (names : Names) : List Value → List String × Names
  | [] => ([], names)
  | v :: rest =>
      let (text, names) := v.render names
      let (texts, names) := values names rest
      (text :: texts, names)

def assigned (operator : String) (attributes : Attributes) (inputs : List String)
    (name : String) : String :=
  name ++ " = " ++ operator ++ " [" ++ attributes.render ++ "](" ++ ", ".intercalate inputs ++ ")"

/-- The line of an operation, without what implements it. -/
def head (names : Names) (id : OperationId) (operator : String) (attributes : Attributes)
    (inputs : List Value) : String × Names :=
  let (texts, names) := values names inputs
  let (name, names) := (Value.default id).render names
  (assigned operator attributes texts name, names)

/-- A body between two lines with the same title. -/
def framed (depth : Nat) (title : String) (first : Nat) (body : String) (last : Nat) : String :=
  line depth s!"{title}{first} \x7b" ++ body ++ line depth s!"\x7d  // {title}{last}"

def implemented (depth : Nat) (text body : String) : String :=
  line depth (text ++ " \x7b") ++ body ++ line depth "\x7d"

mutual

def module (depth : Nat) (names : Names) : Module → String × Names
  | ⟨id, blocks⟩ =>
      let (first, names) := names.module id
      let (body, names) := blockList (depth + 1) names blocks
      let (last, names) := names.module id
      (framed depth "module m" first body last, names)

def block (depth : Nat) (names : Names) : Block → String × Names
  | ⟨id, _, _, _, _, operations⟩ =>
      let (first, names) := names.block id
      let (body, names) := operationList (depth + 1) names operations
      let (last, names) := names.block id
      (framed depth "block b" first body last, names)

def operation (depth : Nat) (names : Names) : Operation → String × Names
  | ⟨id, _, signature, attributes, inputs, none⟩ =>
      let (text, names) := head names id signature.name attributes inputs
      (line depth text, names)
  | ⟨id, _, signature, attributes, inputs, some implementation⟩ =>
      let (text, names) := head names id signature.name attributes inputs
      let (body, names) := module (depth + 1) names implementation
      (implemented depth text body, names)

def blockList (depth : Nat) (names : Names) : List Block → String × Names
  | [] => ("", names)
  | b :: rest =>
      let (text, names) := block depth names b
      let (texts, names) := blockList depth names rest
      (text ++ texts, names)

def operationList (depth : Nat) (names : Names) : List Operation → String × Names
  | [] => ("", names)
  | o :: rest =>
      let (text, names) := operation depth names o
      let (texts, names) := operationList depth names rest
      (text ++ texts, names)

end

end Listing

def Module.render (m : Module) (names : Names) : String × Names := Listing.module 0 names m

def Block.render (b : Block) (names : Names) : String × Names := Listing.block 0 names b

def Operation.render (o : Operation) (names : Names) : String × Names :=
  Listing.operation 0 names o

/-- The listing of a program with names of its own. -/
def Module.listing (m : Module) : String := (m.render {}).1

end TagFlow
