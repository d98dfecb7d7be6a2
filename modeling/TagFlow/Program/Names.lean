import TagFlow.Program.Value

/-! # Short names

A name table numbers modules, blocks and values from zero, each kind by itself, in
the order they are first asked about. A number never changes once it is given.
-/

namespace TagFlow

/-- The things asked about so far; the number of a thing is its position. -/
structure Names where
  modules : List ModuleId := []
  blocks : List BlockId := []
  values : List Value := []

namespace Names

/-- The number of a thing, and the list with the thing in it. -/
def number {α : Type} [DecidableEq α] (known : List α) (a : α) : Nat × List α :=
  match known.findIdx? (· = a) with
  | some n => (n, known)
  | none => (known.length, known ++ [a])

def module (names : Names) (id : ModuleId) : Nat × Names :=
  let (n, modules) := number names.modules id
  (n, { names with modules })

def block (names : Names) (id : BlockId) : Nat × Names :=
  let (n, blocks) := number names.blocks id
  (n, { names with blocks })

def value (names : Names) (v : Value) : Nat × Names :=
  let (n, values) := number names.values v
  (n, { names with values })

end Names

/-- Only inputs of blocks and results of operations have numbers. -/
def Value.render (names : Names) : Value → String × Names
  | .any => ("<<ANY>>", names)
  | .constant number => (toString number.toInt, names)
  | .stored storage => (s!"store:{storage}", names)
  | .argument block index =>
      let (n, names) := names.value (.argument block index)
      (s!"%{n}", names)
  | .result operation index =>
      let (n, names) := names.value (.result operation index)
      (s!"%{n}", names)

end TagFlow
