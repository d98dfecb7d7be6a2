import TagFlow.Ordered.Map

/-! # Values and nodes

A value names a piece of data flowing through a program: an input of a block, a
result of an operation, a storage, a constant, or anything at all. Values are
compared by what they name and are ordered by kind, then numerically. The nodes of
the dataflow graph are values and operations, values first.
-/

namespace TagFlow

abbrev ModuleId := Nat
abbrev BlockId := Nat
abbrev OperationId := Nat
abbrev StorageId := Nat

inductive Value where
  | any
  | argument (block : BlockId) (index : Nat)
  | result (operation : OperationId) (index : Nat)
  | stored (storage : StorageId)
  | constant (number : Int64)
  deriving DecidableEq, Inhabited

namespace Value

/-- The kind of a value, then the numbers that tell values of a kind apart. -/
def rank : Value → Nat × Nat × Nat × Int
  | any => (0, 0, 0, 0)
  | argument block index => (1, block, index, 0)
  | result operation index => (2, operation, index, 0)
  | stored storage => (3, storage, 0, 0)
  | constant number => (4, 0, 0, number.toInt)

theorem rank_injective {v w : Value} (h : v.rank = w.rank) : v = w := by
  cases v <;> cases w <;> simp_all [rank, Int64.toInt_inj]

instance : Key Value := Key.pullback rank rank_injective

/-- The first output of an operation, the only one that most operators have. -/
def default (operation : OperationId) : Value := result operation 0

def operation? : Value → Option OperationId
  | result operation _ => some operation
  | _ => none

def isResult : Value → Bool
  | result _ _ => true
  | _ => false

@[simp] theorem isResult_result (operation index : Nat) :
    (result operation index).isResult = true := rfl

theorem isResult_iff {v : Value} :
    v.isResult = true ↔ ∃ operation index, v = result operation index := by
  cases v <;> simp [isResult]

end Value

inductive Node where
  | value (value : Value)
  | operation (id : OperationId)
  deriving DecidableEq

namespace Node

def rank : Node → (Nat × OperationId) × Value
  | value v => ((0, 0), v)
  | operation id => ((1, id), .any)

theorem rank_injective {m n : Node} (h : m.rank = n.rank) : m = n := by
  cases m <;> cases n <;> simp_all [rank]

instance : Key Node := Key.pullback rank rank_injective

end Node

/-- The value as it is spelled out in diagnostics. -/
def Value.describe : Value → String
  | .any => "Any"
  | .argument block index =>
      s!"BlockArgument \x7b block: BlockId({block}), index: {index} \x7d"
  | .result operation index =>
      s!"OperationResult \x7b operation: OperationId({operation}), index: {index} \x7d"
  | .stored storage => s!"StoredValue(StorageId({storage}))"
  | .constant number => "Constant(" ++ toString number.toInt ++ ")"

def Node.describe : Node → String
  | .value v => "Value(" ++ v.describe ++ ")"
  | .operation id => s!"Operation(OperationId({id}))"

end TagFlow
