import TagFlow.Program.Value

/-! # References

How a scenario writes a value. A result is named with its `%`, and the block of an
argument ends at the first point.
-/

namespace TagFlow

inductive Reference where
  | any
  | result (name : String)
  | stored (name : String)
  | argument (block : Option String) (input : String)
  | constant (number : Int64)
  deriving DecidableEq

namespace Reference

def dropFront? : List Char → List Char → Option (List Char)
  | [], cs => some cs
  | _ :: _, [] => none
  | a :: front, c :: cs => if a = c then dropFront? front cs else none

theorem dropFront?_eq_some_iff {front cs rest : List Char} :
    dropFront? front cs = some rest ↔ cs = front ++ rest := by
  induction front generalizing cs with
  | nil => simp [dropFront?]
  | cons a front ih =>
      cases cs with
      | nil => simp [dropFront?]
      | cons c cs =>
          by_cases h : a = c
          · simp [dropFront?, h, ih]
          · simp [dropFront?, h, Ne.symm h]

/-- A number of decimal digits. -/
def natural? (cs : List Char) : Option Nat :=
  if cs.isEmpty || !cs.all Char.isDigit then none
  else some (cs.foldl (fun n c => 10 * n + (c.toNat - '0'.toNat)) 0)

/-- A whole number of 64 bits, with or without a sign. -/
def integer? : List Char → Option Int64
  | '-' :: cs => do
      let n ← natural? cs
      if n ≤ Nat.pow 2 63 then return .ofInt (-n) else failure
  | '+' :: cs => do
      let n ← natural? cs
      if n < Nat.pow 2 63 then return .ofNat n else failure
  | cs => do
      let n ← natural? cs
      if n < Nat.pow 2 63 then return .ofNat n else failure

def ofArgument (cs : List Char) : Reference :=
  match cs.dropWhile (· ≠ '.') with
  | [] => .argument none (.ofList cs)
  | _ :: input => .argument (some (.ofList (cs.takeWhile (· ≠ '.')))) (.ofList input)

def parse? (text : String) : Option Reference :=
  let cs := text.toList
  if text = "any" then some .any
  else if cs.head? = some '%' then some (.result text)
  else
    match dropFront? "store:".toList cs, dropFront? "arg:".toList cs with
    | some name, _ => some (.stored (.ofList name))
    | none, some rest => some (ofArgument rest)
    | none, none => (integer? cs).map .constant

end Reference

end TagFlow
