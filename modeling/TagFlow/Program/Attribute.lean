import TagFlow.Number.Double
import TagFlow.Ordered.Map

/-! # Attributes

Named constants attached to an operation. They are listed in the order of their
names, and a number with a fraction part ends in `l`.
-/

namespace TagFlow

inductive Attribute where
  | integer (number : Int64)
  | text (value : String)
  | double (number : Double)
  | single (number : Single)
  deriving DecidableEq

namespace Attribute

def integer? : Attribute → Option Int64
  | integer number => some number
  | _ => none

def text? : Attribute → Option String
  | text value => some value
  | _ => none

/-- Both precisions are read as doubles. -/
def double? : Attribute → Option Double
  | double number => some number
  | single number => some number.toDouble
  | _ => none

def render : Attribute → String
  | integer number => toString number.toInt
  | text value => value
  | double number => number.text ++ "l"
  | single number => number.text ++ "l"

/-- Equality of contents: kinds never equal each other, and numbers are compared
numerically. -/
def equal : Attribute → Attribute → Bool
  | integer a, integer b => a == b
  | text a, text b => a == b
  | double a, double b => a.equal b
  | single a, single b => a.equal b
  | _, _ => false

end Attribute

abbrev Attributes := OrdMap String Attribute

def Attributes.render (attributes : Attributes) : String :=
  ", ".intercalate (attributes.entries.map fun e => e.1 ++ ": " ++ e.2.render)

end TagFlow
