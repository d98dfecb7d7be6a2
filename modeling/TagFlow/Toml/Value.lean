import TagFlow.Number.Double

/-! # TOML values

Tables remember how they came to be, because that decides whether a later line may add
to them.
-/

namespace TagFlow.Toml

/-- A table is written in braces, opened by a header line, implied by the header of a
table inside it, or made by a dotted key on a line or in braces. -/
inductive TableForm where
  | braced
  | bracedDotted
  | headed
  | implied
  | dotted
  deriving DecidableEq

/-- Dates are kept in their normal text. `tables` is an array filled by header lines. -/
inductive Value where
  | string (text : String)
  | integer (number : Int64)
  | float (number : Double)
  | boolean (value : Bool)
  | date (text : String)
  | array (items : List Value)
  | tables (items : List Value)
  | table (form : TableForm) (entries : List (String × Value))

abbrev Entries := List (String × Value)

namespace TableForm

def isDotted : TableForm → Bool
  | dotted => true
  | bracedDotted => true
  | _ => false

def isBraced : TableForm → Bool
  | braced => true
  | bracedDotted => true
  | _ => false

end TableForm

end TagFlow.Toml
