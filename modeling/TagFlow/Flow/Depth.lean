import TagFlow.Flow.Worklist

/-! # Depth

How far a value is from where data enters the program, counted in operations and
capped at a limit. Operations without a known input count as entries.
-/

namespace TagFlow

namespace Depth

def largest : Option Nat → Option Nat → Option Nat
  | none, d => d
  | d, none => d
  | some m, some n => some (max m n)

def next (limit : Nat) (inputs : List (Option Nat)) : Nat :=
  match inputs.foldl largest none with
  | none => 0
  | some deepest => min (deepest + 1) limit

/-- `results` replaces the number of states an operation yields. -/
def analysis (limit : Nat) (results : Option Nat) : Analysis (Option Nat) where
  bottom := none
  join := largest
  initial := some 0
  height := limit + 2
  transfer o inputs :=
    .ok (List.replicate (results.getD o.outputCount) (some (next limit inputs)))

end Depth

end TagFlow
