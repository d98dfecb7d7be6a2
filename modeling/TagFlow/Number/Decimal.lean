import TagFlow.Number.Binary

/-! # Decimal text of binary numbers

A number is written with the fewest digits that read back to the same bits, and
among those with the digits nearest to it; an exact tie goes away from zero. The
text is positional: there is never an exponent, and a whole number has no point.
-/

namespace TagFlow.Number

def digitCount (n : Nat) : Nat := (Nat.toDigits 10 n).length

/-- The least `k` with `num / den < 10 ^ k`, for a positive fraction. -/
def decimalPoint (num den : Nat) : Int :=
  if den ≤ num then digitCount (num / den)
  else 1 - (digitCount ((den + num - 1) / num - 1) : Int)

/-- An open interval around a number, over one denominator; the ends belong to it
when `closed` is set. -/
structure Neighbourhood where
  low : Nat
  centre : Nat
  high : Nat
  den : Nat
  closed : Bool

/-- The numbers that read back as `significand * 2 ^ exponent`. The gap below a
power of two is half the gap above it. -/
def Format.neighbourhood (f : Format) (significand : Nat) (exponent : Int) : Neighbourhood :=
  let below := if significand = Nat.pow 2 f.fraction then 1 else 2
  let (scale, den) := match exponent - 2 with
    | .ofNat e => (Nat.pow 2 e, 1)
    | .negSucc e => (1, Nat.pow 2 (e + 1))
  { low := (4 * significand - below) * scale
    centre := 4 * significand * scale
    high := (4 * significand + 2) * scale
    den := den
    closed := significand % 2 = 0 }

/-- The nearest multiple of `10 ^ place` inside the neighbourhood, in units of it. -/
def Neighbourhood.onGrid (n : Neighbourhood) (place : Int) : Option Nat :=
  let (unit, scale) := match place with
    | .ofNat e => (n.den * Nat.pow 10 e, 1)
    | .negSucc e => (n.den, Nat.pow 10 (e + 1))
  let low := n.low * scale
  let centre := n.centre * scale
  let high := n.high * scale
  let down := centre / unit
  let downInside := low < down * unit || (n.closed && low = down * unit)
  let upInside := (down + 1) * unit < high || (n.closed && (down + 1) * unit = high)
  if downInside && upInside then
    if 2 * (centre - down * unit) < unit then some down else some (down + 1)
  else if downInside then some down
  else if upInside then some (down + 1)
  else none

/-- Tries grids from coarse to fine. -/
def Neighbourhood.shortest (n : Neighbourhood) : Nat → Int → Nat × Int
  | 0, place => ((n.onGrid place).getD 0, place)
  | finer + 1, place =>
      match n.onGrid place with
      | some units => (units, place)
      | none => n.shortest finer (place - 1)

/-- Seventeen digits tell any two doubles apart. -/
def Format.shortest (f : Format) (significand : Nat) (exponent : Int) : Nat × Int :=
  let n := f.neighbourhood significand exponent
  n.shortest 17 (decimalPoint n.centre n.den - 1)

def positional (units : Nat) (place : Int) : String :=
  match place with
  | .ofNat e => toString (units * Nat.pow 10 e)
  | .negSucc e =>
      let places := e + 1
      let digits := Nat.toDigits 10 (units % Nat.pow 10 places)
      let padded := List.replicate (places - digits.length) '0' ++ digits
      let kept := (padded.reverse.dropWhile (· == '0')).reverse
      let whole := toString (units / Nat.pow 10 places)
      if kept.isEmpty then whole else whole ++ "." ++ String.ofList kept

def Format.text (f : Format) (bits : Nat) : String :=
  let sign (negative : Bool) := if negative then "-" else ""
  match f.read bits with
  | .nan => "NaN"
  | .infinite negative => sign negative ++ "inf"
  | .finite negative 0 _ => sign negative ++ "0"
  | .finite negative significand exponent =>
      let (units, place) := f.shortest significand exponent
      sign negative ++ positional units place

end TagFlow.Number
