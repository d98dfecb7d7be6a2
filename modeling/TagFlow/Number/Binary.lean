/-! # Binary floating point by its bits

A format fixes the widths of the stored fraction and exponent. Bits are read as
an exact number `significand * 2 ^ exponent`, and an exact fraction is written as
the bits nearest to it. All arithmetic is on natural numbers.
-/

namespace TagFlow.Number

structure Format where
  fraction : Nat
  exponent : Nat
  deriving DecidableEq

namespace Format

def double : Format := ⟨52, 11⟩

def single : Format := ⟨23, 8⟩

def bias (f : Format) : Nat := Nat.pow 2 (f.exponent - 1) - 1

/-- The exponent of the last place of the numbers nearest to zero. -/
def leastExponent (f : Format) : Int := 1 - (f.bias : Int) - f.fraction

def signBit (f : Format) : Nat := Nat.pow 2 (f.fraction + f.exponent)

def infinityBits (f : Format) : Nat := (Nat.pow 2 f.exponent - 1) * Nat.pow 2 f.fraction

end Format

inductive Reading where
  | nan
  | infinite (negative : Bool)
  | finite (negative : Bool) (significand : Nat) (exponent : Int)
  deriving DecidableEq

def Format.read (f : Format) (bits : Nat) : Reading :=
  let negative := bits / f.signBit % 2 == 1
  let magnitude := bits % f.signBit
  let field := magnitude / Nat.pow 2 f.fraction
  let stored := magnitude % Nat.pow 2 f.fraction
  if field = Nat.pow 2 f.exponent - 1 then
    if stored = 0 then .infinite negative else .nan
  else if field = 0 then .finite negative stored f.leastExponent
  else .finite negative (Nat.pow 2 f.fraction + stored) (f.leastExponent + field - 1)

/-- A quotient rounded to the nearest natural number, a half to the even one. -/
def roundHalfEven (num den : Nat) : Nat :=
  let below := num / den
  let rest := num % den
  if 2 * rest < den then below
  else if den < 2 * rest then below + 1
  else below + below % 2

/-- The fraction `num / den` divided by `2 ^ exponent`, as a fraction. -/
def unscale (num den : Nat) (exponent : Int) : Nat × Nat :=
  match exponent with
  | .ofNat e => (num, den * Nat.pow 2 e)
  | .negSucc e => (num * Nat.pow 2 (e + 1), den)

/-- The magnitude bits nearest to `num / den`, a tie to the even significand.
A fraction beyond the largest number goes to infinity. -/
def Format.nearest (f : Format) (num den : Nat) : Nat :=
  if num = 0 then 0
  else
    let guess : Int := (num.log2 : Int) - den.log2 - f.fraction
    let (n, d) := unscale num den guess
    let fitted := if n / d < Nat.pow 2 f.fraction then guess - 1 else guess
    let exponent := max fitted f.leastExponent
    let (n, d) := unscale num den exponent
    let significand := roundHalfEven n d
    if significand < Nat.pow 2 f.fraction then significand
    else
      let field := (exponent - f.leastExponent + 1).toNat
      min (field * Nat.pow 2 f.fraction + (significand - Nat.pow 2 f.fraction)) f.infinityBits

end TagFlow.Number
