import TagFlow.Number.Decimal

/-! # Double and single precision numbers

Numbers are their bits, so two of them can be told apart; `equal` is numerical
equality, where a NaN differs from itself and both zeros agree.
-/

namespace TagFlow.Number

def Format.isNan (f : Format) (bits : Nat) : Bool :=
  match f.read bits with
  | .nan => true
  | _ => false

def Format.equal (f : Format) (a b : Nat) : Bool :=
  match f.read a, f.read b with
  | .nan, _ => false
  | _, .nan => false
  | .finite _ 0 _, .finite _ 0 _ => true
  | x, y => x = y

end TagFlow.Number

namespace TagFlow

open Number

structure Double where
  bits : UInt64
  deriving DecidableEq

structure Single where
  bits : UInt32
  deriving DecidableEq

namespace Double

def text (d : Double) : String := Format.double.text d.bits.toNat

def isNan (d : Double) : Bool := Format.double.isNan d.bits.toNat

def equal (a b : Double) : Bool := Format.double.equal a.bits.toNat b.bits.toNat

def ofMagnitude (negative : Bool) (magnitude : Nat) : Double :=
  ⟨UInt64.ofNat (if negative then Format.double.signBit + magnitude else magnitude)⟩

def infinity (negative : Bool) : Double :=
  ofMagnitude negative Format.double.infinityBits

def nan (negative : Bool) : Double :=
  ofMagnitude negative (Format.double.infinityBits + Nat.pow 2 (Format.double.fraction - 1))

/-- The double nearest to `digits * 10 ^ place`. Powers that are certain to pass
the largest or the smallest double are settled without being computed. -/
def ofDecimal (negative : Bool) (digits : Nat) (place : Int) : Double :=
  let size := place + digitCount digits
  if digits = 0 ∨ size < -330 then ofMagnitude negative 0
  else if 310 < size then infinity negative
  else
    let (num, den) := match place with
      | .ofNat e => (digits * Nat.pow 10 e, 1)
      | .negSucc e => (digits, Nat.pow 10 (e + 1))
    ofMagnitude negative (Format.double.nearest num den)

end Double

namespace Single

def text (s : Single) : String := Format.single.text s.bits.toNat

def equal (a b : Single) : Bool := Format.single.equal a.bits.toNat b.bits.toNat

/-- Every single precision number is a double. -/
def toDouble (s : Single) : Double :=
  match Format.single.read s.bits.toNat with
  | .nan => Double.nan false
  | .infinite negative => Double.infinity negative
  | .finite negative significand exponent =>
      let (num, den) := match exponent with
        | .ofNat e => (significand * Nat.pow 2 e, 1)
        | .negSucc e => (significand, Nat.pow 2 (e + 1))
      Double.ofMagnitude negative (Format.double.nearest num den)

end Single

end TagFlow
