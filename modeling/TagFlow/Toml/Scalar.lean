import TagFlow.Toml.Text
import TagFlow.Toml.Value

/-! # TOML numbers, dates and truth values -/

namespace TagFlow.Toml

open Reader

def digit : Reader Char := satisfy Char.isDigit

/-- Digits, an underscore being allowed between two of them. -/
def digits (isDigit : Char → Bool) : Reader (List Char) := do
  let first ← satisfy isDigit
  let rest ← many (satisfy isDigit <|> (do let _ ← char '_'; satisfy isDigit))
  return first :: rest

/-- Whether a minus sign stands in front. -/
def sign : Reader Bool := do
  match ← attempt (char '+' <|> char '-') with
  | some c => return c == '-'
  | none => return false

/-- Decimal digits without a leading zero. -/
def decimal : Reader (List Char) :=
  (do ahead (satisfy fun c => c.isDigit && c ≠ '0'); digits Char.isDigit) <|> single digit

/-! ## Integers -/

def int64? (n : Int) : Option Int64 :=
  if Int64.minValue.toInt ≤ n ∧ n ≤ Int64.maxValue.toInt then some (Int64.ofInt n) else none

def fitted (n : Int) : Reader Int64 :=
  match int64? n with
  | some i => pure i
  | none => failure

def based (mark : Char) (base : Nat) (isDigit : Char → Bool) : Reader Int64 := do
  literal ['0', mark]
  fitted (numeral base (← digits isDigit))

def integer : Reader Int64 :=
  based 'x' 16 isHexDigit
    <|> based 'o' 8 (fun c => '0' ≤ c && c ≤ '7')
    <|> based 'b' 2 (fun c => c == '0' || c == '1')
    <|> do
      let negative ← sign
      let n := numeral 10 (← decimal)
      fitted (if negative then -(n : Int) else n)

/-! ## Numbers with a fraction or an exponent -/

def exponent : Reader Int := do
  let _ ← char 'e' <|> char 'E'
  let negative ← sign
  let n := numeral 10 (← digits Char.isDigit)
  return if negative then -(n : Int) else n

def fraction : Reader (List Char) := do
  let _ ← char '.'
  digits Char.isDigit

/-- A number too large for a double is refused when it is positive, and is minus infinity
when it is negative. -/
def plainFloat : Reader Double := do
  let negative ← sign
  let whole ← decimal
  let (part, power) ←
    (do return (([] : List Char), ← exponent)) <|>
      (do return (← fraction, (← attempt exponent).getD 0))
  let number := Double.ofDecimal negative (numeral 10 (whole ++ part)) (power - part.length)
  if number = Double.infinity false then failure else return number

def namedFloat : Reader Double := do
  let negative ← sign
  (do literal ['i', 'n', 'f']; return Double.infinity negative) <|>
    (do literal ['n', 'a', 'n']; return Double.nan negative)

def float : Reader Double := plainFloat <|> namedFloat

/-! ## Dates and times

A date is put into its normal text: `T` between date and time, `Z` for no offset, and a
fraction of a second in at most nine digits without trailing zeros. -/

def twoDigits (low high : Nat) : Reader Nat := do
  let n := numeral 10 (← times digit 2)
  if low ≤ n ∧ n ≤ high then return n else failure

def padded (width n : Nat) : String :=
  let text := Nat.toDigits 10 n
  String.ofList (List.replicate (width - text.length) '0' ++ text)

def daysIn (year month : Nat) : Nat :=
  if month = 2 then
    if year % 4 = 0 ∧ (year % 100 ≠ 0 ∨ year % 400 = 0) then 29 else 28
  else if month = 4 ∨ month = 6 ∨ month = 9 ∨ month = 11 then 30
  else 31

def calendarDate : Reader String := do
  let year := numeral 10 (← times digit 4)
  let _ ← char '-'
  let month ← twoDigits 1 12
  let _ ← char '-'
  let day ← twoDigits 1 31
  if day ≤ daysIn year month then
    return padded 4 year ++ "-" ++ padded 2 month ++ "-" ++ padded 2 day
  else failure

def secondFraction : Reader String := do
  let _ ← char '.'
  let ds ← many1 digit
  let kept := ((ds.take 9).reverse.dropWhile (· == '0')).reverse
  return if kept.isEmpty then "" else String.ofList ('.' :: kept)

def clockTime : Reader String := do
  let hour ← twoDigits 0 23
  let _ ← char ':'
  let minute ← twoDigits 0 59
  let _ ← char ':'
  let second ← twoDigits 0 60
  let part ← attempt secondFraction
  return padded 2 hour ++ ":" ++ padded 2 minute ++ ":" ++ padded 2 second ++ part.getD ""

def offset : Reader String :=
  (do let _ ← char 'Z' <|> char 'z'; return "Z") <|> do
    let mark ← char '+' <|> char '-'
    let hour ← twoDigits 0 23
    let _ ← char ':'
    let minute ← twoDigits 0 59
    let negative := mark == '-' && (hour ≠ 0 || minute ≠ 0)
    return (if negative then "-" else "+") ++ padded 2 hour ++ ":" ++ padded 2 minute

def date : Reader String :=
  (do
    let day ← calendarDate
    let time ← attempt do
      let _ ← char 'T' <|> char 't' <|> char ' '
      let clock ← clockTime
      return "T" ++ clock ++ (← attempt offset).getD ""
    return day ++ time.getD "") <|> clockTime

/-! ## All of them -/

def boolean : Reader Bool :=
  (do literal "true".toList; return true) <|> (do literal "false".toList; return false)

def scalar : Reader Value :=
  (do return .string (← string))
    <|> (do return .boolean (← boolean))
    <|> (do return .date (← date))
    <|> (do return .float (← float))
    <|> (do return .integer (← integer))

end TagFlow.Toml
