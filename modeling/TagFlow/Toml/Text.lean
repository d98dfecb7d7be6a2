import TagFlow.Toml.Reader

/-! # TOML text: blanks, comments, keys and strings -/

namespace TagFlow.Toml

open Reader

def quote : Char := Char.ofNat 0x22
def apostrophe : Char := Char.ofNat 0x27
def backslash : Char := Char.ofNat 0x5c

def isBlank (c : Char) : Bool := c == ' ' || c == '\t'

/-- Control characters other than the tab are not part of any text. -/
def isPrintable (c : Char) : Bool :=
  c == '\t' || (0x20 ≤ c.toNat && c.toNat ≠ 0x7f)

def blanks : Reader Unit := do
  let _ ← takeWhile isBlank

def newline : Reader Unit :=
  (do let _ ← char '\n') <|> literal ['\r', '\n']

def comment : Reader Unit := do
  let _ ← char '#'
  let _ ← takeWhile isPrintable

/-- Blanks, comments and line ends, as they may stand between the items of an array. -/
def spacing : Reader Unit := do
  let _ ← many ((do let _ ← satisfy isBlank) <|> newline <|> (do comment; newline))

/-! ## Strings in quotes -/

def isHexDigit (c : Char) : Bool :=
  c.isDigit || ('a' ≤ c && c ≤ 'f') || ('A' ≤ c && c ≤ 'F')

def digitValue (c : Char) : Nat :=
  if c.isDigit then c.toNat - 0x30
  else if 'a' ≤ c then c.toNat - 0x57
  else c.toNat - 0x37

def numeral (base : Nat) (digits : List Char) : Nat :=
  digits.foldl (fun n c => n * base + digitValue c) 0

/-- A code point given by its hexadecimal digits. -/
def codePoint (width : Nat) : Reader Char := do
  let digits ← times (satisfy isHexDigit) width
  let n := numeral 16 digits
  if n.isValidChar then return Char.ofNat n else failure

def escape : Reader Char := do
  let _ ← char backslash
  let c ← satisfy fun _ => true
  match c with
  | 'b' => return Char.ofNat 0x08
  | 't' => return '\t'
  | 'n' => return '\n'
  | 'f' => return Char.ofNat 0x0c
  | 'r' => return '\r'
  | 'u' => codePoint 4
  | 'U' => codePoint 8
  | _ => if c == quote || c == backslash then return c else failure

def plainQuoted : Reader Char :=
  satisfy fun c => isPrintable c && c ≠ quote && c ≠ backslash

def plainLiteral : Reader Char :=
  satisfy fun c => isPrintable c && c ≠ apostrophe

def quotedString : Reader (List Char) := do
  let _ ← char quote
  let text ← many (plainQuoted <|> escape)
  let _ ← char quote
  return text

def literalString : Reader (List Char) := do
  let _ ← char apostrophe
  let text ← many plainLiteral
  let _ ← char apostrophe
  return text

/-! ## Strings over several lines -/

/-- A backslash at the end of a line takes away the line end and the blanks after it. -/
def lineContinuation : Reader (List Char) := do
  let _ ← char backslash
  blanks
  newline
  let _ ← many ((do let _ ← satisfy isBlank) <|> newline)
  return []

def single (r : Reader Char) : Reader (List Char) := do return [← r]

def lineEnd : Reader (List Char) := do
  newline
  return ['\n']

/-- One or two marks that stand before something else. -/
def marksBefore (mark : Char) (next : Reader Unit) : Reader (List Char) :=
  (do literal [mark, mark]; next; return [mark, mark]) <|>
    (do literal [mark]; next; return [mark])

/-- Three marks, the contents, three marks. A line end right after the first three does
not count; the contents may hold one or two marks in a row, also at their end. -/
def multiline (mark : Char) (piece : Reader (List Char)) : Reader (List Char) := do
  literal [mark, mark, mark]
  let _ ← attempt newline
  let start ← many piece
  let middle ← many do
    let marks ← marksBefore mark (ahead piece)
    return marks ++ (← many piece).flatten
  let tail ← attempt (marksBefore mark (ahead (literal [mark, mark, mark])))
  literal [mark, mark, mark]
  return start.flatten ++ middle.flatten ++ tail.getD []

def multilineQuoted : Reader (List Char) :=
  multiline quote (single plainQuoted <|> lineContinuation <|> single escape <|> lineEnd)

def multilineLiteral : Reader (List Char) :=
  multiline apostrophe (single plainLiteral <|> lineEnd)

def string : Reader String := do
  return String.ofList
    (← multilineQuoted <|> quotedString <|> multilineLiteral <|> literalString)

/-! ## Keys -/

def isBareKey (c : Char) : Bool := c.isAlphanum || c == '-' || c == '_'

def simpleKey : Reader String := do
  return String.ofList
    (← quotedString <|> literalString <|> many1 (satisfy isBareKey))

/-- Nesting, by brackets or by dots in a key, stays below this. -/
def nestingLimit : Nat := 80

/-- The parts of a dotted key. -/
def key : Reader (List String) :=
  checked
    (separated (do blanks; let k ← simpleKey; blanks; return k) (char '.'))
    fun parts => !parts.isEmpty && parts.length < nestingLimit

end TagFlow.Toml
