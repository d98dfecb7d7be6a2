/-! # Readers

A reader takes a value from the front of a text and leaves the rest, or fails. A choice
that fails leaves the text as it was.
-/

namespace TagFlow

abbrev Reader (α : Type) := StateT (List Char) Option α

namespace Reader

variable {α β : Type}

def satisfy (p : Char → Bool) : Reader Char
  | c :: rest => if p c then some (c, rest) else none
  | [] => none

def char (c : Char) : Reader Char := satisfy (· == c)

def takeWhile (p : Char → Bool) : Reader (List Char) := fun cs =>
  some (cs.takeWhile p, cs.dropWhile p)

def literal : List Char → Reader Unit
  | [] => pure ()
  | c :: rest => do
      let _ ← char c
      literal rest

def endOfText : Reader Unit
  | [] => some ((), [])
  | _ :: _ => none

def attempt (r : Reader α) : Reader (Option α) := fun cs =>
  match r cs with
  | some (a, rest) => some (some a, rest)
  | none => some (none, cs)

/-- Succeeds where the reader does, and takes nothing. -/
def ahead (r : Reader α) : Reader Unit := fun cs =>
  match r cs with
  | some _ => some ((), cs)
  | none => none

/-- What the reader takes in a row, the last first; the fuel is a text of which it takes
at least one character each time. -/
def collect (r : Reader α) (taken : List α) : List Char → List Char → List α × List Char
  | [], cs => (taken, cs)
  | _ :: fuel, cs =>
      match r cs with
      | none => (taken, cs)
      | some (a, rest) => collect r (a :: taken) fuel rest

/-- As often as the reader succeeds. It has to take something each time. -/
def many (r : Reader α) : Reader (List α) := fun cs =>
  let (taken, rest) := collect r [] cs cs
  some (taken.reverse, rest)

def many1 (r : Reader α) : Reader (List α) := do
  return (← r) :: (← many r)

/-- Any number of items with a separator between each two. -/
def separated (item : Reader α) (separator : Reader β) : Reader (List α) := do
  match ← attempt item with
  | none => return []
  | some a => return a :: (← many (do let _ ← separator; item))

def times (r : Reader α) : Nat → Reader (List α)
  | 0 => pure []
  | n + 1 => do return (← r) :: (← times r n)

/-- Fails unless the value passes a test. -/
def checked (r : Reader α) (p : α → Bool) : Reader α := do
  let a ← r
  if p a then return a else failure

end Reader

end TagFlow
