import TagFlow.Toml.Scalar

/-! # TOML documents

A document is read line by line into statements, which are then put together into one
table. A header line opens a table; a key and value line adds to the table that is open.
-/

namespace TagFlow.Toml

open Reader

/-! ## Adding to a table

A path leads from a table to a table inside it. Header lines may go through any table
that is not in braces, dotted keys only through tables that no header has opened, and
dotted keys in braces only through tables made by dotted keys there. Missing tables on
the way are made. -/

inductive Route where
  | header
  | dotted
  | braced
  deriving DecidableEq

namespace Route

def makes : Route → TableForm
  | header => .implied
  | dotted => .dotted
  | braced => .bracedDotted

def enters : Route → TableForm → Bool
  | header, form => !form.isBraced
  | dotted, form => form = .implied || form = .dotted
  | braced, form => form = .bracedDotted

end Route

def put (key : String) (value : Value) : Entries → Entries
  | [] => [(key, value)]
  | e :: rest => if e.1 = key then (key, value) :: rest else e :: put key value rest

/-- Works on the table at the end of a path and puts the outcome back in its place. An
array of tables leads to its last table. -/
def follow {β : Type} (route : Route) (work : TableForm → Entries → Option (β × Entries)) :
    List String → TableForm → Entries → Option (β × Entries)
  | [], form, entries => work form entries
  | key :: path, _, entries =>
      match entries.lookup key with
      | none => do
          let (b, inner) ← follow route work path route.makes []
          return (b, entries ++ [(key, .table route.makes inner)])
      | some (.table form inner) =>
          if route.enters form then do
            let (b, inner) ← follow route work path form inner
            return (b, put key (.table form inner) entries)
          else none
      | some (.tables items) =>
          match items.getLast? with
          | some (.table form inner) => do
              let (b, inner) ← follow route work path form inner
              return (b, put key (.tables (items.dropLast ++ [.table form inner])) entries)
          | _ => none
      | some _ => none

/-- Adds a new key. A dotted key ends in a table made by dotted keys, any other key in the
table itself. -/
def addKey (isDotted : Bool) (key : String) (value : Value) (form : TableForm)
    (entries : Entries) : Option (Unit × Entries) :=
  if form.isDotted = isDotted ∧ (entries.lookup key).isNone then
    some ((), entries ++ [(key, value)])
  else none

def addPair (route : Route) (path : List String) (value : Value) (form : TableForm)
    (entries : Entries) : Option Entries := do
  let key ← path.getLast?
  let way := path.dropLast
  let (_, entries) ← follow route (addKey (!way.isEmpty) key value) way form entries
  return entries

/-! ## Values -/

def keyAndMark : Reader (List String) := do
  let path ← key
  let _ ← char '='
  blanks
  return path

/-- A comma may follow the last item. -/
def array (item : Reader Value) : Reader Value := do
  let _ ← char '['
  let items ← separated (do spacing; let v ← item; spacing; return v) (char ',')
  if !items.isEmpty then
    let _ ← attempt (char ',')
  spacing
  let _ ← char ']'
  return .array items

def bracedTable (item : Reader Value) : Reader Value := do
  let _ ← char '\x7b'
  let pairs ← separated
    (do let path ← keyAndMark; let v ← item; blanks; return (path, v)) (char ',')
  blanks
  let _ ← char '\x7d'
  match pairs.foldlM (fun entries p => addPair .braced p.1 p.2 .braced entries) [] with
  | some entries => return .table .braced entries
  | none => failure

/-- Values with at most so many brackets around any part of them. -/
def valueWithin : Nat → Reader Value
  | 0 => scalar
  | depth + 1 => array (valueWithin depth) <|> bracedTable (valueWithin depth) <|> scalar

def value : Reader Value := valueWithin (nestingLimit - 1)

/-! ## Statements -/

inductive Statement where
  | blank
  | header (path : List String)
  | arrayHeader (path : List String)
  | pair (path : List String) (value : Value)

def endOfLine : Reader Unit := newline <|> endOfText

def restOfLine : Reader Unit := do
  blanks
  let _ ← attempt comment
  endOfLine

def statement : Reader Statement :=
  (do newline; return .blank)
    <|> (do comment; endOfLine; return .blank)
    <|> (do
      literal ['[', '[']
      let path ← key
      literal [']', ']']
      restOfLine
      return .arrayHeader path)
    <|> (do
      let _ ← char '['
      let path ← key
      let _ ← char ']'
      restOfLine
      return .header path)
    <|> (do
      let path ← keyAndMark
      let v ← value
      restOfLine
      return .pair path v)

/-- A mark of the byte order may come first. -/
def statements : Reader (List Statement) := do
  let _ ← attempt (char (Char.ofNat 0xfeff))
  blanks
  let lines ← many (do let s ← statement; blanks; return s)
  endOfText
  return lines

/-! ## Assembling -/

/-- The table so far, and the open table with the path of its header. -/
structure Assembly where
  root : Entries := []
  path : List String := []
  isArray : Bool := false
  entries : Entries := []

namespace Assembly

/-- Puts the open table into its place. -/
def close (a : Assembly) : Option Entries :=
  match a.path.getLast? with
  | none => some a.entries
  | some key => do
      let made := Value.table .headed a.entries
      let place (_ : TableForm) (entries : Entries) : Option (Unit × Entries) :=
        if a.isArray then
          match entries.lookup key with
          | none => some ((), entries ++ [(key, .tables [made])])
          | some (.tables items) => some ((), put key (.tables (items ++ [made])) entries)
          | some _ => none
        else some ((), entries ++ [(key, made)])
      let (_, root) ← follow .header place a.path.dropLast .headed a.root
      return root

/-- Opens a table. One that headers of inner tables have implied keeps what it has. -/
def openTable (root : Entries) (path : List String) : Option Assembly := do
  let key ← path.getLast?
  let take (_ : TableForm) (entries : Entries) : Option (Entries × Entries) :=
    match entries.lookup key with
    | none => some ([], entries)
    | some (.table .implied inner) => some (inner, entries.filter (·.1 ≠ key))
    | some _ => none
  let (entries, root) ← follow .header take path.dropLast .headed root
  return { root, path, entries }

/-- Opens one more table of an array that only header lines fill. -/
def openArray (root : Entries) (path : List String) : Option Assembly := do
  let key ← path.getLast?
  let look (_ : TableForm) (entries : Entries) : Option (Unit × Entries) :=
    match entries.lookup key with
    | none => some ((), entries)
    | some (.tables _) => some ((), entries)
    | some _ => none
  let (_, root) ← follow .header look path.dropLast .headed root
  return { root, path, isArray := true }

def add (a : Assembly) : Statement → Option Assembly
  | .blank => some a
  | .header path => do openTable (← a.close) path
  | .arrayHeader path => do openArray (← a.close) path
  | .pair path v => do return { a with entries := ← addPair .dotted path v .headed a.entries }

end Assembly

def assemble (lines : List Statement) : Option Entries := do
  (← lines.foldlM Assembly.add {}).close

/-- The top table of a document. -/
def parse (text : String) : Option Entries := do
  let (lines, _) ← statements text.toList
  assemble lines

end TagFlow.Toml
