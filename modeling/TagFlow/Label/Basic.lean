import TagFlow.Program.Fault

/-! # Security labels

A label is the set of secrecy tags and the set of integrity tags of a value, or
`unknown` while nothing is known about the value. `unknown` is below every label
and differs from the label without tags. Higher labels are more secret and less
trusted: joining unites secrecy and intersects integrity.
-/

namespace TagFlow

abbrev Tag := Nat

abbrev TagSet := OrdSet Tag

inductive Label where
  | unknown
  | known (secrecy integrity : TagSet)
  deriving DecidableEq, Inhabited

namespace Label

def untagged : Label := known .empty .empty

def ofTags (secrecy integrity : List Tag) : Label := known (.ofList secrecy) (.ofList integrity)

def isUnknown : Label → Bool
  | unknown => true
  | known _ _ => false

/-! ## Reading -/

def secrecy : Label → Except Fault TagSet
  | unknown => .error (.unknownLabel .secrecy)
  | known secrecy _ => .ok secrecy

def integrity : Label → Except Fault TagSet
  | unknown => .error (.unknownLabel .integrity)
  | known _ integrity => .ok integrity

def hasIntegrity (l : Label) (tag : Tag) : Except Fault Bool := do
  return (← l.integrity).contains tag

def hasNoSecrecy (l : Label) : Except Fault Bool := do
  return (← l.secrecy).isEmpty

/-! ## Changing

No change makes an unknown label known. -/

def addSecrecy (tag : Tag) : Label → Label
  | unknown => unknown
  | known s i => known (s.insert tag) i

def removeSecrecy (tag : Tag) : Label → Label
  | unknown => unknown
  | known s i => known (s.erase tag) i

def addIntegrity (tag : Tag) : Label → Label
  | unknown => unknown
  | known s i => known s (i.insert tag)

def removeIntegrity (tag : Tag) : Label → Label
  | unknown => unknown
  | known s i => known s (i.erase tag)

def withIntegrity (integrity : TagSet) : Label → Label
  | unknown => unknown
  | known s _ => known s integrity

def clearIntegrity (l : Label) : Label := l.withIntegrity .empty

/-! ## Joining -/

def join : Label → Label → Label
  | unknown, l => l
  | l, unknown => l
  | known s i, known s' i' => known (s.union s') (i.inter i')

@[simp] theorem unknown_join (l : Label) : join unknown l = l := rfl

@[simp] theorem join_unknown (l : Label) : join l unknown = l := by
  cases l <;> rfl

/-! ## Text -/

def tagText (names : List String) (tag : Tag) : String :=
  names[tag]?.getD s!"#{tag}"

def tagSetText (names : List String) (tags : TagSet) : String :=
  "\x7b" ++ ", ".intercalate (tags.toList.map (tagText names)) ++ "\x7d"

/-- A tag without a name is shown by its number. -/
def render (names : List String) : Label → String
  | unknown => "Bottom"
  | known s i => "(" ++ tagSetText names s ++ ", " ++ tagSetText names i ++ ")"

end Label

end TagFlow
