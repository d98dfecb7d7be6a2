import TagFlow.Program.Fault

/-! # Declarations

Named and typed inputs and outputs of a block, in declaration order. A name is
declared once.
-/

namespace TagFlow

inductive DataType where
  | primitive
  | entity (schema : String)
  deriving DecidableEq

namespace DataType

def schema? : DataType → Option String
  | primitive => none
  | entity schema => some schema

def render : DataType → String
  | primitive => "primitive"
  | entity schema => "entity<" ++ schema ++ ">"

end DataType

structure Decl where
  name : String
  type : DataType
  deriving DecidableEq

structure Decls where
  toList : List Decl
  distinct : (toList.map Decl.name).Nodup

namespace Decls

def empty : Decls := ⟨[], by simp⟩

instance : Inhabited Decls := ⟨empty⟩

def names (d : Decls) : List String := d.toList.map Decl.name

def size (d : Decls) : Nat := d.toList.length

def find? (d : Decls) (name : String) : Option Decl :=
  d.toList.find? (·.name = name)

def indexOf? (d : Decls) (name : String) : Option Nat :=
  d.toList.findIdx? (·.name = name)

def get? (d : Decls) (index : Nat) : Option Decl := d.toList[index]?

/-- Declares a name at the next position. -/
def add (d : Decls) (name : String) (type : DataType) : Except Fault (Nat × Decls) :=
  if h : name ∈ d.names then .error (.duplicateDeclaration name)
  else
    .ok (d.size, ⟨d.toList ++ [⟨name, type⟩], by
      rw [List.map_append, List.nodup_append]
      refine ⟨d.distinct, by simp, ?_⟩
      intro a ha b hb
      simp only [List.map_cons, List.map_nil, List.mem_singleton] at hb
      subst hb
      intro e
      subst e
      exact h ha⟩)

end Decls

end TagFlow
