import Shading.Toml.Table

/-!
# Reading values out of tables

A key that is missing has a value of its own kind that says nothing: an empty text, an empty list, an
empty table, or false. A key with a value of another kind is refused. A key may also be written in
capital letters.
-/

namespace Shading.Toml

namespace Node

def string? : Node → Option String
  | string s => some s
  | _ => none

def boolean? : Node → Option Bool
  | boolean b => some b
  | _ => none

/-- The texts of an array. -/
def strings? : Node → Option (List String)
  | array items => items.mapM string?
  | _ => none

def table? : Node → Option Table
  | table t => some t
  | _ => none

def tables? : Node → Option (List Table)
  | tables ts => some ts
  | _ => none

end Node

namespace Table

/-- The value of a key, as it is spelled or in capital letters. -/
def member? (t : Table) (key : String) : Option Node := (t.find? key).or (t.find? key.toUpper)

/-- The value of a key by its kind, or what stands for it if it is missing. -/
def read? {α : Type} (t : Table) (key : String) (kind : Node → Option α) (missing : α) : Option α :=
  match t.member? key with
  | some n => kind n
  | none => some missing

def string? (t : Table) (key : String) : Option String := t.read? key Node.string? ""
def boolean? (t : Table) (key : String) : Option Bool := t.read? key Node.boolean? false
def strings? (t : Table) (key : String) : Option (List String) := t.read? key Node.strings? []
def table? (t : Table) (key : String) : Option Table := t.read? key Node.table? empty
def tables? (t : Table) (key : String) : Option (List Table) := t.read? key Node.tables? []

end Table

end Shading.Toml
