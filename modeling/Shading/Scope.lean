import Shading.Ty

/-!
# Scopes

One level of names and what they are bound to. A name is bound once; binding it again is refused.
-/

namespace Shading

/-- Names with what they are bound to, the latest first. -/
structure Scope (α : Type) where
  entries : List (Ident × α) := []

namespace Scope

variable {α : Type}

def empty : Scope α := {}

instance : Inhabited (Scope α) := ⟨empty⟩

def lookup? (s : Scope α) (x : Ident) : Option α := s.entries.lookup x

def contains (s : Scope α) (x : Ident) : Bool := (s.lookup? x).isSome

/-- The scope with one more name, unless the name is bound already. -/
def insert? (s : Scope α) (x : Ident) (a : α) : Option (Scope α) :=
  if s.contains x then none else some ⟨(x, a) :: s.entries⟩

def size (s : Scope α) : Nat := s.entries.length

/-- What the name is bound to in the first of several scopes that binds it. -/
def find? (scopes : List (Scope α)) (x : Ident) : Option α := scopes.findSome? fun s => s.lookup? x

@[simp] theorem lookup?_empty (x : Ident) : (empty : Scope α).lookup? x = none := rfl

theorem lookup?_insert? {s t : Scope α} {x : Ident} {a : α} (h : s.insert? x a = some t) (y : Ident) :
    t.lookup? y = if y = x then some a else s.lookup? y := by
  unfold insert? at h
  split at h
  · cases h
  · cases h
    by_cases hy : y = x
    · subst hy
      simp [lookup?]
    · have hne : (y == x) = false := by simpa using hy
      simp [lookup?, List.lookup_cons, hne, hy]

end Scope

/-- What a variable is: part of the interface, or local to a function, where only some can be assigned. -/
inductive VarKind where
  | attributeVar
  | localVar (mutable : Bool)
  | uniformVar (block : Ident)
  | varyingVar
deriving DecidableEq, Inhabited

/-- The kinds of variables by name, in the order of their codes. -/
def VarKind.names : List String := ["attribute", "local", "uniform", "varying"]

/-- The name of the kind of variables with the given code. -/
def VarKind.nameOfCode (code : Nat) : String := (VarKind.names[code]?).getD "unknown"

/-- A variable: its type and what it is. -/
structure Var where
  ty : Ty
  kind : VarKind
deriving DecidableEq, Inhabited

end Shading
