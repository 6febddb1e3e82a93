import Shading.Builtin
import Shading.Code
import Shading.Fault
import Shading.Scope

/-!
# The state of checking

Top-level functions and structs are opened the first time they are used, so each stands behind
everything it uses itself. What has been opened is kept, in the order in which it was finished. A name is
looked up in the scopes of the function, innermost first, and then among the top-level names.
-/

namespace Shading

/-- Something that happens while a shader is compiled, for the log. -/
inductive Event where
  | parsed (decls : Nat)
  | openedFn (f : Ident) (fns : List Ident)
  | openedStruct (s : Ident)
  | prunedLoop (x : Ident) (span : Span)
  | prunedBranch (test : Bool) (span : Span)
  | wroteStage (stage : Stage) (structs fns : Nat)
  | emitted (blocks vertexFns fragmentFns : Nat)
deriving DecidableEq

/-- The functions and structs opened so far, in the order in which they were finished, and the events,
the latest first. -/
structure Expansion where
  structs : List StructDef := []
  fns : List FnDef := []
  events : List Event := []
deriving Inhabited

namespace Expansion

def fn? (s : Expansion) (f : Ident) : Option FnDef := s.fns.find? fun d => d.name == f

def struct? (s : Expansion) (x : Ident) : Option StructDef := s.structs.find? fun d => d.name == x

def note (s : Expansion) (e : Event) : Expansion := { s with events := e :: s.events }

def addFn (s : Expansion) (f : FnDef) : Expansion := { s with fns := s.fns ++ [f] }

def addStruct (s : Expansion) (d : StructDef) : Expansion := { s with structs := s.structs ++ [d] }

end Expansion

/-- A step of checking. What it has opened stays, also when it fails. -/
abbrev Check := ExceptT Fault (StateM Expansion)

/-- What a name stands for. -/
inductive Info where
  | var (v : Var)
  | fn (f : FnDef)
  | struct (s : StructDef)
  | builtin (overloads : List Overload)

namespace Check

def refuse {α : Type} (cause : Cause) (span : Span) : Check α := throw (.refused ⟨cause, span⟩)

def note (e : Event) : Check Unit := modify fun s => s.note e

/-- The struct of the given name, which must have been opened. -/
def openedStruct (s : Ident) : Check StructDef := do
  match (← get).struct? s with
  | some d => return d
  | none => throw (.unopened s)

/-- An array, or a struct with an array somewhere inside it. -/
def hasArrays (t : Ty) : Check Bool := do
  match t with
  | .array .. => return true
  | .struct s => return (← openedStruct s).hasArrays
  | _ => return false

end Check

/-- Looks a top-level name up, for a use at the given place. -/
abbrev Globals := Ident → Span → Check (Option Info)

/-- The names that can be used at a place: the scopes around it, innermost first, and the top-level
names. -/
structure Context where
  scopes : List (Scope Var)
  globals : Globals

def Context.find (ctx : Context) (x : Ident) (span : Span) : Check (Option Info) :=
  match Scope.find? ctx.scopes x with
  | some v => return some (.var v)
  | none => ctx.globals x span

/-- A checked expression. -/
structure Typed where
  ty : Ty
  deps : Deps
  term : Term
deriving Inhabited

end Shading
