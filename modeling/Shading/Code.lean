import Shading.Deps
import Shading.Value

/-!
# Emitted code

What checking leaves of a shader: expressions whose constants are computed and whose names are resolved,
statements without those that do nothing, and the functions and structs of each stage in the order in
which they must be declared. A dialect turns it into text.
-/

namespace Shading

inductive Stage where
  | vertex | fragment
deriving DecidableEq, Inhabited

namespace Stage

def name : Stage → String
  | vertex => "vertex"
  | fragment => "fragment"

/-- The function that implements the stage. -/
def entryPoint (s : Stage) : Ident := s.name

def all : List Stage := [vertex, fragment]

def nameOfCode (code : Nat) : String := (all[code]?).elim "unknown" name

end Stage

/-- An emitted expression. -/
inductive Term where
  | const (v : Value)
  | cond (test yes no : Term)
  | bin (op : BinOp) (left right : Term)
  | un (op : UnOp) (operand : Term)
  | index (base index : Term)
  | member (base : Term) (name : Ident)
  | swizzle (base : Term) (letters : Ident)
  | call (f : Ident) (deps : Deps) (args : List Term)
  | builtin (f : Ident) (args : List Term)
  | makeStruct (s : Ident) (args : List Term)
  | construct (ty : BasicTy) (args : List Term)
  | attributeVar (x : Ident)
  | uniformVar (block x : Ident)
  | varyingVar (x : Ident)
  | localVar (x : Ident)
deriving Inhabited

/-- The value of an expression that is computed already. -/
def Term.value? : Term → Option Value
  | .const v => some v
  | _ => none

/-- An emitted statement. An assignment that is a statement of its own is apart from other expressions;
the else-part of a branch is a block or another branch. -/
inductive Code where
  | exitLoop
  | nextTurn
  | assign (op : BinOp) (left right : Term)
  | eval (t : Term)
  | declare (x : Ident) (ty : Ty) (init : Option Term)
  | ret (t : Option Term)
  | block (body : List Code)
  | loop (x : Ident) (first bound step : Int32) (body : List Code)
  | branch (test : Term) (yes : List Code) (no : Option Code)
deriving Inhabited

structure FnDef where
  name : Ident
  params : List (Ident × Ty)
  result : Ty
  deps : Deps
  body : List Code
deriving Inhabited

/-- An emitted struct, and whether an array is somewhere inside it. -/
structure StructDef where
  name : Ident
  members : List (Ident × Ty)
  hasArrays : Bool
deriving Inhabited, DecidableEq

def StructDef.member? (s : StructDef) (m : Ident) : Option Ty := s.members.lookup m

structure UniformBlock where
  name : Ident
  vars : List (Ident × Ty)
deriving Inhabited, DecidableEq

/-- The variables a shader shares with the outside and between its stages. -/
structure Interface where
  attributes : List (Ident × Ty) := []
  blocks : List UniformBlock := []
  varyings : List (Ident × Ty) := []
deriving Inhabited, DecidableEq

/-- What the text of a stage declares. -/
structure StageUnit where
  stage : Stage
  structs : List StructDef
  blocks : List UniformBlock
  attributes : List (Ident × Ty)
  varyings : List (Ident × Ty)
  fns : List FnDef
  /-- All varyings of the shader, also where the text declares none. -/
  interfaceVaryings : List (Ident × Ty)
deriving Inhabited

/-- A checked shader. -/
structure Program where
  interface : Interface
  vertexDeps : Deps
  fragmentDeps : Deps
  vertex : StageUnit
  fragment : StageUnit
deriving Inhabited

end Shading
