import Shading.Ty

/-!
# Builtin functions

The functions every shader may call. A call is allowed when one of the overloads of its name takes
exactly the types of the arguments; the first such overload gives the type of the result.
-/

namespace Shading

/-- The signature of a builtin function. -/
structure Overload where
  params : List Ty
  result : Ty
deriving DecidableEq

structure Builtin where
  name : Ident
  overloads : List Overload
deriving DecidableEq

/-- Builtin functions. Several entries of one name count as one function. -/
abbrev Builtins := List Builtin

namespace Builtins

/-- The overloads of a name, or nothing if no builtin function has it. -/
def overloads? (table : Builtins) (f : Ident) : Option (List Overload) :=
  let entries := table.filter fun b => b.name == f
  if entries.isEmpty then none else some (entries.flatMap Builtin.overloads)

end Builtins

/-- The type of the result when a function is called with arguments of the given types. -/
def Overload.result? (overloads : List Overload) (args : List Ty) : Option Ty :=
  (overloads.find? fun o => o.params == args).map Overload.result

namespace Builtin

def signature (o : Overload) : String :=
  "(" ++ ", ".intercalate (o.params.map Ty.name) ++ ") -> " ++ o.result.name

def float : Ty := .float
def vector (k : Scalar) (n : Dim) : Ty := .basic (.vector k n)

def genTypes : List Ty := float :: Dim.all.map (vector .float)

/-- Overloads for the float and each float vector. -/
def perGen (f : Ty → List Overload) : List Overload := genTypes.flatMap f

/-- One overload for the float, and two for each float vector: all arguments of that type, or those that
`mixed` names. -/
def perGenMixed (count : Nat) (mixed : Ty → List Ty) : List Overload :=
  perGen fun g =>
    if g = float then [⟨List.replicate count g, g⟩]
    else [⟨List.replicate count g, g⟩, ⟨mixed g, g⟩]

/-- The functions of one argument that work by component. -/
def componentwise : List Ident :=
  ["radians", "degrees", "sin", "cos", "tan", "asin", "acos", "atan", "exp", "log", "exp2", "log2",
   "sqrt", "inversesqrt", "abs", "sign", "floor", "ceil", "fract", "normalize"]

/-- The overloads of the comparisons by component. -/
def relational (withBool : Bool) : List Overload :=
  Dim.all.flatMap fun n =>
    [⟨[vector .float n, vector .float n], vector .bool n⟩,
     ⟨[vector .int n, vector .int n], vector .bool n⟩] ++
    (if withBool then [⟨[vector .bool n, vector .bool n], vector .bool n⟩] else [])

def defaults : Builtins :=
  (componentwise.map fun f =>
    ⟨f, perGen fun g => if f = "atan" then [⟨[g], g⟩, ⟨[g, g], g⟩] else [⟨[g], g⟩]⟩) ++
  [⟨"pow", perGen fun g => [⟨[g, g], g⟩]⟩] ++
  (["mod", "min", "max"].map fun f => ⟨f, perGenMixed 2 fun g => [g, float]⟩) ++
  [⟨"clamp", perGenMixed 3 fun g => [g, float, float]⟩,
   ⟨"mix", perGenMixed 3 fun g => [g, g, float]⟩,
   ⟨"step", perGenMixed 2 fun g => [float, g]⟩,
   ⟨"smoothstep", perGenMixed 3 fun g => [float, float, g]⟩,
   ⟨"length", perGen fun g => [⟨[g], float⟩]⟩,
   ⟨"distance", perGen fun g => [⟨[g, g], float⟩]⟩,
   ⟨"dot", perGen fun g => [⟨[g, g], float⟩]⟩,
   ⟨"cross", [⟨[vector .float .three, vector .float .three], vector .float .three⟩]⟩,
   ⟨"reflect", perGen fun g => [⟨[g, g], g⟩]⟩,
   ⟨"refract", perGen fun g => [⟨[g, g, float], g⟩]⟩,
   ⟨"faceforward", perGen fun g => [⟨[g, g, g], g⟩]⟩,
   ⟨"matrixCompMult", Dim.all.map fun n => ⟨[.basic (.matrix n), .basic (.matrix n)], .basic (.matrix n)⟩⟩] ++
  (["lessThan", "lessThanEqual", "greaterThan", "greaterThanEqual"].map fun f => ⟨f, relational false⟩) ++
  [⟨"equal", relational true⟩,
   ⟨"notEqual", relational true⟩,
   ⟨"any", Dim.all.map fun n => ⟨[vector .bool n], .bool⟩⟩,
   ⟨"all", Dim.all.map fun n => ⟨[vector .bool n], .bool⟩⟩,
   ⟨"not", Dim.all.map fun n => ⟨[vector .bool n], vector .bool n⟩⟩]

end Builtin

end Shading
