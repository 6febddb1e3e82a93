import Shading.Value

/-!
# Types

The types of the language: void, the basic types that have a keyword (scalars, vectors of two to four
components and square float matrices), arrays of a fixed length, and structs known by their name. Two
types are the same exactly when they are equal.
-/

namespace Shading

/-- A name of a variable, function, struct or member. -/
abbrev Ident := String

/-- The number of components of a vector, and of columns of a matrix. -/
inductive Dim where
  | two | three | four
deriving DecidableEq, Inhabited

namespace Dim

def toNat : Dim → Nat
  | two => 2
  | three => 3
  | four => 4

def ofNat? : Nat → Option Dim
  | 2 => some two
  | 3 => some three
  | 4 => some four
  | _ => none

def all : List Dim := [two, three, four]

@[simp] theorem ofNat?_toNat (n : Dim) : ofNat? n.toNat = some n := by cases n <;> rfl

end Dim

/-- The types that are written by a keyword. -/
inductive BasicTy where
  | scalar (k : Scalar)
  | vector (k : Scalar) (n : Dim)
  | matrix (n : Dim)
deriving DecidableEq, Inhabited

namespace BasicTy

/-- The letter a vector keyword starts with; float vectors have none. -/
def vectorMark : Scalar → String
  | .bool => "b"
  | .int => "i"
  | .float => ""

def name : BasicTy → String
  | scalar k => k.name
  | vector k n => vectorMark k ++ "vec" ++ toString n.toNat
  | matrix n => "mat" ++ toString n.toNat

def all : List BasicTy :=
  Scalar.all.map scalar ++ (Scalar.all.flatMap fun k => Dim.all.map (vector k)) ++ Dim.all.map matrix

def ofName? (s : String) : Option BasicTy := all.find? fun b => b.name == s

def codeOfName? (s : String) : Option Nat := all.findIdx? fun b => b.name == s

def nameOfCode (code : Nat) : String := (all[code]?).elim "unknown" name

/-- The type of the components. -/
def component : BasicTy → Scalar
  | scalar k => k
  | vector k _ => k
  | matrix _ => .float

/-- The number of components of a vector, of columns of a matrix, and one for a scalar. -/
def len : BasicTy → Nat
  | scalar _ => 1
  | vector _ n => n.toNat
  | matrix n => n.toNat

/-- The number of scalars the type is made of. -/
def slots : BasicTy → Nat
  | scalar _ => 1
  | vector _ n => n.toNat
  | matrix n => n.toNat * n.toNat

def isScalar : BasicTy → Bool
  | scalar _ => true
  | _ => false

def isVector : BasicTy → Bool
  | vector .. => true
  | _ => false

def isMatrix : BasicTy → Bool
  | matrix _ => true
  | _ => false

/-- The type of `n` components of one kind; a single component is the scalar itself. -/
def ofComponents? (k : Scalar) (n : Nat) : Option BasicTy :=
  if n = 1 then some (scalar k) else (Dim.ofNat? n).map (vector k)

end BasicTy

inductive Ty where
  | void
  | basic (b : BasicTy)
  | array (elem : Ty) (len : Int)
  | struct (name : Ident)
deriving DecidableEq, Inhabited

namespace Ty

def bool : Ty := basic (.scalar .bool)
def int : Ty := basic (.scalar .int)
def float : Ty := basic (.scalar .float)
def vec4 : Ty := basic (.vector .float .four)

/-- The type of a constant. -/
def ofScalar (k : Scalar) : Ty := basic (.scalar k)

def name : Ty → String
  | void => "void"
  | basic b => b.name
  | array elem len => elem.name ++ "[" ++ toString len ++ "]"
  | struct s => s

/-- The types that are neither arrays nor structs, in the order of their codes. -/
def simple : List Ty := void :: BasicTy.all.map basic

/-- The spelling of the simple type with the given code. -/
def nameOfCode (code : Nat) : String :=
  (simple[code]?).elim ("basic(" ++ toString code ++ ")") name

def ofName? (s : String) : Option Ty := simple.find? fun t => t.name == s

def isScalar : Ty → Bool
  | basic b => b.isScalar
  | _ => false

def isVector : Ty → Bool
  | basic b => b.isVector
  | _ => false

def isMatrix : Ty → Bool
  | basic b => b.isMatrix
  | _ => false

def isScalarOrVector (t : Ty) : Bool := t.isScalar || t.isVector

def isArray : Ty → Bool
  | array .. => true
  | _ => false

/-- The number of components or columns; zero for types without any. -/
def len : Ty → Nat
  | basic b => b.len
  | _ => 0

/-- The number of scalars a value has as an argument of a constructor. -/
def slots : Ty → Nat
  | basic b => b.slots
  | _ => 0

/-- The scalar type of the components of a scalar, vector or matrix. -/
def component? : Ty → Option Scalar
  | basic b => some b.component
  | _ => none

def column? : Ty → Option BasicTy
  | basic (.matrix n) => some (.vector .float n)
  | _ => none

/-- The kind of the constants of a scalar type. -/
def scalar? : Ty → Option Scalar
  | basic (.scalar k) => some k
  | _ => none

/-- The basic type, of a type that has a keyword. -/
def basic? : Ty → Option BasicTy
  | basic b => some b
  | _ => none

end Ty

/-- A number was given as a code of something that has none such. -/
inductive CodeFault where
  | typeKeyword (code : Int)
  | constantKind (code : Int)

def CodeFault.message : CodeFault → String
  | typeKeyword n => "unknown type literal " ++ toString n
  | constantKind n => "unknown constant kind " ++ toString n

/-- The type whose keyword has the given code. -/
def Ty.ofKeywordCode (code : Nat) : Except CodeFault Ty :=
  match BasicTy.all[code]? with
  | some b => .ok (.basic b)
  | none => .error (.typeKeyword code)

/-- The type of the constants of the given kind code. -/
def Ty.ofKindCode (code : Nat) : Except CodeFault Ty :=
  match Scalar.all[code]? with
  | some k => .ok (.ofScalar k)
  | none => .error (.constantKind code)

end Shading
