import Shading.Number.Shortest
import Shading.Operator

/-!
# Constants

The values known while a shader is compiled: truth values, 32-bit integers and doubles. Operators on
constants are partial. Arithmetic needs two integers or two doubles; integer arithmetic wraps around
and leaves out division by zero, and arithmetic on doubles gives nothing where the result is not
finite. Comparisons order numbers of one kind, and no comparison with a NaN has a result.
-/

namespace Shading

/-- The scalar types, which are also the kinds of constants. -/
inductive Scalar where
  | bool | int | float
deriving DecidableEq, Inhabited

namespace Scalar

def name : Scalar → String
  | bool => "bool"
  | int => "int"
  | float => "float"

def all : List Scalar := [bool, int, float]

def nameOfCode (code : Nat) : String := (all[code]?).elim "unknown" name

end Scalar

inductive Value where
  | bool (b : Bool)
  | int (i : Int32)
  | float (f : Float)
deriving DecidableEq, Inhabited

namespace Value

def kind : Value → Scalar
  | bool _ => .bool
  | int _ => .int
  | float _ => .float

/-- The truth value of a constant; other constants count as false. -/
def toBool : Value → Bool
  | bool b => b
  | _ => false

/-- The integer of a constant; other constants count as zero. -/
def toInt32 : Value → Int32
  | int i => i
  | _ => 0

/-- The double of a constant; other constants count as zero. -/
def toFloat : Value → Float
  | float f => f
  | _ => 0

/-- Doubles are written with the fewest digits, positionally from `0.0001` up to a million. -/
def floatFormat : Number.FloatFormat where
  leastPositional := -4
  firstScientific := 6
  minExponentDigits := 2
  nan := "NaN"
  positiveInfinity := "+Inf"
  negativeInfinity := "-Inf"

/-- The text of a double; one that looks like a whole number gets `.0` at its end. -/
def floatText (f : Float) : String :=
  let s := floatFormat.text f
  if s.toList.any fun c => c == '.' || c == 'e' then s else s ++ ".0"

/-- The literal that denotes the constant. -/
def text : Value → String
  | bool true => "true"
  | bool false => "false"
  | int i => toString i.toInt
  | float f => floatText f

def isFiniteFloat (f : Float) : Bool := (Number.magnitudeOfFloat f).2 < Number.infinityBits

def isFinite : Value → Bool
  | float f => isFiniteFloat f
  | _ => true

def arithInt (op : Arith) (x y : Int32) : Int32 :=
  match op with
  | .add => x + y
  | .sub => x - y
  | .mul => x * y
  | .div => x / y

def arithFloat (op : Arith) (x y : Float) : Float :=
  match op with
  | .add => x + y
  | .sub => x - y
  | .mul => x * y
  | .div => x / y

/-- The result of an arithmetic operator on two constants of one numeric kind. There is none for a
division of integers by zero, nor where the resulting double is not finite. -/
def arith? (op : Arith) : Value → Value → Option Value
  | int x, int y => if op = .div ∧ y = 0 then none else some (int (arithInt op x y))
  | float x, float y =>
    let z := arithFloat op x y
    if isFiniteFloat z then some (float z) else none
  | _, _ => none

def neg? : Value → Option Value
  | int x => some (int (-x))
  | float x => some (float (-x))
  | bool _ => none

def not? : Value → Option Value
  | bool b => some (bool !b)
  | _ => none

/-- Equality of two constants of one kind; zeros of either sign are equal, and a NaN equals nothing. -/
def same? : Value → Value → Option Bool
  | bool x, bool y => some (x == y)
  | int x, int y => some (x == y)
  | float x, float y => some (x == y)
  | _, _ => none

/-- The order of two numbers of one kind; a NaN stands in no order. -/
def order? : Value → Value → Option Ordering
  | int x, int y => some (if x < y then .lt else if y < x then .gt else .eq)
  | float x, float y =>
    if x.isNaN || y.isNaN then none
    else some (if x < y then .lt else if y < x then .gt else .eq)
  | _, _ => none

end Value

/-- The comparison holds between two values that stand in the given order. -/
def Comparison.holds : Comparison → Ordering → Bool
  | .lt, o => o == .lt
  | .le, o => o != .gt
  | .gt, o => o == .gt
  | .ge, o => o != .lt

namespace Value

def compare? (op : Comparison) (x y : Value) : Option Value :=
  (order? x y).map fun o => bool (op.holds o)

/-- The result of a binary operator on two constants, where it can be computed at once. Assignments
have none. -/
def binary? (op : BinOp) (x y : Value) : Option Value :=
  match op with
  | .or => match x, y with
    | bool a, bool b => some (bool (a || b))
    | _, _ => none
  | .and => match x, y with
    | bool a, bool b => some (bool (a && b))
    | _, _ => none
  | .eq => (same? x y).map bool
  | .ne => (same? x y).map fun b => bool !b
  | .compare c => compare? c x y
  | .arith a => arith? a x y
  | .assign | .update _ => none

def unary? (op : UnOp) (x : Value) : Option Value :=
  match op with
  | .not => not? x
  | .neg => neg? x

/-- Conversion to another scalar type: a number is true unless it is zero, truth counts as one, and a
double loses its fraction. -/
def convert (k : Scalar) (x : Value) : Value :=
  match k, x with
  | .bool, int i => bool (i != 0)
  | .bool, float f => bool (f != 0)
  | .int, bool b => int (if b then 1 else 0)
  | .int, float f => int f.toInt32
  | .float, bool b => float (if b then 1 else 0)
  | .float, int i => float (Number.floatOfInt i.toInt)
  | _, x => x

@[simp] theorem kind_convert (k : Scalar) (x : Value) : (x.convert k).kind = k := by
  cases k <;> cases x <;> rfl

end Value

end Shading
