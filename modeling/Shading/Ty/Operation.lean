import Shading.Ty

/-!
# The types of operations

Which operand types an operator takes and what type its result has. Arithmetic works on equal numeric
types, on a scalar beside a vector or matrix of the same component kind, and multiplies a vector with
a matrix of its size. An updating assignment is allowed where the plain operator gives back the
type of the left operand. Assignment and equality take any two equal types that are not void, and
equality leaves out arrays.
-/

namespace Shading

/-- A type that arithmetic works on: its components are numbers. -/
def BasicTy.isNumeric (b : BasicTy) : Bool := b.component != .bool

/-- A vector or matrix of numbers whose components have the kind `k`. -/
def BasicTy.isNumericAggregate (b : BasicTy) (k : Scalar) : Bool :=
  !b.isScalar && b.isNumeric && b.component == k

/-- The result type of arithmetic on basic types. -/
def BasicTy.arith? (op : Arith) (l r : BasicTy) : Option BasicTy :=
  if l = r ∧ l.isNumeric then some l
  else match l, r with
    | .scalar k, _ => if r.isNumericAggregate k then some r else none
    | _, .scalar k => if l.isNumericAggregate k then some l else none
    | .vector .float n, .matrix m => if op = .mul ∧ n = m then some l else none
    | .matrix m, .vector .float n => if op = .mul ∧ n = m then some r else none
    | _, _ => none

namespace Ty

/-- The result type of an operator on two basic types. -/
def basicBinary? (op : BinOp) (l r : BasicTy) : Option BasicTy :=
  match op with
  | .arith a => BasicTy.arith? a l r
  | .update a => (BasicTy.arith? a l r).filter (· = l)
  | .compare _ =>
    if l = r ∧ (l = .scalar .int ∨ l = .scalar .float) then some (.scalar .bool) else none
  | .and | .or => if l = .scalar .bool ∧ r = .scalar .bool then some (.scalar .bool) else none
  | .assign | .eq | .ne => none

def binary? (op : BinOp) (l r : Ty) : Option Ty :=
  match op with
  | .assign => if l = r ∧ l ≠ void then some l else none
  | .eq | .ne => if l = r ∧ l ≠ void ∧ l.isArray = false then some bool else none
  | _ => match l, r with
    | basic a, basic b => (basicBinary? op a b).map basic
    | _, _ => none

def unary? (op : UnOp) (t : Ty) : Option Ty :=
  match op, t with
  | .not, basic b => if b = .scalar .bool then some t else none
  | .neg, basic b => if b.isNumeric then some t else none
  | _, _ => none

/-- The type of an element, component or column selected by an index. -/
def index? (base index : Ty) : Option Ty :=
  if index = int then
    match base with
    | array elem _ => some elem
    | basic (.vector k _) => some (ofScalar k)
    | basic (.matrix n) => some (basic (.vector .float n))
    | _ => none
  else none

/-- The number of places an index may select. -/
def indexBound : Ty → Int
  | array _ len => len
  | t => t.len

end Ty

end Shading
