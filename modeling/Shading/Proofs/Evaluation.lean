import Shading.Check.Decl

/-!
# Evaluation

What an expression does when a shader runs: it has a value, it stores into variables and it calls
functions. The same steps give a meaning to an expression as it is written (`Expr.eval`), where a name
means what the scopes around it bind, and to an emitted one (`Term.eval`), where names are resolved.

Operands are evaluated from left to right. `&&` and `||` evaluate their right operand only where the left
one does not decide, and a conditional evaluates the branch it takes. Integers have 32 bits and wrap
around, their quotients are truncated, and operators on doubles are those of the doubles. What the
language leaves to the machine (operators on vectors, matrices and structs, quotients by zero, builtin
functions, and what the bodies of the called functions do) is a parameter.
-/

namespace Shading

/-- A value at run time. A matrix has columns; a record is a value of a struct. -/
inductive Datum where
  | scalar (v : Value)
  | vector (parts : List Value)
  | matrix (columns : List (List Value))
  | array (elems : List Datum)
  | record (parts : List (Ident × Datum))
deriving Inhabited

/-- A step from a value into one of its parts. -/
inductive Step where
  | elem (i : Int32)
  | part (name : Ident)
deriving DecidableEq

/-- The element of a list at a 32-bit index. -/
def nth? {α : Type} (l : List α) (i : Int32) : Option α :=
  if 0 ≤ i.toInt then l[i.toInt.toNat]? else none

def setNth? {α : Type} (l : List α) (i : Int32) (a : α) : Option (List α) :=
  if 0 ≤ i.toInt ∧ i.toInt.toNat < l.length then some (l.set i.toInt.toNat a) else none

/-- The places that a word selects among the components of a vector. -/
def selected? (count : Nat) (word : Ident) : Option (List Nat) :=
  Swizzle.letterSets.findSome? fun letters => Swizzle.places? letters count word.toList

namespace Datum

/-- One component is a scalar, several are a vector. -/
def ofParts : List Value → Datum
  | [v] => scalar v
  | vs => vector vs

def toParts? : Datum → Option (List Value)
  | scalar v => some [v]
  | vector vs => some vs
  | _ => none

def truth? : Datum → Option Bool
  | scalar (.bool b) => some b
  | _ => none

def int? : Datum → Option Int32
  | scalar (.int i) => some i
  | _ => none

/-- A part of a value. -/
def get? : Datum → Step → Option Datum
  | vector vs, .elem i => (nth? vs i).map scalar
  | matrix cs, .elem i => (nth? cs i).map vector
  | array ds, .elem i => nth? ds i
  | record ps, .part m => ps.lookup m
  | vector vs, .part word => do
    let places ← selected? vs.length word
    return ofParts (places.filterMap (vs[·]?))
  | _, _ => none

def set? : Datum → Step → Datum → Option Datum
  | vector vs, .elem i, scalar v => (setNth? vs i v).map vector
  | matrix cs, .elem i, vector vs => (setNth? cs i vs).map matrix
  | array ds, .elem i, d => (setNth? ds i d).map array
  | record ps, .part m, d => some (record (ps.map fun p => if p.1 = m then (m, d) else p))
  | vector vs, .part word, d => do
    let places ← selected? vs.length word
    let parts ← d.toParts?
    return vector ((places.zip parts).foldl (fun vs p => vs.set p.1 p.2) vs)
  | _, _, _ => none

def follow? (d : Datum) (path : List Step) : Option Datum := path.foldlM get? d

/-- The value with another part at the end of a path. -/
def replace? (new : Datum) : Datum → List Step → Option Datum
  | _, [] => some new
  | d, step :: path => do
    let inner ← d.get? step
    d.set? step (← replace? new inner path)

end Datum

/-- A variable of a running shader. -/
inductive Root where
  | attributeVar (x : Ident)
  | uniformVar (block x : Ident)
  | varyingVar (x : Ident)
  | localVar (x : Ident)
deriving DecidableEq

/-- A variable or a part of one. -/
structure Slot where
  root : Root
  path : List Step := []
deriving DecidableEq

/-- Something that evaluation does: it stores a value, or calls a function with arguments. -/
inductive Act where
  | stored (p : Slot) (d : Datum)
  | called (f : Ident) (args : List Datum)
  | calledBuiltin (f : Ident) (args : List Datum)

/-- The variables of a running shader, and what has been done, the latest first. -/
structure World where
  vars : Root → Datum
  acts : List Act := []

/-- A step of evaluation. It gives nothing where the language gives no result. -/
abbrev Run := StateT World Option

/-- What the language leaves to the machine. -/
structure Machine where
  /-- An operator on operands that are not both scalars. -/
  wide : BinOp → Datum → Datum → Option Datum
  /-- The negation of a vector or matrix. -/
  wideNeg : Datum → Option Datum
  quotientByZero : Int32 → Int32
  /-- A constructor that does not convert one scalar. -/
  construct : BasicTy → List Datum → Option Datum
  makeStruct : Ident → List Datum → Option Datum
  builtin : Ident → List Datum → Option Datum
  /-- What a called function does. -/
  call : Ident → List Datum → World → Option (Datum × World)

namespace Value

/-- The 32-bit integer that an operator gives: the exact result, wrapped around. -/
def intResult (m : Machine) (op : Arith) (x y : Int32) : Int32 :=
  match op with
  | .add => .ofInt (x.toInt + y.toInt)
  | .sub => .ofInt (x.toInt - y.toInt)
  | .mul => .ofInt (x.toInt * y.toInt)
  | .div => if y = 0 then m.quotientByZero x else .ofInt (x.toInt.tdiv y.toInt)

def floatResult (op : Arith) (x y : Float) : Float :=
  match op with
  | .add => x + y
  | .sub => x - y
  | .mul => x * y
  | .div => x / y

def intHolds (op : Comparison) (x y : Int32) : Bool :=
  match op with
  | .lt => x.toInt < y.toInt
  | .le => x.toInt ≤ y.toInt
  | .gt => y.toInt < x.toInt
  | .ge => y.toInt ≤ x.toInt

def floatHolds (op : Comparison) (x y : Float) : Bool :=
  match op with
  | .lt => x < y
  | .le => x ≤ y
  | .gt => y < x
  | .ge => y ≤ x

/-- The two scalars are equal; zeros of either sign are. -/
def equal? : Value → Value → Option Bool
  | bool x, bool y => some (x == y)
  | int x, int y => some (x.toInt == y.toInt)
  | float x, float y => some (x == y)
  | _, _ => none

/-- The result of an operator on two scalars of one kind. -/
def compute? (m : Machine) (op : BinOp) (x y : Value) : Option Value :=
  match op, x, y with
  | .eq, x, y => (equal? x y).map bool
  | .ne, x, y => (equal? x y).map fun b => bool !b
  | .compare c, int x, int y => some (bool (intHolds c x y))
  | .compare c, float x, float y => some (bool (floatHolds c x y))
  | .arith a, int x, int y => some (int (intResult m a x y))
  | .arith a, float x, float y => some (float (floatResult a x y))
  | _, _, _ => none

/-- A scalar as one of another kind. -/
def cast (k : Scalar) (x : Value) : Value :=
  match k, x with
  | .bool, bool b => bool b
  | .bool, int i => bool (i.toInt != 0)
  | .bool, float f => bool (f != 0)
  | .int, bool b => int (if b then 1 else 0)
  | .int, int i => int i
  | .int, float f => int f.toInt32
  | .float, bool b => float (if b then 1 else 0)
  | .float, int i => float (Number.floatOfInt i.toInt)
  | .float, float f => float f

end Value

namespace Run

def stuck {α : Type} : Run α := fun _ => none

def ofOption {α : Type} : Option α → Run α
  | some a => pure a
  | none => stuck

def act (a : Act) : Run Unit := modify fun w => { w with acts := a :: w.acts }

def load (p : Slot) : Run Datum := do ofOption ((← get).vars p.root |>.follow? p.path)

def store (p : Slot) (d : Datum) : Run Unit := do
  let whole ← ofOption (((← get).vars p.root).replace? d p.path)
  act (.stored p d)
  modify fun w => { w with vars := fun r => if r = p.root then whole else w.vars r }

/-- A conditional evaluates its test and the branch that it takes. -/
def cond (test yes no : Run Datum) : Run Datum := do
  if ← ofOption (← test).truth? then yes else no

end Run

namespace Machine

def binary (m : Machine) (op : BinOp) : Datum → Datum → Run Datum
  | .scalar x, .scalar y => Run.ofOption ((Value.compute? m op x y).map .scalar)
  | x, y => Run.ofOption (m.wide op x y)

/-- A binary operator, where the left operand is a place to store into or has a value. -/
def operator (m : Machine) (op : BinOp) (place : Run Slot) (left right : Run Datum) : Run Datum :=
  match op with
  | .assign => do
    let p ← place
    let d ← right
    Run.store p d
    return d
  | .update a => do
    let p ← place
    let d ← right
    let new ← m.binary (.arith a) (← Run.load p) d
    Run.store p new
    return new
  | .or => Run.cond left (pure (.scalar (.bool true))) right
  | .and => Run.cond left right (pure (.scalar (.bool false)))
  | op => do m.binary op (← left) (← right)

def unary (m : Machine) (op : UnOp) : Datum → Run Datum
  | .scalar (.bool b) => match op with
    | .not => pure (.scalar (.bool !b))
    | .neg => Run.stuck
  | .scalar (.int i) => match op with
    | .not => Run.stuck
    | .neg => pure (.scalar (.int (.ofInt (-i.toInt))))
  | .scalar (.float f) => match op with
    | .not => Run.stuck
    | .neg => pure (.scalar (.float (-f)))
  | d => match op with
    | .not => Run.stuck
    | .neg => Run.ofOption (m.wideNeg d)

/-- A constructor: a scalar type converts one scalar. -/
def make (m : Machine) : BasicTy → List Datum → Run Datum
  | .scalar k, [.scalar v] => pure (.scalar (v.cast k))
  | ty, args => Run.ofOption (m.construct ty args)

def callFn (m : Machine) (f : Ident) (args : List Datum) : Run Datum := do
  Run.act (.called f args)
  m.call f args

def callBuiltin (m : Machine) (f : Ident) (args : List Datum) : Run Datum := do
  Run.act (.calledBuiltin f args)
  Run.ofOption (m.builtin f args)

def record (m : Machine) (s : Ident) (args : List Datum) : Run Datum := Run.ofOption (m.makeStruct s args)

def element (base index : Run Datum) : Run Datum := do
  let d ← base
  let i ← Run.ofOption (← index).int?
  Run.ofOption (d.get? (.elem i))

/-- A member or components of a value. -/
def part (base : Run Datum) (name : Ident) : Run Datum := do
  let d ← base
  Run.ofOption (d.get? (.part name))

def elementPlace (base : Run Slot) (index : Run Datum) : Run Slot := do
  let p ← base
  let i ← Run.ofOption (← index).int?
  return { p with path := p.path ++ [.elem i] }

/-- The place of a member or of components. -/
def partPlace (base : Run Slot) (name : Ident) : Run Slot := do
  let p ← base
  return { p with path := p.path ++ [.part name] }

end Machine

namespace Term

mutual

/-- The value of an emitted expression. -/
def eval (m : Machine) : Term → Run Datum
  | .const v => pure (.scalar v)
  | .cond c t f => Run.cond (c.eval m) (t.eval m) (f.eval m)
  | .bin op l r => m.operator op (l.place m) (l.eval m) (r.eval m)
  | .un op e => do m.unary op (← e.eval m)
  | .index b i => Machine.element (b.eval m) (i.eval m)
  | .member b name => Machine.part (b.eval m) name
  | .swizzle b letters => Machine.part (b.eval m) letters
  | .call f _ args => do m.callFn f (← evals m args)
  | .builtin f args => do m.callBuiltin f (← evals m args)
  | .makeStruct s args => do m.record s (← evals m args)
  | .construct ty args => do m.make ty (← evals m args)
  | .attributeVar x => Run.load ⟨.attributeVar x, []⟩
  | .uniformVar block x => Run.load ⟨.uniformVar block x, []⟩
  | .varyingVar x => Run.load ⟨.varyingVar x, []⟩
  | .localVar x => Run.load ⟨.localVar x, []⟩

/-- The place that an emitted expression denotes. -/
def place (m : Machine) : Term → Run Slot
  | .index b i => Machine.elementPlace (b.place m) (i.eval m)
  | .member b name => Machine.partPlace (b.place m) name
  | .swizzle b letters => Machine.partPlace (b.place m) letters
  | .attributeVar x => pure ⟨.attributeVar x, []⟩
  | .uniformVar block x => pure ⟨.uniformVar block x, []⟩
  | .varyingVar x => pure ⟨.varyingVar x, []⟩
  | .localVar x => pure ⟨.localVar x, []⟩
  | _ => Run.stuck

/-- The values of several expressions, from left to right. -/
def evals (m : Machine) : List Term → Run (List Datum)
  | [] => pure []
  | t :: ts => do
    let d ← t.eval m
    return d :: (← evals m ts)

end

end Term

/-- What a name means where an expression stands. -/
inductive Meaning where
  | var (r : Root)
  | fn
  | struct
  | builtin
deriving DecidableEq

/-- The variable of a name that is bound to a variable of the given kind. -/
def VarKind.root (x : Ident) : VarKind → Root
  | attributeVar => .attributeVar x
  | uniformVar block => .uniformVar block x
  | varyingVar => .varyingVar x
  | localVar _ => .localVar x

/-- The meanings of names within the given scopes, innermost first: a name is the variable bound last, or
else an interface variable, a function, a struct or a builtin function of the shader. -/
def TopLevel.meaning? (top : TopLevel) (vars : Scope Var) (scopes : List (Scope Var)) (x : Ident) :
    Option Meaning :=
  match Scope.find? (scopes ++ [vars]) x with
  | some v => some (.var (v.kind.root x))
  | none =>
    if (top.fn? x).isSome then some .fn
    else if (top.struct? x).isSome then some .struct
    else if (top.builtins.overloads? x).isSome then some .builtin
    else none

namespace Expr

section

variable (m : Machine) (names : Ident → Option Meaning)

mutual

/-- The value of an expression as it is written. -/
def eval : Expr → Run Datum
  | .cond c t f _ => Run.cond c.eval t.eval f.eval
  | .bin op l r _ => m.operator op l.place l.eval r.eval
  | .un op e _ => do m.unary op (← e.eval)
  | .index b i _ => Machine.element b.eval i.eval
  | .member b name _ => Machine.part b.eval name
  | .call f args _ => match names f with
    | some .fn => do m.callFn f (← evals args)
    | some .builtin => do m.callBuiltin f (← evals args)
    | some .struct => do m.record f (← evals args)
    | _ => Run.stuck
  | .construct ty args _ => do m.make ty (← evals args)
  | .var x _ => match names x with
    | some (.var r) => Run.load ⟨r, []⟩
    | _ => Run.stuck
  | .lit v _ => pure (.scalar v)

/-- The place that an expression denotes. -/
def place : Expr → Run Slot
  | .index b i _ => Machine.elementPlace b.place i.eval
  | .member b name _ => Machine.partPlace b.place name
  | .var x _ => match names x with
    | some (.var r) => pure ⟨r, []⟩
    | _ => Run.stuck
  | _ => Run.stuck

/-- The values of several expressions, from left to right. -/
def evals : List Expr → Run (List Datum)
  | [] => pure []
  | e :: es => do
    let d ← e.eval
    return d :: (← evals es)

end

end

end Expr

end Shading
