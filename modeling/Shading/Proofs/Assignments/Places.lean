import Shading.Proofs.Cycles.Graph
import Shading.Proofs.Pruning

/-!
# The assignments of a function

What the text of a shader tells about an assignment: which names can be used where it stands, which types its operands
have, which indices are constant, and whether the left operand is a place that can be assigned. A place is a variable
that is declared by `let` or is a varying, or an element, a member or a selection of components of a place. No component
is selected twice, and a constant index selects an element that is there.

Nothing here looks at what checking does. In particular the assignments of a function are those of its whole text, in
whatever expression they stand and whether the code around them is kept or not.
-/

namespace Shading

/-! ## Names -/

/-- What binds a local variable. -/
inductive Binder where
  | param | loopVar | letVar
deriving DecidableEq

/-- A local variable: what binds it, and its type if it has one. -/
structure LocalVar where
  binder : Binder
  ty : Option Ty

/-- The names that can be used at a place of a function: its local variables, the innermost first, what the shader
declares, and the builtin functions. -/
structure Names where
  builtins : Builtins
  decls : List Decl
  locals : List (Ident × LocalVar) := []

namespace Names

def local? (N : Names) (x : Ident) : Option LocalVar := N.locals.lookup x

def decl? (N : Names) (x : Ident) : Option Decl := N.decls.find? fun d => d.name == x

/-- The names with one more local variable. -/
def bind (N : Names) (x : Ident) (binder : Binder) (ty : Option Ty) : Names :=
  { N with locals := (x, ⟨binder, ty⟩) :: N.locals }

def varTy? (N : Names) (x : Ident) : Option Ty :=
  match N.local? x with
  | some v => v.ty
  | none => ((N.decl? x).bind Decl.interfaceVar?).map fun v => v.1.ty.ty

/-- The variable can be assigned: it is declared by `let`, or it is a varying. -/
def Assigns (N : Names) (x : Ident) : Prop :=
  match N.local? x with
  | some v => v.binder = .letVar
  | none => ∃ v, N.decl? x = some (.varyingVar v)

/-- The type of a call: that of a function's result, a struct that is made, or the result of a builtin function. -/
def callTy? (N : Names) (f : Ident) (args : List Ty) : Option Ty :=
  match N.decl? f with
  | some (.fn d) => some (d.result.elim .void TyExpr.ty)
  | some (.struct _) => some (.struct f)
  | _ => (N.builtins.overloads? f).bind fun overloads => Overload.result? overloads args

/-- The type of a member of a struct or of a selection of components. -/
def memberTy? (N : Names) (t : Ty) (m : Ident) : Option Ty :=
  match t with
  | .struct s => match N.decl? s with
    | some (.struct d) => (d.members.map fun v => (v.name, v.ty.ty)).lookup m
    | _ => none
  | _ => (Swizzle.parse? t m).map fun sw => .basic sw.ty

theorem memberTy?_of_ne {N : Names} {t : Ty} {m : Ident} (h : ∀ s, t ≠ .struct s) :
    N.memberTy? t m = (Swizzle.parse? t m).map fun sw => .basic sw.ty := by
  cases t with
  | struct s => exact absurd rfl (h s)
  | void | basic | array => rfl

end Names

/-! ## Expressions -/

mutual

def Expr.ty? (N : Names) : Expr → Option Ty
  | .cond _ yes _ _ => yes.ty? N
  | .bin op l r _ => (l.ty? N).bind fun a => (r.ty? N).bind fun b => Ty.binary? op a b
  | .un op e _ => (e.ty? N).bind (Ty.unary? op)
  | .index b i _ => (b.ty? N).bind fun a => (i.ty? N).bind fun j => Ty.index? a j
  | .member b name _ => (b.ty? N).bind fun a => N.memberTy? a name
  | .call f args _ => (Expr.tys? N args).bind (N.callTy? f)
  | .construct ty _ _ => some (.basic ty)
  | .var x _ => N.varTy? x
  | .lit v _ => some (.ofScalar v.kind)

/-- The types of several expressions, if all have one. -/
def Expr.tys? (N : Names) : List Expr → Option (List Ty)
  | [] => some []
  | e :: es => (e.ty? N).bind fun t => (Expr.tys? N es).map (t :: ·)

end

/-- The value of an operator other than an assignment on operands of which some may be constant. A constant left operand
of `&&` and `||` may decide alone. -/
def Value.operator? (op : BinOp) (l r : Option Value) : Option Value :=
  match op, l with
  | .or, some x => if x.toBool then some x else r
  | .and, some x => if x.toBool then r else some x
  | _, some x => if op.isAssignment then none else r.bind (Value.binary? op x)
  | _, none => none

mutual

/-- The value of a constant expression. -/
def Expr.const? : Expr → Option Value
  | .cond c yes no _ => c.const?.bind fun v => if v.toBool then yes.const? else no.const?
  | .bin op l r _ => Value.operator? op l.const? r.const?
  | .un op e _ => e.const?.bind (Value.unary? op)
  | .construct (.scalar k) args _ => (Expr.onlyConst? args).map (Value.convert k)
  | .lit v _ => some v
  | .construct .. | .index .. | .member .. | .call .. | .var .. => none

/-- The value of a single constant expression. -/
def Expr.onlyConst? : List Expr → Option Value
  | [e] => e.const?
  | _ => none

end

namespace Expr

/-- The expression and what it selects from, as far as elements and members are selected. -/
def chain : Expr → List Span
  | index b _ span => span :: b.chain
  | member b _ span => span :: b.chain
  | e => [e.span]

theorem span_mem_chain (e : Expr) : e.span ∈ e.chain := by
  cases e <;> exact .head _

/-- The expression is a place that can be assigned. -/
def Assignable (N : Names) : Expr → Prop
  | var x _ => N.Assigns x
  | index b i _ => b.Assignable N ∧ ∀ t v, b.ty? N = some t → i.const? = some v →
      0 ≤ v.toInt32.toInt ∧ v.toInt32.toInt < t.indexBound
  | member b name _ => b.Assignable N ∧ ∀ t sw, b.ty? N = some t → Swizzle.parse? t name = some sw → sw.places.Nodup
  | _ => False

end Expr

/-- An array, or a struct of the shader with an array somewhere inside it. -/
inductive Ty.ContainsArray (decls : List Decl) : Ty → Prop
  | array (elem : Ty) (len : Int) : ContainsArray decls (.array elem len)
  | member {d : StructDecl} {m : TypedName} : .struct d ∈ decls → m ∈ d.members → ContainsArray decls m.ty.ty →
      ContainsArray decls (.struct d.name)

/-- An assignment in a function: the names where it stands, its operator and its left operand. -/
structure Assignment where
  names : Names
  op : BinOp
  left : Expr

namespace Assignment

/-- What is assigned is a place, and no array is assigned as a whole. -/
def Permitted (a : Assignment) : Prop :=
  a.left.Assignable a.names ∧
    (a.op = .assign → ∀ t, a.left.ty? a.names = some t → ¬ t.ContainsArray a.names.decls)

/-- The left operand has a type, and the assignment is permitted. -/
def Allowed (a : Assignment) : Prop := (∃ t, a.left.ty? a.names = some t) ∧ a.Permitted

end Assignment

mutual

/-- The assignments in an expression, from left to right. -/
def Expr.assignments (N : Names) : Expr → List Assignment
  | .cond c yes no _ => c.assignments N ++ (yes.assignments N ++ no.assignments N)
  | .bin op l r _ => (if op.isAssignment then [⟨N, op, l⟩] else []) ++ (l.assignments N ++ r.assignments N)
  | .un _ e _ => e.assignments N
  | .index b i _ => b.assignments N ++ i.assignments N
  | .member b _ _ => b.assignments N
  | .call _ args _ | .construct _ args _ => Expr.assignmentsAll N args
  | .var .. | .lit .. => []

def Expr.assignmentsAll (N : Names) : List Expr → List Assignment
  | [] => []
  | e :: es => e.assignments N ++ Expr.assignmentsAll N es

end

theorem Expr.assignmentsAll_eq (N : Names) (es : List Expr) :
    Expr.assignmentsAll N es = es.flatMap (Expr.assignments N) := by
  induction es with
  | nil => rfl
  | cons e es ih => rw [assignmentsAll, ih, List.flatMap_cons]

/-- The assignments in an expression that may be left out. -/
def Expr.assignments? (N : Names) (e : Option Expr) : List Assignment := e.elim [] (Expr.assignments N)

/-! ## Statements and functions -/

/-- The names behind a statement. A variable has the type that is written, or that of its value. -/
def Names.behind (N : Names) : Stmt → Names
  | .letStmt x ty init _ => N.bind x .letVar (ty.elim (init.bind (Expr.ty? N)) fun t => some t.ty)
  | _ => N

mutual

/-- The assignments in a statement. -/
def Stmt.assignments (N : Names) : Stmt → List Assignment
  | .breakStmt _ | .continueStmt _ => []
  | .forStmt x first bound step body _ =>
    first.assignments N ++ (bound.assignments N ++ (Expr.assignments? N step ++
      body.assignments (N.bind x .loopVar (some .int))))
  | .ifStmt test yes no _ =>
    let otherwise := match no with
      | none => []
      | some b => b.assignments N
    test.assignments N ++ (yes.assignments N ++ otherwise)
  | .letStmt _ _ init _ => Expr.assignments? N init
  | .returnStmt value _ => Expr.assignments? N value
  | .blockStmt b _ => b.assignments N
  | .exprStmt e _ => e.assignments N

def Stmt.assignmentsAll (N : Names) : List Stmt → List Assignment
  | [] => []
  | st :: ss => st.assignments N ++ Stmt.assignmentsAll (N.behind st) ss

def Block.assignments (N : Names) : Block → List Assignment
  | .mk ss _ => Stmt.assignmentsAll N ss

end

theorem Stmt.assignments_ifStmt (N : Names) (test : Expr) (yes : Block) (no : Option Block) (span : Span) :
    (Stmt.ifStmt test yes no span).assignments N =
      test.assignments N ++ (yes.assignments N ++ no.elim [] (Block.assignments N)) := by
  cases no <;> simp only [Stmt.assignments] <;> rfl

def Names.bindParams (N : Names) : List TypedName → Names
  | [] => N
  | p :: ps => (N.bind p.name .param (some p.ty.ty)).bindParams ps

def FnDecl.assignments (builtins : Builtins) (decls : List Decl) (d : FnDecl) : List Assignment :=
  d.body.assignments (Names.bindParams ⟨builtins, decls, []⟩ d.params)

end Shading
