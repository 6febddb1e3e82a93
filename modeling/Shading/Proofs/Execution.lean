import Shading.Proofs.Evaluation

/-!
# Execution

What statements do when a shader runs: they change variables, call functions, and let control fall through
or leave a loop or a function. The same steps give a meaning to statements as they are written
(`Stmt.exec`), where a name means what is declared around it, and to emitted ones (`Code.exec`), where names
are resolved and nothing may be declared twice between two braces.

A declaration lasts for the rest of its block, so a statement is executed together with what stands behind
it in the block. The value that a name had before comes back when control leaves the block, wherever it goes.
-/

namespace Shading

/-- Where control goes behind a statement. -/
inductive Flow where
  | next
  | exitLoop
  | nextTurn
  | ret (value : Option Datum)

/-- What the language leaves to the machine where statements are executed. -/
structure Executor extends Machine where
  /-- The value of a variable that is declared without one. -/
  blank : Ty → World → Datum

/-- The value that a variable of a type is declared with. -/
def Executor.initial (m : Executor) (ty : Ty) : Option (Run Datum) → Run Datum
  | none => do return m.blank ty (← get)
  | some value => value

/-- The values that the variable of a loop takes: from the first one on, in steps, until the bound is reached
or passed. -/
def loopValues (first bound step : Int32) : List Int32 :=
  let distance := if 0 ≤ step then bound.toInt - first.toInt else first.toInt - bound.toInt
  let stride := step.toInt.natAbs
  (List.range ((distance.toNat + stride - 1) / stride)).map fun k : Nat => .ofInt (first.toInt + k * step.toInt)

/-- A loop whose first value is its bound has no turn. -/
theorem loopValues_self (a step : Int32) : loopValues a a step = [] := by
  simp only [loopValues, Int.sub_self, ite_self, Int.toNat_zero, List.map_eq_nil_iff, List.range_eq_nil,
    Nat.div_eq_zero_iff]
  omega

/-- The type that is written. -/
def TyExpr.ty : TyExpr → Ty
  | keyword b _ => .basic b
  | array elem len _ => .array elem.ty len
  | named x _ => .struct x

namespace Run

/-- Goes on where control falls through. -/
def andThen (first rest : Run Flow) : Run Flow := do
  match ← first with
  | .next => rest
  | flow => return flow

def setLocal (x : Ident) (d : Datum) : Run Unit :=
  modify fun w => { w with vars := fun r => if r = .localVar x then d else w.vars r }

/-- Runs `body` with a local variable. Behind it the name has the value again that it had before. -/
def withLocal (x : Ident) (d : Datum) (body : Run Flow) : Run Flow := do
  let outer := (← get).vars (.localVar x)
  setLocal x d
  let flow ← body
  setLocal x outer
  return flow

/-- Runs the body of a loop once for each value of its variable, until control leaves the loop. -/
def loop (x : Ident) (body : Run Flow) : List Int32 → Run Flow
  | [] => return .next
  | v :: vs => do
    match ← withLocal x (.scalar (.int v)) body with
    | .next | .nextTurn => loop x body vs
    | .exitLoop => return .next
    | .ret value => return .ret value

/-- Runs the branch that the test tells. -/
def branch (test : Run Datum) (yes no : Run Flow) : Run Flow := do
  if ← ofOption (← test).truth? then yes else no

/-- The integer that an expression gives. -/
def int (e : Run Datum) : Run Int32 := do ofOption (← e).int?

@[simp] theorem next_andThen (rest : Run Flow) : andThen (pure .next) rest = rest := by
  simp [andThen]

@[simp] theorem andThen_next (first : Run Flow) : andThen first (pure .next) = first := by
  refine Eq.trans (bind_congr fun flow => ?_) (bind_pure first)
  cases flow <;> rfl

/-- A local variable that nothing uses leaves no trace. -/
theorem withLocal_pure (x : Ident) (d : Datum) (flow : Flow) : withLocal x d (pure flow) = pure flow := by
  funext w
  have hback : (fun r => if r = .localVar x then w.vars (.localVar x) else
      if r = .localVar x then d else w.vars r) = w.vars := by
    funext r
    by_cases hr : r = .localVar x <;> simp [hr]
  show some (flow, { w with vars := _ }) = some (flow, w)
  rw [hback]

/-- A loop with nothing to do does nothing. -/
theorem loop_next (x : Ident) (vs : List Int32) : loop x (pure .next) vs = pure .next := by
  induction vs with
  | nil => rfl
  | cons v vs ih => simp [loop, withLocal_pure, ih]

theorem branch_pure (b : Bool) (yes no : Run Flow) :
    branch (pure (.scalar (.bool b))) yes no = if b then yes else no := by
  simp [branch, Datum.truth?, ofOption]

/-- A branch on a negated test is turned around. -/
theorem branch_not (m : Machine) (test : Run Datum) (yes no : Run Flow) :
    branch (test >>= m.unary .not) yes no = branch test no yes := by
  unfold branch
  rw [bind_assoc]
  refine bind_congr fun d => ?_
  cases d with
  | scalar v =>
    cases v with
    | bool b => cases b <;> rfl
    | int i | float f => rfl
  | vector | matrix | array | record => rfl

end Run

/-- The meanings of names where some of them are local variables. -/
def withLocals (names : Ident → Option Meaning) (locals : List Ident) (x : Ident) : Option Meaning :=
  if x ∈ locals then some (.var (.localVar x)) else names x

section Source

variable (m : Executor) (names : Ident → Option Meaning)

/-- The step of a loop as it is written, or one towards the bound. -/
def Expr.stepOf (locals : List Ident) (first bound : Int32) : Option Expr → Run Int32
  | none => return if bound < first then -1 else 1
  | some e => Run.int (e.eval m.toMachine (withLocals names locals))

mutual

/-- Executes a statement and what stands behind it in its block, where the names of local variables are
given. -/
def Stmt.exec (locals : List Ident) (rest : List Ident → Run Flow) : Stmt → Run Flow
  | .breakStmt _ => return .exitLoop
  | .continueStmt _ => return .nextTurn
  | .forStmt x first bound step body _ => do
    let a ← Run.int (first.eval m.toMachine (withLocals names locals))
    let b ← Run.int (bound.eval m.toMachine (withLocals names locals))
    let s ← Expr.stepOf m names locals a b step
    Run.andThen (Run.loop x (body.exec (x :: locals)) (loopValues a b s)) (rest locals)
  | .ifStmt test yes no _ =>
    let otherwise := match no with
      | none => return .next
      | some b => b.exec locals
    let taken := Run.branch (test.eval m.toMachine (withLocals names locals)) (yes.exec locals) otherwise
    Run.andThen taken (rest locals)
  | .letStmt x ty init _ => do
    let value := init.map fun e => e.eval m.toMachine (withLocals names locals)
    let d ← m.initial (ty.elim .void TyExpr.ty) value
    Run.withLocal x d (rest (x :: locals))
  | .returnStmt none _ => return .ret none
  | .returnStmt (some e) _ => do return .ret (some (← e.eval m.toMachine (withLocals names locals)))
  | .blockStmt b _ => Run.andThen (b.exec locals) (rest locals)
  | .exprStmt e _ => do
    let _ ← e.eval m.toMachine (withLocals names locals)
    rest locals

def Stmt.execAll (locals : List Ident) : List Stmt → Run Flow
  | [] => return .next
  | st :: ss => st.exec locals fun locals => Stmt.execAll locals ss

def Block.exec (locals : List Ident) : Block → Run Flow
  | .mk ss _ => Stmt.execAll locals ss

end

/-- Executes the body of a function whose parameters have values. -/
def FnDecl.exec (d : FnDecl) : Run Flow := d.body.exec m names (d.params.map TypedName.name)

end Source

section Emitted

variable (m : Executor)

mutual

/-- Executes a statement and what stands behind it between the same braces, where some names are declared
already. -/
def Code.exec (declared : List Ident) (rest : List Ident → Run Flow) : Code → Run Flow
  | .exitLoop => return .exitLoop
  | .nextTurn => return .nextTurn
  | .assign op l r => do
    let _ ← m.operator op (l.place m.toMachine) (l.eval m.toMachine) (r.eval m.toMachine)
    rest declared
  | .eval t => do
    let _ ← t.eval m.toMachine
    rest declared
  | .declare x ty init =>
    if x ∈ declared then Run.stuck
    else do
      let d ← m.initial ty (init.map fun t => t.eval m.toMachine)
      Run.withLocal x d (rest (x :: declared))
  | .ret none => return .ret none
  | .ret (some t) => do return .ret (some (← t.eval m.toMachine))
  | .block body => Run.andThen (Code.execAll [] body) (rest declared)
  | .loop x first bound step body =>
    Run.andThen (Run.loop x (Code.execAll [x] body) (loopValues first bound step)) (rest declared)
  | .branch test yes no =>
    Run.andThen (Run.branch (test.eval m.toMachine) (Code.execAll [] yes) (Code.execElse no)) (rest declared)

def Code.execAll (declared : List Ident) : List Code → Run Flow
  | [] => return .next
  | c :: cs => c.exec declared fun declared => Code.execAll declared cs

def Code.execElse : Option Code → Run Flow
  | none => return .next
  | some c => c.exec [] fun _ => return .next

end

/-- Executes the body of an emitted function whose parameters have values. -/
def FnDef.exec (f : FnDef) : Run Flow := Code.execAll m (f.params.map Prod.fst) f.body

end Emitted

end Shading
