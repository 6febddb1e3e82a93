import Shading.Check.Expr

/-!
# Checking statements

Statements that do nothing are left out: empty blocks, loops that never turn or have nothing to do, and
the branch that a constant test does not take. A block whose only statement is a block shares its
braces, unless a name declared inside is bound outside already. An `if` whose first branch is empty is
turned around, and an else-branch that is just another `if` is chained to the first.
-/

namespace Shading

/-- A statement that is kept, and the names it declares at its top level if it is a block. -/
structure Kept where
  deps : Deps
  code : Code
  locals : List Ident := []

/-- What is kept of a block. `shared` tells that its braces are those of the only block in it. -/
structure KeptBlock where
  deps : Deps
  body : List Code
  locals : List Ident
  shared : Bool
deriving Inhabited

namespace KeptBlock

def empty : KeptBlock := ⟨.none, [], [], false⟩

def isEmpty (b : KeptBlock) : Bool := b.body.isEmpty

def declared? : Code → Option Ident
  | .declare x _ _ => some x
  | _ => none

/-- The block of the statements kept, when `scope` holds the names bound in it. -/
def gather (scope : Scope Var) (kept : List Kept) : KeptBlock :=
  let deps := Deps.unionAll (kept.map Kept.deps)
  let own : KeptBlock :=
    ⟨deps, kept.map Kept.code, (kept.map Kept.code).filterMap declared?, false⟩
  match kept with
  | [⟨_, .block body, locals⟩] =>
    if locals.any scope.contains then own else ⟨deps, body, locals, true⟩
  | _ => own

/-- The block as a statement. -/
def kept? (b : KeptBlock) : Option Kept :=
  if b.isEmpty then none else some ⟨b.deps, .block b.body, b.locals⟩

/-- The block as the else-part of a branch. -/
def elsePart? (b : KeptBlock) : Option Code :=
  match b.body, b.shared with
  | [], _ => none
  | [.branch test yes no], false => some (.branch test yes no)
  | body, _ => some (.block body)

end KeptBlock

/-- The code of a branch on a test that is not constant. -/
def Code.ofBranch (test : Term) (yes no : KeptBlock) : Code :=
  if yes.isEmpty && !no.isEmpty then .branch (.un .not test) no.body none
  else .branch test yes.body no.elsePart?

def Code.ofExpr (source : Expr) (t : Term) : Code :=
  match source, t with
  | .bin op _ _ _, .bin op' l r => if op.isAssignment then .assign op' l r else .eval t
  | _, _ => .eval t

namespace Check

/-- What holds throughout the body of a function. -/
structure FnContext where
  globals : Globals
  result : Ty

def constInt (ctx : Context) (e : Expr) : Check Int32 := do
  let e' ← expr ctx false e
  if e'.ty ≠ .int then refuse (.mismatch .int e'.ty) e.span
  match e'.term.value? with
  | some v => return v.toInt32
  | none => refuse .notConstant e.span

/-- The step of a loop: as written, or one towards the bound. -/
def loopStep (ctx : Context) (x : Ident) (first bound : Int32) : Option Expr → Check Int32
  | none => return if bound < first then -1 else 1
  | some e => do
    let step ← constInt ctx e
    if step = 0 then refuse (.stepZero x) e.span
    if first < bound ∧ step < 0 then refuse (.stepNotPositive x step.toInt) e.span
    if bound < first ∧ 0 < step then refuse (.stepNotNegative x step.toInt) e.span
    return step

/-- The type of a declared variable: as written, or that of its value. -/
def letTy (ctx : Context) (x : Ident) (ty : Option TyExpr) (init : Option (Typed × Span)) (span : Span) :
    Check Ty := do
  match ty, init with
  | some t, none => tyExpr ctx t
  | some t, some (e, at_) => do
    let ty ← tyExpr ctx t
    if e.ty ≠ ty then refuse (.mismatch ty e.ty) at_
    return ty
  | none, some (e, _) => if e.ty = .void then refuse (.untypedVariable x) span else return e.ty
  | none, none => refuse (.untypedVariable x) span

mutual

/-- Checks a statement. `inner` holds the names bound in the block around it so far, `outer` those of the
blocks around that one; the result holds what is bound behind the statement. -/
def stmt (fc : FnContext) (inLoop : Bool) (outer : List (Scope Var)) (inner : Scope Var) :
    Stmt → Check (Scope Var × Option Kept)
  | .breakStmt span => do
    if !inLoop then refuse .strayBreak span
    return (inner, some ⟨.none, .exitLoop, []⟩)
  | .continueStmt span => do
    if !inLoop then refuse .strayContinue span
    return (inner, some ⟨.none, .nextTurn, []⟩)
  | .forStmt x first bound step body span => do
    let ctx : Context := ⟨inner :: outer, fc.globals⟩
    let a ← constInt ctx first
    let b ← constInt ctx bound
    let s ← loopStep ctx x a b step
    let kept ← block fc true (inner :: outer) ⟨[(x, ⟨.int, .localVar false⟩)]⟩ body
    if a = b ∨ kept.isEmpty then
      note (.prunedLoop x span)
      return (inner, none)
    else return (inner, some ⟨kept.deps, .loop x a b s kept.body, []⟩)
  | .ifStmt test yes no span => do
    let t ← expr ⟨inner :: outer, fc.globals⟩ false test
    if t.ty ≠ .bool then refuse (.mismatch .bool t.ty) test.span
    let yes' ← block fc inLoop (inner :: outer) .empty yes
    let no' ← match no with
      | none => pure KeptBlock.empty
      | some b => block fc inLoop (inner :: outer) .empty b
    match t.term.value? with
    | some v =>
      note (.prunedBranch v.toBool span)
      return (inner, (if v.toBool then yes' else no').kept?)
    | none =>
      let deps := (t.deps.union yes'.deps).union no'.deps
      return (inner, some ⟨deps, .ofBranch t.term yes' no', []⟩)
  | .letStmt x ty init span => do
    let ctx : Context := ⟨inner :: outer, fc.globals⟩
    let value ← match init with
      | none => pure none
      | some e => do
        let e' ← expr ctx false e
        pure (some (e', e.span))
    let t ← letTy ctx x ty value span
    match inner.insert? x ⟨t, .localVar true⟩ with
    | none => refuse (.redefined x) span
    | some inner' =>
      let deps := value.elim Deps.none fun v => v.1.deps
      return (inner', some ⟨deps, .declare x t (value.map fun v => v.1.term), []⟩)
  | .returnStmt value span => do
    match value with
    | none =>
      if fc.result ≠ .void then refuse (.missingResult fc.result) span
      return (inner, some ⟨.none, .ret none, []⟩)
    | some e =>
      let e' ← expr ⟨inner :: outer, fc.globals⟩ false e
      if e'.ty ≠ fc.result then refuse (.mismatch fc.result e'.ty) e.span
      return (inner, some ⟨e'.deps, .ret (some e'.term), []⟩)
  | .blockStmt b _ => do
    let kept ← block fc inLoop (inner :: outer) .empty b
    return (inner, kept.kept?)
  | .exprStmt e _ => do
    let e' ← expr ⟨inner :: outer, fc.globals⟩ false e
    return (inner, some ⟨e'.deps, .ofExpr e e'.term, []⟩)

def stmts (fc : FnContext) (inLoop : Bool) (outer : List (Scope Var)) (inner : Scope Var) :
    List Stmt → Check (Scope Var × List Kept)
  | [] => return (inner, [])
  | s :: rest => do
    let (inner', kept) ← stmt fc inLoop outer inner s
    let (last, more) ← stmts fc inLoop outer inner' rest
    return (last, kept.toList ++ more)

/-- Checks a block in which the names of `inner` are bound from the start. -/
def block (fc : FnContext) (inLoop : Bool) (outer : List (Scope Var)) (inner : Scope Var) :
    Block → Check KeptBlock
  | .mk ss _ => do
    let (last, kept) ← stmts fc inLoop outer inner ss
    return KeptBlock.gather last kept

end

/-- What a block inside another one binds is not bound behind it. -/
theorem stmt_block (fc : FnContext) (inLoop : Bool) (outer : List (Scope Var)) (inner : Scope Var) (b : Block)
    (span : Span) :
    stmt fc inLoop outer inner (.blockStmt b span) =
      block fc inLoop (inner :: outer) .empty b >>= fun kept => pure (inner, kept.kept?) := by
  rw [stmt]

end Check

end Shading
