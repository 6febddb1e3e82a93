import Shading.Proofs.Methods

/-!
# A watchful check

The check of a shader takes for granted that a struct has been opened when something of its type comes up, and that
there is a scope to bind a name in. The watchful check takes neither for granted. Whenever it has the type of an
expression or binds a variable, and whenever it is done with a function or a struct, it looks for a struct in the types
that has not been opened. Scopes stand on a stack, the innermost first, on which a block pushes its own and from which
it pops it at its end; names are bound in the innermost one, and compared with its names, where there is one. In any
other case an alarm is raised, for which `alarm` has a fault.
-/

namespace Shading

namespace Check

/-- What must not come up in the check of a shader. -/
inductive Alarm where
  | unopened (struct : Ident)
  | noScope

section Watching

variable (alarm : Alarm → Fault)

/-- Raises an alarm unless the structs in the types have been opened. -/
def demand (tys : List Ty) : Check Unit := do
  let s ← get
  match (tys.flatMap Ty.structNames).find? fun x => (s.struct? x).isNone with
  | some x => throw (alarm (.unopened x))
  | none => return ()

/-- The innermost scope and the ones around it. -/
def innermost : List (Scope Var) → Check (Scope Var × List (Scope Var))
  | [] => throw (alarm .noScope)
  | scope :: outer => return (scope, outer)

/-- Binds a name in the innermost scope. -/
def bindInnermost (scopes : List (Scope Var)) (x : Ident) (v : Var) (span : Span) : Check (List (Scope Var)) := do
  demand alarm [v.ty]
  let (scope, outer) ← innermost alarm scopes
  let scope' ← bindName scope x v span
  return scope' :: outer

/-- An expression whose type is watched. -/
def watched (m : Check Typed) : Check Typed := do
  let t ← m
  demand alarm [t.ty]
  return t

mutual

/-- Checks an expression, as a place or as a value. -/
def watchExpr (ctx : Context) (place : Bool) : Expr → Check Typed
  | .cond c t f span => watched alarm do
    notPlace place span
    let c' ← watchExpr ctx false c
    if c'.ty ≠ .bool then refuse (.mismatch .bool c'.ty) c.span
    let t' ← watchExpr ctx false t
    let f' ← watchExpr ctx false f
    if t'.ty ≠ f'.ty then refuse (.mismatch t'.ty f'.ty) f.span
    return conditional c' t' f'
  | .bin op l r span => watched alarm do
    notPlace place span
    let l' ← watchExpr ctx op.isAssignment l
    let r' ← watchExpr ctx false r
    match Ty.binary? op l'.ty r'.ty with
    | none => refuse (.badBinary op.symbol l'.ty r'.ty) span
    | some ty =>
      if op.isAssignment then
        if op = .assign then
          if ← hasArrays l'.ty then refuse .notAssignable l.span
        return ⟨ty, l'.deps.union r'.deps, .bin op l'.term r'.term⟩
      else return operation op ty l' r'
  | .un op e span => watched alarm do
    notPlace place span
    let e' ← watchExpr ctx false e
    match Ty.unary? op e'.ty with
    | none => refuse (.badUnary op.symbol e'.ty) span
    | some ty => return unaryOperation op ty e'
  | .index b i span => watched alarm do
    let b' ← watchExpr ctx place b
    let i' ← watchExpr ctx false i
    element b' i' i.span span
  | .member b name span => watched alarm do
    let b' ← watchExpr ctx place b
    member place b' name span
  | .call f args span => watched alarm do
    notPlace place span
    match ← ctx.find f span with
    | none => refuse (.undefined f) span
    | some (.fn d) => do
      sameCount f (d.params.map Prod.snd) args span
      let as ← watchArgsFor ctx f 0 (d.params.map Prod.snd) args
      return ⟨d.result, ((Deps.ofFn f).union d.deps).union (argDeps as), .call f d.deps (argTerms as)⟩
    | some (.builtin overloads) => do
      let as ← watchExprs ctx args
      match Overload.result? overloads (as.map Typed.ty) with
      | none => refuse (.noOverload f (as.map Typed.ty)) span
      | some ty => return ⟨ty, argDeps as, .builtin f (argTerms as)⟩
    | some (.struct d) => do
      sameCount f (d.members.map Prod.snd) args span
      let as ← watchArgsFor ctx f 0 (d.members.map Prod.snd) args
      return ⟨.struct f, argDeps as, .makeStruct f (argTerms as)⟩
    | some (.var _) => refuse (.notFunction f) span
  | .construct ty args span => watched alarm do
    notPlace place span
    let as ← watchExprs ctx args
    match construction ty as with
    | .ok t => return t
    | .error cause => refuse cause span
  | .var x span => watched alarm do
    match ← ctx.find x span with
    | none => refuse (.undefined x) span
    | some (.var v) =>
      match useVar place x v with
      | .ok t => return t
      | .error cause => refuse cause span
    | some _ => refuse (.notVariable x) span
  | .lit v span => watched alarm do
    notPlace place span
    return ⟨.ofScalar v.kind, .none, .const v⟩

def watchExprs (ctx : Context) : List Expr → Check (List Typed)
  | [] => return []
  | e :: es => do
    let e' ← watchExpr ctx false e
    return e' :: (← watchExprs ctx es)

/-- Checks the arguments of a call against the types of its parameters, from the given number on. -/
def watchArgsFor (ctx : Context) (f : Ident) (index : Nat) (params : List Ty) : List Expr → Check (List Typed)
  | [] => return []
  | e :: es => do
    let e' ← watchExpr ctx false e
    match params with
    | [] => return [e']
    | ty :: tys =>
      if e'.ty ≠ ty then refuse (.badArgument f index ty e'.ty) e.span
      return e' :: (← watchArgsFor ctx f (index + 1) tys es)

end

def watchConstInt (ctx : Context) (e : Expr) : Check Int32 := do
  let e' ← watchExpr alarm ctx false e
  if e'.ty ≠ .int then refuse (.mismatch .int e'.ty) e.span
  match e'.term.value? with
  | some v => return v.toInt32
  | none => refuse .notConstant e.span

/-- The step of a loop: as written, or one towards the bound. -/
def watchLoopStep (ctx : Context) (x : Ident) (first bound : Int32) : Option Expr → Check Int32
  | none => return if bound < first then -1 else 1
  | some e => do
    let step ← watchConstInt alarm ctx e
    if step = 0 then refuse (.stepZero x) e.span
    if first < bound ∧ step < 0 then refuse (.stepNotPositive x step.toInt) e.span
    if bound < first ∧ 0 < step then refuse (.stepNotNegative x step.toInt) e.span
    return step

/-- The value that a variable has from the start, where there is one. -/
def watchInit (ctx : Context) : Option Expr → Check (Option (Typed × Span))
  | none => pure none
  | some e => do
    let e' ← watchExpr alarm ctx false e
    pure (some (e', e.span))

mutual

/-- Checks a statement; the result has the scopes behind it. -/
def watchStmt (fc : FnContext) (inLoop : Bool) (scopes : List (Scope Var)) :
    Stmt → Check (List (Scope Var) × Option Kept)
  | .breakStmt span => do
    if !inLoop then refuse .strayBreak span
    return (scopes, some ⟨.none, .exitLoop, []⟩)
  | .continueStmt span => do
    if !inLoop then refuse .strayContinue span
    return (scopes, some ⟨.none, .nextTurn, []⟩)
  | .forStmt x first bound step body span => do
    let ctx : Context := ⟨scopes, fc.globals⟩
    let a ← watchConstInt alarm ctx first
    let b ← watchConstInt alarm ctx bound
    let s ← watchLoopStep alarm ctx x a b step
    let inside ← bindInnermost alarm (.empty :: scopes) x ⟨.int, .localVar false⟩ span
    let (scopes', kept) ← watchBlock fc true inside body
    if a = b ∨ kept.isEmpty then
      note (.prunedLoop x span)
      return (scopes', none)
    else return (scopes', some ⟨kept.deps, .loop x a b s kept.body, []⟩)
  | .ifStmt test yes no span => do
    let t ← watchExpr alarm ⟨scopes, fc.globals⟩ false test
    if t.ty ≠ .bool then refuse (.mismatch .bool t.ty) test.span
    let (scopes₁, yes') ← watchBlock fc inLoop (.empty :: scopes) yes
    let (scopes₂, no') ← match no with
      | none => pure (scopes₁, KeptBlock.empty)
      | some b => watchBlock fc inLoop (.empty :: scopes₁) b
    match t.term.value? with
    | some v =>
      note (.prunedBranch v.toBool span)
      return (scopes₂, (if v.toBool then yes' else no').kept?)
    | none =>
      let deps := (t.deps.union yes'.deps).union no'.deps
      return (scopes₂, some ⟨deps, .ofBranch t.term yes' no', []⟩)
  | .letStmt x ty init span => do
    let ctx : Context := ⟨scopes, fc.globals⟩
    let value ← watchInit alarm ctx init
    let t ← letTy ctx x ty value span
    let scopes' ← bindInnermost alarm scopes x ⟨t, .localVar true⟩ span
    let deps := value.elim Deps.none fun v => v.1.deps
    return (scopes', some ⟨deps, .declare x t (value.map fun v => v.1.term), []⟩)
  | .returnStmt value span => do
    match value with
    | none =>
      if fc.result ≠ .void then refuse (.missingResult fc.result) span
      return (scopes, some ⟨.none, .ret none, []⟩)
    | some e =>
      let e' ← watchExpr alarm ⟨scopes, fc.globals⟩ false e
      if e'.ty ≠ fc.result then refuse (.mismatch fc.result e'.ty) e.span
      return (scopes, some ⟨e'.deps, .ret (some e'.term), []⟩)
  | .blockStmt b _ => do
    let (scopes', kept) ← watchBlock fc inLoop (.empty :: scopes) b
    return (scopes', kept.kept?)
  | .exprStmt e _ => do
    let e' ← watchExpr alarm ⟨scopes, fc.globals⟩ false e
    return (scopes, some ⟨e'.deps, .ofExpr e e'.term, []⟩)

/-- Checks the statements of a block one after another. -/
def watchStmts (fc : FnContext) (inLoop : Bool) (scopes : List (Scope Var)) :
    List Stmt → Check (List (Scope Var) × List Kept)
  | [] => return (scopes, [])
  | s :: rest => do
    let (scopes', kept) ← watchStmt fc inLoop scopes s
    let (last, more) ← watchStmts fc inLoop scopes' rest
    return (last, kept.toList ++ more)

/-- Checks a block, whose scope is the innermost one; the result has the scopes around it. -/
def watchBlock (fc : FnContext) (inLoop : Bool) (scopes : List (Scope Var)) :
    Block → Check (List (Scope Var) × KeptBlock)
  | .mk ss _ => do
    let (inside, kept) ← watchStmts fc inLoop scopes ss
    let (scope, outer) ← innermost alarm inside
    return (outer, KeptBlock.gather scope kept)

end

/-- The block behind `else`, where there is one. -/
def watchElse (fc : FnContext) (inLoop : Bool) (scopes : List (Scope Var)) (no : Option Block) :
    Check (List (Scope Var) × KeptBlock) :=
  match no with
  | none => pure (scopes, KeptBlock.empty)
  | some b => watchBlock alarm fc inLoop (.empty :: scopes) b

theorem watchStmt_if (fc : FnContext) (inLoop : Bool) (scopes : List (Scope Var)) (test : Expr) (yes : Block)
    (no : Option Block) (span : Span) :
    watchStmt alarm fc inLoop scopes (.ifStmt test yes no span) = do
      let t ← watchExpr alarm ⟨scopes, fc.globals⟩ false test
      if t.ty ≠ .bool then refuse (.mismatch .bool t.ty) test.span
      let (scopes₁, yes') ← watchBlock alarm fc inLoop (.empty :: scopes) yes
      let (scopes₂, no') ← watchElse alarm fc inLoop scopes₁ no
      match t.term.value? with
      | some v =>
        note (.prunedBranch v.toBool span)
        return (scopes₂, (if v.toBool then yes' else no').kept?)
      | none =>
        let deps := (t.deps.union yes'.deps).union no'.deps
        return (scopes₂, some ⟨deps, .ofBranch t.term yes' no', []⟩) := by
  cases no <;> simp only [watchStmt] <;> rfl

/-- Checks parameters; the result has the scopes in which they are bound. -/
def watchParams (g : Globals) (scopes : List (Scope Var)) :
    List TypedName → Check (List (Scope Var) × List (Ident × Ty))
  | [] => return (scopes, [])
  | p :: ps => do
    let ty ← tyExpr ⟨scopes, g⟩ p.ty
    let scopes' ← bindInnermost alarm scopes p.name ⟨ty, .localVar false⟩ p.span
    let (last, more) ← watchParams g scopes' ps
    return (last, (p.name, ty) :: more)

def watchFn (g : Globals) (d : FnDecl) : Check FnDef := do
  let result ← resultTy g d.result
  let (scopes, ps) ← watchParams alarm g [.empty] d.params
  let (_, body) ← watchBlock alarm ⟨g, result⟩ false scopes d.body
  if body.deps.readsVaryings && body.deps.writesVaryings then
    refuse (.readsAndWritesVaryings d.name) d.span
  demand alarm (result :: ps.map Prod.snd)
  return ⟨d.name, ps, result, body.deps, body.body⟩

def watchStruct (g : Globals) (d : StructDecl) : Check StructDef := do
  let f ← struct g d
  demand alarm (f.members.map Prod.snd)
  return f

/-- Functions and structs are watched when they are opened. -/
def Checker.watchful : Checker := ⟨watchFn alarm, watchStruct alarm⟩

/-- Everything that comes up in the check of a shader is watched. -/
def Method.watchful (top : TopLevel) : Method :=
  { Method.ofChecker (.watchful alarm) top with
    bind := fun vars d v => do
      demand alarm [v.ty]
      bindVar vars d v }

def watchProgram (builtins : Builtins) (shared : Bool) (decls : List Decl) : Check Program :=
  programBy (.watchful alarm (.ofDecls builtins decls)) shared decls

end Watching

end Check

end Shading
