import Shading.Check.Context
import Shading.Tree
import Shading.Ty.Operation
import Shading.Ty.Swizzle

/-!
# Checking expressions

An expression is checked for its type, with the names it uses resolved and the constants in it
computed. It is read, or it is the *place* that an assignment stores into. Places are variables that can
be assigned, and elements, members and components without repetition of such places. A constant left
operand of `&&` and `||` and a constant test of `?:` decide which other part is kept.
-/

namespace Shading

namespace Check

/-- Only variables and selections are places. -/
def notPlace (place : Bool) (span : Span) : Check Unit :=
  if place then refuse .notAssignable span else pure ()

/-- The value of an operator other than an assignment, computed where its operands are constant. -/
def operation (op : BinOp) (ty : Ty) (l r : Typed) : Typed :=
  let applied (_ : Unit) : Typed :=
    let deps := l.deps.union r.deps
    match l.term.value?, r.term.value? with
    | some x, some y => match Value.binary? op x y with
      | some v => ⟨ty, deps, .const v⟩
      | none => ⟨ty, deps, .bin op l.term r.term⟩
    | _, _ => ⟨ty, deps, .bin op l.term r.term⟩
  match op, l.term.value? with
  | .or, some x =>
    if x.toBool then ⟨ty, l.deps, .const x⟩ else ⟨ty, l.deps.union r.deps, r.term⟩
  | .and, some x =>
    if x.toBool then ⟨ty, l.deps.union r.deps, r.term⟩ else ⟨ty, l.deps, .const x⟩
  | _, _ => applied ()

/-- The value of a unary operator, computed where its operand is constant. -/
def unaryOperation (op : UnOp) (ty : Ty) (e : Typed) : Typed :=
  match e.term.value?.bind (Value.unary? op) with
  | some v => ⟨ty, e.deps, .const v⟩
  | none => ⟨ty, e.deps, .un op e.term⟩

/-- The value of a conditional; a constant test keeps one branch. -/
def conditional (c t f : Typed) : Typed :=
  match c.term.value? with
  | some v =>
    let taken := if v.toBool then t else f
    ⟨taken.ty, c.deps.union taken.deps, taken.term⟩
  | none => ⟨t.ty, (c.deps.union t.deps).union f.deps, .cond c.term t.term f.term⟩

def argDeps (args : List Typed) : Deps := Deps.unionAll (args.map Typed.deps)

def argTerms (args : List Typed) : List Term := args.map Typed.term

/-- A constructor applied to arguments. One argument may be converted, spread over all components, or
be a vector with components to spare; otherwise the arguments have exactly as many scalars as the
type. -/
def construction (ty : BasicTy) (args : List Typed) : Except Cause Typed :=
  let made : Typed := ⟨.basic ty, argDeps args, .construct ty (argTerms args)⟩
  let counted : Except Cause Typed :=
    let want := ty.slots
    let got := args.foldr (fun a n => a.ty.slots + n) 0
    if got < want then .error (.tooFewComponents (.basic ty) want got)
    else if want < got then .error (.tooManyComponents (.basic ty) want got)
    else .ok made
  if !args.all fun a => a.ty.isScalarOrVector then
    .error (.badConstructor (.basic ty) (args.map Typed.ty))
  else match args with
    | [a] => match ty with
      | .scalar k => match a.term.value? with
        | some v => .ok { made with term := .const (v.convert k) }
        | none => .ok made
      | _ =>
        if a.ty.isScalar then .ok made
        else if ty.isVector && decide (ty.len ≤ a.ty.len) then .ok made
        else counted
    | _ => counted

/-- A variable that is read or assigned. -/
def useVar (place : Bool) (x : Ident) (v : Var) : Except Cause Typed :=
  match v.kind with
  | .attributeVar =>
    if place then .error (.assignsAttribute x)
    else .ok ⟨v.ty, { readsAttributes := true }, .attributeVar x⟩
  | .uniformVar block =>
    if place then .error (.assignsUniform x) else .ok ⟨v.ty, .ofBlock block, .uniformVar block x⟩
  | .localVar mutable =>
    if place && !mutable then .error (.assignsImmutable x) else .ok ⟨v.ty, .none, .localVar x⟩
  | .varyingVar =>
    .ok ⟨v.ty, { readsVaryings := !place, writesVaryings := place }, .varyingVar x⟩

/-- A member of a struct or a selection of components. -/
def member (place : Bool) (base : Typed) (name : Ident) (span : Span) : Check Typed := do
  match base.ty with
  | .struct s =>
    match (← openedStruct s).member? name with
    | some ty => return ⟨ty, base.deps, .member base.term name⟩
    | none => refuse (.noMember base.ty name) span
  | _ =>
    match Swizzle.parse? base.ty name with
    | none => refuse (.noMember base.ty name) span
    | some sw =>
      if place && sw.hasDuplicates then refuse .notAssignable span
      else return ⟨.basic sw.ty, base.deps, .swizzle base.term name⟩

/-- An element; a constant index must be in bounds. -/
def element (base index : Typed) (indexSpan span : Span) : Check Typed := do
  match Ty.index? base.ty index.ty with
  | none => refuse (.badIndex base.ty index.ty) span
  | some ty =>
    let outside := match index.term.value? with
      | some v => decide (v.toInt32.toInt < 0) || decide (base.ty.indexBound ≤ v.toInt32.toInt)
      | none => false
    if outside then refuse (.badIndex base.ty index.ty) indexSpan
    else return ⟨ty, base.deps.union index.deps, .index base.term index.term⟩

/-- A call takes as many arguments as there are parameters. -/
def sameCount (f : Ident) (params : List Ty) (args : List Expr) (span : Span) : Check Unit :=
  if args.length < params.length then refuse (.tooFewArgs f params.length args.length) span
  else if params.length < args.length then refuse (.tooManyArgs f params.length args.length) span
  else pure ()

mutual

/-- Checks an expression, as a place or as a value. -/
def expr (ctx : Context) (place : Bool) : Expr → Check Typed
  | .cond c t f span => do
    notPlace place span
    let c' ← expr ctx false c
    if c'.ty ≠ .bool then refuse (.mismatch .bool c'.ty) c.span
    let t' ← expr ctx false t
    let f' ← expr ctx false f
    if t'.ty ≠ f'.ty then refuse (.mismatch t'.ty f'.ty) f.span
    return conditional c' t' f'
  | .bin op l r span => do
    notPlace place span
    let l' ← expr ctx op.isAssignment l
    let r' ← expr ctx false r
    match Ty.binary? op l'.ty r'.ty with
    | none => refuse (.badBinary op.symbol l'.ty r'.ty) span
    | some ty =>
      if op.isAssignment then
        if op = .assign then
          if ← hasArrays l'.ty then refuse .notAssignable l.span
        return ⟨ty, l'.deps.union r'.deps, .bin op l'.term r'.term⟩
      else return operation op ty l' r'
  | .un op e span => do
    notPlace place span
    let e' ← expr ctx false e
    match Ty.unary? op e'.ty with
    | none => refuse (.badUnary op.symbol e'.ty) span
    | some ty => return unaryOperation op ty e'
  | .index b i span => do
    let b' ← expr ctx place b
    let i' ← expr ctx false i
    element b' i' i.span span
  | .member b name span => do
    let b' ← expr ctx place b
    member place b' name span
  | .call f args span => do
    notPlace place span
    match ← ctx.find f span with
    | none => refuse (.undefined f) span
    | some (.fn d) => do
      sameCount f (d.params.map Prod.snd) args span
      let as ← argsFor ctx f 0 (d.params.map Prod.snd) args
      return ⟨d.result, ((Deps.ofFn f).union d.deps).union (argDeps as), .call f d.deps (argTerms as)⟩
    | some (.builtin overloads) => do
      let as ← exprs ctx args
      match Overload.result? overloads (as.map Typed.ty) with
      | none => refuse (.noOverload f (as.map Typed.ty)) span
      | some ty => return ⟨ty, argDeps as, .builtin f (argTerms as)⟩
    | some (.struct d) => do
      sameCount f (d.members.map Prod.snd) args span
      let as ← argsFor ctx f 0 (d.members.map Prod.snd) args
      return ⟨.struct f, argDeps as, .makeStruct f (argTerms as)⟩
    | some (.var _) => refuse (.notFunction f) span
  | .construct ty args span => do
    notPlace place span
    let as ← exprs ctx args
    match construction ty as with
    | .ok t => return t
    | .error cause => refuse cause span
  | .var x span => do
    match ← ctx.find x span with
    | none => refuse (.undefined x) span
    | some (.var v) =>
      match useVar place x v with
      | .ok t => return t
      | .error cause => refuse cause span
    | some _ => refuse (.notVariable x) span
  | .lit v span => do
    notPlace place span
    return ⟨.ofScalar v.kind, .none, .const v⟩

def exprs (ctx : Context) : List Expr → Check (List Typed)
  | [] => return []
  | e :: es => do
    let e' ← expr ctx false e
    return e' :: (← exprs ctx es)

/-- Checks the arguments of a call against the types of its parameters, from the given number on. -/
def argsFor (ctx : Context) (f : Ident) (index : Nat) (params : List Ty) : List Expr → Check (List Typed)
  | [] => return []
  | e :: es => do
    let e' ← expr ctx false e
    match params with
    | [] => return [e']
    | ty :: tys =>
      if e'.ty ≠ ty then refuse (.badArgument f index ty e'.ty) e.span
      return e' :: (← argsFor ctx f (index + 1) tys es)

end

/-- A literal has a value and no place. -/
theorem expr_lit (ctx : Context) (place : Bool) (v : Value) (span : Span) :
    expr ctx place (.lit v span) =
      notPlace place span >>= fun _ => pure ⟨.ofScalar v.kind, .none, .const v⟩ := by
  rw [expr]

def tyExpr (ctx : Context) : TyExpr → Check Ty
  | .keyword b _ => return .basic b
  | .array elem len span => do
    if len ≤ 0 then refuse (.badArrayLength len) span
    return .array (← tyExpr ctx elem) len
  | .named x span => do
    match ← ctx.find x span with
    | none => refuse (.undefined x) span
    | some (.struct _) => return .struct x
    | some _ => refuse (.notStruct x) span

end Check

end Shading
