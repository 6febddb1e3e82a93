import Shading.Check.Stmt

/-!
# Checking functions and structs

A top-level name is an interface variable, a function, a struct or a builtin function, looked for in
this order. A function or struct is opened where it is first used, while those whose opening led there are
still unfinished; using one of these again is a cycle. Each opening adds a name to the unfinished ones,
so no more of them nest than there are functions and structs.
-/

namespace Shading

/-- The functions and structs of a shader, with the builtin functions it may call. -/
structure TopLevel where
  fns : List FnDecl
  structs : List StructDecl
  builtins : Builtins

namespace TopLevel

def fn? (top : TopLevel) (f : Ident) : Option FnDecl := top.fns.find? fun d => d.name == f

def struct? (top : TopLevel) (s : Ident) : Option StructDecl := top.structs.find? fun d => d.name == s

/-- One more than the openings that can be unfinished at a time. -/
def depth (top : TopLevel) : Nat := top.fns.length + top.structs.length + 1

end TopLevel

/-- The functions and structs that are being opened, the innermost last. -/
structure Unfinished where
  fns : List Ident := []
  structs : List Ident := []

namespace Unfinished

def addFn (u : Unfinished) (f : Ident) : Unfinished := { u with fns := u.fns ++ [f] }

def addStruct (u : Unfinished) (s : Ident) : Unfinished := { u with structs := u.structs ++ [s] }

end Unfinished

/-- The way from an unfinished name back to itself. -/
def cyclePath (unfinished : List Ident) (x : Ident) : List Ident :=
  unfinished.dropWhile (· != x) ++ [x]

namespace Check

/-- Binds a name that must not be bound in the scope already. -/
def bindName (scope : Scope Var) (x : Ident) (v : Var) (span : Span) : Check (Scope Var) :=
  match scope.insert? x v with
  | some scope' => return scope'
  | none => refuse (.redefined x) span

/-- Checks parameters; a type may be spelled with the names of earlier ones in scope. -/
def params (globals : Globals) (scope : Scope Var) : List TypedName → Check (Scope Var × List (Ident × Ty))
  | [] => return (scope, [])
  | p :: ps => do
    let ty ← tyExpr ⟨[scope], globals⟩ p.ty
    let scope' ← bindName scope p.name ⟨ty, .localVar false⟩ p.span
    let (last, more) ← params globals scope' ps
    return (last, (p.name, ty) :: more)

/-- Checks a function. Its parameters share the scope of its outermost block. -/
def fn (globals : Globals) (d : FnDecl) : Check FnDef := do
  let result ← match d.result with
    | none => pure .void
    | some t => tyExpr ⟨[.empty], globals⟩ t
  let (scope, ps) ← params globals .empty d.params
  let body ← block ⟨globals, result⟩ false [] scope d.body
  if body.deps.readsVaryings && body.deps.writesVaryings then
    refuse (.readsAndWritesVaryings d.name) d.span
  return ⟨d.name, ps, result, body.deps, body.body⟩

/-- Checks the members of a struct behind those in `earlier`; the result tells also whether an array is
among them. -/
def members (globals : Globals) (earlier : List (Ident × Ty)) (arrays : Bool) :
    List TypedName → Check (List (Ident × Ty) × Bool)
  | [] => return (earlier, arrays)
  | m :: ms => do
    let ty ← tyExpr ⟨[], globals⟩ m.ty
    if (earlier.lookup m.name).isSome then refuse (.redefined m.name) m.span
    let inside ← hasArrays ty
    members globals (earlier ++ [(m.name, ty)]) (arrays || inside) ms

def struct (globals : Globals) (d : StructDecl) : Check StructDef := do
  let (ms, arrays) ← members globals [] false d.members
  return ⟨d.name, ms, arrays⟩

/-- The function, opened now if it has not been before. `inside` gives the top-level names while further
ones are unfinished. -/
def openFn (inside : Unfinished → Globals) (u : Unfinished) (d : FnDecl) (span : Span) : Check FnDef := do
  match (← get).fn? d.name with
  | some f => return f
  | none =>
    if u.fns.contains d.name then refuse (.cyclicFn d.name (cyclePath u.fns d.name)) span
    let f ← fn (inside (u.addFn d.name)) d
    modify fun s => s.addFn f
    note (.openedFn d.name f.deps.fns.names)
    return f

/-- The struct, opened now if it has not been before. -/
def openStruct (inside : Unfinished → Globals) (u : Unfinished) (d : StructDecl) (span : Span) :
    Check StructDef := do
  match (← get).struct? d.name with
  | some s => return s
  | none =>
    if u.structs.contains d.name then refuse (.cyclicStruct d.name (cyclePath u.structs d.name)) span
    let s ← struct (inside (u.addStruct d.name)) d
    modify fun st => st.addStruct s
    note (.openedStruct d.name)
    return s

/-- What a top-level name stands for, when the interface variables are those of `vars`. -/
def resolve (top : TopLevel) (vars : Scope Var) (inside : Unfinished → Globals) (u : Unfinished) :
    Globals := fun x span =>
  match vars.lookup? x, top.fn? x, top.struct? x with
  | some v, _, _ => return some (.var v)
  | none, some d, _ => do return some (.fn (← openFn inside u d span))
  | none, none, some d => do return some (.struct (← openStruct inside u d span))
  | none, none, none => return (top.builtins.overloads? x).map .builtin

/-- The top-level names, with room for the given number of nested openings. -/
def globals (top : TopLevel) (vars : Scope Var) : Nat → Unfinished → Globals
  | 0, _ => fun _ _ => return none
  | depth + 1, u => resolve top vars (globals top vars depth) u

end Check

end Shading
