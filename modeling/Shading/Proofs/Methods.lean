import Shading.Proofs.Programs

/-!
# Ways of checking

Checking a shader is made of parts that can be exchanged: how functions and structs are checked when they are opened,
how interface variables are bound, how the function of a stage is found. Other ways than the usual one are compared
with it: with the openings unrolled, without the rules for varyings, or with more that is looked after.
-/

namespace Shading

namespace Check

/-- How functions and structs are checked when they are opened. -/
structure Checker where
  fn : Globals → FnDecl → Check FnDef
  struct : Globals → StructDecl → Check StructDef

def Checker.usual : Checker := ⟨Check.fn, Check.struct⟩

section Openings

variable (c : Checker)

/-- The function, opened now if it has not been before. -/
def openFnBy (inside : Unfinished → Globals) (u : Unfinished) (d : FnDecl) (span : Span) : Check FnDef := do
  match (← get).fn? d.name with
  | some f => return f
  | none =>
    if u.fns.contains d.name then refuse (.cyclicFn d.name (cyclePath u.fns d.name)) span
    let f ← c.fn (inside (u.addFn d.name)) d
    modify fun s => s.addFn f
    note (.openedFn d.name f.deps.fns.names)
    return f

/-- The struct, opened now if it has not been before. -/
def openStructBy (inside : Unfinished → Globals) (u : Unfinished) (d : StructDecl) (span : Span) :
    Check StructDef := do
  match (← get).struct? d.name with
  | some s => return s
  | none =>
    if u.structs.contains d.name then refuse (.cyclicStruct d.name (cyclePath u.structs d.name)) span
    let s ← c.struct (inside (u.addStruct d.name)) d
    modify fun st => st.addStruct s
    note (.openedStruct d.name)
    return s

/-- The top-level names, with room for the given number of nested openings. -/
def globalsBy (top : TopLevel) (vars : Scope Var) : Nat → Unfinished → Globals
  | 0, _ => fun _ _ => return none
  | depth + 1, u => fun x span =>
    match vars.lookup? x, top.fn? x, top.struct? x with
    | some v, _, _ => return some (.var v)
    | none, some d, _ => do return some (.fn (← openFnBy c (globalsBy top vars depth) u d span))
    | none, none, some d => do return some (.struct (← openStructBy c (globalsBy top vars depth) u d span))
    | none, none, none => return (top.builtins.overloads? x).map .builtin

end Openings

/-- With the usual checks the top-level names are the usual ones. -/
theorem globals_eq_by (top : TopLevel) (vars : Scope Var) (n : Nat) :
    globals top vars n = globalsBy .usual top vars n := by
  induction n with
  | zero => rfl
  | succ k ih =>
    funext u x span
    rw [globals, ih]
    rfl

/-- How a shader is checked: how top-level names are looked up while interface variables are bound, how these are
bound to their types, and how the function of a stage is opened. -/
structure Method where
  names : Scope Var → Globals
  bind : Scope Var → TypedName → Var → Check (Scope Var)
  entry : Scope Var → Stage → Check FnDef

/-- An interface variable is bound unless its name is bound already. -/
def bindVar (vars : Scope Var) (d : TypedName) (v : Var) : Check (Scope Var) := bindName vars d.name v d.span

def interfaceVarsBy (m : Method) (vars : Scope Var) :
    List (TypedName × VarKind) → Check (Scope Var × List (Ident × Var))
  | [] => return (vars, [])
  | (d, kind) :: rest => do
    let ty ← tyExpr ⟨[], m.names vars⟩ d.ty
    match kind.refusal? d.name ty with
    | some cause => refuse cause d.ty.span
    | none =>
      let vars' ← m.bind vars d ⟨ty, kind⟩
      let (last, more) ← interfaceVarsBy m vars' rest
      return (last, (d.name, ⟨ty, kind⟩) :: more)

/-- The first part of checking a shader: the interface and the vertex stage. -/
def vertexPartBy (m : Method) (decls : List Decl) : Check VertexPart := do
  match firstRedefined? [] decls with
  | some d => refuse (.redefined d.name) d.span
  | none =>
    let (scope, vars) ← interfaceVarsBy m .empty (interfaceOrder decls)
    let f ← m.entry scope .vertex
    return ⟨scope, vars, f⟩

/-- The second part: the fragment stage. -/
def fragmentPartBy (m : Method) (shared : Bool) (v : VertexPart) : Check Program := do
  let interface := Interface.ofVars v.vars
  let vertex := StageUnit.ofEntry interface (← get) .vertex v.entry
  note vertex.event
  if !shared then modify fun s => { s with fns := [] }
  let f ← m.entry v.scope .fragment
  let whole := StageUnit.ofEntry interface (← get) .fragment f
  let fragment := if shared then whole.without vertex else whole
  note fragment.event
  return ⟨interface, v.entry.deps, f.deps, vertex, fragment⟩

def programBy (m : Method) (shared : Bool) (decls : List Decl) : Check Program :=
  vertexPartBy m decls >>= fragmentPartBy m shared

/-- The function of a stage, opened in the given way and checked against the rules for it. -/
def entryBy (top : TopLevel) (opens : FnDecl → Check FnDef) (stage : Stage) : Check FnDef := do
  match top.fn? stage.entryPoint with
  | none => refuse (.missingFn stage.entryPoint) .unset
  | some d =>
    if !d.params.isEmpty then refuse (.hasParams d.name d.params.length) d.span
    let f ← opens d
    if f.result ≠ .vec4 then refuse (.badResult d.name .vec4 f.result) d.span
    match stage with
    | .vertex => if f.deps.readsVaryings then refuse (.readsVaryings d.name) d.span
    | .fragment => if f.deps.writesVaryings then refuse (.writesVaryings d.name) d.span
    return f

/-- The way that looks names up as `inside` does. -/
def Method.ofLookup (top : TopLevel) (inside : Scope Var → Unfinished → Globals) : Method where
  names vars := inside vars {}
  bind := bindVar
  entry vars := entryBy top fun d => openFn (inside vars) {} d d.span

/-- The way that checks functions and structs as told. -/
def Method.ofChecker (c : Checker) (top : TopLevel) : Method where
  names vars := globalsBy c top vars top.depth {}
  bind := bindVar
  entry vars := entryBy top fun d => openFnBy c (globalsBy c top vars top.depth) {} d d.span

def Method.usual (top : TopLevel) : Method := .ofChecker .usual top

theorem Method.usual_eq (top : TopLevel) :
    Method.usual top = .ofLookup top fun vars => globals top vars top.depth := by
  simp only [Method.usual, Method.ofChecker, Method.ofLookup, ← globals_eq_by]
  rfl

theorem interfaceVars_eq_by (top : TopLevel) (vars : Scope Var) (ds : List (TypedName × VarKind)) :
    interfaceVars top vars ds = interfaceVarsBy (.usual top) vars ds := by
  rw [Method.usual_eq]
  induction ds generalizing vars with
  | nil => rfl
  | cons d ds ih =>
    obtain ⟨d, kind⟩ := d
    simp only [interfaceVars, interfaceVarsBy, ih]
    rfl

theorem vertexPart_eq_by (builtins : Builtins) (decls : List Decl) :
    vertexPart builtins decls = vertexPartBy (.usual (.ofDecls builtins decls)) decls := by
  simp only [vertexPart, vertexPartBy, interfaceVars_eq_by]
  rw [Method.usual_eq]
  rfl

/-- Shaders are checked in the usual way, with room for as many nested openings as there can be. -/
theorem program_eq_by (builtins : Builtins) (shared : Bool) (decls : List Decl) :
    program builtins shared decls = programBy (.usual (.ofDecls builtins decls)) shared decls := by
  rw [program_eq, vertexPart_eq_by, Method.usual_eq]
  rfl

end Check

end Shading
