import Shading.Check.Decl

/-!
# Checking a shader

No two top-level declarations share a name. The types of the interface variables are checked first:
attributes, then uniforms, then varyings, each with the variables before it in scope. The functions
`vertex` and `fragment` implement the stages; they take nothing, return a `vec4`, and varyings go from the
first to the second. Each stage declares the structs opened so far and the functions its own one needs.
-/

namespace Shading

/-- The first declaration of a name that is among `seen` or declared before. -/
def firstRedefined? (seen : List Ident) : List Decl → Option Decl
  | [] => none
  | d :: ds => if seen.contains d.name then some d else firstRedefined? (d.name :: seen) ds

namespace Decl

/-- The interface variable that is declared, with what it is. -/
def interfaceVar? : Decl → Option (TypedName × VarKind)
  | attributeVar v => some (v, .attributeVar)
  | uniformVar v block => some (v, .uniformVar (block.getD defaultBlock))
  | varyingVar v => some (v, .varyingVar)
  | struct _ | fn _ => none

def fn? : Decl → Option FnDecl
  | fn d => some d
  | _ => none

def struct? : Decl → Option StructDecl
  | struct d => some d
  | _ => none

end Decl

namespace VarKind

def isAttribute : VarKind → Bool
  | attributeVar => true
  | _ => false

def isUniform : VarKind → Bool
  | uniformVar _ => true
  | _ => false

def isVarying : VarKind → Bool
  | varyingVar => true
  | _ => false

end VarKind

namespace Ty

/-- Attributes are floats, float vectors and matrices. -/
def canBeAttribute : Ty → Bool
  | .basic (.scalar k) | .basic (.vector k _) => k == .float
  | .basic (.matrix _) => true
  | _ => false

/-- Varyings are scalars, vectors and arrays of these. -/
def canBeVarying : Ty → Bool
  | .array elem _ => elem.isScalarOrVector
  | t => t.isScalarOrVector

end Ty

/-- Why an interface variable cannot have the type, if it cannot. -/
def VarKind.refusal? (kind : VarKind) (x : Ident) (ty : Ty) : Option Cause :=
  match kind with
  | attributeVar => if ty.canBeAttribute then none else some (.badAttributeTy x ty)
  | varyingVar => if ty.canBeVarying then none else some (.badVaryingTy x ty)
  | uniformVar _ | localVar _ => none

namespace Interface

/-- The names and types of the variables of a kind. -/
def varsOf (p : VarKind → Bool) (vars : List (Ident × Var)) : List (Ident × Ty) :=
  (vars.filter fun v => p v.2.kind).map fun v => (v.1, v.2.ty)

def blockOf? (v : Ident × Var) : Option Ident :=
  match v.2.kind with
  | .uniformVar block => some block
  | _ => none

/-- The blocks that have variables, in the order of their first ones. -/
def blockNames (vars : List (Ident × Var)) : List Ident := (vars.filterMap blockOf?).eraseDups

/-- The interface of the given variables; uniforms are grouped by block. -/
def ofVars (vars : List (Ident × Var)) : Interface where
  attributes := varsOf VarKind.isAttribute vars
  blocks := (blockNames vars).map fun b => ⟨b, varsOf (fun k => k == .uniformVar b) vars⟩
  varyings := varsOf VarKind.isVarying vars

end Interface

namespace StageUnit

/-- What the text of a stage declares whose function is `entry`, after `s` has been opened. -/
def ofEntry (i : Interface) (s : Expansion) (stage : Stage) (entry : FnDef) : StageUnit where
  stage := stage
  structs := s.structs
  blocks := i.blocks
  attributes := match stage with
    | .vertex => i.attributes
    | .fragment => []
  varyings := i.varyings
  fns := s.fns.filter fun f => f.name == entry.name || entry.deps.hasFn f.name
  interfaceVaryings := i.varyings

/-- The unit without what another one declares. -/
def without (u v : StageUnit) : StageUnit :=
  { u with
    structs := u.structs.filter fun s => !v.structs.any fun t => t.name == s.name
    blocks := u.blocks.filter fun b => !v.blocks.any fun c => c.name == b.name
    varyings := u.varyings.filter fun x => !v.varyings.any fun y => y.1 == x.1
    fns := u.fns.filter fun f => !v.fns.any fun g => g.name == f.name }

/-- The writing of a stage, for the log. -/
def event (u : StageUnit) : Event := .wroteStage u.stage u.structs.length u.fns.length

end StageUnit

namespace Check

def interfaceVars (top : TopLevel) (vars : Scope Var) :
    List (TypedName × VarKind) → Check (Scope Var × List (Ident × Var))
  | [] => return (vars, [])
  | (d, kind) :: rest => do
    let ty ← tyExpr ⟨[], globals top vars top.depth {}⟩ d.ty
    match kind.refusal? d.name ty with
    | some cause => refuse cause d.ty.span
    | none =>
      let vars' ← bindName vars d.name ⟨ty, kind⟩ d.span
      let (last, more) ← interfaceVars top vars' rest
      return (last, (d.name, ⟨ty, kind⟩) :: more)

/-- Attributes are checked first, then uniforms, then varyings. -/
def interfaceOrder (decls : List Decl) : List (TypedName × VarKind) :=
  let vars := decls.filterMap Decl.interfaceVar?
  (vars.filter fun v => v.2.isAttribute) ++ (vars.filter fun v => v.2.isUniform) ++
    (vars.filter fun v => v.2.isVarying)

/-- The function of a stage, opened and checked against the rules for it. -/
def entry (top : TopLevel) (vars : Scope Var) (stage : Stage) : Check FnDef := do
  match top.fn? stage.entryPoint with
  | none => refuse (.missingFn stage.entryPoint) .unset
  | some d =>
    if !d.params.isEmpty then refuse (.hasParams d.name d.params.length) d.span
    let f ← openFn (globals top vars top.depth) {} d d.span
    if f.result ≠ .vec4 then refuse (.badResult d.name .vec4 f.result) d.span
    match stage with
    | .vertex => if f.deps.readsVaryings then refuse (.readsVaryings d.name) d.span
    | .fragment => if f.deps.writesVaryings then refuse (.writesVaryings d.name) d.span
    return f

/-- Checks a shader. When the texts of both stages are put together, the second leaves out what the
first declares; otherwise it opens the functions it needs anew. -/
def program (builtins : Builtins) (shared : Bool) (decls : List Decl) : Check Program := do
  match firstRedefined? [] decls with
  | some d => refuse (.redefined d.name) d.span
  | none =>
    let top : TopLevel := ⟨decls.filterMap Decl.fn?, decls.filterMap Decl.struct?, builtins⟩
    let (scope, vars) ← interfaceVars top .empty (interfaceOrder decls)
    let interface := Interface.ofVars vars
    let vertexFn ← entry top scope .vertex
    let vertex := StageUnit.ofEntry interface (← get) .vertex vertexFn
    note vertex.event
    if !shared then modify fun s => { s with fns := [] }
    let fragmentFn ← entry top scope .fragment
    let whole := StageUnit.ofEntry interface (← get) .fragment fragmentFn
    let fragment := if shared then whole.without vertex else whole
    note fragment.event
    return ⟨interface, vertexFn.deps, fragmentFn.deps, vertex, fragment⟩

end Check

/-- Checks a shader, and tells what happened in the order in which it did. -/
def Program.check (builtins : Builtins) (shared : Bool) (decls : List Decl) :
    Except Fault Program × List Event :=
  let (result, s) := (Check.program builtins shared decls).run {}
  (result, s.events.reverse)

end Shading
