import Shading.Compile
import Shading.Toml.Decode
import Shading.Toml.Printer
import Shading.Toml.Reader

/-!
# Bindings

What a program that uses a compiled shader has to know about it: the interface variables with their
types and the names they have in the texts, and what each stage needs. Bindings are kept in a TOML file.
-/

namespace Shading

/-- An interface variable: its name, its type and its name in the texts. -/
structure Binding where
  name : String
  ty : String
  symbol : String
deriving DecidableEq, Inhabited

structure BoundBlock where
  name : String
  uniforms : List Binding
deriving DecidableEq, Inhabited

/-- What a stage needs. -/
structure StageBindings where
  functions : List String
  blocks : List String
  readsAttributes : Bool
  readsVaryings : Bool
  writesVaryings : Bool
deriving DecidableEq, Inhabited

structure Bindings where
  attributes : List Binding
  blocks : List BoundBlock
  varyings : List Binding
  vertex : StageBindings
  fragment : StageBindings
deriving DecidableEq, Inhabited

open Toml

namespace Binding

def ofVar (symbol : Ident → String) (v : Ident × Ty) : Binding := ⟨v.1, v.2.name, symbol v.1⟩

def table (b : Binding) : Table :=
  .ofEntries [("name", .string b.name), ("type", .string b.ty), ("symbol", .string b.symbol)]

def ofTable? (t : Table) : Option Binding := do
  return ⟨← t.string? "name", ← t.string? "type", ← t.string? "symbol"⟩

end Binding

namespace BoundBlock

def ofBlock (d : Dialect) (b : UniformBlock) : BoundBlock :=
  ⟨b.name, b.vars.map (Binding.ofVar (d.uniformVar b.name))⟩

def table (b : BoundBlock) : Table :=
  .ofEntries [("name", .string b.name), ("uniforms", .tables (b.uniforms.map Binding.table))]

def ofTable? (t : Table) : Option BoundBlock := do
  return ⟨← t.string? "name", ← (← t.tables? "uniforms").mapM Binding.ofTable?⟩

end BoundBlock

namespace StageBindings

def ofDeps (d : Deps) : StageBindings :=
  ⟨d.fns.names, d.blocks.names, d.readsAttributes, d.readsVaryings, d.writesVaryings⟩

def table (s : StageBindings) : Table :=
  .ofEntries [("functions", .array (s.functions.map .string)),
    ("uniform-blocks", .array (s.blocks.map .string)),
    ("reads-attributes", .boolean s.readsAttributes),
    ("reads-varyings", .boolean s.readsVaryings),
    ("writes-varyings", .boolean s.writesVaryings)]

def ofTable? (t : Table) : Option StageBindings := do
  return ⟨← t.strings? "functions", ← t.strings? "uniform-blocks", ← t.boolean? "reads-attributes",
    ← t.boolean? "reads-varyings", ← t.boolean? "writes-varyings"⟩

end StageBindings

namespace Bindings

/-- The bindings of a compiled shader; the dialect must be the one it was written in. -/
def ofCompiled (d : Dialect) (c : Compiled) : Bindings where
  attributes := c.interface.attributes.map (Binding.ofVar d.attributeVar)
  blocks := c.interface.blocks.map (BoundBlock.ofBlock d)
  varyings := c.interface.varyings.map (Binding.ofVar d.varyingVar)
  vertex := .ofDeps c.vertexDeps
  fragment := .ofDeps c.fragmentDeps

def table (b : Bindings) : Table :=
  .ofEntries [("attributes", .tables (b.attributes.map Binding.table)),
    ("uniform-blocks", .tables (b.blocks.map BoundBlock.table)),
    ("varyings", .tables (b.varyings.map Binding.table)),
    ("vertex", .table b.vertex.table), ("fragment", .table b.fragment.table)]

def text (b : Bindings) : String := b.table.text

def ofTable? (t : Table) : Option Bindings := do
  return ⟨← (← t.tables? "attributes").mapM Binding.ofTable?,
    ← (← t.tables? "uniform-blocks").mapM BoundBlock.ofTable?,
    ← (← t.tables? "varyings").mapM Binding.ofTable?,
    ← StageBindings.ofTable? (← t.table? "vertex"), ← StageBindings.ofTable? (← t.table? "fragment")⟩

end Bindings

inductive BindingsError where
  | notToml (error : Toml.ReadError)
  | wrongKind
deriving DecidableEq

def Bindings.read (text : String) : Except BindingsError Bindings :=
  match Toml.read text.toList with
  | .error e => .error (.notToml e)
  | .ok t => match Bindings.ofTable? t with
    | some b => .ok b
    | none => .error .wrongKind

end Shading
