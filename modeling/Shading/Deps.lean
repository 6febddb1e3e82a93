import Shading.NameSet
import Shading.Ty

/-!
# Dependencies

What a piece of code needs, directly or through the functions it calls: the user functions it
reaches, the uniform blocks it reads, and whether it reads attributes, reads varyings or writes varyings.
-/

namespace Shading

/-- What a piece of code needs. -/
structure Deps where
  fns : NameSet := .empty
  blocks : NameSet := .empty
  readsAttributes : Bool := false
  readsVaryings : Bool := false
  writesVaryings : Bool := false
deriving DecidableEq, Inhabited

namespace Deps

def none : Deps := {}

def union (a b : Deps) : Deps where
  fns := a.fns.union b.fns
  blocks := a.blocks.union b.blocks
  readsAttributes := a.readsAttributes || b.readsAttributes
  readsVaryings := a.readsVaryings || b.readsVaryings
  writesVaryings := a.writesVaryings || b.writesVaryings

def unionAll (ds : List Deps) : Deps := ds.foldl union none

def ofFn (f : Ident) : Deps := { fns := .singleton f }

def ofBlock (b : Ident) : Deps := { blocks := .singleton b }

def hasFn (d : Deps) (f : Ident) : Bool := decide (f ∈ d.fns)

def hasBlock (d : Deps) (b : Ident) : Bool := decide (b ∈ d.blocks)

def isEmpty (d : Deps) : Bool :=
  d.fns.isEmpty && d.blocks.isEmpty && !d.readsAttributes && !d.readsVaryings && !d.writesVaryings

end Deps

end Shading
