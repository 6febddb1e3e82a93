import Shading.Ty

/-!
# Swizzles

A selection of one to four components of a vector by letters. All letters come from one of the two
sets `xyzw` and `rgba`, and name components that the vector has.
-/

namespace Shading

/-- A selection of components: the type of the result and the places selected. -/
structure Swizzle where
  ty : BasicTy
  places : List Nat
deriving DecidableEq

namespace Swizzle

/-- The letters of the components, by set. -/
def letterSets : List (List Char) := ["xyzw".toList, "rgba".toList]

/-- The place of a letter in a set, below the number of components. -/
def place? (letters : List Char) (count : Nat) (c : Char) : Option Nat :=
  (letters.idxOf? c).filter (· < count)

/-- The places of all letters, in one set. -/
def places? (letters : List Char) (count : Nat) (word : List Char) : Option (List Nat) :=
  word.mapM (place? letters count)

/-- The selection that a word makes on a type. -/
def parse? (t : Ty) (word : String) : Option Swizzle :=
  match t with
  | .basic (.vector k n) =>
    letterSets.findSome? fun letters => do
      let places ← places? letters n.toNat word.toList
      let ty ← BasicTy.ofComponents? k places.length
      return ⟨ty, places⟩
  | _ => none

def hasDuplicates (s : Swizzle) : Bool := !decide s.places.Nodup

end Swizzle

end Shading
