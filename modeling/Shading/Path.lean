import Shading.Text.Cut

/-!
# File paths

Paths are texts with slashes between their components. A clean path has no empty components, no `.`
unless it is all there is, and `..` only at the beginning of a relative path.
-/

namespace Shading.Path

def isAbsolute (p : String) : Bool := p.toList.head? == some '/'

/-- The components between the slashes, empty ones included. -/
def components (p : String) : List String := (p.toList.splitOn '/').map String.ofList

/-- One more component behind clean ones, which are given backwards. -/
def cleanStep (absolute : Bool) (done : List String) (c : String) : List String :=
  if c = "" ∨ c = "." then done
  else if c = ".." then
    match done with
    | [] => if absolute then [] else [".."]
    | d :: ds => if d = ".." then ".." :: d :: ds else ds
  else c :: done

def cleanComponents (p : String) : List String :=
  ((components p).foldl (cleanStep (isAbsolute p)) []).reverse

/-- The shortest path that leads to the same place. -/
def clean (p : String) : String :=
  let joined := "/".intercalate (cleanComponents p)
  if isAbsolute p then "/" ++ joined else if joined.isEmpty then "." else joined

/-- The second path as seen from the first, cleaned; an empty first path counts for nothing. -/
def join (p q : String) : String :=
  if p.isEmpty then (if q.isEmpty then "" else clean q) else clean (p ++ "/" ++ q)

/-- The last component, without slashes behind it. -/
def base (p : String) : String :=
  if p.isEmpty then "."
  else match (components p).reverse.dropWhile String.isEmpty with
    | [] => "/"
    | c :: _ => c

/-- The extension of the last component: its last dot and what follows it. -/
def ext (p : String) : String :=
  let name := p.toList.reverse.takeWhile (· != '/')
  if name.contains '.' then String.ofList ('.' :: (name.takeWhile (· != '.')).reverse) else ""

/-- The path without its last component, cleaned. -/
def dir (p : String) : String :=
  clean (String.ofList (p.toList.reverse.dropWhile (· != '/')).reverse)

/-- The path as seen from the root, cleaned, when relative paths are seen from `cwd`. -/
def absolute (cwd p : String) : String := if isAbsolute p then clean p else join cwd p

end Shading.Path
