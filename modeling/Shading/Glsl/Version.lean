import Shading.Number.Decimal
import Shading.Text.Cut
import Shading.Text.Fields
import Shading.Text.Lowercase
import Shading.Text.Quoted

/-!
# Versions of GLSL

A version has a number of three digits and belongs to the desktop language or to the embedded one. It is
written as the number with an optional profile behind it, or with `es` in front of it.
-/

namespace Shading.Glsl

/-- A version of GLSL: the hundreds and the rest of its number, and whether it is an embedded one. -/
structure Version where
  major : Nat
  minor : Nat
  es : Bool
deriving DecidableEq, Inhabited

namespace Version

/-- The version that is used where none is chosen. -/
def standard : Version := ⟨3, 30, false⟩

def number (v : Version) : Nat := v.major * 100 + v.minor

/-- The number as it is written: the hundreds, and the rest with at least two digits. -/
def numberText (v : Version) : String :=
  toString v.major ++ (if v.minor < 10 then "0" else "") ++ toString v.minor

/-- The version as it is written in a shader. The first embedded version has no profile. -/
def text (v : Version) : String :=
  if v.es then (if v.number < 300 then v.numberText else v.numberText ++ " es")
  else v.numberText ++ " core"

/-- The interface of a stage is declared with `in` and `out`. -/
def hasInOut (v : Version) : Bool := decide ((if v.es then 300 else 130) ≤ v.number)

def hasUniformBlocks (v : Version) : Bool := decide ((if v.es then 300 else 140) ≤ v.number)

inductive Fault where
  | notVersion (text : String)
  | notProfile (text : String)
deriving DecidableEq

def Fault.message : Fault → String
  | notVersion s => "glsl: invalid version " ++ Text.quoted s
  | notProfile s => "glsl: invalid version profile " ++ Text.quoted s

/-- The number of a version in the field that holds it, if it has three digits. -/
def readNumber? (s : String) : Option Nat :=
  match Number.decimal? s with
  | some n => if 100 ≤ n ∧ n ≤ 999 then some n.toNat else none
  | none => none

/-- Reads the profile of a version: whether it is the embedded one. -/
def readProfile : Option String → Except Fault Bool
  | none => .ok false
  | some s => if s = "es" then .ok true else if s = "core" then .ok false else .error (.notProfile s)

/-- Reads a version, in which case does not matter. The number 100 is always an embedded version. -/
def parse (s : String) : Except Fault Version :=
  let read (first : String) (second : Option String) : Except Fault Version := do
    let marked := Text.behind? "es" first
    let profile ← readProfile second
    match readNumber? (marked.getD first) with
    | some n => .ok ⟨n / 100, n % 100, marked.isSome || profile || n == 100⟩
    | none => .error (.notVersion s)
  match Text.fields (Text.lowercase s) with
  | [first] => read first none
  | [first, second] => read first (some second)
  | _ => .error (.notVersion s)

end Version

end Shading.Glsl
