import Shading.Proofs.Carriers.Lines
import Shading.Proofs.Naming

/-!
# Varyings and their carriers

A varying passes between the stages itself, or a carrier of another type passes in its place. What passes is said here
from the types alone, and the lines that are written are read back to the same. The declarator of a varying reaches the
dialect as a text and is cut up again there, so every part of it has to be found: a keyword and a name have no blank and
no bracket.
-/

namespace Shading

open Text

/-! ## Texts of word characters -/

def WordChars (s : String) : Prop := ∀ c ∈ s.toList, Token.isWordGlyph (.char c) = true

instance (s : String) : Decidable (WordChars s) := List.decidableBAll _ s.toList

namespace WordChars

variable {s t : String}

theorem append (hs : WordChars s) (ht : WordChars t) : WordChars (s ++ t) := by
  intro c hc
  rw [String.toList_append, List.mem_append] at hc
  exact hc.elim (hs c) (ht c)

theorem not_mem (h : WordChars s) {c : Char} (hc : Token.isWordGlyph (.char c) = false) : c ∉ s.toList := by
  intro hmem
  rw [h c hmem] at hc
  cases hc

theorem blank_not_mem (h : WordChars s) : ' ' ∉ s.toList := h.not_mem (by decide)

theorem bracket_not_mem (h : WordChars s) : '[' ∉ s.toList := h.not_mem (by decide)

theorem oneLine (h : WordChars s) : OneLine s := h.not_mem (by decide)

theorem of_isName {x : Ident} (h : Token.IsName x) : WordChars x := by
  obtain ⟨⟨first, rest, hx, hfirst, hrest⟩, -⟩ := h
  intro c hc
  rw [hx, List.mem_cons] at hc
  rcases hc with rfl | hc
  · simp only [Token.isWordStart, Token.isWordGlyph, Glyph.satisfies, Bool.or_eq_true] at hfirst ⊢
    exact hfirst.imp_left .inl
  · exact hrest c hc

theorem nat (n : Nat) : WordChars (toString n) := by
  intro c hc
  have hdigit : c.isDigit = true := by
    apply Nat.isDigit_of_mem_toDigits (b := 10) (n := n) (by decide) (by decide)
    simpa [Nat.toString_eq_ofList_toDigits] using hc
  simp [Token.isWordGlyph, Glyph.satisfies, hdigit]

theorem basicTy : ∀ b : BasicTy, WordChars b.name
  | .scalar .bool | .scalar .int | .scalar .float => by decide
  | .vector .bool n => append (by decide : WordChars "bvec") (nat n.toNat)
  | .vector .int n => append (by decide : WordChars "ivec") (nat n.toNat)
  | .vector .float n => append (by decide : WordChars "vec") (nat n.toNat)
  | .matrix n => append (by decide : WordChars "mat") (nat n.toNat)

end WordChars

/-! ## Varyings -/

/-- A varying: a scalar or a vector, or an array of as many as its length says. -/
structure Varying where
  name : Ident
  ty : BasicTy
  length : Option Nat
deriving DecidableEq

namespace Varying

/-- The varying as a variable of the interface. -/
def var (x : Varying) : Ident × Ty := (x.name, x.length.elim (.basic x.ty) fun n => .array (.basic x.ty) n)

theorem var_injective : Function.Injective var := by
  rintro ⟨name, ty, _ | n⟩ ⟨name', ty', _ | n'⟩ h <;> simp [var] at h
  · simp [h]
  · simp [h]

/-- What stands behind the name where the varying is declared. -/
def dims (x : Varying) : String := x.length.elim "" fun n => "[" ++ toString n ++ "]"

/-- What stands behind the name of the varying for each of its elements; a varying that is no array is its only one. -/
def elements (x : Varying) : List String :=
  x.length.elim [""] fun n => (List.range n).map fun i => "[" ++ toString i ++ "]"

/-- The name is a word and the length fits into 64 bits. -/
structure Legible (x : Varying) : Prop where
  name : WordChars x.name
  length : ∀ n ∈ x.length, n < Number.power 2 63

end Varying

namespace Glsl

/-- The kind of number that stands for another one between the stages: bools never pass, and ints pass only where the
interface of a stage is declared with `in` and `out`. -/
def carrierKind? (v : Version) : Scalar → Option Scalar
  | .bool => some (if v.hasInOut then .int else .float)
  | .int => if v.hasInOut then none else some .float
  | .float => none

/-- The type of the carrier of a varying, if it needs one. -/
def carrierOf? (v : Version) : BasicTy → Option BasicTy
  | .scalar k => (carrierKind? v k).map .scalar
  | .vector k n => (carrierKind? v k).map (.vector · n)
  | .matrix _ => none

theorem carrierTy?_name (v : Version) (b : BasicTy) : carrierTy? v b.name = (carrierOf? v b).map BasicTy.name := by
  unfold carrierTy? carrierOf? carrierKind?
  cases v.hasInOut with
  | true | false =>
    cases b with
    | scalar k => cases k <;> decide
    | vector k n => cases k <;> cases n <;> decide
    | matrix n => cases n <;> decide

/-! ## What passes -/

/-- A variable that passes between the stages, as it is declared. -/
structure Passing where
  /-- It is not interpolated. -/
  flat : Bool
  ty : String
  name : String
  /-- The length of an array. -/
  length : Option String
deriving DecidableEq

/-- What a stage writes in front of the type of a variable that passes. -/
def passingWord (v : Version) (stage : Stage) : String :=
  if v.hasInOut then
    match stage with
    | .vertex => "out"
    | .fragment => "in"
  else "varying"

/-- The variable of a declaration: its type, its name and the length in brackets. -/
def Passing.ofDeclaration (flat : Bool) (declaration : String) : Passing :=
  let (ty, declared) := cutAt ' ' (trimEnd ";" declaration)
  let (name, dims) := cutAt '[' (declared.getD "")
  ⟨flat, ty, name, dims.map (trimEnd "]")⟩

/-- Reads a line that declares a variable that passes; other lines are no such declarations. -/
def Passing.read? (v : Version) (stage : Stage) (line : String) : Option Passing :=
  let unqualified := behind? "flat " line
  (behind? (passingWord v stage ++ " ") (unqualified.getD line)).map (ofDeclaration unqualified.isSome)

/-- The variables that pass between the stages according to the text of a stage. -/
def passings (v : Version) (stage : Stage) (text : String) : List Passing :=
  (codeLines text).filterMap (Passing.read? v stage)

end Glsl

/-- The type of what passes for a varying. -/
def Varying.passingTy (v : Glsl.Version) (x : Varying) : BasicTy := (Glsl.carrierOf? v x.ty).getD x.ty

/-- The mark of what passes for a varying. -/
def Varying.passingMark (v : Glsl.Version) (x : Varying) : String :=
  if (Glsl.carrierOf? v x.ty).isSome then Glsl.carrierMark else Glsl.varyingMark

/-- What passes for a varying. -/
def Varying.passing (v : Glsl.Version) (x : Varying) : Glsl.Passing where
  flat := v.hasInOut && (x.passingTy v).component == .int
  ty := (x.passingTy v).name
  name := x.passingMark v ++ x.name
  length := x.length.map toString

/-- What passes is no bool, and no int where the interface of a stage is not declared with `in` and `out`. -/
theorem Varying.passing_ty (v : Glsl.Version) (x : Varying) :
    (x.passing v).ty ∉ ["bool", "bvec2", "bvec3", "bvec4"] ∧
      (v.hasInOut = false → (x.passing v).ty ∉ ["int", "ivec2", "ivec3", "ivec4"]) := by
  rw [passing, passingTy]
  dsimp only
  generalize x.ty = b
  unfold Glsl.carrierOf? Glsl.carrierKind?
  cases v.hasInOut with
  | true | false =>
    cases b with
    | scalar k => cases k <;> decide
    | vector k n => cases k <;> cases n <;> decide
    | matrix n => cases n <;> decide

namespace Glsl

/-! ## Declarators -/

section Declarators

variable {v : Version} {stage : Stage} {ty : BasicTy} {name : String} {x : Varying}

/-- A declarator of a variable with the length of a varying. -/
def declarator (ty : BasicTy) (name : String) (x : Varying) : String := ty.name ++ (" " ++ (name ++ x.dims))

theorem varyingDeclarator_var (o : Options) (x : Varying) :
    (dialect o).varyingDeclarator x.var = declarator x.ty (varyingMark ++ x.name) x := by
  obtain ⟨name, ty, _ | n⟩ := x
  · simp [Dialect.varyingDeclarator, Dialect.declarator, Varying.var, Ty.dimensions, Dialect.ty, declarator,
      Varying.dims, dialect, String.append_assoc]
  · simp [Dialect.varyingDeclarator, Dialect.declarator, Varying.var, Ty.dimensions, Dialect.ty, declarator,
      Varying.dims, dialect, String.append_assoc]
    rfl

/-- The keyword is found in front of the first blank. -/
theorem cutAt_declarator (ty : BasicTy) (name : String) (x : Varying) :
    cutAt ' ' (declarator ty name x) = (ty.name, some (name ++ x.dims)) :=
  cutAt_append (WordChars.basicTy ty).blank_not_mem _

/-- The name is found in front of the first bracket. -/
theorem cutAt_declared (hname : '[' ∉ name.toList) (x : Varying) :
    cutAt '[' (name ++ x.dims) = (name, x.length.map fun n => toString n ++ "]") := by
  obtain ⟨_, _, _ | n⟩ := x
  · rw [Varying.dims, Option.elim_none, String.append_empty, cutAt_of_not_mem hname, Option.map_none]
  · rw [Varying.dims, Option.elim_some, String.append_assoc, show "[" = String.singleton '[' from rfl,
      cutAt_append hname, Option.map_some]

theorem isIntegral_declarator (ty : BasicTy) (name : String) (x : Varying) :
    isIntegral (declarator ty name x) = (ty.component == .int) := by
  rw [isIntegral, cutAt_declarator]
  dsimp only
  cases ty with
  | scalar k => cases k <;> decide
  | vector k n => cases k <;> cases n <;> decide
  | matrix n => cases n <;> decide

theorem carried?_declarator (v : Version) (x : Varying) :
    carried? v (declarator x.ty (varyingMark ++ x.name) x) =
      (carrierOf? v x.ty).map fun c => ⟨x.ty.name, varyingMark ++ x.name ++ x.dims, c.name⟩ := by
  simp only [carried?, cutAt_declarator, carrierTy?_name, Option.map_map, Option.getD_some]
  rfl

theorem carrierName_mark (s : String) : carrierName (varyingMark ++ s) = carrierMark ++ s := by
  rw [carrierName, trimStart_append]

end Declarators

/-! ## Lines that declare what passes -/

section Passing

variable {v : Version} {stage : Stage} {x : Varying}

theorem passingWord_mem (v : Version) (stage : Stage) : passingWord v stage ∈ ["in", "out", "varying"] := by
  unfold passingWord
  split
  · cases stage <;> decide
  · decide

theorem wordChars_passingWord (v : Version) (stage : Stage) : WordChars (passingWord v stage) := by
  have hall : ∀ w ∈ ["in", "out", "varying"], WordChars w := by decide
  exact hall _ (passingWord_mem v stage)

theorem passingWord_ne {w : String} (hw : w ∉ ["in", "out", "varying"]) (v : Version) (stage : Stage) :
    passingWord v stage ≠ w := by
  rintro rfl
  exact hw (passingWord_mem v stage)

/-- The line that declares what passes for a varying. -/
def passingLine (v : Version) (stage : Stage) (x : Varying) : String :=
  (if (x.passing v).flat then "flat " else "") ++
    (passingWord v stage ++ " " ++ (declarator (x.passingTy v) (x.passingMark v ++ x.name) x ++ ";"))

theorem passingDecl_eq (v : Version) (stage : Stage) (x : Varying) :
    passingDecl v stage (declarator (x.passingTy v) (x.passingMark v ++ x.name) x) = passingLine v stage x ++ "\n" := by
  unfold passingDecl passingLine passingWord Varying.passing
  rw [isIntegral_declarator]
  cases v.hasInOut with
  | true => cases stage <;> simp [String.append_assoc]
  | false => simp [String.append_assoc]

theorem wordChars_passingMark (v : Version) (x : Varying) : WordChars (x.passingMark v) := by
  unfold Varying.passingMark
  split <;> decide

theorem ofDeclaration_declarator (h : x.Legible) :
    Passing.ofDeclaration (x.passing v).flat (declarator (x.passingTy v) (x.passingMark v ++ x.name) x ++ ";") =
      x.passing v := by
  have hbracket : '[' ∉ (x.passingMark v ++ x.name).toList :=
    ((wordChars_passingMark v x).append h.name).bracket_not_mem
  have hdims : (x.length.map fun n => toString n ++ "]").map (trimEnd "]") = x.length.map toString := by
    rw [Option.map_map]
    apply congrArg (Option.map · x.length)
    funext n
    exact trimEnd_append _ _
  simp only [Passing.ofDeclaration, trimEnd_append, cutAt_declarator, Option.getD_some, cutAt_declared hbracket, hdims]
  rfl

/-- What passes for a varying is read from its line. -/
theorem read?_passingLine (h : x.Legible) : Passing.read? v stage (passingLine v stage x) = some (x.passing v) := by
  unfold Passing.read? passingLine
  by_cases hflat : (x.passing v).flat = true
  · rw [if_pos hflat, behind?_append]
    dsimp only [Option.getD_some, Option.isSome_some]
    rw [behind?_append, Option.map_some, ← hflat, ofDeclaration_declarator h]
  · have hword : firstWord (passingWord v stage ++ " " ++
        (declarator (x.passingTy v) (x.passingMark v ++ x.name) x ++ ";")) ≠ "flat" := by
      rw [String.append_assoc, firstWord_append (wordChars_passingWord v stage).blank_not_mem]
      exact passingWord_ne (by decide) v stage
    rw [if_neg hflat, String.empty_append, show "flat " = "flat" ++ " " from rfl, behind?_word (by decide) hword]
    dsimp only [Option.getD_none, Option.isSome_none]
    rw [behind?_append, Option.map_some, ← eq_false_of_ne_true hflat, ofDeclaration_declarator h]

/-- The text that declares a varying for itself, where a carrier passes in its place. -/
def privateDecl (v : Version) (x : Varying) : String :=
  if (carrierOf? v x.ty).isSome then declarator x.ty (varyingMark ++ x.name) x ++ ";" ++ "\n" else ""

theorem varyingDecl_eq (v : Version) (stage : Stage) (x : Varying) :
    varyingDecl v stage (declarator x.ty (varyingMark ++ x.name) x) =
      privateDecl v x ++ (passingLine v stage x ++ "\n") := by
  rw [varyingDecl, carried?_declarator, ← passingDecl_eq, Varying.passingTy, Varying.passingMark, privateDecl]
  cases carrierOf? v x.ty with
  | none => exact (String.empty_append).symm
  | some c =>
    simp only [Option.map_some, Option.getD_some, Option.isSome_some, if_true, String.append_assoc, carrierName_mark,
      declarator]
    rfl

end Passing

end Glsl

end Shading
