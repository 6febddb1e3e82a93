import Shading.Dialect
import Shading.Glsl.Names
import Shading.Glsl.Version
import Shading.Tree

/-!
# The GLSL dialect

Each stage is a text of its own. A varying whose type cannot pass from one stage to the next is a
private variable of each stage, and a *carrier* of another type passes in its place: the vertex stage
fills it when its function is done, and the fragment stage reads it before its function is called.
-/

namespace Shading.Glsl

/-- What can be chosen about the GLSL texts. -/
structure Options where
  version : Version := .standard
  /-- Each text has a comment that names the stage. -/
  debugInfo : Bool := false
  /-- Embedded versions compute in high precision. -/
  highPrecision : Bool := false
deriving DecidableEq, Inhabited

namespace Options

/-- The options where nothing is chosen. -/
def standard : Options := { highPrecision := true }

/-- The options with a version that exists: a major number of zero stands for the standard version. -/
def settled (o : Options) : Options :=
  if o.version.major = 0 then { o with version := .standard } else o

/-- The version that the texts are written in. -/
def target (o : Options) : Version := o.settled.version

end Options

/-- Texts in parentheses, with commas between them. -/
def list (items : List String) : String := "(" ++ ", ".intercalate items ++ ")"

def prelude (o : Options) (stage : Stage) : String :=
  let precision := if o.highPrecision then "highp" else "mediump"
  "#version " ++ o.version.text ++ "\n"
    ++ (if o.debugInfo then "// " ++ stage.name ++ " shader\n" else "")
    ++ (if o.version.es then
        "precision " ++ precision ++ " float;\nprecision " ++ precision ++ " int;\n" else "")

def attributeDecl (v : Version) (declarator : String) : String :=
  (if v.hasInOut then "in " else "attribute ") ++ declarator ++ ";\n"

/-- The uniforms of the default block stand by themselves; other blocks are written where there are
blocks. -/
def uniformBlock (v : Version) (block : Ident) (declarators : List String) : String :=
  if block = defaultBlock ∨ !v.hasUniformBlocks then
    String.join (declarators.map fun d => "uniform " ++ d ++ ";\n")
  else
    "layout(std140) uniform " ++ ident block ++ " \x7b\n"
      ++ String.join (declarators.map fun d => "    " ++ d ++ ";\n") ++ "\x7d;\n"

/-- The type that carries a varying, for the types that need one. -/
def carrierTy? (v : Version) (ty : String) : Option String :=
  if v.hasInOut then
    [("bool", "int"), ("bvec2", "ivec2"), ("bvec3", "ivec3"), ("bvec4", "ivec4")].lookup ty
  else
    [("bool", "float"), ("bvec2", "vec2"), ("bvec3", "vec3"), ("bvec4", "vec4"),
     ("int", "float"), ("ivec2", "vec2"), ("ivec3", "vec3"), ("ivec4", "vec4")].lookup ty

/-- A varying that is carried: its type, its declared name and the type of its carrier. -/
structure Carried where
  ty : String
  declared : String
  carrier : String
deriving DecidableEq

/-- The varying of a declarator, if it is carried. -/
def carried? (v : Version) (declarator : String) : Option Carried :=
  let (ty, rest) := Text.cutAt ' ' declarator
  (carrierTy? v ty).map fun carrier => ⟨ty, rest.getD "", carrier⟩

/-- A declarator of an integer type, which passes without interpolation. -/
def isIntegral (declarator : String) : Bool :=
  ["int", "ivec2", "ivec3", "ivec4"].contains (Text.cutAt ' ' declarator).1

/-- The declaration of a variable that passes between the stages. -/
def passingDecl (v : Version) (stage : Stage) (declarator : String) : String :=
  if v.hasInOut then
    let direction := match stage with
      | .vertex => "out "
      | .fragment => "in "
    (if isIntegral declarator then "flat " else "") ++ direction ++ declarator ++ ";\n"
  else "varying " ++ declarator ++ ";\n"

def varyingDecl (v : Version) (stage : Stage) (declarator : String) : String :=
  match carried? v declarator with
  | some c => declarator ++ ";\n" ++ passingDecl v stage (c.carrier ++ " " ++ carrierName c.declared)
  | none => passingDecl v stage declarator

/-- The numbers in brackets behind the elements of an array, or nothing for a single value. -/
def elementIndices : Option String → List String
  | none => [""]
  | some dims =>
    let len := ((Number.decimal? (Text.trimEnd "]" dims)).getD 0).toNat
    (List.range len).map fun i => "[" ++ toString i ++ "]"

/-- The assignments between a carried varying and its carrier, one for each element. -/
def carrierCopies (stage : Stage) (c : Carried) : String :=
  let (name, dims) := Text.cutAt '[' c.declared
  let carrier := carrierName name
  let copy (i : String) : String := match stage with
    | .vertex => "    " ++ carrier ++ i ++ " = " ++ c.carrier ++ "(" ++ name ++ i ++ ");\n"
    | .fragment => "    " ++ name ++ i ++ " = " ++ c.ty ++ "(" ++ carrier ++ i ++ ");\n"
  String.join ((elementIndices dims).map copy)

def entryPoint (v : Version) (stage : Stage) (f : Ident) (varyings : List String) : String :=
  let copies := String.join ((varyings.filterMap (carried? v)).map (carrierCopies stage))
  let call (target : String) : String := "    " ++ target ++ " = " ++ ident f ++ "();\n"
  match stage with
  | .vertex => "void main() \x7b\n" ++ call "gl_Position" ++ copies ++ "\x7d\n"
  | .fragment =>
    if v.hasInOut then
      "out vec4 " ++ colorOutput ++ ";\n\nvoid main() \x7b\n" ++ copies ++ call colorOutput ++ "\x7d\n"
    else "void main() \x7b\n" ++ copies ++ call "gl_FragColor" ++ "\x7d\n"

def dialect (options : Options) : Dialect :=
  let o := options.settled
  { ident := ident
    builtin := id
    attributeVar := (attributeMark ++ ·)
    uniformVar := fun _ x => uniformMark ++ x
    varyingVar := (varyingMark ++ ·)
    params := fun _ => list
    args := fun _ => list
    keyword := BasicTy.name
    sharesDecls := false
    prelude := prelude o
    attributeDecl := attributeDecl o.version
    uniformBlock := uniformBlock o.version
    varyingDecl := varyingDecl o.version
    entryPoint := entryPoint o.version }

end Shading.Glsl
