import Shading.Glsl.Reserved
import Shading.Text.Cut
import Shading.Ty

/-!
# Names in GLSL

Interface variables carry a mark for what they are in front of their name. A name of the shader that is
a reserved word, or begins like a builtin or an interface variable, gets an underscore in front, so it
never meets one of these.
-/

namespace Shading.Glsl

def attributeMark : String := "a_"
def uniformMark : String := "u_"
def varyingMark : String := "v_"
def outputMark : String := "o_"
def carrierMark : String := "i_"

/-- What a name of the shader must not begin with. -/
def reservedStarts : List String :=
  ["gl_", attributeMark, uniformMark, varyingMark, outputMark, carrierMark]

/-- The spelling of a function, struct, member, parameter or local. -/
def ident (x : Ident) : String :=
  if x.isEmpty then "_unnamed"
  else if Reserved.contains x || reservedStarts.any fun p => (Text.behind? p x).isSome then "_" ++ x
  else x

/-- The output of the fragment stage where it has a name of its own. -/
def colorOutput : String := outputMark ++ "color"

/-- The spelling of the variable that carries a varying of the given spelling between the stages. -/
def carrierName (varying : String) : String := carrierMark ++ Text.trimStart varyingMark varying

end Shading.Glsl
