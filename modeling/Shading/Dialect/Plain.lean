import Shading.Dialect

/-!
# The plain dialect

A dialect that shows the parts of a shader as they are, for reading. Names are written unchanged and
say where they come from, and the lists of parameters and arguments can show what a function needs.
-/

namespace Shading.Plain

/-- What can be chosen about the plain texts. -/
structure Options where
  /-- The texts of both stages are put together. -/
  shared : Bool := false
  /-- Parameters and arguments are followed by the needs of the function. -/
  showDeps : Bool := false
deriving DecidableEq, Inhabited

/-- The needs of a function: functions, blocks, and the three flags. -/
def depsText (d : Deps) : String :=
  " ".intercalate d.fns.names ++ "; " ++ " ".intercalate d.blocks.names ++ "; "
    ++ " ".intercalate ([d.readsAttributes, d.readsVaryings, d.writesVaryings].map toString)

def list (o : Options) (deps : Deps) (items : List String) : String :=
  "(" ++ ", ".intercalate items
    ++ (if o.showDeps && !deps.isEmpty then " | " ++ depsText deps else "") ++ ")"

def dialect (o : Options) : Dialect where
  ident := id
  builtin := ("@" ++ ·)
  attributeVar := ("attr." ++ ·)
  uniformVar := fun block x => block ++ "." ++ x
  varyingVar := ("vary." ++ ·)
  params := list o
  args := list o
  keyword := BasicTy.name
  sharesDecls := o.shared
  prelude := fun stage => if o.shared then "" else "// " ++ stage.name ++ "\n"
  attributeDecl := fun d => "attribute " ++ d ++ ";\n"
  uniformBlock := fun block ds => "block " ++ block ++ " \x7b " ++ "; ".intercalate ds ++ " \x7d\n"
  varyingDecl := fun stage d => stage.name ++ " varying " ++ d ++ ";\n"
  entryPoint := fun stage f vs =>
    "main " ++ stage.name ++ " -> " ++ f ++ " [" ++ ", ".intercalate vs ++ "]\n"

end Shading.Plain
