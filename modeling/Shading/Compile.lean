import Shading.Check.Program
import Shading.Code.Printer
import Shading.Glsl.Dialect
import Shading.Tree.Parser

/-!
# Compiling shaders

From a source text to the texts of both stages: the text is parsed, the shader is checked with the
builtin functions of the language and those that are added to them, and a dialect writes what is left.
-/

namespace Shading

/-- A compiled shader: its interface, what the function of each stage needs, and the texts. -/
structure Compiled where
  interface : Interface
  vertexDeps : Deps
  fragmentDeps : Deps
  vertexText : String
  fragmentText : String
deriving DecidableEq

def Program.write (d : Dialect) (p : Program) : Compiled :=
  ⟨p.interface, p.vertexDeps, p.fragmentDeps, d.stage p.vertex, d.stage p.fragment⟩

/-- Compiles a parsed shader, with builtin functions beside those of the language, and tells what
happened. -/
def emit (d : Dialect) (extra : Builtins) (decls : List Decl) : Except Fault Compiled × List Event :=
  let (result, events) := Program.check (Builtin.defaults ++ extra) d.sharesDecls decls
  (result.map (Program.write d), events)

inductive CompileError where
  | malformed (errors : List SyntaxError)
  | refused (fault : Fault)
deriving DecidableEq

namespace CompileError

/-- The beginning of messages about the form of a text. -/
def malformedStart : String := "parse error: "

/-- The beginning of messages about the meaning of a text. -/
def refusedStart : String := "emit error: "

end CompileError

/-- The end of a successful compilation, for the log. -/
def Compiled.event (c : Compiled) : Event :=
  .emitted c.interface.blocks.length c.vertexDeps.fns.names.length c.fragmentDeps.fns.names.length

/-- Compiles a source text to GLSL, and tells what happened. -/
def compile (options : Glsl.Options) (extra : Builtins) (src : Source) :
    Except CompileError Compiled × List Event :=
  match parse src with
  | .error errors => (.error (.malformed errors), [])
  | .ok decls =>
    let (result, events) := emit (Glsl.dialect options) extra decls
    match result with
    | .error fault => (.error (.refused fault), .parsed decls.length :: events)
    | .ok c => (.ok c, .parsed decls.length :: events ++ [c.event])

end Shading
