import Shading.Code

/-!
# Dialects

How emitted code is spelled. A dialect decides the spelling of names, type keywords, parameter and
argument lists and interface declarations; everything else is written the same way for all of them.
Declarators reach a dialect as text in the form `vec2 uv` or `float weights[4]`.
-/

namespace Shading

/-- The spelling of a target language. -/
structure Dialect where
  /-- A name of a function, struct, member, parameter or local. -/
  ident : Ident → String
  builtin : Ident → String
  attributeVar : Ident → String
  /-- A uniform variable, by its block and its name. -/
  uniformVar : Ident → Ident → String
  varyingVar : Ident → String
  /-- The parameter list of a function with the given needs. -/
  params : Deps → List String → String
  /-- The argument list of a call of a function with the given needs. -/
  args : Deps → List String → String
  keyword : BasicTy → String
  /-- Both stages are put into one text, so the second must not repeat what the first declares. -/
  sharesDecls : Bool
  /-- What stands before all declarations of a stage. -/
  prelude : Stage → String
  attributeDecl : String → String
  uniformBlock : Ident → List String → String
  varyingDecl : Stage → String → String
  /-- The wrapper that calls the function of a stage; it is given the declarators of all varyings. -/
  entryPoint : Stage → Ident → List String → String

end Shading
