import Shading.Compile

/-!
# What commands print

Errors, successes and the outcome of a run are one line each. A shader that is not compiled gets a
banner that names the file, and the errors with their excerpts below it.
-/

namespace Shading.Command

/-- An error that belongs to no source text. -/
def errorLine (message : String) : String := " error  " ++ message ++ "\n"

/-- What has become of a file. -/
def successLine (path message : String) : String := " ok  " ++ path ++ " " ++ message ++ "\n"

/-- How wide a banner is, unless its parts need more. -/
def bannerWidth : Nat := 40

/-- The line above the errors of a file. Texts count by their bytes; two dashes are always there. -/
def banner (kind path : String) : String :=
  let used := kind.utf8ByteSize + path.utf8ByteSize + 5
  let dashes := max (bannerWidth - used) 2
  "-- " ++ kind ++ " " ++ String.ofList (List.replicate dashes '-') ++ " " ++ path ++ "\n"

namespace CompileError

def kind : CompileError → String
  | .malformed _ => "Syntax"
  | .refused (.refused e) => e.cause.kind
  | .refused (.unopened _) => "Compile"

/-- The errors with their excerpts. -/
def report (src : Source) : CompileError → String
  | .malformed errors => Notice.report (errors.map SyntaxError.notice) src
  | .refused (.refused e) => e.notice.inContext src
  | .refused (.unopened s) => Fault.unopenedMessage s ++ "\n"

end CompileError

/-- What is printed about a shader that is not compiled. -/
def diagnostic (path : String) (src : Source) (e : CompileError) : String :=
  banner (CompileError.kind e ++ " Error") path ++ CompileError.report src e ++ "\n"

/-- The outcome of a run over several files. -/
def summary (files failed : Nat) : String :=
  if failed = 0 then "All done! " ++ toString files ++ " file(s) compiled\n"
  else "Oh no! " ++ toString failed ++ " of " ++ toString files ++ " file(s) failed\n"

end Shading.Command
