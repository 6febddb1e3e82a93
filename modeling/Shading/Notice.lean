import Shading.Source

/-!
# Notices

A notice is a message about a place of a source text, as a reader gets to see it: on one line behind
its place, or above the excerpt of the source.
-/

namespace Shading

/-- A message, the label it carries above an excerpt, and its place. -/
structure Notice where
  label : String
  text : String
  span : Span
deriving DecidableEq

namespace Notice

/-- The message behind its place, if it has one. -/
def line (n : Notice) : String :=
  if n.span.isUnset then n.text else n.span.place ++ ": " ++ n.text

/-- The message above the excerpt of its place; without an excerpt it is the message on one line. -/
def inContext (n : Notice) (src : Source) : String :=
  match n.span.excerpt? src with
  | none => n.line
  | some excerpt => n.label ++ ": " ++ n.text ++ "\n" ++ excerpt

/-- The first of several notices on one line, and how many more there are. -/
def summary : List Notice → String
  | [] => "no errors"
  | [n] => n.line
  | n :: rest => n.line ++ " (and " ++ toString rest.length ++ " more errors)"

/-- All notices with their excerpts. -/
def report (ns : List Notice) (src : Source) : String :=
  "\n".intercalate (ns.map fun n => n.inContext src)

end Notice

end Shading
