import Shading.Dialect
import Shading.Text.Cut

/-!
# The text of emitted code

Operators are written with parentheses around each application, so that the text needs no rules of
precedence; an assignment that is a statement of its own goes without them. Blocks are indented by
four blanks. The text of a stage consists of sections with an empty line between them.
-/

namespace Shading

/-- The lengths of an array type from the outside in, and the type of its innermost elements. -/
def Ty.dimensions : Ty → List Int × Ty
  | .array elem len => let (dims, base) := elem.dimensions; (len :: dims, base)
  | t => ([], t)

namespace Dialect

/-- A type that stands by itself, such as the type of a result. -/
def ty (d : Dialect) : Ty → String
  | .void => "void"
  | .basic b => d.keyword b
  | .struct s => d.ident s
  | .array elem len => d.ty elem ++ "[" ++ toString len ++ "]"

/-- The declaration of a name, with the lengths of an array behind it. -/
def declarator (d : Dialect) (t : Ty) (name : String) : String :=
  let (dims, base) := t.dimensions
  d.ty base ++ " " ++ name ++ String.join (dims.map fun n => "[" ++ toString n ++ "]")

mutual

def term (d : Dialect) : Term → String
  | .const v => v.text
  | .cond c t f => "(" ++ d.term c ++ " ? " ++ d.term t ++ " : " ++ d.term f ++ ")"
  | .bin op l r => "(" ++ d.term l ++ " " ++ op.symbol ++ " " ++ d.term r ++ ")"
  | .un op e => "(" ++ op.symbol ++ d.term e ++ ")"
  | .index b i => d.term b ++ "[" ++ d.term i ++ "]"
  | .member b m => d.term b ++ "." ++ d.ident m
  | .swizzle b letters => d.term b ++ "." ++ letters
  | .call f deps as => d.ident f ++ d.args deps (d.terms as)
  | .builtin f as => d.builtin f ++ d.args .none (d.terms as)
  | .makeStruct s as => d.ident s ++ d.args .none (d.terms as)
  | .construct t as => d.keyword t ++ d.args .none (d.terms as)
  | .attributeVar x => d.attributeVar x
  | .uniformVar b x => d.uniformVar b x
  | .varyingVar x => d.varyingVar x
  | .localVar x => d.ident x

def terms (d : Dialect) : List Term → List String
  | [] => []
  | t :: ts => d.term t :: d.terms ts

end

/-- The text of an assignment without parentheses around it. -/
def assignment (d : Dialect) (op : BinOp) (l r : Term) : String :=
  d.term l ++ " " ++ op.symbol ++ " " ++ d.term r

end Dialect

/-- The last character of a text closes the outermost of the groups that are open before it, and no
earlier one does. -/
def closesAtEnd : (depth : Nat) → List Char → Bool
  | _, [] => false
  | depth, c :: cs =>
    if c = '(' then closesAtEnd (depth + 1) cs
    else if c = ')' then
      match depth with
      | 0 => false
      | 1 => cs.isEmpty
      | n + 2 => closesAtEnd (n + 1) cs
    else if depth = 0 then false else closesAtEnd depth cs

/-- The text between parentheses, unless it is one parenthesized group already. -/
def parenthesize (s : String) : String :=
  match s.toList with
  | '(' :: cs => if closesAtEnd 1 cs then s else "(" ++ s ++ ")"
  | _ => "(" ++ s ++ ")"

def indent : String := "    "

/-- Each line of a text, indented, with its newline. -/
def indentLines (s : String) : String :=
  String.join ((Text.lines s).map fun line => indent ++ line ++ "\n")

/-- Texts between braces, each on lines of its own. -/
def braced (texts : List String) : String :=
  "\x7b\n" ++ String.join (texts.map indentLines) ++ "\x7d"

/-- The head of a loop over an integer variable. -/
def loopHead (x : String) (first bound step : Int32) : String :=
  let down := step < 0
  let change :=
    if step = -1 then x ++ "--"
    else if down then x ++ " -= " ++ toString (-step.toInt)
    else if step = 1 then x ++ "++"
    else x ++ " += " ++ toString step.toInt
  "for (int " ++ x ++ " = " ++ toString first.toInt ++ "; " ++ x ++ (if down then " > " else " < ")
    ++ toString bound.toInt ++ "; " ++ change ++ ") "

namespace Dialect

mutual

def code (d : Dialect) : Code → String
  | .exitLoop => "break;"
  | .nextTurn => "continue;"
  | .assign op l r => d.assignment op l r ++ ";"
  | .eval t => d.term t ++ ";"
  | .declare x ty none => d.declarator ty (d.ident x) ++ ";"
  | .declare x ty (some t) => d.declarator ty (d.ident x) ++ " = " ++ d.term t ++ ";"
  | .ret none => "return;"
  | .ret (some t) => "return " ++ d.term t ++ ";"
  | .block body => braced (d.codes body)
  | .loop x first bound step body => loopHead (d.ident x) first bound step ++ braced (d.codes body)
  | .branch test yes no =>
    "if " ++ parenthesize (d.term test) ++ " " ++ braced (d.codes yes) ++ d.elsePart no

/-- The text behind the first block of a branch. -/
def elsePart (d : Dialect) : Option Code → String
  | none => ""
  | some c => " else " ++ d.code c

def codes (d : Dialect) : List Code → List String
  | [] => []
  | c :: cs => d.code c :: d.codes cs

end

def fn (d : Dialect) (f : FnDef) : String :=
  d.ty f.result ++ " " ++ d.ident f.name
    ++ d.params f.deps (f.params.map fun (x, t) => d.declarator t (d.ident x))
    ++ " " ++ braced (d.codes f.body) ++ "\n"

def struct (d : Dialect) (s : StructDef) : String :=
  "struct " ++ d.ident s.name ++ " \x7b\n"
    ++ String.join (s.members.map fun (m, t) => indent ++ d.declarator t (d.ident m) ++ ";\n")
    ++ "\x7d;\n"

def attributeDeclarator (d : Dialect) (v : Ident × Ty) : String := d.declarator v.2 (d.attributeVar v.1)

def uniformDeclarator (d : Dialect) (block : Ident) (v : Ident × Ty) : String :=
  d.declarator v.2 (d.uniformVar block v.1)

def varyingDeclarator (d : Dialect) (v : Ident × Ty) : String := d.declarator v.2 (d.varyingVar v.1)

/-- The sections of a stage's text, some of which may be empty. -/
def sections (d : Dialect) (u : StageUnit) : List String :=
  [ d.prelude u.stage,
    "\n".intercalate (u.structs.map d.struct),
    String.join (u.blocks.map fun b => d.uniformBlock b.name (b.vars.map (d.uniformDeclarator b.name))),
    String.join (u.attributes.map fun v => d.attributeDecl (d.attributeDeclarator v)),
    String.join (u.varyings.map fun v => d.varyingDecl u.stage (d.varyingDeclarator v)),
    "\n".intercalate (u.fns.map d.fn),
    d.entryPoint u.stage u.stage.entryPoint (u.interfaceVaryings.map d.varyingDeclarator) ]

def stage (d : Dialect) (u : StageUnit) : String :=
  "\n".intercalate ((d.sections u).filter fun s => !s.isEmpty)

end Dialect

end Shading
