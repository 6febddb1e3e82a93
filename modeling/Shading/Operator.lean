/-!
# Operators

The binary and unary operators of the language, with their spelling. A binary operator assigns,
combines truth values, compares, or computes; each of the four arithmetic operators also has an
updating form that stores its result in the left operand.
-/

namespace Shading

inductive Arith where
  | add | sub | mul | div
deriving DecidableEq, Inhabited

inductive Comparison where
  | lt | le | gt | ge
deriving DecidableEq, Inhabited

inductive BinOp where
  | assign
  | update (op : Arith)
  | or
  | and
  | eq
  | ne
  | compare (op : Comparison)
  | arith (op : Arith)
deriving DecidableEq, Inhabited

inductive UnOp where
  | not | neg
deriving DecidableEq, Inhabited

def Arith.symbol : Arith → String
  | .add => "+"
  | .sub => "-"
  | .mul => "*"
  | .div => "/"

def Comparison.symbol : Comparison → String
  | .lt => "<"
  | .le => "<="
  | .gt => ">"
  | .ge => ">="

namespace BinOp

def symbol : BinOp → String
  | assign => "="
  | update op => op.symbol ++ "="
  | or => "||"
  | and => "&&"
  | eq => "=="
  | ne => "!="
  | compare op => op.symbol
  | arith op => op.symbol

/-- The operator stores into its left operand. -/
def isAssignment : BinOp → Bool
  | assign | update _ => true
  | _ => false

def all : List BinOp :=
  [assign, update .add, update .sub, update .mul, update .div, or, and, eq, ne,
   compare .lt, compare .le, compare .gt, compare .ge,
   arith .add, arith .sub, arith .mul, arith .div]

/-- The spelling of the operator with the given code; a code of no operator gives a question mark. -/
def symbolOfCode (code : Nat) : String := (all[code]?).elim "?" symbol

def ofSymbol? (s : String) : Option BinOp := all.find? fun op => op.symbol == s

end BinOp

namespace UnOp

def symbol : UnOp → String
  | not => "!"
  | neg => "-"

def all : List UnOp := [not, neg]

/-- The spelling of the operator with the given code; a code of no operator gives a question mark. -/
def symbolOfCode (code : Nat) : String := (all[code]?).elim "?" symbol

def ofSymbol? (s : String) : Option UnOp := all.find? fun op => op.symbol == s

end UnOp

end Shading
