import Shading.Source
import Shading.Ty

/-!
# Syntax trees

A shader as it is written: expressions, statements and declarations, each with the stretch of source it
was read from. Parentheses leave no trace, and an `else if` is an else-branch that holds one `if`.
-/

namespace Shading

inductive TyExpr where
  | keyword (ty : BasicTy) (span : Span)
  | array (elem : TyExpr) (len : Int) (span : Span)
  | named (name : Ident) (span : Span)
deriving DecidableEq, Inhabited

def TyExpr.span : TyExpr → Span
  | keyword _ s | array _ _ s | named _ s => s

inductive Expr where
  | cond (test yes no : Expr) (span : Span)
  | bin (op : BinOp) (left right : Expr) (span : Span)
  | un (op : UnOp) (operand : Expr) (span : Span)
  | index (base index : Expr) (span : Span)
  | member (base : Expr) (name : Ident) (span : Span)
  | call (name : Ident) (args : List Expr) (span : Span)
  | construct (ty : BasicTy) (args : List Expr) (span : Span)
  | var (name : Ident) (span : Span)
  | lit (value : Value) (span : Span)
deriving Inhabited

def Expr.span : Expr → Span
  | cond _ _ _ s | bin _ _ _ s | un _ _ s | index _ _ s | member _ _ s | call _ _ s
  | construct _ _ s | var _ s | lit _ s => s

mutual

inductive Stmt where
  | breakStmt (span : Span)
  | continueStmt (span : Span)
  | forStmt (name : Ident) (first bound : Expr) (step : Option Expr) (body : Block) (span : Span)
  | ifStmt (test : Expr) (yes : Block) (no : Option Block) (span : Span)
  | letStmt (name : Ident) (ty : Option TyExpr) (init : Option Expr) (span : Span)
  | returnStmt (value : Option Expr) (span : Span)
  | blockStmt (block : Block) (span : Span)
  | exprStmt (expr : Expr) (span : Span)

inductive Block where
  | mk (stmts : List Stmt) (span : Span)

end

instance : Inhabited Block := ⟨.mk [] .unset⟩
instance : Inhabited Stmt := ⟨.breakStmt .unset⟩

def Stmt.span : Stmt → Span
  | breakStmt s | continueStmt s | forStmt _ _ _ _ _ s | ifStmt _ _ _ s | letStmt _ _ _ s
  | returnStmt _ s | blockStmt _ s | exprStmt _ s => s

def Block.stmts : Block → List Stmt
  | mk stmts _ => stmts

def Block.span : Block → Span
  | mk _ s => s

/-- A name with its type: an interface variable, a parameter or a member. -/
structure TypedName where
  name : Ident
  ty : TyExpr
  span : Span
deriving DecidableEq, Inhabited

structure StructDecl where
  name : Ident
  members : List TypedName
  span : Span
deriving DecidableEq, Inhabited

/-- A function; without a result type it returns nothing. -/
structure FnDecl where
  name : Ident
  params : List TypedName
  result : Option TyExpr
  body : Block
  span : Span
deriving Inhabited

/-- A top-level declaration. A uniform may name the block it belongs to. -/
inductive Decl where
  | attributeVar (var : TypedName)
  | uniformVar (var : TypedName) (block : Option Ident)
  | varyingVar (var : TypedName)
  | struct (decl : StructDecl)
  | fn (decl : FnDecl)
deriving Inhabited

namespace Decl

def name : Decl → Ident
  | attributeVar v | uniformVar v _ | varyingVar v => v.name
  | struct d => d.name
  | fn d => d.name

def span : Decl → Span
  | attributeVar v | uniformVar v _ | varyingVar v => v.span
  | struct d => d.span
  | fn d => d.span

end Decl

/-- The block of the uniforms that name none. -/
def defaultBlock : Ident := "default"

end Shading
