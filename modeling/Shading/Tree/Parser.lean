import Shading.Notice
import Shading.Token.Lexer
import Shading.Tree
import Shading.Value.Literal

/-!
# Reading syntax trees

Declarations, statements and expressions are read from the tokens by descent through the grammar. The
operators bind, from weakest to strongest: assignment (to the right), `?:` (to the right), `||`, `&&`,
equality, comparison, sums, products (all to the left), the unary signs, and selection. The words
`from`, `to`, `step` and `in` are ordinary identifiers that mean something only where they are
expected. After an error reading goes on at the next word that starts a declaration, so that one
bad declaration gives one error.

Nested expressions and blocks are read by functions that count down. The count starts at the number of
tokens left; every step down has taken a token first, so the count never ends before the tokens.
-/

namespace Shading

/-- What the grammar wants at a place. -/
inductive Wanted where
  | declaration | type | arrayLength | expression
  | word (s : String)
  | token (k : Token.Kind)
deriving DecidableEq

def Wanted.text : Wanted → String
  | declaration => "declaration"
  | type => "type"
  | arrayLength => "array length"
  | expression => "expression"
  | word s => Text.quoted s
  | token k => k.name

/-- Why a text is no shader. -/
inductive SyntaxError.Cause where
  | unexpected (glyphs : List Text.Glyph)
  | wanted (what : Wanted) (found : Token.Kind)
  | literal (error : Value.LiteralError)
deriving DecidableEq

/-- An error in the form of a text, with its place. -/
structure SyntaxError where
  cause : SyntaxError.Cause
  span : Span
deriving DecidableEq

def SyntaxError.Cause.message : SyntaxError.Cause → String
  | unexpected gs => "unexpected character " ++ Text.Glyph.text gs
  | wanted what found => "expected " ++ what.text ++ ", got " ++ found.name
  | literal e => e.message

def SyntaxError.notice (e : SyntaxError) : Notice := ⟨"error", e.cause.message, e.span⟩

namespace Parser

/-- Where reading has got to: the last token taken and the tokens ahead, of which the last marks the
end. -/
structure Cursor where
  last : Token
  ahead : List Token
deriving Inhabited

end Parser

/-- A reader of tokens; its cursor stays where it was when an error is met. -/
abbrev Parser := ExceptT SyntaxError (StateM Parser.Cursor)

namespace Parser

/-- The token that stands behind the end of every text. -/
def endToken : Token := ⟨.eof, "", .first⟩

def Cursor.peek (c : Cursor) : Token := c.ahead.headD endToken

/-- The cursor behind the next token; it stays at the end. -/
def Cursor.advance (c : Cursor) : Cursor :=
  match c.ahead with
  | t :: ts => if t.kind = .eof then c else ⟨t, ts⟩
  | [] => c

/-- The operations on tokens of which the readers below are made. -/
class Tape (m : Type → Type) where
  /-- The next token. -/
  peek : m Token
  /-- Takes the next token. -/
  advance : m Token
  /-- The last token taken. -/
  latest : m Token
  /-- The number of tokens ahead. -/
  remaining : m Nat
  refuse {α : Type} : SyntaxError → m α
  /-- What a reader does whose count is spent. -/
  spent {α : Type} : m α → m α

export Tape (peek advance remaining)

instance : Tape Parser where
  peek := return (← get).peek
  advance := do
    modify Cursor.advance
    return (← get).last
  latest := return (← get).last
  remaining := return (← get).ahead.length
  refuse e := throw e
  spent m := m

section Readers

variable {m : Type → Type} [Monad m] [Tape m]

def failAt {α : Type} (t : Token) (cause : SyntaxError.Cause) : m α := Tape.refuse ⟨cause, t.span⟩

/-- The error that something else is wanted than the next token. -/
def expected {α : Type} (what : Wanted) : m α := do
  let t ← peek
  failAt t (.wanted what t.kind)

/-- Takes the next token if it has the given kind. -/
def accept (k : Token.Kind) : m Bool := do
  if (← peek).kind = k then
    let _ ← advance
    return true
  else return false

def expect (k : Token.Kind) : m Unit := do
  if ← accept k then return () else expected (.token k)

/-- Takes the next token if it is the given word. -/
def acceptWord (s : String) : m Bool := do
  let t ← peek
  if t.kind = .ident ∧ t.lexeme = s then
    let _ ← advance
    return true
  else return false

def expectWord (s : String) : m Unit := do
  if ← acceptWord s then return () else expected (.word s)

/-- The span from a position to the end of the last token taken. -/
def spanFrom (start : Position) : m Span := return ⟨start, (← Tape.latest).span.stop⟩

def ident : m Ident := do
  let t ← peek
  if t.kind = .ident then
    let _ ← advance
    return t.lexeme
  else expected (.token .ident)

/-- A part that may be left out, behind the token that announces it. -/
def announced {α : Type} (mark : m Bool) (part : m α) : m (Option α) := do
  if ← mark then some <$> part else return none

/-- Items separated by commas, up to a closing token that is left alone; a comma may stand behind the
last one. -/
def items {α : Type} (item : m α) (close : Token.Kind) : Nat → m (List α)
  | 0 => Tape.spent (return [])
  | n + 1 => do
    let k := (← peek).kind
    if k = close ∨ k = .eof then return []
    else
      let x ← item
      if ← accept .comma then return x :: (← items item close n) else return [x]

/-- The length of an array: an integer literal, with a minus sign in front or without. -/
def arrayLength : m Int := do
  let negative ← accept .minus
  let t ← peek
  if t.kind = .intLiteral then
    let _ ← advance
    match Value.parse t.lexeme with
    | .ok v => return if negative then -v.toInt32.toInt else v.toInt32.toInt
    | .error e => failAt t (.literal e)
  else expected .arrayLength

/-- The lengths behind a type; each makes an array of what stands before it. -/
def arraySuffixes (start : Position) : Nat → TyExpr → m TyExpr
  | 0, ty => Tape.spent (return ty)
  | n + 1, ty => do
    if ← accept .leftBracket then
      let len ← arrayLength
      expect .rightBracket
      arraySuffixes start n (.array ty len (← spanFrom start))
    else return ty

def tyExpr : m TyExpr := do
  let t ← peek
  let base : TyExpr ← match t.kind with
    | .tyKeyword => do
      let _ ← advance
      pure (.keyword ((BasicTy.ofName? t.lexeme).getD default) t.span)
    | .ident => do
      let _ ← advance
      pure (.named t.lexeme t.span)
    | _ => expected .type
  arraySuffixes t.start (← remaining) base

/-- A name, a colon and a type. -/
def typedName : m TypedName := do
  let start := (← peek).start
  let name ← ident
  expect .colon
  let ty ← tyExpr
  return ⟨name, ty, ← spanFrom start⟩

/-- The levels of the grammar at which an expression contains another. -/
inductive Level where
  | assignment | conditional | unary
deriving DecidableEq

def assignmentOp? : Token.Kind → Option BinOp
  | .equal => some .assign
  | .plusEqual => some (.update .add)
  | .minusEqual => some (.update .sub)
  | .starEqual => some (.update .mul)
  | .slashEqual => some (.update .div)
  | _ => none

def orOp? : Token.Kind → Option BinOp
  | .pipePipe => some .or
  | _ => none

def andOp? : Token.Kind → Option BinOp
  | .ampAmp => some .and
  | _ => none

def equalityOp? : Token.Kind → Option BinOp
  | .equalEqual => some .eq
  | .bangEqual => some .ne
  | _ => none

def comparisonOp? : Token.Kind → Option BinOp
  | .less => some (.compare .lt)
  | .lessEqual => some (.compare .le)
  | .greater => some (.compare .gt)
  | .greaterEqual => some (.compare .ge)
  | _ => none

def sumOp? : Token.Kind → Option BinOp
  | .plus => some (.arith .add)
  | .minus => some (.arith .sub)
  | _ => none

def productOp? : Token.Kind → Option BinOp
  | .star => some (.arith .mul)
  | .slash => some (.arith .div)
  | _ => none

def unaryOp? : Token.Kind → Option UnOp
  | .minus => some .neg
  | .bang => some .not
  | _ => none

/-- The binary operators of the chained levels, from the strongest to the weakest. -/
def chainLevels : List (Token.Kind → Option BinOp) :=
  [productOp?, sumOp?, comparisonOp?, equalityOp?, andOp?, orOp?]

/-- A binary expression; it spans its operands. -/
def binary (op : BinOp) (left right : Expr) : Expr :=
  .bin op left right (left.span.through right.span)

/-- Further operators of one level and their right operands, combined from the left. -/
def chainRest (operand : m Expr) (op? : Token.Kind → Option BinOp) : Nat → Expr → m Expr
  | 0, left => Tape.spent (return left)
  | n + 1, left => do
    match op? (← peek).kind with
    | none => return left
    | some op => do
      let _ ← advance
      let right ← operand
      chainRest operand op? n (binary op left right)

/-- Operands joined by the operators of one level, from the left. -/
def chain (operand : m Expr) (op? : Token.Kind → Option BinOp) : m Expr := do
  let left ← operand
  chainRest operand op? (← remaining) left

section Nested

-- `sub` reads the expressions inside the one being read.
variable (sub : Level → m Expr)

def args : m (List Expr) := do
  expect .leftParen
  let es ← items (sub .assignment) .rightParen (← remaining)
  expect .rightParen
  return es

def primary : m Expr := do
  let t ← peek
  match t.kind with
  | .intLiteral | .floatLiteral | .boolLiteral => do
    let _ ← advance
    match Value.parse t.lexeme with
    | .ok v => return .lit v t.span
    | .error e => failAt t (.literal e)
  | .ident => do
    let _ ← advance
    if (← peek).kind = .leftParen then
      let es ← args sub
      return .call t.lexeme es (← spanFrom t.start)
    else return .var t.lexeme t.span
  | .tyKeyword => do
    let _ ← advance
    let es ← args sub
    return .construct ((BasicTy.ofName? t.lexeme).getD default) es (← spanFrom t.start)
  | .leftParen => do
    let _ ← advance
    let e ← sub .assignment
    expect .rightParen
    return e
  | _ => expected .expression

def selections : Nat → Expr → m Expr
  | 0, e => Tape.spent (return e)
  | n + 1, e => do
    if ← accept .leftBracket then
      let i ← sub .assignment
      expect .rightBracket
      selections n (.index e i (← spanFrom e.span.start))
    else if ← accept .dot then
      let name ← ident
      selections n (.member e name (← spanFrom e.span.start))
    else return e

def selection : m Expr := do
  let e ← primary sub
  selections sub (← remaining) e

def unary : m Expr := do
  let t ← peek
  match unaryOp? t.kind with
  | some op => do
    let _ ← advance
    let e ← sub .unary
    return .un op e (← spanFrom t.start)
  | none => selection sub

def conditional : m Expr := do
  let test ← chainLevels.foldl chain (unary sub)
  if ← accept .question then
    let yes ← sub .assignment
    expect .colon
    let no ← sub .conditional
    return .cond test yes no (test.span.through no.span)
  else return test

def assignment : m Expr := do
  let left ← conditional sub
  match assignmentOp? (← peek).kind with
  | none => return left
  | some op => do
    let _ ← advance
    let right ← sub .assignment
    return binary op left right

end Nested

/-- An expression of the given level, nested at most as deep as the count says. -/
def exprAt : Nat → Level → m Expr
  | 0, _ => Tape.spent (expected .expression)
  | n + 1, .assignment => assignment (exprAt n)
  | n + 1, .conditional => conditional (exprAt n)
  | n + 1, .unary => unary (exprAt n)

def expression : m Expr := do exprAt (← remaining) .assignment

/-- An `if` with its branches. An `else if` becomes a branch of one statement. -/
def ifStmt (block : m Block) : Nat → m Stmt
  | 0 => Tape.spent (expected (.token .ifWord))
  | n + 1 => do
    let start := (← advance).start
    let test ← expression
    let yes ← block
    let no ← announced (accept .elseWord) do
      if (← peek).kind = .ifWord then
        let nested ← ifStmt block n
        return Block.mk [nested] nested.span
      else block
    return .ifStmt test yes no (← spanFrom start)

def letStmt : m Stmt := do
  let start := (← advance).start
  let name ← ident
  let ty ← announced (accept .colon) tyExpr
  let init ← announced (accept .equal) expression
  expect .semicolon
  return .letStmt name ty init (← spanFrom start)

def forStmt (block : m Block) : m Stmt := do
  let start := (← advance).start
  let name ← ident
  expectWord "from"
  let first ← expression
  expectWord "to"
  let bound ← expression
  let step ← announced (acceptWord "step") expression
  let body ← block
  return .forStmt name first bound step body (← spanFrom start)

def returnStmt : m Stmt := do
  let start := (← advance).start
  let value ← if (← peek).kind = .semicolon then pure none else some <$> expression
  expect .semicolon
  return .returnStmt value (← spanFrom start)

/-- A statement, given the reader of the blocks inside it. -/
def statement (block : m Block) : m Stmt := do
  let t ← peek
  match t.kind with
  | .leftBrace => do
    let b ← block
    return .blockStmt b b.span
  | .letWord => letStmt
  | .forWord => forStmt block
  | .ifWord => do ifStmt block (← remaining)
  | .returnWord => returnStmt
  | .breakWord => do
    let _ ← advance
    expect .semicolon
    return .breakStmt (← spanFrom t.start)
  | .continueWord => do
    let _ ← advance
    expect .semicolon
    return .continueStmt (← spanFrom t.start)
  | _ => do
    let e ← expression
    expect .semicolon
    return .exprStmt e (← spanFrom t.start)

/-- Statements up to a closing brace, which is left alone. -/
def statements (stmt : m Stmt) : Nat → m (List Stmt)
  | 0 => Tape.spent (return [])
  | n + 1 => do
    let k := (← peek).kind
    if k = .rightBrace ∨ k = .eof then return []
    else
      let s ← stmt
      return s :: (← statements stmt n)

/-- A block with blocks nested in it at most as deep as the count says. -/
def blockAt : Nat → m Block
  | 0 => Tape.spent (expected (.token .leftBrace))
  | n + 1 => do
    let start := (← peek).start
    expect .leftBrace
    let stmts ← statements (statement (blockAt n)) (← remaining)
    expect .rightBrace
    return .mk stmts (← spanFrom start)

def block : m Block := do blockAt (← remaining)

/-- A declared variable behind its first word, up to the type. -/
def declared : m (Ident × TyExpr) := do
  let v ← typedName
  return (v.name, v.ty)

def structDecl (start : Position) : m StructDecl := do
  let name ← ident
  expect .leftBrace
  let members ← items typedName .rightBrace (← remaining)
  expect .rightBrace
  return ⟨name, members, ← spanFrom start⟩

def fnDecl (start : Position) : m FnDecl := do
  let name ← ident
  expect .leftParen
  let params ← items typedName .rightParen (← remaining)
  expect .rightParen
  let result ← announced (accept .arrow) tyExpr
  let body ← block
  return ⟨name, params, result, body, ← spanFrom start⟩

def declaration : m Decl := do
  let t ← peek
  match t.kind with
  | .attributeWord => do
    let _ ← advance
    let (name, ty) ← declared
    expect .semicolon
    return .attributeVar ⟨name, ty, ← spanFrom t.start⟩
  | .uniformWord => do
    let _ ← advance
    let (name, ty) ← declared
    let owner ← announced (acceptWord "in") ident
    expect .semicolon
    return .uniformVar ⟨name, ty, ← spanFrom t.start⟩ owner
  | .varyingWord => do
    let _ ← advance
    let (name, ty) ← declared
    expect .semicolon
    return .varyingVar ⟨name, ty, ← spanFrom t.start⟩
  | .structWord => do
    let _ ← advance
    return .struct (← structDecl t.start)
  | .fnWord => do
    let _ ← advance
    return .fn (← fnDecl t.start)
  | _ => expected .declaration

end Readers

/-- The cursor at the next word that starts a declaration, or at the end, when `last` was taken before
the given tokens. -/
def skipToDecl (last : Token) : List Token → Cursor
  | t :: ts => if t.kind.startsDecl ∨ t.kind = .eof then ⟨last, t :: ts⟩ else skipToDecl t ts
  | [] => ⟨last, []⟩

/-- The cursor at which reading goes on after a declaration that began at `start` has failed at `c`; a
declaration of which nothing was taken loses its first token. -/
def Cursor.resume (start c : Cursor) : Cursor :=
  let c := if c.ahead.length = start.ahead.length then c.advance else c
  skipToDecl c.last c.ahead

def declarations : Nat → Cursor → List Decl × List SyntaxError
  | 0, _ => ([], [])
  | n + 1, c =>
    if c.peek.kind = .eof then ([], [])
    else
      match ((declaration : Parser Decl).run).run c with
      | (.ok d, c') =>
        let (ds, es) := declarations n c'
        (d :: ds, es)
      | (.error e, c') =>
        let (ds, es) := declarations n (Cursor.resume c c')
        (ds, e :: es)

end Parser

/-- The declarations that a list of tokens spells, or all errors in it. The last token marks the end. -/
def parseTokens (tokens : List Token) : Except (List SyntaxError) (List Decl) :=
  match Parser.declarations tokens.length ⟨Parser.endToken, tokens⟩ with
  | (ds, []) => .ok ds
  | (_, es) => .error es

def SyntaxError.ofUnexpected (u : Token.Unexpected) : SyntaxError := ⟨.unexpected u.glyphs, u.span⟩

/-- The shader a source text spells, or all errors in it. -/
def parse (src : Source) : Except (List SyntaxError) (List Decl) :=
  match Token.read src with
  | .ok tokens => parseTokens tokens
  | .error u => .error [.ofUnexpected u]

end Shading
