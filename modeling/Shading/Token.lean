import Shading.Source
import Shading.Ty

/-!
# Tokens

The words of a source text. A token has a kind, the text it was read from and the position of its
first character. Kinds are named in messages: symbols and keywords by their spelling, the others by
what they are.
-/

namespace Shading

namespace Token

/-- The kind of a token. `bad` marks characters that start no token. -/
inductive Kind where
  | eof | bad
  | ident | intLiteral | floatLiteral | boolLiteral
  | plus | minus | star | slash | bang | equal | less | greater
  | dot | comma | colon | semicolon | question | arrow
  | equalEqual | bangEqual | lessEqual | greaterEqual | ampAmp | pipePipe
  | plusEqual | minusEqual | starEqual | slashEqual
  | leftParen | rightParen | leftBrace | rightBrace | leftBracket | rightBracket
  | attributeWord | breakWord | continueWord | elseWord | fnWord | forWord | ifWord | letWord
  | returnWord | structWord | uniformWord | varyingWord
  | tyKeyword
deriving DecidableEq, Inhabited

namespace Kind

/-- What messages call a token of this kind. -/
def name : Kind → String
  | eof => "EOF"
  | bad => "Error"
  | ident => "identifier"
  | intLiteral => "int literal"
  | floatLiteral => "float literal"
  | boolLiteral => "bool literal"
  | plus => "+"
  | minus => "-"
  | star => "*"
  | slash => "/"
  | bang => "!"
  | equal => "="
  | less => "<"
  | greater => ">"
  | dot => "."
  | comma => ","
  | colon => ":"
  | semicolon => ";"
  | question => "?"
  | arrow => "->"
  | equalEqual => "=="
  | bangEqual => "!="
  | lessEqual => "<="
  | greaterEqual => ">="
  | ampAmp => "&&"
  | pipePipe => "||"
  | plusEqual => "+="
  | minusEqual => "-="
  | starEqual => "*="
  | slashEqual => "/="
  | leftParen => "("
  | rightParen => ")"
  | leftBrace => "\x7b"
  | rightBrace => "\x7d"
  | leftBracket => "["
  | rightBracket => "]"
  | attributeWord => "attribute"
  | breakWord => "break"
  | continueWord => "continue"
  | elseWord => "else"
  | fnWord => "fn"
  | forWord => "for"
  | ifWord => "if"
  | letWord => "let"
  | returnWord => "return"
  | structWord => "struct"
  | uniformWord => "uniform"
  | varyingWord => "varying"
  | tyKeyword => "type"

def all : List Kind :=
  [eof, bad, ident, intLiteral, floatLiteral, boolLiteral,
   plus, minus, star, slash, bang, equal, less, greater, dot, comma, colon, semicolon, question,
   arrow, equalEqual, bangEqual, lessEqual, greaterEqual, ampAmp, pipePipe,
   plusEqual, minusEqual, starEqual, slashEqual,
   leftParen, rightParen, leftBrace, rightBrace, leftBracket, rightBracket,
   attributeWord, breakWord, continueWord, elseWord, fnWord, forWord, ifWord, letWord,
   returnWord, structWord, uniformWord, varyingWord, tyKeyword]

def nameOfCode (code : Nat) : String :=
  (all[code]?).elim ("token(" ++ toString code ++ ")") name

/-- The words with a meaning of their own. -/
def keywords : List (String × Kind) :=
  [("attribute", attributeWord), ("break", breakWord), ("continue", continueWord),
   ("else", elseWord), ("false", boolLiteral), ("fn", fnWord), ("for", forWord), ("if", ifWord),
   ("let", letWord), ("return", returnWord), ("struct", structWord), ("true", boolLiteral),
   ("uniform", uniformWord), ("varying", varyingWord)]

/-- The kind of a word made of letters, digits and underscores. -/
def ofWord (s : String) : Kind :=
  match keywords.lookup s with
  | some k => k
  | none => if (BasicTy.ofName? s).isSome then tyKeyword else ident

def startsDecl : Kind → Bool
  | attributeWord | uniformWord | varyingWord | structWord | fnWord => true
  | _ => false

end Kind

end Token

/-- A token: its kind, its text and where it starts. -/
structure Token where
  kind : Token.Kind
  lexeme : String
  start : Position
deriving DecidableEq, Inhabited

namespace Token

/-- The stretch a token covers. Its end is the start moved on by the number of bytes of the text, in
the column as in the offset. -/
def span (t : Token) : Span :=
  let n : Int := t.lexeme.utf8ByteSize
  ⟨t.start, { t.start with column := t.start.column + n, offset := t.start.offset + n }⟩

end Token

end Shading
