import Shading.Notice
import Shading.Ty

/-!
# Why a shader is refused

The causes for which a well-formed text is not a valid shader, each with what its message speaks of. A
cause has a kind, whose name labels the message above an excerpt.
-/

namespace Shading

/-- What is wrong with a shader. -/
inductive Cause where
  | badBinary (op : String) (left right : Ty)
  | badIndex (base index : Ty)
  | badUnary (op : String) (operand : Ty)
  | assignsAttribute (x : Ident)
  | assignsImmutable (x : Ident)
  | assignsUniform (x : Ident)
  | badConstructor (ty : Ty) (args : List Ty)
  | noOverload (f : Ident) (args : List Ty)
  | untypedVariable (x : Ident)
  | notConstant
  | readsAndWritesVaryings (f : Ident)
  | readsVaryings (f : Ident)
  | writesVaryings (f : Ident)
  | cyclicFn (f : Ident) (path : List Ident)
  | redefined (x : Ident)
  | notFunction (x : Ident)
  | notStruct (x : Ident)
  | notVariable (x : Ident)
  | undefined (x : Ident)
  | badArrayLength (len : Int)
  | strayBreak
  | strayContinue
  | notAssignable
  | badAttributeTy (x : Ident) (ty : Ty)
  | badVaryingTy (x : Ident) (ty : Ty)
  | noMember (ty : Ty) (m : Ident)
  | badResult (f : Ident) (expected actual : Ty)
  | badArgument (f : Ident) (index : Int) (expected actual : Ty)
  | mismatch (expected actual : Ty)
  | missingFn (f : Ident)
  | missingResult (ty : Ty)
  | stepNotNegative (x : Ident) (step : Int)
  | stepZero (x : Ident)
  | stepNotPositive (x : Ident) (step : Int)
  | cyclicStruct (s : Ident) (path : List Ident)
  | tooFewArgs (f : Ident) (want got : Int)
  | tooFewComponents (ty : Ty) (want got : Int)
  | tooManyArgs (f : Ident) (want got : Int)
  | tooManyComponents (ty : Ty) (want got : Int)
  | hasParams (f : Ident) (got : Int)
deriving DecidableEq

namespace Cause

/-- The names of the kinds, in the order of their codes. -/
def kindNames : List String :=
  ["CannotApplyBinOp", "CannotApplyIndexOp", "CannotApplyUnOp", "CannotAssignToAttributeVar",
   "CannotAssignToImmutableVar", "CannotAssignToUniformVar", "CannotCallCons", "CannotCallFn",
   "CannotInferTyForVar", "ExprMustBeConstant", "FnCannotReadFromAndWriteToVaryings",
   "FnCannotReadFromVaryings", "FnCannotWriteToVaryings", "FnHasCyclicDepChain",
   "IdentCannotBeRedefined", "IdentIsNotAFn", "IdentIsNotAStruct", "IdentIsNotAVar",
   "IdentIsUndefined", "InvalidArrayLen", "InvalidBreakStmt", "InvalidContinueStmt",
   "InvalidLeftHandSide", "InvalidTyForAttributeVar", "InvalidTyForVaryingVar", "MemberIsUndefined",
   "MismatchedReturnTyForFn", "MismatchedTyForArg", "MismatchedTyForExpr", "MissingFn",
   "MissingReturnExpr", "StepMustBeNegative", "StepMustBeNonZero", "StepMustBePositive",
   "StructHasCyclicDepChain", "TooFewArgsForCall", "TooFewCompsForConsCall", "TooManyArgsForCall",
   "TooManyCompsForConsCall", "TooManyParamsForFn"]

def kindOfCode (code : Nat) : String := (kindNames[code]?).getD "Unknown"

def code : Cause → Nat
  | badBinary .. => 0
  | badIndex .. => 1
  | badUnary .. => 2
  | assignsAttribute _ => 3
  | assignsImmutable _ => 4
  | assignsUniform _ => 5
  | badConstructor .. => 6
  | noOverload .. => 7
  | untypedVariable _ => 8
  | notConstant => 9
  | readsAndWritesVaryings _ => 10
  | readsVaryings _ => 11
  | writesVaryings _ => 12
  | cyclicFn .. => 13
  | redefined _ => 14
  | notFunction _ => 15
  | notStruct _ => 16
  | notVariable _ => 17
  | undefined _ => 18
  | badArrayLength _ => 19
  | strayBreak => 20
  | strayContinue => 21
  | notAssignable => 22
  | badAttributeTy .. => 23
  | badVaryingTy .. => 24
  | noMember .. => 25
  | badResult .. => 26
  | badArgument .. => 27
  | mismatch .. => 28
  | missingFn _ => 29
  | missingResult _ => 30
  | stepNotNegative .. => 31
  | stepZero _ => 32
  | stepNotPositive .. => 33
  | cyclicStruct .. => 34
  | tooFewArgs .. => 35
  | tooFewComponents .. => 36
  | tooManyArgs .. => 37
  | tooManyComponents .. => 38
  | hasParams .. => 39

def kind (c : Cause) : String := kindOfCode c.code

def listTys (tys : List Ty) : String := ", ".intercalate (tys.map Ty.name)

def listPath (path : List Ident) : String := " -> ".intercalate path

/-- What was expected and what was found, in numbers. -/
def counts (want got : Int) : String :=
  ": expected " ++ toString want ++ ", found " ++ toString got

def message : Cause → String
  | badBinary op l r => "cannot apply binary operator " ++ op ++ " to " ++ l.name ++ " and " ++ r.name
  | badIndex b i => "cannot index " ++ b.name ++ " with " ++ i.name
  | badUnary op t => "cannot apply unary operator " ++ op ++ " to " ++ t.name
  | assignsAttribute x => "cannot assign to attribute variable " ++ x
  | assignsImmutable x => "cannot assign to immutable variable " ++ x
  | assignsUniform x => "cannot assign to uniform variable " ++ x
  | badConstructor t args => "cannot construct " ++ t.name ++ " from (" ++ listTys args ++ ")"
  | noOverload f args => "no overload of " ++ f ++ " takes (" ++ listTys args ++ ")"
  | untypedVariable x => "cannot infer type for variable " ++ x
  | notConstant => "expression must be a compile-time constant"
  | readsAndWritesVaryings f => "function " ++ f ++ " cannot both read from and write to varyings"
  | readsVaryings f => "function " ++ f ++ " cannot read from varyings"
  | writesVaryings f => "function " ++ f ++ " cannot write to varyings"
  | cyclicFn f path => "function " ++ f ++ " has a cyclic dependency chain: " ++ listPath path
  | redefined x => "identifier " ++ x ++ " cannot be redefined"
  | notFunction x => "identifier " ++ x ++ " is not a function"
  | notStruct x => "identifier " ++ x ++ " is not a struct"
  | notVariable x => "identifier " ++ x ++ " is not a variable"
  | undefined x => "identifier " ++ x ++ " is undefined"
  | badArrayLength n => "invalid array length " ++ toString n
  | strayBreak => "break statement outside of a for loop"
  | strayContinue => "continue statement outside of a for loop"
  | notAssignable => "invalid left-hand side of assignment"
  | badAttributeTy x t => "invalid type " ++ t.name ++ " for attribute variable " ++ x
  | badVaryingTy x t => "invalid type " ++ t.name ++ " for varying variable " ++ x
  | noMember t m => "type " ++ t.name ++ " has no member " ++ m
  | badResult f e a => "function " ++ f ++ " must return " ++ e.name ++ ", found " ++ a.name
  | badArgument f i e a =>
    "argument " ++ toString (i + 1) ++ " of " ++ f ++ " has type " ++ a.name ++ ", expected " ++ e.name
  | mismatch e a => "expected type " ++ e.name ++ ", found " ++ a.name
  | missingFn f => "missing function " ++ f
  | missingResult t => "missing return expression of type " ++ t.name
  | stepNotNegative x n => "step of loop over " ++ x ++ " must be negative, found " ++ toString n
  | stepZero x => "step of loop over " ++ x ++ " must be non-zero"
  | stepNotPositive x n => "step of loop over " ++ x ++ " must be positive, found " ++ toString n
  | cyclicStruct s path => "struct " ++ s ++ " has a cyclic dependency chain: " ++ listPath path
  | tooFewArgs f w g => "too few arguments for call to " ++ f ++ counts w g
  | tooFewComponents t w g => "too few components for " ++ t.name ++ " constructor" ++ counts w g
  | tooManyArgs f w g => "too many arguments for call to " ++ f ++ counts w g
  | tooManyComponents t w g => "too many components for " ++ t.name ++ " constructor" ++ counts w g
  | hasParams f g => "function " ++ f ++ " must take no parameters, found " ++ toString g

/-- The name, the number and the counts that a cause speaks of, where it speaks of any. -/
structure Facts where
  name : Ident := ""
  index : Int := 0
  want : Int := 0
  got : Int := 0
  path : List Ident := []

def facts : Cause → Facts
  | assignsAttribute x | assignsImmutable x | assignsUniform x | noOverload x _ | untypedVariable x
  | readsAndWritesVaryings x | readsVaryings x | writesVaryings x | redefined x | notFunction x
  | notStruct x | notVariable x | undefined x | badAttributeTy x _ | badVaryingTy x _
  | noMember _ x | badResult x _ _ | missingFn x | stepZero x => { name := x }
  | cyclicFn x path | cyclicStruct x path => { name := x, path }
  | badArrayLength n => { index := n }
  | badArgument x i _ _ | stepNotNegative x i | stepNotPositive x i => { name := x, index := i }
  | tooFewArgs x want got | tooManyArgs x want got => { name := x, want, got }
  | tooFewComponents _ want got | tooManyComponents _ want got => { want, got }
  | hasParams x got => { name := x, got }
  | badBinary .. | badIndex .. | badUnary .. | badConstructor .. | notConstant | strayBreak
  | strayContinue | notAssignable | mismatch .. | missingResult _ => {}

/-- The notice of a cause of the given kind at a place. -/
def noticeOf (kind text : String) (span : Span) : Notice := ⟨"error[" ++ kind ++ "]", text, span⟩

end Cause

/-- An error in the meaning of a shader, with its place. -/
structure SemanticError where
  cause : Cause
  span : Span
deriving DecidableEq

def SemanticError.notice (e : SemanticError) : Notice :=
  Cause.noticeOf e.cause.kind e.cause.message e.span

/-- Why checking stops: the shader is refused, or a builtin function has brought in a struct type that
the shader has not used before. -/
inductive Fault where
  | refused (error : SemanticError)
  | unopened (struct : Ident)
deriving DecidableEq

/-- The message of a struct type that was not used before. -/
def Fault.unopenedMessage (s : Ident) : String := "emit: struct " ++ s ++ " used before expansion"

end Shading
