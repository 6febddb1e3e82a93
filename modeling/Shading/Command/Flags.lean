import Shading.Text.Cut
import Shading.Text.Quoted

/-!
# The command line

A command line names a command and gives it flags and arguments in any order. A flag is written with its
name behind two dashes or with its letter behind one; letters can share a dash. A flag that is no switch
takes a value, which stands behind an equals sign or is the next word. Two dashes alone end the flags.
Flags of a test runner, which begin with `test.` behind one dash, are passed over.
-/

namespace Shading.Command

inductive Flag where
  | config | glsl | logLevel | outDir | stdout | bindings | force | help
deriving DecidableEq

namespace Flag

def name : Flag → String
  | config => "config"
  | glsl => "glsl"
  | logLevel => "log-level"
  | outDir => "out-dir"
  | stdout => "stdout"
  | bindings => "bindings"
  | force => "force"
  | help => "help"

def letter? : Flag → Option Char
  | config => some 'c'
  | outDir => some 'o'
  | force => some 'f'
  | help => some 'h'
  | glsl | logLevel | stdout | bindings => none

/-- A switch needs no value. -/
def isSwitch : Flag → Bool
  | stdout | bindings | force | help => true
  | config | glsl | logLevel | outDir => false

/-- The flag as messages name it. -/
def shown (f : Flag) : String :=
  (match f.letter? with
    | some c => "-" ++ String.singleton c ++ ", "
    | none => "") ++ "--" ++ f.name

end Flag

inductive Name where
  | root | compile | check | init | version
deriving DecidableEq

namespace Name

/-- The words that call the command. -/
def path : Name → String
  | root => "shadec"
  | compile => "shadec compile"
  | check => "shadec check"
  | init => "shadec init"
  | version => "shadec version"

def ofWord? (s : String) : Option Name :=
  [("compile", compile), ("check", check), ("init", init), ("version", version)].lookup s

/-- The flags of the command, apart from the one that asks for help. -/
def flags (n : Name) : List Flag :=
  [.config, .glsl, .logLevel] ++ match n with
    | compile => [.outDir, .stdout, .bindings]
    | init => [.force]
    | root | check | version => []

end Name

def flagNamed? (fs : List Flag) (s : String) : Option Flag := fs.find? fun f => f.name == s

def flagLettered? (fs : List Flag) (c : Char) : Option Flag := fs.find? fun f => f.letter? == some c

/-! ## Finding the command -/

/-- The word looks like a flag whose value is the next word. Flags that are not known count as such. -/
def takesNext (fs : List Flag) (s : String) : Bool :=
  let isSwitch (f? : Option Flag) : Bool := f?.any Flag.isSwitch
  match s.toList with
  | '-' :: '-' :: name => !s.contains '=' && !isSwitch (flagNamed? fs (String.ofList name))
  | ['-', c] => c != '=' && decide (c.toNat < 128) && !isSwitch (flagLettered? fs c)
  | _ => false

def isDashed (s : String) : Bool := s.toList.head? == some '-'

/-- The words that are neither flags nor values of flags. A flag with at most one word behind it ends
them. -/
def plainWords (fs : List Flag) : List String → List String
  | [] => []
  | s :: rest =>
    if s = "--" then []
    else if takesNext fs s then
      match rest with
      | _ :: next :: more => plainWords fs (next :: more)
      | _ => []
    else if s.isEmpty || isDashed s then plainWords fs rest
    else s :: plainWords fs rest

/-- The words without the first plain one that is `x`. -/
def withoutWord (fs : List Flag) (x : String) : List String → List String
  | [] => []
  | s :: rest =>
    if s = "--" then s :: rest
    else if takesNext fs s then
      match rest with
      | value :: more => s :: value :: withoutWord fs x more
      | [] => [s]
    else if !isDashed s && s == x then rest
    else s :: withoutWord fs x rest

/-- The command that the words call, and the words for it; or the first word, if it is no command. -/
def findCommand (words : List String) : Except String (Name × List String) :=
  let fs := Name.root.flags
  match plainWords fs words with
  | [] => .ok (.root, words)
  | x :: _ => match Name.ofWord? x with
    | some n => .ok (n, withoutWord fs x words)
    | none => .error x

/-! ## Reading the flags -/

structure Flags where
  config : String := ""
  glsl : String := ""
  logLevel : String := ""
  outDir : String := ""
  stdout : Bool := false
  bindings : Bool := false
  force : Bool := false
  help : Bool := false
deriving DecidableEq, Inhabited

inductive FlagError where
  | badForm (word : String)
  | unknownName (name : String)
  | unknownLetter (c : Char) (letters : String)
  | noValue (word : String)
  | noValueForLetter (c : Char) (letters : String)
  | badValue (f : Flag) (value : String)
deriving DecidableEq

namespace FlagError

/-- The first byte of a letter, as a quoted character. -/
def quotedLetter (c : Char) : String :=
  let first := Char.ofNat ((String.singleton c).toUTF8.toList.head?.elim 0 UInt8.toNat)
  if first = '\'' then "'\\''"
  else if first = '"' then "'\"'"
  else "'" ++ String.ofList (Text.quoteChar first) ++ "'"

def message : FlagError → String
  | badForm w => "bad flag syntax: " ++ w
  | unknownName s => "unknown flag: --" ++ s
  | unknownLetter c s => "unknown shorthand flag: " ++ quotedLetter c ++ " in -" ++ s
  | noValue w => "flag needs an argument: " ++ w
  | noValueForLetter c s => "flag needs an argument: " ++ quotedLetter c ++ " in -" ++ s
  | badValue f v =>
    "invalid argument " ++ Text.quoted v ++ " for " ++ Text.quoted f.shown
      ++ " flag: strconv.ParseBool: parsing " ++ Text.quoted v ++ ": invalid syntax"

end FlagError

def readSwitch? (s : String) : Option Bool :=
  if ["1", "t", "T", "true", "TRUE", "True"].contains s then some true
  else if ["0", "f", "F", "false", "FALSE", "False"].contains s then some false
  else none

/-- The flags with a value for one. -/
def Flags.set (fs : Flags) (f : Flag) (value : String) : Except FlagError Flags :=
  let switch (update : Bool → Flags) : Except FlagError Flags :=
    match readSwitch? value with
    | some b => .ok (update b)
    | none => .error (.badValue f value)
  match f with
  | .config => .ok { fs with config := value }
  | .glsl => .ok { fs with glsl := value }
  | .logLevel => .ok { fs with logLevel := value }
  | .outDir => .ok { fs with outDir := value }
  | .stdout => switch fun b => { fs with stdout := b }
  | .bindings => switch fun b => { fs with bindings := b }
  | .force => switch fun b => { fs with force := b }
  | .help => switch fun b => { fs with help := b }

/-- The letters are a flag of a test runner. -/
def isTestFlag (letters : List Char) : Bool := "test.".toList.isPrefixOf letters

/-- Reads the letters behind one dash; the value of the last one may be the next word. The result tells
whether it is. From where a flag of a test runner begins, the letters count for nothing. -/
def readLetters (known : List Flag) (fs : Flags) (next : Option String) :
    List Char → Except FlagError (Flags × Bool)
  | [] => .ok (fs, false)
  | c :: more =>
    if isTestFlag (c :: more) then .ok (fs, false)
    else match flagLettered? known c with
      | none => .error (.unknownLetter c (String.ofList (c :: more)))
      | some f => match more with
        | '=' :: d :: value => (fs.set f (String.ofList (d :: value))).map (·, false)
        | more =>
          if f.isSwitch then (fs.set f "true").bind fun fs' => readLetters known fs' next more
          else if !more.isEmpty then (fs.set f (String.ofList more)).map (·, false)
          else match next with
            | some value => (fs.set f value).map (·, true)
            | none => .error (.noValueForLetter c (String.ofList (c :: more)))

/-- Reads a flag by its name, from what stands behind the two dashes. -/
def readName (known : List Flag) (fs : Flags) (next : Option String) (text : String) :
    Except FlagError (Flags × Bool) :=
  let word := "--" ++ text
  if text.toList.head? = some '-' ∨ text.toList.head? = some '=' then .error (.badForm word)
  else
    let (name, value?) := Text.cutAt '=' text
    match flagNamed? known name with
    | none => .error (.unknownName name)
    | some f => match value? with
      | some value => (fs.set f value).map (·, false)
      | none =>
        if f.isSwitch then (fs.set f "true").map (·, false)
        else match next with
          | some value => (fs.set f value).map (·, true)
          | none => .error (.noValue word)

/-- Reads the words of a command into flags and arguments, behind those read before. -/
def readWords (known : List Flag) (fs : Flags) (args : List String) :
    List String → Except FlagError (Flags × List String)
  | [] => .ok (fs, args)
  | s :: rest =>
    if s = "--" then .ok (fs, args ++ rest)
    else match s.toList with
      | '-' :: c :: more =>
        let read := if c = '-' then readName known fs rest.head? (String.ofList more)
          else readLetters known fs rest.head? (c :: more)
        match read with
        | .error e => .error e
        | .ok (fs', false) => readWords known fs' args rest
        | .ok (fs', true) => match rest with
          | _ :: rest' => readWords known fs' args rest'
          | [] => .ok (fs', args)
      | _ => readWords known fs (args ++ [s]) rest

def readFlags (n : Name) (words : List String) : Except FlagError (Flags × List String) :=
  readWords (n.flags ++ [.help]) {} [] words

end Shading.Command
