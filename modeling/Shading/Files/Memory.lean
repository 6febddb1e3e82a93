import Shading.Files

/-!
# Files in memory

A tree of files that is a value, for running commands without touching the system. Paths are resolved
one component at a time: every component but the last must be a directory.
-/

namespace Shading

/-- The place of a file: the names from the root to it. -/
abbrev Place := List String

/-- A tree of files: the directories, and the files with their bytes. The root is always there. -/
structure FileTree where
  directories : List Place := []
  files : List (Place × ByteArray) := []

namespace FileTree

def content? (t : FileTree) (p : Place) : Option ByteArray := t.files.lookup p

def isDirectory (t : FileTree) (p : Place) : Bool := p.isEmpty || t.directories.contains p

def kind? (t : FileTree) (p : Place) : Option FileKind :=
  if t.isDirectory p then some .directory else if (t.content? p).isSome then some .file else none

/-- The tree with a directory and those around it. -/
def withDirectory (t : FileTree) (p : Place) : FileTree :=
  let all := (List.range p.length).map fun n => p.take (n + 1)
  { t with directories := t.directories ++ all.filter fun d => !t.directories.contains d }

/-- The tree with a file, in place of any that was there. -/
def withFile (t : FileTree) (p : Place) (bytes : ByteArray) : FileTree :=
  { t with files := (t.files.filter fun f => f.1 != p) ++ [(p, bytes)] }

/-- Follows components from a place that exists. -/
def walk (t : FileTree) (here : Place) : List String → Except FileProblem Place
  | [] => .ok here
  | c :: cs =>
    if !t.isDirectory here then .error .notDirectory
    else if c = "" ∨ c = "." then t.walk here cs
    else if c = ".." then t.walk here.dropLast cs
    else if (t.kind? (here ++ [c])).isSome then t.walk (here ++ [c]) cs
    else .error .missing

def resolve (t : FileTree) (cwd : Place) (path : String) : Except FileProblem Place :=
  if path.isEmpty then .error .missing
  else t.walk (if Path.isAbsolute path then [] else cwd) (Path.components path)

/-- The place that a path leads to where something is to be made. It may be empty, but the directory
around it must exist. -/
def resolveNew (t : FileTree) (cwd : Place) (path : String) : Except FileProblem Place := do
  if path.isEmpty then throw .missing
  let cs := Path.components path
  let around ← t.walk (if Path.isAbsolute path then [] else cwd) cs.dropLast
  let name := cs.getLast?.getD ""
  if !t.isDirectory around then throw .notDirectory
  if name = "" ∨ name = "." ∨ name = ".." then throw .isDirectory
  return around ++ [name]

end FileTree

/-- A tree of files with a working directory, and what has been printed. -/
structure Desk where
  tree : FileTree := {}
  cwd : Place := []
  out : String := ""
  err : String := ""

/-- A step that works on a desk. -/
abbrev OnDesk := StateM Desk

namespace OnDesk

def kindOf (path : String) : OnDesk (Except FileProblem FileKind) := do
  let d ← get
  return do
    let p ← d.tree.resolve d.cwd path
    match d.tree.kind? p with
    | some k => return k
    | none => throw .missing

def readFile (path : String) : OnDesk (Except FileError ByteArray) := do
  let d ← get
  match d.tree.resolve d.cwd path with
  | .error p => return .error ⟨"open", path, p⟩
  | .ok p => match d.tree.content? p with
    | some bytes => return .ok bytes
    | none => return .error ⟨"read", path, .isDirectory⟩

def makeDir (path : String) : OnDesk (Except FileProblem Unit) := do
  let d ← get
  match d.tree.resolveNew d.cwd path with
  | .error p => return .error p
  | .ok p =>
    if (d.tree.kind? p).isSome then return .error (.other "file exists")
    set { d with tree := d.tree.withDirectory p }
    return .ok ()

def writeFile (path text : String) : OnDesk (Except FileProblem Unit) := do
  let d ← get
  match d.tree.resolveNew d.cwd path with
  | .error p => return .error p
  | .ok p =>
    if d.tree.isDirectory p then return .error .isDirectory
    set { d with tree := d.tree.withFile p text.toUTF8 }
    return .ok ()

end OnDesk

instance : Host OnDesk where
  workingDir := do return "/" ++ "/".intercalate (← get).cwd
  kindOf := OnDesk.kindOf
  readFile := OnDesk.readFile
  makeDir := OnDesk.makeDir
  writeFile := OnDesk.writeFile
  printOut s := modify fun d => { d with out := d.out ++ s }
  printError s := modify fun d => { d with err := d.err ++ s }

end Shading
