import ImpWasm.Cli.Path
import ImpWasm.Compile
set_option autoImplicit false

namespace ImpWasm.Cli

/-- Files and streams, as a run sees them. What may fail yields `none` or `false`. -/
structure Host (m : Type → Type) where
  isDirectory : String → m Bool
  pathExists : String → m Bool
  fileNames : String → m (Option (List String))
  readFile : String → m (Option String)
  readInput : m (Option String)
  makeDirectory : String → m Bool
  writeFile : String → Wasm.Bytes → m Bool
  print : String → m Unit
  markDone : String → m Unit
  complain : Diagnostic → m Unit

inductive ExpandError where
  | notFound (path : String)
  | notSource (path : String)
  | unreadable (path : String)
  deriving DecidableEq, Repr

def ExpandError.message : ExpandError → String
  | .notFound path => "File not found: " ++ path
  | .notSource path => "Expected .ref file, got: " ++ path
  | .unreadable path => "Cannot read directory: " ++ path

def isInput (path : String) : Bool := path == "-"

def isSource (path : String) : Bool := Path.extension? path == some "ref"

def insertName (name : String) : List String → List String
  | [] => [name]
  | n :: ns => if n < name then n :: insertName name ns else name :: n :: ns

def sortNames (names : List String) : List String := names.foldr insertName []

structure SourceUnit where
  /-- Absent for standard input. -/
  path : Option String
  name : String
  source : String
  deriving DecidableEq, Repr

def stemOf (path : Option String) : String := (path.bind Path.stem?).getD "stdin"

def outputPath (path : Option String) (dir : Option String) : String :=
  let file := stemOf path ++ ".wasm"
  match dir, path.bind Path.parent? with
  | some dir, _ => Path.join dir file
  | none, some parent => Path.join parent file
  | none, none => file

namespace Host

variable {m : Type → Type} [Monad m]

/-- A directory stands for its source files in the order of their names. -/
def expand (host : Host m) (path : String) : m (Except ExpandError (List String)) := do
  if isInput path then return .ok [path]
  else if ← host.isDirectory path then
    match ← host.fileNames path with
    | some names => return .ok ((sortNames (names.filter isSource)).map (Path.join path))
    | none => return .error (.unreadable path)
  else if !(← host.pathExists path) then return .error (.notFound path)
  else if isSource path then return .ok [path]
  else return .error (.notSource path)

def expandAll (host : Host m) : List String → m (Except ExpandError (List String))
  | [] => return .ok []
  | path :: paths => do
    match ← host.expand path with
    | .error e => return .error e
    | .ok found =>
      match ← host.expandAll paths with
      | .error e => return .error e
      | .ok more => return .ok (found ++ more)

def makeMissing (host : Host m) : List String → m Bool
  | [] => return true
  | path :: paths => do
    let ready ← if ← host.isDirectory path then pure true else host.makeDirectory path
    if ready then host.makeMissing paths else return false

/-- Makes a directory and all that its path leads through. A path that ends in a dot names the
directory before the dot, which is not one of its parents: that one has to be there. -/
def makeDirectories (host : Host m) (path : String) : m Bool :=
  host.makeMissing ((Path.ancestors path).filter (! ·.isEmpty))

def load (host : Host m) (path : String) : m (Option SourceUnit) := do
  if isInput path then return (← host.readInput).map fun source => ⟨none, "<stdin>", source⟩
  else return (← host.readFile path).map fun source => ⟨some path, path, source⟩

end Host

end ImpWasm.Cli
