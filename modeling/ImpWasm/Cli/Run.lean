import ImpWasm.Cli.Host
import ImpWasm.Cli.Request
set_option autoImplicit false

namespace ImpWasm.Cli

def versionText : String := "reflang 0.1.0\n"

def helpText : String :=
  "Usage: reflang [-v] <parse|check|compile> PATH...\n\n"
  ++ "  parse    print the canonical text of each source\n"
  ++ "  check    print each source with its types\n"
  ++ "  compile  write each source as a WebAssembly module\n\n"
  ++ "A path is a .ref file, a directory of them, or - for standard input.\n"
  ++ "compile takes -o DIR, --hex, --no-validate, --no-export and --import-module NAME.\n"

def CompileSettings.options (s : CompileSettings) (unit : SourceUnit) : CompileOptions :=
  { validate := s.validate
    exportFunctions := s.exportFunctions
    importModule := s.importModule
    moduleName := some (stemOf unit.path) }

variable {m : Type → Type} [Monad m]

/-- What a unit comes to: text to print, a file to write, or a complaint. -/
inductive Product where
  | text (line : String)
  | file (dir : Option String) (path : String) (bytes : Wasm.Bytes)
  | failure (d : Diagnostic)
  deriving DecidableEq, Repr

def parseUnit (unit : SourceUnit) : Product :=
  match Program.parse unit.source with
  | .ok p => .text p.text
  | .error e => .failure e.diagnostic

def checkUnit (unit : SourceUnit) : Product :=
  match Program.parse unit.source with
  | .error e => .failure e.diagnostic
  | .ok p =>
    match p.check with
    | .ok typed => .text typed.text
    | .error e => .failure (TypeErrors.diagnostic e)

def compileUnit (s : CompileSettings) (unit : SourceUnit) : Product :=
  match compileSource (s.options unit) unit.source with
  | .error e => .failure (e.diagnostic)
  | .ok compiled =>
    if s.hex then .text compiled.hex
    else .file s.output (outputPath unit.path s.output) compiled.bytes

def deliver (host : Host m) : Product → m Bool
  | .text line => do
    host.print (line ++ "\n")
    return true
  | .failure d => do
    host.complain d
    return false
  | .file dir path bytes => do
    let ready ← match dir with
      | some dir => host.makeDirectories dir
      | none => pure true
    let written ← if ready then host.writeFile path bytes else pure false
    if !written then host.complain { message := "Cannot write " ++ path }
    return written

def runUnit (host : Host m) (work : SourceUnit → Product) (several : Bool) (path : String) : m Bool := do
  match ← host.load path with
  | none =>
    host.complain { message := "Cannot read " ++ path }
    return false
  | some unit =>
    let delivered ← deliver host (work unit)
    if delivered && several then host.markDone unit.name
    return delivered

def runUnits (host : Host m) (work : SourceUnit → Product) (several : Bool) : List String → m Bool
  | [] => return true
  | path :: paths => do
    let first ← runUnit host work several path
    let rest ← runUnits host work several paths
    return first && rest

def runPaths (host : Host m) (work : SourceUnit → Product) (paths : List String) : m UInt32 := do
  match ← host.expandAll paths with
  | .error e =>
    host.complain { message := e.message }
    return 1
  | .ok found =>
    let succeeded ← runUnits host work (1 < found.length) found
    return if succeeded then 0 else 1

def Request.run (host : Host m) : Request → m UInt32
  | .help => do
    host.print helpText
    return 0
  | .version => do
    host.print versionText
    return 0
  | .parse paths => runPaths host parseUnit paths
  | .check paths => runPaths host checkUnit paths
  | .compile paths settings => runPaths host (compileUnit settings) paths

def run (host : Host m) (args : List String) : m UInt32 := do
  match Request.ofArgs args with
  | some request => request.run host
  | none =>
    host.complain { message := "Bad arguments", help := some "Run with --help to see the usage" }
    return 2

end ImpWasm.Cli
