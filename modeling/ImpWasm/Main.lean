import ImpWasm.Cli.Run
set_option autoImplicit false

namespace ImpWasm.Cli

partial def readAll (stream : IO.FS.Stream) (seen : ByteArray) : IO ByteArray := do
  let more ← stream.read 4096
  if more.isEmpty then return seen else readAll stream (seen ++ more)

def attempt (action : IO Unit) : IO Bool := do
  try
    action
    return true
  catch _ => return false

def orNone {α : Type} (action : IO (Option α)) : IO (Option α) := do
  try action catch _ => return none

def render (d : Diagnostic) : String :=
  let hint := match d.help with
    | some help => "\n  help: " ++ help
    | none => ""
  "error: " ++ d.message ++ hint

/-- The directory entry that a path names, seen from itself. -/
def entry (path : String) : IO.FS.DirEntry := { root := path, fileName := "" }

def isFile (e : IO.FS.DirEntry) : IO Bool := do
  try return (← e.path.metadata).type == .file catch _ => return false

def ioHost : Host IO where
  isDirectory path := (entry path).root.isDir
  pathExists path := if path.isEmpty then return false else (entry path).root.pathExists
  fileNames path := orNone do
    let mut names := []
    for e in ← (entry path).root.readDir do
      if ← isFile e then names := e.fileName :: names
    return some names
  readFile path := orNone do return String.fromUTF8? (← IO.FS.readBinFile path)
  readInput := orNone do return String.fromUTF8? (← readAll (← IO.getStdin) .empty)
  makeDirectory path := attempt (IO.FS.createDir path)
  writeFile path bytes := attempt (IO.FS.writeBinFile path ⟨bytes.toArray⟩)
  print text := do (← IO.getStdout).putStr text
  markDone name := IO.eprintln ("✅ " ++ name)
  complain d := IO.eprintln (render d)

end ImpWasm.Cli

def main (args : List String) : IO UInt32 := ImpWasm.Cli.run ImpWasm.Cli.ioHost args
