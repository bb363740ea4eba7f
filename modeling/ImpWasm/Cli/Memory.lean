import ImpWasm.Cli.Host
set_option autoImplicit false

namespace ImpWasm.Cli

/-- A place, by the names on the way back from it to the working directory. A way that leaves the
working directory has its steps up at the end, and one from the root ends with an empty name. -/
abbrev Place := List (List Char)

namespace Place

def root : Place := [[]]

def isInside (p : Place) : Bool :=
  match p.getLast? with
  | none => false
  | some s => !(s.isEmpty || Path.isUp s)

def hasFittingNames (p : Place) : Bool := p.all fun s => utf8Length s ≤ 255

def path (p : Place) : String := String.ofList (joinWith ['/'] p.reverse)

end Place

inductive Folder where
  | mk (folders : List (List Char × Folder))
  deriving Repr

namespace Folder

def empty : Folder := .mk []

def get? (name : List Char) : Folder → Option Folder
  | .mk folders => folders.lookup name

/-- Adds the directories of a way that are not there. -/
def add : (way : List (List Char)) → Folder → Folder
  | [], f => f
  | s :: ss, .mk folders =>
    .mk ((s, add ss ((folders.lookup s).getD empty)) :: folders.filter (·.1 != s))

end Folder

structure Memory where
  files : List (Place × Wasm.Bytes) := []
  /-- The working directory. It and those around it, which are named by the steps up that lead to
  them, are always there. -/
  folder : Folder := .empty
  input : Wasm.Bytes := []
  output : String := ""
  finished : List String := []
  complaints : List Diagnostic := []
  deriving Repr

def textOf (bytes : Wasm.Bytes) : Option String := String.fromUTF8? ⟨bytes.toArray⟩

structure Spot where
  place : Place
  folder : Option Folder
  deriving Repr

/-- Walks on from a place, which lies in the directories `outer`, the innermost first. What a walk
passes through has to be a directory. -/
def walk : Place → Option Folder → (outer : List Folder) → List (List Char) → Option Spot
  | p, folder, _, [] => some ⟨p, folder⟩
  | _, none, _, _ :: _ => none
  | p, some f, outer, s :: ss =>
    if Path.isVoid s then walk p (some f) outer ss
    else if Path.isUp s then
      match outer with
      | g :: outer => walk p.tail (some g) outer ss
      | [] =>
        if p = Place.root then walk p (some f) [] ss
        else walk (s :: p) (some ((f.get? s).getD .empty)) [] ss
    else walk (s :: p) (f.get? s) (f :: outer) ss

namespace Memory

def file? (d : Memory) (p : Place) : Option Wasm.Bytes := d.files.lookup p

/-- Where a path leads, whether or not anything is there. A path has at most 4095 bytes. -/
def spotOf? (d : Memory) (path : List Char) : Option Spot :=
  if 4095 < utf8Length path then none
  else
    match path with
    | [] => none
    | '/' :: cs => walk Place.root (some ((d.folder.get? []).getD .empty)) [] (Path.segments cs)
    | cs => walk [] (some d.folder) [] (Path.segments cs)

def spot? (d : Memory) (path : String) : Option Spot := d.spotOf? path.toList

def isDirectory (d : Memory) (path : String) : Bool :=
  match d.spot? path with
  | some spot => spot.folder.isSome
  | none => false

def read? (d : Memory) (path : String) : Option Wasm.Bytes :=
  (d.spot? path).bind fun spot => d.file? spot.place

def write (d : Memory) (path : String) (bytes : Wasm.Bytes) : Option Memory :=
  match d.spot? path with
  | none => none
  | some ⟨p, folder⟩ =>
    if folder.isSome || !Place.hasFittingNames p then none
    else some { d with files := (p, bytes) :: d.files.filter (·.1 != p) }

/-- One new directory, at a place where there is nothing yet. Slashes after its name do not count,
but a dot there does: it speaks of a directory that is there. -/
def makeDirectory (d : Memory) (path : String) : Option Memory :=
  match d.spotOf? (path.toList.reverse.dropWhile (· == '/')).reverse with
  | none => none
  | some ⟨p, folder⟩ =>
    if folder.isSome || (d.file? p).isSome || !Place.hasFittingNames p then none
    else some { d with folder := d.folder.add p.reverse }

def names (d : Memory) (dir : Place) : List String :=
  d.files.filterMap fun (p, _) =>
    match p with
    | name :: parent => if parent = dir then some (String.ofList name) else none
    | [] => none

end Memory

def settle (change : Memory → Option Memory) : StateM Memory Bool := fun d =>
  match change d with
  | some d => (true, d)
  | none => (false, d)

def memoryHost : Host (StateM Memory) where
  isDirectory path := return (← get).isDirectory path
  pathExists path := do
    let d ← get
    return d.isDirectory path || (d.read? path).isSome
  fileNames path := do
    let d ← get
    return (d.spot? path).map fun spot => d.names spot.place
  readFile path := return ((← get).read? path).bind textOf
  readInput := do
    let d ← get
    set { d with input := [] }
    return textOf d.input
  makeDirectory path := settle (·.makeDirectory path)
  writeFile path bytes := settle (·.write path bytes)
  print text := modify fun d => { d with output := d.output ++ text }
  markDone name := modify fun d => { d with finished := d.finished ++ [name] }
  complain diagnostic := modify fun d => { d with complaints := d.complaints ++ [diagnostic] }

/-- A directory together with those above it. -/
def Memory.putDirectory (d : Memory) (path : String) : Memory :=
  ((memoryHost.makeDirectories path).run d).2

def Memory.putFile (d : Memory) (path : String) (bytes : Wasm.Bytes) : Memory :=
  let ready := match Path.parent? path with
    | some parent => d.putDirectory parent
    | none => d
  (ready.write path bytes).getD ready

end ImpWasm.Cli
