import ImpWasm.Text.Lines
set_option autoImplicit false

/-!
Paths as text. Slashes divide a path into segments; an empty segment or a single dot stands for
nothing, unless it comes first, where it means the root or the working directory.
-/
namespace ImpWasm.Path

def segments (cs : List Char) : List (List Char) := splitOn '/' cs

def isVoid (s : List Char) : Bool := s == [] || s == ['.']

def isUp (s : List Char) : Bool := s == ['.', '.']

def trim : List (List Char) → List (List Char)
  | [] => []
  | s :: ss => s :: (ss.reverse.dropWhile isVoid).reverse

/-- The last segment, if it is a name. -/
def fileName? (path : String) : Option String :=
  match (trim (segments path.toList)).getLast? with
  | some s => if isVoid s || isUp s then none else some (String.ofList s)
  | none => none

def parent? (path : String) : Option String :=
  match trim (segments path.toList) with
  | [] => none
  | [s] => if s.isEmpty then none else some ""
  | ss =>
    let above := trim ss.dropLast
    some (if above = [[]] then "/" else String.ofList (joinWith ['/'] above))

def parentsUpTo : (n : Nat) → String → List String
  | 0, _ => []
  | n+1, path =>
    match parent? path with
    | none => []
    | some parent => parentsUpTo n parent ++ [parent]

/-- All that a path leads through, from the outermost parent to the path itself. No path has more
parents than characters. -/
def ancestors (path : String) : List String := parentsUpTo path.length path ++ [path]

/-- A name before and after its last dot. A dot that comes first and alone divides nothing. -/
def splitName (name : String) : String × Option String :=
  let reversed := name.toList.reverse
  match reversed.dropWhile (· != '.') with
  | _ :: before =>
    if before.isEmpty then (name, none)
    else (String.ofList before.reverse,
      some (String.ofList (reversed.takeWhile (· != '.')).reverse))
  | [] => (name, none)

def stem? (path : String) : Option String := (fileName? path).map fun name => (splitName name).1

def extension? (path : String) : Option String :=
  (fileName? path).bind fun name => (splitName name).2

def join (dir path : String) : String :=
  match dir.toList.getLast? with
  | none => path
  | some c => if c = '/' then dir ++ path else dir ++ "/" ++ path

end ImpWasm.Path
