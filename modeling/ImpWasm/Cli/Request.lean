set_option autoImplicit false

namespace ImpWasm.Cli

inductive Verb where
  | parse | check | compile
  deriving DecidableEq, Repr

def Verb.ofName? : String → Option Verb
  | "parse" => some .parse
  | "check" => some .check
  | "compile" => some .compile
  | _ => none

inductive Flag where
  | verbose | help | version | output | hex | noValidate | noExport | importModule
  deriving DecidableEq, Repr

namespace Flag

def long : Flag → String
  | .verbose => "verbose"
  | .help => "help"
  | .version => "version"
  | .output => "output"
  | .hex => "hex"
  | .noValidate => "no-validate"
  | .noExport => "no-export"
  | .importModule => "import-module"

def short? : Flag → Option Char
  | .verbose => some 'v'
  | .help => some 'h'
  | .version => some 'V'
  | .output => some 'o'
  | _ => none

def takesValue : Flag → Bool
  | .output | .importModule => true
  | _ => false

/-- Flags that answer at once, whatever comes after them. -/
def isFinal : Flag → Bool
  | .help | .version => true
  | _ => false

end Flag

def globalFlags : List Flag := [.verbose, .help, .version]

def Verb.flags : Verb → List Flag
  | .parse | .check => [.verbose, .help]
  | .compile => [.verbose, .help, .output, .hex, .noValidate, .noExport, .importModule]

inductive Item where
  | flag (f : Flag)
  | value (f : Flag) (text : String)
  | path (text : String)
  deriving DecidableEq, Repr

def Item.flag? : Item → Option Flag
  | .flag f | .value f _ => some f
  | .path _ => none

/-- Letters after a single dash: flags, the last of which may have a value, in the same argument or
in the next one. -/
def readLetters (allowed : List Flag) : List Char → Option (List Item × Option Flag)
  | [] => some ([], none)
  | c :: cs =>
    match allowed.find? (·.short? == some c) with
    | none => none
    | some f =>
      if f.takesValue then
        match cs with
        | [] => some ([], some f)
        | '=' :: text => some ([.value f (String.ofList text)], none)
        | text => some ([.value f (String.ofList text)], none)
      else if f.isFinal then some ([.flag f], none)
      else (readLetters allowed cs).map fun (items, awaited) => (.flag f :: items, awaited)

def readName (allowed : List Flag) (cs : List Char) : Option (List Item × Option Flag) :=
  let name := String.ofList (cs.takeWhile (· != '='))
  match allowed.find? (·.long == name), cs.dropWhile (· != '=') with
  | some f, _ :: text => if f.takesValue then some ([.value f (String.ofList text)], none) else none
  | some f, [] => if f.takesValue then some ([], some f) else some ([.flag f], none)
  | none, _ => none

def readArgument (allowed : List Flag) (arg : String) : Option (List Item × Option Flag) :=
  match arg.toList with
  | '-' :: '-' :: cs => readName allowed cs
  | '-' :: c :: cs => readLetters allowed (c :: cs)
  | _ => some ([.path arg], none)

/-- A value that looks like a flag is none; a single dash is one. -/
def looksLikeFlag (arg : String) : Bool :=
  match arg.toList with
  | '-' :: _ :: _ => true
  | _ => false

def readItems (allowed : List Flag) : (awaited : Option Flag) → List String → Option (List Item)
  | none, [] => some []
  | some _, [] => none
  | some f, arg :: args =>
    if looksLikeFlag arg then none else (readItems allowed none args).map (.value f arg :: ·)
  | none, arg :: args =>
    if arg = "--" then some (args.map .path)
    else
      match readArgument allowed arg with
      | none => none
      | some (items, awaited) =>
        if items.any fun i => (i.flag?.map Flag.isFinal).getD false then some items
        else (readItems allowed awaited args).map (items ++ ·)

def wellFormed (items : List Item) : Bool :=
  decide (items.filterMap Item.flag?).Nodup && items.all fun i =>
    match i with
    | .path text | .value .output text => !text.isEmpty
    | _ => true

structure CompileSettings where
  output : Option String := none
  hex : Bool := false
  validate : Bool := true
  exportFunctions : Bool := true
  importModule : String := "env"
  deriving DecidableEq, Repr

inductive Request where
  | help
  | version
  | parse (paths : List String)
  | check (paths : List String)
  | compile (paths : List String) (settings : CompileSettings)
  deriving DecidableEq, Repr

namespace Request

def valueOf? (f : Flag) (items : List Item) : Option String :=
  items.findSome? fun i =>
    match i with
    | .value g text => if g = f then some text else none
    | _ => none

def settings (items : List Item) : CompileSettings :=
  { output := valueOf? .output items
    hex := items.contains (.flag .hex)
    validate := !items.contains (.flag .noValidate)
    exportFunctions := !items.contains (.flag .noExport)
    importModule := (valueOf? .importModule items).getD "env" }

def ofItems (verb : Verb) (items : List Item) : Option Request :=
  if !wellFormed items then none
  else if items.contains (.flag .help) then some .help
  else
    match items.filterMap (fun i => match i with | .path text => some text | _ => none), verb with
    | [], _ => none
    | paths, .parse => some (.parse paths)
    | paths, .check => some (.check paths)
    | paths, .compile => some (.compile paths (settings items))

/-- Flags up to the verb, of which `items` have been read. Without a verb a run asks for help. -/
def ofArgsAfter (items : List Item) : List String → Option Request
  | [] => some .help
  | arg :: args =>
    match Verb.ofName? arg with
    | some verb => (readItems verb.flags none args).bind (ofItems verb)
    | none =>
      if arg = "help" then
        if args.length ≤ 1 && args.all fun a => a == "help" || (Verb.ofName? a).isSome then some .help
        else none
      else if arg = "--" then if args.isEmpty then some .help else none
      else
        match readArgument globalFlags arg with
        | none => none
        | some (more, _) =>
          let items := items ++ more
          if more.any (fun i => i.flag?.isNone) || !wellFormed items then none
          else if items.contains (.flag .version) then some .version
          else if items.contains (.flag .help) then some .help
          else ofArgsAfter items args

def ofArgs (args : List String) : Option Request := ofArgsAfter [] args

end Request

end ImpWasm.Cli
