import ImpWasm.Typing.Program
import ImpWasm.Wasm.Module
set_option autoImplicit false

/-!
From checked programs to modules. Integers and truth values become `i32`; strings have no
representation. A variable of the top level is a mutable global, a declared import an imported
function, and the other statements of the top level run in a start function.
-/
namespace ImpWasm

open Wasm (Instr ValType FuncType)

inductive LowerError where
  | unsupportedType (type : PrimType) (context : String) (span : Span)
  | unknownSymbol (name : String) (span : Span)
  | module (cause : Wasm.ModuleError)
  deriving DecidableEq, Repr

def LowerError.diagnostic : LowerError → Diagnostic
  | .unsupportedType type context span =>
    { message := "Type " ++ type.name ++ " has no WebAssembly representation (" ++ context ++ ")"
      code := some "reflang::emit::unsupported_type"
      help := some "Only int and bool values can be compiled"
      labels := [span.label (type.name ++ " used here")] }
  | .unknownSymbol name span =>
    { message := "No index was assigned to `" ++ name ++ "`"
      code := some "reflang::emit::unknown_symbol"
      help := some "This is an internal error: the program was not fully type-checked"
      labels := [span.label "referenced here"] }
  | .module cause => cause.diagnostic

abbrev Lowered := Except LowerError

structure LowerOptions where
  exportFunctions : Bool := true
  importModule : String := "env"
  moduleName : Option String := none
  deriving DecidableEq, Repr

def PrimType.lower (t : PrimType) (context : String) (span : Span) : Lowered ValType :=
  match t with
  | .int | .bool => .ok .i32
  | .string => .error (.unsupportedType t context span)

def Signature.lower (s : Signature) : Lowered FuncType := do
  let span := s.span.getD {}
  let context := "signature of `" ++ s.name ++ "`"
  let params ← s.paramTypes.mapM fun t => t.lower context span
  let result ← s.result.lower context span
  return ⟨params, [result]⟩

def Operator.lower : Operator → Wasm.Numeric
  | .add => .binary .w32 .add
  | .sub => .binary .w32 .sub
  | .mul => .binary .w32 .mul
  | .div => .binary .w32 .divS
  | .mod => .binary .w32 .remS
  | .eq => .rel .w32 .eq
  | .ne => .rel .w32 .ne
  | .lt => .rel .w32 .ltS
  | .le => .rel .w32 .leS
  | .gt => .rel .w32 .gtS
  | .ge => .rel .w32 .geS
  | .and => .binary .w32 .and
  | .or => .binary .w32 .or

def boolConst (b : Bool) : Int32 := if b then 1 else 0

structure Indices where
  functions : List (String × UInt32) := []
  globals : List (Nat × UInt32) := []
  deriving DecidableEq, Repr

structure Locals where
  slots : List (Nat × UInt32) := []
  paramCount : Nat := 0
  declared : List ValType := []
  deriving DecidableEq, Repr

def Locals.ofParams (params : List Typed.Param) : Locals :=
  { slots := (params.mapIdx fun i p => (p.name.symbol, i.toUInt32)).reverse
    paramCount := params.length }

def Locals.declare (l : Locals) (symbol : Nat) (type : ValType) : Locals × UInt32 :=
  let index := (l.paramCount + l.declared.length).toUInt32
  ({ l with slots := (symbol, index) :: l.slots, declared := l.declared ++ [type] }, index)

namespace Indices

def access (ix : Indices) (l : Locals) (name : Typed.Ident) (onLocal onGlobal : UInt32 → Instr) :
    Lowered Instr :=
  match l.slots.lookup name.symbol with
  | some i => .ok (onLocal i)
  | none =>
    match ix.globals.lookup name.symbol with
    | some i => .ok (onGlobal i)
    | none => .error (.unknownSymbol name.name name.span)

def function (ix : Indices) (name : String) (span : Span) : Lowered UInt32 :=
  match ix.functions.lookup name with
  | some i => .ok i
  | none => .error (.unknownSymbol name span)

end Indices

namespace Typed

mutual

def Expr.lower (ix : Indices) (l : Locals) : Expr → Lowered (List Instr)
  | .ident name _ _ => do return [← ix.access l name .localGet .globalGet]
  | .int value _ => .ok [.i32Const value]
  | .bool value _ => .ok [.i32Const (boolConst value)]
  | .string _ span => .error (.unsupportedType .string "string literal" span)
  | .binary op left right _ _ => do
    discard (left.type.lower "operand" left.span)
    let a ← left.lower ix l
    let b ← right.lower ix l
    return a ++ b ++ [.numeric op.lower]
  | .call callee args _ span => do
    let code ← Expr.lowerAll ix l args
    return code ++ [.call (← ix.function callee span)]

def Expr.lowerAll (ix : Indices) (l : Locals) : List Expr → Lowered (List Instr)
  | [] => .ok []
  | e :: es => do
    let code ← e.lower ix l
    return code ++ (← Expr.lowerAll ix l es)

end

/-- A variable without an initialiser is 0 each time its declaration is reached. -/
def lowerInit (ix : Indices) (l : Locals) : Option Expr → Lowered (List Instr)
  | some init => init.lower ix l
  | none => .ok [.i32Const 0]

mutual

/-- Code that runs the statement, and the locals as they are after it. Declarations of functions are
lowered with the module. -/
def Stmt.lower (ix : Indices) : Stmt → Locals → Lowered (List Instr × Locals)
  | .expr value _, l => do return ((← value.lower ix l) ++ [.drop], l)
  | .var name type init span, l => do
    let t ← type.lower ("variable `" ++ name.name ++ "`") span
    let code ← lowerInit ix l init
    let (l, index) := l.declare name.symbol t
    return (code ++ [.localSet index], l)
  | .assign target value _, l => do
    let code ← value.lower ix l
    return (code ++ [← ix.access l target .localSet .globalSet], l)
  | .block body _ _, l => Stmt.lowerAll ix body l
  | .function .., l | .imported .., l => .ok ([], l)
  | .return_ value _, l => do return ((← value.lower ix l) ++ [.return_], l)
  | .while_ condition body _ _, l => do
    let test ← condition.lower ix l
    let (code, l) ← Stmt.lowerAll ix body l
    return ([.block .empty, .loop .empty] ++ test ++ [.numeric (.eqz .w32), .brIf 1] ++ code
      ++ [.br 0, .end_, .end_], l)
  | .ifThen condition yes _ _, l => do
    let test ← condition.lower ix l
    let (code, l) ← Stmt.lowerAll ix yes l
    return (test ++ [.if_ .empty] ++ code ++ [.end_], l)
  | .ifElse condition yes _ no _ _, l => do
    let test ← condition.lower ix l
    let (codeYes, l) ← Stmt.lowerAll ix yes l
    let (codeNo, l) ← Stmt.lowerAll ix no l
    return (test ++ [.if_ .empty] ++ codeYes ++ [.else_] ++ codeNo ++ [.end_], l)

def Stmt.lowerAll (ix : Indices) : List Stmt → Locals → Lowered (List Instr × Locals)
  | [], l => .ok ([], l)
  | s :: ss, l => do
    let (code, l) ← s.lower ix l
    let (rest, l) ← Stmt.lowerAll ix ss l
    return (code ++ rest, l)

end

/-- A `return` at the end of the body leaves its value as the result. Any other end of the body
cannot be reached. -/
def lowerBody (ix : Indices) (params : List Param) (body : List Stmt) : Lowered Wasm.Body := do
  match trailingReturn body with
  | some (value, _) =>
    let (code, l) ← Stmt.lowerAll ix body.dropLast (.ofParams params)
    let result ← value.lower ix l
    return .ofInstrs l.declared (code ++ result ++ [.end_])
  | none =>
    let (code, l) ← Stmt.lowerAll ix body (.ofParams params)
    return .ofInstrs l.declared (code ++ [.unreachable, .end_])

def constant? : Option Expr → Option Int32
  | none => some 0
  | some (.int value _) => some value
  | some (.bool value _) => some (boolConst value)
  | some _ => none

end Typed

structure Lowering where
  module : Wasm.Module := {}
  indices : Indices := {}
  startCode : List Instr := []
  startLocals : Locals := {}
  deriving DecidableEq, Repr

namespace Lowering

def liftModule {α : Type} : Except Wasm.ModuleError α → Lowered α
  | .ok a => .ok a
  | .error e => .error (.module e)

def importFunction (options : LowerOptions) (st : Lowering) (s : Signature) : Lowered Lowering := do
  let type ← s.lower
  let (module, index) ← liftModule (st.module.importFunction options.importModule s.name type)
  return { st with
    module
    indices := { st.indices with functions := (s.name, index) :: st.indices.functions } }

/-- Indices of the defined functions, given before any of them is lowered, so that a call may come
before its callee. -/
def reserve (first : Nat) (names : List String) : List (String × UInt32) :=
  names.mapIdx fun i name => (name, (first + i).toUInt32)

def declareFunctions (options : LowerOptions) (functions : FunctionTable) (st : Lowering) :
    Lowered Lowering := do
  let st ← (functions.signatures.filter (·.isImported)).foldlM (importFunction options) st
  let names := (functions.signatures.filter (! ·.isImported)).map Signature.name
  return { st with
    indices := { st.indices with
      functions := reserve st.module.functionCount names ++ st.indices.functions } }

def addFunction (options : LowerOptions) (functions : FunctionTable) (st : Lowering) (name : String)
    (params : List Typed.Param) (body : List Typed.Stmt) (span : Span) : Lowered Lowering := do
  match functions.get? name with
  | none => throw (.unknownSymbol name span)
  | some s =>
    let type ← s.lower
    let body ← Typed.lowerBody st.indices params body
    let (module, index) := st.module.addFunction type body
    return { st with
      module := if options.exportFunctions then module.exportFunction name index else module }

/-- A global starts with its constant, or with 0 until the start function has run its
initialiser. -/
def addGlobal (st : Lowering) (name : Typed.Ident) (type : PrimType) (init : Option Typed.Expr)
    (span : Span) : Lowered Lowering := do
  let t ← type.lower ("global `" ++ name.name ++ "`") span
  let constant := Typed.constant? init
  let global ← liftModule (Wasm.Global.make t true (.i32 (constant.getD 0)))
  let (module, index) := st.module.addGlobal global
  let code ← match constant with
    | some _ => pure []
    | none => do pure ((← Typed.lowerInit st.indices st.startLocals init) ++ [.globalSet index])
  return { st with
    module
    indices := { st.indices with globals := (name.symbol, index) :: st.indices.globals }
    startCode := st.startCode ++ code }

def addStmt (options : LowerOptions) (functions : FunctionTable) (st : Lowering) :
    Typed.Stmt → Lowered Lowering
  | .function name params _ body _ span => st.addFunction options functions name params body span
  | .imported .. => .ok st
  | .var name type init span => st.addGlobal name type init span
  | s => do
    let (code, startLocals) ← s.lower st.indices st.startLocals
    return { st with startCode := st.startCode ++ code, startLocals }

def finish (st : Lowering) : Wasm.Module :=
  if st.startCode.isEmpty then st.module
  else
    let body := Wasm.Body.ofInstrs st.startLocals.declared (st.startCode ++ [.end_])
    let (module, index) := st.module.addFunction {} body
    module.setStart index

end Lowering

def Typed.Program.lower (options : LowerOptions) (p : Typed.Program) : Lowered Wasm.Module := do
  let st : Lowering := { module := { name := options.moduleName } }
  let st ← st.declareFunctions options p.functions
  let st ← p.body.foldlM (Lowering.addStmt options p.functions) st
  return st.finish

end ImpWasm
