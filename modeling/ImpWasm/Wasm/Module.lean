import ImpWasm.Wasm.Validator
set_option autoImplicit false

/-!
Modules, grown one entity at a time. Functions and globals share one index space each with their
imports, which come first, so an import is refused once an entity of its kind has been defined.
-/
namespace ImpWasm.Wasm

structure Function where
  typeIndex : UInt32
  body : Body
  deriving DecidableEq, Repr

structure Module where
  /-- For diagnostics only; never part of the encoding. -/
  name : Option String := none
  types : List FuncType := []
  imports : List Import := []
  functions : List Function := []
  globals : List Global := []
  exports : List Export := []
  start : Option UInt32 := none
  functionTypes : List UInt32 := []
  globalTypes : List GlobalType := []
  deriving DecidableEq, Repr

namespace Module

def addType (m : Module) (t : FuncType) : Module × UInt32 :=
  ({ m with types := m.types ++ [t] }, m.types.length.toUInt32)

def importFunction (m : Module) (module name : String) (t : FuncType) :
    Except ModuleError (Module × UInt32) :=
  if m.functions.isEmpty then
    let (m, typeIndex) := m.addType t
    .ok ({ m with
      imports := m.imports ++ [⟨module, name, .function typeIndex⟩]
      functionTypes := m.functionTypes ++ [typeIndex] }, m.functionTypes.length.toUInt32)
  else .error (.importAfterFunction module name)

def importGlobal (m : Module) (module name : String) (t : GlobalType) :
    Except ModuleError (Module × UInt32) :=
  if m.globals.isEmpty then
    .ok ({ m with
      imports := m.imports ++ [⟨module, name, .global t⟩]
      globalTypes := m.globalTypes ++ [t] }, m.globalTypes.length.toUInt32)
  else .error (.importAfterGlobal module name)

def importMemory (m : Module) (module name : String) (limits : Limits) : Module :=
  { m with imports := m.imports ++ [⟨module, name, .memory limits⟩] }

def importTable (m : Module) (module name : String) (element : ValType) (limits : Limits) : Module :=
  { m with imports := m.imports ++ [⟨module, name, .table element limits⟩] }

/-- Every function has a type entry of its own. -/
def addFunction (m : Module) (t : FuncType) (body : Body) : Module × UInt32 :=
  let (m, typeIndex) := m.addType t
  ({ m with
    functions := m.functions ++ [⟨typeIndex, body⟩]
    functionTypes := m.functionTypes ++ [typeIndex] }, m.functionTypes.length.toUInt32)

def addGlobal (m : Module) (g : Global) : Module × UInt32 :=
  ({ m with
    globals := m.globals ++ [g]
    globalTypes := m.globalTypes ++ [g.type] }, m.globalTypes.length.toUInt32)

def exportFunction (m : Module) (name : String) (function : UInt32) : Module :=
  { m with exports := m.exports ++ [⟨name, function⟩] }

def setStart (m : Module) (function : UInt32) : Module := { m with start := some function }

def functionCount (m : Module) : Nat := m.functionTypes.length

def importedFunctionCount (m : Module) : Nat := m.functionTypes.length - m.functions.length

def functionType (m : Module) (index : UInt32) : Option FuncType := do
  let typeIndex ← m.functionTypes[index.toNat]?
  m.types[typeIndex.toNat]?

def globalType (m : Module) (index : UInt32) : Option GlobalType := m.globalTypes[index.toNat]?

def body (m : Module) (index : UInt32) : Option Body :=
  if index.toNat < m.importedFunctionCount then none
  else (m.functions[index.toNat - m.importedFunctionCount]?).map Function.body

def context (m : Module) (type : FuncType) (locals : List ValType) : Context :=
  .ofFunction m.functionType m.globalType type locals

def validateFunctions (m : Module) : (index : Nat) → List Function → Except ModuleError Unit
  | _, [] => .ok ()
  | index, f :: fs =>
    let type := (m.types[f.typeIndex.toNat]?).getD {}
    match validateBody (m.context type f.body.locals) type.results f.body.code with
    | .error (offset, cause) => .error (.validation index.toUInt32 offset cause)
    | .ok () => m.validateFunctions (index + 1) fs

def checkIndex (m : Module) (index : UInt32) : Except ModuleError Unit :=
  if index.toNat < m.functionCount then .ok () else .error (.invalidFunctionIndex index)

def checkStart (m : Module) : Except ModuleError Unit :=
  match m.start with
  | none => .ok ()
  | some index => do
    m.checkIndex index
    match m.functionType index with
    | some t => if t = {} then .ok () else .error (.invalidStartFunction index t)
    | none => .ok ()

/-- Every body, then every export, then the start function; the first fault found is the answer. -/
def validate (m : Module) : Except ModuleError Unit := do
  m.validateFunctions m.importedFunctionCount m.functions
  m.exports.forM fun e => m.checkIndex e.function
  m.checkStart

def magic : Bytes := [0x00, 0x61, 0x73, 0x6D]

def version : Bytes := [0x01, 0x00, 0x00, 0x00]

def sectionBytes (id : UInt8) (payload : Bytes) : Bytes :=
  id :: (encodeCount payload.length ++ payload)

def vectorSection {α : Type} (id : UInt8) (item : α → Bytes) (xs : List α) : Bytes :=
  if xs.isEmpty then [] else sectionBytes id (encodeVector item xs)

def encodeCode (f : Function) : Bytes :=
  let bytes := f.body.encode
  encodeCount bytes.length ++ bytes

/-- There is always one memory, with no initial pages. -/
def encode (m : Module) : Bytes :=
  magic ++ version
  ++ vectorSection 1 FuncType.encode m.types
  ++ vectorSection 2 Import.encode m.imports
  ++ vectorSection 3 (fun f => encodeU32 f.typeIndex) m.functions
  ++ sectionBytes 5 (encodeVector Limits.encode [{ min := 0 }])
  ++ vectorSection 6 Global.encode m.globals
  ++ vectorSection 7 Export.encode m.exports
  ++ (match m.start with
      | none => []
      | some index => sectionBytes 8 (encodeU32 index))
  ++ vectorSection 10 encodeCode m.functions

def finish (m : Module) : Except ModuleError Bytes := do
  m.validate
  return m.encode

end Module

end ImpWasm.Wasm
