import ImpWasm.Wasm.Global
set_option autoImplicit false

/-!
Operand-stack validation of function bodies. Every instruction pops and pushes operand types under a
stack of control frames; after an unconditional branch the rest of a frame is unreachable, and there
a pop at the frame's floor yields an operand of unknown type. A failing operation keeps the changes it
made before it failed.
-/
namespace ImpWasm.Wasm

/-- An operand of no known type stands for whatever unreachable code would need. -/
inductive Operand where
  | known (type : ValType)
  | unknown
  deriving DecidableEq, Repr

def Operand.name : Operand → String
  | .known t => t.name
  | .unknown => "unknown"

structure Frame where
  opcode : Opcode
  startTypes : List ValType
  endTypes : List ValType
  height : Nat
  isUnreachable : Bool := false
  deriving DecidableEq, Repr

/-- What a branch to the frame has to provide: a loop is entered again at its start. -/
def Frame.labelTypes (f : Frame) : List ValType :=
  if f.opcode = .loop then f.startTypes else f.endTypes

/-- What a body may refer to: the module's functions and globals, and its own locals, parameters
first. -/
structure Context where
  functionType : UInt32 → Option FuncType
  globalType : UInt32 → Option GlobalType
  locals : List ValType

/-- Operands with the top first, frames with the innermost first, and the offset of the instruction
being checked. -/
structure Validator where
  operands : List Operand := []
  frames : List Frame := []
  position : Nat := 0
  deriving DecidableEq, Repr

abbrev Check := ExceptT ValidationError (StateM Validator)

namespace Validator

def start (results : List ValType) : Validator :=
  { frames := [{ opcode := .block, startTypes := [], endTypes := results, height := 0 }] }

def floor (v : Validator) : Nat :=
  match v.frames with
  | [] => 0
  | f :: _ => f.height

def inDeadCode (v : Validator) : Bool :=
  match v.frames with
  | [] => false
  | f :: _ => f.isUnreachable

end Validator

namespace Check

def push (o : Operand) : Check Unit :=
  modify fun v => { v with operands := o :: v.operands }

def pop : Check Operand := do
  let v ← get
  if v.operands.length = v.floor then
    if v.inDeadCode then return .unknown else throw .stackUnderflow
  else
    match v.operands with
    | [] => throw .stackUnderflow
    | o :: rest =>
      set { v with operands := rest }
      return o

def popExpected (expected : ValType) : Check Operand := do
  match ← pop with
  | .known found =>
    if found = expected then return .known found else throw (.stackTypeMismatch expected found)
  | .unknown => return .unknown

def popAll (types : List ValType) : Check Unit :=
  types.reverse.forM fun t => discard (popExpected t)

def pushAll (types : List ValType) : Check Unit :=
  types.forM fun t => push (.known t)

def pushFrame (opcode : Opcode) (startTypes endTypes : List ValType) : Check Unit := do
  let height := (← get).operands.length
  pushAll startTypes
  modify fun v => { v with frames := { opcode, startTypes, endTypes, height } :: v.frames }

def popFrame : Check Frame := do
  match (← get).frames with
  | [] => throw (.unbalancedFrames 0)
  | f :: outer =>
    popAll f.endTypes
    modify fun v => { v with frames := outer }
    let found := (← get).operands.length
    if found = f.height then return f else throw (.stackHeightMismatch f.height found)

/-- Discards the operands of the innermost frame; what follows in it cannot be reached. -/
def setUnreachable : Check Unit :=
  modify fun v =>
    match v.frames with
    | [] => v
    | f :: outer =>
      { v with
        operands := v.operands.drop (v.operands.length - f.height)
        frames := { f with isUnreachable := true } :: outer }

def label (depth : UInt32) : Check (List ValType) := do
  match (← get).frames[depth.toNat]? with
  | some f => return f.labelTypes
  | none => throw (.unknownLabel depth)

def local? (ctx : Context) (index : UInt32) : Check ValType :=
  match ctx.locals[index.toNat]? with
  | some t => return t
  | none => throw (.unknownLocal index)

def global? (ctx : Context) (index : UInt32) : Check GlobalType :=
  match ctx.globalType index with
  | some g => return g
  | none => throw (.unknownGlobal index)

def join (a b : Operand) : Check Operand :=
  match a, b with
  | .known s, .known t => if s = t then return a else throw (.stackTypeMismatch s t)
  | .unknown, o => return o
  | o, .unknown => return o

def instr (ctx : Context) : Instr → Check Unit
  | .unreachable => setUnreachable
  | .nop => return
  | .block t => pushFrame .block [] t.results
  | .loop t => pushFrame .loop [] t.results
  | .if_ t => do
    discard (popExpected .i32)
    pushFrame .if_ [] t.results
  | .else_ => do
    match (← get).frames with
    | f :: _ =>
      if f.opcode = .if_ then
        let f ← popFrame
        pushFrame .else_ f.startTypes f.endTypes
      else throw .elseWithoutIf
    | [] => throw .elseWithoutIf
  | .end_ => do
    let f ← popFrame
    -- A missing `else` passes its inputs straight through.
    if f.opcode = .if_ ∧ f.startTypes ≠ f.endTypes then throw (.ifWithoutElse f.endTypes.length)
    else pushAll f.endTypes
  | .br depth => do
    popAll (← label depth)
    setUnreachable
  | .brIf depth => do
    discard (popExpected .i32)
    let types ← label depth
    popAll types
    pushAll types
  | .return_ => do
    popAll (((← get).frames.getLast?.map Frame.endTypes).getD [])
    setUnreachable
  | .call index =>
    match ctx.functionType index with
    | some t => do
      popAll t.params
      pushAll t.results
    | none => throw (.unknownFunction index)
  | .drop => discard pop
  | .select => do
    discard (popExpected .i32)
    let a ← pop
    let b ← pop
    push (← join a b)
  | .localGet index => do push (.known (← local? ctx index))
  | .localSet index => do discard (popExpected (← local? ctx index))
  | .localTee index => do
    let t ← local? ctx index
    discard (popExpected t)
    push (.known t)
  | .globalGet index => do push (.known (← global? ctx index).type)
  | .globalSet index => do
    let g ← global? ctx index
    if g.isMutable then discard (popExpected g.type) else throw (.immutableGlobal index)
  | .i32Const _ => push (.known .i32)
  | .i64Const _ => push (.known .i64)
  | .numeric op => do
    popAll op.shape.operands
    push (.known op.shape.result)

/-- Nothing may follow the `end` of the function's own frame. -/
def enter (offset : Nat) : Check Unit := do
  if (← get).frames.isEmpty then throw (.unbalancedFrames 0)
  else modify fun v => { v with position := offset }

def listing (ctx : Context) : Listing → Check Unit
  | .done => do
    let opened := (← get).frames.length
    if opened = 0 then return else throw (.unbalancedFrames opened)
  | .broken offset cause => do
    enter offset
    throw cause
  | .instr offset i rest => do
    enter offset
    instr ctx i
    listing ctx rest

def code (ctx : Context) (bytes : Bytes) : Check Unit := listing ctx (Listing.ofBytes 0 bytes)

end Check

def Context.ofFunction (functionType : UInt32 → Option FuncType)
    (globalType : UInt32 → Option GlobalType) (type : FuncType) (locals : List ValType) : Context :=
  { functionType, globalType, locals := type.params ++ locals }

/-- Checks one body against the function's results; a failure comes with the offset of the
instruction it was found at. -/
def validateBody (ctx : Context) (results : List ValType) (bytes : Bytes) :
    Except (Nat × ValidationError) Unit :=
  match (Check.code ctx bytes).run.run (.start results) with
  | (.ok (), _) => .ok ()
  | (.error e, v) => .error (v.position, e)

end ImpWasm.Wasm
