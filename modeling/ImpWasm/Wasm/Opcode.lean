import ImpWasm.Wasm.ValType
set_option autoImplicit false

/-!
The instruction set: control flow, variables, integer constants and integer arithmetic. The numeric
instructions come in families over the two integer widths, and a family's bytes are consecutive.
-/
namespace ImpWasm.Wasm

inductive IntWidth where
  | w32 | w64
  deriving DecidableEq, Repr

def IntWidth.type : IntWidth → ValType
  | .w32 => .i32
  | .w64 => .i64

inductive RelOp where
  | eq | ne | ltS | ltU | gtS | gtU | leS | leU | geS | geU
  deriving DecidableEq, Repr

def RelOp.all : List RelOp := [.eq, .ne, .ltS, .ltU, .gtS, .gtU, .leS, .leU, .geS, .geU]

def RelOp.name : RelOp → String
  | .eq => "eq"
  | .ne => "ne"
  | .ltS => "lt_s"
  | .ltU => "lt_u"
  | .gtS => "gt_s"
  | .gtU => "gt_u"
  | .leS => "le_s"
  | .leU => "le_u"
  | .geS => "ge_s"
  | .geU => "ge_u"

inductive UnOp where
  | clz | ctz | popcnt
  deriving DecidableEq, Repr

def UnOp.all : List UnOp := [.clz, .ctz, .popcnt]

def UnOp.name : UnOp → String
  | .clz => "clz"
  | .ctz => "ctz"
  | .popcnt => "popcnt"

inductive BinOp where
  | add | sub | mul | divS | divU | remS | remU | and | or | xor | shl | shrS | shrU | rotl | rotr
  deriving DecidableEq, Repr

def BinOp.all : List BinOp :=
  [.add, .sub, .mul, .divS, .divU, .remS, .remU, .and, .or, .xor, .shl, .shrS, .shrU, .rotl, .rotr]

def BinOp.name : BinOp → String
  | .add => "add"
  | .sub => "sub"
  | .mul => "mul"
  | .divS => "div_s"
  | .divU => "div_u"
  | .remS => "rem_s"
  | .remU => "rem_u"
  | .and => "and"
  | .or => "or"
  | .xor => "xor"
  | .shl => "shl"
  | .shrS => "shr_s"
  | .shrU => "shr_u"
  | .rotl => "rotl"
  | .rotr => "rotr"

inductive Numeric where
  | eqz (w : IntWidth)
  | rel (w : IntWidth) (op : RelOp)
  | unary (w : IntWidth) (op : UnOp)
  | binary (w : IntWidth) (op : BinOp)
  | wrap
  | extendS
  | extendU
  deriving DecidableEq, Repr

inductive NumericShape where
  | test (t : ValType)
  | relational (t : ValType)
  | unary (t : ValType)
  | binary (t : ValType)
  | convert (source target : ValType)
  deriving DecidableEq, Repr

namespace NumericShape

/-- The operand types, the deepest first. -/
def operands : NumericShape → List ValType
  | .test t | .unary t => [t]
  | .relational t | .binary t => [t, t]
  | .convert source _ => [source]

def result : NumericShape → ValType
  | .test _ | .relational _ => .i32
  | .unary t | .binary t => t
  | .convert _ target => target

def text : NumericShape → String
  | .test t => "test " ++ t.name
  | .relational t => "relational " ++ t.name
  | .unary t => "unary " ++ t.name
  | .binary t => "binary " ++ t.name
  | .convert source target => "convert " ++ source.name ++ " " ++ target.name

end NumericShape

namespace Numeric

def all : List Numeric :=
  let families (w : IntWidth) : List Numeric :=
    [.eqz w] ++ RelOp.all.map (.rel w) ++ UnOp.all.map (.unary w) ++ BinOp.all.map (.binary w)
  families .w32 ++ families .w64 ++ [.wrap, .extendS, .extendU]

def shape : Numeric → NumericShape
  | .eqz w => .test w.type
  | .rel w _ => .relational w.type
  | .unary w _ => .unary w.type
  | .binary w _ => .binary w.type
  | .wrap => .convert .i64 .i32
  | .extendS | .extendU => .convert .i32 .i64

def byte : Numeric → UInt8
  | .eqz .w32 => 0x45
  | .eqz .w64 => 0x50
  | .rel .w32 op => 0x46 + (RelOp.all.idxOf op).toUInt8
  | .rel .w64 op => 0x51 + (RelOp.all.idxOf op).toUInt8
  | .unary .w32 op => 0x67 + (UnOp.all.idxOf op).toUInt8
  | .unary .w64 op => 0x79 + (UnOp.all.idxOf op).toUInt8
  | .binary .w32 op => 0x6A + (BinOp.all.idxOf op).toUInt8
  | .binary .w64 op => 0x7C + (BinOp.all.idxOf op).toUInt8
  | .wrap => 0xA7
  | .extendS => 0xAC
  | .extendU => 0xAD

def name : Numeric → String
  | .eqz w => w.type.name ++ ".eqz"
  | .rel w op => w.type.name ++ "." ++ op.name
  | .unary w op => w.type.name ++ "." ++ op.name
  | .binary w op => w.type.name ++ "." ++ op.name
  | .wrap => "i32.wrap_i64"
  | .extendS => "i64.extend_i32_s"
  | .extendU => "i64.extend_i32_u"

end Numeric

inductive Opcode where
  | unreachable | nop | block | loop | if_ | else_ | end_ | br | brIf | return_ | call
  | drop | select
  | localGet | localSet | localTee | globalGet | globalSet
  | i32Const | i64Const
  | numeric (op : Numeric)
  deriving DecidableEq, Repr

namespace Opcode

def all : List Opcode :=
  [.unreachable, .nop, .block, .loop, .if_, .else_, .end_, .br, .brIf, .return_, .call, .drop,
    .select, .localGet, .localSet, .localTee, .globalGet, .globalSet, .i32Const, .i64Const]
  ++ Numeric.all.map .numeric

def byte : Opcode → UInt8
  | .unreachable => 0x00
  | .nop => 0x01
  | .block => 0x02
  | .loop => 0x03
  | .if_ => 0x04
  | .else_ => 0x05
  | .end_ => 0x0B
  | .br => 0x0C
  | .brIf => 0x0D
  | .return_ => 0x0F
  | .call => 0x10
  | .drop => 0x1A
  | .select => 0x1B
  | .localGet => 0x20
  | .localSet => 0x21
  | .localTee => 0x22
  | .globalGet => 0x23
  | .globalSet => 0x24
  | .i32Const => 0x41
  | .i64Const => 0x42
  | .numeric op => op.byte

def ofByte? (b : UInt8) : Option Opcode := all.find? (·.byte == b)

@[simp] theorem ofByte?_byte (o : Opcode) : ofByte? o.byte = some o := by
  cases o with
  | numeric n =>
    cases n with
    | eqz w => cases w <;> decide +kernel
    | rel w op => cases w <;> cases op <;> decide +kernel
    | unary w op => cases w <;> cases op <;> decide +kernel
    | binary w op => cases w <;> cases op <;> decide +kernel
    | _ => decide +kernel
  | _ => decide +kernel

def name : Opcode → String
  | .unreachable => "unreachable"
  | .nop => "nop"
  | .block => "block"
  | .loop => "loop"
  | .if_ => "if"
  | .else_ => "else"
  | .end_ => "end"
  | .br => "br"
  | .brIf => "br_if"
  | .return_ => "return"
  | .call => "call"
  | .drop => "drop"
  | .select => "select"
  | .localGet => "local.get"
  | .localSet => "local.set"
  | .localTee => "local.tee"
  | .globalGet => "global.get"
  | .globalSet => "global.set"
  | .i32Const => "i32.const"
  | .i64Const => "i64.const"
  | .numeric op => op.name

def ofName? (s : String) : Option Opcode := all.find? (·.name == s)

def shape? : Opcode → Option NumericShape
  | .numeric op => some op.shape
  | _ => none

end Opcode

end ImpWasm.Wasm
