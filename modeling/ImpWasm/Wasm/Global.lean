import ImpWasm.Wasm.Instr
set_option autoImplicit false

namespace ImpWasm.Wasm

def littleEndian : Nat → Nat → Bytes
  | 0, _ => []
  | n+1, v => (v % 256).toUInt8 :: littleEndian n (v / 256)

/-- Floating-point constants are kept as their bit patterns. -/
inductive ConstValue where
  | i32 (value : Int32)
  | i64 (value : Int64)
  | f32 (bits : UInt32)
  | f64 (bits : UInt64)
  deriving DecidableEq, Repr

namespace ConstValue

def type : ConstValue → ValType
  | .i32 _ => .i32
  | .i64 _ => .i64
  | .f32 _ => .f32
  | .f64 _ => .f64

def encode : ConstValue → Bytes
  | .i32 v => Instr.encodeAll [.i32Const v, .end_]
  | .i64 v => Instr.encodeAll [.i64Const v, .end_]
  | .f32 bits => 0x43 :: littleEndian 4 bits.toNat ++ Instr.encode .end_
  | .f64 bits => 0x44 :: littleEndian 8 bits.toNat ++ Instr.encode .end_

end ConstValue

structure GlobalType where
  type : ValType
  isMutable : Bool
  deriving DecidableEq, Repr

def GlobalType.encode (g : GlobalType) : Bytes := [g.type.code, if g.isMutable then 1 else 0]

structure Global where
  type : GlobalType
  init : ConstValue
  deriving DecidableEq, Repr

def Global.make (type : ValType) (isMutable : Bool) (init : ConstValue) : Except ModuleError Global :=
  if init.type = type then .ok ⟨⟨type, isMutable⟩, init⟩
  else .error (.globalTypeMismatch type init.type)

def Global.encode (g : Global) : Bytes := g.type.encode ++ g.init.encode

structure Limits where
  min : UInt32
  max : Option UInt32 := none
  deriving DecidableEq, Repr

def Limits.encode (l : Limits) : Bytes :=
  match l.max with
  | none => 0x00 :: encodeU32 l.min
  | some max => 0x01 :: (encodeU32 l.min ++ encodeU32 max)

inductive ImportDesc where
  | function (typeIndex : UInt32)
  | table (element : ValType) (limits : Limits)
  | memory (limits : Limits)
  | global (type : GlobalType)
  deriving DecidableEq, Repr

def ImportDesc.encode : ImportDesc → Bytes
  | .function typeIndex => 0x00 :: encodeU32 typeIndex
  | .table element limits => 0x01 :: element.code :: limits.encode
  | .memory limits => 0x02 :: limits.encode
  | .global type => 0x03 :: type.encode

structure Import where
  module : String
  name : String
  desc : ImportDesc
  deriving DecidableEq, Repr

def Import.encode (i : Import) : Bytes := encodeName i.module ++ encodeName i.name ++ i.desc.encode

/-- An exported function. -/
structure Export where
  name : String
  function : UInt32
  deriving DecidableEq, Repr

def Export.encode (e : Export) : Bytes := encodeName e.name ++ 0x00 :: encodeU32 e.function

end ImpWasm.Wasm
