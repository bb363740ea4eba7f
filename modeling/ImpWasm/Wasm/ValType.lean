import ImpWasm.Wasm.Leb128
set_option autoImplicit false

namespace ImpWasm.Wasm

inductive ValType where
  | i32 | i64 | f32 | f64 | v128 | funcref | externref
  deriving DecidableEq, Repr

namespace ValType

def all : List ValType := [.i32, .i64, .f32, .f64, .v128, .funcref, .externref]

def code : ValType → UInt8
  | .i32 => 0x7F
  | .i64 => 0x7E
  | .f32 => 0x7D
  | .f64 => 0x7C
  | .v128 => 0x7B
  | .funcref => 0x70
  | .externref => 0x6F

def ofCode? (c : UInt8) : Option ValType := all.find? (·.code == c)

@[simp] theorem ofCode?_code (t : ValType) : ofCode? t.code = some t := by cases t <;> rfl

def name : ValType → String
  | .i32 => "i32"
  | .i64 => "i64"
  | .f32 => "f32"
  | .f64 => "f64"
  | .v128 => "v128"
  | .funcref => "funcref"
  | .externref => "externref"

def ofName? (s : String) : Option ValType := all.find? (·.name == s)

end ValType

structure FuncType where
  params : List ValType := []
  results : List ValType := []
  deriving DecidableEq, Repr

namespace FuncType

def encode (t : FuncType) : Bytes :=
  0x60 :: (encodeVector (fun p => [p.code]) t.params ++ encodeVector (fun r => [r.code]) t.results)

def text (t : FuncType) : String :=
  let side (ts : List ValType) := "(" ++ String.intercalate "," (ts.map (·.name)) ++ ")"
  side t.params ++ "->" ++ side t.results

end FuncType

inductive BlockType where
  | empty
  | value (type : ValType)
  deriving DecidableEq, Repr

namespace BlockType

def code : BlockType → UInt8
  | .empty => 0x40
  | .value t => t.code

def ofCode? (c : UInt8) : Option BlockType :=
  if c == 0x40 then some .empty else (ValType.ofCode? c).map .value

@[simp] theorem ofCode?_code (t : BlockType) : ofCode? t.code = some t := by
  cases t with
  | empty => rfl
  | value t => cases t <;> rfl

def results : BlockType → List ValType
  | .empty => []
  | .value t => [t]

end BlockType

end ImpWasm.Wasm
