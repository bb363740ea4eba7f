import ImpWasm.Wasm.Error
import ImpWasm.Wasm.Opcode
set_option autoImplicit false

namespace ImpWasm.Wasm

inductive Instr where
  | unreachable
  | nop
  | block (type : BlockType)
  | loop (type : BlockType)
  | if_ (type : BlockType)
  | else_
  | end_
  | br (depth : UInt32)
  | brIf (depth : UInt32)
  | return_
  | call (function : UInt32)
  | drop
  | select
  | localGet (index : UInt32)
  | localSet (index : UInt32)
  | localTee (index : UInt32)
  | globalGet (index : UInt32)
  | globalSet (index : UInt32)
  | i32Const (value : Int32)
  | i64Const (value : Int64)
  | numeric (op : Numeric)
  deriving DecidableEq, Repr

namespace Instr

def opcode : Instr → Opcode
  | .unreachable => .unreachable
  | .nop => .nop
  | .block _ => .block
  | .loop _ => .loop
  | .if_ _ => .if_
  | .else_ => .else_
  | .end_ => .end_
  | .br _ => .br
  | .brIf _ => .brIf
  | .return_ => .return_
  | .call _ => .call
  | .drop => .drop
  | .select => .select
  | .localGet _ => .localGet
  | .localSet _ => .localSet
  | .localTee _ => .localTee
  | .globalGet _ => .globalGet
  | .globalSet _ => .globalSet
  | .i32Const _ => .i32Const
  | .i64Const _ => .i64Const
  | .numeric op => .numeric op

def immediate : Instr → Bytes
  | .block t | .loop t | .if_ t => [t.code]
  | .br i | .brIf i | .call i | .localGet i | .localSet i | .localTee i | .globalGet i
  | .globalSet i => encodeU32 i
  | .i32Const v => encodeI32 v
  | .i64Const v => encodeI64 v
  | _ => []

def encode (i : Instr) : Bytes := i.opcode.byte :: i.immediate

def encodeAll (is : List Instr) : Bytes := is.flatMap encode

def readBlockType (offset : Nat) : Bytes → Except ValidationError (BlockType × Nat)
  | [] => .error (.decode (.unexpectedEnd offset))
  | b :: _ =>
    match BlockType.ofCode? b with
    | some t => .ok (t, 1)
    | none => .error (.invalidBlockType b)

def withBlockType (make : BlockType → Instr) (offset : Nat) (bytes : Bytes) :
    Except ValidationError (Instr × Nat) :=
  (readBlockType offset bytes).map fun (t, n) => (make t, n)

def withInteger {α : Type} (make : α → Instr) :
    Except DecodeError (α × Nat) → Except ValidationError (Instr × Nat)
  | .ok (v, n) => .ok (make v, n)
  | .error e => .error (.decode e)

def withIndex (make : UInt32 → Instr) (offset : Nat) (bytes : Bytes) :
    Except ValidationError (Instr × Nat) :=
  withInteger make (readU32 offset bytes)

/-- The instruction of an opcode whose immediate stands at `offset` at the head of `bytes`, and the
number of bytes of that immediate. -/
def readImmediate (offset : Nat) (bytes : Bytes) : Opcode → Except ValidationError (Instr × Nat)
  | .unreachable => .ok (.unreachable, 0)
  | .nop => .ok (.nop, 0)
  | .block => withBlockType .block offset bytes
  | .loop => withBlockType .loop offset bytes
  | .if_ => withBlockType .if_ offset bytes
  | .else_ => .ok (.else_, 0)
  | .end_ => .ok (.end_, 0)
  | .br => withIndex .br offset bytes
  | .brIf => withIndex .brIf offset bytes
  | .return_ => .ok (.return_, 0)
  | .call => withIndex .call offset bytes
  | .drop => .ok (.drop, 0)
  | .select => .ok (.select, 0)
  | .localGet => withIndex .localGet offset bytes
  | .localSet => withIndex .localSet offset bytes
  | .localTee => withIndex .localTee offset bytes
  | .globalGet => withIndex .globalGet offset bytes
  | .globalSet => withIndex .globalSet offset bytes
  | .i32Const => withInteger .i32Const (readI32 offset bytes)
  | .i64Const => withInteger .i64Const (readI64 offset bytes)
  | .numeric op => .ok (.numeric op, 0)

def read (offset : Nat) (b : UInt8) (rest : Bytes) : Except ValidationError (Instr × Nat) :=
  match Opcode.ofByte? b with
  | none => .error (.unknownOpcode b)
  | some o => readImmediate (offset + 1) rest o

end Instr

/-- Code as it is read: instructions with their offsets, up to the end or to bytes that are none. -/
inductive Listing where
  | done
  | broken (offset : Nat) (cause : ValidationError)
  | instr (offset : Nat) (head : Instr) (tail : Listing)
  deriving DecidableEq, Repr

def Listing.ofBytes (offset : Nat) : Bytes → Listing
  | [] => .done
  | b :: rest =>
    match Instr.read offset b rest with
    | .error e => .broken offset e
    | .ok (i, n) => .instr offset i (ofBytes (offset + 1 + n) (rest.drop n))
termination_by bytes => bytes.length
decreasing_by simp only [List.length_drop, List.length_cons]; omega

/-- Declared locals, parameters excluded, and code, which is expected to finish with an `end`. -/
structure Body where
  locals : List ValType := []
  code : Bytes := []
  deriving DecidableEq, Repr

namespace Body

def addLocal (b : Body) (t : ValType) : Body := { b with locals := b.locals ++ [t] }

def emit (b : Body) (i : Instr) : Body := { b with code := b.code ++ i.encode }

def ofInstrs (locals : List ValType) (is : List Instr) : Body := ⟨locals, Instr.encodeAll is⟩

def groups : List ValType → List (Nat × ValType)
  | [] => []
  | t :: ts =>
    match groups ts with
    | (n, u) :: rest => if t = u then (n + 1, u) :: rest else (1, t) :: (n, u) :: rest
    | [] => [(1, t)]

theorem replicate_groups (ts : List ValType) :
    (groups ts).flatMap (fun g => List.replicate g.1 g.2) = ts := by
  induction ts with
  | nil => rfl
  | cons t ts ih =>
    simp only [groups]
    split
    · rename_i n u rest hg
      rw [hg] at ih
      split
      · rename_i heq
        subst heq
        simpa [List.replicate_succ] using ih
      · simpa [List.replicate_succ] using ih
    · rename_i hg
      rw [hg] at ih
      simpa [List.replicate_succ] using ih

def encode (b : Body) : Bytes :=
  encodeVector (fun (n, t) => encodeCount n ++ [t.code]) (groups b.locals) ++ b.code

end Body

end ImpWasm.Wasm
