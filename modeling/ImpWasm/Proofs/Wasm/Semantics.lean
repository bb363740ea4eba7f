import ImpWasm.Proofs.Outcome
import ImpWasm.Proofs.Wasm.Code
import ImpWasm.Wasm.Module
set_option autoImplicit false

/-!
What modules do. Code runs on a stack of values that carry their types; an instruction that does not
find what it needs is stuck. A bound on the iterations of every loop and on the depth of calls makes
the interpreter total: a run that reaches the bound ends with a timeout.
-/
namespace ImpWasm.Wasm

/-- Floating-point values and references are kept as bits and as names. -/
inductive Value where
  | i32 (v : Int32)
  | i64 (v : Int64)
  | f32 (bits : UInt32)
  | f64 (bits : UInt64)
  | v128 (bits : BitVec 128)
  | funcref (name : Option Nat)
  | externref (name : Option Nat)
  deriving DecidableEq, Repr

namespace Value

def type : Value → ValType
  | .i32 _ => .i32
  | .i64 _ => .i64
  | .f32 _ => .f32
  | .f64 _ => .f64
  | .v128 _ => .v128
  | .funcref _ => .funcref
  | .externref _ => .externref

def zero : ValType → Value
  | .i32 => .i32 0
  | .i64 => .i64 0
  | .f32 => .f32 0
  | .f64 => .f64 0
  | .v128 => .v128 0
  | .funcref => .funcref none
  | .externref => .externref none

end Value

def ConstValue.value : ConstValue → Value
  | .i32 v => .i32 v
  | .i64 v => .i64 v
  | .f32 bits => .f32 bits
  | .f64 bits => .f64 bits

def IntWidth.bits : IntWidth → Nat
  | .w32 => 32
  | .w64 => 64

def Value.ofBits : (w : IntWidth) → BitVec w.bits → Value
  | .w32, v => .i32 (.ofBitVec v)
  | .w64, v => .i64 (.ofBitVec v)

def Value.bits? : (w : IntWidth) → Value → Option (BitVec w.bits)
  | .w32, .i32 v => some v.toBitVec
  | .w64, .i64 v => some v.toBitVec
  | _, _ => none

def RelOp.eval {n : Nat} : RelOp → BitVec n → BitVec n → Bool
  | .eq, a, b => a == b
  | .ne, a, b => a != b
  | .ltS, a, b => a.slt b
  | .ltU, a, b => a.ult b
  | .gtS, a, b => b.slt a
  | .gtU, a, b => b.ult a
  | .leS, a, b => a.sle b
  | .leU, a, b => a.ule b
  | .geS, a, b => b.sle a
  | .geU, a, b => b.ule a

def UnOp.eval {n : Nat} : UnOp → BitVec n → BitVec n
  | .clz, a => a.clz
  | .ctz, a => a.ctz
  | .popcnt, a => a.cpop

/-- Division by zero has no result, nor has a quotient that cannot be represented. -/
def BinOp.eval {n : Nat} : BinOp → BitVec n → BitVec n → Option (BitVec n)
  | .add, a, b => some (a + b)
  | .sub, a, b => some (a - b)
  | .mul, a, b => some (a * b)
  | .divS, a, b => if b = 0 ∨ (a = .intMin n ∧ b = -1) then none else some (a.sdiv b)
  | .divU, a, b => if b = 0 then none else some (a.udiv b)
  | .remS, a, b => if b = 0 then none else some (a.srem b)
  | .remU, a, b => if b = 0 then none else some (a.umod b)
  | .and, a, b => some (a &&& b)
  | .or, a, b => some (a ||| b)
  | .xor, a, b => some (a ^^^ b)
  | .shl, a, b => some (a <<< (b.toNat % n))
  | .shrS, a, b => some (a.sshiftRight (b.toNat % n))
  | .shrU, a, b => some (a >>> (b.toNat % n))
  | .rotl, a, b => some (a.rotateLeft (b.toNat % n))
  | .rotr, a, b => some (a.rotateRight (b.toNat % n))

structure Event where
  module : String
  name : String
  args : List Value
  results : Option (List Value)
  deriving DecidableEq, Repr

/-- The world outside a module: what an imported function returns may depend on all the calls made
before, the earliest first. -/
abbrev Host := List Event → String → String → List Value → Option (List Value)

/-- The globals of the module and the calls made so far, and the locals and the operands (the top
first) of the function that is running. -/
structure State where
  globals : List Value := []
  trace : List Event := []
  locals : List Value := []
  stack : List Value := []
  deriving DecidableEq, Repr

inductive Exit where
  | branch (depth : Nat)
  | return_
  | trap
  | stuck
  | timeout
  deriving DecidableEq, Repr

abbrev Exec := ExceptT Exit (StateM State)

namespace Exec

def push (v : Value) : Exec Unit := modify fun s => { s with stack := v :: s.stack }

def pop : Exec Value := do
  match (← get).stack with
  | [] => throw .stuck
  | v :: rest =>
    modify fun s => { s with stack := rest }
    return v

def popBits (w : IntWidth) : Exec (BitVec w.bits) := do
  match (← pop).bits? w with
  | some v => return v
  | none => throw .stuck

section Stack

variable {s : State} {rest : List Value}

theorem outcome_push (v : Value) : outcome (push v) s = (.ok (), { s with stack := v :: s.stack }) := rfl

theorem outcome_pop {v : Value} (h : s.stack = v :: rest) :
    outcome pop s = (.ok v, { s with stack := rest }) := by
  simp only [pop, outcome_bind, outcome_get, h]
  rfl

theorem outcome_popBits (w : IntWidth) {v : BitVec w.bits} (h : s.stack = .ofBits w v :: rest) :
    outcome (popBits w) s = (.ok v, { s with stack := rest }) := by
  simp only [popBits, outcome_bind, outcome_pop h]
  cases w <;> rfl

end Stack

def popTruth : Exec Bool := do return (← popBits .w32) != 0

def pushTruth (b : Bool) : Exec Unit := push (.i32 (if b then 1 else 0))

/-- Pops values of the given types, the last of them first, and returns them in order. -/
def popAll (types : List ValType) : Exec (List Value) := do
  let s ← get
  let values := (s.stack.take types.length).reverse
  if values.map Value.type = types then
    set { s with stack := s.stack.drop types.length }
    return values
  else throw .stuck

def numeric : Numeric → Exec Unit
  | .eqz w => do pushTruth ((← popBits w) == 0)
  | .rel w op => do
    let b ← popBits w
    let a ← popBits w
    pushTruth (op.eval a b)
  | .unary w op => do push (.ofBits w (op.eval (← popBits w)))
  | .binary w op => do
    let b ← popBits w
    let a ← popBits w
    match op.eval a b with
    | some v => push (.ofBits w v)
    | none => throw .trap
  | .wrap => do push (.i32 (.ofBitVec ((← popBits .w64).setWidth 32)))
  | .extendS => do push (.i64 (.ofBitVec ((← popBits .w32).signExtend 64)))
  | .extendU => do push (.i64 (.ofBitVec ((← popBits .w32).setWidth 64)))

def readLocal (i : UInt32) : Exec Unit := do
  match (← get).locals[i.toNat]? with
  | some v => push v
  | none => throw .stuck

def writeLocal (i : UInt32) : Exec Unit := do
  let v ← pop
  let s ← get
  if s.locals[i.toNat]?.map Value.type = some v.type then
    set { s with locals := s.locals.set i.toNat v }
  else throw .stuck

def readGlobal (i : UInt32) : Exec Unit := do
  match (← get).globals[i.toNat]? with
  | some v => push v
  | none => throw .stuck

def writeGlobal (m : Module) (i : UInt32) : Exec Unit := do
  let v ← pop
  let s ← get
  if m.globalType i = some ⟨v.type, true⟩ ∧ i.toNat < s.globals.length then
    set { s with globals := s.globals.set i.toNat v }
  else throw .stuck

def plain (m : Module) (call : UInt32 → Exec Unit) : Instr → Exec Unit
  | .unreachable => throw .trap
  | .nop => return
  | .br depth => throw (.branch depth.toNat)
  | .brIf depth => do if ← popTruth then throw (.branch depth.toNat)
  | .return_ => throw .return_
  | .call i => call i
  | .drop => discard pop
  | .select => do
    let c ← popTruth
    let b ← pop
    let a ← pop
    if a.type = b.type then push (if c then a else b) else throw .stuck
  | .localGet i => readLocal i
  | .localSet i => writeLocal i
  | .localTee i => do
    writeLocal i
    readLocal i
  | .globalGet i => readGlobal i
  | .globalSet i => writeGlobal m i
  | .i32Const v => push (.i32 v)
  | .i64Const v => push (.i64 v)
  | .numeric op => numeric op
  | .block _ | .loop _ | .if_ _ | .else_ | .end_ => throw .stuck

/-- Runs the inside of a block on an empty stack of its own. A branch to the block takes the values
that its label wants and drops the others. -/
def inBlock (arity : Nat) (body : Exec Unit) : Exec Unit := do
  let base := (← get).stack
  modify fun s => { s with stack := [] }
  match ← attempt body with
  | .ok () => modify fun s => { s with stack := s.stack ++ base }
  | .error (.branch 0) =>
    let s ← get
    if arity ≤ s.stack.length then set { s with stack := s.stack.take arity ++ base } else throw .stuck
  | .error (.branch (d + 1)) => throw (.branch d)
  | .error e => throw e

def again (body : Exec Unit) : Nat → Exec Unit
  | 0 => throw .timeout
  | n + 1 => do
    match ← attempt body with
    | .ok () => return
    | .error (.branch 0) =>
      modify fun s => { s with stack := [] }
      again body n
    | .error e => throw e

end Exec

def Code.run (m : Module) (call : UInt32 → Exec Unit) (fuel : Nat) : Code → Exec Unit
  | .done => return
  | .plain i _ rest => do
    Exec.plain m call i
    rest.run m call fuel
  | .block t body rest => do
    Exec.inBlock t.results.length (body.run m call fuel)
    rest.run m call fuel
  | .loop t body rest => do
    Exec.inBlock t.results.length (Exec.again (body.run m call fuel) fuel)
    rest.run m call fuel
  | .ifThen t yes rest => do
    if ← Exec.popTruth then Exec.inBlock t.results.length (yes.run m call fuel)
    rest.run m call fuel
  | .ifElse t yes no rest => do
    if ← Exec.popTruth then Exec.inBlock t.results.length (yes.run m call fuel)
    else Exec.inBlock t.results.length (no.run m call fuel)
    rest.run m call fuel

namespace Module

def functionImports (m : Module) : List (String × String) :=
  m.imports.filterMap fun i =>
    match i.desc with
    | .function _ => some (i.module, i.name)
    | _ => none

def callHost (host : Host) (module name : String) (args : List Value) : Exec Unit := do
  let results := host (← get).trace module name args
  modify fun s => { s with trace := s.trace ++ [⟨module, name, args, results⟩] }
  match results with
  | some results => modify fun s => { s with stack := results.reverse ++ s.stack }
  | none => throw .trap

/-- Runs a body in an activation of its own. The end of the body, a `return` and a branch to the
outermost label all leave the results. -/
def activate (arity : Nat) (locals : List Value) (body : Exec Unit) : Exec Unit := do
  let outer ← get
  set { outer with locals, stack := [] }
  let r ← attempt body
  let s ← get
  match r with
  | .ok () | .error .return_ | .error (.branch 0) =>
    if arity ≤ s.stack.length then
      set { s with locals := outer.locals, stack := s.stack.take arity ++ outer.stack }
    else throw .stuck
  | .error (.branch _) => throw .stuck
  | .error e => throw e

/-- Calls a function on arguments that lie on the stack, to a depth of at most `fuel` calls. -/
def invoke (m : Module) (host : Host) : (fuel : Nat) → UInt32 → Exec Unit
  | 0, _ => throw .timeout
  | n + 1, i => do
    match m.functionType i with
    | none => throw .stuck
    | some t =>
      let args ← Exec.popAll t.params
      match m.functionImports[i.toNat]? with
      | some (module, name) => callHost host module name args
      | none =>
        match m.body i with
        | none => throw .stuck
        | some b =>
          match Code.ofBytes? b.code with
          | none => throw .stuck
          | some c =>
            activate t.results.length (args ++ b.locals.map Value.zero) (c.run m (m.invoke host n) n)

inductive Ending where
  | finished (globals : List Value) (trace : List Event)
  | trapped (trace : List Event)
  | stuck
  | timeout
  deriving DecidableEq, Repr

def Ending.ofOutcome : Except Exit Unit × State → Ending
  | (.ok (), s) => .finished s.globals s.trace
  | (.error .trap, s) => .trapped s.trace
  | (.error .timeout, _) => .timeout
  | (.error _, _) => .stuck

def initial (m : Module) : State := { globals := m.globals.map fun g => g.init.value }

def execute (m : Module) (host : Host) (fuel : Nat) : Ending :=
  match m.start with
  | none => .finished m.initial.globals []
  | some i => .ofOutcome (outcome (m.invoke host fuel i) m.initial)

end Module

end ImpWasm.Wasm
