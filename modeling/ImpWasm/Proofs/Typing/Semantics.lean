import ImpWasm.Lowering
import ImpWasm.Proofs.Outcome
set_option autoImplicit false

/-!
What checked programs do. Numbers are 32 bits wide and wrap around; a truth value is 1 or 0. Strings have
no values here. A bound on the iterations of every loop and on the depth of calls makes the
interpreter total: a run that reaches the bound has no outcome.
-/
namespace ImpWasm

/-- The value of an operation, unless it traps. Both sides of a logical operator have been evaluated. -/
def Operator.eval : Operator → Int32 → Int32 → Option Int32
  | .add, a, b => some (a + b)
  | .sub, a, b => some (a - b)
  | .mul, a, b => some (a * b)
  | .div, a, b => if b = 0 ∨ (a = Int32.minValue ∧ b = -1) then none else some (a / b)
  | .mod, a, b => if b = 0 then none else some (a % b)
  | .eq, a, b => some (boolConst (a == b))
  | .ne, a, b => some (boolConst (a != b))
  | .lt, a, b => some (boolConst (a < b))
  | .le, a, b => some (boolConst (a ≤ b))
  | .gt, a, b => some (boolConst (a > b))
  | .ge, a, b => some (boolConst (a ≥ b))
  | .and, a, b => some (a &&& b)
  | .or, a, b => some (a ||| b)

namespace Typed

structure Call where
  name : String
  args : List Int32
  result : Option Int32
  deriving DecidableEq, Repr

/-- The world outside a program: what an imported function returns may depend on all the calls made
before, the earliest first. -/
abbrev Host := List Call → String → List Int32 → Option Int32

/-- The values of the variables by symbol, those of the top level and those of the function that is
running, and the calls made so far. -/
structure State where
  globals : Nat → Int32 := fun _ => 0
  locals : Nat → Int32 := fun _ => 0
  trace : List Call := []

def update (f : Nat → Int32) (symbol : Nat) (value : Int32) : Nat → Int32 :=
  fun s => if s = symbol then value else f s

/-- Variables of the top level are the symbols for which `top` is true. -/
def State.read (top : Nat → Bool) (s : State) (symbol : Nat) : Int32 :=
  if top symbol then s.globals symbol else s.locals symbol

def State.write (top : Nat → Bool) (symbol : Nat) (value : Int32) (s : State) : State :=
  if top symbol then { s with globals := update s.globals symbol value }
  else { s with locals := update s.locals symbol value }

/-- Ways in which a computation does not run on to its end. A string and a run that is too long have
no outcome. -/
inductive Stop where
  | returned (value : Int32)
  | trap
  | undefined
  deriving DecidableEq, Repr

abbrev Run := ExceptT Stop (StateM State)

structure World where
  top : Nat → Bool
  call : String → List Int32 → Run Int32

mutual

/-- Operands and arguments are evaluated from left to right. -/
def Expr.eval (w : World) : Expr → Run Int32
  | .ident name _ _ => do return (← get).read w.top name.symbol
  | .int value _ => return value
  | .bool value _ => return boolConst value
  | .string _ _ => throw .undefined
  | .binary op left right _ _ => do
    let a ← left.eval w
    let b ← right.eval w
    match op.eval a b with
    | some v => return v
    | none => throw .trap
  | .call callee args _ _ => do
    let values ← Expr.evalAll w args
    w.call callee values

def Expr.evalAll (w : World) : List Expr → Run (List Int32)
  | [] => return []
  | e :: es => do
    let v ← e.eval w
    return v :: (← Expr.evalAll w es)

end

def evalInit (w : World) : Option Expr → Run Int32
  | some init => init.eval w
  | none => return 0

def whileLoop (test : Run Int32) (body : Run Unit) : Nat → Run Unit
  | 0 => throw .undefined
  | n + 1 => do
    if (← test) ≠ 0 then
      body
      whileLoop test body n

mutual

/-- Runs a statement, every loop for at most `fuel` iterations. Declarations of functions do nothing. -/
def Stmt.exec (w : World) (fuel : Nat) : Stmt → Run Unit
  | .expr value _ => discard (value.eval w)
  | .var name _ init _ => do
    let v ← evalInit w init
    modify (State.write w.top name.symbol v)
  | .assign target value _ => do
    let v ← value.eval w
    modify (State.write w.top target.symbol v)
  | .block body _ _ => Stmt.execAll w fuel body
  | .function .. | .imported .. => return
  | .return_ value _ => do
    let v ← value.eval w
    throw (.returned v)
  | .while_ condition body _ _ => whileLoop (condition.eval w) (Stmt.execAll w fuel body) fuel
  | .ifThen condition yes _ _ => do
    if (← condition.eval w) ≠ 0 then Stmt.execAll w fuel yes
  | .ifElse condition yes _ no _ _ => do
    if (← condition.eval w) ≠ 0 then Stmt.execAll w fuel yes else Stmt.execAll w fuel no

def Stmt.execAll (w : World) (fuel : Nat) : List Stmt → Run Unit
  | [] => return
  | s :: ss => do
    s.exec w fuel
    Stmt.execAll w fuel ss

end

def bindParams (params : List Param) (args : List Int32) : Nat → Int32 :=
  fun symbol => (((params.map (·.name.symbol)).zip args).lookup symbol).getD 0

/-- Runs a body in an activation of its own. A body that does not return traps. -/
def activate (params : List Param) (args : List Int32) (body : Run Unit) : Run Int32 := do
  let outer ← get
  set { outer with locals := bindParams params args }
  let r ← attempt body
  let s ← get
  match r with
  | .error (.returned v) =>
    set { s with locals := outer.locals }
    return v
  | .ok () => throw .trap
  | .error e => throw e

def callHost (host : Host) (name : String) (args : List Int32) : Run Int32 := do
  let result := host (← get).trace name args
  modify fun s => { s with trace := s.trace ++ [⟨name, args, result⟩] }
  match result with
  | some v => return v
  | none => throw .trap

def Stmt.variable? : Stmt → Option Nat
  | .var name _ _ _ => some name.symbol
  | _ => none

def Stmt.function? : Stmt → Option (String × List Param × List Stmt)
  | .function name params _ body _ _ => some (name, params, body)
  | _ => none

namespace Program

def globals (p : Program) : List Nat := p.body.filterMap Stmt.variable?

def function? (p : Program) (name : String) : Option (List Param × List Stmt) :=
  (p.body.filterMap Stmt.function?).lookup name

/-- Calls a function, to a depth of at most `fuel` calls. What the program does not declare is
outside it. -/
def call (p : Program) (host : Host) : (fuel : Nat) → String → List Int32 → Run Int32
  | 0, _, _ => throw .undefined
  | n + 1, name, args =>
    match p.function? name with
    | some (params, body) =>
      activate params args (Stmt.execAll ⟨fun s => p.globals.contains s, p.call host n⟩ n body)
    | none => callHost host name args

def world (p : Program) (host : Host) (fuel : Nat) : World :=
  ⟨fun s => p.globals.contains s, p.call host fuel⟩

inductive Ending where
  | finished (globals : List Int32) (trace : List Call)
  | trapped (trace : List Call)
  deriving DecidableEq, Repr

def run (p : Program) (host : Host) (fuel : Nat) : Option Ending :=
  match outcome (Stmt.execAll (p.world host fuel) fuel p.body) {} with
  | (.ok (), s) => some (.finished (p.globals.map s.globals) s.trace)
  | (.error .trap, s) => some (.trapped s.trace)
  | (.error _, _) => none

end Program

end Typed

end ImpWasm
