import ImpWasm.Proofs.Wasm.Semantics
set_option autoImplicit false

/-!
Modules run one instruction at a time. The machine keeps, for every call in progress, the blocks that
the call is in and the operands below each of them: an instruction sees only those above the base of
its own block. Nothing bounds a run; it ends with the results, in a trap, stuck, or not at all.
-/
namespace ImpWasm.Wasm

structure Block where
  types : List ValType
  results : List ValType
  /-- The inside of a loop, which a branch runs again. -/
  again : Option Code := none
  rest : Code
  base : List Value
  deriving DecidableEq, Repr

/-- A call in progress: the blocks it is in, the innermost first, and the operands (the top first) and
the code of the innermost of them. -/
structure Activation where
  results : List ValType
  locals : List Value
  blocks : List Block := []
  stack : List Value := []
  code : Code
  deriving DecidableEq, Repr

structure HostCall where
  function : UInt32
  args : List Value
  results : List Value
  deriving DecidableEq, Repr

/-- The world outside a module: what an imported function returns for its arguments, and the globals as
it leaves them, may depend on all the calls made before. -/
abbrev Environment := List HostCall → UInt32 → (args globals : List Value) → List Value × List Value

structure Machine where
  globals : List Value
  calls : List HostCall := []
  running : Activation
  callers : List Activation := []
  deriving DecidableEq, Repr

/-- Ways in which a run ends. It is stuck if an instruction does not find what it needs: operands of its
types, or a variable, a function or a label with its index, or a global that may be written. -/
inductive Stop where
  | returned (values : List Value)
  | trap
  | stuck
  deriving DecidableEq, Repr

def operands? (types : List ValType) (stack : List Value) : Option (List Value × List Value) :=
  let values := (stack.take types.length).reverse
  if values.map Value.type = types then some (values, stack.drop types.length) else none

def Instr.callee? : Instr → Option UInt32
  | .call function => some function
  | _ => none

def Module.activation (m : Module) (function : UInt32) (args : List Value) : Option Activation := do
  let type ← m.functionType function
  let body ← m.body function
  let code ← Code.ofBytes? body.code
  return { results := type.results, locals := args ++ body.locals.map Value.zero, code }

namespace Machine

def leave (s : Machine) (stack : List Value) : Except Stop Machine :=
  match operands? s.running.results stack with
  | none => .error .stuck
  | some (values, _) =>
    match s.callers with
    | [] => .error (.returned values)
    | caller :: callers =>
      .ok { s with running := { caller with stack := values.reverse ++ caller.stack }, callers }

/-- A branch takes what its label wants and drops the other operands of the blocks it leaves. The label
outside of all blocks is that of the function. -/
def branch (s : Machine) (depth : Nat) (stack : List Value) : Except Stop Machine :=
  let a := s.running
  if depth = a.blocks.length then s.leave stack
  else
    match a.blocks[depth]? with
    | none => .error .stuck
    | some b =>
      match operands? b.types stack with
      | none => .error .stuck
      | some (values, _) =>
        match b.again with
        | some body =>
          .ok { s with running := { a with blocks := a.blocks.drop depth, stack := values.reverse, code := body } }
        | none =>
          .ok { s with
            running :=
              { a with blocks := a.blocks.drop (depth + 1), stack := values.reverse ++ b.base, code := b.rest } }

def finish (s : Machine) : Except Stop Machine :=
  let a := s.running
  match a.blocks with
  | [] => if a.stack.length = a.results.length then s.leave a.stack else .error .stuck
  | b :: blocks =>
    if (a.stack.map Value.type).reverse = b.results then
      .ok { s with running := { a with blocks, stack := a.stack ++ b.base, code := b.rest } }
    else .error .stuck

def enter (s : Machine) (b : Block) (body : Code) : Machine :=
  { s with running := { s.running with blocks := b :: s.running.blocks, stack := [], code := body } }

def choose (s : Machine) (t : BlockType) (yes no rest : Code) : Except Stop Machine :=
  match s.running.stack with
  | .i32 c :: base =>
    .ok (s.enter { types := t.results, results := t.results, rest, base } (if c = 0 then no else yes))
  | _ => .error .stuck

def call (m : Module) (env : Environment) (s : Machine) (function : UInt32) (rest : Code) :
    Except Stop Machine :=
  match m.functionType function with
  | none => .error .stuck
  | some type =>
    match operands? type.params s.running.stack with
    | none => .error .stuck
    | some (args, stack) =>
      if function.toNat < m.importedFunctionCount then
        let (results, globals) := env s.calls function args s.globals
        .ok { s with
          globals
          calls := s.calls ++ [⟨function, args, results⟩]
          running := { s.running with stack := results.reverse ++ stack, code := rest } }
      else
        match m.activation function args with
        | none => .error .stuck
        | some callee =>
          .ok { s with running := callee, callers := { s.running with stack, code := rest } :: s.callers }

def plain (m : Module) (env : Environment) (s : Machine) (i : Instr) (rest : Code) : Except Stop Machine :=
  match i.callee? with
  | some function => s.call m env function rest
  | none =>
    let a := s.running
    match outcome (Exec.plain m (fun _ => throw .stuck) i)
      { globals := s.globals, locals := a.locals, stack := a.stack } with
    | (.ok (), t) =>
      .ok { s with
        globals := t.globals
        running := { a with locals := t.locals, stack := t.stack, code := rest } }
    | (.error (.branch depth), t) => s.branch depth t.stack
    | (.error .return_, t) => s.leave t.stack
    | (.error .trap, _) => .error .trap
    | (.error _, _) => .error .stuck

def step (m : Module) (env : Environment) (s : Machine) : Except Stop Machine :=
  match s.running.code with
  | .done => s.finish
  | .plain i _ rest => s.plain m env i rest
  | .block t body rest =>
    .ok (s.enter { types := t.results, results := t.results, rest, base := s.running.stack } body)
  | .loop t body rest =>
    .ok (s.enter { types := [], results := t.results, again := some body, rest, base := s.running.stack } body)
  | .ifThen t yes rest => s.choose t yes .done rest
  | .ifElse t yes no rest => s.choose t yes no rest

def run (m : Module) (env : Environment) : Nat → Machine → Except Stop Machine
  | 0, s => .ok s
  | n + 1, s => do run m env n (← s.step m env)

end Machine

end ImpWasm.Wasm
