import ImpWasm.Lang.Parser
import ImpWasm.Lowering
import ImpWasm.Typing.Checker
set_option autoImplicit false

namespace ImpWasm

inductive CompileError where
  | parse (cause : ParseError)
  | check (cause : TypeErrors)
  | lower (cause : LowerError)
  | module (cause : Wasm.ModuleError)
  deriving DecidableEq, Repr

def CompileError.diagnostic : CompileError → Diagnostic
  | .parse cause => cause.diagnostic
  | .check cause => TypeErrors.diagnostic cause
  | .lower cause => cause.diagnostic
  | .module cause => cause.diagnostic

structure CompileOptions extends LowerOptions where
  validate : Bool := true
  deriving DecidableEq, Repr

structure Compiled where
  bytes : Wasm.Bytes
  program : Typed.Program
  deriving Repr

def Compiled.hex (c : Compiled) : String := Hex.encode c.bytes

def CompileError.ofStage {ε α : Type} (wrap : ε → CompileError) : Except ε α → Except CompileError α
  | .ok a => .ok a
  | .error e => .error (wrap e)

/-- The encoding of a module, after validation if that is wanted. -/
def encodeWith (options : CompileOptions) (m : Wasm.Module) : Except CompileError Wasm.Bytes :=
  if options.validate then CompileError.ofStage .module m.finish else .ok m.encode

def Typed.Program.compile (options : CompileOptions) (p : Typed.Program) :
    Except CompileError Compiled := do
  let m ← CompileError.ofStage .lower (p.lower options.toLowerOptions)
  let bytes ← encodeWith options m
  return ⟨bytes, p⟩

def Program.compile (options : CompileOptions) (p : Program) : Except CompileError Compiled := do
  let typed ← CompileError.ofStage .check p.check
  typed.compile options

def compileSource (options : CompileOptions) (source : String) : Except CompileError Compiled := do
  let p ← CompileError.ofStage .parse (Program.parse source)
  p.compile options

end ImpWasm
