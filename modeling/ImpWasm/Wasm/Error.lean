import ImpWasm.Text.Hex
import ImpWasm.Wasm.ValType
set_option autoImplicit false

namespace ImpWasm.Wasm

inductive ValidationError where
  | stackUnderflow
  | stackTypeMismatch (expected found : ValType)
  | unknownOpcode (opcode : UInt8)
  | unknownLocal (index : UInt32)
  | unknownGlobal (index : UInt32)
  | immutableGlobal (index : UInt32)
  | unknownFunction (index : UInt32)
  | unknownLabel (depth : UInt32)
  | invalidBlockType (byte : UInt8)
  | elseWithoutIf
  | ifWithoutElse (expected : Nat)
  | unbalancedFrames (opened : Nat)
  | stackHeightMismatch (expected found : Nat)
  | decode (cause : DecodeError)
  deriving DecidableEq, Repr

def ValidationError.diagnostic : ValidationError → Diagnostic
  | .stackUnderflow =>
    { message := "Operand stack underflow"
      code := some "reflang::wasm::stack_underflow"
      help := some "An instruction consumed more values than the current block provides" }
  | .stackTypeMismatch expected found =>
    { message := "Operand type mismatch: expected " ++ expected.name ++ ", found " ++ found.name
      code := some "reflang::wasm::stack_type_mismatch" }
  | .unknownOpcode opcode =>
    { message := "Unknown opcode 0x" ++ Hex.encode [opcode]
      code := some "reflang::wasm::unknown_opcode"
      help := some "Only the integer instruction subset is supported" }
  | .unknownLocal index =>
    { message := "Unknown local " ++ toString index.toNat
      code := some "reflang::wasm::unknown_local" }
  | .unknownGlobal index =>
    { message := "Unknown global " ++ toString index.toNat
      code := some "reflang::wasm::unknown_global" }
  | .immutableGlobal index =>
    { message := "Global " ++ toString index.toNat ++ " is immutable"
      code := some "reflang::wasm::immutable_global"
      help := some "Declare the global as mutable to assign to it" }
  | .unknownFunction index =>
    { message := "Unknown function " ++ toString index.toNat
      code := some "reflang::wasm::unknown_function" }
  | .unknownLabel depth =>
    { message := "Branch to unknown label " ++ toString depth.toNat
      code := some "reflang::wasm::unknown_label" }
  | .invalidBlockType byte =>
    { message := "Invalid block type 0x" ++ Hex.encode [byte]
      code := some "reflang::wasm::invalid_block_type" }
  | .elseWithoutIf =>
    { message := "`else` without a matching `if`"
      code := some "reflang::wasm::else_without_if" }
  | .ifWithoutElse expected =>
    { message := "`if` producing " ++ toString expected ++ " value(s) has no `else` branch"
      code := some "reflang::wasm::if_without_else"
      help := some "An `if` with a result type needs an `else` that produces the same values" }
  | .unbalancedFrames opened =>
    { message := "Unbalanced control frames: " ++ toString opened ++ " frame(s) still open"
      code := some "reflang::wasm::unbalanced_frames"
      help := some "Every block, loop and if needs a matching `end`, and nothing may follow the final `end`" }
  | .stackHeightMismatch expected found =>
    { message := "Stack height mismatch at `end`: expected " ++ toString expected
        ++ ", found " ++ toString found
      code := some "reflang::wasm::stack_height_mismatch"
      help := some "A block left extra values on the operand stack" }
  | .decode cause => cause.diagnostic

inductive ModuleError where
  | globalTypeMismatch (declared found : ValType)
  | importAfterFunction (module name : String)
  | importAfterGlobal (module name : String)
  | invalidStartFunction (index : UInt32) (found : FuncType)
  | invalidFunctionIndex (index : UInt32)
  | validation (function : UInt32) (offset : Nat) (cause : ValidationError)
  deriving DecidableEq, Repr

def ModuleError.diagnostic : ModuleError → Diagnostic
  | .globalTypeMismatch declared found =>
    { message := "Global initializer has type " ++ found.name ++ ", but the global is declared "
        ++ declared.name
      code := some "reflang::wasm::global_type_mismatch"
      help := some "Use a constant of the declared type" }
  | .importAfterFunction module name =>
    { message := "Function import `" ++ module ++ "." ++ name ++ "` added after a defined function"
      code := some "reflang::wasm::import_after_function"
      help := some "Imported functions occupy the first function indices; add imports first" }
  | .importAfterGlobal module name =>
    { message := "Global import `" ++ module ++ "." ++ name ++ "` added after a defined global"
      code := some "reflang::wasm::import_after_global"
      help := some "Imported globals occupy the first global indices; add imports first" }
  | .invalidStartFunction index found =>
    { message := "Start function " ++ toString index.toNat ++ " has type " ++ found.text
        ++ ", expected ()->()"
      code := some "reflang::wasm::invalid_start_function"
      help := some "The start function takes no parameters and returns nothing" }
  | .invalidFunctionIndex index =>
    { message := "Function index " ++ toString index.toNat ++ " is out of range"
      code := some "reflang::wasm::invalid_function_index" }
  | .validation function offset cause =>
    { message := "Validation failed in function " ++ toString function.toNat ++ " at byte "
        ++ toString offset ++ ": " ++ cause.diagnostic.message
      code := some "reflang::wasm::validation" }

end ImpWasm.Wasm
