import ImpWasm.Cli.Memory
import ImpWasm.Main
import ImpWasm.Proofs.Cli.Compiling
import ImpWasm.Proofs.Lang.Escapes
import ImpWasm.Proofs.Lang.Expressions
import ImpWasm.Proofs.Lang.Layout
import ImpWasm.Proofs.Lang.Lexing
import ImpWasm.Proofs.Lang.Literals
import ImpWasm.Proofs.Lang.Operands
import ImpWasm.Proofs.Lang.RoundTrip
import ImpWasm.Proofs.Lang.SourceMap
import ImpWasm.Proofs.Lang.Spacing
import ImpWasm.Proofs.Lang.SyntaxErrors
import ImpWasm.Proofs.Lang.Tokens
import ImpWasm.Proofs.Lang.Unambiguity
import ImpWasm.Proofs.Lowering.Indices
import ImpWasm.Proofs.Lowering.Meaning
import ImpWasm.Proofs.Lowering.Options
import ImpWasm.Proofs.Lowering.Renaming
import ImpWasm.Proofs.Lowering.Strings
import ImpWasm.Proofs.Lowering.Truth
import ImpWasm.Proofs.Lowering.TypedText
import ImpWasm.Proofs.Typing.Balance
import ImpWasm.Proofs.Typing.Elaboration
import ImpWasm.Proofs.Typing.Faithful
import ImpWasm.Proofs.Typing.ScopeStack
import ImpWasm.Proofs.Wasm.Encoding
import ImpWasm.Proofs.Wasm.Heights
import ImpWasm.Proofs.Wasm.IndexSpaces
import ImpWasm.Proofs.Wasm.Safety
import ImpWasm.Proofs.Wasm.Shortest
import ImpWasm.Proofs.Wasm.Structure
import ImpWasm.Proofs.Wasm.Words
import ImpWasm.Proofs.Wasm.Writing
