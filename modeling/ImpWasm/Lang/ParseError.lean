import ImpWasm.Lang.Grammar
set_option autoImplicit false

namespace ImpWasm

inductive ParseError where
  /-- The grammar does not match; `expected` are the rules tried at `offset`. -/
  | noMatch (offset : Nat) (expected : List Rule)
  | invalidInteger (span : Span) (found : String)
  | invalidEscape (span : Span) (found : String)
  /-- A tree that the grammar does not build: another rule than `expected`, or no tree at all. -/
  | unexpectedRule (span : Span) (expected : String) (found : Option Rule)
  deriving DecidableEq, Repr

namespace ParseError

def descriptions (expected : List Rule) : List String :=
  ((Rule.all.filter (· ∈ expected)).map Rule.description).eraseDups

def expectation (expected : List Rule) : String :=
  if expected.isEmpty then "unexpected input"
  else "expected " ++ String.intercalate ", " (descriptions expected)

def span : ParseError → Span
  | .noMatch offset _ => ⟨offset, offset + 1⟩
  | .invalidInteger s _ | .invalidEscape s _ | .unexpectedRule s _ _ => s

def offset (e : ParseError) : Nat := e.span.start

def diagnostic (e : ParseError) : Diagnostic :=
  match e with
  | .noMatch _ expected =>
    { message := "Syntax error: " ++ expectation expected
      code := some "reflang::parse::syntax"
      help := some "Check the syntax near the highlighted location"
      labels := [e.span.label "error occurred here"] }
  | .invalidInteger _ found =>
    { message := "Invalid integer literal `" ++ found ++ "`"
      code := some "reflang::parse::invalid_integer"
      help := some "Integer literals must fit in a signed 32-bit integer"
      labels := [e.span.label "invalid integer"] }
  | .invalidEscape _ found =>
    { message := "Invalid string escape sequence `" ++ found ++ "`"
      code := some "reflang::parse::invalid_string_escape"
      help := some "Valid escape sequences: \\n, \\t, \\r, \\\\, \\\""
      labels := [e.span.label "invalid escape sequence"] }
  | .unexpectedRule _ expected found =>
    { message := "Unexpected grammar rule: expected " ++ expected ++ ", found "
        ++ found.elim "end of input" Rule.name
      code := some "reflang::parse::unexpected_rule"
      help := some "The parse tree did not have the expected shape"
      labels := [e.span.label "here"] }

end ParseError

end ImpWasm
