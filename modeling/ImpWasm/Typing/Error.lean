import ImpWasm.Lang.Ast
set_option autoImplicit false

namespace ImpWasm

inductive TypeError where
  | unresolvedName (name : String) (span : Span)
  | unresolvedFunction (name : String) (span : Span)
  | duplicateDeclaration (name : String) (span : Span) (previous : Option Span)
  | duplicateFunction (name : String) (span : Span)
  | typeMismatch (expected found : PrimType) (span : Span)
  | expectedBool (found : PrimType) (span : Span)
  | returnOutsideFunction (span : Span)
  | returnTypeMismatch (function : String) (expected found : PrimType) (span : Span)
  | scopeUnderflow
  | argumentCountMismatch (function : String) (expected found : Nat) (span : Span)
  | argumentTypeMismatch (function : String) (position : Nat) (expected found : PrimType) (span : Span)
  | untypedDeclaration (name : String) (span : Span)
  | nestedFunction (name : String) (span : Span)
  deriving DecidableEq, Repr

namespace TypeError

def span : TypeError → Option Span
  | .unresolvedName _ s | .unresolvedFunction _ s | .duplicateDeclaration _ s _
  | .duplicateFunction _ s | .typeMismatch _ _ s | .expectedBool _ s | .returnOutsideFunction s
  | .returnTypeMismatch _ _ _ s | .argumentCountMismatch _ _ _ s | .argumentTypeMismatch _ _ _ _ s
  | .untypedDeclaration _ s | .nestedFunction _ s => some s
  | .scopeUnderflow => none

def diagnostic : TypeError → Diagnostic
  | .unresolvedName name span =>
    { message := "Unresolved name `" ++ name ++ "`"
      code := some "reflang::typecheck::unresolved_name"
      help := some ("Declare `" ++ name ++ "` before using it")
      labels := [span.label "not found in this scope"] }
  | .unresolvedFunction name span =>
    { message := "Unresolved function `" ++ name ++ "`"
      code := some "reflang::typecheck::unresolved_function"
      help := some "Functions must be declared (or declared `extern`) before they are called"
      labels := [span.label "no function with this name"] }
  | .duplicateDeclaration name span previous =>
    { message := "`" ++ name ++ "` is already declared in this scope"
      code := some "reflang::typecheck::duplicate_declaration"
      help := some "Rename the variable or declare it inside a nested block to shadow it"
      labels := span.label "redeclared here" :: (previous.map (·.label "first declared here")).toList }
  | .duplicateFunction name span =>
    { message := "Function `" ++ name ++ "` is already declared"
      code := some "reflang::typecheck::duplicate_function"
      help := some "Each function name may only be declared once per program"
      labels := [span.label "declared again here"] }
  | .typeMismatch expected found span =>
    { message := "Type mismatch: expected " ++ expected.name ++ ", found " ++ found.name
      code := some "reflang::typecheck::type_mismatch"
      help := some ("The types " ++ expected.name ++ " and " ++ found.name ++ " are not compatible")
      labels := [span.label ("expected " ++ expected.name)] }
  | .expectedBool found span =>
    { message := "Expected bool condition, found " ++ found.name
      code := some "reflang::typecheck::expected_bool"
      help := some "Conditions of `while` and `if` must have type bool; try a comparison such as `x != 0`"
      labels := [span.label ("this has type " ++ found.name)] }
  | .returnOutsideFunction span =>
    { message := "`return` outside of a function"
      code := some "reflang::typecheck::return_outside_function"
      help := some "`return` may only appear inside a function body"
      labels := [span.label "not inside a function"] }
  | .returnTypeMismatch function expected found span =>
    { message := "Function `" ++ function ++ "` returns " ++ expected.name ++ ", but this returns "
        ++ found.name
      code := some "reflang::typecheck::return_type_mismatch"
      help := some ("Change the returned expression or the declared return type of `" ++ function
        ++ "`")
      labels := [span.label ("returns " ++ found.name)] }
  | .scopeUnderflow =>
    { message := "Attempted to leave the global scope"
      code := some "reflang::typecheck::scope_underflow"
      help := some "This is an internal error: scope enter/leave calls are unbalanced" }
  | .argumentCountMismatch function expected found span =>
    { message := "Function `" ++ function ++ "` expects " ++ toString expected
        ++ " argument(s), found " ++ toString found
      code := some "reflang::typecheck::argument_count_mismatch"
      help := some ("Check the declaration of `" ++ function ++ "`")
      labels := [span.label ("called with " ++ toString found ++ " argument(s)")] }
  | .argumentTypeMismatch function position expected found span =>
    { message := "Argument " ++ toString position ++ " of `" ++ function ++ "` expects "
        ++ expected.name ++ ", found " ++ found.name
      code := some "reflang::typecheck::argument_type_mismatch"
      help := some ("Pass a value of type " ++ expected.name)
      labels := [span.label ("this has type " ++ found.name)] }
  | .untypedDeclaration name span =>
    { message := "Declaration of `" ++ name ++ "` has neither a type nor an initializer"
      code := some "reflang::typecheck::untyped_declaration"
      help := some ("Write `" ++ name ++ ": int;` or `" ++ name ++ " := value;`")
      labels := [span.label "type cannot be determined"] }
  | .nestedFunction name span =>
    { message := "Nested function `" ++ name ++ "` is not supported"
      code := some "reflang::typecheck::nested_function"
      help := some ("Move `" ++ name ++ "` to the top level of the program")
      labels := [span.label "declared inside another function"] }

end TypeError

abbrev TypeErrors := List TypeError

def TypeErrors.diagnostic (errors : TypeErrors) : Diagnostic :=
  { message := String.intercalate "\n" (errors.map (·.diagnostic.message))
    code := some "reflang::typecheck::failed" }

end ImpWasm
