import ImpWasm.Lang.Chain
import ImpWasm.Lang.ParseError
import ImpWasm.Text.Decimal
import ImpWasm.Text.Escape
set_option autoImplicit false

namespace ImpWasm

open Peg (ParseTree)

abbrev Parsed := Except ParseError

def Parsed.unexpected {α : Type} (expected : String) (t : ParseTree Rule) : Parsed α :=
  .error (.unexpectedRule t.span expected (some t.rule))

def Parsed.missing {α : Type} (expected : String) (parent : Span) : Parsed α :=
  .error (.unexpectedRule parent expected none)

namespace Rule

def operator? : Rule → Option Operator
  | .opOr => some .or
  | .opAnd => some .and
  | .opEqual => some .eq
  | .opNotEqual => some .ne
  | .opLess => some .lt
  | .opLessEqual => some .le
  | .opGreater => some .gt
  | .opGreaterEqual => some .ge
  | .opAdd => some .add
  | .opSubtract => some .sub
  | .opMultiply => some .mul
  | .opDivide => some .div
  | .opModulo => some .mod
  | _ => none

def primType? : Rule → Option PrimType
  | .typeInt => some .int
  | .typeString => some .string
  | .typeBool => some .bool
  | _ => none

end Rule

def intOf (span : Span) (text : List Char) : Parsed Expr :=
  match Decimal.int32? text with
  | some v => .ok (.int v span)
  | none => .error (.invalidInteger span (String.ofList text))

def stringOf (span : Span) (contentStart : Nat) (text : List Char) : Parsed Expr :=
  match Escape.decode contentStart text with
  | .ok value => .ok (.string (String.ofList value) span)
  | .error fault =>
    .error (.invalidEscape ⟨fault.offset, fault.offset + utf8Length fault.found⟩
      (String.ofList fault.found))

mutual

def exprOf : ParseTree Rule → Parsed Expr
  | .branch .expression span items =>
    match items with
    | [] => Parsed.missing "expression" span
    | t :: rest => do
      let first ← exprOf t
      let links ← linksOf rest
      return (Chain.ofLinks first links).toExpr
  | .branch .call span (.leaf .identifier nameSpan name :: args) => do
    return .call ⟨String.ofList name, nameSpan⟩ (← exprsOf args) span
  | .leaf .boolLiteral span text => .ok (.bool (text == ['t', 'r', 'u', 'e']) span)
  | .leaf .intLiteral span text => intOf span text
  | .branch .stringLiteral span [.leaf .stringContent content text] => stringOf span content.start text
  | .leaf .identifier span text => .ok (.ident (String.ofList text) span)
  | t => Parsed.unexpected "expression" t

def exprsOf : List (ParseTree Rule) → Parsed (List Expr)
  | [] => .ok []
  | t :: ts => do
    let e ← exprOf t
    return e :: (← exprsOf ts)

def linksOf : List (ParseTree Rule) → Parsed (List (Operator × Expr))
  | [] => .ok []
  | [o] => Parsed.missing "expression" o.span
  | o :: t :: rest =>
    match o.rule.operator? with
    | none => Parsed.unexpected "binary operator" o
    | some op => do
      let e ← exprOf t
      return (op, e) :: (← linksOf rest)

end

def identOf : ParseTree Rule → Parsed Ident
  | .leaf .identifier span text => .ok ⟨String.ofList text, span⟩
  | t => Parsed.unexpected Rule.identifier.name t

def typeRefOf : ParseTree Rule → Parsed TypeRef
  | .branch .primitiveType span [t] =>
    match t.rule.primType? with
    | some type => .ok ⟨type, span⟩
    | none => .error (.unexpectedRule span "primitive type" (some t.rule))
  | t => Parsed.unexpected Rule.primitiveType.name t

def paramOf : ParseTree Rule → Parsed Param
  | .branch .param span [name, type] => do return ⟨← identOf name, ← typeRefOf type, span⟩
  | t => Parsed.unexpected Rule.param.name t

def paramListOf : ParseTree Rule → Parsed ParamList
  | .branch .paramList span params => do return ⟨← params.mapM paramOf, span⟩
  | t => Parsed.unexpected Rule.paramList.name t

/-- A name, perhaps a parameter list, and a result type; the trees after them are left over. -/
def signatureOf (span : Span) : List (ParseTree Rule) → Parsed (Ident × Option ParamList × TypeRef)
  | [] => Parsed.missing Rule.identifier.name span
  | name :: rest => do
    let name ← identOf name
    match rest with
    | [] => Parsed.missing "return type" span
    | t :: rest =>
      match t.rule with
      | .paramList => do
        let params ← paramListOf t
        match rest with
        | [] => Parsed.missing Rule.primitiveType.name span
        | type :: _ => return (name, some params, ← typeRefOf type)
      | .primitiveType => return (name, none, ← typeRefOf t)
      | _ => Parsed.unexpected "parameter list or return type" t

def declaredOf : List (ParseTree Rule) → Parsed (Option TypeRef × Option Expr)
  | [t] =>
    match t.rule with
    | .primitiveType => do return (some (← typeRefOf t), none)
    | .expression => do return (none, some (← exprOf t))
    | _ => Parsed.unexpected "type or initializer" t
  | [t, e] => do return (some (← typeRefOf t), some (← exprOf e))
  | _ => .ok (none, none)

mutual

def stmtOf : ParseTree Rule → Parsed Stmt
  | .branch .externDecl span (_ :: _ :: parts) => do
    let (name, params, result) ← signatureOf span parts
    return .imported name params result span
  | .branch .functionDecl span (_ :: parts) => do
    let (name, params, result) ← signatureOf span parts
    let (body, bodySpan) ← lastBlockOf span parts
    return .function name params result body bodySpan span
  | .branch .whileStmt span [_, condition, .branch .block bodySpan body] => do
    return .while_ (← exprOf condition) (← stmtsOf body) bodySpan span
  | .branch .ifStmt span [_, condition, .branch .block yesSpan yes] => do
    return .ifThen (← exprOf condition) (← stmtsOf yes) yesSpan span
  | .branch .ifStmt span
      [_, condition, .branch .block yesSpan yes, _, .branch .block noSpan no] => do
    return .ifElse (← exprOf condition) (← stmtsOf yes) yesSpan (← stmtsOf no) noSpan span
  | .branch .returnStmt span [_, value] => do return .return_ (← exprOf value) span
  | .branch .block span body => do return .block (← stmtsOf body) span span
  | .branch .varDecl span (name :: parts) => do
    let name ← identOf name
    let (type, init) ← declaredOf parts
    return .var name type init span
  | .branch .assign span [target, value] => do return .assign (← identOf target) (← exprOf value) span
  | .branch .exprStmt span [value] => do return .expr (← exprOf value) span
  | t => Parsed.unexpected "statement" t

def stmtsOf : List (ParseTree Rule) → Parsed (List Stmt)
  | [] => .ok []
  | t :: ts => do
    let s ← stmtOf t
    return s :: (← stmtsOf ts)

def lastBlockOf (span : Span) : List (ParseTree Rule) → Parsed (List Stmt × Span)
  | [] => Parsed.missing Rule.block.name span
  | [.branch .block bodySpan body] => do return (← stmtsOf body, bodySpan)
  | [t] => Parsed.unexpected Rule.block.name t
  | _ :: t :: ts => lastBlockOf span (t :: ts)

end

def noMatchOf (calls : List (Peg.Call Rule)) : ParseError :=
  let attempts := ({} : Attempts Rule).addCalls calls
  .noMatch attempts.pos attempts.expected

def parseTree (r : Rule) (source : String) : Parsed (ParseTree Rule) :=
  let step := grammar.parse r source.toList
  match step.outcome with
  | some ([t], _) => .ok t
  | _ => .error (noMatchOf step.calls)

/-- A program is its statements; the end of the input has a tree of its own. -/
def Program.parse (source : String) : Parsed Program := do
  match ← parseTree .program source with
  | .branch .program span items =>
    return ⟨← stmtsOf (items.filter fun t => t.rule ≠ .endOfInput), span⟩
  | t => Parsed.unexpected Rule.program.name t

def Expr.parse (source : String) : Parsed Expr := do
  match ← parseTree .expressionInput source with
  | .branch .expressionInput _ (e :: _) => exprOf e
  | t => Parsed.missing Rule.expression.name t.span

end ImpWasm
