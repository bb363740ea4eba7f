import ImpWasm.Typing.Env
import ImpWasm.Typing.Signature
set_option autoImplicit false

/-!
Checked programs: every expression has its type, and every variable the number of its symbol. A checked
program can be printed, and can forget what the check has found.
-/
namespace ImpWasm.Typed

structure Ident where
  name : String
  symbol : Nat
  span : Span
  deriving DecidableEq, Repr

structure Param where
  name : Ident
  type : PrimType
  span : Span
  deriving DecidableEq, Repr

inductive Expr where
  | ident (name : Ident) (type : PrimType) (span : Span)
  | int (value : Int32) (span : Span)
  | string (value : String) (span : Span)
  | bool (value : Bool) (span : Span)
  | binary (op : Operator) (left right : Expr) (type : PrimType) (span : Span)
  | call (callee : String) (args : List Expr) (type : PrimType) (span : Span)
  deriving Repr

namespace Expr

def type : Expr → PrimType
  | .ident _ t _ | .binary _ _ _ t _ | .call _ _ t _ => t
  | .int _ _ => .int
  | .string _ _ => .string
  | .bool _ _ => .bool

def span : Expr → Span
  | .ident _ _ s | .int _ s | .string _ s | .bool _ s | .binary _ _ _ _ s | .call _ _ _ s => s

def isLiteral : Expr → Bool
  | .int .. | .string .. | .bool .. => true
  | _ => false

end Expr

inductive Stmt where
  | expr (value : Expr) (span : Span)
  | var (name : Ident) (type : PrimType) (init : Option Expr) (span : Span)
  | assign (target : Ident) (value : Expr) (span : Span)
  | block (body : List Stmt) (bodySpan : Span) (span : Span)
  | function (name : String) (params : List Param) (result : PrimType) (body : List Stmt)
    (bodySpan : Span) (span : Span)
  | imported (name : String) (params : List Param) (result : PrimType) (span : Span)
  | return_ (value : Expr) (span : Span)
  | while_ (condition : Expr) (body : List Stmt) (bodySpan : Span) (span : Span)
  | ifThen (condition : Expr) (yes : List Stmt) (yesSpan : Span) (span : Span)
  | ifElse (condition : Expr) (yes : List Stmt) (yesSpan : Span) (no : List Stmt) (noSpan : Span)
    (span : Span)
  deriving Repr

def Stmt.span : Stmt → Span
  | .expr _ s | .var _ _ _ s | .assign _ _ s | .block _ _ s | .function _ _ _ _ _ s
  | .imported _ _ _ s | .return_ _ s | .while_ _ _ _ s | .ifThen _ _ _ s | .ifElse _ _ _ _ _ s => s

/-- The last statement of a block, if it is a `return`: its value and its span. -/
def trailingReturn (body : List Stmt) : Option (Expr × Span) :=
  match body.getLast? with
  | some (.return_ value span) => some (value, span)
  | _ => none

structure Program where
  body : List Stmt
  symbols : List Symbol
  functions : FunctionTable
  span : Span
  deriving Repr

def Ident.erase (i : Ident) : ImpWasm.Ident := ⟨i.name, i.span⟩

def Param.erase (p : Param) : ImpWasm.Param := ⟨p.name.erase, ⟨p.type, p.span⟩, p.span⟩

def eraseParams (params : List Param) (span : Span) : Option ParamList :=
  if params.isEmpty then none else some ⟨params.map Param.erase, span⟩

mutual

def Expr.erase : Expr → ImpWasm.Expr
  | .ident name _ span => .ident name.name span
  | .int value span => .int value span
  | .string value span => .string value span
  | .bool value span => .bool value span
  | .binary op left right _ span => .binary op left.erase right.erase span
  | .call callee args _ span => .call ⟨callee, span⟩ (Expr.eraseAll args) span

def Expr.eraseAll : List Expr → List ImpWasm.Expr
  | [] => []
  | e :: es => e.erase :: Expr.eraseAll es

end

mutual

def Stmt.erase : Stmt → ImpWasm.Stmt
  | .expr value span => .expr value.erase span
  | .var name type init span => .var name.erase (some ⟨type, span⟩) (init.map Expr.erase) span
  | .assign target value span => .assign target.erase value.erase span
  | .block body bodySpan span => .block (Stmt.eraseAll body) bodySpan span
  | .function name params result body bodySpan span =>
    .function ⟨name, span⟩ (eraseParams params span) ⟨result, span⟩ (Stmt.eraseAll body) bodySpan span
  | .imported name params result span =>
    .imported ⟨name, span⟩ (eraseParams params span) ⟨result, span⟩ span
  | .return_ value span => .return_ value.erase span
  | .while_ condition body bodySpan span =>
    .while_ condition.erase (Stmt.eraseAll body) bodySpan span
  | .ifThen condition yes yesSpan span => .ifThen condition.erase (Stmt.eraseAll yes) yesSpan span
  | .ifElse condition yes yesSpan no noSpan span =>
    .ifElse condition.erase (Stmt.eraseAll yes) yesSpan (Stmt.eraseAll no) noSpan span

def Stmt.eraseAll : List Stmt → List ImpWasm.Stmt
  | [] => []
  | s :: ss => s.erase :: Stmt.eraseAll ss

end

def Program.erase (p : Program) : ImpWasm.Program := ⟨Stmt.eraseAll p.body, p.span⟩

def Expr.isBinary : Expr → Bool
  | .binary .. => true
  | _ => false

mutual

def Expr.chars : Expr → List Char
  | .ident name _ _ => name.name.toList
  | .int value _ => Decimal.ofInt value.toInt
  | .string value _ => literalChars value
  | .bool value _ => boolChars value
  | .binary op left right _ _ =>
    parenthesized left.isBinary left.chars
      ++ ' ' :: (op.chars ++ ' ' :: parenthesized right.isBinary right.chars)
  | .call callee args _ _ => callee.toList ++ '(' :: (joinWith [',', ' '] (Expr.charsAll args) ++ [')'])

def Expr.charsAll : List Expr → List (List Char)
  | [] => []
  | e :: es => e.chars :: Expr.charsAll es

end

def Param.chars (p : Param) : List Char := p.name.name.toList ++ [':', ' '] ++ p.type.chars

mutual

def Stmt.lines : Stmt → Lines
  | .expr value _ => Lines.ofChars (value.chars ++ [';'])
  | .var name type init _ => Lines.ofChars (varChars name.name (some type) (init.map Expr.chars))
  | .assign target value _ => Lines.ofChars (assignChars target.name value.chars)
  | .block body _ _ => blockLines (Stmt.linesAll body)
  | .function name params result body _ _ =>
    headed (functionHead (headChars name (params.map Param.chars) result)) (blockLines (Stmt.linesAll body))
  | .imported name params result _ =>
    Lines.ofChars (importedChars (headChars name (params.map Param.chars) result))
  | .return_ value _ => Lines.ofChars (returnChars value.chars)
  | .while_ condition body _ _ => headed (whileHead condition.chars) (blockLines (Stmt.linesAll body))
  | .ifThen condition yes _ _ => headed (ifHead condition.chars) (blockLines (Stmt.linesAll yes))
  | .ifElse condition yes _ no _ _ =>
    (headed (ifHead condition.chars) (blockLines (Stmt.linesAll yes))).weld
      (headed elseHead (blockLines (Stmt.linesAll no)))

def Stmt.linesAll : List Stmt → List Lines
  | [] => []
  | s :: ss => s.lines :: Stmt.linesAll ss

end

def Expr.text (e : Expr) : String := String.ofList e.chars

def Stmt.text (s : Stmt) : String := String.ofList s.lines.chars

def Program.text (p : Program) : String := String.ofList (Lines.chars (Stmt.linesAll p.body).flatten)

end ImpWasm.Typed
