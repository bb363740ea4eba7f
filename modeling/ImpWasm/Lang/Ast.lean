import ImpWasm.Diagnostic
set_option autoImplicit false

namespace ImpWasm

inductive PrimType where
  | int | string | bool
  deriving DecidableEq, Repr

def PrimType.name : PrimType → String
  | .int => "int"
  | .string => "string"
  | .bool => "bool"

inductive Operator where
  | add | sub | mul | div | mod
  | eq | ne | lt | le | gt | ge
  | and | or
  deriving DecidableEq, Repr

namespace Operator

def symbol : Operator → String
  | .add => "+"
  | .sub => "-"
  | .mul => "*"
  | .div => "/"
  | .mod => "%"
  | .eq => "=="
  | .ne => "!="
  | .lt => "<"
  | .le => "<="
  | .gt => ">"
  | .ge => ">="
  | .and => "&&"
  | .or => "||"

def all : List Operator := [.add, .sub, .mul, .div, .mod, .eq, .ne, .lt, .le, .gt, .ge, .and, .or]

def ofSymbol? (s : String) : Option Operator := all.find? (·.symbol == s)

/-- How tightly the operator binds. Every operator associates to the left. -/
def level : Operator → Nat
  | .or => 1
  | .and => 2
  | .eq | .ne => 3
  | .lt | .le | .gt | .ge => 4
  | .add | .sub => 5
  | .mul | .div | .mod => 6

end Operator

structure Ident where
  name : String
  span : Span := {}
  deriving DecidableEq, Repr

structure TypeRef where
  type : PrimType
  span : Span := {}
  deriving DecidableEq, Repr

structure Param where
  name : Ident
  type : TypeRef
  span : Span := {}
  deriving DecidableEq, Repr

structure ParamList where
  params : List Param
  span : Span := {}
  deriving DecidableEq, Repr

inductive Expr where
  | ident (name : String) (span : Span)
  | int (value : Int32) (span : Span)
  | string (value : String) (span : Span)
  | bool (value : Bool) (span : Span)
  | binary (op : Operator) (left right : Expr) (span : Span)
  | call (callee : Ident) (args : List Expr) (span : Span)
  deriving Repr

def Expr.span : Expr → Span
  | .ident _ s | .int _ s | .string _ s | .bool _ s | .binary _ _ _ s | .call _ _ s => s

/-- A statement that holds a block has the block's statements and its span, beside its own. -/
inductive Stmt where
  | expr (value : Expr) (span : Span)
  | var (name : Ident) (type : Option TypeRef) (init : Option Expr) (span : Span)
  | assign (target : Ident) (value : Expr) (span : Span)
  | block (body : List Stmt) (bodySpan : Span) (span : Span)
  | function (name : Ident) (params : Option ParamList) (result : TypeRef) (body : List Stmt)
    (bodySpan : Span) (span : Span)
  | imported (name : Ident) (params : Option ParamList) (result : TypeRef) (span : Span)
  | return_ (value : Expr) (span : Span)
  | while_ (condition : Expr) (body : List Stmt) (bodySpan : Span) (span : Span)
  | ifThen (condition : Expr) (yes : List Stmt) (yesSpan : Span) (span : Span)
  | ifElse (condition : Expr) (yes : List Stmt) (yesSpan : Span) (no : List Stmt) (noSpan : Span)
    (span : Span)
  deriving Repr

def Stmt.span : Stmt → Span
  | .expr _ s | .var _ _ _ s | .assign _ _ s | .block _ _ s | .function _ _ _ _ _ s
  | .imported _ _ _ s | .return_ _ s | .while_ _ _ _ s | .ifThen _ _ _ s | .ifElse _ _ _ _ _ s => s

structure Program where
  body : List Stmt
  span : Span := {}
  deriving Repr

def ParamList.toList : Option ParamList → List Param
  | none => []
  | some l => l.params

end ImpWasm
