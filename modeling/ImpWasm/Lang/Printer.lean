import ImpWasm.Lang.Ast
import ImpWasm.Text.Decimal
import ImpWasm.Text.Escape
import ImpWasm.Text.Lines
set_option autoImplicit false

/-!
The canonical text of a program: one statement a line, blocks indented, and every operation inside
another one in parentheses.
-/
namespace ImpWasm

def PrimType.chars (t : PrimType) : List Char := t.name.toList

def Operator.chars (op : Operator) : List Char := op.symbol.toList

def literalChars (value : String) : List Char := ['"'] ++ Escape.encode value.toList ++ ['"']

def boolChars (b : Bool) : List Char :=
  if b then ['t', 'r', 'u', 'e'] else ['f', 'a', 'l', 's', 'e']

def parenthesized (wanted : Bool) (cs : List Char) : List Char :=
  if wanted then '(' :: (cs ++ [')']) else cs

def Expr.isBinary : Expr → Bool
  | .binary .. => true
  | _ => false

mutual

def Expr.chars : Expr → List Char
  | .ident name _ => name.toList
  | .int value _ => Decimal.ofInt value.toInt
  | .string value _ => literalChars value
  | .bool value _ => boolChars value
  | .binary op left right _ =>
    parenthesized left.isBinary left.chars
      ++ ' ' :: (op.chars ++ ' ' :: parenthesized right.isBinary right.chars)
  | .call callee args _ =>
    callee.name.toList ++ '(' :: (joinWith [',', ' '] (Expr.charsAll args) ++ [')'])

def Expr.charsAll : List Expr → List (List Char)
  | [] => []
  | e :: es => e.chars :: Expr.charsAll es

end

def Param.chars (p : Param) : List Char := p.name.name.toList ++ [':', ' '] ++ p.type.type.chars

def headChars (name : String) (params : List (List Char)) (result : PrimType) : List Char :=
  name.toList ++ ['('] ++ joinWith [',', ' '] params ++ [')', ' ', '-', '>', ' '] ++ result.chars

def blockLines (items : List Lines) : Lines :=
  if items.isEmpty then [{ text := ['{', '}'] }]
  else { text := ['{'] } :: (items.flatMap Lines.indent ++ [{ text := ['}'] }])

def varChars (name : String) (type : Option PrimType) (init : Option (List Char)) : List Char :=
  match type, init with
  | some t, some e => name.toList ++ [':', ' '] ++ t.chars ++ [' ', '=', ' '] ++ e ++ [';']
  | some t, none => name.toList ++ [':', ' '] ++ t.chars ++ [';']
  | none, some e => name.toList ++ [' ', ':', '=', ' '] ++ e ++ [';']
  | none, none => name.toList ++ [';']

def assignChars (name : String) (value : List Char) : List Char :=
  name.toList ++ [' ', '=', ' '] ++ value ++ [';']

def functionHead (head : List Char) : List Char := ['f', 'n', ' '] ++ head ++ [' ']

def importedChars (head : List Char) : List Char :=
  ['e', 'x', 't', 'e', 'r', 'n', ' ', 'f', 'n', ' '] ++ head ++ [';']

def returnChars (value : List Char) : List Char :=
  ['r', 'e', 't', 'u', 'r', 'n', ' '] ++ value ++ [';']

def whileHead (condition : List Char) : List Char :=
  ['w', 'h', 'i', 'l', 'e', ' ', '('] ++ condition ++ [')', ' ']

def ifHead (condition : List Char) : List Char := ['i', 'f', ' ', '('] ++ condition ++ [')', ' ']

def elseHead : List Char := [' ', 'e', 'l', 's', 'e', ' ']

/-- A block after what introduces it. -/
def headed (head : List Char) (block : Lines) : Lines := (Lines.ofChars head).weld block

mutual

def Stmt.lines : Stmt → Lines
  | .expr value _ => Lines.ofChars (value.chars ++ [';'])
  | .var name type init _ =>
    Lines.ofChars (varChars name.name (type.map TypeRef.type) (init.map Expr.chars))
  | .assign target value _ => Lines.ofChars (assignChars target.name value.chars)
  | .block body _ _ => blockLines (Stmt.linesAll body)
  | .function name params result body _ _ =>
    headed
      (functionHead (headChars name.name ((ParamList.toList params).map Param.chars) result.type))
      (blockLines (Stmt.linesAll body))
  | .imported name params result _ =>
    Lines.ofChars
      (importedChars (headChars name.name ((ParamList.toList params).map Param.chars) result.type))
  | .return_ value _ => Lines.ofChars (returnChars value.chars)
  | .while_ condition body _ _ =>
    headed (whileHead condition.chars) (blockLines (Stmt.linesAll body))
  | .ifThen condition yes _ _ => headed (ifHead condition.chars) (blockLines (Stmt.linesAll yes))
  | .ifElse condition yes _ no _ _ =>
    (headed (ifHead condition.chars) (blockLines (Stmt.linesAll yes))).weld
      (headed elseHead (blockLines (Stmt.linesAll no)))

def Stmt.linesAll : List Stmt → List Lines
  | [] => []
  | s :: ss => s.lines :: Stmt.linesAll ss

end

def Stmt.chars (s : Stmt) : List Char := s.lines.chars

def Program.chars (p : Program) : List Char := Lines.chars (Stmt.linesAll p.body).flatten

def Expr.text (e : Expr) : String := String.ofList e.chars

def Stmt.text (s : Stmt) : String := String.ofList s.chars

def Program.text (p : Program) : String := String.ofList p.chars

end ImpWasm
