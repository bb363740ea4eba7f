import ImpWasm.Peg
set_option autoImplicit false

/-!
The grammar of the language. The order of the rules is the order in which expected rules are
reported.
-/
namespace ImpWasm

inductive Rule where
  | endOfInput
  | program | expressionInput
  | keyword | kwFn | kwExtern | kwReturn | kwWhile | kwIf | kwElse
  | identifier
  | typeInt | typeString | typeBool | primitiveType
  | param | paramList | functionDecl | externDecl | varDecl
  | block | whileStmt | ifStmt | returnStmt | assign | exprStmt
  | expression | call
  | opOr | opAnd | opEqual | opNotEqual | opLessEqual | opLess | opGreaterEqual | opGreater
  | opAdd | opSubtract | opMultiply | opDivide | opModulo
  | intLiteral | boolLiteral | stringLiteral | stringContent
  deriving DecidableEq, Repr

namespace Rule

def all : List Rule :=
  [.endOfInput, .program, .expressionInput, .keyword, .kwFn, .kwExtern, .kwReturn, .kwWhile, .kwIf,
    .kwElse, .identifier, .typeInt, .typeString, .typeBool, .primitiveType, .param, .paramList,
    .functionDecl, .externDecl, .varDecl, .block, .whileStmt, .ifStmt, .returnStmt, .assign,
    .exprStmt, .expression, .call, .opOr, .opAnd, .opEqual, .opNotEqual, .opLessEqual, .opLess,
    .opGreaterEqual, .opGreater, .opAdd, .opSubtract, .opMultiply, .opDivide, .opModulo,
    .intLiteral, .boolLiteral, .stringLiteral, .stringContent]

theorem mem_all (r : Rule) : r ∈ all := by cases r <;> decide

def name : Rule → String
  | .endOfInput => "EOI"
  | .program => "program"
  | .expressionInput => "expression_input"
  | .keyword => "keyword"
  | .kwFn => "kw_fn"
  | .kwExtern => "kw_extern"
  | .kwReturn => "kw_return"
  | .kwWhile => "kw_while"
  | .kwIf => "kw_if"
  | .kwElse => "kw_else"
  | .identifier => "identifier"
  | .typeInt => "type_int"
  | .typeString => "type_string"
  | .typeBool => "type_bool"
  | .primitiveType => "primitive_type"
  | .param => "param"
  | .paramList => "param_list"
  | .functionDecl => "function_decl"
  | .externDecl => "extern_decl"
  | .varDecl => "var_decl"
  | .block => "block"
  | .whileStmt => "while_stmt"
  | .ifStmt => "if_stmt"
  | .returnStmt => "return_stmt"
  | .assign => "assign"
  | .exprStmt => "expr_stmt"
  | .expression => "expression"
  | .call => "call"
  | .opOr => "op_or"
  | .opAnd => "op_and"
  | .opEqual => "op_equal"
  | .opNotEqual => "op_not_equal"
  | .opLessEqual => "op_less_equal"
  | .opLess => "op_less"
  | .opGreaterEqual => "op_greater_equal"
  | .opGreater => "op_greater"
  | .opAdd => "op_add"
  | .opSubtract => "op_subtract"
  | .opMultiply => "op_multiply"
  | .opDivide => "op_divide"
  | .opModulo => "op_modulo"
  | .intLiteral => "int_literal"
  | .boolLiteral => "bool_literal"
  | .stringLiteral => "string_literal"
  | .stringContent => "string_content"

def description : Rule → String
  | .expression => "an expression"
  | .identifier => "an identifier"
  | .primitiveType => "a type (int, string or bool)"
  | .block => "a block"
  | .param | .paramList => "a parameter"
  | .intLiteral => "an integer"
  | .stringLiteral => "a string"
  | .boolLiteral => "true or false"
  | .call => "a function call"
  | .endOfInput => "end of input"
  | .opOr | .opAnd | .opEqual | .opNotEqual | .opLess | .opLessEqual | .opGreater
  | .opGreaterEqual | .opAdd | .opSubtract | .opMultiply | .opDivide | .opModulo => "an operator"
  | .functionDecl | .externDecl | .varDecl | .assign | .exprStmt | .whileStmt | .ifStmt
  | .returnStmt => "a statement"
  | _ => "valid syntax"

end Rule

def isDigit (c : Char) : Bool := '0' ≤ c && c ≤ '9'

def isLetter (c : Char) : Bool := ('a' ≤ c && c ≤ 'z') || ('A' ≤ c && c ≤ 'Z')

def isIdentStart (c : Char) : Bool := isLetter c || c == '_'

def isIdentChar (c : Char) : Bool := isLetter c || isDigit c || c == '_'

namespace Rule

open Peg

/-- A word that no identifier character follows. -/
def word (w : List Char) : Peg Rule := .seq (.text w) (.not (.one isIdentChar))

def keywords : List (List Char) :=
  [['f', 'n'], ['e', 'x', 't', 'e', 'r', 'n'], ['r', 'e', 't', 'u', 'r', 'n'],
    ['w', 'h', 'i', 'l', 'e'], ['i', 'f'], ['e', 'l', 's', 'e'], ['t', 'r', 'u', 'e'],
    ['f', 'a', 'l', 's', 'e'], ['i', 'n', 't'], ['s', 't', 'r', 'i', 'n', 'g'],
    ['b', 'o', 'o', 'l']]

def statement : Peg Rule :=
  alts [.rule .externDecl, .rule .functionDecl, .rule .whileStmt, .rule .ifStmt, .rule .returnStmt,
    .rule .block, .rule .varDecl, .rule .assign, .rule .exprStmt]

def operand : Peg Rule :=
  alts [.rule .call, .rule .boolLiteral, .rule .intLiteral, .rule .stringLiteral, .rule .identifier,
    seqs [.text ['('], .rule .expression, .text [')']]]

def infixOp : Peg Rule :=
  alts [.rule .opOr, .rule .opAnd, .rule .opEqual, .rule .opNotEqual, .rule .opLessEqual,
    .rule .opLess, .rule .opGreaterEqual, .rule .opGreater, .rule .opAdd, .rule .opSubtract,
    .rule .opMultiply, .rule .opDivide, .rule .opModulo]

def signature (rest : List (Peg Rule)) : List (Peg Rule) :=
  [.rule .identifier, .text ['('], .opt (.rule .paramList), .text [')'], .text ['-', '>'],
    .rule .primitiveType] ++ rest

def body : Rule → Peg Rule
  | .endOfInput => .endOfInput
  | .program => seqs [.empty, .star statement, .rule .endOfInput]
  | .expressionInput => seqs [.empty, .rule .expression, .rule .endOfInput]
  | .keyword => .seq (alts (keywords.map .text)) (.not (.one isIdentChar))
  | .kwFn => word ['f', 'n']
  | .kwExtern => word ['e', 'x', 't', 'e', 'r', 'n']
  | .kwReturn => word ['r', 'e', 't', 'u', 'r', 'n']
  | .kwWhile => word ['w', 'h', 'i', 'l', 'e']
  | .kwIf => word ['i', 'f']
  | .kwElse => word ['e', 'l', 's', 'e']
  | .identifier => seqs [.not (.rule .keyword), .one isIdentStart, .star (.one isIdentChar)]
  | .typeInt => word ['i', 'n', 't']
  | .typeString => word ['s', 't', 'r', 'i', 'n', 'g']
  | .typeBool => word ['b', 'o', 'o', 'l']
  | .primitiveType => alts [.rule .typeInt, .rule .typeString, .rule .typeBool]
  | .param => seqs [.rule .identifier, .text [':'], .rule .primitiveType]
  | .paramList => .seq (.rule .param) (.star (.seq (.text [',']) (.rule .param)))
  | .functionDecl => seqs (.rule .kwFn :: signature [.rule .block])
  | .externDecl => seqs (.rule .kwExtern :: .rule .kwFn :: signature [.text [';']])
  | .varDecl =>
    seqs [.rule .identifier,
      .alt (.seq (.text [':', '=']) (.rule .expression))
        (seqs [.text [':'], .rule .primitiveType, .opt (.seq (.text ['=']) (.rule .expression))]),
      .text [';']]
  | .block => seqs [.text ['{'], .star statement, .text ['}']]
  | .whileStmt =>
    seqs [.rule .kwWhile, .text ['('], .rule .expression, .text [')'], .rule .block]
  | .ifStmt =>
    seqs [.rule .kwIf, .text ['('], .rule .expression, .text [')'], .rule .block,
      .opt (.seq (.rule .kwElse) (.rule .block))]
  | .returnStmt => seqs [.rule .kwReturn, .rule .expression, .text [';']]
  | .assign =>
    seqs [.rule .identifier, .text ['='], .not (.text ['=']), .rule .expression, .text [';']]
  | .exprStmt => .seq (.rule .expression) (.text [';'])
  | .expression => .seq operand (.star (.seq infixOp operand))
  | .call =>
    seqs [.rule .identifier, .text ['('],
      .opt (.seq (.rule .expression) (.star (.seq (.text [',']) (.rule .expression)))), .text [')']]
  | .opOr => .text ['|', '|']
  | .opAnd => .text ['&', '&']
  | .opEqual => .text ['=', '=']
  | .opNotEqual => .text ['!', '=']
  | .opLessEqual => .text ['<', '=']
  | .opLess => .text ['<']
  | .opGreaterEqual => .text ['>', '=']
  | .opGreater => .text ['>']
  | .opAdd => .text ['+']
  | .opSubtract => .text ['-']
  | .opMultiply => .text ['*']
  | .opDivide => .text ['/']
  | .opModulo => .text ['%']
  | .intLiteral => seqs [.opt (.text ['-']), .one isDigit, .star (.one isDigit)]
  | .boolLiteral =>
    .seq (.alt (.text ['t', 'r', 'u', 'e']) (.text ['f', 'a', 'l', 's', 'e']))
      (.not (.one isIdentChar))
  | .stringLiteral => seqs [.text ['"'], .rule .stringContent, .text ['"']]
  | .stringContent =>
    .star (.alt (.one fun c => c != '"' && c != '\\') (.seq (.text ['\\']) (.one fun _ => true)))

def kind : Rule → Kind
  | .keyword | .kwFn | .kwExtern | .kwReturn | .kwWhile | .kwIf | .kwElse | .identifier | .typeInt
  | .typeString | .typeBool | .intLiteral | .boolLiteral | .stringContent => .lexeme
  | .stringLiteral => .token
  | _ => .plain

end Rule

def grammar : Grammar Rule := ⟨Rule.body, Rule.kind⟩

end ImpWasm
