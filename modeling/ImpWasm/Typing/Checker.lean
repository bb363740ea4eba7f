import ImpWasm.Typing.Error
import ImpWasm.Typing.Program
set_option autoImplicit false

/-!
Name resolution and type checking in one pass from the top down. Within an expression the first
failure is the answer; the statements of a program or block are checked independently and their
errors collected. What a failed statement declared stays declared.
-/
namespace ImpWasm

abbrev Checked := Except TypeErrors

namespace Checked

/-- Both results, or all the errors. -/
def both {α β : Type} : Checked α → Checked β → Checked (α × β)
  | .ok a, .ok b => .ok (a, b)
  | .error e, .ok _ => .error e
  | .ok _, .error f => .error f
  | .error e, .error f => .error (e ++ f)

def errors {α : Type} : Checked α → TypeErrors
  | .ok _ => []
  | .error e => e

end Checked

structure Checker where
  env : Env := {}
  functions : FunctionTable := {}
  current : Option Signature := none
  deriving DecidableEq, Repr

/-- Comparisons and logical operators yield a truth value whatever they are applied to. -/
def Operator.resultType (op : Operator) (operands : PrimType) : PrimType :=
  match op with
  | .eq | .ne | .lt | .le | .gt | .ge | .and | .or => .bool
  | .add | .sub | .mul | .div | .mod => operands

namespace Checker

def resolve (c : Checker) (name : String) (span : Span) : Checked (Typed.Ident × PrimType) :=
  match c.env.lookup name with
  | some s => .ok (⟨name, s.id, span⟩, s.type)
  | none => .error [.unresolvedName name span]

def argumentErrors (function : String) : (position : Nat) → List PrimType → List Typed.Expr → TypeErrors
  | position, t :: ts, a :: args =>
    (if t = a.type then [] else [.argumentTypeMismatch function position t a.type a.span])
      ++ argumentErrors function (position + 1) ts args
  | _, _, _ => []

def call (c : Checker) (callee : Ident) (args : List Typed.Expr) (span : Span) : Checked Typed.Expr :=
  match c.functions.get? callee.name with
  | none => .error [.unresolvedFunction callee.name callee.span]
  | some s =>
    if s.arity ≠ args.length then
      .error [.argumentCountMismatch callee.name s.arity args.length span]
    else
      match argumentErrors callee.name 1 s.paramTypes args with
      | [] => .ok (.call callee.name args s.result span)
      | errors => .error errors

mutual

def expr (c : Checker) : Expr → Checked Typed.Expr
  | .ident name span => do
    let (name, type) ← c.resolve name span
    return .ident name type span
  | .int value span => .ok (.int value span)
  | .string value span => .ok (.string value span)
  | .bool value span => .ok (.bool value span)
  | .binary op left right span => do
    let left ← c.expr left
    let right ← c.expr right
    if left.type = right.type then return .binary op left right (op.resultType left.type) span
    else throw [.typeMismatch left.type right.type right.span]
  | .call callee args span => do
    let args ← c.exprs args
    c.call callee args span

def exprs (c : Checker) : List Expr → Checked (List Typed.Expr)
  | [] => .ok []
  | e :: es => do
    let e ← c.expr e
    return e :: (← c.exprs es)

end

def optExpr (c : Checker) : Option Expr → Checked (Option Typed.Expr)
  | none => .ok none
  | some e => (c.expr e).map some

def declare (c : Checker) (name : Ident) (type : PrimType) : Checked (Typed.Ident × Checker) :=
  match c.env.declare name.name type (some name.span) with
  | .ok (env, symbol) => .ok (⟨name.name, symbol.id, name.span⟩, { c with env })
  | .error existing => .error [.duplicateDeclaration name.name name.span existing.span]

def varType (name : Ident) (span : Span) : Option TypeRef → Option Typed.Expr → Checked PrimType
  | some t, some init =>
    if t.type = init.type then .ok t.type else .error [.typeMismatch t.type init.type init.span]
  | some t, none => .ok t.type
  | none, some init => .ok init.type
  | none, none => .error [.untypedDeclaration name.name span]

/-- The initialiser is checked before the name exists, so it may speak of an outer one. -/
def var (c : Checker) (name : Ident) (type : Option TypeRef) (init : Option Expr) (span : Span) :
    Checked (Typed.Stmt × Checker) := do
  let init ← c.optExpr init
  let type ← varType name span type init
  let (name, c) ← c.declare name type
  return (.var name type init span, c)

def assign (c : Checker) (target : Ident) (value : Expr) (span : Span) : Checked Typed.Stmt := do
  let (target, type) ← c.resolve target.name target.span
  let value ← c.expr value
  if value.type = type then return .assign target value span
  else throw [.typeMismatch type value.type value.span]

def return_ (c : Checker) (value : Expr) (span : Span) : Checked Typed.Stmt := do
  let value ← c.expr value
  match c.current with
  | none => throw [.returnOutsideFunction span]
  | some f =>
    if f.result = value.type then return .return_ value span
    else throw [.returnTypeMismatch f.name f.result value.type value.span]

def params : List Param → Checker → Checked (List Typed.Param) × Checker
  | [], c => (.ok [], c)
  | p :: ps, c =>
    match c.declare p.name p.type.type with
    | .ok (name, c) =>
      let (rest, c) := params ps c
      (rest.map (⟨name, p.type.type, p.span⟩ :: ·), c)
    | .error e =>
      let (rest, c) := params ps c
      (.error (e ++ rest.errors), c)

def enter (c : Checker) : Checker := { c with env := c.env.enter }

/-- Leaves the scope in which `result` was found. -/
def leave {α : Type} (c : Checker) (result : Checked α) : Checked α × Checker :=
  match c.env.leave with
  | some env => (result, { c with env })
  | none => (.error (result.errors ++ [.scopeUnderflow]), c)

def inScope {α : Type} (c : Checker) (check : Checker → Checked α × Checker) : Checked α × Checker :=
  let (result, c) := check c.enter
  c.leave result

def signature (name : Ident) (params : Option ParamList) (result : TypeRef) (isImported : Bool) :
    Signature :=
  { name := name.name
    result := result.type
    params := params.map fun l => l.params.map (·.type.type)
    isImported
    span := some name.span }

def register (c : Checker) (s : Signature) (span : Span) : Checked Checker :=
  match c.functions.insert s with
  | .ok functions => .ok { c with functions }
  | .error existing => .error [.duplicateFunction existing.name span]

/-- Parameter names only have to be distinct: their scope is given up at once. -/
def imported (c : Checker) (name : Ident) (params : Option ParamList) (result : TypeRef) (span : Span) :
    Checked Typed.Stmt × Checker :=
  match c.register (signature name params result true) name.span with
  | .error e => (.error e, c)
  | .ok c =>
    let (typed, c) := c.inScope (Checker.params (ParamList.toList params))
    (typed.map (.imported name.name · result.type span), c)

/-- A condition that is no truth value is reported along with what its branches show. -/
def expectBool (condition : Typed.Expr) : Checked Unit :=
  if condition.type = .bool then .ok () else .error [.expectedBool condition.type condition.span]

/-- Functions may be declared at the top level only. The signature is registered first, so that the
function may call itself. -/
def openFunction (c : Checker) (name : Ident) (s : Signature) : Checked Checker := do
  if c.current.isSome || 0 < c.env.depth then throw [.nestedFunction name.name name.span]
  let c ← c.register s name.span
  return { c.enter with current := some s }

mutual

def stmt : Stmt → Checker → Checked Typed.Stmt × Checker
  | .expr value span, c => ((c.expr value).map (.expr · span), c)
  | .var name type init span, c =>
    match c.var name type init span with
    | .ok (s, c) => (.ok s, c)
    | .error e => (.error e, c)
  | .assign target value span, c => (c.assign target value span, c)
  | .block body bodySpan span, c =>
    let (typed, c) := c.inScope (stmts body)
    (typed.map (.block · bodySpan span), c)
  | .function name params result body bodySpan span, c =>
    match c.openFunction name (signature name params result false) with
    | .error e => (.error e, c)
    | .ok c =>
      match Checker.params (ParamList.toList params) c with
      | (.error e, c) => ({ c with current := none } : Checker).leave (.error e)
      | (.ok typedParams, c) =>
        let (typed, c) := c.inScope (stmts body)
        ({ c with current := none } : Checker).leave
          (typed.map (.function name.name typedParams result.type · bodySpan span))
  | .imported name params result span, c => c.imported name params result span
  | .return_ value span, c => (c.return_ value span, c)
  | .while_ condition body bodySpan span, c =>
    match c.expr condition with
    | .error e => (.error e, c)
    | .ok condition =>
      let (typed, c) := c.inScope (stmts body)
      (((expectBool condition).both typed).map fun (_, body) => .while_ condition body bodySpan span, c)
  | .ifThen condition yes yesSpan span, c =>
    match c.expr condition with
    | .error e => (.error e, c)
    | .ok condition =>
      let (typed, c) := c.inScope (stmts yes)
      (((expectBool condition).both typed).map fun (_, yes) => .ifThen condition yes yesSpan span, c)
  | .ifElse condition yes yesSpan no noSpan span, c =>
    match c.expr condition with
    | .error e => (.error e, c)
    | .ok condition =>
      let (typedYes, c) := c.inScope (stmts yes)
      let (typedNo, c) := c.inScope (stmts no)
      (((expectBool condition).both (typedYes.both typedNo)).map fun (_, yes, no) =>
        .ifElse condition yes yesSpan no noSpan span, c)

def stmts : List Stmt → Checker → Checked (List Typed.Stmt) × Checker
  | [], c => (.ok [], c)
  | s :: ss, c =>
    let (s, c) := stmt s c
    let (ss, c) := stmts ss c
    ((s.both ss).map fun (s, ss) => s :: ss, c)

end

def block (body : List Stmt) (c : Checker) : Checked (List Typed.Stmt) × Checker :=
  c.inScope (stmts body)

end Checker

def Program.check (p : Program) : Checked Typed.Program :=
  let (typed, c) := Checker.stmts p.body {}
  typed.map fun body =>
    { body, symbols := c.env.symbols, functions := c.functions, span := p.span }

end ImpWasm
