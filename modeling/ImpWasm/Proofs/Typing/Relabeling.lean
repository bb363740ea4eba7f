import Mathlib
import ImpWasm.Typing.Checker
set_option autoImplicit false

namespace ImpWasm

/-- New names for variables, no two of which become one, and new places. Functions keep their names. -/
structure Relabeling where
  name : String → String
  injective : Function.Injective name
  span : Span → Span
  span_empty : span {} = {}

section Relabeled

variable (l : Relabeling)

/-- A variable where it is written. -/
def Ident.relabel (i : Ident) : Ident := ⟨l.name i.name, l.span i.span⟩

/-- A function's name where it is written. -/
def Ident.relocate (i : Ident) : Ident := ⟨i.name, l.span i.span⟩

def TypeRef.relabel (t : TypeRef) : TypeRef := ⟨t.type, l.span t.span⟩

def Param.relabel (p : Param) : Param := ⟨p.name.relabel l, p.type.relabel l, l.span p.span⟩

def ParamList.relabel (ps : ParamList) : ParamList := ⟨ps.params.map (Param.relabel l), l.span ps.span⟩

mutual

def Expr.relabel : Expr → Expr
  | .ident name span => .ident (l.name name) (l.span span)
  | .int value span => .int value (l.span span)
  | .string value span => .string value (l.span span)
  | .bool value span => .bool value (l.span span)
  | .binary op left right span => .binary op left.relabel right.relabel (l.span span)
  | .call callee args span => .call (callee.relocate l) (Expr.relabelAll args) (l.span span)

def Expr.relabelAll : List Expr → List Expr
  | [] => []
  | e :: es => e.relabel :: Expr.relabelAll es

end

mutual

def Stmt.relabel : Stmt → Stmt
  | .expr value span => .expr (value.relabel l) (l.span span)
  | .var name type init span =>
    .var (name.relabel l) (type.map (TypeRef.relabel l)) (init.map (Expr.relabel l)) (l.span span)
  | .assign target value span => .assign (target.relabel l) (value.relabel l) (l.span span)
  | .block body bodySpan span => .block (Stmt.relabelAll body) (l.span bodySpan) (l.span span)
  | .function name params result body bodySpan span =>
    .function (name.relocate l) (params.map (ParamList.relabel l)) (result.relabel l) (Stmt.relabelAll body)
      (l.span bodySpan) (l.span span)
  | .imported name params result span =>
    .imported (name.relocate l) (params.map (ParamList.relabel l)) (result.relabel l) (l.span span)
  | .return_ value span => .return_ (value.relabel l) (l.span span)
  | .while_ condition body bodySpan span =>
    .while_ (condition.relabel l) (Stmt.relabelAll body) (l.span bodySpan) (l.span span)
  | .ifThen condition yes yesSpan span =>
    .ifThen (condition.relabel l) (Stmt.relabelAll yes) (l.span yesSpan) (l.span span)
  | .ifElse condition yes yesSpan no noSpan span =>
    .ifElse (condition.relabel l) (Stmt.relabelAll yes) (l.span yesSpan) (Stmt.relabelAll no) (l.span noSpan)
      (l.span span)

def Stmt.relabelAll : List Stmt → List Stmt
  | [] => []
  | s :: ss => s.relabel :: Stmt.relabelAll ss

end

def Program.relabel (p : Program) : Program := ⟨Stmt.relabelAll l p.body, l.span p.span⟩

def Symbol.relabel (s : Symbol) : Symbol := { s with name := l.name s.name, span := s.span.map l.span }

def Signature.relabel (s : Signature) : Signature := { s with span := s.span.map l.span }

def FunctionTable.relabel (t : FunctionTable) : FunctionTable := ⟨t.signatures.map (Signature.relabel l)⟩

def Scope.relabel (s : Scope) : Scope := { s with bindings := s.bindings.map (Prod.map l.name id) }

def Env.relabel (env : Env) : Env :=
  { env with scopes := env.scopes.map (Scope.relabel l), symbols := env.symbols.map (Symbol.relabel l) }

def Checker.relabel (c : Checker) : Checker :=
  ⟨c.env.relabel l, c.functions.relabel l, c.current.map (Signature.relabel l)⟩

def TypeError.relabel : TypeError → TypeError
  | .unresolvedName name span => .unresolvedName (l.name name) (l.span span)
  | .unresolvedFunction name span => .unresolvedFunction name (l.span span)
  | .duplicateDeclaration name span previous =>
    .duplicateDeclaration (l.name name) (l.span span) (previous.map l.span)
  | .duplicateFunction name span => .duplicateFunction name (l.span span)
  | .typeMismatch expected found span => .typeMismatch expected found (l.span span)
  | .expectedBool found span => .expectedBool found (l.span span)
  | .returnOutsideFunction span => .returnOutsideFunction (l.span span)
  | .returnTypeMismatch function expected found span =>
    .returnTypeMismatch function expected found (l.span span)
  | .scopeUnderflow => .scopeUnderflow
  | .argumentCountMismatch function expected found span =>
    .argumentCountMismatch function expected found (l.span span)
  | .argumentTypeMismatch function position expected found span =>
    .argumentTypeMismatch function position expected found (l.span span)
  | .untypedDeclaration name span => .untypedDeclaration (l.name name) (l.span span)
  | .nestedFunction name span => .nestedFunction name (l.span span)

namespace Typed

def Ident.relabel (i : Ident) : Ident := ⟨l.name i.name, i.symbol, l.span i.span⟩

def Param.relabel (p : Param) : Param := ⟨p.name.relabel l, p.type, l.span p.span⟩

mutual

def Expr.relabel : Expr → Expr
  | .ident name type span => .ident (name.relabel l) type (l.span span)
  | .int value span => .int value (l.span span)
  | .string value span => .string value (l.span span)
  | .bool value span => .bool value (l.span span)
  | .binary op left right type span => .binary op left.relabel right.relabel type (l.span span)
  | .call callee args type span => .call callee (Expr.relabelAll args) type (l.span span)

def Expr.relabelAll : List Expr → List Expr
  | [] => []
  | e :: es => e.relabel :: Expr.relabelAll es

end

mutual

def Stmt.relabel : Stmt → Stmt
  | .expr value span => .expr (value.relabel l) (l.span span)
  | .var name type init span => .var (name.relabel l) type (init.map (Expr.relabel l)) (l.span span)
  | .assign target value span => .assign (target.relabel l) (value.relabel l) (l.span span)
  | .block body bodySpan span => .block (Stmt.relabelAll body) (l.span bodySpan) (l.span span)
  | .function name params result body bodySpan span =>
    .function name (params.map (Param.relabel l)) result (Stmt.relabelAll body) (l.span bodySpan) (l.span span)
  | .imported name params result span => .imported name (params.map (Param.relabel l)) result (l.span span)
  | .return_ value span => .return_ (value.relabel l) (l.span span)
  | .while_ condition body bodySpan span =>
    .while_ (condition.relabel l) (Stmt.relabelAll body) (l.span bodySpan) (l.span span)
  | .ifThen condition yes yesSpan span =>
    .ifThen (condition.relabel l) (Stmt.relabelAll yes) (l.span yesSpan) (l.span span)
  | .ifElse condition yes yesSpan no noSpan span =>
    .ifElse (condition.relabel l) (Stmt.relabelAll yes) (l.span yesSpan) (Stmt.relabelAll no) (l.span noSpan)
      (l.span span)

def Stmt.relabelAll : List Stmt → List Stmt
  | [] => []
  | s :: ss => s.relabel :: Stmt.relabelAll ss

end

def Program.relabel (p : Program) : Program :=
  ⟨Stmt.relabelAll l p.body, p.symbols.map (Symbol.relabel l), p.functions.relabel l, l.span p.span⟩

@[simp] theorem Expr.type_relabel (e : Expr) : (e.relabel l).type = e.type := by
  cases e <;> rfl

@[simp] theorem Expr.span_relabel (e : Expr) : (e.relabel l).span = l.span e.span := by
  cases e <;> rfl

theorem Expr.relabelAll_eq_map (es : List Expr) : Expr.relabelAll l es = es.map (Expr.relabel l) := by
  induction es with
  | nil => rfl
  | cons e es ih => rw [Expr.relabelAll, ih, List.map_cons]

theorem Stmt.relabelAll_eq_map (ss : List Stmt) : Stmt.relabelAll l ss = ss.map (Stmt.relabel l) := by
  induction ss with
  | nil => rfl
  | cons s ss ih => rw [Stmt.relabelAll, ih, List.map_cons]

end Typed

end Relabeled

section Tables

variable (l : Relabeling) (name : String)

theorem Scope.lookup_relabel (bindings : List (String × Nat)) :
    (bindings.map (Prod.map l.name id)).lookup (l.name name) = bindings.lookup name := by
  induction bindings with
  | nil => rfl
  | cons b bindings ih =>
    obtain ⟨other, id⟩ := b
    have same : (l.name name == l.name other) = (name == other) := by
      rw [Bool.eq_iff_iff, beq_iff_eq, beq_iff_eq, l.injective.eq_iff]
    simp only [List.map_cons, Prod.map_apply, List.lookup_cons, same, ih, id_eq]

theorem Env.bound?_relabel (env : Env) (scope : Nat) :
    (env.relabel l).bound? scope (l.name name) = (env.bound? scope name).map (Symbol.relabel l) := by
  simp only [bound?, relabel, List.getElem?_map]
  cases env.scopes[scope]? with
  | none => rfl
  | some s =>
    simp only [Option.map_some, Option.bind_eq_bind, Option.bind_some, Scope.relabel, Scope.lookup_relabel]
    cases s.bindings.lookup name <;> rfl

theorem Env.parent?_relabel (env : Env) (scope : Nat) : (env.relabel l).parent? scope = env.parent? scope := by
  simp only [parent?, relabel, List.getElem?_map, Option.bind_map]
  rfl

theorem Env.lookupFrom_relabel (env : Env) (n scope : Nat) :
    (env.relabel l).lookupFrom (l.name name) n scope = (env.lookupFrom name n scope).map (Symbol.relabel l) := by
  induction n generalizing scope with
  | zero => rfl
  | succ n ih =>
    simp only [lookupFrom, bound?_relabel, parent?_relabel]
    cases env.bound? scope name with
    | some s => rfl
    | none =>
      cases env.parent? scope with
      | none => rfl
      | some outer => exact ih outer

theorem Env.lookup_relabel (env : Env) :
    (env.relabel l).lookup (l.name name) = (env.lookup name).map (Symbol.relabel l) :=
  env.lookupFrom_relabel l name _ _

theorem Env.depth_relabel (env : Env) : (env.relabel l).depth = env.depth := by
  have hfrom : ∀ n scope, (env.relabel l).depthFrom n scope = env.depthFrom n scope := by
    intro n
    induction n with
    | zero => exact fun _ => rfl
    | succ n ih =>
      intro scope
      simp only [depthFrom, ih, parent?_relabel]
  exact hfrom _ _

theorem Env.enter_relabel (env : Env) : (env.relabel l).enter = env.enter.relabel l := by
  simp [enter, relabel, Scope.relabel]

theorem Env.leave_relabel (env : Env) : (env.relabel l).leave = env.leave.map (Env.relabel l) := by
  simp only [leave, parent?_relabel, Option.map_map, show (env.relabel l).current = env.current from rfl]
  rfl

theorem Env.bind_relabel (env : Env) (id : Nat) :
    (env.relabel l).bind (l.name name) id = (env.bind name id).map (Scope.relabel l) := by
  apply List.ext_getElem?
  intro i
  simp only [bind, relabel, List.getElem?_modify, List.getElem?_map]
  cases env.scopes[i]? with
  | none => rfl
  | some s => split <;> rfl

theorem Env.declare_relabel (env : Env) (type : PrimType) (span : Option Span) :
    (env.relabel l).declare (l.name name) type (span.map l.span) =
      ((env.declare name type span).map (Prod.map (Env.relabel l) (Symbol.relabel l))).mapError
        (Symbol.relabel l) := by
  simp only [declare, bound?_relabel, show (env.relabel l).current = env.current from rfl]
  cases env.bound? env.current name with
  | some s => rfl
  | none =>
    have hcount : (env.relabel l).symbols.length = env.symbols.length := List.length_map _
    simp only [hcount, bind_relabel]
    simp [Except.map, Except.mapError, relabel, Symbol.relabel]

theorem FunctionTable.get?_relabel (t : FunctionTable) :
    (t.relabel l).get? name = (t.get? name).map (Signature.relabel l) := by
  simp only [get?, relabel, List.find?_map]
  rfl

theorem FunctionTable.insert_relabel (t : FunctionTable) (s : Signature) :
    (t.relabel l).insert (s.relabel l) =
      ((t.insert s).map (FunctionTable.relabel l)).mapError (Signature.relabel l) := by
  simp only [insert, get?_relabel, show (s.relabel l).name = s.name from rfl]
  cases t.get? s.name with
  | some existing => rfl
  | none => simp [Except.map, Except.mapError, relabel]

end Tables

section Results

variable (l : Relabeling) {α β : Type} {f : α → α} {g : β → β}

def Checked.relabel (f : α → α) : Checked α → Checked α
  | .ok a => .ok (f a)
  | .error errors => .error (errors.map (TypeError.relabel l))

@[simp] theorem Checked.relabel_ok (a : α) : Checked.relabel l f (.ok a) = .ok (f a) := rfl

@[simp] theorem Checked.relabel_error (errors : TypeErrors) :
    Checked.relabel l f (.error errors) = .error (errors.map (TypeError.relabel l)) := rfl

theorem Checked.relabel_bind {x : Checked α} {k k' : α → Checked β} (hk : ∀ a, k' (f a) = (k a).relabel l g) :
    (x.relabel l f >>= k') = (x >>= k).relabel l g := by
  cases x with
  | ok a => exact hk a
  | error errors => rfl

theorem Checked.relabel_map {x : Checked α} {k k' : α → β} (hk : ∀ a, k' (f a) = g (k a)) :
    (x.relabel l f).map k' = Checked.relabel l g (x.map k) := by
  cases x with
  | ok a => exact congrArg Except.ok (hk a)
  | error errors => rfl

theorem Checked.relabel_both (x : Checked α) (y : Checked β) :
    (x.relabel l f).both (y.relabel l g) = (x.both y).relabel l (Prod.map f g) := by
  cases x <;> cases y <;> simp [relabel, both]

theorem Checked.errors_relabel (x : Checked α) : (x.relabel l f).errors = x.errors.map (TypeError.relabel l) := by
  cases x <;> rfl

def relabelBoth (f : α → α) (r : Checked α × Checker) : Checked α × Checker := (r.1.relabel l f, r.2.relabel l)

theorem relabelBoth_map {r : Checked α × Checker} {k k' : α → β} (hk : ∀ a, k' (f a) = g (k a)) :
    ((relabelBoth l f r).1.map k', (relabelBoth l f r).2) = relabelBoth l g (r.1.map k, r.2) :=
  Prod.ext (Checked.relabel_map l hk) rfl

end Results

namespace Checker

variable (l : Relabeling) (c : Checker)

section Expressions

theorem resolve_relabel (name : String) (span : Span) :
    (c.relabel l).resolve (l.name name) (l.span span) =
      (c.resolve name span).relabel l (Prod.map (Typed.Ident.relabel l) id) := by
  simp only [resolve, show (c.relabel l).env = c.env.relabel l from rfl, Env.lookup_relabel]
  cases c.env.lookup name <;> rfl

theorem argumentErrors_relabel (function : String) (position : Nat) (types : List PrimType)
    (args : List Typed.Expr) :
    argumentErrors function position types (Typed.Expr.relabelAll l args) =
      (argumentErrors function position types args).map (TypeError.relabel l) := by
  induction types generalizing position args with
  | nil => cases args <;> rfl
  | cons t ts ih =>
    cases args with
    | nil => rfl
    | cons a args =>
      simp only [Typed.Expr.relabelAll, argumentErrors, Typed.Expr.type_relabel, Typed.Expr.span_relabel, ih,
        List.map_append]
      split <;> rfl

theorem call_relabel (callee : Ident) (args : List Typed.Expr) (span : Span) :
    (c.relabel l).call (callee.relocate l) (Typed.Expr.relabelAll l args) (l.span span) =
      (c.call callee args span).relabel l (Typed.Expr.relabel l) := by
  simp only [call, show (c.relabel l).functions = c.functions.relabel l from rfl, FunctionTable.get?_relabel,
    show (callee.relocate l).name = callee.name from rfl]
  cases c.functions.get? callee.name with
  | none => rfl
  | some s =>
    have hlength : (Typed.Expr.relabelAll l args).length = args.length := by
      rw [Typed.Expr.relabelAll_eq_map, List.length_map]
    simp only [Option.map_some, show (s.relabel l).arity = s.arity from rfl,
      show (s.relabel l).paramTypes = s.paramTypes from rfl, argumentErrors_relabel, hlength]
    split
    · rfl
    · cases argumentErrors callee.name 1 s.paramTypes args <;> rfl

mutual

theorem expr_relabel : (e : Expr) →
    (c.relabel l).expr (e.relabel l) = (c.expr e).relabel l (Typed.Expr.relabel l)
  | .ident name span => by
    simp only [Expr.relabel, expr, resolve_relabel]
    exact Checked.relabel_bind l fun _ => rfl
  | .int .. | .string .. | .bool .. => rfl
  | .binary op left right span => by
    simp only [Expr.relabel, expr, expr_relabel left, expr_relabel right]
    refine Checked.relabel_bind l fun a => Checked.relabel_bind l fun b => ?_
    simp only [Typed.Expr.type_relabel, Typed.Expr.span_relabel]
    split <;> rfl
  | .call callee args span => by
    simp only [Expr.relabel, expr, exprs_relabel args]
    exact Checked.relabel_bind l fun as => call_relabel l c callee as span

theorem exprs_relabel : (es : List Expr) →
    (c.relabel l).exprs (Expr.relabelAll l es) = (c.exprs es).relabel l (Typed.Expr.relabelAll l)
  | [] => rfl
  | e :: es => by
    simp only [Expr.relabelAll, exprs, expr_relabel e, exprs_relabel es]
    exact Checked.relabel_bind l fun _ => Checked.relabel_bind l fun _ => rfl

end

theorem optExpr_relabel (init : Option Expr) :
    (c.relabel l).optExpr (init.map (Expr.relabel l)) =
      (c.optExpr init).relabel l (Option.map (Typed.Expr.relabel l)) := by
  cases init with
  | none => rfl
  | some e =>
    simp only [Option.map_some, optExpr, expr_relabel]
    exact Checked.relabel_map l fun _ => rfl

end Expressions

section Declarations

theorem declare_relabel (name : Ident) (type : PrimType) :
    (c.relabel l).declare (name.relabel l) type =
      (c.declare name type).relabel l (Prod.map (Typed.Ident.relabel l) (Checker.relabel l)) := by
  have h := c.env.declare_relabel l name.name type (some name.span)
  simp only [declare, show (c.relabel l).env = c.env.relabel l from rfl,
    show (name.relabel l).name = l.name name.name from rfl,
    show some (name.relabel l).span = (some name.span).map l.span from rfl, h]
  cases c.env.declare name.name type (some name.span) <;> rfl

theorem varType_relabel (name : Ident) (span : Span) (type : Option TypeRef) (init : Option Typed.Expr) :
    varType (name.relabel l) (l.span span) (type.map (TypeRef.relabel l)) (init.map (Typed.Expr.relabel l)) =
      (varType name span type init).relabel l id := by
  cases type <;> cases init <;>
    simp [varType, TypeRef.relabel, Checked.relabel, Ident.relabel, TypeError.relabel]
  split <;> rfl

theorem var_relabel (name : Ident) (type : Option TypeRef) (init : Option Expr) (span : Span) :
    (c.relabel l).var (name.relabel l) (type.map (TypeRef.relabel l)) (init.map (Expr.relabel l)) (l.span span) =
      (c.var name type init span).relabel l (Prod.map (Typed.Stmt.relabel l) (Checker.relabel l)) := by
  simp only [var, optExpr_relabel]
  refine Checked.relabel_bind l fun i => ?_
  simp only [varType_relabel]
  refine Checked.relabel_bind l fun t => ?_
  simp only [id, declare_relabel]
  exact Checked.relabel_bind l fun _ => rfl

theorem assign_relabel (target : Ident) (value : Expr) (span : Span) :
    (c.relabel l).assign (target.relabel l) (value.relabel l) (l.span span) =
      (c.assign target value span).relabel l (Typed.Stmt.relabel l) := by
  simp only [assign, Ident.relabel, resolve_relabel, expr_relabel]
  refine Checked.relabel_bind l fun r => Checked.relabel_bind l fun v => ?_
  simp only [Prod.map, Typed.Expr.type_relabel, Typed.Expr.span_relabel, id]
  split <;> rfl

theorem return_relabel (value : Expr) (span : Span) :
    (c.relabel l).return_ (value.relabel l) (l.span span) =
      (c.return_ value span).relabel l (Typed.Stmt.relabel l) := by
  simp only [return_, expr_relabel]
  refine Checked.relabel_bind l fun v => ?_
  simp only [show (c.relabel l).current = c.current.map (Signature.relabel l) from rfl]
  cases c.current with
  | none => rfl
  | some f =>
    simp only [Option.map_some, Typed.Expr.type_relabel, Typed.Expr.span_relabel,
      show (f.relabel l).result = f.result from rfl]
    split <;> rfl

theorem params_relabel (ps : List Param) :
    params (ps.map (Param.relabel l)) (c.relabel l) =
      relabelBoth l (List.map (Typed.Param.relabel l)) (params ps c) := by
  induction ps generalizing c with
  | nil => rfl
  | cons p ps ih =>
    simp only [List.map_cons, params, show (p.relabel l).name = p.name.relabel l from rfl, declare_relabel,
      show (p.relabel l).type.type = p.type.type from rfl]
    cases c.declare p.name p.type.type with
    | ok r =>
      simp only [Checked.relabel_ok, Prod.map, ih]
      exact relabelBoth_map l fun _ => rfl
    | error errors =>
      simp only [Checked.relabel_error, ih, relabelBoth, Checked.errors_relabel, List.map_append]

end Declarations

section Scopes

variable {α β : Type} {f : α → α} {g : β → β}

theorem enter_relabel : (c.relabel l).enter = c.enter.relabel l := by
  simp only [enter, relabel, Env.enter_relabel]

theorem leave_relabel (x : Checked α) : (c.relabel l).leave (x.relabel l f) = relabelBoth l f (c.leave x) := by
  simp only [leave, show (c.relabel l).env = c.env.relabel l from rfl, Env.leave_relabel]
  cases c.env.leave with
  | some env => rfl
  | none => simp [relabelBoth, Checked.errors_relabel, TypeError.relabel]

theorem leave_map_relabel (x : Checked α) {k k' : α → β} (hk : ∀ a, k' (f a) = g (k a)) :
    (c.relabel l).leave ((x.relabel l f).map k') = relabelBoth l g (c.leave (x.map k)) := by
  rw [Checked.relabel_map l hk]
  exact leave_relabel l _ _

theorem inScope_relabel {check check' : Checker → Checked α × Checker}
    (h : ∀ c : Checker, check' (c.relabel l) = relabelBoth l f (check c)) :
    (c.relabel l).inScope check' = relabelBoth l f (c.inScope check) := by
  simp only [inScope, enter_relabel, h]
  exact leave_relabel l _ _

end Scopes

section Functions

theorem toList_relabel (params : Option ParamList) :
    ParamList.toList (params.map (ParamList.relabel l)) = (ParamList.toList params).map (Param.relabel l) := by
  cases params <;> rfl

theorem signature_relabel (name : Ident) (params : Option ParamList) (result : TypeRef) (isImported : Bool) :
    signature (name.relocate l) (params.map (ParamList.relabel l)) (result.relabel l) isImported =
      (signature name params result isImported).relabel l := by
  cases params <;>
    simp [signature, Signature.relabel, Ident.relocate, TypeRef.relabel, ParamList.relabel, Param.relabel]

theorem register_relabel (s : Signature) (span : Span) :
    (c.relabel l).register (s.relabel l) (l.span span) = (c.register s span).relabel l (Checker.relabel l) := by
  simp only [register, show (c.relabel l).functions = c.functions.relabel l from rfl,
    FunctionTable.insert_relabel]
  cases c.functions.insert s <;> rfl

theorem imported_relabel (name : Ident) (params : Option ParamList) (result : TypeRef) (span : Span) :
    (c.relabel l).imported (name.relocate l) (params.map (ParamList.relabel l)) (result.relabel l)
        (l.span span) =
      relabelBoth l (Typed.Stmt.relabel l) (c.imported name params result span) := by
  simp only [imported, signature_relabel, show (name.relocate l).span = l.span name.span from rfl,
    register_relabel, toList_relabel]
  cases c.register (signature name params result true) name.span with
  | error errors => rfl
  | ok c =>
    simp only [Checked.relabel_ok, inScope_relabel l c fun c => params_relabel l c _]
    exact relabelBoth_map l fun _ => rfl

theorem openFunction_relabel (name : Ident) (s : Signature) :
    (c.relabel l).openFunction (name.relocate l) (s.relabel l) =
      (c.openFunction name s).relabel l (Checker.relabel l) := by
  simp only [openFunction, show (c.relabel l).current = c.current.map (Signature.relabel l) from rfl,
    Option.isSome_map, show (c.relabel l).env = c.env.relabel l from rfl, Env.depth_relabel,
    show (name.relocate l).span = l.span name.span from rfl, register_relabel]
  split
  · rfl
  · refine Checked.relabel_bind l fun c => ?_
    simp only [enter_relabel]
    rfl

theorem expectBool_relabel (condition : Typed.Expr) :
    expectBool (condition.relabel l) = (expectBool condition).relabel l id := by
  simp only [expectBool, Typed.Expr.type_relabel, Typed.Expr.span_relabel]
  split <;> rfl

end Functions

mutual

theorem stmt_relabel : (s : Stmt) → (c : Checker) →
    stmt (s.relabel l) (c.relabel l) = relabelBoth l (Typed.Stmt.relabel l) (stmt s c)
  | .expr value span, c => by
    simp only [Stmt.relabel, stmt, expr_relabel]
    exact Prod.ext (Checked.relabel_map l fun _ => rfl) rfl
  | .var name type init span, c => by
    simp only [Stmt.relabel, stmt, var_relabel]
    cases c.var name type init span <;> rfl
  | .assign target value span, c => Prod.ext (assign_relabel l c target value span) rfl
  | .return_ value span, c => Prod.ext (return_relabel l c value span) rfl
  | .imported name params result span, c => imported_relabel l c name params result span
  | .block body _ _, c => by
    simp only [Stmt.relabel, stmt, inScope_relabel l c (stmts_relabel body)]
    exact relabelBoth_map l fun _ => rfl
  | .function name params result body _ _, c => by
    simp only [Stmt.relabel, stmt, signature_relabel, openFunction_relabel, toList_relabel]
    cases c.openFunction name (signature name params result false) with
    | error errors => rfl
    | ok c =>
      simp only [Checked.relabel_ok, params_relabel]
      rcases Checker.params (ParamList.toList params) c with ⟨errors | ps, c⟩
      · exact leave_relabel (f := Typed.Stmt.relabel l) l { c with current := none } (.error errors)
      · simp only [relabelBoth, Checked.relabel_ok, inScope_relabel l c (stmts_relabel body)]
        exact leave_map_relabel l { (c.inScope (stmts body)).2 with current := none } _ fun _ => rfl
  | .while_ condition body _ _, c => by
    simp only [Stmt.relabel, stmt, expr_relabel]
    cases c.expr condition with
    | error errors => rfl
    | ok condition =>
      simp only [Checked.relabel_ok, expectBool_relabel, inScope_relabel l c (stmts_relabel body), relabelBoth,
        Checked.relabel_both]
      exact Prod.ext (Checked.relabel_map l fun _ => rfl) rfl
  | .ifThen condition yes _ _, c => by
    simp only [Stmt.relabel, stmt, expr_relabel]
    cases c.expr condition with
    | error errors => rfl
    | ok condition =>
      simp only [Checked.relabel_ok, expectBool_relabel, inScope_relabel l c (stmts_relabel yes), relabelBoth,
        Checked.relabel_both]
      exact Prod.ext (Checked.relabel_map l fun _ => rfl) rfl
  | .ifElse condition yes _ no _ _, c => by
    simp only [Stmt.relabel, stmt, expr_relabel]
    cases c.expr condition with
    | error errors => rfl
    | ok condition =>
      simp only [Checked.relabel_ok, expectBool_relabel, inScope_relabel l _ (stmts_relabel yes), relabelBoth,
        inScope_relabel l _ (stmts_relabel no), Checked.relabel_both]
      exact Prod.ext (Checked.relabel_map l fun _ => rfl) rfl

theorem stmts_relabel : (ss : List Stmt) → (c : Checker) →
    stmts (Stmt.relabelAll l ss) (c.relabel l) = relabelBoth l (Typed.Stmt.relabelAll l) (stmts ss c)
  | [], _ => rfl
  | s :: ss, c => by
    simp only [Stmt.relabelAll, stmts, stmt_relabel s c, relabelBoth, stmts_relabel ss, Checked.relabel_both]
    exact Prod.ext (Checked.relabel_map l fun _ => rfl) rfl

end

end Checker

theorem Program.check_relabel (l : Relabeling) (p : Program) :
    (p.relabel l).check = p.check.relabel l (Typed.Program.relabel l) := by
  have h : Checker.stmts (p.relabel l).body {} =
      relabelBoth l (Typed.Stmt.relabelAll l) (Checker.stmts p.body {}) := Checker.stmts_relabel l p.body {}
  simp only [check, h, relabelBoth]
  exact Checked.relabel_map l fun _ => rfl

end ImpWasm
