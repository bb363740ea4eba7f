import ImpWasm.Proofs.Typing.Scopes
set_option autoImplicit false

/-!
The typing rules of the language, on programs as they are written. A statement is judged in the
scopes in sight and after the functions declared before it; it may declare a name in the innermost
scope, and functions, whose names hold for the rest of the program.
-/
namespace ImpWasm

/-- The types of the names in sight, scope by scope, the innermost first. -/
abbrev Scopes := List (Names PrimType)

def Scopes.type? (Γ : Scopes) (name : String) : Option PrimType := Γ.findSome? (· name)

/-- A function as its callers see it. -/
structure Prototype where
  name : String
  params : List PrimType
  result : PrimType
  deriving DecidableEq, Repr

def prototype (name : Ident) (params : Option ParamList) (result : TypeRef) : Prototype :=
  ⟨name.name, (ParamList.toList params).map (·.type.type), result.type⟩

def paramNames (params : List Param) : Names PrimType :=
  params.foldl (fun names p => names.insert p.name.name p.type.type) Names.empty

mutual

inductive Expr.HasType (Γ : Scopes) (F : List Prototype) : Expr → PrimType → Prop where
  | ident {name : String} {span : Span} {t : PrimType} (hdeclared : Γ.type? name = some t) :
      Expr.HasType Γ F (.ident name span) t
  | int {value : Int32} {span : Span} : Expr.HasType Γ F (.int value span) .int
  | string {value : String} {span : Span} : Expr.HasType Γ F (.string value span) .string
  | bool {value : Bool} {span : Span} : Expr.HasType Γ F (.bool value span) .bool
  | test {op : Operator} {left right : Expr} {span : Span} {t : PrimType}
      (hoperator : op ∈ [Operator.eq, .ne, .lt, .le, .gt, .ge, .and, .or])
      (hleft : Expr.HasType Γ F left t) (hright : Expr.HasType Γ F right t) :
      Expr.HasType Γ F (.binary op left right span) .bool
  | arithmetic {op : Operator} {left right : Expr} {span : Span} {t : PrimType}
      (hoperator : op ∈ [Operator.add, .sub, .mul, .div, .mod])
      (hleft : Expr.HasType Γ F left t) (hright : Expr.HasType Γ F right t) :
      Expr.HasType Γ F (.binary op left right span) t
  | call {callee : Ident} {args : List Expr} {span : Span} {f : Prototype} (hdeclared : f ∈ F)
      (hname : f.name = callee.name) (hargs : Expr.HaveTypes Γ F args f.params) :
      Expr.HasType Γ F (.call callee args span) f.result

inductive Expr.HaveTypes (Γ : Scopes) (F : List Prototype) : List Expr → List PrimType → Prop where
  | nil : Expr.HaveTypes Γ F [] []
  | cons {e : Expr} {es : List Expr} {t : PrimType} {ts : List PrimType} (hhead : Expr.HasType Γ F e t)
      (htail : Expr.HaveTypes Γ F es ts) : Expr.HaveTypes Γ F (e :: es) (t :: ts)

end

mutual

/-- `WellTyped result Γ F s Γ' F'`: in the scopes `Γ` and after the functions `F`, the statement `s` is
right, and leaves the scopes `Γ'` and the functions `F'`. The result is that of the function around
it, if there is one. -/
inductive Stmt.WellTyped : Option PrimType → Scopes → List Prototype → Stmt → Scopes → List Prototype →
    Prop where
  | expr {result : Option PrimType} {Γ : Scopes} {F : List Prototype} {value : Expr} {span : Span}
      {t : PrimType} (hvalue : value.HasType Γ F t) :
      Stmt.WellTyped result Γ F (.expr value span) Γ F
  /-- The name is new to its own scope, and the initialiser does not see it. -/
  | var {result : Option PrimType} {scope : Names PrimType} {outer : Scopes} {F : List Prototype}
      {name : Ident} {type : Option TypeRef} {init : Option Expr} {span : Span} {t : PrimType}
      (hgiven : type.isSome ∨ init.isSome) (hdeclared : ∀ d ∈ type, d.type = t)
      (hinit : ∀ e ∈ init, e.HasType (scope :: outer) F t) (hfresh : scope name.name = none) :
      Stmt.WellTyped result (scope :: outer) F (.var name type init span)
        (scope.insert name.name t :: outer) F
  | assign {result : Option PrimType} {Γ : Scopes} {F : List Prototype} {target : Ident} {value : Expr}
      {span : Span} {t : PrimType} (htarget : Γ.type? target.name = some t) (hvalue : value.HasType Γ F t) :
      Stmt.WellTyped result Γ F (.assign target value span) Γ F
  | block {result : Option PrimType} {Γ Γ' : Scopes} {F F' : List Prototype} {body : List Stmt}
      {bodySpan span : Span} (hbody : Stmt.AllWellTyped result (Names.empty :: Γ) F body Γ' F') :
      Stmt.WellTyped result Γ F (.block body bodySpan span) Γ F'
  /-- A function stands in the outermost scope, outside every other function. It may call itself. Its
  parameters form a scope around that of its body. -/
  | function {scope : Names PrimType} {Γ' : Scopes} {F F' : List Prototype} {name : Ident}
      {params : Option ParamList} {type : TypeRef} {body : List Stmt} {bodySpan span : Span}
      (hfresh : ∀ f ∈ F, f.name ≠ name.name)
      (hdistinct : ((ParamList.toList params).map (·.name.name)).Nodup)
      (hbody : Stmt.AllWellTyped (some type.type)
        (Names.empty :: paramNames (ParamList.toList params) :: [scope])
        (F ++ [prototype name params type]) body Γ' F') :
      Stmt.WellTyped none [scope] F (.function name params type body bodySpan span) [scope] F'
  | imported {result : Option PrimType} {Γ : Scopes} {F : List Prototype} {name : Ident}
      {params : Option ParamList} {type : TypeRef} {span : Span} (hfresh : ∀ f ∈ F, f.name ≠ name.name)
      (hdistinct : ((ParamList.toList params).map (·.name.name)).Nodup) :
      Stmt.WellTyped result Γ F (.imported name params type span) Γ (F ++ [prototype name params type])
  | return_ {Γ : Scopes} {F : List Prototype} {value : Expr} {span : Span} {t : PrimType}
      (hvalue : value.HasType Γ F t) : Stmt.WellTyped (some t) Γ F (.return_ value span) Γ F
  | while_ {result : Option PrimType} {Γ Γ' : Scopes} {F F' : List Prototype} {condition : Expr}
      {body : List Stmt} {bodySpan span : Span} (hcondition : condition.HasType Γ F .bool)
      (hbody : Stmt.AllWellTyped result (Names.empty :: Γ) F body Γ' F') :
      Stmt.WellTyped result Γ F (.while_ condition body bodySpan span) Γ F'
  | ifThen {result : Option PrimType} {Γ Γ' : Scopes} {F F' : List Prototype} {condition : Expr}
      {yes : List Stmt} {yesSpan span : Span} (hcondition : condition.HasType Γ F .bool)
      (hyes : Stmt.AllWellTyped result (Names.empty :: Γ) F yes Γ' F') :
      Stmt.WellTyped result Γ F (.ifThen condition yes yesSpan span) Γ F'
  | ifElse {result : Option PrimType} {Γ Γ' Γ'' : Scopes} {F F' F'' : List Prototype} {condition : Expr}
      {yes no : List Stmt} {yesSpan noSpan span : Span} (hcondition : condition.HasType Γ F .bool)
      (hyes : Stmt.AllWellTyped result (Names.empty :: Γ) F yes Γ' F')
      (hno : Stmt.AllWellTyped result (Names.empty :: Γ) F' no Γ'' F'') :
      Stmt.WellTyped result Γ F (.ifElse condition yes yesSpan no noSpan span) Γ F''

inductive Stmt.AllWellTyped : Option PrimType → Scopes → List Prototype → List Stmt → Scopes →
    List Prototype → Prop where
  | nil {result : Option PrimType} {Γ : Scopes} {F : List Prototype} : Stmt.AllWellTyped result Γ F [] Γ F
  | cons {result : Option PrimType} {Γ Γ' Γ'' : Scopes} {F F' F'' : List Prototype} {s : Stmt}
      {ss : List Stmt} (hhead : Stmt.WellTyped result Γ F s Γ' F')
      (htail : Stmt.AllWellTyped result Γ' F' ss Γ'' F'') :
      Stmt.AllWellTyped result Γ F (s :: ss) Γ'' F''

end

def Program.WellTyped (p : Program) : Prop :=
  ∃ Γ F, Stmt.AllWellTyped none [Names.empty] [] p.body Γ F

end ImpWasm
