import ImpWasm.Lang.Ast
set_option autoImplicit false

/-!
Variables in scope. Scopes are numbered in the order they were opened and name their parent; symbols
are numbered in the order they were declared. A scope that was left keeps its bindings, so that a
symbol's number stays good for as long as the environment lives.
-/
namespace ImpWasm

structure Symbol where
  id : Nat
  name : String
  type : PrimType
  scope : Nat
  span : Option Span := none
  deriving DecidableEq, Repr

structure Scope where
  parent : Option Nat := none
  bindings : List (String × Nat) := []
  deriving DecidableEq, Repr

/-- Scope 0 is the global one. -/
structure Env where
  scopes : List Scope := [{}]
  symbols : List Symbol := []
  current : Nat := 0
  deriving DecidableEq, Repr

namespace Env

def parent? (env : Env) (scope : Nat) : Option Nat := (env.scopes[scope]?).bind Scope.parent

def bound? (env : Env) (scope : Nat) (name : String) : Option Symbol := do
  let s ← env.scopes[scope]?
  let id ← s.bindings.lookup name
  env.symbols[id]?

def enter (env : Env) : Env :=
  { env with
    scopes := env.scopes ++ [{ parent := some env.current }]
    current := env.scopes.length }

def leave (env : Env) : Option Env :=
  (env.parent? env.current).map fun p => { env with current := p }

def bind (env : Env) (name : String) (id : Nat) : List Scope :=
  env.scopes.modify env.current fun s => { s with bindings := (name, id) :: s.bindings }

/-- Binds a name in the current scope. A name that is bound there already is left alone, and its
symbol is the error; names of outer scopes are shadowed. -/
def declare (env : Env) (name : String) (type : PrimType) (span : Option Span) :
    Except Symbol (Env × Symbol) :=
  match env.bound? env.current name with
  | some s => .error s
  | none =>
    let symbol : Symbol := ⟨env.symbols.length, name, type, env.current, span⟩
    .ok ({ env with
      scopes := env.bind name symbol.id
      symbols := env.symbols ++ [symbol] }, symbol)

def lookupFrom (env : Env) (name : String) : (n : Nat) → (scope : Nat) → Option Symbol
  | 0, _ => none
  | n+1, scope =>
    match env.bound? scope name with
    | some s => some s
    | none => (env.parent? scope).bind (env.lookupFrom name n)

/-- The nearest binding. A parent has a smaller number than its scope. -/
def lookup (env : Env) (name : String) : Option Symbol :=
  env.lookupFrom name (env.current + 1) env.current

def depthFrom (env : Env) : (n : Nat) → (scope : Nat) → Nat
  | 0, _ => 0
  | n+1, scope =>
    match env.parent? scope with
    | some p => env.depthFrom n p + 1
    | none => 0

def depth (env : Env) : Nat := env.depthFrom (env.current + 1) env.current

def symbol? (env : Env) (id : Nat) : Option Symbol := env.symbols[id]?

def isGlobal (env : Env) (id : Nat) : Bool :=
  match env.symbol? id with
  | some s => s.scope == 0
  | none => false

end Env

end ImpWasm
