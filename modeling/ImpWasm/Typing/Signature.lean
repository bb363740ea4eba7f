import ImpWasm.Lang.Printer
set_option autoImplicit false

namespace ImpWasm

structure Signature where
  name : String
  result : PrimType
  params : Option (List PrimType) := none
  isImported : Bool := false
  span : Option Span := none
  deriving DecidableEq, Repr

namespace Signature

def paramTypes (s : Signature) : List PrimType := s.params.getD []

def arity (s : Signature) : Nat := s.paramTypes.length

def text (s : Signature) : String :=
  (if s.isImported then "extern " else "") ++ "fn " ++ s.name ++ "("
    ++ String.intercalate ", " (s.paramTypes.map PrimType.name) ++ ") -> " ++ s.result.name

end Signature

structure FunctionTable where
  signatures : List Signature := []
  deriving DecidableEq, Repr

namespace FunctionTable

def get? (t : FunctionTable) (name : String) : Option Signature :=
  t.signatures.find? (·.name == name)

def contains (t : FunctionTable) (name : String) : Bool := (t.get? name).isSome

def size (t : FunctionTable) : Nat := t.signatures.length

def isEmpty (t : FunctionTable) : Bool := t.signatures.isEmpty

def names (t : FunctionTable) : List String := t.signatures.map Signature.name

/-- A name that is taken keeps its signature, which is the error. -/
def insert (t : FunctionTable) (s : Signature) : Except Signature FunctionTable :=
  match t.get? s.name with
  | some existing => .error existing
  | none => .ok ⟨t.signatures ++ [s]⟩

end FunctionTable

end ImpWasm
