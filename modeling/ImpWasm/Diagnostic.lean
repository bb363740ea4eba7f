set_option autoImplicit false

namespace ImpWasm

/-- A half-open range of byte offsets into the source text. -/
structure Span where
  start : Nat := 0
  stop : Nat := 0
  deriving DecidableEq, Repr, Inhabited

def Span.length (s : Span) : Nat := s.stop - s.start

def Span.merge (a b : Span) : Span := ⟨a.start, b.stop⟩

structure Label where
  text : String
  offset : Nat
  length : Nat
  deriving DecidableEq, Repr

def Span.label (s : Span) (text : String) : Label := ⟨text, s.start, s.length⟩

structure Diagnostic where
  message : String
  code : Option String := none
  help : Option String := none
  labels : List Label := []
  deriving DecidableEq, Repr

end ImpWasm
