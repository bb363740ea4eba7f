set_option autoImplicit false

namespace ImpWasm.Escape

def letter? : Char → Option Char
  | '"' => some '"'
  | '\\' => some '\\'
  | '\n' => some 'n'
  | '\t' => some 't'
  | '\r' => some 'r'
  | _ => none

/-- The character that a letter after a backslash stands for. -/
def meaning? : Char → Option Char
  | 'n' => some '\n'
  | 't' => some '\t'
  | 'r' => some '\r'
  | '\\' => some '\\'
  | '"' => some '"'
  | _ => none

theorem meaning?_of_letter? {c l : Char} (h : letter? c = some l) : meaning? l = some c := by
  revert h
  simp only [letter?]
  split <;> simp [meaning?] <;> rintro rfl <;> rfl

def encode : List Char → List Char
  | [] => []
  | c :: cs =>
    match letter? c with
    | some l => '\\' :: l :: encode cs
    | none => c :: encode cs

structure Fault where
  offset : Nat
  found : List Char
  deriving DecidableEq, Repr

/-- The characters that the inside of a literal, which begins at byte `offset`, stands for. -/
def decode (offset : Nat) : List Char → Except Fault (List Char)
  | [] => .ok []
  | ['\\'] => .error ⟨offset, ['\\']⟩
  | '\\' :: l :: cs =>
    match meaning? l with
    | some c => (decode (offset + 1 + l.utf8Size) cs).map (c :: ·)
    | none => .error ⟨offset, ['\\', l]⟩
  | c :: cs => (decode (offset + c.utf8Size) cs).map (c :: ·)

theorem decode_encode (cs : List Char) (offset : Nat) : decode offset (encode cs) = .ok cs := by
  induction cs generalizing offset with
  | nil => rfl
  | cons c cs ih =>
    simp only [encode]
    split
    · rename_i l hl
      simp [decode, meaning?_of_letter? hl, ih, Except.map]
    · rename_i hn
      have hc : c ≠ '\\' := by
        rintro rfl
        simp [letter?] at hn
      rw [decode.eq_4 _ _ _ (fun h _ => hc h) (fun _ _ h _ => hc h), ih]
      rfl

end ImpWasm.Escape
