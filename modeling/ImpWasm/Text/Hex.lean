set_option autoImplicit false

namespace ImpWasm.Hex

def digits : List Char := "0123456789abcdef".toList

def digit (n : Nat) : Char := digits.getD n '0'

def byte (b : UInt8) : List Char := [digit (b.toNat / 16), digit (b.toNat % 16)]

def chars : List UInt8 → List Char
  | [] => []
  | b :: bs => byte b ++ chars bs

def encode (bs : List UInt8) : String := String.ofList (chars bs)

theorem length_chars (bs : List UInt8) : (chars bs).length = 2 * bs.length := by
  induction bs with
  | nil => rfl
  | cons b bs ih => simp [chars, byte, ih]; omega

def value? (c : Char) : Option Nat := digits.findIdx? (· == c)

/-- Reads lowercase digits in pairs; an odd digit out or any other character is refused. -/
def parse : List Char → Option (List UInt8)
  | [] => some []
  | [_] => none
  | h :: l :: rest => do
    let hi ← value? h
    let lo ← value? l
    let bytes ← parse rest
    return (16 * hi + lo).toUInt8 :: bytes

theorem value?_digit (n : Nat) (h : n < 16) : value? (digit n) = some n := by
  have all : ∀ n : Fin 16, value? (digit n.val) = some n.val := by decide
  exact all ⟨n, h⟩

theorem parse_chars (bs : List UInt8) : parse (chars bs) = some bs := by
  induction bs with
  | nil => rfl
  | cons b bs ih =>
    have hb := b.toNat_lt
    have high := value?_digit (b.toNat / 16) (by omega)
    have low := value?_digit (b.toNat % 16) (by omega)
    have whole : 16 * (b.toNat / 16) + b.toNat % 16 = b.toNat := by omega
    have same : b.toNat.toUInt8 = b := by simp
    simp only [chars, byte, List.cons_append, List.nil_append, parse, high, low, ih, whole, same,
      Option.bind_eq_bind, Option.bind_some, Option.pure_def]

def decode (s : String) : Option (List UInt8) := parse s.toList

theorem length_encode (bs : List UInt8) : (encode bs).length = 2 * bs.length := by
  simp [encode, length_chars]

theorem decode_encode (bs : List UInt8) : decode (encode bs) = some bs := by
  simp [decode, encode, parse_chars]

end ImpWasm.Hex
