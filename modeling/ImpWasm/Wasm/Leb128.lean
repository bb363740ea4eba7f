import ImpWasm.Diagnostic
set_option autoImplicit false

/-!
Variable-length integers: seven bits a byte, the low group first, and the top bit of a byte saying
that another one follows.
-/
namespace ImpWasm.Wasm

abbrev Bytes := List UInt8

inductive DecodeError where
  | unexpectedEnd (offset : Nat)
  | overflow (offset : Nat)
  deriving DecidableEq, Repr

def DecodeError.diagnostic : DecodeError → Diagnostic
  | .unexpectedEnd offset =>
    { message := "Unexpected end of input at byte " ++ toString offset
      code := some "reflang::wasm::unexpected_eof" }
  | .overflow offset =>
    { message := "LEB128 integer at byte " ++ toString offset ++ " does not fit its type"
      code := some "reflang::wasm::leb_overflow"
      help := some "The encoding is longer than the integer width allows" }

namespace Leb128

def writeNat : Nat → Nat → Bytes
  | 0, _ => []
  | n+1, v => if v < 128 then [v.toUInt8] else (v % 128 + 128).toUInt8 :: writeNat n (v / 128)

/-- The shortest form of an integer, cut after `n` bytes. Division rounds down, so what is left of
a negative number stays negative. -/
def writeInt : Nat → Int → Bytes
  | 0, _ => []
  | n+1, v =>
    if -64 ≤ v ∧ v < 64 then [(v % 128).toNat.toUInt8]
    else ((v % 128).toNat + 128).toUInt8 :: writeInt n (v / 128)

theorem length_writeNat_le (n v : Nat) : (writeNat n v).length ≤ n := by
  induction n generalizing v with
  | zero => simp [writeNat]
  | succ n ih =>
    simp only [writeNat]
    split
    · simp
    · simpa using ih (v / 128)

theorem length_writeInt_le (n : Nat) (v : Int) : (writeInt n v).length ≤ n := by
  induction n generalizing v with
  | zero => simp [writeInt]
  | succ n ih =>
    simp only [writeInt]
    split
    · simp
    · simpa using ih (v / 128)

structure Format where
  bits : Nat
  signed : Bool
  deriving DecidableEq, Repr

def u32 : Format := ⟨32, false⟩
def i32 : Format := ⟨32, true⟩
def i64 : Format := ⟨64, true⟩

/-- The fewest bytes whose payloads hold every bit. -/
def Format.maxBytes (f : Format) : Nat := (f.bits + 6) / 7

def Format.lastBits (f : Format) : Nat := f.bits - 7 * (f.maxBytes - 1)

/-- The last permitted byte may only carry the bits that remain; of a signed number, the bits above
them repeat the sign. -/
def Format.fitsLast (f : Format) (payload : Nat) : Bool :=
  if f.signed then
    let top := payload / Nat.pow 2 (f.lastBits - 1)
    top == 0 || top == 127 / Nat.pow 2 (f.lastBits - 1)
  else payload < Nat.pow 2 f.lastBits

/-- The value of `count` payloads summing to `sum`, the last of which is `payload`. -/
def Format.close (f : Format) (sum count payload : Nat) : Int :=
  if f.signed && 64 ≤ payload then (sum : Int) - Nat.pow 128 count else sum

/-- Goes on reading after `count` bytes summing to `sum`: the value and the number of bytes of the
whole integer, which starts at offset `start`. -/
def Format.readAfter (f : Format) (start count sum : Nat) : Bytes → Except DecodeError (Int × Nat)
  | [] => .error (.unexpectedEnd (start + count))
  | b :: bs =>
    let payload := b.toNat % 128
    if f.maxBytes ≤ count || (count + 1 == f.maxBytes && !f.fitsLast payload) then
      .error (.overflow start)
    else
      let sum := sum + payload * Nat.pow 128 count
      if b < 128 then .ok (f.close sum (count + 1) payload, count + 1)
      else f.readAfter start (count + 1) sum bs

def Format.read (f : Format) (start : Nat) (bytes : Bytes) : Except DecodeError (Int × Nat) :=
  f.readAfter start 0 0 bytes

end Leb128

open Leb128

def encodeU32 (v : UInt32) : Bytes := writeNat 5 v.toNat
def encodeI32 (v : Int32) : Bytes := writeInt 5 v.toInt
def encodeI64 (v : Int64) : Bytes := writeInt 10 v.toInt

def encodeCount (n : Nat) : Bytes := encodeU32 n.toUInt32

def encodeVector {α : Type} (item : α → Bytes) (xs : List α) : Bytes :=
  encodeCount xs.length ++ xs.flatMap item

def encodeName (name : String) : Bytes :=
  let bytes := name.toUTF8.toList
  encodeCount bytes.length ++ bytes

def readU32 (start : Nat) (bytes : Bytes) : Except DecodeError (UInt32 × Nat) :=
  (u32.read start bytes).map fun (v, n) => (v.toNat.toUInt32, n)

def readI32 (start : Nat) (bytes : Bytes) : Except DecodeError (Int32 × Nat) :=
  (i32.read start bytes).map fun (v, n) => (Int32.ofInt v, n)

def readI64 (start : Nat) (bytes : Bytes) : Except DecodeError (Int64 × Nat) :=
  (i64.read start bytes).map fun (v, n) => (Int64.ofInt v, n)

def decodeU32 (bytes : Bytes) (offset : Nat) : Except DecodeError (UInt32 × Nat) :=
  readU32 offset (bytes.drop offset)

def decodeI32 (bytes : Bytes) (offset : Nat) : Except DecodeError (Int32 × Nat) :=
  readI32 offset (bytes.drop offset)

def decodeI64 (bytes : Bytes) (offset : Nat) : Except DecodeError (Int64 × Nat) :=
  readI64 offset (bytes.drop offset)

end ImpWasm.Wasm
