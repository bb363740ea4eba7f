import Mathlib.Algebra.Order.Ring.Int
import ImpWasm.Proofs.Wasm.Acceptance
set_option autoImplicit false

namespace ImpWasm.Wasm.Leb128

def shiftLeft? {w : Nat} (x : BitVec w) (n : Nat) : Option (BitVec w) := if n < w then some (x <<< n) else none

def shiftRight? {w : Nat} (x : BitVec w) (n : Nat) : Option (BitVec w) := if n < w then some (x >>> n) else none

def sub? (m n : Nat) : Option Nat := if n ≤ m then some (m - n) else none

def payload (b : UInt8) : BitVec 8 := b.toBitVec &&& 0x7f#8

namespace Format

def lastFits? (f : Format) (shift : Nat) (b : UInt8) : Option Bool := do
  let left ← sub? f.bits shift
  if f.signed then
    -- the bits that are not used all match the sign
    if left < 7 then
      let unused ← sub? left 1
      let top ← shiftRight? (payload b) unused
      let ones ← shiftRight? 0x7f#8 unused
      return top == 0#8 || top == ones
    else return true
  else
    let rest ← shiftRight? ((payload b).setWidth 64) left
    return rest == 0#64

/-- Only the last permitted byte is looked at. -/
def fitsWord? (f : Format) (shift count : Nat) (b : UInt8) : Option Bool :=
  if count + 1 = f.maxBytes then f.lastFits? shift b else some true

/-- A negative number has ones above the `shift` bits that were read. -/
def extend? (f : Format) (shift : Nat) (b : UInt8) (word : BitVec 64) : Option (BitVec 64) :=
  if f.signed && decide (shift < 64) && b.toBitVec &&& 0x40#8 != 0#8 then do
    let ones ← shiftLeft? (BitVec.allOnes 64) shift
    return word ||| ones
  else some word

def loop? (f : Format) (start : Nat) (word : BitVec 64) (shift count : Nat) :
    Bytes → Option (Except DecodeError (BitVec 64 × Nat))
  | [] => some (.error (.unexpectedEnd (start + count)))
  | b :: bytes => do
    if f.maxBytes < count + 1 then return .error (.overflow start)
    else
      let fits ← f.fitsWord? shift count b
      if !fits then return .error (.overflow start)
      else
        let group ← shiftLeft? ((payload b).setWidth 64) shift
        if b.toBitVec &&& 0x80#8 = 0#8 then
          (f.extend? (shift + 7) b (word ||| group)).map fun word => .ok (word, count + 1)
        else loop? f start (word ||| group) (shift + 7) (count + 1) bytes

/-- What the machine reads at an offset. -/
def readWord? (f : Format) (bytes : Bytes) (offset : Nat) : Option (Except DecodeError (BitVec 64 × Nat)) :=
  f.loop? offset 0#64 0 0 (bytes.drop offset)

structure FitsWord (f : Format) : Prop where
  pos : 0 < f.bits
  le : f.bits ≤ 64

end Format

section Bits

theorem shiftLeft?_eq {w n : Nat} (x : BitVec w) (h : n < w) : shiftLeft? x n = some (x <<< n) := if_pos h

theorem shiftRight?_eq {w n : Nat} (x : BitVec w) (h : n < w) : shiftRight? x n = some (x >>> n) := if_pos h

theorem sub?_eq {m n : Nat} (h : n ≤ m) : sub? m n = some (m - n) := if_pos h

theorem toNat_payload (b : UInt8) : (payload b).toNat = b.toNat % 128 := by
  have mask : (0x7f#8).toNat = 2 ^ 7 - 1 := rfl
  rw [payload, BitVec.toNat_and, mask, Nat.and_two_pow_sub_one_eq_mod]
  rfl

theorem toNat_payload_setWidth (b : UInt8) : ((payload b).setWidth 64).toNat = b.toNat % 128 := by
  have small : b.toNat % 128 < 2 ^ 64 := by omega
  rw [BitVec.toNat_setWidth, toNat_payload, Nat.mod_eq_of_lt small]

theorem top_eq_zero_iff (b : UInt8) : b.toBitVec &&& 0x80#8 = 0#8 ↔ b < 128 := by
  obtain ⟨x⟩ := b
  revert x
  decide

theorem sign_eq_zero_iff (b : UInt8) : b.toBitVec &&& 0x40#8 = 0#8 ↔ b.toNat % 128 < 64 := by
  obtain ⟨x⟩ := b
  revert x
  decide

theorem shiftRight_eq_zero_iff {w : Nat} (x : BitVec w) (n : Nat) : x >>> n = 0#w ↔ x.toNat / 2 ^ n = 0 := by
  rw [← BitVec.toNat_inj, BitVec.toNat_ushiftRight, Nat.shiftRight_eq_div_pow, BitVec.toNat_zero]

theorem or_shiftLeft_eq {x y : BitVec 64} {sum n : Nat} {v : Int} (hx : x = BitVec.ofNat 64 sum) (hsum : sum < 2 ^ n)
    (hy : y = BitVec.ofInt 64 v) (hn : n < 64) : x ||| (y <<< n) = BitVec.ofInt 64 (sum + v * 2 ^ n) := by
  have hlow : x.toNat < 2 ^ n := by rw [hx]; exact Nat.lt_of_le_of_lt (Nat.mod_le _ _) hsum
  have disjoint : x &&& (y <<< n) = 0#64 := by
    apply BitVec.eq_of_getLsbD_eq
    intro i hi
    rw [BitVec.getLsbD_and, BitVec.getLsbD_shiftLeft, BitVec.getLsbD_zero]
    by_cases h : i < n
    · simp [h]
    · have above : x.getLsbD i = false :=
        Nat.testBit_lt_two_pow (Nat.lt_of_lt_of_le hlow (Nat.pow_le_pow_right (by omega) (by omega)))
      simp [above]
  rw [← BitVec.add_eq_or_of_and_eq_zero _ _ disjoint, BitVec.shiftLeft_eq_mul_twoPow, BitVec.ofInt_add,
    BitVec.ofInt_mul, hx, hy]
  congr 2
  apply BitVec.eq_of_toNat_eq
  rw [BitVec.toNat_twoPow, BitVec.toNat_ofInt]
  have small : (2 : Int) ^ n < 2 ^ 64 := pow_lt_pow_right₀ (by norm_num) hn
  have small' : 2 ^ n < 2 ^ 64 := Nat.pow_lt_pow_right (by omega) hn
  have hmod : (2 : Int) ^ n % ((2 ^ 64 : Nat) : Int) = 2 ^ n :=
    Int.emod_eq_of_lt (by positivity) (by exact_mod_cast small)
  rw [Nat.mod_eq_of_lt small', hmod]
  exact_mod_cast (Int.toNat_natCast (2 ^ n)).symm

end Bits

namespace Format

variable {f : Format}

/-- On the last permitted byte no shift or subtraction goes out of range. -/
theorem lastFits?_eq (hf : f.FitsWord) {count : Nat} (hlast : count + 1 = f.maxBytes) (b : UInt8) :
    f.lastFits? (7 * count) b = some (f.fitsLast (b.toNat % 128)) := by
  have hbits : 7 * count < f.bits ∧ f.bits ≤ 7 * count + 7 := by
    have := hf.pos
    simp only [maxBytes] at hlast
    omega
  obtain ⟨left, hleft⟩ : ∃ left, f.lastBits = left + 1 := ⟨f.lastBits - 1, by simp only [lastBits]; omega⟩
  have hsub : sub? f.bits (7 * count) = some (left + 1) := by
    rw [sub?_eq (by omega), ← hleft, lastBits, ← hlast, Nat.add_sub_cancel]
  have hle : left + 1 ≤ 7 := by rw [← hleft]; simp only [lastBits]; omega
  have hp := toNat_payload b
  have hb : b.toNat % 128 < 128 := Nat.mod_lt _ (by decide)
  cases hs : f.signed with
  | false =>
    have rest : ((payload b).setWidth 64 >>> (left + 1) == 0#64) = decide (b.toNat % 128 < 2 ^ (left + 1)) := by
      rw [Bool.eq_iff_iff, beq_iff_eq, decide_eq_true_eq, shiftRight_eq_zero_iff, toNat_payload_setWidth,
        Nat.div_eq_zero_iff_lt (by positivity)]
    simp [lastFits?, hsub, hs, shiftRight?_eq, show left + 1 < 64 by omega, fitsLast, hleft, rest]
  | true =>
    have zero : (payload b >>> left == 0#8) = (b.toNat % 128 / 2 ^ left == 0) := by
      rw [Bool.eq_iff_iff, beq_iff_eq, beq_iff_eq, shiftRight_eq_zero_iff, hp]
    have ones : (payload b >>> left == 0x7f#8 >>> left) = (b.toNat % 128 / 2 ^ left == 127 / 2 ^ left) := by
      rw [Bool.eq_iff_iff, beq_iff_eq, beq_iff_eq, ← BitVec.toNat_inj, BitVec.toNat_ushiftRight,
        BitVec.toNat_ushiftRight, Nat.shiftRight_eq_div_pow, Nat.shiftRight_eq_div_pow, hp]
      rfl
    by_cases hfull : left + 1 < 7
    · simp [lastFits?, hsub, hs, hfull, sub?_eq, shiftRight?_eq, show left < 8 by omega, fitsLast, hleft, zero, ones]
    · -- a whole byte is left, and both of its halves are in range
      obtain rfl : left = 6 := by omega
      have whole : f.fitsLast (b.toNat % 128) = true := by
        simp [fitsLast, hs, hleft]
        omega
      simp [lastFits?, hsub, hs, whole]

theorem fitsWord?_eq (hf : f.FitsWord) (count : Nat) (b : UInt8) :
    f.fitsWord? (7 * count) count b = some (!(count + 1 == f.maxBytes && !f.fitsLast (b.toNat % 128))) := by
  by_cases hlast : count + 1 = f.maxBytes
  · rw [fitsWord?, if_pos hlast, lastFits?_eq hf hlast]
    simp [hlast]
  · simp [fitsWord?, hlast]

theorem ofInt_sub_pow {count : Nat} (h : 64 ≤ 7 * count) (v : Int) :
    BitVec.ofInt 64 (v - 128 ^ count) = BitVec.ofInt 64 v := by
  have wide : (128 : Int) ^ count = 2 ^ 64 * 2 ^ (7 * count - 64) := by
    rw [pow_seven, ← pow_add]
    congr 1
    omega
  apply BitVec.eq_of_toNat_eq
  rw [BitVec.toNat_ofInt, BitVec.toNat_ofInt, wide]
  congr 1
  exact Int.sub_mul_emod_self_left v (2 ^ 64) _

theorem extend?_eq (more : Bytes) (b : UInt8) :
    f.extend? (7 * (more.length + 1)) b (BitVec.ofNat 64 (total (more ++ [b]))) =
      some (BitVec.ofInt 64 (f.value (more ++ [b]))) := by
  have low := total_lt (more ++ [b])
  rw [List.length_append, List.length_singleton, pow_seven] at low
  have sign : (b.toBitVec &&& 0x40#8 != 0#8) = decide (64 ≤ b.toNat % 128) := by
    rw [Bool.eq_iff_iff, bne_iff_ne, ne_eq, sign_eq_zero_iff, decide_eq_true_eq, Nat.not_lt]
  unfold extend? value
  rw [sign, negative_snoc, List.length_append, List.length_singleton]
  by_cases hneg : (f.signed && decide (64 ≤ b.toNat % 128)) = true
  · rw [if_pos hneg]
    obtain ⟨hs, hb⟩ := Bool.and_eq_true_iff.1 hneg
    by_cases hwide : 7 * (more.length + 1) < 64
    · have ones : BitVec.allOnes 64 = BitVec.ofInt 64 (-1) := by decide
      rw [if_pos (by simp [hs, hb, hwide]), shiftLeft?_eq _ hwide, pow_seven]
      have above := or_shiftLeft_eq rfl low ones hwide
      rw [Int.neg_one_mul, ← Int.sub_eq_add_neg] at above
      exact congrArg some above
    · rw [if_neg (by simp [hwide]), ofInt_sub_pow (by omega), BitVec.ofInt_natCast]
  · rw [if_neg hneg, if_neg (by simp only [Bool.and_eq_true] at hneg ⊢; tauto), BitVec.ofInt_natCast]

theorem FitsWord.shift_lt (hf : f.FitsWord) {count : Nat} (h : count < f.maxBytes) : 7 * count < 64 := by
  have := hf.le
  simp only [maxBytes] at h
  omega

/-- The payload of a byte is put above those before it. -/
theorem or_payload (hf : f.FitsWord) {more : Bytes} (h : more.length < f.maxBytes) (b : UInt8) :
    BitVec.ofNat 64 (total more) ||| ((payload b).setWidth 64 <<< (7 * more.length)) =
      BitVec.ofNat 64 (total (more ++ [b])) := by
  have low := total_lt more
  rw [pow_seven] at low
  have group : (payload b).setWidth 64 = BitVec.ofInt 64 (b.toNat % 128 : Nat) := by
    have small : b.toNat % 128 < 2 ^ 64 := by omega
    apply BitVec.eq_of_toNat_eq
    rw [toNat_payload_setWidth, BitVec.ofInt_natCast, BitVec.toNat_ofNat, Nat.mod_eq_of_lt small]
  rw [or_shiftLeft_eq rfl low group (hf.shift_lt h), ← pow_seven, ← BitVec.ofInt_natCast, total_snoc]
  push_cast
  rfl

theorem loop?_eq (hf : f.FitsWord) {start : Nat} (bytes more : Bytes) :
    f.loop? start (BitVec.ofNat 64 (total more)) (7 * more.length) more.length bytes =
      some ((f.readAfter start more.length (total more) bytes).map fun r => (BitVec.ofInt 64 r.1, r.2)) := by
  induction bytes generalizing more with
  | nil => rfl
  | cons b bytes ih =>
    by_cases hfull : f.maxBytes ≤ more.length
    · simp [loop?, readAfter, hfull, Nat.lt_succ_of_le hfull, Except.map]
    · have left : more.length < f.maxBytes := by omega
      have room : ¬ f.maxBytes < more.length + 1 := by omega
      have next := ih (more ++ [b])
      rw [List.length_append, List.length_singleton, total_snoc] at next
      have shift := shiftLeft?_eq ((payload b).setWidth 64) (hf.shift_lt left)
      simp only [loop?, readAfter, if_neg room, fitsWord?_eq hf, shift, or_payload hf left, hfull, decide_false,
        Bool.false_or, Option.bind_eq_bind, Option.bind_some, Nat.pow_eq, top_eq_zero_iff, Bool.not_not]
      by_cases hbad : (more.length + 1 == f.maxBytes && !f.fitsLast (b.toNat % 128)) = true
      · rw [if_pos hbad, if_pos hbad]
        rfl
      · rw [if_neg hbad, if_neg hbad]
        by_cases hb : b < 128
        · rw [if_pos hb, if_pos hb, ← value_snoc]
          exact congrArg (Option.map _) (extend?_eq more b)
        · rw [if_neg hb, if_neg hb, total_snoc]
          exact next

theorem readWord?_eq (hf : f.FitsWord) (bytes : Bytes) (offset : Nat) :
    f.readWord? bytes offset = some ((f.read offset (bytes.drop offset)).map fun r => (BitVec.ofInt 64 r.1, r.2)) :=
  loop?_eq hf (bytes.drop offset) []

/-- What is read at an offset is what the bytes there say, and the machine reads it without going out of range. -/
structure Decodes (f : Format) (bytes : Bytes) (offset : Nat) (result : Except DecodeError (Int × Nat)) : Prop where
  settled : f.Settles offset (bytes.drop offset) result
  machine : f.readWord? bytes offset = some (result.map fun r => (BitVec.ofInt 64 r.1, r.2))

theorem decodes_read (hf : f.FitsWord) (bytes : Bytes) (offset : Nat) :
    f.Decodes bytes offset (f.read offset (bytes.drop offset)) :=
  ⟨settles_read hf.pos _, readWord?_eq hf bytes offset⟩

end Format

end ImpWasm.Wasm.Leb128

namespace ImpWasm.Wasm

open Leb128

/-- The readers take exactly the integers in range, and say what is wrong with anything else. -/
theorem decoders_exact (bytes : Bytes) (offset : Nat) :
    u32.Decodes bytes offset ((decodeU32 bytes offset).map fun r => ((r.1.toNat : Int), r.2)) ∧
      i32.Decodes bytes offset ((decodeI32 bytes offset).map fun r => (r.1.toInt, r.2)) ∧
      i64.Decodes bytes offset ((decodeI64 bytes offset).map fun r => (r.1.toInt, r.2)) := by
  rw [map_decodeU32, map_decodeI32, map_decodeI64]
  exact ⟨Format.decodes_read ⟨by decide, by decide⟩ _ _, Format.decodes_read ⟨by decide, by decide⟩ _ _,
    Format.decodes_read ⟨by decide, by decide⟩ _ _⟩

end ImpWasm.Wasm
