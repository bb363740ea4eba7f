import ImpWasm.Wasm.Leb128
import Mathlib.Data.Nat.Digits.Defs
import Mathlib.Tactic.Ring
set_option autoImplicit false

/-!
Which bytes are integers of a type. The payloads of the bytes make up a number, of which the sixth bit of the
last byte is the sign, and the first byte without its top bit ends it. Main statement: the readers take the
integers that end before the last permitted byte, and of those that end with it the ones in range; for anything
else they say where the input ends too early or where an integer starts that is too large.
-/
namespace ImpWasm.Wasm.Leb128

/-- The payloads of bytes, each one worth 128 times the one before it. -/
def total (bytes : Bytes) : Nat := Nat.ofDigits 128 (bytes.map fun b => b.toNat % 128)

def negative (bytes : Bytes) : Bool := bytes.getLast?.any fun b => 64 ≤ b.toNat % 128

namespace Format

/-- The number that bytes stand for, be it in range or not. -/
def value (f : Format) (bytes : Bytes) : Int :=
  if f.signed && negative bytes then (total bytes : Int) - 128 ^ bytes.length else total bytes

def InRange (f : Format) (v : Int) : Prop :=
  if f.signed then -2 ^ (f.bits - 1) ≤ v ∧ v < 2 ^ (f.bits - 1) else 0 ≤ v ∧ v < 2 ^ f.bits

end Format

def EndsAt (bytes : Bytes) (n : Nat) : Prop :=
  ∃ more last rest, bytes = more ++ last :: rest ∧ (∀ b ∈ more, 128 ≤ b) ∧ last < 128 ∧ n = more.length + 1

namespace Format

/-- The first `n` bytes are an integer of the type. -/
def Accepts (f : Format) (bytes : Bytes) (n : Nat) : Prop :=
  EndsAt bytes n ∧ (n < f.maxBytes ∨ n = f.maxBytes ∧ f.InRange (f.value (bytes.take n)))

/-- Why bytes at `offset` that do not start with an integer of the type are refused. -/
structure Refusal (f : Format) (offset : Nat) (bytes : Bytes) (result : Except DecodeError (Int × Nat)) : Prop where
  late : ∀ n, EndsAt bytes n → f.maxBytes ≤ n
  unfit : f.maxBytes ≤ bytes.length → ¬ f.InRange (f.value (bytes.take f.maxBytes)) →
    result = .error (.overflow offset)
  short : bytes.length ≤ f.maxBytes → (bytes.length = f.maxBytes → f.InRange (f.value bytes)) →
    (∀ b ∈ bytes, 128 ≤ b) ∧ result = .error (.unexpectedEnd (offset + bytes.length))
  long : f.maxBytes < bytes.length → f.InRange (f.value (bytes.take f.maxBytes)) →
    result = .error (.overflow offset)

structure Settles (f : Format) (offset : Nat) (bytes : Bytes) (result : Except DecodeError (Int × Nat)) : Prop where
  accepted : ∀ n, f.Accepts bytes n → result = .ok (f.value (bytes.take n), n)
  refused : (∀ n, ¬ f.Accepts bytes n) → f.Refusal offset bytes result

end Format

section Payloads

variable {bytes bytes' : Bytes} {b : UInt8}

theorem total_append (bytes bytes' : Bytes) :
    total (bytes ++ bytes') = total bytes + 128 ^ bytes.length * total bytes' := by
  simp [total, Nat.ofDigits_append]

@[simp] theorem total_singleton (b : UInt8) : total [b] = b.toNat % 128 := by
  simp [total]

theorem total_snoc (bytes : Bytes) (b : UInt8) :
    total (bytes ++ [b]) = total bytes + b.toNat % 128 * 128 ^ bytes.length := by
  rw [total_append, total_singleton, Nat.mul_comm]

theorem payload_lt (bytes : Bytes) {d : Nat} (h : d ∈ bytes.map fun b => b.toNat % 128) : d < 128 := by
  obtain ⟨b, -, rfl⟩ := List.mem_map.1 h
  omega

theorem total_lt (bytes : Bytes) : total bytes < 128 ^ bytes.length := by
  simpa [total] using Nat.ofDigits_lt_base_pow_length (by decide) fun _ => payload_lt bytes

@[simp] theorem negative_snoc (bytes : Bytes) (b : UInt8) :
    negative (bytes ++ [b]) = decide (64 ≤ b.toNat % 128) := by
  simp [negative]

theorem value_snoc (f : Format) (bytes : Bytes) (b : UInt8) :
    f.value (bytes ++ [b]) = f.close (total bytes + b.toNat % 128 * 128 ^ bytes.length) (bytes.length + 1)
      (b.toNat % 128) := by
  simp [Format.value, Format.close, total_snoc]

def Format.lead (f : Format) (b : UInt8) : Int :=
  if f.signed && 64 ≤ b.toNat % 128 then (b.toNat % 128 : Nat) - 128 else (b.toNat % 128 : Nat)

theorem value_snoc_eq (f : Format) (bytes : Bytes) (b : UInt8) :
    f.value (bytes ++ [b]) = total bytes + f.lead b * 128 ^ bytes.length := by
  rw [value_snoc]
  simp only [Format.close, Format.lead, Nat.pow_eq]
  split <;> push_cast <;> ring

end Payloads

section Range

variable {f : Format}

theorem pow_seven {α : Type} [CommSemiring α] (n : Nat) : (128 : α) ^ n = 2 ^ (7 * n) := by
  rw [pow_mul]
  norm_num

/-- What stands above the low digits decides how large a number is. -/
theorem low_add_lt_iff {low m n q : Int} (h0 : 0 ≤ low) (hq : low < q) : low + m * q < n * q ↔ m < n := by
  have hpos : 0 < q := by omega
  rw [← Int.ediv_lt_iff_lt_mul hpos, Int.add_mul_ediv_right _ _ (by omega), Int.ediv_eq_zero_of_lt h0 hq, Int.zero_add]

theorem le_low_add_iff {low m n q : Int} (h0 : 0 ≤ low) (hq : low < q) : n * q ≤ low + m * q ↔ n ≤ m := by
  have hpos : 0 < q := by omega
  rw [← Int.le_ediv_iff_mul_le hpos, Int.add_mul_ediv_right _ _ (by omega), Int.ediv_eq_zero_of_lt h0 hq, Int.zero_add]

theorem two_pow_split {bits count : Nat} (h : 7 * count ≤ bits) :
    (2 : Int) ^ bits = 2 ^ (bits - 7 * count) * 128 ^ count := by
  rw [pow_seven, ← pow_add]
  congr 1
  omega

/-- The last permitted byte fits if the payloads up to it are a number in range. -/
theorem fitsLast_iff_inRange (bytes : Bytes) (b : UInt8) (hpos : 0 < f.bits)
    (hlast : bytes.length + 1 = f.maxBytes) :
    f.fitsLast (b.toNat % 128) = true ↔ f.InRange (f.value (bytes ++ [b])) := by
  have hlt : (total bytes : Int) < 128 ^ bytes.length := by exact_mod_cast total_lt bytes
  have hleft : f.lastBits = f.bits - 7 * bytes.length := by simp only [Format.lastBits]; omega
  have hbits : 7 * bytes.length < f.bits := by simp only [Format.maxBytes] at hlast; omega
  rw [value_snoc_eq]
  have hb : b.toNat % 128 < 128 := Nat.mod_lt _ (by decide)
  cases hs : f.signed with
  | false =>
    simp only [Format.InRange, Format.fitsLast, Format.lead, hs, Bool.false_and, Bool.false_eq_true, if_false]
    rw [two_pow_split (Nat.le_of_lt hbits), low_add_lt_iff (by positivity) hlt, ← hleft]
    have : (0 : Int) ≤ total bytes + (b.toNat % 128 : Nat) * 128 ^ bytes.length := by positivity
    simp only [this, true_and, decide_eq_true_eq, Nat.pow_eq]
    exact_mod_cast Iff.rfl
  | true =>
    obtain ⟨k, hk⟩ : ∃ k, f.lastBits = k + 1 := ⟨f.lastBits - 1, by omega⟩
    have hk6 : k ≤ 6 := by simp only [Format.maxBytes] at hlast; omega
    have hrest : f.bits - 1 - 7 * bytes.length = k := by omega
    simp only [Format.InRange, Format.fitsLast, Format.lead, hs, Bool.true_and, if_true, hk, Nat.add_sub_cancel]
    rw [two_pow_split (show 7 * bytes.length ≤ f.bits - 1 by omega), hrest, low_add_lt_iff (by positivity) hlt,
      ← Int.neg_mul, le_low_add_iff (by positivity) hlt]
    generalize b.toNat % 128 = p at hb
    match k, hk6 with
    | 0, _ | 1, _ | 2, _ | 3, _ | 4, _ | 5, _ | 6, _ => simp; split <;> omega

theorem inRange_of_lt_maxBytes {bytes : Bytes} (hlt : bytes.length < f.maxBytes) : f.InRange (f.value bytes) := by
  have htotal : (total bytes : Int) < 128 ^ bytes.length := by exact_mod_cast total_lt bytes
  have hbits : 7 * bytes.length ≤ f.bits - 1 := by simp only [Format.maxBytes] at hlt; omega
  have hpow : (128 : Int) ^ bytes.length ≤ 2 ^ (f.bits - 1) := by
    rw [two_pow_split hbits]
    exact le_mul_of_one_le_left (by positivity) (one_le_pow₀ (by norm_num))
  have hpow' : (2 : Int) ^ (f.bits - 1) ≤ 2 ^ f.bits := pow_le_pow_right₀ (by norm_num) (by omega)
  have h0 : (0 : Int) ≤ total bytes := by positivity
  cases hs : f.signed with
  | false =>
    simp only [Format.InRange, Format.value, hs, Bool.false_and, Bool.false_eq_true, if_false]
    omega
  | true =>
    simp only [Format.InRange, Format.value, hs, Bool.true_and, if_true]
    cases negative bytes with
    | false => simp only [Bool.false_eq_true, if_false]; omega
    | true => simp only [if_true]; omega

end Range

section Endings

variable {more bytes : Bytes} {b : UInt8}

theorem EndsAt.lt {n : Nat} (h : EndsAt (more ++ bytes) n) (hm : ∀ b ∈ more, 128 ≤ b) : more.length < n := by
  obtain ⟨more', last, rest, same, -, hlast, rfl⟩ := h
  obtain ⟨between, rfl, -⟩ | ⟨between, rfl, hrest⟩ := List.append_eq_append_iff.1 same
  · simp only [List.length_append]; omega
  · cases between with
    | nil => simp
    | cons c between =>
      obtain ⟨rfl, -⟩ := List.cons.inj hrest
      have high := hm last (by simp)
      simp only [UInt8.le_iff_toNat_le, UInt8.lt_iff_toNat_lt] at high hlast
      omega

theorem not_endsAt (hm : ∀ b ∈ more, 128 ≤ b) (n : Nat) : ¬ EndsAt more n := by
  intro h
  obtain ⟨more', last, rest, rfl, -, hlast, rfl⟩ := h
  have high := hm last (by simp)
  simp only [UInt8.le_iff_toNat_le, UInt8.lt_iff_toNat_lt] at high hlast
  omega

theorem endsAt_of_last (hm : ∀ b ∈ more, 128 ≤ b) (hb : b < 128) : EndsAt (more ++ b :: bytes) (more.length + 1) :=
  ⟨more, b, bytes, rfl, hm, hb, rfl⟩

theorem EndsAt.unique {m n : Nat} (h : EndsAt bytes m) (h' : EndsAt bytes n) : m = n := by
  obtain ⟨more, last, rest, rfl, hm, hlast, rfl⟩ := h
  have before := h'.lt hm
  obtain ⟨more', last', rest', same, hm', -, rfl⟩ := h'
  have after := EndsAt.lt (same ▸ endsAt_of_last hm hlast) hm'
  omega

end Endings

namespace Format

variable {f : Format} {offset : Nat}

theorem take_length_succ (more bytes : Bytes) (b : UInt8) :
    (more ++ b :: bytes).take (more.length + 1) = more ++ [b] := by
  rw [List.take_length_add_append, List.take_succ_cons, List.take_zero]

/-- Reading goes on after bytes with their top bits, which fit so far. -/
theorem settles_readAfter (hpos : 0 < f.bits) (bytes : Bytes) (more : Bytes) (hm : ∀ b ∈ more, 128 ≤ b)
    (hlen : more.length ≤ f.maxBytes) (hfit : more.length = f.maxBytes → f.InRange (f.value more)) :
    f.Settles offset (more ++ bytes) (f.readAfter offset more.length (total more) bytes) := by
  induction bytes generalizing more with
  | nil =>
    rw [List.append_nil]
    refine ⟨fun n accepted => absurd accepted.1 (not_endsAt hm n), fun _ => ?_⟩
    refine ⟨fun n ends => absurd ends (not_endsAt hm n), fun enough unfit => ?_, fun _ _ => ⟨hm, rfl⟩, fun long _ => ?_⟩
    · have full : more.length = f.maxBytes := by omega
      rw [← full, List.take_length] at unfit
      exact absurd (hfit full) unfit
    · omega
  | cons b bytes ih =>
    simp only [readAfter, Nat.pow_eq]
    by_cases hfull : f.maxBytes ≤ more.length
    · -- all permitted bytes were read, and the last one has its top bit
      have full : more.length = f.maxBytes := by omega
      rw [if_pos (by simp [hfull])]
      have later : ∀ n, EndsAt (more ++ b :: bytes) n → f.maxBytes < n := fun n ends => full ▸ ends.lt hm
      refine ⟨fun n accepted => ?_,
        fun _ => ⟨fun n ends => (later n ends).le, fun _ _ => rfl, fun short => ?_, fun _ _ => rfl⟩⟩
      · have past := later n accepted.1
        obtain early | ⟨same, -⟩ := accepted.2 <;> omega
      · simp only [List.length_append, List.length_cons] at short; omega
    · have room : more.length + 1 ≤ f.maxBytes := by omega
      have taken := take_length_succ more bytes b
      by_cases hbad : more.length + 1 = f.maxBytes ∧ f.fitsLast (b.toNat % 128) = false
      · obtain ⟨hlast, hfits⟩ := hbad
        have unfit : ¬ f.InRange (f.value (more ++ [b])) := by
          rw [← fitsLast_iff_inRange more b hpos hlast, hfits]; simp
        rw [if_pos (by simp [hlast, hfits])]
        have later : ∀ n, EndsAt (more ++ b :: bytes) n → f.maxBytes ≤ n := fun n ends => hlast ▸ ends.lt hm
        refine ⟨fun n accepted => ?_, fun _ => ⟨later, fun _ _ => rfl, fun short fits => ?_, fun _ _ => rfl⟩⟩
        · have past := later n accepted.1
          obtain early | ⟨rfl, range⟩ := accepted.2
          · omega
          · rw [← hlast, taken] at range
            exact absurd range unfit
        · simp only [List.length_append, List.length_cons] at short fits
          obtain rfl : bytes = [] := List.eq_nil_of_length_eq_zero (by omega)
          exact absurd (fits (by simpa using hlast)) unfit
      · have fits : more.length + 1 = f.maxBytes → f.InRange (f.value (more ++ [b])) := by
          intro hlast
          rw [← fitsLast_iff_inRange more b hpos hlast]
          simpa [hlast] using hbad
        rw [if_neg (by simpa [hfull] using fun hlast => by simpa [hlast] using hbad)]
        by_cases hb : b < 128
        · have ends : EndsAt (more ++ b :: bytes) (more.length + 1) := endsAt_of_last hm hb
          rw [if_pos hb, ← value_snoc, ← taken]
          refine ⟨fun n accepted => ?_, fun none => ?_⟩
          · rw [accepted.1.unique ends]
          · refine absurd ⟨ends, ?_⟩ (none (more.length + 1))
            obtain early | last := Nat.lt_or_eq_of_le room
            · exact .inl early
            · exact .inr ⟨last, by rw [taken]; exact fits last⟩
        · have high : ∀ c ∈ more ++ [b], 128 ≤ c := by
            simpa [or_imp, forall_and] using ⟨hm, UInt8.not_lt.1 hb⟩
          have next := ih (more ++ [b]) high (by simpa using room) (by simpa using fits)
          rw [List.append_assoc, List.length_append, List.length_singleton, total_snoc] at next
          rw [if_neg hb]
          exact next

/-- A reader settles what stands at the head of the bytes. -/
theorem settles_read (hpos : 0 < f.bits) (bytes : Bytes) : f.Settles offset bytes (f.read offset bytes) :=
  settles_readAfter hpos bytes [] (by simp) (Nat.zero_le _) fun none => by
    simp only [List.length_nil, maxBytes] at none
    omega

theorem Accepts.inRange {bytes : Bytes} {n : Nat} (h : f.Accepts bytes n) : f.InRange (f.value (bytes.take n)) := by
  obtain ⟨ends, early | ⟨-, range⟩⟩ := h
  · refine inRange_of_lt_maxBytes ?_
    rw [List.length_take]
    omega
  · exact range

theorem Refusal.not_ok {bytes : Bytes} {r : Int × Nat} (h : f.Refusal offset bytes (.ok r)) : False := by
  by_cases enough : f.maxBytes ≤ bytes.length
  · by_cases fits : f.InRange (f.value (bytes.take f.maxBytes))
    · obtain longer | same := Nat.lt_or_eq_of_le enough
      · cases h.long longer fits
      · rw [same, List.take_length] at fits
        cases (h.short same.ge fun _ => fits).2
    · cases h.unfit enough fits
  · cases (h.short (by omega) fun same => absurd same.ge enough).2

theorem Settles.ok {bytes : Bytes} {v : Int} {n : Nat} (h : f.Settles offset bytes (.ok (v, n))) :
    f.Accepts bytes n ∧ v = f.value (bytes.take n) := by
  by_cases accepted : ∃ m, f.Accepts bytes m
  · obtain ⟨m, hm⟩ := accepted
    cases h.accepted m hm
    exact ⟨hm, rfl⟩
  · exact (h.refused fun m hm => accepted ⟨m, hm⟩).not_ok.elim

theorem inRange_of_read (hpos : 0 < f.bits) {bytes : Bytes} {v : Int} {n : Nat}
    (h : f.read offset bytes = .ok (v, n)) : f.InRange v := by
  obtain ⟨accepted, rfl⟩ := (h ▸ settles_read hpos bytes : f.Settles offset bytes _).ok
  exact accepted.inRange

end Format

end ImpWasm.Wasm.Leb128

namespace ImpWasm.Wasm

open Leb128

theorem map_typed {α : Type} {f : Format} (hpos : 0 < f.bits) (make : Int → α) (view : α → Int)
    (same : ∀ v, f.InRange v → view (make v) = v) (offset : Nat) (bytes : Bytes) :
    ((f.read offset bytes).map fun r => (make r.1, r.2)).map (fun r => (view r.1, r.2)) = f.read offset bytes := by
  cases hr : f.read offset bytes with
  | error e => rfl
  | ok r => simp [Except.map, same _ (Format.inRange_of_read hpos hr)]

theorem map_decodeU32 (bytes : Bytes) (offset : Nat) :
    (decodeU32 bytes offset).map (fun r => ((r.1.toNat : Int), r.2)) = u32.read offset (bytes.drop offset) := by
  refine map_typed (f := u32) (by decide) (fun v => v.toNat.toUInt32) (fun v => (v.toNat : Int)) (fun v hv => ?_)
    offset _
  obtain ⟨low, high⟩ : 0 ≤ v ∧ v < 2 ^ 32 := hv
  have small : v.toNat < 2 ^ 32 := by omega
  simp only [Nat.toUInt32, UInt32.toNat_ofNat', Nat.mod_eq_of_lt small]
  omega

theorem map_decodeI32 (bytes : Bytes) (offset : Nat) :
    (decodeI32 bytes offset).map (fun r => (r.1.toInt, r.2)) = i32.read offset (bytes.drop offset) := by
  refine map_typed (f := i32) (by decide) Int32.ofInt Int32.toInt (fun v hv => ?_) offset _
  obtain ⟨low, high⟩ : -2 ^ 31 ≤ v ∧ v < 2 ^ 31 := hv
  exact Int32.toInt_ofInt_of_le low high

theorem map_decodeI64 (bytes : Bytes) (offset : Nat) :
    (decodeI64 bytes offset).map (fun r => (r.1.toInt, r.2)) = i64.read offset (bytes.drop offset) := by
  refine map_typed (f := i64) (by decide) Int64.ofInt Int64.toInt (fun v hv => ?_) offset _
  obtain ⟨low, high⟩ : -2 ^ 63 ≤ v ∧ v < 2 ^ 63 := hv
  exact Int64.toInt_ofInt_of_le low high

end ImpWasm.Wasm
