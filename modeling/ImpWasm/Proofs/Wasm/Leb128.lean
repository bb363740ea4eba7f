import ImpWasm.Wasm.Leb128
import Mathlib.Algebra.Group.Int.Defs
import Mathlib.Algebra.Group.Nat.Defs
set_option autoImplicit false

namespace ImpWasm.Wasm.Leb128

/-- The offset only shows in errors. -/
theorem Format.readAfter_frame {f : Format} {start count sum : Nat} {bytes : Bytes} {v : Int} {n : Nat}
    (h : f.readAfter start count sum bytes = .ok (v, n)) :
    ∃ used rest, bytes = used ++ rest ∧ count + used.length = n ∧ used ≠ [] ∧
      ∀ start' more, f.readAfter start' count sum (used ++ more) = .ok (v, n) := by
  induction bytes generalizing count sum with
  | nil => simp [readAfter] at h
  | cons b bs ih =>
    simp only [readAfter] at h
    split at h
    · simp at h
    · rename_i fits
      split at h
      · rename_i last
        simp only [Except.ok.injEq, Prod.mk.injEq] at h
        obtain ⟨rfl, rfl⟩ := h
        refine ⟨[b], bs, rfl, rfl, by simp, ?_⟩
        intro start' more
        simp only [List.cons_append, List.nil_append, readAfter]
        rw [if_neg fits, if_pos last]
      · rename_i last
        obtain ⟨used, rest, rfl, hn, _, hu⟩ := ih h
        refine ⟨b :: used, rest, rfl, ?_, by simp, ?_⟩
        · simp only [List.length_cons]; omega
        · intro start' more
          simp only [List.cons_append, readAfter]
          rw [if_neg fits, if_neg last]
          exact hu start' more

theorem Format.read_frame {f : Format} {start : Nat} {bytes : Bytes} {v : Int} {n : Nat}
    (h : f.read start bytes = .ok (v, n)) :
    ∃ used rest, bytes = used ++ rest ∧ used.length = n ∧ used ≠ [] ∧
      ∀ start' more, f.read start' (used ++ more) = .ok (v, n) := by
  obtain ⟨used, rest, hb, hn, hne, hu⟩ := readAfter_frame h
  exact ⟨used, rest, hb, by omega, hne, hu⟩

theorem toNat_byte {n : Nat} (h : n < 256) : n.toUInt8.toNat = n := by
  simp [Nat.mod_eq_of_lt h]

theorem Format.readAfter_last {f : Format} {start count sum payload : Nat} {rest : Bytes}
    (hp : payload < 128) (hc : count < f.maxBytes)
    (hf : count + 1 = f.maxBytes → f.fitsLast payload = true) :
    f.readAfter start count sum (payload.toUInt8 :: rest) =
      .ok (f.close (sum + payload * 128 ^ count) (count + 1) payload, count + 1) := by
  have hb := toNat_byte (show payload < 256 by omega)
  have hm : payload % 128 = payload := by omega
  have hlt : payload.toUInt8 < 128 := by rw [UInt8.lt_iff_toNat_lt, hb]; exact hp
  have hfits : ¬ (decide (f.maxBytes ≤ count) || (count + 1 == f.maxBytes && !f.fitsLast payload)) := by
    by_cases he : count + 1 = f.maxBytes
    · simp [hf he]; omega
    · simp [he]; omega
  simp only [readAfter, hb, hm, Nat.pow_eq]
  rw [if_neg hfits, if_pos hlt]

theorem Format.readAfter_more {f : Format} {start count sum payload : Nat} {rest : Bytes}
    (hp : payload < 128) (hc : count + 1 < f.maxBytes) :
    f.readAfter start count sum ((payload + 128).toUInt8 :: rest) =
      f.readAfter start (count + 1) (sum + payload * 128 ^ count) rest := by
  have hb := toNat_byte (show payload + 128 < 256 by omega)
  have hm : (payload + 128) % 128 = payload := by omega
  have hge : ¬ (payload + 128).toUInt8 < 128 := by
    rw [UInt8.lt_iff_toNat_lt, hb]
    simp
  have hfits : ¬ (decide (f.maxBytes ≤ count) || (count + 1 == f.maxBytes && !f.fitsLast payload)) := by
    have he : count + 1 ≠ f.maxBytes := by omega
    simp [he]; omega
  simp only [readAfter, hb, hm, Nat.pow_eq]
  rw [if_neg hfits, if_neg hge]

theorem lt_two_pow_of_lt {a b : Nat} (h : 2 ^ a < 2 ^ b) : a < b :=
  (Nat.pow_lt_pow_iff_right (by omega)).1 h

theorem div_lt_two_pow {v bits count : Nat} (hv : v < 2 ^ (bits - 7 * count)) (hm : 7 * count + 7 ≤ bits) :
    v / 128 < 2 ^ (bits - 7 * (count + 1)) := by
  have hs : bits - 7 * count = (bits - 7 * (count + 1)) + 7 := by omega
  rw [hs, Nat.pow_add] at hv
  exact (Nat.div_lt_iff_lt_mul (by omega)).2 (by simpa using hv)

theorem Format.readAfter_writeNat {f : Format} (hs : f.signed = false) {start count sum n v : Nat}
    {rest : Bytes} (hn : count + n = f.maxBytes) (hpos : 0 < n) (hv : v < 2 ^ (f.bits - 7 * count)) :
    f.readAfter start count sum (writeNat n v ++ rest) =
      .ok ((sum + v * 128 ^ count : Nat), count + (writeNat n v).length) := by
  induction n generalizing count sum v with
  | zero => omega
  | succ n ih =>
    by_cases hlast : v < 128
    · have hfits : count + 1 = f.maxBytes → f.fitsLast v = true := by
        intro he
        have hb : f.lastBits = f.bits - 7 * count := by simp only [lastBits]; omega
        simpa [fitsLast, hs, hb] using hv
      simp only [writeNat, hlast, if_true, List.cons_append, List.nil_append]
      rw [readAfter_last hlast (by omega) hfits]
      simp [close, hs]
    · have hbits : 7 < f.bits - 7 * count := lt_two_pow_of_lt (by simp; omega)
      have hmore : count + 1 < f.maxBytes := by simp only [maxBytes]; omega
      simp only [writeNat, hlast, if_false, List.cons_append]
      rw [readAfter_more (Nat.mod_lt v (by omega)) hmore]
      rw [ih (by omega) (by omega) (div_lt_two_pow hv (by omega))]
      have hsum : sum + v % 128 * 128 ^ count + v / 128 * 128 ^ (count + 1) = sum + v * 128 ^ count := by
        have hd : v = v % 128 + 128 * (v / 128) := by omega
        rw [Nat.pow_succ, Nat.add_assoc]
        conv => rhs; rw [hd, Nat.add_mul]
        rw [Nat.mul_comm (128 ^ count) 128, ← Nat.mul_assoc, Nat.mul_comm (v / 128) 128]
      simp only [hsum, List.length_cons]
      congr 2
      omega

theorem seven_lt_of_wide {v : Int} {k : Nat} (hv : -2 ^ k ≤ v ∧ v < 2 ^ k) (hw : ¬ (-64 ≤ v ∧ v < 64)) :
    6 < k := by
  by_cases hk : 6 < k
  · exact hk
  · have hp : (2 : Int) ^ k ≤ 2 ^ 6 := by exact_mod_cast Nat.pow_le_pow_right (by omega) (by omega)
    exact absurd ⟨by omega, by omega⟩ hw

theorem fitsLast_signed {f : Format} (hs : f.signed = true) {v : Int}
    (hb : 0 < f.lastBits) (hb' : f.lastBits ≤ 7)
    (hv : -2 ^ (f.lastBits - 1) ≤ v ∧ v < 2 ^ (f.lastBits - 1)) :
    f.fitsLast (v % 128).toNat = true := by
  obtain ⟨k, hk⟩ : ∃ k, f.lastBits = k + 1 := ⟨f.lastBits - 1, by omega⟩
  simp only [Format.fitsLast, hs, hk, if_true, Nat.add_sub_cancel] at hv ⊢
  have hk6 : k ≤ 6 := by omega
  match k, hk6 with
  | 0, _ | 1, _ | 2, _ | 3, _ | 4, _ | 5, _ | 6, _ => simp at hv ⊢; omega

theorem close_signed {f : Format} (hs : f.signed = true) {v : Int} (hv : -64 ≤ v ∧ v < 64) (sum count : Nat) :
    f.close (sum + (v % 128).toNat * 128 ^ count) (count + 1) (v % 128).toNat =
      sum + v * 128 ^ count := by
  by_cases h : 0 ≤ v
  · have hm : ((v % 128).toNat : Int) = v := by omega
    have hp : ¬ 64 ≤ (v % 128).toNat := by omega
    simp [Format.close, hs, hp, hm]
  · have hm : ((v % 128).toNat : Int) = v + 128 := by omega
    have hp : 64 ≤ (v % 128).toNat := by omega
    simp only [Format.close, hs, hp, Bool.true_and, decide_true, if_true, Nat.pow_eq]
    push_cast
    rw [hm, Int.pow_succ, Int.add_mul, Int.mul_comm (128 ^ count) 128]
    omega

theorem Format.readAfter_writeInt {f : Format} (hs : f.signed = true) {start count sum n : Nat} {v : Int}
    {rest : Bytes} (hn : count + n = f.maxBytes) (hpos : 0 < n)
    (hv : -2 ^ (f.bits - 1 - 7 * count) ≤ v ∧ v < 2 ^ (f.bits - 1 - 7 * count)) :
    f.readAfter start count sum (writeInt n v ++ rest) =
      .ok (sum + v * 128 ^ count, count + (writeInt n v).length) := by
  -- Each byte takes seven bits off the value, and off the range that it has to be in.
  induction n generalizing count sum v with
  | zero => omega
  | succ n ih =>
    have hbits : 7 * count + 1 ≤ f.bits := by simp only [maxBytes] at hn; omega
    have hp : (v % 128).toNat < 128 := by omega
    by_cases hlast : -64 ≤ v ∧ v < 64
    · have hfits : count + 1 = f.maxBytes → f.fitsLast (v % 128).toNat = true := by
        intro he
        have hb : f.lastBits - 1 = f.bits - 1 - 7 * count := by simp only [lastBits]; omega
        have hb7 : 0 < f.lastBits ∧ f.lastBits ≤ 7 := by
          simp only [lastBits, maxBytes] at he ⊢; omega
        exact fitsLast_signed hs hb7.1 hb7.2 (by rw [hb]; exact hv)
      simp only [writeInt, hlast, and_self, if_true, List.cons_append, List.nil_append]
      rw [readAfter_last hp (by omega) hfits, close_signed hs hlast]
      simp
    · have hwide := seven_lt_of_wide hv hlast
      have hmore : count + 1 < f.maxBytes := by simp only [maxBytes]; omega
      have hstep : f.bits - 1 - 7 * count = (f.bits - 1 - 7 * (count + 1)) + 7 := by omega
      have hv' : -2 ^ (f.bits - 1 - 7 * (count + 1)) ≤ v / 128 ∧
          v / 128 < 2 ^ (f.bits - 1 - 7 * (count + 1)) := by
        rw [hstep, Int.pow_add] at hv
        generalize (2 : Int) ^ (f.bits - 1 - 7 * (count + 1)) = p at hv ⊢
        have h7 : (2 : Int) ^ 7 = 128 := rfl
        rw [h7] at hv
        omega
      simp only [writeInt, hlast, if_false, List.cons_append]
      rw [readAfter_more hp hmore, ih (by omega) (by omega) hv']
      have hm : ((v % 128).toNat : Int) = v - 128 * (v / 128) := by omega
      have hsum : ((sum + (v % 128).toNat * 128 ^ count : Nat) : Int) + v / 128 * 128 ^ (count + 1) =
          sum + v * 128 ^ count := by
        push_cast
        rw [hm, Int.pow_succ, Int.sub_mul, Int.mul_comm (128 ^ count) 128, ← Int.mul_assoc,
          Int.mul_comm (v / 128) 128]
        omega
      rw [hsum]
      simp only [List.length_cons]
      congr 2
      omega

/-- Seven bits a byte bound what an unsigned number can be. -/
theorem Format.lt_of_readAfter {f : Format} (hs : f.signed = false) {start count sum : Nat} {bytes : Bytes}
    {v : Int} {n : Nat} (h : f.readAfter start count sum bytes = .ok (v, n)) (hsum : sum < 128 ^ count) :
    v.toNat < 128 ^ n := by
  induction bytes generalizing count sum with
  | nil => simp [readAfter] at h
  | cons b bs ih =>
    have hnext : sum + b.toNat % 128 * 128 ^ count < 128 ^ (count + 1) := by
      have hmul : b.toNat % 128 * 128 ^ count ≤ 127 * 128 ^ count := Nat.mul_le_mul_right _ (by omega)
      rw [Nat.pow_succ]
      omega
    simp only [readAfter, Nat.pow_eq] at h
    split at h
    · cases h
    · split at h
      · simp only [Except.ok.injEq, Prod.mk.injEq, close, hs, Bool.false_and] at h
        obtain ⟨rfl, rfl⟩ := h
        exact hnext
      · exact ih h hnext

theorem length_writeNat_le_of_lt {n v : Nat} (hpos : 0 < n) (hv : v < 128 ^ n) (limit : Nat) :
    (writeNat limit v).length ≤ n := by
  induction limit generalizing n v with
  | zero => simp [writeNat]
  | succ limit ih =>
    simp only [writeNat]
    split
    · exact hpos
    · rename_i hlarge
      obtain _ | _ | n := n
      · omega
      · omega
      · have hdiv : v / 128 < 128 ^ (n + 1) := Nat.div_lt_of_lt_mul (by rwa [Nat.pow_succ'] at hv)
        simpa using ih (Nat.succ_pos n) hdiv

end ImpWasm.Wasm.Leb128

namespace ImpWasm.Wasm

open Leb128

theorem readU32_encode (v : UInt32) (start : Nat) (rest : Bytes) :
    readU32 start (encodeU32 v ++ rest) = .ok (v, (encodeU32 v).length) := by
  have h : u32.readAfter start 0 0 (writeNat 5 v.toNat ++ rest) = _ :=
    Format.readAfter_writeNat rfl rfl (by omega) v.toNat_lt
  simp only [readU32, encodeU32, Format.read, h]
  simp [Except.map]

theorem readI32_encode (v : Int32) (start : Nat) (rest : Bytes) :
    readI32 start (encodeI32 v ++ rest) = .ok (v, (encodeI32 v).length) := by
  have h : i32.readAfter start 0 0 (writeInt 5 v.toInt ++ rest) = _ :=
    Format.readAfter_writeInt rfl rfl (by omega) ⟨v.le_toInt, v.toInt_lt⟩
  simp only [readI32, encodeI32, Format.read, h]
  simp [Except.map]

theorem readI64_encode (v : Int64) (start : Nat) (rest : Bytes) :
    readI64 start (encodeI64 v ++ rest) = .ok (v, (encodeI64 v).length) := by
  have h : i64.readAfter start 0 0 (writeInt 10 v.toInt ++ rest) = _ :=
    Format.readAfter_writeInt rfl rfl (by omega) ⟨v.le_toInt, v.toInt_lt⟩
  simp only [readI64, encodeI64, Format.read, h]
  simp [Except.map]

theorem length_encodeU32_le {start n : Nat} {bytes : Bytes} {v : UInt32}
    (h : readU32 start bytes = .ok (v, n)) : (encodeU32 v).length ≤ n := by
  unfold readU32 at h
  cases hr : u32.read start bytes with
  | error e => simp [hr, Except.map] at h
  | ok r =>
    simp only [hr, Except.map, Except.ok.injEq, Prod.mk.injEq] at h
    obtain ⟨rfl, rfl⟩ := h
    obtain ⟨used, -, -, hlen, hne, -⟩ := Format.read_frame hr
    have hlt := Format.lt_of_readAfter rfl hr (by simp)
    exact length_writeNat_le_of_lt (hlen ▸ List.length_pos_iff.2 hne)
      (Nat.lt_of_le_of_lt (Nat.mod_le _ _) hlt) 5

/-- What the reader makes of bytes depends on those it reports as read and on no others, nor on
where they stand. -/
def Framed {α : Type} (read : Nat → Bytes → Except DecodeError (α × Nat)) : Prop :=
  ∀ start bytes a n, read start bytes = .ok (a, n) →
    ∃ used tail, bytes = used ++ tail ∧ used.length = n ∧
      ∀ start' more, read start' (used ++ more) = .ok (a, n)

theorem framed_map {α : Type} (f : Format) (g : Int × Nat → α × Nat) (hg : ∀ p, (g p).2 = p.2) :
    Framed fun start bytes => (f.read start bytes).map g := by
  intro start bytes a n h
  cases hr : f.read start bytes with
  | error e => simp [hr, Except.map] at h
  | ok r =>
    simp only [hr, Except.map, Except.ok.injEq] at h
    obtain ⟨used, tail, hb, hn, _, hu⟩ := Format.read_frame hr
    refine ⟨used, tail, hb, ?_, ?_⟩
    · rw [hn, ← hg r, h]
    · intro start' more
      simp [hu start' more, Except.map, h]

theorem framed_readU32 : Framed readU32 :=
  framed_map u32 (fun r => (r.1.toNat.toUInt32, r.2)) fun _ => rfl

theorem framed_readI32 : Framed readI32 :=
  framed_map i32 (fun r => (Int32.ofInt r.1, r.2)) fun _ => rfl

theorem framed_readI64 : Framed readI64 :=
  framed_map i64 (fun r => (Int64.ofInt r.1, r.2)) fun _ => rfl

theorem Framed.used {α : Type} {read : Nat → Bytes → Except DecodeError (α × Nat)} (hf : Framed read)
    {start n : Nat} {bytes : Bytes} {a : α} (h : read start bytes = .ok (a, n)) :
    ∃ used tail, bytes = used ++ tail ∧ used.length = n ∧ read 0 used = .ok (a, used.length) := by
  obtain ⟨used, tail, hb, hn, hu⟩ := hf _ _ _ _ h
  refine ⟨used, tail, hb, hn, ?_⟩
  simpa [hn] using hu 0 []

theorem Framed.append {α : Type} {read : Nat → Bytes → Except DecodeError (α × Nat)} (hf : Framed read)
    {used : Bytes} {a : α} (h : read 0 used = .ok (a, used.length)) (start : Nat) (tail : Bytes) :
    read start (used ++ tail) = .ok (a, used.length) := by
  obtain ⟨used', rest, hb, hn, hu⟩ := hf _ _ _ _ h
  have hl := congrArg List.length hb
  rw [List.length_append] at hl
  have hr : rest = [] := List.eq_nil_of_length_eq_zero (by omega)
  rw [hr, List.append_nil] at hb
  rw [hb]
  simpa [hn] using hu start tail

end ImpWasm.Wasm
