import ImpWasm.Proofs.Wasm.Acceptance
import ImpWasm.Proofs.Wasm.Leb128
set_option autoImplicit false

namespace ImpWasm.Wasm.Leb128

section Forms

variable {bytes bytes' : Bytes}

theorem EndsAt.whole (h : EndsAt bytes bytes.length) :
    ∃ more last, bytes = more ++ [last] ∧ (∀ b ∈ more, 128 ≤ b) ∧ last < 128 := by
  obtain ⟨more, last, rest, rfl, hm, hlast, same⟩ := h
  rw [List.length_append, List.length_cons] at same
  obtain rfl : rest = [] := List.eq_nil_of_length_eq_zero (by omega)
  exact ⟨more, last, rfl, hm, hlast⟩

theorem eq_of_payload_eq {b c : UInt8} (h : b.toNat % 128 = c.toNat % 128) (top : b < 128 ↔ c < 128) : b = c := by
  rw [UInt8.lt_iff_toNat_lt, UInt8.lt_iff_toNat_lt] at top
  have hb := b.toNat_lt
  have hc := c.toNat_lt
  have bound : (128 : UInt8).toNat = 128 := rfl
  rw [bound] at top
  apply UInt8.toNat_inj.1
  omega

theorem eq_of_payloads_eq {more more' : Bytes} (hm : ∀ b ∈ more, 128 ≤ b) (hm' : ∀ b ∈ more', 128 ≤ b)
    (h : (more.map fun b => b.toNat % 128) = more'.map fun b => b.toNat % 128) : more = more' := by
  induction more generalizing more' with
  | nil => simpa using h.symm
  | cons b more ih =>
    cases more' with
    | nil => simp at h
    | cons c more' =>
      obtain ⟨hb, hmore⟩ := List.forall_mem_cons.1 hm
      obtain ⟨hc, hmore'⟩ := List.forall_mem_cons.1 hm'
      obtain ⟨first, rest⟩ := List.cons.inj h
      have top : b < 128 ↔ c < 128 :=
        ⟨fun low => absurd hb (UInt8.not_le.2 low), fun low => absurd hc (UInt8.not_le.2 low)⟩
      rw [eq_of_payload_eq first top, ih hmore hmore' rest]

/-- Integers of one length with the same payloads are the same bytes. -/
theorem eq_of_total_eq (h : EndsAt bytes bytes.length) (h' : EndsAt bytes' bytes'.length)
    (hlen : bytes.length = bytes'.length) (htotal : total bytes = total bytes') : bytes = bytes' := by
  have payloads := Nat.ofDigits_inj_of_len_eq (by decide) (by simpa using hlen)
    (fun _ => payload_lt bytes) (fun _ => payload_lt bytes') htotal
  obtain ⟨more, last, rfl, hm, hlast⟩ := h.whole
  obtain ⟨more', last', rfl, hm', hlast'⟩ := h'.whole
  rw [List.map_append, List.map_append] at payloads
  obtain ⟨before, at_end⟩ := List.append_inj' payloads rfl
  obtain ⟨same, -⟩ := List.cons.inj at_end
  rw [eq_of_payloads_eq hm hm' before, eq_of_payload_eq same ⟨fun _ => hlast', fun _ => hlast⟩]

variable {f : Format}

theorem value_emod (f : Format) (bytes : Bytes) : f.value bytes % 128 ^ bytes.length = total bytes := by
  have low : (total bytes : Int) < 128 ^ bytes.length := by exact_mod_cast total_lt bytes
  unfold Format.value
  split
  · rw [Int.sub_emod_right, Int.emod_eq_of_lt (by positivity) low]
  · rw [Int.emod_eq_of_lt (by positivity) low]

theorem eq_of_value_eq (h : EndsAt bytes bytes.length) (h' : EndsAt bytes' bytes'.length)
    (hlen : bytes.length = bytes'.length) (hvalue : f.value bytes = f.value bytes') : bytes = bytes' := by
  refine eq_of_total_eq h h' hlen ?_
  have same := value_emod f bytes
  rw [hvalue, hlen, value_emod f bytes'] at same
  exact_mod_cast same.symm

end Forms

section Lengths

def Format.Holds (f : Format) (n : Nat) (v : Int) : Prop :=
  if f.signed then -64 * 128 ^ n ≤ v ∧ v < 64 * 128 ^ n else 0 ≤ v ∧ v < 128 ^ (n + 1)

variable {f : Format}

theorem holds_value (f : Format) (more : Bytes) (last : UInt8) : f.Holds more.length (f.value (more ++ [last])) := by
  have low : (total more : Int) < 128 ^ more.length := by exact_mod_cast total_lt more
  have payload : last.toNat % 128 < 128 := Nat.mod_lt _ (by decide)
  rw [value_snoc_eq]
  cases hs : f.signed with
  | false =>
    simp only [Format.Holds, Format.lead, hs, Bool.false_and, Bool.false_eq_true, if_false]
    rw [Int.pow_succ', low_add_lt_iff (by positivity) low]
    exact ⟨by positivity, by exact_mod_cast payload⟩
  | true =>
    simp only [Format.Holds, Format.lead, hs, Bool.true_and, if_true]
    rw [low_add_lt_iff (by positivity) low, le_low_add_iff (by positivity) low]
    split <;> simp_all <;> omega

theorem Format.Holds.div {n : Nat} {v : Int} (h : f.Holds (n + 1) v) : f.Holds n (v / 128) := by
  obtain ⟨q, hq⟩ : ∃ q, q = (128 : Int) ^ n := ⟨_, rfl⟩
  have step : (128 : Int) ^ (n + 1) = 128 * q := by rw [Int.pow_succ', hq]
  have step' : (128 : Int) ^ (n + 1 + 1) = 128 * (128 * q) := by rw [Int.pow_succ', step]
  unfold Format.Holds at h ⊢
  cases hs : f.signed with
  | false =>
    simp only [hs, Bool.false_eq_true, if_false, step, step'] at h ⊢
    omega
  | true =>
    simp only [hs, if_true, ← hq, step] at h ⊢
    omega

theorem holds_of_inRange {n : Nat} {v : Int} (hn : n + 1 = f.maxBytes) (h : f.InRange v) : f.Holds n v := by
  have hbits : f.bits ≤ 7 * (n + 1) := by simp only [Format.maxBytes] at hn; omega
  cases hs : f.signed with
  | false =>
    simp only [Format.InRange, Format.Holds, hs, Bool.false_eq_true, if_false] at h ⊢
    have wide : (2 : Int) ^ f.bits ≤ 128 ^ (n + 1) := by
      calc (2 : Int) ^ f.bits ≤ 2 ^ (7 * (n + 1)) := pow_le_pow_right₀ (by norm_num) hbits
        _ = 128 ^ (n + 1) := (pow_seven (n + 1)).symm
    omega
  | true =>
    simp only [Format.InRange, Format.Holds, hs, if_true] at h ⊢
    have wide : (2 : Int) ^ (f.bits - 1) ≤ 64 * 128 ^ n := by
      calc (2 : Int) ^ (f.bits - 1) ≤ 2 ^ (6 + 7 * n) := pow_le_pow_right₀ (by norm_num) (by omega)
        _ = 64 * 128 ^ n := by rw [pow_add, pow_seven]; norm_num
    omega

/-- The form of a number, cut after `limit` bytes. -/
def Format.writeUpTo (f : Format) (limit : Nat) (v : Int) : Bytes :=
  if f.signed then writeInt limit v else writeNat limit v.toNat

def Format.write (f : Format) (v : Int) : Bytes := f.writeUpTo f.maxBytes v

theorem length_writeUpTo_le (limit : Nat) (v : Int) : (f.writeUpTo limit v).length ≤ limit := by
  unfold Format.writeUpTo
  split
  · exact length_writeInt_le limit v
  · exact length_writeNat_le limit v.toNat

theorem writeNat_eq {n limit v : Nat} (h : v < 128 ^ (n + 1)) (hl : n < limit) :
    writeNat limit v = writeNat (n + 1) v := by
  obtain ⟨limit, rfl⟩ : ∃ k, limit = k + 1 := ⟨limit - 1, by omega⟩
  induction n generalizing limit v with
  | zero => simp [writeNat, show v < 128 by omega]
  | succ n ih =>
    obtain ⟨limit, rfl⟩ : ∃ k, limit = k + 1 := ⟨limit - 1, by omega⟩
    have hdiv : v / 128 < 128 ^ (n + 1) := Nat.div_lt_of_lt_mul (by rwa [Nat.pow_succ'] at h)
    rw [writeNat, ih hdiv limit (by omega), writeNat.eq_2 v (n + 1)]

theorem writeInt_eq {n limit : Nat} {v : Int} (hs : f.signed = true) (h : f.Holds n v) (hl : n < limit) :
    writeInt limit v = writeInt (n + 1) v := by
  obtain ⟨limit, rfl⟩ : ∃ k, limit = k + 1 := ⟨limit - 1, by omega⟩
  induction n generalizing limit v with
  | zero =>
    simp only [Format.Holds, hs, if_true, pow_zero, mul_one] at h
    simp [writeInt, h]
  | succ n ih =>
    obtain ⟨limit, rfl⟩ : ∃ k, limit = k + 1 := ⟨limit - 1, by omega⟩
    rw [writeInt, ih h.div limit (by omega), writeInt.eq_2 v (n + 1)]

theorem writeUpTo_eq {n limit : Nat} {v : Int} (h : f.Holds n v) (hl : n < limit) :
    f.writeUpTo limit v = f.writeUpTo (n + 1) v := by
  unfold Format.writeUpTo
  cases hs : f.signed with
  | false =>
    simp only [Format.Holds, hs, Bool.false_eq_true, if_false] at h ⊢
    exact writeNat_eq (by exact_mod_cast (Int.toNat_of_nonneg h.1).symm ▸ h.2) hl
  | true => exact writeInt_eq hs h hl

end Lengths

section Reading

variable {f : Format} {v : Int} {bytes : Bytes}

theorem read_write (hpos : 0 < f.bits) (h : f.InRange v) (start : Nat) (rest : Bytes) :
    f.read start (f.write v ++ rest) = .ok (v, (f.write v).length) := by
  have room : 0 < f.maxBytes := by simp only [Format.maxBytes]; omega
  cases hs : f.signed with
  | false =>
    simp only [Format.InRange, hs, Bool.false_eq_true, if_false] at h
    have small : v.toNat < 2 ^ f.bits := by exact_mod_cast (Int.toNat_of_nonneg h.1).symm ▸ h.2
    have read : f.readAfter start 0 0 (writeNat f.maxBytes v.toNat ++ rest) = _ :=
      Format.readAfter_writeNat hs (Nat.zero_add _) room small
    simpa [Format.read, Format.write, Format.writeUpTo, hs, Int.toNat_of_nonneg h.1] using read
  | true =>
    simp only [Format.InRange, hs, if_true] at h
    have read : f.readAfter start 0 0 (writeInt f.maxBytes v ++ rest) = _ :=
      Format.readAfter_writeInt hs (Nat.zero_add _) room h
    simpa [Format.read, Format.write, Format.writeUpTo, hs] using read

/-- Bytes that are all read as the number are its form, or they are more. -/
theorem eq_write_or_lt (hpos : 0 < f.bits) (h : f.read 0 bytes = .ok (v, bytes.length)) :
    bytes = f.write v ∨ (f.write v).length < bytes.length := by
  obtain ⟨accepted, hv⟩ := (h ▸ Format.settles_read hpos bytes : f.Settles 0 bytes _).ok
  have written := read_write hpos (Format.inRange_of_read hpos h) 0 []
  obtain ⟨accepted', hv'⟩ := (written ▸ Format.settles_read hpos _ : f.Settles 0 _ _).ok
  rw [List.append_nil] at accepted' hv'
  rw [List.take_length] at hv hv'
  have short : (f.write v).length ≤ bytes.length := by
    obtain ⟨more, last, rfl, -, -⟩ := accepted.1.whole
    have fits : more.length < f.maxBytes := by
      have := accepted.2
      simp only [List.length_append, List.length_singleton] at this
      omega
    have holds := holds_value f more last
    rw [← hv] at holds
    rw [Format.write, writeUpTo_eq holds fits]
    simpa using length_writeUpTo_le (more.length + 1) v
  obtain shorter | same := Nat.lt_or_eq_of_le short
  · exact .inr shorter
  · exact .inl (eq_of_value_eq accepted.1 accepted'.1 same.symm (hv.symm.trans hv'))

theorem write_eq_of_prefix {u : Int} (hpos : 0 < f.bits) (hu : f.InRange u) (hv : f.InRange v)
    (h : f.write u <+: f.write v) : f.write u = f.write v := by
  obtain ⟨rest, same⟩ := h
  have first := read_write hpos hu 0 rest
  have whole := read_write hpos hv 0 []
  rw [same] at first
  rw [List.append_nil] at whole
  cases first.symm.trans whole
  rfl

end Reading

end ImpWasm.Wasm.Leb128

namespace ImpWasm.Wasm

open Leb128

/-- A writer and a reader of numbers that belong together: each number has one shortest form. -/
structure Canonical {α : Type} (f : Format) (view : α → Int) (encode : α → Bytes)
    (decode : Bytes → Nat → Except DecodeError (α × Nat)) : Prop where
  decodes : ∀ v before after,
    decode (before ++ encode v ++ after) before.length = .ok (v, (encode v).length)
  bounded : ∀ v, (encode v).length ≤ f.maxBytes
  uncut : ∀ v limit, f.maxBytes ≤ limit → f.writeUpTo limit (view v) = encode v
  shortest : ∀ v bytes, decode bytes 0 = .ok (v, bytes.length) → bytes ≠ encode v →
    (encode v).length < bytes.length
  prefixFree : ∀ u v, encode u <+: encode v → encode u = encode v

theorem canonical_of_format {α : Type} {f : Format} {view : α → Int} {encode : α → Bytes}
    {decode : Bytes → Nat → Except DecodeError (α × Nat)} (hpos : 0 < f.bits)
    (injective : ∀ u v, view u = view v → u = v) (range : ∀ v, f.InRange (view v))
    (writes : ∀ v, encode v = f.write (view v))
    (reads : ∀ bytes offset, (decode bytes offset).map (fun r => (view r.1, r.2)) = f.read offset (bytes.drop offset)) :
    Canonical f view encode decode := by
  have decode_eq_ok {bytes : Bytes} {offset : Nat} {v : α} {n : Nat} :
      decode bytes offset = .ok (v, n) ↔ f.read offset (bytes.drop offset) = .ok (view v, n) := by
    rw [← reads]
    cases decode bytes offset with
    | error e => simp [Except.map]
    | ok r =>
      simp only [Except.map, Except.ok.injEq, Prod.ext_iff]
      exact and_congr_left fun _ => ⟨fun h => congrArg view h, injective _ _⟩
  have holds (v : α) : f.Holds (f.maxBytes - 1) (view v) :=
    holds_of_inRange (by simp only [Format.maxBytes]; omega) (range v)
  have last : f.maxBytes - 1 + 1 = f.maxBytes := by simp only [Format.maxBytes]; omega
  refine ⟨fun v before after => ?_, fun v => ?_, fun v limit hl => ?_, fun v bytes h other => ?_, fun u v h => ?_⟩
  · rw [decode_eq_ok, List.append_assoc, List.drop_left, writes]
    exact read_write hpos (range v) _ after
  · rw [writes]
    exact length_writeUpTo_le _ _
  · rw [writes, writeUpTo_eq (holds v) (by omega), last]
    rfl
  · rw [writes] at other ⊢
    exact (eq_write_or_lt hpos (decode_eq_ok.1 h)).resolve_left other
  · rw [writes, writes] at h ⊢
    exact write_eq_of_prefix hpos (range u) (range v) h

/-- Numbers of the three types have one shortest form each, of at most 5, 5 and 10 bytes. -/
theorem encoders_canonical :
    Canonical u32 (fun v : UInt32 => v.toNat) encodeU32 decodeU32 ∧
      Canonical i32 Int32.toInt encodeI32 decodeI32 ∧
      Canonical i64 Int64.toInt encodeI64 decodeI64 ∧
      u32.maxBytes = 5 ∧ i32.maxBytes = 5 ∧ i64.maxBytes = 10 := by
  refine ⟨?_, ?_, ?_, by decide, by decide, by decide⟩
  · refine canonical_of_format (by decide) (fun u v h => ?_) (fun v => ?_) (fun v => rfl) map_decodeU32
    · exact UInt32.toNat_inj.1 (by exact_mod_cast h)
    · exact ⟨by positivity, by exact_mod_cast v.toNat_lt⟩
  · exact canonical_of_format (by decide) (fun u v h => Int32.toInt_inj.1 h) (fun v => ⟨v.le_toInt, v.toInt_lt⟩)
      (fun v => rfl) map_decodeI32
  · exact canonical_of_format (by decide) (fun u v h => Int64.toInt_inj.1 h) (fun v => ⟨v.le_toInt, v.toInt_lt⟩)
      (fun v => rfl) map_decodeI64

end ImpWasm.Wasm
