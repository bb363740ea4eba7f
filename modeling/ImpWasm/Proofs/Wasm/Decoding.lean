import ImpWasm.Proofs.Wasm.Leb128
import ImpWasm.Wasm.Instr
set_option autoImplicit false

namespace ImpWasm.Wasm

theorem ValType.code_of_ofCode? {c : UInt8} {t : ValType} (h : ValType.ofCode? c = some t) : t.code = c := by
  simpa [ValType.ofCode?] using List.find?_some h

theorem BlockType.code_of_ofCode? {c : UInt8} {t : BlockType} (h : BlockType.ofCode? c = some t) :
    t.code = c := by
  unfold BlockType.ofCode? at h
  split at h
  · rename_i hc
    cases h
    simpa [BlockType.code] using (beq_iff_eq.1 hc).symm
  · obtain ⟨v, hv, rfl⟩ := Option.map_eq_some_iff.1 h
    exact ValType.code_of_ofCode? hv

theorem Opcode.byte_of_ofByte? {b : UInt8} {o : Opcode} (h : Opcode.ofByte? b = some o) : o.byte = b := by
  simpa [Opcode.ofByte?] using List.find?_some h

namespace Instr

/-- The byte strings that stand for the immediate of an instruction: one byte for a block's type,
whatever the decoder takes for the number, and nothing where there is no immediate. -/
def ImmediateForm : Instr → Bytes → Prop
  | .block t, bytes | .loop t, bytes | .if_ t, bytes => bytes = [t.code]
  | .br i, bytes | .brIf i, bytes | .call i, bytes | .localGet i, bytes | .localSet i, bytes
  | .localTee i, bytes | .globalGet i, bytes | .globalSet i, bytes =>
    decodeU32 bytes 0 = .ok (i, bytes.length)
  | .i32Const v, bytes => decodeI32 bytes 0 = .ok (v, bytes.length)
  | .i64Const v, bytes => decodeI64 bytes 0 = .ok (v, bytes.length)
  | .unreachable, bytes | .nop, bytes | .else_, bytes | .end_, bytes | .return_, bytes | .drop, bytes
  | .select, bytes | .numeric _, bytes => bytes = []

theorem withBlockType_ok {make : BlockType → Instr} {offset n : Nat} {bytes : Bytes} {i : Instr}
    (h : withBlockType make offset bytes = .ok (i, n)) :
    ∃ t tail, i = make t ∧ bytes = [t.code] ++ tail ∧ n = 1 := by
  cases bytes with
  | nil => simp [withBlockType, readBlockType, Except.map] at h
  | cons b bs =>
    cases ht : BlockType.ofCode? b with
    | none => simp [withBlockType, readBlockType, ht, Except.map] at h
    | some t =>
      simp only [withBlockType, readBlockType, ht, Except.map, Except.ok.injEq, Prod.mk.injEq] at h
      exact ⟨t, bs, h.1.symm, by simp [BlockType.code_of_ofCode? ht], h.2.symm⟩

theorem withBlockType_code (make : BlockType → Instr) (offset : Nat) (t : BlockType) (tail : Bytes) :
    withBlockType make offset ([t.code] ++ tail) = .ok (make t, 1) := by
  simp [withBlockType, readBlockType, Except.map]

theorem withInteger_ok {α : Type} {make : α → Instr} {r : Except DecodeError (α × Nat)} {i : Instr} {n : Nat}
    (h : withInteger make r = .ok (i, n)) : ∃ a, r = .ok (a, n) ∧ i = make a := by
  cases r with
  | error e => simp [withInteger] at h
  | ok p =>
    obtain ⟨a, k⟩ := p
    simp only [withInteger, Except.ok.injEq, Prod.mk.injEq] at h
    obtain ⟨rfl, rfl⟩ := h
    exact ⟨a, rfl, rfl⟩

theorem withIndex_ok {make : UInt32 → Instr} {offset n : Nat} {bytes : Bytes} {i : Instr}
    (h : withIndex make offset bytes = .ok (i, n)) :
    ∃ v used tail, i = make v ∧ bytes = used ++ tail ∧ used.length = n ∧
      decodeU32 used 0 = .ok (v, used.length) := by
  obtain ⟨v, hr, hi⟩ := withInteger_ok h
  obtain ⟨used, tail, hb, hn, hu⟩ := framed_readU32.used hr
  exact ⟨v, used, tail, hi, hb, hn, hu⟩

theorem withIndex_framed (make : UInt32 → Instr) {used : Bytes} {v : UInt32}
    (h : decodeU32 used 0 = .ok (v, used.length)) (offset : Nat) (tail : Bytes) :
    withIndex make offset (used ++ tail) = .ok (make v, used.length) := by
  have hr : readU32 offset (used ++ tail) = .ok (v, used.length) := framed_readU32.append h offset tail
  simp [withIndex, hr, withInteger]

theorem readImmediate_ok {offset n : Nat} {bytes : Bytes} {o : Opcode} {i : Instr}
    (h : readImmediate offset bytes o = .ok (i, n)) :
    i.opcode = o ∧ ∃ used tail, bytes = used ++ tail ∧ used.length = n ∧ i.ImmediateForm used := by
  cases o with
  | block | loop | if_ =>
    obtain ⟨t, tail, rfl, hb, rfl⟩ := withBlockType_ok h
    exact ⟨rfl, [t.code], tail, hb, rfl, rfl⟩
  | br | brIf | call | localGet | localSet | localTee | globalGet | globalSet =>
    obtain ⟨v, used, tail, rfl, hb, hn, hu⟩ := withIndex_ok h
    exact ⟨rfl, used, tail, hb, hn, hu⟩
  | i32Const =>
    obtain ⟨v, hr, rfl⟩ := withInteger_ok h
    obtain ⟨used, tail, hb, hn, hu⟩ := framed_readI32.used hr
    exact ⟨rfl, used, tail, hb, hn, hu⟩
  | i64Const =>
    obtain ⟨v, hr, rfl⟩ := withInteger_ok h
    obtain ⟨used, tail, hb, hn, hu⟩ := framed_readI64.used hr
    exact ⟨rfl, used, tail, hb, hn, hu⟩
  | unreachable | nop | else_ | end_ | return_ | drop | select | numeric =>
    simp only [readImmediate, Except.ok.injEq, Prod.mk.injEq] at h
    obtain ⟨rfl, rfl⟩ := h
    exact ⟨rfl, [], bytes, rfl, rfl, rfl⟩

theorem readImmediate_form {i : Instr} {used : Bytes} (h : i.ImmediateForm used) (offset : Nat)
    (tail : Bytes) : readImmediate offset (used ++ tail) i.opcode = .ok (i, used.length) := by
  cases i with
  | block | loop | if_ =>
    cases h
    exact withBlockType_code _ offset _ tail
  | br | brIf | call | localGet | localSet | localTee | globalGet | globalSet =>
    exact withIndex_framed _ h offset tail
  | i32Const v =>
    have hr : readI32 offset (used ++ tail) = .ok (v, used.length) := framed_readI32.append h offset tail
    simp [readImmediate, opcode, hr, withInteger]
  | i64Const v =>
    have hr : readI64 offset (used ++ tail) = .ok (v, used.length) := framed_readI64.append h offset tail
    simp [readImmediate, opcode, hr, withInteger]
  | unreachable | nop | else_ | end_ | return_ | drop | select | numeric =>
    cases h
    rfl

theorem read_ok {offset n : Nat} {b : UInt8} {rest : Bytes} {i : Instr}
    (h : read offset b rest = .ok (i, n)) :
    b = i.opcode.byte ∧ ∃ used tail, rest = used ++ tail ∧ used.length = n ∧ i.ImmediateForm used := by
  unfold read at h
  cases ho : Opcode.ofByte? b with
  | none => simp [ho] at h
  | some o =>
    simp only [ho] at h
    obtain ⟨rfl, hu⟩ := readImmediate_ok h
    exact ⟨(Opcode.byte_of_ofByte? ho).symm, hu⟩

theorem read_form {i : Instr} {used : Bytes} (h : i.ImmediateForm used) (offset : Nat) (tail : Bytes) :
    read offset i.opcode.byte (used ++ tail) = .ok (i, used.length) := by
  simp [read, readImmediate_form h]

theorem immediateForm_immediate (i : Instr) : i.ImmediateForm i.immediate := by
  cases i with
  | br v | brIf v | call v | localGet v | localSet v | localTee v | globalGet v | globalSet v =>
    simpa [ImmediateForm, immediate, decodeU32] using readU32_encode v 0 []
  | i32Const v => simpa [ImmediateForm, immediate, decodeI32] using readI32_encode v 0 []
  | i64Const v => simpa [ImmediateForm, immediate, decodeI64] using readI64_encode v 0 []
  | _ => rfl

end Instr

/-- Bytes that are the written forms of the given instructions, one after the other. -/
inductive Decodes : Bytes → List Instr → Prop where
  | nil : Decodes [] []
  | cons {i : Instr} {used tail : Bytes} {is : List Instr} (head : i.ImmediateForm used)
      (rest : Decodes tail is) : Decodes (i.opcode.byte :: (used ++ tail)) (i :: is)

theorem decodes_encodeAll (is : List Instr) : Decodes (Instr.encodeAll is) is := by
  induction is with
  | nil => exact .nil
  | cons i is ih =>
    simpa [Instr.encodeAll, Instr.encode] using Decodes.cons i.immediateForm_immediate ih

def Listing.instrs? : Listing → Option (List Instr)
  | .done => some []
  | .broken _ _ => none
  | .instr _ i rest => rest.instrs?.map (i :: ·)

theorem decodes_iff_instrs? (offset : Nat) (bytes : Bytes) (is : List Instr) :
    Decodes bytes is ↔ (Listing.ofBytes offset bytes).instrs? = some is := by
  induction offset, bytes using Listing.ofBytes.induct generalizing is with
  | case1 offset =>
    simp only [Listing.ofBytes, Listing.instrs?, Option.some.injEq]
    constructor
    · intro h; cases h; rfl
    · rintro rfl; exact .nil
  | case2 offset b rest e he =>
    simp only [Listing.ofBytes, he, Listing.instrs?, reduceCtorEq, iff_false]
    intro h
    cases h with
    | cons head _ =>
      rw [Instr.read_form head] at he
      cases he
  | case3 offset b rest i n hr ih =>
    rw [Listing.ofBytes, hr]
    simp only [Listing.instrs?, Option.map_eq_some_iff, ← ih]
    constructor
    · intro h
      cases h with
      | cons head tail =>
        rw [Instr.read_form head] at hr
        cases hr
        exact ⟨_, by simpa using tail, rfl⟩
    · rintro ⟨js, hjs, rfl⟩
      obtain ⟨rfl, used, tail, rfl, rfl, hu⟩ := Instr.read_ok hr
      exact .cons hu (by simpa using hjs)

end ImpWasm.Wasm
