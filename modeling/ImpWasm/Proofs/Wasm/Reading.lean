import ImpWasm.Proofs.Wasm.Decoding
import ImpWasm.Wasm.Module
set_option autoImplicit false

namespace ImpWasm.Wasm

section Groups

namespace Body

theorem length_groups_le (ts : List ValType) : (groups ts).length ≤ ts.length := by
  induction ts with
  | nil => exact Nat.le_refl 0
  | cons t ts ih =>
    simp only [groups]
    split
    · rename_i hg
      rw [hg, List.length_cons] at ih
      split <;> simp only [List.length_cons] <;> omega
    · simp

theorem le_length_of_mem_groups {ts : List ValType} {g : Nat × ValType} (h : g ∈ groups ts) :
    g.1 ≤ ts.length := by
  obtain ⟨before, rest, hgroups⟩ := List.append_of_mem h
  have hlen := congrArg List.length (replicate_groups ts)
  rw [hgroups] at hlen
  simp only [List.flatMap_append, List.flatMap_cons, List.length_append, List.length_replicate] at hlen
  omega

end Body

end Groups

/-- Takes what it reads off the head of the bytes. -/
abbrev Reader := StateT Bytes Option

namespace Reader

variable {α β : Type}

def byte : Reader UInt8
  | [] => none
  | b :: rest => some (b, rest)

def expect (b : UInt8) : Reader Unit := do
  if (← byte) = b then return else failure

def integer (read : Nat → Bytes → Except DecodeError (α × Nat)) : Reader α := fun bytes =>
  match read 0 bytes with
  | .ok (v, n) => some (v, bytes.drop n)
  | .error _ => none

def u32 : Reader UInt32 := integer readU32

def count : Reader Nat := do return (← u32).toNat

def take (n : Nat) : Reader Bytes := fun bytes =>
  if n ≤ bytes.length then some (bytes.take n, bytes.drop n) else none

def times (item : Reader α) : Nat → Reader (List α)
  | 0 => return []
  | n + 1 => do
    let a ← item
    return a :: (← times item n)

def vector (item : Reader α) : Reader (List α) := do times item (← count)

def whole (r : Reader α) (bytes : Bytes) : Option α :=
  match r bytes with
  | some (a, []) => some a
  | _ => none

/-- Bytes with their number in front, and what is read from all of them. -/
def sized (r : Reader α) : Reader α := do
  let bytes ← take (← count)
  StateT.lift (r.whole bytes)

def rest : Reader Bytes := fun bytes => some (bytes, [])

def name : Reader String := sized do
  let bytes ← rest
  StateT.lift (String.fromUTF8? bytes.toByteArray)

def valType : Reader ValType := do StateT.lift (ValType.ofCode? (← byte))

def funcType : Reader FuncType := do
  expect 0x60
  return ⟨← vector valType, ← vector valType⟩

def flag : Reader Bool := do
  match ← byte with
  | 0 => return false
  | 1 => return true
  | _ => failure

def limits : Reader Limits := do
  if ← flag then return ⟨← u32, some (← u32)⟩ else return ⟨← u32, none⟩

def globalType : Reader GlobalType := do return ⟨← valType, ← flag⟩

def importDesc : Reader ImportDesc := do
  match ← byte with
  | 0x00 => return .function (← u32)
  | 0x01 => return .table (← valType) (← limits)
  | 0x02 => return .memory (← limits)
  | 0x03 => return .global (← globalType)
  | _ => failure

def importEntry : Reader Import := do return ⟨← name, ← name, ← importDesc⟩

def ofLittleEndian : Bytes → Nat
  | [] => 0
  | b :: bs => b.toNat + 256 * ofLittleEndian bs

def word (n : Nat) : Reader Nat := do return ofLittleEndian (← take n)

def constOperand : UInt8 → Reader ConstValue
  | 0x41 => do return .i32 (← integer readI32)
  | 0x42 => do return .i64 (← integer readI64)
  | 0x43 => do return .f32 (← word 4).toUInt32
  | 0x44 => do return .f64 (← word 8).toUInt64
  | _ => failure

def constValue : Reader ConstValue := do
  let value ← constOperand (← byte)
  expect 0x0B
  return value

def globalEntry : Reader Global := do return ⟨← globalType, ← constValue⟩

def exportEntry : Reader Export := do
  let name ← name
  expect 0x00
  return ⟨name, ← u32⟩

def localGroup : Reader (Nat × ValType) := do return (← count, ← valType)

def body : Reader Body := do
  let groups ← vector localGroup
  return ⟨groups.flatMap fun (n, t) => List.replicate n t, ← rest⟩

/-- The reader takes exactly these bytes, whatever comes after them. -/
def Reads (r : Reader α) (bytes : Bytes) (a : α) : Prop := ∀ rest, r (bytes ++ rest) = some (a, rest)

section Combinators

variable {r : Reader α} {f : α → Reader β} {xs ys : Bytes} {a : α} {b : β}

theorem bind_eq (h : r xs = some (a, ys)) : (r >>= f) xs = f a ys := by
  simp [bind, StateT.bind, h]

theorem Reads.bind (h : r.Reads xs a) (h' : (f a).Reads ys b) : (r >>= f).Reads (xs ++ ys) b := by
  intro rest
  rw [List.append_assoc, bind_eq (h _)]
  exact h' rest

theorem reads_pure (a : α) : (pure a : Reader α).Reads [] a := fun _ => rfl

theorem Reads.map (h : r.Reads xs a) (g : α → β) : (do return g (← r) : Reader β).Reads xs (g a) := by
  intro rest
  rw [bind_eq (h rest)]
  rfl

theorem Reads.congr (h : r.Reads xs a) (hb : xs = ys) : r.Reads ys a := hb ▸ h

theorem Reads.whole (h : r.Reads xs a) : r.whole xs = some a := by
  have hr := h []
  rw [List.append_nil] at hr
  simp [Reader.whole, hr]

end Combinators

theorem reads_byte (b : UInt8) : byte.Reads [b] b := fun _ => rfl

theorem reads_expect (b : UInt8) : (expect b).Reads [b] () := by
  intro rest
  rw [expect, bind_eq (reads_byte b rest), if_pos rfl]
  rfl

theorem reads_integer {read : Nat → Bytes → Except DecodeError (α × Nat)} {bytes : Bytes} {v : α}
    (h : ∀ start rest, read start (bytes ++ rest) = .ok (v, bytes.length)) : (integer read).Reads bytes v := by
  intro rest
  simp [integer, h]

theorem reads_u32 (v : UInt32) : u32.Reads (encodeU32 v) v := reads_integer (readU32_encode v)

theorem reads_count {n : Nat} (h : n < 2 ^ 32) : count.Reads (encodeCount n) n := by
  have hr := (reads_u32 n.toUInt32).map UInt32.toNat
  rwa [show n.toUInt32.toNat = n from Nat.mod_eq_of_lt h] at hr

theorem reads_take (bytes : Bytes) : (take bytes.length).Reads bytes bytes := by
  intro rest
  simp [take]

theorem reads_times {item : Reader α} {write : α → Bytes} {xs : List α}
    (h : ∀ x ∈ xs, item.Reads (write x) x) : (times item xs.length).Reads (xs.flatMap write) xs := by
  induction xs with
  | nil => exact reads_pure []
  | cons x xs ih =>
    have hrest := ih fun y hy => h y (List.mem_cons_of_mem x hy)
    exact (h x (List.mem_cons_self ..)).bind (hrest.map (x :: ·))

theorem reads_vector {item : Reader α} {write : α → Bytes} {xs : List α} (hlen : xs.length < 2 ^ 32)
    (h : ∀ x ∈ xs, item.Reads (write x) x) : (vector item).Reads (encodeVector write xs) xs :=
  (reads_count hlen).bind (reads_times h)

theorem reads_sized {r : Reader α} {bytes : Bytes} {a : α} (hlen : bytes.length < 2 ^ 32)
    (h : r.whole bytes = some a) : r.sized.Reads (encodeCount bytes.length ++ bytes) a := by
  refine (reads_count hlen).bind fun rest => ?_
  rw [bind_eq (reads_take bytes rest), h]
  rfl

theorem toList_loop (bytes : ByteArray) (i : Nat) (done : Bytes) :
    ByteArray.toList.loop bytes i done = done.reverse ++ bytes.data.toList.drop i := by
  induction i, done using ByteArray.toList.loop.induct bytes with
  | case1 i done hlt ih =>
    have hget : bytes.get! i = bytes.data.toList[i] := getElem!_pos bytes.data i hlt
    rw [ByteArray.toList.loop.eq_def, if_pos hlt, ih, List.reverse_cons, List.append_assoc, hget]
    rw [List.singleton_append, ← List.drop_eq_getElem_cons]
  | case2 i done hge =>
    rw [ByteArray.toList.loop.eq_def, if_neg hge, List.drop_eq_nil_of_le (Nat.not_lt.1 hge), List.append_nil]

theorem toList_eq_data (bytes : ByteArray) : bytes.toList = bytes.data.toList := by
  rw [ByteArray.toList, toList_loop]
  rfl

theorem toByteArray_toList (bytes : ByteArray) : bytes.toList.toByteArray = bytes := by
  apply ByteArray.ext
  rw [List.data_toByteArray, toList_eq_data, Array.toArray_toList]

theorem length_utf8 (s : String) : s.toUTF8.toList.length = s.utf8ByteSize := by
  rw [toList_eq_data]
  rfl

section Entries

theorem reads_valType (t : ValType) : valType.Reads [t.code] t := by
  intro rest
  rw [valType, bind_eq (reads_byte _ rest), ValType.ofCode?_code]
  rfl

theorem reads_funcType {t : FuncType} (hp : t.params.length < 2 ^ 32) (hr : t.results.length < 2 ^ 32) :
    funcType.Reads t.encode t :=
  (reads_expect 0x60).bind
    ((reads_vector hp fun p _ => reads_valType p).bind
      ((reads_vector hr fun r _ => reads_valType r).map (FuncType.mk t.params)))

theorem reads_flag (b : Bool) : flag.Reads [if b then 1 else 0] b := by
  cases b <;> exact fun _ => rfl

theorem reads_limits (l : Limits) : limits.Reads l.encode l := by
  obtain ⟨min, _ | max⟩ := l
  · exact (reads_flag false).bind ((reads_u32 min).map fun min => Limits.mk min none)
  · exact (reads_flag true).bind
      ((reads_u32 min).bind ((reads_u32 max).map fun max => Limits.mk min (some max)))

theorem reads_globalType (g : GlobalType) : globalType.Reads g.encode g :=
  (reads_valType g.type).bind ((reads_flag g.isMutable).map (GlobalType.mk g.type))

theorem reads_importDesc (d : ImportDesc) : importDesc.Reads d.encode d := by
  cases d with
  | function typeIndex => exact (reads_byte 0x00).bind ((reads_u32 typeIndex).map ImportDesc.function)
  | table element l =>
    exact (reads_byte 0x01).bind
      ((reads_valType element).bind ((reads_limits l).map (ImportDesc.table element)))
  | memory l => exact (reads_byte 0x02).bind ((reads_limits l).map ImportDesc.memory)
  | global g => exact (reads_byte 0x03).bind ((reads_globalType g).map ImportDesc.global)

theorem fromUTF8?_toUTF8 (s : String) : String.fromUTF8? s.toUTF8 = some s := by
  rw [String.fromUTF8?, String.toUTF8_eq_toByteArray, dif_pos s.isValidUTF8]
  rfl

theorem reads_name {s : String} (h : s.utf8ByteSize < 2 ^ 32) : name.Reads (encodeName s) s := by
  have htext : String.fromUTF8? s.toUTF8.toList.toByteArray = some s := by
    rw [toByteArray_toList, fromUTF8?_toUTF8]
  refine reads_sized (length_utf8 s ▸ h) ?_
  simp only [Reader.whole, rest, bind, StateT.bind, StateT.lift, htext, Option.bind_some]
  rfl

theorem reads_importEntry {i : Import} (hm : i.module.utf8ByteSize < 2 ^ 32)
    (hn : i.name.utf8ByteSize < 2 ^ 32) : importEntry.Reads i.encode i :=
  ((reads_name hm).bind ((reads_name hn).bind
    ((reads_importDesc i.desc).map (Import.mk i.module i.name)))).congr (List.append_assoc ..).symm

theorem ofLittleEndian_littleEndian (n v : Nat) : ofLittleEndian (littleEndian n v) = v % 256 ^ n := by
  induction n generalizing v with
  | zero => simp [littleEndian, ofLittleEndian, Nat.mod_one]
  | succ n ih =>
    simp only [littleEndian, ofLittleEndian, ih]
    rw [Nat.pow_succ', Nat.mod_mul]
    simp

theorem length_littleEndian (n v : Nat) : (littleEndian n v).length = n := by
  induction n generalizing v with
  | zero => rfl
  | succ n ih => simp [littleEndian, ih]

theorem reads_word {n v : Nat} (h : v < 256 ^ n) : (word n).Reads (littleEndian n v) v := by
  have hr := (reads_take (littleEndian n v)).map ofLittleEndian
  rw [length_littleEndian, ofLittleEndian_littleEndian, Nat.mod_eq_of_lt h] at hr
  exact hr

theorem reads_constOperand (v : ConstValue) :
    ∃ opcode operand, v.encode = opcode :: (operand ++ [0x0B]) ∧ (constOperand opcode).Reads operand v := by
  cases v with
  | i32 v => exact ⟨0x41, encodeI32 v, rfl, (reads_integer (readI32_encode v)).map ConstValue.i32⟩
  | i64 v => exact ⟨0x42, encodeI64 v, rfl, (reads_integer (readI64_encode v)).map ConstValue.i64⟩
  | f32 bits =>
    have hbits := (reads_word (n := 4) bits.toNat_lt).map fun n => ConstValue.f32 n.toUInt32
    rw [show bits.toNat.toUInt32 = bits from UInt32.ofNat_toNat] at hbits
    exact ⟨0x43, _, rfl, hbits⟩
  | f64 bits =>
    have hbits := (reads_word (n := 8) bits.toNat_lt).map fun n => ConstValue.f64 n.toUInt64
    rw [show bits.toNat.toUInt64 = bits from UInt64.ofNat_toNat] at hbits
    exact ⟨0x44, _, rfl, hbits⟩

theorem reads_constValue (v : ConstValue) : constValue.Reads v.encode v := by
  obtain ⟨opcode, operand, hbytes, hoperand⟩ := reads_constOperand v
  have hend : (do expect 0x0B; return v : Reader ConstValue).Reads [0x0B] v :=
    (reads_expect 0x0B).bind (reads_pure v)
  exact ((reads_byte opcode).bind (hoperand.bind hend)).congr hbytes.symm

theorem reads_globalEntry (g : Global) : globalEntry.Reads g.encode g :=
  (reads_globalType g.type).bind ((reads_constValue g.init).map (Global.mk g.type))

theorem reads_exportEntry {e : Export} (h : e.name.utf8ByteSize < 2 ^ 32) :
    exportEntry.Reads e.encode e :=
  (reads_name h).bind ((reads_expect 0x00).bind ((reads_u32 e.function).map (Export.mk e.name)))

theorem reads_localGroup {g : Nat × ValType} (h : g.1 < 2 ^ 32) :
    localGroup.Reads (encodeCount g.1 ++ [g.2.code]) g :=
  (reads_count h).bind ((reads_valType g.2).map (Prod.mk g.1))

theorem whole_body {b : Body} (h : b.locals.length < 2 ^ 32) : body.whole b.encode = some b := by
  have hgroups : (vector localGroup).Reads (encodeVector _ (Body.groups b.locals)) _ :=
    reads_vector (Nat.lt_of_le_of_lt (Body.length_groups_le b.locals) h) fun g hg =>
      reads_localGroup (Nat.lt_of_le_of_lt (Body.le_length_of_mem_groups hg) h)
  have hbody : body b.encode = some (b, []) := by
    rw [body, Body.encode, bind_eq (hgroups b.code)]
    simp only [Body.replicate_groups]
    rfl
  rw [Reader.whole, hbody]

end Entries

end Reader

end ImpWasm.Wasm
