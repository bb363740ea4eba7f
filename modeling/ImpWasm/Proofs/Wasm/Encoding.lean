import Mathlib
import ImpWasm.Proofs.Wasm.Building
import ImpWasm.Proofs.Wasm.Reading
set_option autoImplicit false

/-!
The binary form of a module: a header, then sections, each with its length in front. Main statement: from the
bytes the sections are cut again, and from the sections everything but the module's name is read again, so
that two modules with one binary form differ in their names only.
-/
namespace ImpWasm.Wasm

abbrev Section := UInt8 × Bytes

structure Contents where
  types : List FuncType
  imports : List Import
  functions : List Function
  memories : List Limits
  globals : List Global
  exports : List Export
  start : Option UInt32
  deriving DecidableEq, Repr

namespace Contents

open Reader

def framed : Reader Section := do return (← byte, ← take (← count))

def cut (bytes : Bytes) : Option (List Section) :=
  if bytes = [] then some []
  else match framed bytes with
    | none => none
    | some (s, rest) => if rest.length < bytes.length then (cut rest).map (s :: ·) else none
termination_by bytes.length

/-- The entries of a section that holds a vector. One that is absent has none. -/
def entries {α : Type} (id : UInt8) (item : Reader α) (sections : List Section) : Option (List α) :=
  match sections.lookup id with
  | none => some []
  | some payload => (vector item).whole payload

def startIndex (sections : List Section) : Option (Option UInt32) :=
  match sections.lookup 8 with
  | none => some none
  | some payload => (u32.whole payload).map some

/-- The sections that may be there, in the order that they must keep. -/
def order : List UInt8 := [1, 2, 3, 5, 6, 7, 8, 10]

def ofSections? (sections : List Section) : Option Contents := do
  guard ((sections.map Prod.fst).isSublist order)
  let types ← entries 1 funcType sections
  let imports ← entries 2 importEntry sections
  let typeIndices ← entries 3 u32 sections
  let memories ← entries 5 limits sections
  let globals ← entries 6 globalEntry sections
  let exports ← entries 7 exportEntry sections
  let start ← startIndex sections
  let bodies ← entries 10 (sized body) sections
  guard (typeIndices.length = bodies.length)
  return { types, imports, functions := typeIndices.zipWith Function.mk bodies, memories, globals, exports, start }

def header : Bytes := Module.magic ++ Module.version

def ofBytes? (bytes : Bytes) : Option Contents := do
  guard (bytes.take header.length = header)
  ofSections? (← cut (bytes.drop header.length))

theorem reads_framed {s : Section} (h : s.2.length < 2 ^ 32) :
    framed.Reads (Module.sectionBytes s.1 s.2) s :=
  (reads_byte s.1).bind ((reads_count h).bind ((reads_take s.2).map (Prod.mk s.1)))

theorem cut_sectionBytes {sections : List Section} (h : ∀ s ∈ sections, s.2.length < 2 ^ 32) :
    cut (sections.flatMap fun s => Module.sectionBytes s.1 s.2) = some sections := by
  induction sections with
  | nil => rw [List.flatMap_nil, cut, if_pos rfl]
  | cons s ss ih =>
    have hhead := reads_framed (h s (List.mem_cons_self ..)) (ss.flatMap fun s => Module.sectionBytes s.1 s.2)
    have hrest := ih fun s hs => h s (List.mem_cons_of_mem _ hs)
    rw [List.flatMap_cons, cut, if_neg (by simp [Module.sectionBytes]), hhead]
    simp only [hrest, Option.map_some]
    exact if_pos (by simp [Module.sectionBytes]; omega)

end Contents

namespace Module

def vectorPart {α : Type} (id : UInt8) (item : α → Bytes) (xs : List α) : List Section :=
  if xs.isEmpty then [] else [(id, encodeVector item xs)]

def startPart : Option UInt32 → List Section
  | none => []
  | some index => [(8, encodeU32 index)]

def sizedBody (b : Body) : Bytes := encodeCount b.encode.length ++ b.encode

/-- The section of a number, or nothing where there is none. -/
def part (m : Module) : UInt8 → List Section
  | 1 => vectorPart 1 FuncType.encode m.types
  | 2 => vectorPart 2 Import.encode m.imports
  | 3 => vectorPart 3 encodeU32 (m.functions.map Function.typeIndex)
  | 5 => vectorPart 5 Limits.encode [{ min := 0 }]
  | 6 => vectorPart 6 Global.encode m.globals
  | 7 => vectorPart 7 Export.encode m.exports
  | 8 => startPart m.start
  | 10 => vectorPart 10 sizedBody (m.functions.map Function.body)
  | _ => []

def sections (m : Module) : List Section := Contents.order.flatMap m.part

/-- What of a module its binary form says: everything but its name and the types that its imports and
definitions have already. -/
def contents (m : Module) : Contents where
  types := m.types
  imports := m.imports
  functions := m.functions
  memories := [{ min := 0 }]
  globals := m.globals
  exports := m.exports
  start := m.start

/-- Every length that the binary form writes down is a 32-bit number. -/
structure Encodable (m : Module) : Prop where
  types : m.types.length < 2 ^ 32
  signatures : ∀ t ∈ m.types, t.params.length < 2 ^ 32 ∧ t.results.length < 2 ^ 32
  imports : m.imports.length < 2 ^ 32
  importNames : ∀ i ∈ m.imports, i.module.utf8ByteSize < 2 ^ 32 ∧ i.name.utf8ByteSize < 2 ^ 32
  functions : m.functions.length < 2 ^ 32
  locals : ∀ f ∈ m.functions, f.body.locals.length < 2 ^ 32
  bodies : ∀ f ∈ m.functions, f.body.encode.length < 2 ^ 32
  globals : m.globals.length < 2 ^ 32
  exports : m.exports.length < 2 ^ 32
  exportNames : ∀ e ∈ m.exports, e.name.utf8ByteSize < 2 ^ 32
  payloads : ∀ s ∈ m.sections, s.2.length < 2 ^ 32

variable {m m' : Module}

section Parts

variable {α β : Type} {id : UInt8} {item : α → Bytes} {xs : List α}

theorem flatMap_vectorPart :
    (vectorPart id item xs).flatMap (fun s => sectionBytes s.1 s.2) = vectorSection id item xs := by
  unfold vectorPart vectorSection
  split <;> simp

theorem vectorSection_map {f : β → α} {ys : List β} :
    vectorSection id item (ys.map f) = vectorSection id (fun y => item (f y)) ys := by
  simp [vectorSection, encodeVector, List.flatMap_map]

theorem encode_eq_sections (m : Module) :
    m.encode = Contents.header ++ m.sections.flatMap fun s => sectionBytes s.1 s.2 := by
  have hmemory : vectorSection 5 Limits.encode [{ min := 0 }] =
      sectionBytes 5 (encodeVector Limits.encode [{ min := 0 }]) := rfl
  have hstart : (startPart m.start).flatMap (fun s => sectionBytes s.1 s.2) =
      match m.start with
      | none => []
      | some index => sectionBytes 8 (encodeU32 index) := by
    cases m.start <;> simp [startPart]
  simp only [encode, sections, Contents.order, part, Contents.header, List.flatMap_cons, List.flatMap_nil,
    List.flatMap_append, flatMap_vectorPart, vectorSection_map, hmemory, hstart, List.append_assoc,
    List.append_nil]
  rfl

theorem ids_vectorPart : ((vectorPart id item xs).map Prod.fst).Sublist [id] := by
  unfold vectorPart
  split <;> simp

theorem ids_part (m : Module) (id : UInt8) : ((m.part id).map Prod.fst).Sublist [id] := by
  unfold part
  split
  case h_7 => cases m.start <;> simp [startPart]
  case h_9 => exact List.nil_sublist _
  all_goals exact ids_vectorPart

theorem ids_flatMap_part (m : Module) (ids : List UInt8) : ((ids.flatMap m.part).map Prod.fst).Sublist ids := by
  induction ids with
  | nil => exact List.nil_sublist _
  | cons id ids ih =>
    rw [List.flatMap_cons, List.map_append]
    exact (m.ids_part id).append ih

theorem lookup_part_ne {k : UInt8} (h : k ≠ id) : (m.part id).lookup k = none := by
  refine List.lookup_eq_none_iff.2 fun s hs => ?_
  have hid := (m.ids_part id).subset (List.mem_map_of_mem hs)
  rw [List.mem_singleton.1 hid]
  exact bne_iff_ne.2 h

theorem lookup_flatMap_part (m : Module) (ids : List UInt8) (k : UInt8) :
    (ids.flatMap m.part).lookup k = if k ∈ ids then (m.part k).lookup k else none := by
  induction ids with
  | nil => rfl
  | cons id ids ih =>
    rw [List.flatMap_cons, List.lookup_append, ih]
    by_cases hk : k = id
    · subst hk
      by_cases hmem : k ∈ ids <;> simp [hmem]
    · simp [lookup_part_ne hk, hk]

theorem lookup_sections (m : Module) {id : UInt8} (h : id ∈ Contents.order) :
    m.sections.lookup id = (m.part id).lookup id := by
  rw [sections, lookup_flatMap_part, if_pos h]

theorem entries_sections {reader : Reader α} (hid : id ∈ Contents.order) (hpart : m.part id = vectorPart id item xs)
    (hlen : xs.length < 2 ^ 32) (hitem : ∀ x ∈ xs, reader.Reads (item x) x) :
    Contents.entries id reader m.sections = some xs := by
  unfold Contents.entries
  rw [lookup_sections m hid, hpart, vectorPart]
  cases xs with
  | nil => rfl
  | cons x xs =>
    simp only [List.isEmpty_cons, Bool.false_eq_true, if_false, List.lookup, beq_self_eq_true]
    exact (Reader.reads_vector hlen hitem).whole

theorem startIndex_sections (m : Module) : Contents.startIndex m.sections = some m.start := by
  have hlookup : m.sections.lookup 8 = (m.part 8).lookup 8 := m.lookup_sections (by decide)
  unfold Contents.startIndex
  rw [hlookup, part]
  cases m.start with
  | none => rfl
  | some index =>
    simp only [startPart, List.lookup, beq_self_eq_true, (Reader.reads_u32 index).whole, Option.map_some]

end Parts

namespace Encodable

open Reader

theorem reads_sizedBody {b : Body} (hlocals : b.locals.length < 2 ^ 32) (hsize : b.encode.length < 2 ^ 32) :
    (sized Reader.body).Reads (sizedBody b) b :=
  reads_sized hsize (whole_body hlocals)

theorem read (h : m.Encodable) : Contents.ofSections? m.sections = some m.contents := by
  have hids : (m.sections.map Prod.fst).isSublist Contents.order = true :=
    List.isSublist_iff_sublist.2 (m.ids_flatMap_part Contents.order)
  have htypes : Contents.entries 1 funcType m.sections = some m.types :=
    entries_sections (by decide) rfl h.types fun t ht =>
      reads_funcType (h.signatures t ht).1 (h.signatures t ht).2
  have himports : Contents.entries 2 importEntry m.sections = some m.imports :=
    entries_sections (by decide) rfl h.imports fun i hi =>
      reads_importEntry (h.importNames i hi).1 (h.importNames i hi).2
  have hindices : Contents.entries 3 u32 m.sections = some (m.functions.map Function.typeIndex) :=
    entries_sections (by decide) rfl (by simpa using h.functions) fun i _ => reads_u32 i
  have hmemories : Contents.entries 5 limits m.sections = some [{ min := 0 }] :=
    entries_sections (by decide) rfl (by decide) fun l _ => reads_limits l
  have hglobals : Contents.entries 6 globalEntry m.sections = some m.globals :=
    entries_sections (by decide) rfl h.globals fun g _ => reads_globalEntry g
  have hexports : Contents.entries 7 exportEntry m.sections = some m.exports :=
    entries_sections (by decide) rfl h.exports fun e he => reads_exportEntry (h.exportNames e he)
  have hbodies : Contents.entries 10 (sized Reader.body) m.sections = some (m.functions.map Function.body) := by
    refine entries_sections (by decide) rfl (by simpa using h.functions) fun b hb => ?_
    obtain ⟨f, hf, rfl⟩ := List.mem_map.1 hb
    exact reads_sizedBody (h.locals f hf) (h.bodies f hf)
  have hzip : (m.functions.map Function.typeIndex).zipWith Function.mk (m.functions.map Function.body) =
      m.functions := by
    simp [List.zipWith_map, List.zipWith_self]
  simp [Contents.ofSections?, hids, htypes, himports, hindices, hmemories, hglobals, hexports, hbodies,
    m.startIndex_sections, hzip, contents, guard]

end Encodable

def Minimal (bytes : Bytes) (n : Nat) : Prop :=
  decodeU32 bytes 0 = .ok (n.toUInt32, bytes.length) ∧
    ∀ other k, decodeU32 other 0 = .ok (n.toUInt32, k) → bytes.length ≤ k

theorem minimal_encodeCount (n : Nat) : Minimal (encodeCount n) n := by
  refine ⟨?_, fun other k h => length_encodeU32_le h⟩
  simpa [decodeU32, encodeCount] using readU32_encode n.toUInt32 0 []

/-- The binary form of a module: what it is made of, and that what it says is read from it again. -/
structure Lossless (m : Module) : Prop where
  layout : m.encode = magic ++ version ++ m.sections.flatMap fun s => sectionBytes s.1 s.2
  increasing : (m.sections.map Prod.fst).Pairwise (· < ·)
  lengths : ∀ s ∈ m.sections, s.2.length.toUInt32.toNat = s.2.length ∧ Minimal (encodeCount s.2.length) s.2.length
  cut : Contents.cut (m.encode.drop Contents.header.length) = some m.sections
  read : Contents.ofBytes? m.encode = some m.contents

theorem Encodable.lossless (h : m.Encodable) : m.Lossless := by
  have hcut : Contents.cut (m.encode.drop Contents.header.length) = some m.sections := by
    rw [encode_eq_sections, List.drop_left]
    exact Contents.cut_sectionBytes h.payloads
  have hread : Contents.ofBytes? m.encode = some m.contents := by
    unfold Contents.ofBytes?
    rw [hcut, encode_eq_sections, List.take_left]
    exact h.read
  exact ⟨m.encode_eq_sections, List.Pairwise.sublist (m.ids_flatMap_part _) (by decide),
    fun s hs => ⟨Nat.mod_eq_of_lt (h.payloads s hs), minimal_encodeCount _⟩, hcut, hread⟩

theorem Consistent.eq_of_contents (h : m.Consistent) (h' : m'.Consistent) (hc : m.contents = m'.contents) :
    { m' with name := m.name } = m := by
  simp only [contents, Contents.mk.injEq] at hc
  obtain ⟨htypes, himports, hfunctions, -, hglobals, hexports, hstart⟩ := hc
  have hfs : m'.functionTypes = m.functionTypes := by
    rw [h.functionTypes, h'.functionTypes, himports, hfunctions]
  have hgs : m'.globalTypes = m.globalTypes := by
    rw [h.globalTypes, h'.globalTypes, himports, hglobals]
  rw [← htypes, ← himports, ← hfunctions, ← hglobals, ← hexports, ← hstart, hfs, hgs]

/-- The encoding of a module loses nothing but its name. -/
theorem built_encoding_lossless (name : Option String) (operations : List Operation)
    (h : (built name operations).Encodable) :
    (built name operations).Lossless ∧
      ∀ name' operations', (built name' operations').Encodable →
        (built name operations).encode = (built name' operations').encode →
        { built name' operations' with name := (built name operations).name } = built name operations := by
  refine ⟨h.lossless, fun name' operations' h' heq => ?_⟩
  have hread := h.lossless.read
  rw [heq, h'.lossless.read] at hread
  exact (built_consistent name operations).eq_of_contents (built_consistent name' operations')
    (Option.some.inj hread).symm

def everySection : List Operation :=
  [.importMemory "env" "memory" ⟨1, some 2⟩, .importFunction "env" "log" ⟨[.i32], []⟩,
    .addFunction {} ⟨[.i32, .i32, .i64], [0x41, 0x05, 0x10, 0x00, 0x0B]⟩,
    .addGlobal ⟨⟨.f32, true⟩, .f32 0x7FC00001⟩, .exportFunction "main" 1, .setStart 1]

theorem built_encoding_lossless_everySection :
    (built none everySection).Encodable ∧ (built none everySection).Lossless ∧
      { built (some "named") everySection with name := none } = built none everySection := by
  have hsmall : (built none everySection).Encodable := by constructor <;> decide +kernel
  have hnamed : (built (some "named") everySection).Encodable := by constructor <;> decide +kernel
  have h := built_encoding_lossless none everySection hsmall
  exact ⟨hsmall, h.1, h.2 (some "named") everySection hnamed rfl⟩

end Module

end ImpWasm.Wasm
