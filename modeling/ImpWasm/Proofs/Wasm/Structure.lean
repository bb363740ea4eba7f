import ImpWasm.Proofs.Wasm.Encoding
set_option autoImplicit false

/-!
What a finished module is sure to satisfy. Building and finishing see to it that indices lead somewhere and
that the start function can be called. Whether the names of exports differ, how many memories there are and
what tables, limits and globals look like is left to those who build the module: `finish_structure` says
which operations keep each of these rules, and `finish_accepts_invalid` breaks every one.
-/
namespace ImpWasm.Wasm

def ValType.IsReference (t : ValType) : Prop := t = .funcref ∨ t = .externref

def Limits.Ordered (l : Limits) : Prop := ∀ max ∈ l.max, l.min ≤ max

def Import.memory? (i : Import) : Option Limits :=
  match i.desc with
  | .memory limits => some limits
  | _ => none

def Import.table? (i : Import) : Option (ValType × Limits) :=
  match i.desc with
  | .table element limits => some (element, limits)
  | _ => none

namespace Contents

def functionTypes (c : Contents) : List UInt32 :=
  c.imports.filterMap Import.functionType? ++ c.functions.map Function.typeIndex

def allMemories (c : Contents) : List Limits := c.imports.filterMap Import.memory? ++ c.memories

def tables (c : Contents) : List (ValType × Limits) := c.imports.filterMap Import.table?

/-- What building and finishing a module make sure of. -/
structure Sound (c : Contents) : Prop where
  typeIndices : ∀ i ∈ c.functionTypes, i.toNat < c.types.length
  exports : ∀ e ∈ c.exports, e.function.toNat < c.functionTypes.length
  start : ∀ i ∈ c.start, ∃ t, c.functionTypes[i.toNat]? = some t ∧ c.types[t.toNat]? = some {}
  memories : c.memories = [{ min := 0 }]

def DistinctExports (c : Contents) : Prop := (c.exports.map Export.name).Nodup

def OneMemory (c : Contents) : Prop := c.allMemories.length ≤ 1

def ReferenceTables (c : Contents) : Prop := ∀ t ∈ c.tables, t.1.IsReference

def OrderedLimits (c : Contents) : Prop := ∀ l ∈ c.tables.map Prod.snd ++ c.allMemories, l.Ordered

def TypedInitializers (c : Contents) : Prop := ∀ g ∈ c.globals, g.init.type = g.type.type

end Contents

namespace Module

namespace Operation

def export? : Operation → Option Export
  | .exportFunction name function => some ⟨name, function⟩
  | _ => none

def memory? : Operation → Option Limits
  | .importMemory _ _ limits => some limits
  | _ => none

def table? : Operation → Option (ValType × Limits)
  | .importTable _ _ element limits => some (element, limits)
  | _ => none

def global? : Operation → Option Global
  | .addGlobal global => some global
  | _ => none

end Operation

section Collected

variable {α : Type}

theorem forall_mem_filterMap {β : Type} {f : β → Option α} {xs : List β} {P : α → Prop} :
    (∀ a ∈ xs.filterMap f, P a) ↔ ∀ x ∈ xs, ∀ a ∈ f x, P a := by
  simp only [List.mem_filterMap, Option.mem_def]
  exact ⟨fun h x hx a ha => h a ⟨x, hx, ha⟩, fun h a ⟨x, hx, ha⟩ => h x hx a ha⟩

/-- What each operation adds, the whole sequence adds in its order. -/
theorem built_collects (part : Module → List α) {added : Operation → Option α}
    (hstep : ∀ m o, part (perform m o) = part m ++ (added o).toList) {name : Option String}
    (hempty : part { name } = []) (operations : List Operation) :
    part (built name operations) = operations.filterMap added := by
  suffices h : ∀ m, part (operations.foldl perform m) = part m ++ operations.filterMap added by
    rw [built, h, hempty, List.nil_append]
  induction operations with
  | nil => simp
  | cons o os ih =>
    intro m
    rw [List.foldl_cons, ih, hstep, List.filterMap_cons]
    cases added o <;> simp

theorem imports_perform (m : Module) (o : Operation) :
    ((perform m o).imports = m.imports ∧ o.memory? = none ∧ o.table? = none) ∨
      ∃ i, (perform m o).imports = m.imports ++ [i] ∧ i.memory? = o.memory? ∧ i.table? = o.table? := by
  cases o with
  | importFunction module name type =>
    simp only [perform, importFunction]
    by_cases hf : m.functions.isEmpty = true
    · exact .inr ⟨⟨module, name, .function m.types.length.toUInt32⟩, by simp [hf, addType], rfl, rfl⟩
    · exact .inl ⟨by simp [hf], rfl, rfl⟩
  | importGlobal module name type =>
    simp only [perform, importGlobal]
    by_cases hg : m.globals.isEmpty = true
    · exact .inr ⟨⟨module, name, .global type⟩, by simp [hg], rfl, rfl⟩
    · exact .inl ⟨by simp [hg], rfl, rfl⟩
  | importMemory | importTable => exact .inr ⟨_, rfl, rfl, rfl⟩
  | _ => exact .inl ⟨rfl, rfl, rfl⟩

theorem exports_perform (m : Module) (o : Operation) : (perform m o).exports = m.exports ++ o.export?.toList := by
  cases o with
  | importFunction =>
    simp only [perform, importFunction]
    by_cases hf : m.functions.isEmpty = true <;> simp [hf, addType, Operation.export?]
  | importGlobal =>
    simp only [perform, importGlobal]
    by_cases hg : m.globals.isEmpty = true <;> simp [hg, Operation.export?]
  | exportFunction => rfl
  | _ => exact (List.append_nil _).symm

theorem globals_perform (m : Module) (o : Operation) : (perform m o).globals = m.globals ++ o.global?.toList := by
  cases o with
  | importFunction =>
    simp only [perform, importFunction]
    by_cases hf : m.functions.isEmpty = true <;> simp [hf, addType, Operation.global?]
  | importGlobal =>
    simp only [perform, importGlobal]
    by_cases hg : m.globals.isEmpty = true <;> simp [hg, Operation.global?]
  | addGlobal => rfl
  | _ => exact (List.append_nil _).symm

variable (name : Option String) (operations : List Operation)

theorem built_exports : (built name operations).exports = operations.filterMap Operation.export? :=
  built_collects Module.exports exports_perform rfl operations

theorem built_globals : (built name operations).globals = operations.filterMap Operation.global? :=
  built_collects Module.globals globals_perform rfl operations

theorem built_memories :
    (built name operations).imports.filterMap Import.memory? = operations.filterMap Operation.memory? := by
  refine built_collects (fun m => m.imports.filterMap Import.memory?) (fun m o => ?_) rfl operations
  obtain ⟨himports, hnone, -⟩ | ⟨i, himports, hmemory, -⟩ := m.imports_perform o
  · simp [himports, hnone]
  · rw [himports, List.filterMap_append, ← hmemory]
    cases hi : i.memory? <;> simp [hi]

theorem built_tables :
    (built name operations).imports.filterMap Import.table? = operations.filterMap Operation.table? := by
  refine built_collects (fun m => m.imports.filterMap Import.table?) (fun m o => ?_) rfl operations
  obtain ⟨himports, -, hnone⟩ | ⟨i, himports, -, htable⟩ := m.imports_perform o
  · simp [himports, hnone]
  · rw [himports, List.filterMap_append, ← htable]
    cases hi : i.table? <;> simp [hi]

end Collected

section Finish

variable {m : Module}

theorem lt_of_checkIndex {i : UInt32} {u : Unit} (h : m.checkIndex i = .ok u) : i.toNat < m.functionCount := by
  unfold checkIndex at h
  split at h
  · assumption
  · cases h

theorem exports_of_validate (h : m.validate = .ok ()) : ∀ e ∈ m.exports, e.function.toNat < m.functionCount := by
  obtain ⟨_, -, h⟩ := bind_eq_ok.1 h
  obtain ⟨_, hexports, -⟩ := bind_eq_ok.1 h
  revert hexports
  generalize m.exports = es
  induction es with
  | nil => simp
  | cons e es ih =>
    intro h
    obtain ⟨_, he, hes⟩ := bind_eq_ok.1 h
    exact List.forall_mem_cons.2 ⟨lt_of_checkIndex he, ih hes⟩

theorem Consistent.start_of_validate (hc : m.Consistent) (h : m.validate = .ok ()) :
    ∀ i ∈ m.start, m.functionType i = some {} := by
  obtain ⟨_, -, h⟩ := bind_eq_ok.1 h
  obtain ⟨_, -, hstart⟩ := bind_eq_ok.1 h
  intro i hi
  unfold checkStart at hstart
  rw [Option.mem_def.1 hi] at hstart
  obtain ⟨_, hindex, hstart⟩ := bind_eq_ok.1 hstart
  obtain ⟨t, ht⟩ := hc.functionType (lt_of_checkIndex hindex)
  rw [ht] at hstart ⊢
  by_cases hempty : t = {}
  · rw [hempty]
  · simp [hempty] at hstart

theorem Consistent.sound (hc : m.Consistent) (h : m.validate = .ok ()) : m.contents.Sound where
  typeIndices i hi := hc.types i (hc.functionTypes ▸ hi)
  exports e he := by
    have hlt := exports_of_validate h e he
    rwa [Module.functionCount, hc.functionTypes] at hlt
  start i hi := by
    have ht := hc.start_of_validate h i hi
    obtain ⟨t, hat, htype⟩ := Option.bind_eq_some_iff.1 ht
    rw [hc.functionTypes] at hat
    exact ⟨t, hat, htype⟩
  memories := rfl

theorem built_allMemories (name : Option String) (operations : List Operation) :
    (built name operations).contents.allMemories = operations.filterMap Operation.memory? ++ [{ min := 0 }] :=
  congrArg (· ++ [({ min := 0 } : Limits)]) (built_memories name operations)

theorem orderedLimits_iff (name : Option String) (operations : List Operation) :
    (built name operations).contents.OrderedLimits ↔
      ∀ o ∈ operations, (∀ t ∈ o.table?, t.2.Ordered) ∧ ∀ l ∈ o.memory?, l.Ordered := by
  have htables : (built name operations).contents.tables = operations.filterMap Operation.table? :=
    built_tables name operations
  have hown : Limits.Ordered { min := 0 } := by simp [Limits.Ordered]
  rw [Contents.OrderedLimits, htables, built_allMemories]
  constructor
  · intro h o ho
    refine ⟨fun t ht => h _ (List.mem_append_left _ ?_), fun l hl => h l (List.mem_append_right _ ?_)⟩
    · exact List.mem_map_of_mem (List.mem_filterMap.2 ⟨o, ho, ht⟩)
    · exact List.mem_append_left _ (List.mem_filterMap.2 ⟨o, ho, hl⟩)
  · intro h l hl
    rcases List.mem_append.1 hl with htable | hmemory
    · obtain ⟨t, ht, rfl⟩ := List.mem_map.1 htable
      obtain ⟨o, ho, hot⟩ := List.mem_filterMap.1 ht
      exact (h o ho).1 t hot
    · rcases List.mem_append.1 hmemory with himported | hdefined
      · obtain ⟨o, ho, hol⟩ := List.mem_filterMap.1 himported
        exact (h o ho).2 l hol
      · obtain rfl := List.mem_singleton.1 hdefined
        exact hown

theorem oneMemory_iff (name : Option String) (operations : List Operation) :
    (built name operations).contents.OneMemory ↔ ∀ o ∈ operations, o.memory? = none := by
  rw [Contents.OneMemory, built_allMemories, List.length_append, List.length_singleton,
    ← List.filterMap_eq_nil_iff, ← List.length_eq_zero_iff]
  omega

theorem referenceTables_iff (name : Option String) (operations : List Operation) :
    (built name operations).contents.ReferenceTables ↔ ∀ o ∈ operations, ∀ t ∈ o.table?, t.1.IsReference := by
  have htables : (built name operations).contents.tables = operations.filterMap Operation.table? :=
    built_tables name operations
  rw [Contents.ReferenceTables, htables]
  exact forall_mem_filterMap

/-- A module that is finished is read from its bytes again with indices that lead somewhere, a start function
that can be called and a memory of its own. Each rule that is not checked is kept exactly if the operations
keep it: the names of exports differ, no memory is imported, tables have elements of a reference type, limits
are in order, and globals come with an initialiser of their type. -/
theorem finish_structure {name : Option String} {operations : List Operation} {bytes : Bytes}
    (h : (built name operations).finish = .ok bytes) :
    let c := (built name operations).contents
    ((built name operations).Encodable → Contents.ofBytes? bytes = some c) ∧ c.Sound ∧
      (c.DistinctExports ↔ ((operations.filterMap Operation.export?).map Export.name).Nodup) ∧
      (c.OneMemory ↔ ∀ o ∈ operations, o.memory? = none) ∧
      (c.ReferenceTables ↔ ∀ o ∈ operations, ∀ t ∈ o.table?, t.1.IsReference) ∧
      (c.OrderedLimits ↔ ∀ o ∈ operations, (∀ t ∈ o.table?, t.2.Ordered) ∧ ∀ l ∈ o.memory?, l.Ordered) ∧
      (c.TypedInitializers ↔ ∀ o ∈ operations, ∀ g ∈ o.global?, g.init.type = g.type.type) := by
  obtain ⟨_, hv, hbytes⟩ := bind_eq_ok.1 h
  obtain rfl := pure_eq_ok.1 hbytes
  refine ⟨fun he => he.lossless.read, (built_consistent name operations).sound hv, ?_, oneMemory_iff _ _,
    referenceTables_iff _ _, orderedLimits_iff _ _, ?_⟩
  · rw [Contents.DistinctExports, ← built_exports name operations]
    rfl
  · have hglobals : (built name operations).contents.globals = operations.filterMap Operation.global? :=
      built_globals name operations
    rw [Contents.TypedInitializers, hglobals]
    exact forall_mem_filterMap

def saneModule : List Operation :=
  [.importTable "env" "table" .funcref ⟨1, some 2⟩, .addGlobal ⟨⟨.i64, false⟩, .i64 7⟩,
    .addFunction {} ⟨[], [0x0B]⟩, .exportFunction "main" 0, .setStart 0]

theorem validate_of_toBool {m : Module} (h : m.validate.toBool = true) : m.validate = .ok () := by
  cases hv : m.validate with
  | ok => rfl
  | error e =>
    rw [hv] at h
    cases h

theorem finish_structure_sane : ∃ bytes c, (built none saneModule).finish = .ok bytes ∧
    Contents.ofBytes? bytes = some c ∧ c.Sound ∧ c.DistinctExports ∧ c.OneMemory ∧ c.ReferenceTables ∧
    c.OrderedLimits ∧ c.TypedInitializers := by
  have hfinish : (built none saneModule).finish = .ok (built none saneModule).encode :=
    bind_eq_ok.2 ⟨(), validate_of_toBool (by decide +kernel), rfl⟩
  have hsmall : (built none saneModule).Encodable := by constructor <;> decide +kernel
  obtain ⟨hread, hsound, hexports, hmemory, htables, hlimits, hglobals⟩ := finish_structure hfinish
  refine ⟨_, _, hfinish, hread hsmall, hsound, hexports.2 (by decide), hmemory.2 (by decide), htables.2 ?_,
    hlimits.2 ?_, hglobals.2 ?_⟩
  · simp [saneModule, Operation.table?, ValType.IsReference]
  · simp [saneModule, Operation.table?, Operation.memory?, Limits.Ordered]
  · simp [saneModule, Operation.global?, ConstValue.type]

def Slips (operations : List Operation) (required : Contents → Prop) : Prop :=
  ∃ bytes c, (built none operations).finish = .ok bytes ∧ Contents.ofBytes? bytes = some c ∧ ¬ required c

theorem Encodable.slips {operations : List Operation} {required : Contents → Prop}
    (he : (built none operations).Encodable) (hv : (built none operations).validate.toBool = true)
    (hr : ¬ required (built none operations).contents) : Slips operations required :=
  ⟨_, _, bind_eq_ok.2 ⟨(), validate_of_toBool hv, rfl⟩, he.lossless.read, hr⟩

/-- Two exports of one name, a second memory, a table of integers, limits in the wrong order and an
initializer of another type than the global's are all accepted. -/
theorem finish_accepts_invalid :
    Slips [.addFunction {} ⟨[], [0x0B]⟩, .exportFunction "f" 0, .exportFunction "f" 0] Contents.DistinctExports ∧
      Slips [.importMemory "env" "memory" { min := 1 }] Contents.OneMemory ∧
      Slips [.importTable "env" "table" .i32 { min := 1 }] Contents.ReferenceTables ∧
      Slips [.importTable "env" "table" .funcref ⟨2, some 1⟩] Contents.OrderedLimits ∧
      Slips [.addGlobal ⟨⟨.i64, false⟩, .i32 0⟩] Contents.TypedInitializers := by
  refine ⟨?exports, ?memories, ?tables, ?limits, ?globals⟩
  case exports =>
    have hsmall : (built none [.addFunction {} ⟨[], [0x0B]⟩, .exportFunction "f" 0,
        .exportFunction "f" 0]).Encodable := by constructor <;> decide +kernel
    refine hsmall.slips (by decide +kernel) fun h => ?_
    have hnames : ["f", "f"].Nodup := h
    exact absurd hnames (by decide)
  case memories =>
    have hsmall : (built none [.importMemory "env" "memory" { min := 1 }]).Encodable := by
      constructor <;> decide +kernel
    refine hsmall.slips (by decide +kernel) fun h => ?_
    have hcount : 2 ≤ 1 := h
    exact absurd hcount (by decide)
  case tables =>
    have hsmall : (built none [.importTable "env" "table" .i32 { min := 1 }]).Encodable := by
      constructor <;> decide +kernel
    refine hsmall.slips (by decide +kernel) fun h => ?_
    have href := h (.i32, { min := 1 }) (by decide)
    simp [ValType.IsReference] at href
  case limits =>
    have hsmall : (built none [.importTable "env" "table" .funcref ⟨2, some 1⟩]).Encodable := by
      constructor <;> decide +kernel
    refine hsmall.slips (by decide +kernel) fun h => ?_
    have hle : (2 : UInt32) ≤ 1 := h ⟨2, some 1⟩ (by decide) 1 rfl
    exact absurd hle (by decide)
  case globals =>
    have hsmall : (built none [.addGlobal ⟨⟨.i64, false⟩, .i32 0⟩]).Encodable := by
      constructor <;> decide +kernel
    refine hsmall.slips (by decide +kernel) fun h => ?_
    have htype : ValType.i32 = .i64 := h ⟨⟨.i64, false⟩, .i32 0⟩ (by decide)
    exact absurd htype (by decide)

end Finish

end Module

end ImpWasm.Wasm
