import ImpWasm.Compile
import ImpWasm.Proofs.Lowering.Inversion
import ImpWasm.Proofs.Wasm.Encoding
set_option autoImplicit false

namespace ImpWasm

open Wasm (Instr)

def Wasm.Module.present (o : LowerOptions) (m : Wasm.Module) : Wasm.Module :=
  { m with
    name := o.moduleName
    imports := m.imports.map fun i => { i with module := o.importModule }
    exports := if o.exportFunctions then m.exports else [] }

def Lowering.present (o : LowerOptions) (st : Lowering) : Lowering := { st with module := st.module.present o }

section Results

variable {α β γ : Type}

theorem Lowered.bind_eq_map {x : Lowered α} {k : α → Lowered β} {k' : α → Lowered γ} {f : β → γ}
    (h : ∀ a, k' a = (k a).map f) : (x >>= k') = (x >>= k).map f := by
  cases x with
  | ok a => exact h a
  | error e => rfl

theorem Lowered.foldlM_eq_map {step step' : β → α → Lowered β} {f : β → β}
    (h : ∀ b a, step' (f b) a = (step b a).map f) (as : List α) (b : β) :
    as.foldlM step' (f b) = (as.foldlM step b).map f := by
  induction as generalizing b with
  | nil => rfl
  | cons a as ih =>
    rw [List.foldlM_cons, List.foldlM_cons, h]
    cases step b a with
    | ok b => exact ih b
    | error e => rfl

end Results

namespace Lowering

variable (o : LowerOptions) {st st' : Lowering}

theorem importFunction_functions {s : Signature} (h : importFunction o st s = .ok st') :
    st'.module.functions = st.module.functions := by
  obtain ⟨_, _, rfl⟩ := importFunction_ok h
  rfl

/-- As long as no function is defined, none is refused, so that no error tells of the module. -/
theorem importFunction_present (s : Signature) (h : st.module.functions = []) :
    importFunction o (st.present o) s = (importFunction {} st s).map (Lowering.present o) := by
  refine Lowered.bind_eq_map fun type => ?_
  simp [Wasm.Module.importFunction, present, Wasm.Module.present, Wasm.Module.addType, h, liftModule, bind,
    Except.bind, pure, Except.pure, Except.map]

theorem importAll_present (sigs : List Signature) (h : st.module.functions = []) :
    sigs.foldlM (importFunction o) (st.present o) =
      (sigs.foldlM (importFunction {}) st).map (Lowering.present o) := by
  induction sigs generalizing st with
  | nil => rfl
  | cons s sigs ih =>
    rw [List.foldlM_cons, List.foldlM_cons, importFunction_present o s h]
    cases hs : importFunction {} st s with
    | error e => rfl
    | ok st' => exact ih ((importFunction_functions {} hs).trans h)

theorem declareFunctions_present (functions : FunctionTable) (h : st.module.functions = []) :
    declareFunctions o functions (st.present o) = (declareFunctions {} functions st).map (Lowering.present o) := by
  unfold declareFunctions
  rw [importAll_present o _ h]
  cases (functions.signatures.filter (·.isImported)).foldlM (importFunction {}) st with
  | error e => rfl
  | ok st => rfl

theorem addFunction_present (functions : FunctionTable) (name : String) (params : List Typed.Param)
    (body : List Typed.Stmt) (span : Span) :
    (st.present o).addFunction o functions name params body span =
      (st.addFunction {} functions name params body span).map (Lowering.present o) := by
  unfold addFunction
  cases functions.get? name with
  | none => rfl
  | some s =>
    refine Lowered.bind_eq_map fun type => Lowered.bind_eq_map fun body => ?_
    cases he : o.exportFunctions <;>
      simp [present, Wasm.Module.present, Wasm.Module.addFunction, Wasm.Module.addType,
        Wasm.Module.exportFunction, he, pure, Except.pure, Except.map]

theorem addGlobal_present (name : Typed.Ident) (type : PrimType) (init : Option Typed.Expr) (span : Span) :
    (st.present o).addGlobal name type init span =
      (st.addGlobal name type init span).map (Lowering.present o) := by
  refine Lowered.bind_eq_map fun t => Lowered.bind_eq_map fun g => ?_
  cases Typed.constant? init with
  | some v => rfl
  | none => exact Lowered.bind_eq_map fun _ => rfl

theorem addStmt_present (functions : FunctionTable) (s : Typed.Stmt) :
    (st.present o).addStmt o functions s = (st.addStmt {} functions s).map (Lowering.present o) := by
  cases s with
  | function name params _ body _ span => exact addFunction_present o functions name params body span
  | imported => rfl
  | var name type init span => exact addGlobal_present o name type init span
  | _ => exact Lowered.bind_eq_map fun _ => rfl

theorem finish_present : (st.present o).finish = st.finish.present o := by
  unfold finish
  cases h : st.startCode.isEmpty with
  | false =>
    simp [present, h]
    rfl
  | true => simp [present, h]

end Lowering

/-- The options come in at the end. -/
theorem Typed.Program.lower_eq_present (o : LowerOptions) (p : Program) :
    p.lower o = (p.lower {}).map (Wasm.Module.present o) := by
  have hempty : ({ module := { name := o.moduleName } } : Lowering) =
      Lowering.present o { module := { name := none } } := by
    simp [Lowering.present, Wasm.Module.present]
  unfold lower
  simp only [hempty]
  rw [Lowering.declareFunctions_present o _ rfl]
  cases Lowering.declareFunctions {} p.functions { module := { name := none } } with
  | error e => rfl
  | ok st =>
    have hall := Lowered.foldlM_eq_map (fun _ s => Lowering.addStmt_present o p.functions s) p.body st
    simp only [Except.map, bind, Except.bind, hall]
    cases p.body.foldlM (Lowering.addStmt {} p.functions) st with
    | error e => rfl
    | ok st => exact congrArg Except.ok (Lowering.finish_present o)

namespace Wasm.Module

open Contents

variable (o o' : LowerOptions) (m : Module)

def bytesOf (m : Module) (ids : List UInt8) : Bytes :=
  (ids.flatMap m.part).flatMap fun s => sectionBytes s.1 s.2

theorem bytesOf_append (ids ids' : List UInt8) : m.bytesOf (ids ++ ids') = m.bytesOf ids ++ m.bytesOf ids' := by
  simp only [bytesOf, List.flatMap_append]

theorem encode_around {id : UInt8} {before after : List UInt8} (h : order = before ++ [id] ++ after) :
    m.encode = (header ++ m.bytesOf before) ++ m.bytesOf [id] ++ m.bytesOf after := by
  rw [encode_eq_sections, sections, h, List.append_assoc header, List.append_assoc header, ← bytesOf_append,
    ← bytesOf_append]
  rfl

variable {m} in
theorem bytesOf_congr {m' : Module} {ids : List UInt8} (h : ∀ id ∈ ids, m'.part id = m.part id) :
    m'.bytesOf ids = m.bytesOf ids := by
  unfold bytesOf
  rw [List.flatMap_def (f := m'.part), List.map_congr_left h, ← List.flatMap_def]

variable {m} in
theorem encode_one_section {m' : Module} {id : UInt8} {before after : List UInt8}
    (horder : order = before ++ [id] ++ after) (hid : id ∉ before ∧ id ∉ after)
    (same : ∀ k, k ≠ id → m'.part k = m.part k) :
    m.encode = header ++ m.bytesOf before ++ m.bytesOf [id] ++ m.bytesOf after ∧
      m'.encode = header ++ m.bytesOf before ++ m'.bytesOf [id] ++ m.bytesOf after := by
  have hbefore : m'.bytesOf before = m.bytesOf before :=
    bytesOf_congr fun k hk => same k fun h => hid.1 (h ▸ hk)
  have hafter : m'.bytesOf after = m.bytesOf after :=
    bytesOf_congr fun k hk => same k fun h => hid.2 (h ▸ hk)
  refine ⟨m.encode_around horder, ?_⟩
  rw [← hbefore, ← hafter]
  exact m'.encode_around horder

theorem part_present {id : UInt8} (himports : id = 2 → o'.importModule = o.importModule)
    (hexports : id = 7 → o'.exportFunctions = o.exportFunctions) :
    (m.present o').part id = (m.present o).part id := by
  unfold part
  split
  case h_2 => simp only [present, himports rfl]
  case h_6 => simp only [present, hexports rfl]
  all_goals rfl

end Wasm.Module

/-- How the modules compare that one program is lowered to under two options. -/
structure Wasm.Module.Twins (o o' : LowerOptions) (m m' : Wasm.Module) : Prop where
  types : m'.types = m.types
  functions : m'.functions = m.functions
  functionTypes : m'.functionTypes = m.functionTypes
  globals : m'.globals = m.globals
  globalTypes : m'.globalTypes = m.globalTypes
  start : m'.start = m.start
  imports : m'.imports.map (fun i => (i.name, i.desc)) = m.imports.map fun i => (i.name, i.desc)
  importedFrom : (∀ i ∈ m.imports, i.module = o.importModule) ∧ ∀ i ∈ m'.imports, i.module = o'.importModule
  unexported : (o.exportFunctions = false → m.exports = []) ∧ (o'.exportFunctions = false → m'.exports = [])
  exports : o.exportFunctions = true → o'.exportFunctions = true → m'.exports = m.exports
  /-- The name of the module is not in the bytes. -/
  bytes : o'.importModule = o.importModule → o'.exportFunctions = o.exportFunctions → m'.encode = m.encode
  importBytes : o'.exportFunctions = o.exportFunctions →
    m.encode = Contents.header ++ m.bytesOf [1] ++ m.bytesOf [2] ++ m.bytesOf [3, 5, 6, 7, 8, 10] ∧
    m'.encode = Contents.header ++ m.bytesOf [1] ++ m'.bytesOf [2] ++ m.bytesOf [3, 5, 6, 7, 8, 10]
  exportBytes : o'.importModule = o.importModule → o'.exportFunctions = false →
    m.encode = Contents.header ++ m.bytesOf [1, 2, 3, 5, 6] ++ m.bytesOf [7] ++ m.bytesOf [8, 10] ∧
    m'.encode = Contents.header ++ m.bytesOf [1, 2, 3, 5, 6] ++ m.bytesOf [8, 10]

namespace Wasm.Module

open Contents

variable {o o' : LowerOptions} (m : Module)

theorem encode_present (himports : o'.importModule = o.importModule)
    (hexports : o'.exportFunctions = o.exportFunctions) : (m.present o').encode = (m.present o).encode := by
  rw [encode_eq_sections, encode_eq_sections]
  exact congrArg (header ++ ·) (bytesOf_congr fun id _ => m.part_present o o' (fun _ => himports) fun _ => hexports)

theorem part_present_imports (h : o'.exportFunctions = o.exportFunctions) (id : UInt8) (hid : id ≠ 2) :
    (m.present o').part id = (m.present o).part id :=
  m.part_present o o' (fun himports => absurd himports hid) fun _ => h

theorem part_present_exports (h : o'.importModule = o.importModule) (id : UInt8) (hid : id ≠ 7) :
    (m.present o').part id = (m.present o).part id :=
  m.part_present o o' (fun _ => h) fun hexports => absurd hexports hid

theorem bytesOf_exports_present (h : o.exportFunctions = false) : (m.present o).bytesOf [7] = [] := by
  simp [bytesOf, part, present, h, vectorPart]

theorem twins_present : Twins o o' (m.present o) (m.present o') where
  types := rfl
  functions := rfl
  functionTypes := rfl
  globals := rfl
  globalTypes := rfl
  start := rfl
  imports := by simp [present]
  importedFrom := by simp [present]
  unexported := by simp +contextual [present]
  exports := by simp +contextual [present]
  bytes := m.encode_present
  importBytes h := encode_one_section rfl (by decide) (m.part_present_imports h)
  exportBytes himports hoff := by
    have horder : order = [1, 2, 3, 5, 6] ++ [7] ++ [8, 10] := rfl
    have around := encode_one_section horder (by decide) (m.part_present_exports himports)
    rwa [m.bytesOf_exports_present hoff, List.append_nil] at around

end Wasm.Module

namespace Typed.Program

def Writes (p : Program) (options : CompileOptions) (m : Wasm.Module) : Prop :=
  p.compile options = .ok ⟨m.encode, p⟩ ∨
    options.validate = true ∧ ∃ e, m.validate = .error e ∧ p.compile options = .error (.module e)

theorem writes_of_lower {p : Program} {options : CompileOptions} {m : Wasm.Module}
    (h : p.lower options.toLowerOptions = .ok m) : p.Writes options m := by
  have written : p.compile options = (encodeWith options m).map (⟨·, p⟩) := by
    rw [compile, h]
    rfl
  unfold Writes
  rw [written, encodeWith, Wasm.Module.finish]
  cases options.validate with
  | false => exact .inl rfl
  | true =>
    cases m.validate with
    | ok => exact .inl rfl
    | error e => exact .inr ⟨rfl, e, rfl, rfl⟩

/-- Under any two options a program fails to be lowered with the same error, or its two modules are alike but
for where the options come in, and these are the modules that are written. -/
theorem options_keep_sections (p : Program) (o o' : CompileOptions) :
    (∃ e, p.lower o.toLowerOptions = .error e ∧ p.lower o'.toLowerOptions = .error e) ∨
    ∃ m m', p.lower o.toLowerOptions = .ok m ∧ p.lower o'.toLowerOptions = .ok m' ∧
      m.Twins o.toLowerOptions o'.toLowerOptions m' ∧ p.Writes o m ∧ p.Writes o' m' := by
  have howrites := @writes_of_lower p o
  have howrites' := @writes_of_lower p o'
  rw [p.lower_eq_present o.toLowerOptions] at howrites ⊢
  rw [p.lower_eq_present o'.toLowerOptions] at howrites' ⊢
  cases hm : p.lower {} with
  | error e => exact .inl ⟨e, rfl, rfl⟩
  | ok m => exact .inr ⟨_, _, rfl, rfl, m.twins_present, howrites (by rw [hm]; rfl), howrites' (by rw [hm]; rfl)⟩

end Typed.Program

end ImpWasm
