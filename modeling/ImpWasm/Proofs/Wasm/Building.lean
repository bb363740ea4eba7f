import ImpWasm.Proofs.Wasm.Validation
import ImpWasm.Wasm.Module
set_option autoImplicit false

/-!
Modules that can be built: those that come from an empty one by operations on it. In such a module the
index spaces agree with the imports and the definitions, so that a module that validates has checked
each body against the type that callers see.
-/
namespace ImpWasm.Wasm

namespace Module

inductive Operation where
  | addType (type : FuncType)
  | importFunction (module name : String) (type : FuncType)
  | importGlobal (module name : String) (type : GlobalType)
  | importMemory (module name : String) (limits : Limits)
  | importTable (module name : String) (element : ValType) (limits : Limits)
  | addFunction (type : FuncType) (body : Body)
  | addGlobal (global : Global)
  | exportFunction (name : String) (function : UInt32)
  | setStart (function : UInt32)
  deriving DecidableEq, Repr

/-- The module after an operation. One that is refused changes nothing. -/
def perform (m : Module) : Operation → Module
  | .addType type => (m.addType type).1
  | .importFunction module name type =>
    match m.importFunction module name type with
    | .ok (m, _) => m
    | .error _ => m
  | .importGlobal module name type =>
    match m.importGlobal module name type with
    | .ok (m, _) => m
    | .error _ => m
  | .importMemory module name limits => m.importMemory module name limits
  | .importTable module name element limits => m.importTable module name element limits
  | .addFunction type body => (m.addFunction type body).1
  | .addGlobal global => (m.addGlobal global).1
  | .exportFunction name function => m.exportFunction name function
  | .setStart function => m.setStart function

def built (name : Option String) (operations : List Operation) : Module := operations.foldl perform { name }

end Module

def Import.functionType? (i : Import) : Option UInt32 :=
  match i.desc with
  | .function typeIndex => some typeIndex
  | _ => none

def Import.globalType? (i : Import) : Option GlobalType :=
  match i.desc with
  | .global type => some type
  | _ => none

namespace Module

variable {m : Module}

/-- Imports come first in both index spaces, and every function has a type. -/
structure Consistent (m : Module) : Prop where
  functionTypes : m.functionTypes =
    m.imports.filterMap Import.functionType? ++ m.functions.map Function.typeIndex
  types : ∀ i ∈ m.functionTypes, i.toNat < m.types.length
  globalTypes : m.globalTypes = m.imports.filterMap Import.globalType? ++ m.globals.map Global.type

theorem consistent_empty (name : Option String) : Consistent { name } := ⟨rfl, by simp, rfl⟩

theorem Consistent.addType (h : m.Consistent) (type : FuncType) : (m.addType type).1.Consistent := by
  refine ⟨h.functionTypes, fun i hi => ?_, h.globalTypes⟩
  have hlt := h.types i hi
  simp only [Module.addType, List.length_append]
  omega

theorem Consistent.types_concat (h : m.Consistent) {type : FuncType} {i : UInt32}
    (hi : i ∈ m.functionTypes ++ [m.types.length.toUInt32]) : i.toNat < (m.types ++ [type]).length := by
  rw [List.length_append, List.length_singleton]
  cases List.mem_append.1 hi with
  | inl hi => exact Nat.lt_succ_of_lt (h.types i hi)
  | inr hi =>
    rw [List.mem_singleton.1 hi]
    exact Nat.lt_succ_of_le (Nat.mod_le _ (2 ^ 32))

theorem Consistent.importFunction (h : m.Consistent) (module name : String) (type : FuncType) :
    (m.perform (.importFunction module name type)).Consistent := by
  unfold perform Module.importFunction
  by_cases hf : m.functions.isEmpty = true
  · have hnil : m.functions = [] := List.isEmpty_iff.1 hf
    simp only [hf, if_true]
    refine ⟨?_, fun i hi => h.types_concat hi, ?_⟩
    · simp [Module.addType, h.functionTypes, hnil, Import.functionType?]
    · simp [Module.addType, h.globalTypes, Import.globalType?]
  · simp only [hf]
    exact h

theorem Consistent.importGlobal (h : m.Consistent) (module name : String) (type : GlobalType) :
    (m.perform (.importGlobal module name type)).Consistent := by
  unfold perform Module.importGlobal
  by_cases hg : m.globals.isEmpty = true
  · have hnil : m.globals = [] := List.isEmpty_iff.1 hg
    simp only [hg, if_true]
    refine ⟨?_, h.types, ?_⟩
    · simp [h.functionTypes, Import.functionType?]
    · simp [h.globalTypes, hnil, Import.globalType?]
  · simp only [hg]
    exact h

theorem Consistent.addFunction (h : m.Consistent) (type : FuncType) (body : Body) :
    (m.addFunction type body).1.Consistent := by
  refine ⟨?_, fun i hi => h.types_concat hi, h.globalTypes⟩
  simp [Module.addFunction, Module.addType, h.functionTypes]

theorem Consistent.perform (h : m.Consistent) (o : Operation) : (m.perform o).Consistent := by
  cases o with
  | addType type => exact h.addType type
  | importFunction module name type => exact h.importFunction module name type
  | importGlobal module name type => exact h.importGlobal module name type
  | importMemory module name limits =>
    exact ⟨by simp [Module.perform, Module.importMemory, h.functionTypes, Import.functionType?], h.types,
      by simp [Module.perform, Module.importMemory, h.globalTypes, Import.globalType?]⟩
  | importTable module name element limits =>
    exact ⟨by simp [Module.perform, Module.importTable, h.functionTypes, Import.functionType?], h.types,
      by simp [Module.perform, Module.importTable, h.globalTypes, Import.globalType?]⟩
  | addFunction type body => exact h.addFunction type body
  | addGlobal global =>
    exact ⟨h.functionTypes, h.types, by simp [Module.perform, Module.addGlobal, h.globalTypes]⟩
  | exportFunction name function => exact ⟨h.functionTypes, h.types, h.globalTypes⟩
  | setStart function => exact ⟨h.functionTypes, h.types, h.globalTypes⟩

theorem built_consistent (name : Option String) (operations : List Operation) :
    (built name operations).Consistent := by
  suffices h : ∀ m : Module, m.Consistent → (operations.foldl Module.perform m).Consistent from
    h _ (consistent_empty name)
  induction operations with
  | nil => exact fun m h => h
  | cons o os ih => exact fun m h => ih _ (h.perform o)

theorem Consistent.importedFunctionCount (h : m.Consistent) :
    m.importedFunctionCount = (m.imports.filterMap Import.functionType?).length := by
  simp [Module.importedFunctionCount, h.functionTypes]

theorem Consistent.functionType (h : m.Consistent) {i : UInt32} (hi : i.toNat < m.functionCount) :
    ∃ type, m.functionType i = some type := by
  have hmem := List.getElem_mem hi
  obtain ⟨type, htype⟩ : ∃ type, m.types[(m.functionTypes.get ⟨i.toNat, hi⟩).toNat]? = some type :=
    ⟨_, List.getElem?_eq_getElem (h.types _ hmem)⟩
  refine ⟨type, ?_⟩
  simp only [Module.functionType, List.getElem?_eq_getElem hi, Option.bind_eq_bind, Option.bind_some]
  exact htype

/-- A defined function's index leads to its body, and to the type that the body has its index for. -/
theorem Consistent.defined (h : m.Consistent) {i : UInt32} (hlow : m.importedFunctionCount ≤ i.toNat)
    (hi : i.toNat < m.functionCount) :
    ∃ f ∈ m.functions, m.body i = some f.body ∧ m.functionType i = m.types[f.typeIndex.toNat]? := by
  have himported := h.importedFunctionCount
  have hlt : i.toNat - m.importedFunctionCount < m.functions.length := by
    rw [functionCount, h.functionTypes, List.length_append, List.length_map] at hi
    omega
  refine ⟨m.functions.get ⟨_, hlt⟩, List.getElem_mem hlt, ?_, ?_⟩
  · rw [Module.body, if_neg (Nat.not_lt.2 hlow), List.getElem?_eq_getElem hlt]
    rfl
  · have hat : m.functionTypes[i.toNat]? = some (m.functions.get ⟨_, hlt⟩).typeIndex := by
      rw [h.functionTypes, List.getElem?_append_right (himported ▸ hlow), ← himported, List.getElem?_map,
        List.getElem?_eq_getElem hlt]
      rfl
    simp only [Module.functionType, hat, Option.bind_eq_bind, Option.bind_some]

theorem validateBody_of_validateFunctions {fs : List Function} {index : Nat}
    (h : m.validateFunctions index fs = .ok ()) {f : Function} (hf : f ∈ fs) {type : FuncType}
    (ht : m.types[f.typeIndex.toNat]? = some type) :
    validateBody (m.context type f.body.locals) type.results f.body.code = .ok () := by
  induction fs generalizing index with
  | nil => cases hf
  | cons g gs ih =>
    simp only [validateFunctions] at h
    split at h
    · cases h
    · rename_i hb
      cases List.mem_cons.1 hf with
      | inl heq =>
        subst heq
        simpa [ht] using hb
      | inr hmem => exact ih h hmem

theorem Consistent.validated (h : m.Consistent) (hv : m.validate = .ok ()) {i : UInt32}
    (hlow : m.importedFunctionCount ≤ i.toNat) {type : FuncType} (ht : m.functionType i = some type) :
    ∃ b c, m.body i = some b ∧ Code.ofBytes? b.code = some c ∧
      c.HasType (m.context type b.locals) type.results [type.results] [] type.results := by
  have hi : i.toNat < m.functionCount := by
    obtain ⟨typeIndex, hat, _⟩ := Option.bind_eq_some_iff.1 ht
    exact (List.getElem?_eq_some_iff.1 hat).1
  obtain ⟨f, hf, hbody, htype⟩ := h.defined hlow hi
  obtain ⟨_, hbodies, _⟩ := bind_eq_ok.1 hv
  obtain ⟨c, hc, htyped⟩ := validateBody_iff_ofBytes?.1
    (validateBody_of_validateFunctions hbodies hf (htype ▸ ht))
  exact ⟨f.body, c, hbody, hc, htyped⟩

end Module

end ImpWasm.Wasm
