import ImpWasm.Proofs.Wasm.Building
set_option autoImplicit false

namespace ImpWasm.Wasm.Module

variable {m m' m'' : Module}

/-- What building goes on to keep. Once a function is defined, no import moves it. -/
structure Grows (m m' : Module) : Prop where
  types : m.types <+: m'.types
  functionTypes : m.functionTypes <+: m'.functionTypes
  globalTypes : m.globalTypes <+: m'.globalTypes
  functions : m.functions <+: m'.functions
  imported : m.importedFunctionCount ≤ m'.importedFunctionCount
  settled : m.functions ≠ [] → m'.importedFunctionCount = m.importedFunctionCount

theorem Grows.refl (m : Module) : m.Grows m :=
  ⟨List.prefix_rfl, List.prefix_rfl, List.prefix_rfl, List.prefix_rfl, Nat.le_refl _, fun _ => rfl⟩

theorem Grows.trans (h : m.Grows m') (h' : m'.Grows m'') : m.Grows m'' where
  types := h.types.trans h'.types
  functionTypes := h.functionTypes.trans h'.functionTypes
  globalTypes := h.globalTypes.trans h'.globalTypes
  functions := h.functions.trans h'.functions
  imported := Nat.le_trans h.imported h'.imported
  settled hne := by
    have hne' : m'.functions ≠ [] := fun hnil => hne (List.prefix_nil.1 (hnil ▸ h.functions))
    rw [h'.settled hne', h.settled hne]

section Refusals

variable {module name : String}

theorem importFunction_eq_error {type : FuncType} {e : ModuleError} :
    m.importFunction module name type = .error e ↔
      m.functions ≠ [] ∧ e = .importAfterFunction module name := by
  unfold importFunction
  cases hf : m.functions with
  | nil => simp
  | cons f fs => simp only [List.isEmpty_cons, Bool.false_eq_true, if_false, Except.error.injEq, ne_eq,
      reduceCtorEq, not_false_eq_true, true_and, eq_comm]

theorem importFunction_eq_ok {type : FuncType} {i : UInt32} :
    m.importFunction module name type = .ok (m', i) ↔
      m.functions = [] ∧ i = m.functionTypes.length.toUInt32 ∧
        m' = { m with
          types := m.types ++ [type]
          imports := m.imports ++ [⟨module, name, .function m.types.length.toUInt32⟩]
          functionTypes := m.functionTypes ++ [m.types.length.toUInt32] } := by
  unfold importFunction
  by_cases hf : m.functions = []
  · simp [hf, addType, eq_comm, and_comm]
  · simp [hf]

theorem importGlobal_eq_error {type : GlobalType} {e : ModuleError} :
    m.importGlobal module name type = .error e ↔
      m.globals ≠ [] ∧ e = .importAfterGlobal module name := by
  unfold importGlobal
  cases hg : m.globals with
  | nil => simp
  | cons g gs => simp only [List.isEmpty_cons, Bool.false_eq_true, if_false, Except.error.injEq, ne_eq,
      reduceCtorEq, not_false_eq_true, true_and, eq_comm]

theorem importGlobal_eq_ok {type : GlobalType} {i : UInt32} :
    m.importGlobal module name type = .ok (m', i) ↔
      m.globals = [] ∧ i = m.globalTypes.length.toUInt32 ∧
        m' = { m with
          imports := m.imports ++ [⟨module, name, .global type⟩]
          globalTypes := m.globalTypes ++ [type] } := by
  unfold importGlobal
  by_cases hg : m.globals = []
  · simp [hg, eq_comm, and_comm]
  · simp [hg]

end Refusals

@[simp] theorem importedFunctionCount_addFunction (m : Module) (type : FuncType) (body : Body) :
    (m.addFunction type body).1.importedFunctionCount = m.importedFunctionCount := by
  simp only [importedFunctionCount, addFunction, addType, List.length_append, List.length_singleton]
  omega

theorem Grows.addFunction (m : Module) (type : FuncType) (body : Body) :
    m.Grows (m.addFunction type body).1 where
  types := List.prefix_append ..
  functionTypes := List.prefix_append ..
  globalTypes := List.prefix_rfl
  functions := List.prefix_append ..
  imported := Nat.le_of_eq (importedFunctionCount_addFunction ..).symm
  settled _ := importedFunctionCount_addFunction ..

theorem Grows.perform (m : Module) (o : Operation) : m.Grows (m.perform o) := by
  cases o with
  | addType type =>
    exact ⟨List.prefix_append .., List.prefix_rfl, List.prefix_rfl, List.prefix_rfl, Nat.le_refl _,
      fun _ => rfl⟩
  | importFunction module name type =>
    cases hok : m.importFunction module name type with
    | error e =>
      simp only [Module.perform, hok]
      exact .refl m
    | ok answer =>
      obtain ⟨next, i⟩ := answer
      obtain ⟨hnil, -, rfl⟩ := importFunction_eq_ok.1 hok
      simp only [Module.perform, hok]
      have hcount : m.functionTypes.length - m.functions.length ≤
          (m.functionTypes ++ [m.types.length.toUInt32]).length - m.functions.length := by
        simp only [List.length_append, List.length_singleton]
        omega
      exact ⟨List.prefix_append .., List.prefix_append .., List.prefix_rfl, List.prefix_rfl, hcount,
        fun hne => (hne hnil).elim⟩
  | importGlobal module name type =>
    cases hok : m.importGlobal module name type with
    | error e =>
      simp only [Module.perform, hok]
      exact .refl m
    | ok answer =>
      obtain ⟨next, i⟩ := answer
      obtain ⟨-, -, rfl⟩ := importGlobal_eq_ok.1 hok
      simp only [Module.perform, hok]
      exact ⟨List.prefix_rfl, List.prefix_rfl, List.prefix_append .., List.prefix_rfl, Nat.le_refl _,
        fun _ => rfl⟩
  | importMemory | importTable | exportFunction | setStart =>
    exact ⟨List.prefix_rfl, List.prefix_rfl, List.prefix_rfl, List.prefix_rfl, Nat.le_refl _, fun _ => rfl⟩
  | addFunction type body => exact .addFunction m type body
  | addGlobal global =>
    exact ⟨List.prefix_rfl, List.prefix_rfl, List.prefix_append .., List.prefix_rfl, Nat.le_refl _,
      fun _ => rfl⟩

theorem Grows.run (m : Module) (operations : List Operation) : m.Grows (operations.foldl Module.perform m) := by
  induction operations generalizing m with
  | nil => exact .refl m
  | cons o os ih => exact (Grows.perform m o).trans (ih _)

section Meaning

variable {i : UInt32}

theorem found_of_prefix {α : Type} {xs ys : List α} {n : Nat} {a : α} (h : xs <+: ys) (ha : xs[n]? = some a) :
    ys[n]? = some a := by
  obtain ⟨rest, rfl⟩ := h
  rw [List.getElem?_append_left (List.getElem?_eq_some_iff.1 ha).1, ha]

theorem Grows.functionType (h : m.Grows m') {type : FuncType} (hi : m.functionType i = some type) :
    m'.functionType i = some type := by
  obtain ⟨t, ht, htype⟩ := Option.bind_eq_some_iff.1 hi
  exact Option.bind_eq_some_iff.2 ⟨t, found_of_prefix h.functionTypes ht, found_of_prefix h.types htype⟩

theorem Grows.globalType (h : m.Grows m') {type : GlobalType} (hi : m.globalType i = some type) :
    m'.globalType i = some type :=
  found_of_prefix h.globalTypes hi

theorem body_eq_some {b : Body} :
    m.body i = some b ↔ m.importedFunctionCount ≤ i.toNat ∧
      ∃ f, m.functions[i.toNat - m.importedFunctionCount]? = some f ∧ f.body = b := by
  unfold body
  by_cases hlow : i.toNat < m.importedFunctionCount
  · simp [hlow, Nat.not_le.2 hlow]
  · simp [hlow, Nat.not_lt.1 hlow]

theorem Grows.body (h : m.Grows m') {b : Body} (hi : m.body i = some b) : m'.body i = some b := by
  obtain ⟨hlow, f, hf, hb⟩ := body_eq_some.1 hi
  have hne : m.functions ≠ [] := fun hnil => by simp [hnil] at hf
  rw [← h.settled hne] at hlow hf
  exact body_eq_some.2 ⟨hlow, f, found_of_prefix h.functions hf, hb⟩

/-- Numbers of imports stay numbers of imports. -/
theorem Grows.body_imported (h : m.Grows m') (hi : i.toNat < m.importedFunctionCount) : m'.body i = none :=
  if_pos (Nat.lt_of_lt_of_le hi h.imported)

theorem Consistent.functionCount (h : m.Consistent) :
    m.importedFunctionCount + m.functions.length = m.functionCount := by
  rw [h.importedFunctionCount, Module.functionCount, h.functionTypes, List.length_append, List.length_map]

theorem Consistent.body_eq_none (h : m.Consistent) :
    m.body i = none ↔ i.toNat < m.importedFunctionCount ∨ m.functionCount ≤ i.toNat := by
  cases hbody : m.body i with
  | some b =>
    obtain ⟨hlow, f, hf, _⟩ := body_eq_some.1 hbody
    have hlt := (List.getElem?_eq_some_iff.1 hf).1
    have hcount := h.functionCount
    simp only [reduceCtorEq, false_iff]
    omega
  | none =>
    refine iff_of_true rfl (Decidable.or_iff_not_imp_left.2 fun hlow => Nat.not_lt.1 fun hhigh => ?_)
    obtain ⟨f, _, hsome, _⟩ := h.defined (Nat.not_lt.1 hlow) hhigh
    rw [hbody] at hsome
    cases hsome

end Meaning

def answer? (m : Module) : Operation → Option UInt32
  | .addType type => some (m.addType type).2
  | .importFunction module name type =>
    match m.importFunction module name type with
    | .ok (_, i) => some i
    | .error _ => none
  | .importGlobal module name type =>
    match m.importGlobal module name type with
    | .ok (_, i) => some i
    | .error _ => none
  | .addFunction type body => some (m.addFunction type body).2
  | .addGlobal global => some (m.addGlobal global).2
  | .importMemory .. | .importTable .. | .exportFunction .. | .setStart .. => none

/-- A number stands for what the operation that was answered with it made. -/
def Denotes (m : Module) (i : UInt32) : Operation → Prop
  | .addType type => m.types[i.toNat]? = some type
  | .importFunction _ _ type => m.functionType i = some type ∧ i.toNat < m.importedFunctionCount ∧ m.body i = none
  | .importGlobal _ _ type => m.globalType i = some type
  | .addFunction type body => m.functionType i = some type ∧ m.body i = some body
  | .addGlobal global => m.globalType i = some global.type
  | .importMemory .. | .importTable .. | .exportFunction .. | .setStart .. => False

/-- Every entity has a number of its own. -/
structure Countable (m : Module) : Prop where
  types : m.types.length < 2 ^ 32
  functions : m.functionTypes.length < 2 ^ 32
  globals : m.globalTypes.length < 2 ^ 32

theorem Grows.countable (h : m.Grows m') (hc : m'.Countable) : m.Countable :=
  ⟨Nat.lt_of_le_of_lt h.types.length_le hc.types, Nat.lt_of_le_of_lt h.functionTypes.length_le hc.functions,
    Nat.lt_of_le_of_lt h.globalTypes.length_le hc.globals⟩

theorem Grows.denotes (h : m.Grows m') {i : UInt32} {o : Operation} (hi : m.Denotes i o) : m'.Denotes i o := by
  cases o with
  | addType type => exact found_of_prefix h.types hi
  | importFunction module name type =>
    obtain ⟨htype, hlow, _⟩ := hi
    exact ⟨h.functionType htype, Nat.lt_of_lt_of_le hlow h.imported, h.body_imported hlow⟩
  | importGlobal module name type => exact h.globalType hi
  | addFunction type body => exact ⟨h.functionType hi.1, h.body hi.2⟩
  | addGlobal global => exact h.globalType hi
  | importMemory | importTable | exportFunction | setStart => exact hi

theorem toNat_length {α : Type} {xs : List α} {a : α} (h : (xs ++ [a]).length < 2 ^ 32) :
    xs.length.toUInt32.toNat = xs.length := by
  rw [List.length_append, List.length_singleton] at h
  exact Nat.mod_eq_of_lt (Nat.lt_of_succ_lt h)

theorem getElem?_concat_toNat {α : Type} {xs : List α} {a : α} (h : (xs ++ [a]).length < 2 ^ 32) :
    (xs ++ [a])[xs.length.toUInt32.toNat]? = some a := by
  rw [toNat_length h, List.getElem?_concat_length]

theorem functionType_concat {m : Module} {types : List FuncType} {indices : List UInt32} {type : FuncType}
    (hc : m.Countable) (ht : m.types = types ++ [type])
    (hf : m.functionTypes = indices ++ [types.length.toUInt32]) :
    m.functionType indices.length.toUInt32 = some type := by
  refine Option.bind_eq_some_iff.2 ⟨types.length.toUInt32, ?_, ?_⟩
  · rw [hf]
    exact getElem?_concat_toNat (hf ▸ hc.functions)
  · rw [ht]
    exact getElem?_concat_toNat (ht ▸ hc.types)

theorem Consistent.denotes_answer (h : m.Consistent) {o : Operation} {i : UInt32}
    (hc : (m.perform o).Countable) (ha : m.answer? o = some i) : (m.perform o).Denotes i o := by
  cases o with
  | addType type =>
    obtain rfl := Option.some.inj ha
    exact getElem?_concat_toNat hc.types
  | importFunction module name type =>
    cases hok : m.importFunction module name type with
    | error e => simp [answer?, hok] at ha
    | ok answer =>
      obtain ⟨next, j⟩ := answer
      obtain ⟨hnil, rfl, rfl⟩ := importFunction_eq_ok.1 hok
      simp only [answer?, hok, Option.some.injEq] at ha
      simp only [Module.perform, hok] at hc ⊢
      subst ha
      have hlow : m.functionTypes.length.toUInt32.toNat <
          (m.functionTypes ++ [m.types.length.toUInt32]).length - m.functions.length := by
        have hle : m.functionTypes.length.toUInt32.toNat ≤ m.functionTypes.length := Nat.mod_le _ _
        simp only [hnil, List.length_append, List.length_singleton, List.length_nil]
        omega
      exact ⟨functionType_concat hc rfl rfl, hlow, if_pos hlow⟩
  | importGlobal module name type =>
    cases hok : m.importGlobal module name type with
    | error e => simp [answer?, hok] at ha
    | ok answer =>
      obtain ⟨next, j⟩ := answer
      obtain ⟨-, rfl, rfl⟩ := importGlobal_eq_ok.1 hok
      simp only [answer?, hok, Option.some.injEq] at ha
      simp only [Module.perform, hok] at hc ⊢
      subst ha
      exact getElem?_concat_toNat hc.globals
  | addFunction type body =>
    obtain rfl := Option.some.inj ha
    have hat : (m.addFunction type body).2.toNat = m.importedFunctionCount + m.functions.length :=
      (toNat_length hc.functions).trans h.functionCount.symm
    refine ⟨functionType_concat hc rfl rfl, body_eq_some.2 ?_⟩
    simp only [Module.perform, importedFunctionCount_addFunction, hat, Nat.add_sub_cancel_left]
    exact ⟨Nat.le_add_right .., _, List.getElem?_concat_length, rfl⟩
  | addGlobal global =>
    obtain rfl := Option.some.inj ha
    exact getElem?_concat_toNat hc.globals
  | importMemory | importTable | exportFunction | setStart => cases ha

theorem built_append (name : Option String) (operations later : List Operation) :
    built name (operations ++ later) = later.foldl Module.perform (built name operations) :=
  List.foldl_append

/-- The index spaces of a module: the imports in their order and then the definitions in theirs, with a type
for every function, a body for every defined one, and no trace of an import that was refused. -/
structure Spaces (m : Module) : Prop extends m.Consistent where
  imported : m.importedFunctionCount = (m.imports.filterMap Import.functionType?).length
  total : m.importedFunctionCount + m.functions.length = m.functionCount
  body_none : ∀ i, m.body i = none ↔ i.toNat < m.importedFunctionCount ∨ m.functionCount ≤ i.toNat
  refusedFunction : ∀ module name type e, m.importFunction module name type = .error e →
    e = .importAfterFunction module name ∧ m.perform (.importFunction module name type) = m
  refusedGlobal : ∀ module name type e, m.importGlobal module name type = .error e →
    e = .importAfterGlobal module name ∧ m.perform (.importGlobal module name type) = m

theorem Consistent.spaces (h : m.Consistent) : m.Spaces where
  toConsistent := h
  imported := h.importedFunctionCount
  total := h.functionCount
  body_none _ := h.body_eq_none
  refusedFunction _ _ _ _ he := ⟨(importFunction_eq_error.1 he).2, by simp only [Module.perform, he]⟩
  refusedGlobal _ _ _ _ he := ⟨(importGlobal_eq_error.1 he).2, by simp only [Module.perform, he]⟩

/-- Whatever is asked of a module, its index spaces are in order, and a number that was given out goes on to
stand for what it was given out for. -/
theorem built_index_spaces (name : Option String) (operations : List Operation) :
    (built name operations).Spaces ∧
      ∀ o i later, (built name operations).answer? o = some i →
        (built name (operations ++ o :: later)).Countable →
        (built name (operations ++ o :: later)).Denotes i o := by
  have h := built_consistent name operations
  refine ⟨h.spaces, fun o i later ha hc => ?_⟩
  rw [built_append, List.foldl_cons] at hc ⊢
  have hgrows := Grows.run ((built name operations).perform o) later
  exact hgrows.denotes (h.denotes_answer (hgrows.countable hc) ha)

theorem built_index_spaces_lateImport :
    (built none [.importMemory "env" "m" { min := 1 }, .importFunction "env" "f" ⟨[.i32], []⟩]).answer?
      (.addFunction ⟨[], [.i32]⟩ ⟨[], [0x41, 0, 0x0B]⟩) = some 1 ∧
    (built none [.importMemory "env" "m" { min := 1 }, .importFunction "env" "f" ⟨[.i32], []⟩,
      .addFunction ⟨[], [.i32]⟩ ⟨[], [0x41, 0, 0x0B]⟩, .importFunction "env" "g" {},
      .importGlobal "env" "x" ⟨.i64, false⟩, .addGlobal ⟨⟨.i32, true⟩, .i32 7⟩, .addFunction {} {},
      .importGlobal "env" "y" ⟨.i32, true⟩]).Denotes 1 (.addFunction ⟨[], [.i32]⟩ ⟨[], [0x41, 0, 0x0B]⟩) := by
  have hanswer : (built none [.importMemory "env" "m" { min := 1 },
      .importFunction "env" "f" ⟨[.i32], []⟩]).answer?
      (.addFunction ⟨[], [.i32]⟩ ⟨[], [0x41, 0, 0x0B]⟩) = some 1 := rfl
  refine ⟨hanswer, (built_index_spaces _ _).2 _ _ [.importFunction "env" "g" {},
    .importGlobal "env" "x" ⟨.i64, false⟩, .addGlobal ⟨⟨.i32, true⟩, .i32 7⟩, .addFunction {} {},
    .importGlobal "env" "y" ⟨.i32, true⟩] hanswer ?_⟩
  exact ⟨by decide, by decide, by decide⟩

end ImpWasm.Wasm.Module
