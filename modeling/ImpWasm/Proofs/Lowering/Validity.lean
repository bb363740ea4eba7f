import ImpWasm.Compile
import ImpWasm.Proofs.Lowering.WellTyped
set_option autoImplicit false

/-!
The module made from an accepted program validates. The invariant of the lowering says which
signatures the module's functions have so far; it is carried through the program along the steps of
the checker.
-/
namespace ImpWasm

open Wasm (Instr ValType FuncType WellTyped Context)

def FunctionTable.imports (t : FunctionTable) : List Signature := t.signatures.filter (·.isImported)

def FunctionTable.defined (t : FunctionTable) : List Signature := t.signatures.filter (! ·.isImported)

theorem FunctionTable.perm_signatures (t : FunctionTable) : (t.imports ++ t.defined).Perm t.signatures :=
  List.filter_append_perm Signature.isImported t.signatures

namespace Lowering

/-- A module under construction whose functions have the signatures `done`. Its bodies and the code of
the start function are good wherever the indices given so far are. -/
structure Valid (t : FunctionTable) (done : List Signature) (st : Lowering) : Prop where
  types : st.module.types = done.map Signature.lowered
  functionTypes : st.module.functionTypes = (List.range done.length).map Nat.toUInt32
  bodies : ∀ f ∈ st.module.functions, ∃ (k : Nat) (s : Signature),
    done[k]? = some s ∧ f.typeIndex = k.toUInt32 ∧
    ∀ ctx : Context, st.indices.Sound t ctx →
      ctx.locals = List.replicate s.arity .i32 ++ f.body.locals →
      Wasm.validateBody ctx [.i32] f.body.code = .ok ()
  globalTypes : st.module.globalTypes = List.replicate st.module.globalTypes.length ⟨.i32, true⟩
  globals : ∀ p ∈ st.indices.globals, p.2.toNat < st.module.globalTypes.length
  exports : ∀ e ∈ st.module.exports, e.function.toNat < done.length
  exportNames : (st.module.exports.map Wasm.Export.name).Sublist (done.map Signature.name)
  start : st.module.start = none
  startLocals : st.startLocals.Sound
  noParams : st.startLocals.paramCount = 0
  startCode : ∀ (ctx : Context) (labels : List (List ValType)) (n : Nat), st.indices.Sound t ctx →
    ctx.locals = List.replicate n .i32 → st.startLocals.count ≤ n →
    WellTyped ctx [] labels st.startCode [] []

variable {t : FunctionTable} {done : List Signature} {st st' : Lowering} {options : LowerOptions}

def Finds (done : List Signature) (ix : Indices) : Prop :=
  ∀ p ∈ ix.functions, ∃ (k : Nat) (s : Signature), done[k]? = some s ∧ p = (s.name, k.toUInt32)

/-- A module that has functions with the signatures `done`, all imported, and nothing else yet. -/
structure Fresh (importModule : String) (done : List Signature) (st : Lowering) : Prop where
  types : st.module.types = done.map Signature.lowered
  functionTypes : st.module.functionTypes = (List.range done.length).map Nat.toUInt32
  imports : st.module.imports = done.mapIdx fun k s => ⟨importModule, s.name, .function k.toUInt32⟩
  functions : st.module.functions = []
  globals : st.module.globals = [] ∧ st.module.globalTypes = [] ∧ st.indices.globals = []
  exports : st.module.exports = []
  start : st.module.start = none
  startCode : st.startCode = [] ∧ st.startLocals = {}

theorem fresh_start (name : Option String) : Fresh options.importModule [] { module := { name } } :=
  ⟨rfl, rfl, rfl, rfl, ⟨rfl, rfl, rfl⟩, rfl, rfl, ⟨rfl, rfl⟩⟩

theorem Fresh.importFunction {s : Signature} (hf : Fresh options.importModule done st)
    (hx : Finds done st.indices) (h : importFunction options st s = .ok st') :
    Fresh options.importModule (done ++ [s]) st' ∧ Finds (done ++ [s]) st'.indices := by
  obtain ⟨_, rfl⟩ := importFunction_ok h
  have hlen : st.module.types.length = done.length := by simp [hf.types]
  have hlen' : st.module.functionTypes.length = done.length := by simp [hf.functionTypes]
  refine ⟨⟨by simp [hf.types], ?_, ?_, hf.functions, hf.globals, hf.exports, hf.start, hf.startCode⟩, ?_⟩
  · simp [hlen, hf.functionTypes, List.range_succ]
  · simp [hlen, hf.imports, List.mapIdx_concat]
  · intro p hp
    cases List.mem_cons.1 hp with
    | inl hp => exact ⟨done.length, s, by simp, by rw [hp, hlen']⟩
    | inr hp =>
      obtain ⟨k, s', hk, rfl⟩ := hx p hp
      exact ⟨k, s', getElem?_append_of_some hk [s], rfl⟩

theorem Fresh.importAll {sigs : List Signature} (hf : Fresh options.importModule done st)
    (hx : Finds done st.indices) (h : sigs.foldlM (Lowering.importFunction options) st = .ok st') :
    Fresh options.importModule (done ++ sigs) st' ∧ Finds (done ++ sigs) st'.indices := by
  induction sigs generalizing done st with
  | nil =>
    cases h
    simpa using ⟨hf, hx⟩
  | cons s sigs ih =>
    rw [List.foldlM_cons] at h
    obtain ⟨mid, hm, h⟩ := bind_eq_ok.1 h
    obtain ⟨hf', hx'⟩ := hf.importFunction hx hm
    simpa using ih hf' hx' h

theorem Fresh.valid {importModule : String} (hf : Fresh importModule done st) : Valid t done st where
  types := hf.types
  functionTypes := hf.functionTypes
  bodies := by simp [hf.functions]
  globalTypes := by simp [hf.globals.2.1]
  globals := by simp [hf.globals.2.2]
  exports := by simp [hf.exports]
  exportNames := by simp [hf.exports]
  start := hf.start
  startLocals := hf.startCode.2 ▸ Locals.sound_empty
  noParams := by rw [hf.startCode.2]
  startCode ctx labels n _ _ _ := hf.startCode.1 ▸ .nil []

theorem Valid.defineFunction {s : Signature} {b : Wasm.Body} (hv : Valid t done st)
    (hb : ∀ ctx : Context, st.indices.Sound t ctx →
      ctx.locals = List.replicate s.arity .i32 ++ b.locals → Wasm.validateBody ctx [.i32] b.code = .ok ()) :
    Valid t (done ++ [s]) { st with module := (st.module.addFunction s.lowered b).1 } := by
  have hlen : st.module.types.length = done.length := by simp [hv.types]
  refine { hv with
    types := ?types, functionTypes := ?functionTypes, bodies := ?bodies, exports := ?exports
    exportNames := ?exportNames }
  case types => simp [Wasm.Module.addFunction, Wasm.Module.addType, hv.types]
  case functionTypes =>
    simp [Wasm.Module.addFunction, Wasm.Module.addType, hv.functionTypes, hlen, List.range_succ]
  case bodies =>
    intro f hf
    cases List.mem_append.1 hf with
    | inl hf =>
      obtain ⟨k, s', hk, hi, hbody⟩ := hv.bodies f hf
      exact ⟨k, s', getElem?_append_of_some hk [s], hi, hbody⟩
    | inr hf =>
      rw [List.mem_singleton.1 hf]
      exact ⟨done.length, s, by simp, by rw [← hlen], hb⟩
  case exports =>
    intro e he
    have := hv.exports e he
    simp only [List.length_append, List.length_singleton]
    omega
  case exportNames =>
    rw [List.map_append]
    exact hv.exportNames.trans (List.sublist_append_left _ _)

theorem Valid.addFunction {name : String} {params : List Typed.Param} {body : List Typed.Stmt} {span : Span}
    {s : Signature} (hv : Valid t done st) (hs : t.get? name = some s) (hp : params.length = s.arity)
    (hl : Typed.Stmt.AllLinked t body) (h : st.addFunction options t name params body span = .ok st') :
    Valid t (done ++ [s]) st' ∧ st'.indices = st.indices := by
  obtain ⟨s', b, hs', hb, rfl⟩ := addFunction_ok h
  obtain rfl := Option.some.inj (hs.symm.trans hs')
  have hdef := hv.defineFunction (s := s) (b := b) fun ctx hix hc => Typed.lowerBody_valid hb hl hix (hp ▸ hc)
  have hlen : st.module.functionTypes.length = done.length := by simp [hv.functionTypes]
  refine ⟨?_, rfl⟩
  split
  · refine { hdef with exports := ?_, exportNames := ?_ }
    · intro e he
      cases List.mem_append.1 he with
      | inl he => exact hdef.exports e he
      | inr he =>
        rw [List.mem_singleton.1 he]
        have := toNat_toUInt32_le st.module.functionTypes.length
        simp only [Wasm.Module.addFunction, Wasm.Module.addType, List.length_append, List.length_singleton]
        omega
    · have hname : s.name = name := FunctionTable.name_of_get? hs
      simpa [Wasm.Module.exportFunction, Wasm.Module.addFunction, Wasm.Module.addType, hname] using
        hv.exportNames
  · exact hdef

/-- Good indices stay good when some of them are forgotten. -/
theorem sound_of_cons {ix : Indices} {ctx : Context} {p : Nat × UInt32}
    (h : ({ ix with globals := p :: ix.globals } : Indices).Sound t ctx) :
    ix.Sound t ctx ∧ ctx.globalType p.2 = some ⟨.i32, true⟩ :=
  ⟨⟨h.functions, fun q hq => h.globals q (List.mem_cons_of_mem _ hq)⟩, h.globals p (List.mem_cons_self ..)⟩

theorem Valid.addGlobal {name : Typed.Ident} {type : PrimType} {init : Option Typed.Expr} {span : Span}
    (hv : Valid t done st) (hl : ∀ e ∈ init, e.Linked t) (h : st.addGlobal name type init span = .ok st') :
    Valid t done st' ∧ st'.indices.functions = st.indices.functions := by
  obtain ⟨v, code, hcode, rfl⟩ := addGlobal_ok h
  refine ⟨{ hv with
    bodies := ?bodies, globalTypes := ?globalTypes, globals := ?globals, startCode := ?startCode }, rfl⟩
  case bodies =>
    intro f hf
    obtain ⟨k, s, hk, hi, hbody⟩ := hv.bodies f hf
    exact ⟨k, s, hk, hi, fun ctx hix => hbody ctx (sound_of_cons hix).1⟩
  case globalTypes =>
    simp only [Wasm.Module.addGlobal, List.length_append, List.length_singleton, List.replicate_succ']
    rw [← hv.globalTypes]
  case globals =>
    intro p hp
    simp only [Wasm.Module.addGlobal, List.length_append, List.length_singleton]
    cases List.mem_cons.1 hp with
    | inl hp =>
      rw [hp]
      exact Nat.lt_succ_of_le (toNat_toUInt32_le _)
    | inr hp => exact Nat.lt_succ_of_lt (hv.globals p hp)
  case startCode =>
    intro ctx labels n hix hc hn
    obtain ⟨hold, hglobal⟩ := sound_of_cons hix
    refine (hv.startCode ctx labels n hold hc hn).append ?_
    obtain ⟨_, rfl⟩ | ⟨_, _, is, his, rfl⟩ := hcode
    · exact .nil []
    · exact (Typed.lowerInit_wellTyped his hl hold (hv.startLocals.holds hn hc)).append
        (.plain rfl (.globalSet hglobal rfl))

theorem Valid.addCode {s : Typed.Stmt} {code : List Instr} {l : Locals} (hv : Valid t done st)
    (hl : s.Linked t) (h : s.lower st.indices st.startLocals = .ok (code, l)) :
    Valid t done { st with startCode := st.startCode ++ code, startLocals := l } := by
  obtain ⟨hsound, hext⟩ := Typed.Stmt.lower_locals h hv.startLocals
  refine { hv with
    startLocals := hsound, noParams := hext.paramCount.trans hv.noParams, startCode := ?startCode }
  intro ctx labels n hix hc hn
  exact (hv.startCode ctx labels n hix hc (Nat.le_trans hext.count_le hn)).append
    (Typed.Stmt.lower_wellTyped h hv.startLocals hl hix hc hn (.inr rfl))

theorem defined_of_imported {c c' : Checker} {added : List Signature} (h : c.Registers added c')
    (hi : ∀ r ∈ added, r.isImported = true) : c'.functions.defined = c.functions.defined := by
  have hn : added.filter (! ·.isImported) = [] := List.filter_eq_nil_iff.2 fun r hr => by simp [hi r hr]
  rw [FunctionTable.defined, h.signatures, List.filter_append, hn, List.append_nil]
  rfl

theorem defined_of_function {c c' : Checker} {s : Signature} {rest : List Signature}
    (h : c.Registers (s :: rest) c') (hs : s.isImported = false) (hi : ∀ r ∈ rest, r.isImported = true) :
    c'.functions.defined = c.functions.defined ++ [s] := by
  have hn : rest.filter (! ·.isImported) = [] := List.filter_eq_nil_iff.2 fun r hr => by simp [hi r hr]
  rw [FunctionTable.defined, h.signatures, List.filter_append, List.filter_cons_of_pos (by simp [hs]), hn]
  rfl

theorem Valid.step {c c' : Checker} {s : Typed.Stmt} (hv : Valid t (t.imports ++ c.functions.defined) st)
    (hs : c.Step s c') (hw : c'.functions.Within t) (hd : c'.functions.names.Nodup)
    (h : addStmt options t st s = .ok st') :
    Valid t (t.imports ++ c'.functions.defined) st' ∧ st'.indices.functions = st.indices.functions := by
  obtain ⟨added, hadd, hadds⟩ := hs.adds
  have hl := hs.linked.grow hw
  cases s with
  | function name params result body bodySpan span =>
    obtain ⟨sig, rest, rfl, himp, rfl, hparams, _, hrest⟩ := hadds
    have hmem : sig ∈ c'.functions.signatures := by simp [hadd.signatures]
    have hlen : params.length = sig.arity := by
      rw [Signature.arity, hparams, List.length_map]
    obtain ⟨hv', hix⟩ := hv.addFunction (hw _ _ (FunctionTable.get?_of_mem hd hmem)) hlen hl h
    rw [defined_of_function hadd himp hrest, ← List.append_assoc]
    exact ⟨hv', by rw [hix]⟩
  | imported name params result span =>
    cases h
    rw [defined_of_imported hadd hadds]
    exact ⟨hv, rfl⟩
  | var name type init span =>
    rw [defined_of_imported hadd hadds]
    exact hv.addGlobal hl h
  | _ =>
    obtain ⟨⟨code, l⟩, hc, h⟩ := bind_eq_ok.1 h
    cases pure_eq_ok.1 h
    rw [defined_of_imported hadd hadds]
    exact ⟨hv.addCode hl hc, rfl⟩

theorem Valid.run {c c' : Checker} {ss : List Typed.Stmt} (hss : c.Steps ss c')
    (hd : c'.functions.names.Nodup) (hv : Valid c'.functions (c'.functions.imports ++ c.functions.defined) st)
    (h : ss.foldlM (addStmt options c'.functions) st = .ok st') :
    Valid c'.functions (c'.functions.imports ++ c'.functions.defined) st' ∧
      st'.indices.functions = st.indices.functions := by
  induction hss generalizing st with
  | nil c =>
    cases h
    exact ⟨hv, rfl⟩
  | @cons c mid c' s ss head tail ih =>
    rw [List.foldlM_cons] at h
    obtain ⟨st₁, h₁, h⟩ := bind_eq_ok.1 h
    obtain ⟨added, ha⟩ := tail.registers
    obtain ⟨hv₁, hi₁⟩ := hv.step head ha.within (tail.names_nodup hd) h₁
    obtain ⟨hv', hi'⟩ := ih hd hv₁ h
    exact ⟨hv', hi'.trans hi₁⟩

theorem declareFunctions_fresh {name : Option String}
    (h : declareFunctions options t { module := { name } } = .ok st) :
    Fresh options.importModule t.imports st ∧ Finds (t.imports ++ t.defined) st.indices := by
  obtain ⟨mid, hm, rfl⟩ := declareFunctions_ok h
  obtain ⟨hf, hx⟩ := (fresh_start name).importAll (by simp [Finds]) hm
  rw [List.nil_append] at hf hx
  refine ⟨{ hf with }, ?_⟩
  intro p hp
  cases List.mem_append.1 hp with
  | inl hp =>
    obtain ⟨i, hi, rfl⟩ := List.mem_mapIdx.1 hp
    have hlen : mid.module.functionCount = t.imports.length := by
      simp [Wasm.Module.functionCount, hf.functionTypes, FunctionTable.imports]
    rw [List.length_map] at hi
    refine ⟨t.imports.length + i, t.defined.get ⟨i, hi⟩, ?_, by simp [hlen, FunctionTable.defined]⟩
    rw [List.getElem?_append_right (Nat.le_add_right _ _)]
    simp
  | inr hp =>
    obtain ⟨k, s, hk, rfl⟩ := hx p hp
    exact ⟨k, s, getElem?_append_of_some hk t.defined, rfl⟩

end Lowering

theorem Typed.Program.lower_ok {typed : Typed.Program} {options : LowerOptions} {m : Wasm.Module}
    (h : typed.lower options = .ok m) :
    ∃ st st', Lowering.declareFunctions options typed.functions { module := { name := options.moduleName } } =
        .ok st ∧
      typed.body.foldlM (Lowering.addStmt options typed.functions) st = .ok st' ∧ m = st'.finish := by
  obtain ⟨st, hst, h⟩ := bind_eq_ok.1 h
  obtain ⟨st', hst', h⟩ := bind_eq_ok.1 h
  exact ⟨st, st', hst, hst', (pure_eq_ok.1 h).symm⟩

theorem Program.lower_valid {p : Program} {typed : Typed.Program} {options : LowerOptions} {m : Wasm.Module}
    (hp : p.check = .ok typed) (h : typed.lower options = .ok m) :
    ∃ st, m = Lowering.finish st ∧
      Lowering.Valid typed.functions (typed.functions.imports ++ typed.functions.defined) st ∧
      Lowering.Finds (typed.functions.imports ++ typed.functions.defined) st.indices := by
  obtain ⟨st, st', hst, hst', rfl⟩ := Typed.Program.lower_ok h
  obtain ⟨c, hc, hf⟩ := check_steps hp
  have hd := hf ▸ check_names_nodup hp
  obtain ⟨hfresh, hfind⟩ := Lowering.declareFunctions_fresh hst
  rw [← hf] at hst' hfresh hfind ⊢
  obtain ⟨hv', hi⟩ := Lowering.Valid.run hc hd (by simpa [FunctionTable.defined] using hfresh.valid) hst'
  exact ⟨st', rfl, hv', by simpa [Lowering.Finds, hi] using hfind⟩

namespace Wasm.Module

variable {m : Module}

theorem validateFunctions_ok {fs : List Function}
    (h : ∀ f ∈ fs, ∃ type, m.types[f.typeIndex.toNat]? = some type ∧
      validateBody (m.context type f.body.locals) type.results f.body.code = .ok ())
    (index : Nat) : m.validateFunctions index fs = .ok () := by
  induction fs generalizing index with
  | nil => rfl
  | cons f fs ih =>
    obtain ⟨type, ht, hb⟩ := h f (List.mem_cons_self ..)
    simp only [validateFunctions, ht, Option.getD_some, hb]
    exact ih (fun g hg => h g (List.mem_cons_of_mem _ hg)) (index + 1)

/-- A module with nothing to find fault with. -/
structure WellFormed (m : Module) : Prop where
  bodies : ∀ f ∈ m.functions, ∃ type, m.types[f.typeIndex.toNat]? = some type ∧
    validateBody (m.context type f.body.locals) type.results f.body.code = .ok ()
  exportNames : (m.exports.map Export.name).Nodup
  exports : ∀ e ∈ m.exports, e.function.toNat < m.functionCount
  start : ∀ i ∈ m.start, i.toNat < m.functionCount ∧ m.functionType i = some {}

theorem WellFormed.validate_ok (h : m.WellFormed) : m.validate = .ok () := by
  have hexports : ∀ es : List Export, (∀ e ∈ es, e.function.toNat < m.functionCount) →
      es.forM (fun e => m.checkIndex e.function) = .ok () := by
    intro es
    induction es with
    | nil =>
      intro _
      rfl
    | cons e es ih =>
      intro hes
      have hi : m.checkIndex e.function = .ok () := if_pos (hes e (List.mem_cons_self ..))
      have hrest := ih fun e' he' => hes e' (List.mem_cons_of_mem _ he')
      exact bind_eq_ok.2 ⟨(), hi, hrest⟩
  have hstart : m.checkStart = .ok () := by
    unfold checkStart
    cases hst : m.start with
    | none => rfl
    | some i =>
      obtain ⟨hlt, ht⟩ := h.start i hst
      exact bind_eq_ok.2 ⟨(), if_pos hlt, by simp [ht]⟩
  exact bind_eq_ok.2 ⟨(), validateFunctions_ok h.bodies _,
    bind_eq_ok.2 ⟨(), hexports _ h.exports, hstart⟩⟩

theorem functionType_of_range {n k : Nat} {type : FuncType}
    (hf : m.functionTypes = (List.range n).map Nat.toUInt32) (hn : k < 2 ^ 32) (hk : k < n)
    (ht : m.types[k]? = some type) : m.functionType k.toUInt32 = some type := by
  simp [functionType, toNat_toUInt32_of_lt hn, hf, List.getElem?_range hk, ht]

end Wasm.Module

namespace Lowering

theorem Valid.sound {t : FunctionTable} {st : Lowering} {ctx : Context}
    (hv : Valid t (t.imports ++ t.defined) st) (hfind : Finds (t.imports ++ t.defined) st.indices)
    (hd : t.names.Nodup)
    (hf : ∀ (k : Nat) (s : Signature), (t.imports ++ t.defined)[k]? = some s →
      ctx.functionType k.toUInt32 = some s.lowered)
    (hg : ∀ i, i.toNat < st.module.globalTypes.length → ctx.globalType i = some ⟨.i32, true⟩) :
    st.indices.Sound t ctx := by
  refine ⟨?_, fun p hp => hg p.2 (hv.globals p hp)⟩
  intro name s i hs hi
  obtain ⟨k, s', hk, he⟩ := hfind _ (mem_of_lookup hi)
  obtain ⟨rfl, rfl⟩ := Prod.mk.inj he
  have hmem : s' ∈ t.signatures := by
    cases List.mem_append.1 (List.mem_of_getElem? hk) with
    | inl h => exact (List.mem_filter.1 h).1
    | inr h => exact (List.mem_filter.1 h).1
  obtain rfl := Option.some.inj (hs.symm.trans (FunctionTable.get?_of_mem hd hmem))
  exact hf k s hk

variable {t : FunctionTable} {st : Lowering}

theorem finish_of_nil (h : st.startCode = []) : st.finish = st.module := by simp [finish, h]

theorem finish_of_ne_nil (h : st.startCode ≠ []) :
    st.finish = { st.module with
      types := st.module.types ++ [{}]
      functions := st.module.functions ++
        [⟨st.module.types.length.toUInt32, .ofInstrs st.startLocals.declared (st.startCode ++ [.end_])⟩]
      functionTypes := st.module.functionTypes ++ [st.module.types.length.toUInt32]
      start := some st.module.functionTypes.length.toUInt32 } := by
  simp [finish, h, Wasm.Module.addFunction, Wasm.Module.addType, Wasm.Module.setStart]

/-- What the finished module has in common with the module before its start function. -/
theorem Valid.finish_keeps {done : List Signature} (hv : Valid t done st) :
    ∃ n, done.length ≤ n ∧ st.finish.functionTypes = (List.range n).map Nat.toUInt32 ∧
      (∀ (k : Nat) (s : Signature), done[k]? = some s → st.finish.types[k]? = some s.lowered) ∧
      st.finish.globalTypes = st.module.globalTypes ∧ st.finish.exports = st.module.exports := by
  have htypes : ∀ (k : Nat) (s : Signature), done[k]? = some s → st.module.types[k]? = some s.lowered := by
    intro k s hk
    simp [hv.types, hk]
  by_cases hc : st.startCode = []
  · rw [finish_of_nil hc]
    exact ⟨done.length, Nat.le_refl _, hv.functionTypes, htypes, rfl, rfl⟩
  · rw [finish_of_ne_nil hc]
    refine ⟨done.length + 1, Nat.le_succ _, ?_, ?_, rfl, rfl⟩
    · simp [hv.functionTypes, hv.types, List.range_succ]
    · intro k s hk
      exact getElem?_append_of_some (htypes k s hk) [{}]

theorem Valid.finish_count {done : List Signature} (hv : Valid t done st) :
    st.finish.functionCount ≤ done.length + 1 := by
  have hlen : st.module.functionTypes.length = done.length := by simp [hv.functionTypes]
  unfold Wasm.Module.functionCount
  by_cases hc : st.startCode = []
  · rw [finish_of_nil hc, hlen]
    exact Nat.le_succ _
  · rw [finish_of_ne_nil hc, List.length_append, hlen]
    exact Nat.le_refl _

section Finish

variable (hv : Valid t (t.imports ++ t.defined) st) (hfind : Finds (t.imports ++ t.defined) st.indices)
  (hd : t.names.Nodup) (hn : st.finish.functionCount < 2 ^ 32)
include hv hfind hd hn

theorem Valid.finish_sound (type : FuncType) (locals : List ValType) :
    st.indices.Sound t (st.finish.context type locals) := by
  obtain ⟨n, hle, hft, htypes, hglobals, _⟩ := hv.finish_keeps
  have hn : n < 2 ^ 32 := by simpa [Wasm.Module.functionCount, hft] using hn
  refine hv.sound hfind hd ?_ ?_
  · intro k s hk
    have hlt : k < n := Nat.lt_of_lt_of_le (List.getElem?_eq_some_iff.1 hk).1 hle
    exact Wasm.Module.functionType_of_range hft (Nat.lt_trans hlt hn) hlt (htypes k s hk)
  · intro i hi
    change st.finish.globalTypes[i.toNat]? = _
    rw [hglobals, hv.globalTypes, List.getElem?_replicate_of_lt hi]

theorem Valid.finish_defined {f : Wasm.Function} (hf : f ∈ st.module.functions) :
    ∃ type, st.finish.types[f.typeIndex.toNat]? = some type ∧
      Wasm.validateBody (st.finish.context type f.body.locals) type.results f.body.code = .ok () := by
  obtain ⟨n, hle, hft, htypes, _, _⟩ := hv.finish_keeps
  have hn' : n < 2 ^ 32 := by simpa [Wasm.Module.functionCount, hft] using hn
  obtain ⟨k, s, hk, hi, hbody⟩ := hv.bodies f hf
  have hlt : k < n := Nat.lt_of_lt_of_le (List.getElem?_eq_some_iff.1 hk).1 hle
  have hki : f.typeIndex.toNat = k := by rw [hi, toNat_toUInt32_of_lt (Nat.lt_trans hlt hn')]
  exact ⟨s.lowered, hki ▸ htypes k s hk, hbody _ (hv.finish_sound hfind hd hn _ _) rfl⟩

theorem Valid.finish_start (hc : st.startCode ≠ []) :
    st.finish.types[st.module.types.length.toUInt32.toNat]? = some {} ∧
      st.finish.functionType st.module.functionTypes.length.toUInt32 = some {} ∧
      st.module.functionTypes.length.toUInt32.toNat < st.finish.functionCount ∧
      Wasm.validateBody (st.finish.context {} st.startLocals.declared) []
        (Instr.encodeAll (st.startCode ++ [.end_])) = .ok () := by
  have hfin := finish_of_ne_nil hc
  have hlen : st.module.types.length = (t.imports ++ t.defined).length := by simp [hv.types]
  have hlen' : st.module.functionTypes.length = (t.imports ++ t.defined).length := by simp [hv.functionTypes]
  have hcount : st.finish.functionCount = (t.imports ++ t.defined).length + 1 := by
    rw [Wasm.Module.functionCount, hfin]
    simp [hv.functionTypes]
  have hft : st.finish.functionTypes =
      (List.range ((t.imports ++ t.defined).length + 1)).map Nat.toUInt32 := by
    rw [hfin]
    simp [hv.functionTypes, hv.types, List.range_succ]
  have htype : st.finish.types[(t.imports ++ t.defined).length]? = some {} := by
    rw [hfin, ← hlen]
    exact List.getElem?_concat_length
  have hnat : (t.imports ++ t.defined).length.toUInt32.toNat = (t.imports ++ t.defined).length :=
    toNat_toUInt32_of_lt (by omega)
  rw [hlen, hlen', hnat]
  refine ⟨htype, ?_, by omega, ?_⟩
  · exact Wasm.Module.functionType_of_range hft (by omega) (Nat.lt_succ_self _) htype
  · refine Wasm.WellTyped.validateBody ?_
    have hlocals : (st.finish.context {} st.startLocals.declared).locals =
        List.replicate st.startLocals.count .i32 := by
      rw [Locals.count, hv.noParams, Nat.zero_add, ← hv.startLocals.declared]
      rfl
    exact hv.startCode _ [[]] _ (hv.finish_sound hfind hd hn _ _) hlocals (Nat.le_refl _)

theorem Valid.finish_bodies : ∀ f ∈ st.finish.functions,
    ∃ type, st.finish.types[f.typeIndex.toNat]? = some type ∧
      Wasm.validateBody (st.finish.context type f.body.locals) type.results f.body.code = .ok () := by
  intro f hf
  by_cases hc : st.startCode = []
  · rw [finish_of_nil hc] at hf
    exact hv.finish_defined hfind hd hn hf
  · obtain ⟨htype, _, _, hbody⟩ := hv.finish_start hfind hd hn hc
    rw [finish_of_ne_nil hc] at hf
    cases List.mem_append.1 hf with
    | inl hf => exact hv.finish_defined hfind hd hn hf
    | inr hf =>
      rw [List.mem_singleton.1 hf]
      exact ⟨{}, htype, hbody⟩

theorem Valid.finish_start_ok :
    ∀ i ∈ st.finish.start, i.toNat < st.finish.functionCount ∧ st.finish.functionType i = some {} := by
  intro i hi
  by_cases hc : st.startCode = []
  · rw [finish_of_nil hc, hv.start] at hi
    cases hi
  · obtain ⟨_, htype, hlt, _⟩ := hv.finish_start hfind hd hn hc
    have hst : st.finish.start = some st.module.functionTypes.length.toUInt32 := by
      rw [finish_of_ne_nil hc]
    obtain rfl := Option.some.inj (hst.symm.trans hi)
    exact ⟨hlt, htype⟩

end Finish

theorem Valid.finish_exports {done : List Signature} (hv : Valid t done st) :
    ∀ e ∈ st.finish.exports, e.function.toNat < st.finish.functionCount := by
  obtain ⟨n, hle, hft, _, _, hexports⟩ := hv.finish_keeps
  intro e he
  have := hv.exports e (hexports ▸ he)
  rw [Wasm.Module.functionCount, hft, List.length_map, List.length_range]
  omega

theorem Valid.finish_exportNames (hv : Valid t (t.imports ++ t.defined) st) (hd : t.names.Nodup) :
    (st.finish.exports.map Wasm.Export.name).Nodup := by
  obtain ⟨_, _, _, _, _, hexports⟩ := hv.finish_keeps
  rw [hexports]
  exact hv.exportNames.nodup ((t.perm_signatures.map Signature.name).nodup_iff.2 hd)

end Lowering

theorem Wasm.Module.finish_of_validate {m : Wasm.Module} (h : m.validate = .ok ()) :
    m.finish = .ok m.encode := bind_eq_ok.2 ⟨(), h, rfl⟩

theorem encodeWith_of_validate {m : Wasm.Module} (h : m.validate = .ok ()) (options : CompileOptions) :
    encodeWith options m = .ok m.encode := by
  unfold encodeWith
  split
  · rw [Wasm.Module.finish_of_validate h]
    rfl
  · rfl

namespace Typed.Program

variable {typed : Typed.Program} {options : CompileOptions}

theorem compile_of_error {e : LowerError} (h : typed.lower options.toLowerOptions = .error e) :
    typed.compile options = .error (.lower e) := by
  rw [compile, h]
  rfl

theorem compile_of_validate {m : Wasm.Module} (h : typed.lower options.toLowerOptions = .ok m)
    (hv : m.validate = .ok ()) : typed.compile options = .ok ⟨m.encode, typed⟩ := by
  rw [compile, h]
  exact bind_eq_ok.2 ⟨m, rfl, bind_eq_ok.2 ⟨m.encode, encodeWith_of_validate hv options, rfl⟩⟩

end Typed.Program

theorem Program.lower_wellFormed {p : Program} {typed : Typed.Program} {options : LowerOptions}
    {m : Wasm.Module} (hp : p.check = .ok typed) (h : typed.lower options = .ok m)
    (hn : m.functionCount < 2 ^ 32) : m.WellFormed := by
  obtain ⟨st, rfl, hv, hfind⟩ := lower_valid hp h
  have hd := check_names_nodup hp
  exact ⟨hv.finish_bodies hfind hd hn, hv.finish_exportNames hd, hv.finish_exports,
    hv.finish_start_ok hfind hd hn⟩

theorem Program.functionCount_lower {p : Program} {typed : Typed.Program} {options : LowerOptions}
    {m : Wasm.Module} (hp : p.check = .ok typed) (h : typed.lower options = .ok m) :
    m.functionCount ≤ typed.functions.size + 1 := by
  obtain ⟨st, rfl, hv, _⟩ := lower_valid hp h
  have hlen := typed.functions.perm_signatures.length_eq
  have hcount := hv.finish_count
  rw [hlen] at hcount
  exact hcount

/-- The module of an accepted program is well formed and validates, whatever the options. So compilation
never fails over the module, and has the same result with validation and without. -/
theorem Program.lowered_validates {p : Program} {typed : Typed.Program} (hp : p.check = .ok typed)
    (options : CompileOptions)
    (hn : ∀ m, typed.lower options.toLowerOptions = .ok m → m.functionCount < 2 ^ 32) :
    (∀ m, typed.lower options.toLowerOptions = .ok m →
      m.validate = .ok () ∧ m.finish = .ok m.encode ∧ m.WellFormed) ∧
    (∀ e, typed.compile options ≠ .error (.module e)) ∧
    ∀ validate, typed.compile { options with validate } = typed.compile options := by
  refine ⟨?_, ?_⟩
  · intro m hm
    have hw := lower_wellFormed hp hm (hn m hm)
    exact ⟨hw.validate_ok, Wasm.Module.finish_of_validate hw.validate_ok, hw⟩
  · cases hm : typed.lower options.toLowerOptions with
    | error e =>
      rw [Typed.Program.compile_of_error hm]
      exact ⟨fun _ => nofun, fun _ => Typed.Program.compile_of_error hm⟩
    | ok m =>
      have hok := (lower_wellFormed hp hm (hn m hm)).validate_ok
      rw [Typed.Program.compile_of_validate hm hok]
      exact ⟨fun _ => nofun, fun _ => Typed.Program.compile_of_validate hm hok⟩

theorem Program.lowered_validates_loop : ∃ p typed m, Program.check p = .ok typed ∧
    typed.lower {} = .ok m ∧ m.functions.length = 1 ∧ m.validate = .ok () ∧
    ∀ validate, typed.compile { validate } = typed.compile {} := by
  have hp : Program.check ⟨[.function ⟨"f", {}⟩ none ⟨.int, {}⟩
        [.while_ (.bool true {}) [.return_ (.int 1 {}) {}] {} {}] {} {}], {}⟩ =
      .ok ⟨[.function "f" [] .int [.while_ (.bool true {}) [.return_ (.int 1 {}) {}] {} {}] {} {}], [],
        ⟨[{ name := "f", result := .int, span := some {} }]⟩, {}⟩ := rfl
  obtain ⟨hvalid, _, hsame⟩ := lowered_validates hp {} fun m hm =>
    Nat.lt_of_le_of_lt (functionCount_lower hp hm) (by decide)
  exact ⟨_, _, _, hp, rfl, rfl, (hvalid _ rfl).1, hsame⟩

end ImpWasm
