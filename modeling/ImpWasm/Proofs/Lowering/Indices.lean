import ImpWasm.Proofs.Lowering.Placement
import ImpWasm.Proofs.Typing.Faithful
set_option autoImplicit false

/-!
Indices are given before there is anything to be found at them: a function has its index from its place
in the table, a variable from the number of variables before it. The main statement says that the
functions and globals of the finished module are where these indices lead.
-/
namespace ImpWasm

namespace Typed

def Stmt.global? : Stmt → Option (Symbol × Wasm.Global)
  | .var name type init _ =>
    some (⟨name.symbol, name.name, type, 0, some name.span⟩, ⟨⟨.i32, true⟩, .i32 ((constant? init).getD 0)⟩)
  | _ => none

theorem Stmt.variable?_eq (s : Stmt) : s.variable? = s.global?.map (·.1.id) := by
  cases s <;> rfl

end Typed

section GlobalScope

variable {c c' : Checker}

end GlobalScope

namespace Lowering

variable {options : LowerOptions} {t : FunctionTable} {first : Nat} {before : List Typed.Stmt}
  {st st' : Lowering}

/-- What the statements before have made: functions, numbered from `first` on in the order of their
declarations, and globals. -/
structure Assigned (options : LowerOptions) (first : Nat) (before : List Typed.Stmt) (st : Lowering) : Prop where
  functions : st.module.functions.length = (before.filterMap Typed.Stmt.function?).length
  functionTypes : st.module.functionTypes.length = first + (before.filterMap Typed.Stmt.function?).length
  exports : st.module.exports =
    if options.exportFunctions then
      (before.filterMap Typed.Stmt.function?).mapIdx fun j f => ⟨f.1, (first + j).toUInt32⟩
    else []
  globals : st.module.globals = (before.filterMap Typed.Stmt.global?).map Prod.snd
  globalTypes : st.module.globalTypes.length = (before.filterMap Typed.Stmt.global?).length
  indices : st.indices.globals =
    ((before.filterMap Typed.Stmt.global?).mapIdx fun k g => (g.1.id, k.toUInt32)).reverse

theorem Assigned.fresh {importModule : String} {done : List Signature} (h : Fresh importModule done st) :
    Assigned options done.length [] st where
  functions := by simp [h.functions]
  functionTypes := by simp [h.functionTypes]
  exports := by simp [h.exports]
  globals := by simp [h.globals.1]
  globalTypes := by simp [h.globals.2.1]
  indices := by simp [h.globals.2.2]

theorem addFunction_exports {name : String} {params : List Typed.Param} {body : List Typed.Stmt} {span : Span}
    (h : st.addFunction options t name params body span = .ok st') :
    st'.module.functionTypes.length = st.module.functionTypes.length + 1 ∧
      st'.module.exports = st.module.exports ++
        if options.exportFunctions then [⟨name, st.module.functionTypes.length.toUInt32⟩] else [] := by
  obtain ⟨s, b, _, _, rfl⟩ := addFunction_ok h
  cases options.exportFunctions with
  | false => exact ⟨List.length_append, (List.append_nil _).symm⟩
  | true => exact ⟨List.length_append, rfl⟩

theorem Assigned.addFunction {name : String} {params : List Typed.Param} {result : PrimType}
    {body : List Typed.Stmt} {bodySpan span : Span} (h : Assigned options first before st)
    (ha : st.addFunction options t name params body span = .ok st') :
    Assigned options first (before ++ [.function name params result body bodySpan span]) st' := by
  obtain ⟨i, b, _, hf, hg, hgt, _, hix, _, _⟩ := addFunction_adds ha
  obtain ⟨hft, hexports⟩ := addFunction_exports ha
  have hfs := Reached.filterMap_concat Typed.Stmt.function? before (.function name params result body bodySpan span)
  have hgs := Reached.filterMap_concat_none (f := Typed.Stmt.global?)
    (x := .function name params result body bodySpan span) rfl before
  constructor
  case functions =>
    rw [hf, hfs, List.length_append, List.length_append, h.functions]
    rfl
  case functionTypes =>
    rw [hft, hfs, List.length_append, h.functionTypes]
    rfl
  case exports =>
    rw [hexports, hfs, h.exports, h.functionTypes]
    cases options.exportFunctions with
    | false => rfl
    | true => simp [Typed.Stmt.function?, List.mapIdx_concat]
  case globals => rw [hg, hgs, h.globals]
  case globalTypes => rw [hgt, hgs, h.globalTypes]
  case indices => rw [hix, hgs, h.indices]

theorem Assigned.addGlobal {name : Typed.Ident} {type : PrimType} {init : Option Typed.Expr} {span : Span}
    (h : Assigned options first before st) (ha : st.addGlobal name type init span = .ok st') :
    Assigned options first (before ++ [.var name type init span]) st' := by
  obtain ⟨v, code, hcode, rfl⟩ := addGlobal_ok ha
  have hinit : (Typed.constant? init).getD 0 = v := by
    obtain ⟨hc, _⟩ | ⟨hc, rfl, _⟩ := hcode <;> simp [hc]
  have hfs := Reached.filterMap_concat_none (f := Typed.Stmt.function?) (x := .var name type init span) rfl before
  have hgs := Reached.filterMap_concat Typed.Stmt.global? before (.var name type init span)
  constructor
  case functions =>
    rw [hfs]
    exact h.functions
  case functionTypes =>
    rw [hfs]
    exact h.functionTypes
  case exports =>
    rw [hfs]
    exact h.exports
  case globals => simp [hgs, Wasm.Module.addGlobal, h.globals, Typed.Stmt.global?, hinit]
  case globalTypes => simp [hgs, Wasm.Module.addGlobal, h.globalTypes, Typed.Stmt.global?]
  case indices => simp [hgs, h.indices, h.globalTypes, Typed.Stmt.global?, List.mapIdx_concat]

theorem Assigned.step {s : Typed.Stmt} (h : Assigned options first before st)
    (ha : addStmt options t st s = .ok st') : Assigned options first (before ++ [s]) st' := by
  obtain ⟨name, params, result, body, bodySpan, span, rfl, ha⟩ | ⟨name, type, init, span, rfl, ha⟩ |
    ⟨hf, _, hv, code, l, _, rfl⟩ := addStmt_ok ha
  · exact h.addFunction ha
  · exact h.addGlobal ha
  · have hg : s.global? = none := Option.map_eq_none_iff.1 (s.variable?_eq ▸ hv)
    have hfs := Reached.filterMap_concat_none hf before
    have hgs := Reached.filterMap_concat_none hg before
    exact ⟨hfs ▸ h.functions, hfs ▸ h.functionTypes, hfs ▸ h.exports, hgs ▸ h.globals, hgs ▸ h.globalTypes,
      hgs ▸ h.indices⟩

theorem Assigned.run {ss : List Typed.Stmt} (h : Assigned options first before st)
    (ha : ss.foldlM (addStmt options t) st = .ok st') : Assigned options first (before ++ ss) st' := by
  induction ss generalizing before st with
  | nil =>
    cases ha
    simpa using h
  | cons s ss ih =>
    rw [List.foldlM_cons] at ha
    obtain ⟨mid, hm, ha⟩ := bind_eq_ok.1 ha
    simpa using ih (h.step hm) ha

theorem Assigned.ofRun {name : Option String} (hst : declareFunctions options t { module := { name } } = .ok st)
    (ha : before.foldlM (addStmt options t) st = .ok st') :
    Assigned options t.imports.length before st' :=
  (Assigned.fresh (declareFunctions_fresh hst).1).run ha

theorem importAll_recorded {sigs : List Signature}
    (h : sigs.foldlM (Lowering.importFunction options) st = .ok st') :
    (∀ s ∈ sigs, s.lower = .ok s.lowered) ∧
      st'.indices.functions.map Prod.fst = (sigs.map Signature.name).reverse ++ st.indices.functions.map Prod.fst := by
  induction sigs generalizing st with
  | nil =>
    cases h
    simp
  | cons s sigs ih =>
    rw [List.foldlM_cons] at h
    obtain ⟨mid, hm, h⟩ := bind_eq_ok.1 h
    obtain ⟨htypes, hkeys⟩ := ih h
    obtain ⟨type, ht, _⟩ := bind_eq_ok.1 hm
    obtain ⟨_, rfl⟩ := importFunction_ok hm
    refine ⟨List.forall_mem_cons.2 ⟨Signature.lower_ok ht ▸ ht, htypes⟩, ?_⟩
    simpa using hkeys

/-- Every function of the table is recorded before any is lowered. -/
theorem declareFunctions_recorded {name : Option String}
    (h : declareFunctions options t { module := { name } } = .ok st) :
    (∀ s ∈ t.imports, s.lower = .ok s.lowered) ∧
      ∀ s ∈ t.signatures, ∃ i, st.indices.functions.lookup s.name = some i := by
  obtain ⟨mid, hm, rfl⟩ := declareFunctions_ok h
  obtain ⟨htypes, hkeys⟩ := importAll_recorded hm
  refine ⟨htypes, fun s hs => ?_⟩
  rw [← Option.isSome_iff_exists, Option.isSome_iff_ne_none]
  intro hnone
  have hfresh := List.lookup_eq_none_iff.1 hnone
  cases hi : s.isImported with
  | true =>
    have hmem : s.name ∈ mid.indices.functions.map Prod.fst := by
      rw [hkeys]
      refine List.mem_append_left _ (List.mem_reverse.2 (List.mem_map_of_mem (List.mem_filter.2 ⟨hs, hi⟩)))
    obtain ⟨q, hq, he⟩ := List.mem_map.1 hmem
    have hne := hfresh q (List.mem_append_right _ hq)
    simp [he] at hne
  | false =>
    have hmem : s.name ∈ (t.signatures.filter (! ·.isImported)).map Signature.name :=
      List.mem_map_of_mem (List.mem_filter.2 ⟨hs, by simp [hi]⟩)
    obtain ⟨j, hj, he⟩ := List.getElem_of_mem hmem
    have hne := hfresh _ (List.mem_append_left _ (List.mem_mapIdx.2 ⟨j, hj, rfl⟩))
    simp [he] at hne

theorem addFunction_lower {name : String} {params : List Typed.Param} {body : List Typed.Stmt} {span : Span}
    {s : Signature} (hs : t.get? name = some s) (h : st.addFunction options t name params body span = .ok st') :
    s.lower = .ok s.lowered := by
  simp only [Lowering.addFunction, hs] at h
  obtain ⟨type, ht, _⟩ := bind_eq_ok.1 h
  exact Signature.lower_ok ht ▸ ht

theorem foldlM_split {s : Typed.Stmt} {after : List Typed.Stmt}
    (h : (before ++ s :: after).foldlM (addStmt options t) st = .ok st') :
    ∃ mid next, before.foldlM (addStmt options t) st = .ok mid ∧ addStmt options t mid s = .ok next ∧
      after.foldlM (addStmt options t) next = .ok st' := by
  rw [List.foldlM_append] at h
  obtain ⟨mid, hm, h⟩ := bind_eq_ok.1 h
  rw [List.foldlM_cons] at h
  obtain ⟨next, hnext, h⟩ := bind_eq_ok.1 h
  exact ⟨mid, next, hm, hnext, h⟩

end Lowering

theorem Typed.Stmt.function?_split {ss : List Typed.Stmt} {j : Nat} {f : String × List Typed.Param × List Typed.Stmt}
    (h : (ss.filterMap Typed.Stmt.function?)[j]? = some f) :
    ∃ before after result bodySpan span,
      ss = before ++ .function f.1 f.2.1 result f.2.2 bodySpan span :: after ∧
        (before.filterMap Typed.Stmt.function?).length = j := by
  obtain ⟨hj, hget⟩ := List.getElem?_eq_some_iff.1 h
  have hsplit := (List.take_append_drop j (ss.filterMap Typed.Stmt.function?)).symm
  rw [List.drop_eq_getElem_cons hj, hget] at hsplit
  obtain ⟨front, rest, rfl, hfront, hrest⟩ := List.filterMap_eq_append_iff.1 hsplit
  obtain ⟨skipped, s, after, rfl, hskipped, hs, _⟩ := List.filterMap_eq_cons_iff.1 hrest
  cases s with
  | function name params result body bodySpan span =>
    obtain rfl := Option.some.inj hs
    refine ⟨front ++ skipped, after, result, bodySpan, span, (List.append_assoc ..).symm, ?_⟩
    have hnil : skipped.filterMap Typed.Stmt.function? = [] := List.filterMap_eq_nil_iff.2 hskipped
    rw [List.filterMap_append, hnil, List.append_nil, hfront, List.length_take]
    omega
  | _ => cases hs

namespace Finished

variable {p : Typed.Program} {importModule : String} {fin : Lowering} {s : Signature} {i : UInt32}

theorem index (h : Finished p importModule fin) (hn : p.functions.size ≤ 2 ^ 32)
    (hi : fin.indices.functions.lookup s.name = some i) {k : Nat}
    (hk : (p.functions.imports ++ p.functions.defined)[k]? = some s) : i = k.toUInt32 := by
  have hmem : s ∈ p.functions.signatures := p.functions.perm_signatures.mem_iff.1 (List.mem_of_getElem? hk)
  have hfound := h.found hn (FunctionTable.get?_of_mem h.names hmem) hi
  have hnodup : ((p.functions.imports ++ p.functions.defined).map Signature.name).Nodup :=
    (p.functions.perm_signatures.map Signature.name).nodup_iff.2 h.names
  have hplace : i.toNat = k := by
    refine (List.getElem?_inj ?_ hnodup).1 ?_
    · rw [List.length_map]
      exact (List.getElem?_eq_some_iff.1 hfound).1
    · rw [List.getElem?_map, List.getElem?_map, hfound, hk]
  rw [← hplace]
  simp

section Whole

variable {options : LowerOptions} {st : Lowering} (h : Finished p options.importModule fin)
  (hst : Lowering.declareFunctions options p.functions { module := { name := options.moduleName } } = .ok st)
  (hfin : p.body.foldlM (Lowering.addStmt options p.functions) st = .ok fin)
  (hn : p.functions.size ≤ 2 ^ 32)
include h hst hfin

include hn

omit hst in
theorem imported (hs : s ∈ p.functions.imports) (hi : st.indices.functions.lookup s.name = some i) :
    fin.finish.functionImports[i.toNat]? = some (options.importModule, s.name) := by
  obtain ⟨k, hk⟩ := List.getElem?_of_mem hs
  have hlt := (List.getElem?_eq_some_iff.1 hk).1
  have hle : p.functions.imports.length ≤ p.functions.size := List.length_filter_le ..
  obtain rfl := h.index hn ((Lowering.Grows.run hfin).indices ▸ hi) (getElem?_append_of_some hk _)
  rw [toNat_toUInt32_of_lt (by omega), h.functionImports, List.getElem?_map, hk]
  rfl

theorem defined (hs : s ∈ p.functions.defined) (hi : st.indices.functions.lookup s.name = some i) :
    ∃ n mid params result body bodySpan span b,
      p.body[n]? = some (.function s.name params result body bodySpan span) ∧
      (p.body.take n).foldlM (Lowering.addStmt options p.functions) st = .ok mid ∧
      Typed.lowerBody mid.indices params body = .ok b ∧ s.lower = .ok s.lowered ∧
      fin.finish.body i = some b := by
  obtain ⟨j, hj⟩ := List.getElem?_of_mem hs
  obtain ⟨hmem, hdef⟩ := List.mem_filter.1 hs
  have hget := FunctionTable.get?_of_mem h.names hmem
  obtain ⟨params, body, hfun, _⟩ :=
    h.declared (List.append_nil _).symm h.reached hget (by simpa using hdef) hj
  obtain ⟨before, after, result, bodySpan, span, hsplit, hcount⟩ := Typed.Stmt.function?_split hfun
  have htake : p.body.take before.length = before := by simp [hsplit]
  have hall := hfin
  rw [hsplit] at hall
  obtain ⟨mid, next, hmid, hnext, hrest⟩ := Lowering.foldlM_split hall
  have hassigned := Lowering.Assigned.ofRun hst hmid
  obtain ⟨typeIndex, b, hb, hadds, _⟩ := Lowering.addFunction_adds hnext
  refine ⟨before.length, mid, params, result, body, bodySpan, span, b, by simp [hsplit], by rw [htake, hmid], hb,
    Lowering.addFunction_lower hget hnext, ?_⟩
  -- The body stays at the place that it was put at, behind the imports.
  have hbody : fin.finish.functions[j]? = some ⟨typeIndex, b⟩ := by
    obtain ⟨more, hmore⟩ := (Lowering.Grows.run hrest).functions.trans fin.finish_functions
    rw [← hmore, hadds, ← hcount, ← hassigned.functions]
    exact getElem?_append_of_some List.getElem?_concat_length _
  have hplace : (p.functions.imports ++ p.functions.defined)[p.functions.imports.length + j]? = some s := by
    rw [List.getElem?_append_right (Nat.le_add_right _ _), Nat.add_sub_cancel_left, hj]
  have hlt := (List.getElem?_eq_some_iff.1 hplace).1
  rw [p.functions.perm_signatures.length_eq] at hlt
  obtain rfl := h.index hn ((Lowering.Grows.run hfin).indices ▸ hi) hplace
  rw [Wasm.Module.body, h.importedFunctionCount, toNat_toUInt32_of_lt (Nat.lt_of_lt_of_le hlt hn),
    if_neg (by omega), Nat.add_sub_cancel_left, hbody]
  rfl

theorem types (hs : s ∈ p.functions.signatures) :
    ∃ i, st.indices.functions.lookup s.name = some i ∧ s.lower = .ok s.lowered ∧
      fin.finish.functionType i = some s.lowered := by
  obtain ⟨htypes, hrecorded⟩ := Lowering.declareFunctions_recorded hst
  obtain ⟨i, hi⟩ := hrecorded s hs
  refine ⟨i, hi, ?_, ?_⟩
  · cases himp : s.isImported with
    | true => exact htypes s (List.mem_filter.2 ⟨hs, himp⟩)
    | false =>
      have hdef : s ∈ p.functions.defined := List.mem_filter.2 ⟨hs, by simp [himp]⟩
      obtain ⟨_, _, _, _, _, _, _, _, _, _, _, hlower, _⟩ := h.defined hst hfin hn hdef hi
      exact hlower
  · exact h.functionType hn (FunctionTable.get?_of_mem h.names hs) ((Lowering.Grows.run hfin).indices ▸ hi)

theorem exports :
    (fin.finish.exports.map fun e => (e.name, some e.function)) =
      if options.exportFunctions then
        (p.body.filterMap Typed.Stmt.function?).map fun f => (f.1, st.indices.functions.lookup f.1)
      else [] := by
  obtain ⟨_, _, _, _, _, hexports⟩ := h.valid.finish_keeps
  rw [hexports, (Lowering.Assigned.ofRun hst hfin).exports]
  cases options.exportFunctions with
  | false => rfl
  | true =>
    refine List.ext_getElem? fun j => ?_
    simp only [if_true, List.getElem?_map, List.getElem?_mapIdx, Option.map_map]
    refine Option.map_congr fun f hf => ?_
    have hname : (p.functions.defined.map Signature.name)[j]? = some f.1 := by
      rw [h.reached.names, List.getElem?_map, hf]
      rfl
    rw [List.getElem?_map] at hname
    obtain ⟨s, hj, hs⟩ := Option.map_eq_some_iff.1 hname
    have hmem : s ∈ p.functions.signatures := (List.mem_filter.1 (List.mem_of_getElem? hj)).1
    obtain ⟨i, hi⟩ := (Lowering.declareFunctions_recorded hst).2 s hmem
    have hplace : (p.functions.imports ++ p.functions.defined)[p.functions.imports.length + j]? = some s := by
      rw [List.getElem?_append_right (Nat.le_add_right _ _), Nat.add_sub_cancel_left, hj]
    obtain rfl := h.index hn ((Lowering.Grows.run hfin).indices ▸ hi) hplace
    simp [← hs, hi]

omit hst hfin hn in
theorem start (hlt : p.functions.size < 2 ^ 32) : ∀ i ∈ fin.finish.start, i.toNat + 1 = fin.finish.functionCount := by
  intro i hi
  have hsize : fin.module.functionTypes.length = p.functions.size := by
    rw [h.valid.functionTypes, List.length_map, List.length_range, p.functions.perm_signatures.length_eq]
    rfl
  by_cases hc : fin.startCode = []
  · rw [Lowering.finish_of_nil hc, h.valid.start] at hi
    cases hi
  · rw [Lowering.finish_of_ne_nil hc] at hi
    obtain rfl := Option.some.inj hi
    rw [Wasm.Module.functionCount, Lowering.finish_of_ne_nil hc, List.length_append, hsize,
      toNat_toUInt32_of_lt hlt]
    rfl

end Whole

end Finished

end ImpWasm
