import ImpWasm.Proofs.Lowering.Linking
import ImpWasm.Proofs.Lowering.Validity
set_option autoImplicit false

/-!
Where the variables and functions of an accepted program are found in its module. The top level is followed
statement by statement; what the lowering has reached after some of them holds of the finished module, so
that at every point of the top level the functions declared so far can be called.
-/
namespace ImpWasm

open Wasm (Instr Code Exec Exit Value)

namespace Typed

theorem Stmt.variables_subset {ss : List Stmt} {s : Nat} (h : s ∈ ss.filterMap Stmt.variable?) :
    s ∈ Stmt.allSymbols ss := by
  induction ss with
  | nil => simp at h
  | cons x xs ih =>
    simp only [List.filterMap_cons] at h
    refine List.mem_append.2 ?_
    cases x with
    | var name type init span =>
      cases List.mem_cons.1 h with
      | inl h => exact .inl (List.mem_singleton.2 h)
      | inr h => exact .inr (ih h)
    | _ => exact .inr (ih h)

theorem Stmt.symbols_local {ss : List Stmt} {s : Stmt} (hd : (Stmt.allSymbols ss).Nodup) (hs : s ∈ ss)
    (hv : s.variable? = none) :
    s.symbols.Nodup ∧ ∀ x ∈ s.symbols, x ∉ ss.filterMap Stmt.variable? := by
  obtain ⟨before, after, rfl⟩ := List.append_of_mem hs
  rw [Stmt.allSymbols_append, Stmt.allSymbols] at hd
  obtain ⟨_, hrest, hbefore⟩ := List.nodup_append.1 hd
  obtain ⟨hself, _, hafter⟩ := List.nodup_append.1 hrest
  refine ⟨hself, ?_⟩
  intro x hx hmem
  rw [List.filterMap_append, List.filterMap_cons, hv] at hmem
  cases List.mem_append.1 hmem with
  | inl h => exact hbefore x (Stmt.variables_subset h) x (List.mem_append_left _ hx) rfl
  | inr h => exact hafter x hx x (Stmt.variables_subset h) rfl

theorem Stmt.variables_nodup {ss : List Stmt} (hd : (Stmt.allSymbols ss).Nodup) :
    (ss.filterMap Stmt.variable?).Nodup := by
  induction ss with
  | nil => simp
  | cons x xs ih =>
    rw [Stmt.allSymbols] at hd
    obtain ⟨_, hrest, hdisjoint⟩ := List.nodup_append.1 hd
    rw [List.filterMap_cons]
    cases x with
    | var name type init span =>
      refine List.nodup_cons.2 ⟨?_, ih hrest⟩
      intro h
      exact hdisjoint _ (List.mem_singleton.2 rfl) _ (Stmt.variables_subset h) rfl
    | _ => exact ih hrest

end Typed

theorem Program.check_symbols_nodup {p : Program} {typed : Typed.Program} (h : p.check = .ok typed) :
    (Typed.Stmt.allSymbols typed.body).Nodup := by
  obtain ⟨c, hs, _⟩ := check_steps h
  rw [hs.numbers.consecutive]
  exact List.nodup_range'

namespace Lowering

variable {options : LowerOptions} {t : FunctionTable} {st st' st'' : Lowering}

theorem addStmt_ok {s : Typed.Stmt} (h : addStmt options t st s = .ok st') :
    (∃ name params result body bodySpan span, s = .function name params result body bodySpan span ∧
      st.addFunction options t name params body span = .ok st') ∨
    (∃ name type init span, s = .var name type init span ∧ st.addGlobal name type init span = .ok st') ∨
    (s.function? = none ∧ s.isFunction = false ∧ s.variable? = none ∧
      ∃ code l, s.lower st.indices st.startLocals = .ok (code, l) ∧
        st' = { st with startCode := st.startCode ++ code, startLocals := l }) := by
  cases s with
  | function name params result body bodySpan span =>
    exact .inl ⟨name, params, result, body, bodySpan, span, rfl, h⟩
  | var name type init span => exact .inr (.inl ⟨name, type, init, span, rfl, h⟩)
  | imported =>
    cases h
    exact .inr (.inr ⟨rfl, rfl, rfl, [], st.startLocals, rfl, by simp⟩)
  | _ =>
    obtain ⟨⟨code, l⟩, hc, h⟩ := bind_eq_ok.1 h
    cases pure_eq_ok.1 h
    exact .inr (.inr ⟨rfl, rfl, rfl, code, l, hc, rfl⟩)

theorem addFunction_adds {name : String} {params : List Typed.Param} {body : List Typed.Stmt} {span : Span}
    (h : st.addFunction options t name params body span = .ok st') :
    ∃ i b, Typed.lowerBody st.indices params body = .ok b ∧
      st'.module.functions = st.module.functions ++ [⟨i, b⟩] ∧
      st'.module.globals = st.module.globals ∧ st'.module.globalTypes = st.module.globalTypes ∧
      st'.module.imports = st.module.imports ∧ st'.indices = st.indices ∧
      st'.startCode = st.startCode ∧ st'.startLocals = st.startLocals := by
  obtain ⟨s, b, _, hb, rfl⟩ := addFunction_ok h
  refine ⟨st.module.types.length.toUInt32, b, hb, ?_⟩
  cases options.exportFunctions with
  | false => exact ⟨rfl, rfl, rfl, rfl, rfl, rfl, rfl⟩
  | true => exact ⟨rfl, rfl, rfl, rfl, rfl, rfl, rfl⟩

/-- Whatever has been made stays where it is. -/
structure Grows (st st' : Lowering) : Prop where
  functions : st.module.functions <+: st'.module.functions
  globals : st.module.globals <+: st'.module.globals
  imports : st'.module.imports = st.module.imports
  indices : st'.indices.functions = st.indices.functions
  slots : st.startLocals.slots <:+ st'.startLocals.slots

theorem Grows.refl (st : Lowering) : st.Grows st :=
  ⟨List.prefix_refl _, List.prefix_refl _, rfl, rfl, List.suffix_refl _⟩

theorem Grows.trans (h : st.Grows st') (h' : st'.Grows st'') : st.Grows st'' :=
  ⟨h.functions.trans h'.functions, h.globals.trans h'.globals, h'.imports.trans h.imports,
    h'.indices.trans h.indices, h.slots.trans h'.slots⟩

theorem Grows.step {s : Typed.Stmt} (h : addStmt options t st s = .ok st') : st.Grows st' := by
  obtain ⟨name, params, result, body, bodySpan, span, rfl, h⟩ | ⟨name, type, init, span, rfl, h⟩ |
    ⟨_, _, _, code, l, hl, rfl⟩ := addStmt_ok h
  · obtain ⟨i, b, _, hf, hg, _, him, hix, _, hl⟩ := addFunction_adds h
    exact ⟨hf ▸ List.prefix_append _ _, hg ▸ List.prefix_refl _, him, hix ▸ rfl, hl ▸ List.suffix_refl _⟩
  · obtain ⟨v, code, _, rfl⟩ := addGlobal_ok h
    exact ⟨List.prefix_refl _, List.prefix_append _ _, rfl, rfl, List.suffix_refl _⟩
  · obtain ⟨new, _, _, rfl⟩ := Typed.Stmt.lower_declares hl
    exact ⟨List.prefix_refl _, List.prefix_refl _, rfl, rfl, Locals.slots_declareAll new⟩

theorem Grows.run {ss : List Typed.Stmt} (h : ss.foldlM (addStmt options t) st = .ok st') : st.Grows st' := by
  induction ss generalizing st with
  | nil =>
    cases h
    exact .refl _
  | cons s ss ih =>
    rw [List.foldlM_cons] at h
    obtain ⟨mid, hm, h⟩ := bind_eq_ok.1 h
    exact (Grows.step hm).trans (ih h)

end Lowering

/-- What the lowering has reached after some statements of the top level, and which functions it may
then speak of. -/
structure Reached (p : Typed.Program) (before : List Typed.Stmt) (t : FunctionTable) (st : Lowering) :
    Prop where
  names : t.defined.map Signature.name = (before.filterMap Typed.Stmt.function?).map Prod.fst
  functions : st.module.functions.length = (before.filterMap Typed.Stmt.function?).length
  bodies : ∀ (j : Nat) (name : String) (params : List Typed.Param) (body : List Typed.Stmt),
    (before.filterMap Typed.Stmt.function?)[j]? = some (name, params, body) →
    ∃ f ix, st.module.functions[j]? = some f ∧ Typed.lowerBody ix params body = .ok f.body ∧
      ix.functions = st.indices.functions ∧ (∀ q ∈ ix.globals, q ∈ st.indices.globals) ∧
      Typed.Stmt.AllLinked t body ∧ ∃ s, t.get? name = some s ∧ params.length = s.arity
  globals : ∀ q ∈ st.indices.globals, ∃ k : Nat, q.2 = k.toUInt32 ∧
    (before.filterMap Typed.Stmt.variable?)[k]? = some q.1
  globalCount : st.module.globals.length = (before.filterMap Typed.Stmt.variable?).length
  globalTypes : st.module.globalTypes.length = (before.filterMap Typed.Stmt.variable?).length
  startLocals : st.startLocals.Placed
  locals : st.startLocals.symbols.Nodup ∧
    ∀ s ∈ st.startLocals.symbols, s ∈ Typed.Stmt.allSymbols before ∧ s ∉ p.globals
  startCode : st.startLocals.symbols.length ≤ st.startCode.length

namespace Reached

variable {p : Typed.Program} {before : List Typed.Stmt} {t t' : FunctionTable} {st st' : Lowering}
  {options : LowerOptions}

theorem fresh (hf : Lowering.Fresh options.importModule t.imports st) : Reached p [] {} st where
  names := rfl
  functions := by simp [hf.functions]
  bodies := by simp
  globals := by simp [hf.globals.2.2]
  globalCount := by simp [hf.globals.1]
  globalTypes := by simp [hf.globals.2.1]
  startLocals := hf.startCode.2 ▸ Locals.placed_empty
  locals := by simp [hf.startCode.2, Locals.symbols]
  startCode := by simp [hf.startCode.2, Locals.symbols]

/-- Imports that are added do no harm. -/
theorem grow (h : Reached p before t st) (hw : t.Within t') (hd : t'.defined = t.defined) :
    Reached p before t' st := by
  refine { h with names := hd ▸ h.names, bodies := ?bodies }
  intro j name params body hj
  obtain ⟨f, ix, hf, hb, hx, hg, hl, s, hs, ha⟩ := h.bodies j name params body hj
  exact ⟨f, ix, hf, hb, hx, hg, hl.grow hw, s, hw name s hs, ha⟩

theorem later {c c' : Checker} {s : Typed.Stmt} (h : Reached p before c.functions st) (hs : c.Step s c')
    (hf : s.isFunction = false) : Reached p before c'.functions st := by
  obtain ⟨added, hadd, hadds⟩ := hs.adds
  exact h.grow hadd.within (Lowering.defined_of_imported hadd (hadds.imported hf))

theorem filterMap_concat {α β : Type} (f : α → Option β) (xs : List α) (x : α) :
    (xs ++ [x]).filterMap f = xs.filterMap f ++ (f x).toList := by
  rw [List.filterMap_append, List.filterMap_cons]
  cases f x <;> rfl

theorem filterMap_concat_none {α β : Type} {f : α → Option β} {x : α} (h : f x = none) (xs : List α) :
    (xs ++ [x]).filterMap f = xs.filterMap f := by
  rw [filterMap_concat, h, Option.toList_none, List.append_nil]

theorem mem_allSymbols_concat {x : Nat} (h : x ∈ Typed.Stmt.allSymbols before) (s : Typed.Stmt) :
    x ∈ Typed.Stmt.allSymbols (before ++ [s]) := by
  rw [Typed.Stmt.allSymbols_append]
  exact List.mem_append_left _ h

theorem addFunction {c c' : Checker} {name : String} {params : List Typed.Param} {result : PrimType}
    {body : List Typed.Stmt} {bodySpan span : Span} (h : Reached p before c.functions st)
    (hs : c.Step (.function name params result body bodySpan span) c') (hd : c'.functions.names.Nodup)
    (ha : st.addFunction options t name params body span = .ok st') :
    Reached p (before ++ [.function name params result body bodySpan span]) c'.functions st' := by
  obtain ⟨added, hadd, sig, rest, rfl, himp, rfl, hparams, _, hrest⟩ := hs.adds
  obtain ⟨i, b, hb, hf, hg, hgt, _, hix, hcode, hl⟩ := Lowering.addFunction_adds ha
  have hdef := Lowering.defined_of_function hadd himp hrest
  have hfs := filterMap_concat Typed.Stmt.function? before (.function sig.name params result body bodySpan span)
  have hgs := filterMap_concat_none (f := Typed.Stmt.variable?)
    (x := .function sig.name params result body bodySpan span) rfl before
  constructor
  case names =>
    rw [hfs, hdef, List.map_append, List.map_append, h.names]
    rfl
  case functions =>
    rw [hfs, hf, List.length_append, List.length_append, h.functions]
    rfl
  case bodies =>
    intro j name params' body' hj
    rw [hfs] at hj
    rw [hf, hix]
    cases Nat.lt_or_ge j (before.filterMap Typed.Stmt.function?).length with
    | inl hlt =>
      rw [List.getElem?_append_left hlt] at hj
      obtain ⟨f, ix, hf', hb', hx, hglobals, hk, s, hs', harity⟩ := h.bodies j name params' body' hj
      refine ⟨f, ix, ?_, hb', hx, hglobals, hk.grow hadd.within, s, hadd.within name s hs', harity⟩
      exact getElem?_append_of_some hf' _
    | inr hge =>
      -- The function that was added is the last one.
      rw [List.getElem?_append_right hge] at hj
      have hlast : j - (before.filterMap Typed.Stmt.function?).length < 1 := (List.getElem?_eq_some_iff.1 hj).1
      have hj' : j = st.module.functions.length := by rw [h.functions]; omega
      rw [Nat.lt_one_iff.1 hlast] at hj
      cases hj
      refine ⟨⟨i, b⟩, st.indices, ?_, hb, rfl, fun q hq => hq, hs.linked, sig, ?_, ?_⟩
      · rw [hj']
        exact List.getElem?_concat_length
      · exact FunctionTable.get?_of_mem hd (by simp [hadd.signatures])
      · rw [Signature.arity, hparams, List.length_map]
  case globals =>
    rw [hgs, hix]
    exact h.globals
  case globalCount => rw [hgs, hg, h.globalCount]
  case globalTypes => rw [hgs, hgt, h.globalTypes]
  case startLocals => exact hl ▸ h.startLocals
  case locals =>
    rw [hl]
    exact ⟨h.locals.1, fun s hs => ⟨mem_allSymbols_concat (h.locals.2 s hs).1 _, (h.locals.2 s hs).2⟩⟩
  case startCode =>
    rw [hl, hcode]
    exact h.startCode

theorem addGlobal {name : Typed.Ident} {type : PrimType} {init : Option Typed.Expr} {span : Span}
    (h : Reached p before t st) (ha : st.addGlobal name type init span = .ok st') :
    Reached p (before ++ [.var name type init span]) t st' := by
  obtain ⟨v, code, _, rfl⟩ := Lowering.addGlobal_ok ha
  have hfs := filterMap_concat_none (f := Typed.Stmt.function?) (x := .var name type init span) rfl before
  have hgs := filterMap_concat Typed.Stmt.variable? before (.var name type init span)
  constructor
  case names => rw [hfs, h.names]
  case functions =>
    rw [hfs, ← h.functions]
    rfl
  case bodies =>
    intro j name' params body hj
    rw [hfs] at hj
    obtain ⟨f, ix, hf, hb, hx, hg, hk⟩ := h.bodies j name' params body hj
    exact ⟨f, ix, hf, hb, hx, fun q hq => List.mem_cons_of_mem _ (hg q hq), hk⟩
  case globals =>
    intro q hq
    rw [hgs]
    cases List.mem_cons.1 hq with
    | inl hq =>
      refine ⟨(before.filterMap Typed.Stmt.variable?).length, by rw [hq, h.globalTypes], ?_⟩
      rw [hq]
      exact List.getElem?_concat_length
    | inr hq =>
      obtain ⟨k, hk, hs⟩ := h.globals q hq
      exact ⟨k, hk, getElem?_append_of_some hs _⟩
  case globalCount =>
    rw [hgs, List.length_append, ← h.globalCount]
    exact List.length_append
  case globalTypes =>
    rw [hgs, List.length_append, ← h.globalTypes]
    exact List.length_append
  case startLocals => exact h.startLocals
  case locals =>
    exact ⟨h.locals.1, fun s hs => ⟨mem_allSymbols_concat (h.locals.2 s hs).1 _, (h.locals.2 s hs).2⟩⟩
  case startCode =>
    rw [List.length_append]
    exact Nat.le_add_right_of_le h.startCode

theorem addCode {s : Typed.Stmt} {code : List Instr} {l : Locals} {after : List Typed.Stmt}
    (h : Reached p before t st) (hp : p.body = before ++ s :: after)
    (hd : (Typed.Stmt.allSymbols p.body).Nodup) (hf : s.function? = none) (hv : s.variable? = none)
    (hl : s.lower st.indices st.startLocals = .ok (code, l)) :
    Reached p (before ++ [s]) t { st with startCode := st.startCode ++ code, startLocals := l } := by
  obtain ⟨new, hnew, hsize, rfl⟩ := Typed.Stmt.lower_declares hl
  obtain ⟨hself, hlocal⟩ := Typed.Stmt.symbols_local hd (hp ▸ by simp) hv
  have hfs := filterMap_concat_none hf before
  have hgs := filterMap_concat_none hv before
  rw [hp, Typed.Stmt.allSymbols_append, Typed.Stmt.allSymbols] at hd
  have hdisjoint := (List.nodup_append.1 hd).2.2
  constructor
  case names => rw [hfs, h.names]
  case functions => rw [hfs, ← h.functions]
  case bodies =>
    rw [hfs]
    exact h.bodies
  case globals =>
    rw [hgs]
    exact h.globals
  case globalCount => rw [hgs, ← h.globalCount]
  case globalTypes => rw [hgs, ← h.globalTypes]
  case startLocals => exact h.startLocals.declareAll new
  case locals =>
    simp only [Locals.symbols_declareAll]
    refine ⟨List.nodup_append.2 ⟨h.locals.1, hself.sublist hnew, ?_⟩, ?_⟩
    · intro x hx y hy
      exact hdisjoint x (h.locals.2 x hx).1 y (List.mem_append_left _ (hnew.subset hy))
    · intro x hx
      cases List.mem_append.1 hx with
      | inl hx => exact ⟨mem_allSymbols_concat (h.locals.2 x hx).1 s, (h.locals.2 x hx).2⟩
      | inr hx =>
        have hx' := hnew.subset hx
        refine ⟨?_, hlocal x hx'⟩
        rw [Typed.Stmt.allSymbols_append, Typed.Stmt.allSymbols]
        exact List.mem_append_right _ (List.mem_append_left _ hx')
  case startCode =>
    simp only [Locals.symbols_declareAll, List.length_append]
    exact Nat.add_le_add h.startCode hsize

theorem step {c c' : Checker} {s : Typed.Stmt} {after : List Typed.Stmt}
    (h : Reached p before c.functions st) (hp : p.body = before ++ s :: after)
    (hd : (Typed.Stmt.allSymbols p.body).Nodup) (hs : c.Step s c') (hn : c'.functions.names.Nodup)
    (ha : Lowering.addStmt options t st s = .ok st') : Reached p (before ++ [s]) c'.functions st' := by
  obtain ⟨name, params, result, body, bodySpan, span, rfl, ha⟩ | ⟨name, type, init, span, rfl, ha⟩ |
    ⟨hf, hi, hv, code, l, hl, rfl⟩ := Lowering.addStmt_ok ha
  · exact h.addFunction hs hn ha
  · exact (h.later hs rfl).addGlobal ha
  · exact (h.later hs hi).addCode hp hd hf hv hl

theorem run {c c' : Checker} {ss : List Typed.Stmt} (hss : c.Steps ss c') (h : Reached p before c.functions st)
    (hp : p.body = before ++ ss) (hd : (Typed.Stmt.allSymbols p.body).Nodup)
    (hn : c'.functions.names.Nodup) (ha : ss.foldlM (Lowering.addStmt options t) st = .ok st') :
    Reached p p.body c'.functions st' := by
  induction hss generalizing before st with
  | nil c =>
    cases ha
    rw [hp, List.append_nil]
    exact h
  | @cons c mid c' s ss head tail ih =>
    rw [List.foldlM_cons] at ha
    obtain ⟨st₁, ha₁, ha⟩ := bind_eq_ok.1 ha
    exact ih (h.step hp hd head (tail.names_nodup hn) ha₁) (by simpa using hp) hn ha

end Reached

structure Wasm.Module.Small (m : Wasm.Module) : Prop where
  functions : m.functionCount < 2 ^ 32
  globals : m.globals.length < 2 ^ 32
  locals : ∀ i type body, m.functionType i = some type → m.body i = some body →
    type.params.length + body.locals.length < 2 ^ 32

theorem Wasm.Module.Small.ofBounds {m : Wasm.Module} (hf : m.functionCount < 2 ^ 32)
    (hg : m.globals.length < 2 ^ 32)
    (hl : ∀ type ∈ m.types, ∀ f ∈ m.functions, type.params.length + f.body.locals.length < 2 ^ 32) :
    m.Small := by
  refine ⟨hf, hg, ?_⟩
  intro i type body htype hbody
  unfold functionType at htype
  unfold Module.body at hbody
  obtain ⟨j, _, htype⟩ := Option.bind_eq_some_iff.1 htype
  split at hbody
  · cases hbody
  · obtain ⟨f, hget, rfl⟩ := Option.map_eq_some_iff.1 hbody
    exact hl type (List.mem_of_getElem? htype) f (List.mem_of_getElem? hget)

structure Finished (p : Typed.Program) (importModule : String) (fin : Lowering) : Prop where
  names : p.functions.names.Nodup
  symbols : (Typed.Stmt.allSymbols p.body).Nodup
  reached : Reached p p.body p.functions fin
  valid : Lowering.Valid p.functions (p.functions.imports ++ p.functions.defined) fin
  finds : Lowering.Finds (p.functions.imports ++ p.functions.defined) fin.indices
  imports : fin.module.imports =
    p.functions.imports.mapIdx fun k s => ⟨importModule, s.name, .function k.toUInt32⟩

/-- A program that was checked and lowered to its end, and is small enough for all its indices. -/
structure Completed (p : Typed.Program) (importModule : String) (fin : Lowering) : Prop
    extends Finished p importModule fin where
  small : fin.finish.Small

namespace Lowering

variable {st : Lowering}

theorem finish_globals (st : Lowering) : st.finish.globals = st.module.globals := by
  by_cases hc : st.startCode = []
  · rw [finish_of_nil hc]
  · rw [finish_of_ne_nil hc]

theorem finish_imports (st : Lowering) : st.finish.imports = st.module.imports := by
  by_cases hc : st.startCode = []
  · rw [finish_of_nil hc]
  · rw [finish_of_ne_nil hc]

theorem finish_functions (st : Lowering) : st.module.functions <+: st.finish.functions := by
  by_cases hc : st.startCode = []
  · exact finish_of_nil hc ▸ List.prefix_refl _
  · exact finish_of_ne_nil hc ▸ List.prefix_append _ _

end Lowering

namespace Finished

variable {p : Typed.Program} {importModule : String} {fin : Lowering}

theorem functionImports (h : Finished p importModule fin) :
    fin.finish.functionImports = p.functions.imports.map fun s => (importModule, s.name) := by
  rw [Wasm.Module.functionImports, Lowering.finish_imports, h.imports, List.mapIdx_eq_zipIdx_map,
    List.filterMap_map]
  change p.functions.imports.zipIdx.filterMap
    (some ∘ ((fun s : Signature => (importModule, s.name)) ∘ Prod.fst)) = _
  rw [List.filterMap_eq_map, ← List.map_map, List.zipIdx_map_fst]

theorem functions_length (h : Finished p importModule fin) :
    fin.module.functions.length = p.functions.defined.length := by
  rw [h.reached.functions]
  simpa using (congrArg List.length h.reached.names).symm

theorem importedFunctionCount (h : Finished p importModule fin) :
    fin.finish.importedFunctionCount = p.functions.imports.length := by
  have hdefined := h.functions_length
  have htypes : fin.module.functionTypes.length = p.functions.imports.length + p.functions.defined.length := by
    simp [h.valid.functionTypes]
  unfold Wasm.Module.importedFunctionCount
  by_cases hc : fin.startCode = []
  · rw [Lowering.finish_of_nil hc]
    omega
  · rw [Lowering.finish_of_ne_nil hc]
    simp only [List.length_append, List.length_singleton]
    omega

end Finished

/-- The imports come first, then the functions that are defined. -/
theorem FunctionTable.place {t : FunctionTable} {s : Signature} {k : Nat}
    (hplace : (t.imports ++ t.defined)[k]? = some s) :
    (s.isImported = true ∧ t.imports[k]? = some s) ∨
      (s.isImported = false ∧ ∃ j, k = t.imports.length + j ∧ t.defined[j]? = some s) := by
  cases Nat.lt_or_ge k t.imports.length with
  | inl hlt =>
    rw [List.getElem?_append_left hlt] at hplace
    exact .inl ⟨(List.mem_filter.1 (List.mem_of_getElem? hplace)).2, hplace⟩
  | inr hge =>
    rw [List.getElem?_append_right hge] at hplace
    have hdef := (List.mem_filter.1 (List.mem_of_getElem? hplace)).2
    exact .inr ⟨by simpa using hdef, _, (Nat.add_sub_cancel' hge).symm, hplace⟩

namespace Finished

variable {p : Typed.Program} {importModule : String} {fin : Lowering}

theorem lookup_of_nodup {α β : Type} [BEq α] [LawfulBEq α] {xs : List (α × β)} {a : α} {b : β}
    (hd : (xs.map Prod.fst).Nodup) (h : (a, b) ∈ xs) : xs.lookup a = some b := by
  obtain ⟨before, after, rfl⟩ := List.append_of_mem h
  refine List.lookup_eq_some_iff.2 ⟨before, after, rfl, ?_⟩
  intro q hq
  rw [List.map_append, List.map_cons] at hd
  have hne := (List.nodup_append.1 hd).2.2 q.1 (List.mem_map_of_mem hq) a (List.mem_cons_self ..)
  simpa using hne.symm

variable (h : Finished p importModule fin)
include h

theorem signature_eq {s s' : Signature} (hs : s ∈ p.functions.signatures) (hs' : s' ∈ p.functions.signatures)
    (hn : s.name = s'.name) : s = s' := by
  have he := FunctionTable.get?_of_mem h.names hs
  rw [hn, FunctionTable.get?_of_mem h.names hs'] at he
  exact (Option.some.inj he).symm

theorem found {name : String} {s : Signature} {i : UInt32} (hn : p.functions.size ≤ 2 ^ 32)
    (hs : p.functions.get? name = some s) (hi : fin.indices.functions.lookup name = some i) :
    (p.functions.imports ++ p.functions.defined)[i.toNat]? = some s := by
  obtain ⟨k, s', hk, he⟩ := h.finds _ (mem_of_lookup hi)
  obtain ⟨rfl, rfl⟩ := Prod.mk.inj he
  have hmem : s' ∈ p.functions.signatures := p.functions.perm_signatures.mem_iff.1 (List.mem_of_getElem? hk)
  obtain rfl := h.signature_eq hmem (FunctionTable.mem_of_get? hs) (FunctionTable.name_of_get? hs).symm
  have hlt : k < p.functions.size := by
    have hlt := (List.getElem?_eq_some_iff.1 hk).1
    rwa [p.functions.perm_signatures.length_eq] at hlt
  rw [toNat_toUInt32_of_lt (Nat.lt_of_lt_of_le hlt hn), hk]

theorem functionType {name : String} {s : Signature} {i : UInt32} (hn : p.functions.size ≤ 2 ^ 32)
    (hs : p.functions.get? name = some s) (hi : fin.indices.functions.lookup name = some i) :
    fin.finish.functionType i = some s.lowered := by
  have hk := h.found hn hs hi
  obtain ⟨n, hle, hft, htypes, _⟩ := h.valid.finish_keeps
  have hlt : i.toNat < n := Nat.lt_of_lt_of_le (List.getElem?_eq_some_iff.1 hk).1 hle
  have htype := Wasm.Module.functionType_of_range hft i.toNat_lt hlt (htypes _ s hk)
  rwa [show i.toNat.toUInt32 = i by simp] at htype

theorem function_none {name : String} {s : Signature} (hs : p.functions.get? name = some s)
    (himp : s.isImported = true) : p.function? name = none := by
  refine List.lookup_eq_none_iff.2 fun q hq => bne_iff_ne.2 fun he => ?_
  have hmem : name ∈ p.functions.defined.map Signature.name := by
    rw [h.reached.names, he]
    exact List.mem_map_of_mem hq
  obtain ⟨s', hs', hname⟩ := List.mem_map.1 hmem
  obtain ⟨hs', hdef⟩ := List.mem_filter.1 hs'
  have hsame := h.signature_eq hs' (FunctionTable.mem_of_get? hs) (hname.trans (FunctionTable.name_of_get? hs).symm)
  simp [hsame, himp] at hdef

theorem declared {before after : List Typed.Stmt} {t : FunctionTable} {st : Lowering}
    (hp : p.body = before ++ after) (hr : Reached p before t st) {s : Signature} {j : Nat}
    (hs : t.get? s.name = some s)
    (hi : s.isImported = false) (hj : p.functions.defined[j]? = some s) :
    ∃ params body, (before.filterMap Typed.Stmt.function?)[j]? = some (s.name, params, body) ∧
      p.function? s.name = some (params, body) := by
  have hsplit : p.body.filterMap Typed.Stmt.function? =
      before.filterMap Typed.Stmt.function? ++ after.filterMap Typed.Stmt.function? := by
    rw [hp, List.filterMap_append]
  have hnames := h.reached.names
  have hmem : s ∈ t.defined := List.mem_filter.2 ⟨FunctionTable.mem_of_get? hs, by simp [hi]⟩
  obtain ⟨k, hk⟩ := List.getElem?_of_mem hmem
  have hk' : ((before.filterMap Typed.Stmt.function?).map Prod.fst)[k]? = some s.name := by
    rw [← hr.names, List.getElem?_map, hk]
    rfl
  have hnodup : (p.functions.defined.map Signature.name).Nodup := by
    have hall := (p.functions.perm_signatures.map Signature.name).nodup_iff.2 h.names
    rw [List.map_append] at hall
    exact (List.nodup_append.1 hall).2.1
  -- The name is at one place only among those that the program declares.
  have hkj : k = j := by
    have hat : (p.functions.defined.map Signature.name)[k]? = some s.name := by
      rw [hnames, hsplit, List.map_append]
      exact getElem?_append_of_some hk' _
    refine (List.getElem?_inj (List.getElem?_eq_some_iff.1 hat).1 hnodup).1 (hat.trans ?_)
    rw [List.getElem?_map, hj]
    rfl
  subst hkj
  rw [List.getElem?_map] at hk'
  obtain ⟨⟨_, params, body⟩, hget, rfl⟩ := Option.map_eq_some_iff.1 hk'
  refine ⟨params, body, hget, lookup_of_nodup (hnames ▸ hnodup) ?_⟩
  rw [hsplit]
  exact List.mem_append_left _ (List.mem_of_getElem? hget)

end Finished

namespace Completed

variable {p : Typed.Program} {importModule : String} {fin : Lowering}

def layout (importModule : String) (m : Wasm.Module) (globals : List Nat) : Layout :=
  ⟨importModule, globals, (m.globals.drop globals.length).map fun g => g.init.value⟩

variable (h : Completed p importModule fin)
include h

theorem size_le : p.functions.size ≤ 2 ^ 32 := by
  obtain ⟨n, hle, hft, _⟩ := h.valid.finish_keeps
  have hn : n < 2 ^ 32 := by simpa [Wasm.Module.functionCount, hft] using h.small.functions
  rw [p.functions.perm_signatures.length_eq] at hle
  exact Nat.le_trans hle (Nat.le_of_lt hn)

theorem globalType {k : Nat} (hk : k < p.globals.length) :
    k.toUInt32.toNat = k ∧ fin.finish.globalType k.toUInt32 = some ⟨.i32, true⟩ := by
  have hlen : fin.module.globalTypes.length = p.globals.length := h.reached.globalTypes
  have hcount : fin.finish.globals.length = p.globals.length := by
    rw [Lowering.finish_globals]
    exact h.reached.globalCount
  have hnat : k.toUInt32.toNat = k := toNat_toUInt32_of_lt (by have := h.small.globals; omega)
  obtain ⟨_, _, _, _, htypes, _⟩ := h.valid.finish_keeps
  refine ⟨hnat, ?_⟩
  rw [Wasm.Module.globalType, hnat, htypes, h.valid.globalTypes, List.getElem?_replicate_of_lt (by omega)]

section Stage

variable {before after : List Typed.Stmt} {t : FunctionTable} {st : Lowering}
  (hp : p.body = before ++ after) (hr : Reached p before t st)
include hp hr

/-- The indices of the variables declared so far lead to their globals. -/
theorem indices_globals : ∀ q ∈ st.indices.globals,
    (before.filterMap Typed.Stmt.variable?)[q.2.toNat]? = some q.1 ∧
      fin.finish.globalType q.2 = some ⟨.i32, true⟩ := by
  intro q hq
  obtain ⟨k, hkq, hsym⟩ := hr.globals q hq
  have hle : (before.filterMap Typed.Stmt.variable?).length ≤ p.globals.length := by
    rw [Typed.Program.globals, hp, List.filterMap_append, List.length_append]
    omega
  obtain ⟨hnat, hgt⟩ := h.globalType (Nat.lt_of_lt_of_le (List.getElem?_eq_some_iff.1 hsym).1 hle)
  rw [hkq, hnat]
  exact ⟨hsym, hgt⟩

variable (hg : st.Grows fin)
include hg

theorem lowers {s : Signature} {i : UInt32} {j : Nat} {params : List Typed.Param} {body : List Typed.Stmt}
    {f : Wasm.Function} {ix : Indices}
    (hj : (before.filterMap Typed.Stmt.function?)[j]? = some (s.name, params, body))
    (htype : fin.finish.functionType i = some s.lowered) (hbody : fin.finish.body i = some f.body)
    (ha : params.length = s.arity) (hk : Typed.Stmt.AllLinked t body)
    (hlow : Typed.lowerBody ix params body = .ok f.body) (hx : ix.functions = st.indices.functions)
    (hgs : ∀ q ∈ ix.globals, q ∈ st.indices.globals) :
    Lowers p fin.finish (layout importModule fin.finish (before.filterMap Typed.Stmt.variable?)) t
      fin.indices.functions params body f.body ix := by
  obtain ⟨x, hxmem, hxf⟩ := List.mem_filterMap.1 (List.mem_of_getElem? hj)
  have hlocal : x.symbols.Nodup ∧ ∀ y ∈ x.symbols, y ∉ p.globals := by
    refine Typed.Stmt.symbols_local h.symbols (hp ▸ List.mem_append_left _ hxmem) ?_
    cases x <;> first | rfl | cases hxf
  have hsymbols : x.symbols = params.map (·.name.symbol) ++ Typed.Stmt.allSymbols body := by
    cases x <;> cases hxf
    rfl
  rw [hsymbols] at hlocal
  constructor
  case lowered => exact hlow
  case functions => rw [hx, hg.indices]
  case globals => exact fun q hq => h.indices_globals hp hr q (hgs q hq)
  case linked => exact hk
  case nodup => exact hlocal.1
  case notGlobal => exact hlocal.2
  case count =>
    have hsmall := h.small.locals i _ _ htype hbody
    rw [Signature.lowered, List.length_replicate, ← ha] at hsmall
    omega

theorem stage (hw : t.Within p.functions) :
    Stage p fin.finish (layout importModule fin.finish (before.filterMap Typed.Stmt.variable?)) t
      fin.indices.functions := by
  have hsub : (before.filterMap Typed.Stmt.variable?).Sublist p.globals := by
    rw [Typed.Program.globals, hp, List.filterMap_append]
    exact List.sublist_append_left _ _
  refine ⟨(Typed.Stmt.variables_nodup h.symbols).sublist hsub, fun s hs => hsub.subset hs,
    fun name s i hs hi => h.functionType h.size_le (hw name s hs) hi, ?_⟩
  intro name s i hs hi
  obtain rfl := FunctionTable.name_of_get? hs
  have hall := hw _ s hs
  have hplace := h.found h.size_le hall hi
  obtain ⟨himp, hplace⟩ | ⟨hdef, j, hij, hj⟩ := FunctionTable.place hplace
  · refine .imported (h.function_none hall himp) ?_
    rw [h.functionImports, List.getElem?_map, hplace]
    rfl
  · obtain ⟨params, body, hget, hfun⟩ := h.declared hp hr hs hdef hj
    obtain ⟨f, ix, hf, hlow, hx, hgs, hk, s', hs', ha⟩ := hr.bodies j _ params body hget
    obtain rfl := Option.some.inj (hs.symm.trans hs')
    have hbody : fin.finish.body i = some f.body := by
      have hget : fin.finish.functions[j]? = some f := by
        obtain ⟨rest, hrest⟩ := hg.functions.trans fin.finish_functions
        rw [← hrest]
        exact getElem?_append_of_some hf rest
      rw [Wasm.Module.body, h.importedFunctionCount, if_neg (by omega), hij, Nat.add_sub_cancel_left, hget]
      rfl
    refine .defined hfun ha ?_ hbody (h.lowers hp hr hg hget (h.functionType h.size_le hall hi) hbody ha hk hlow hx hgs)
    rw [h.functionImports, List.getElem?_map, List.getElem?_eq_none (by omega)]
    rfl

end Stage

theorem startFunction (hc : fin.startCode ≠ []) :
    ∃ i, fin.finish.start = some i ∧ fin.finish.functionType i = some {} ∧
      fin.finish.functionImports[i.toNat]? = none ∧
      fin.finish.body i = some (.ofInstrs fin.startLocals.declared (fin.startCode ++ [.end_])) := by
  have hfin := Lowering.finish_of_ne_nil hc
  obtain ⟨_, htype, hlt, _⟩ := h.valid.finish_start h.finds h.names h.small.functions hc
  have hcount : fin.finish.functionCount = fin.module.functionTypes.length + 1 := by
    rw [Wasm.Module.functionCount, hfin, List.length_append, List.length_singleton]
  have hnat : fin.module.functionTypes.length.toUInt32.toNat = fin.module.functionTypes.length :=
    toNat_toUInt32_of_lt (by have := h.small.functions; omega)
  have htypes : fin.module.functionTypes.length = p.functions.imports.length + fin.module.functions.length := by
    rw [h.valid.functionTypes, h.functions_length]
    simp
  refine ⟨fin.module.functionTypes.length.toUInt32, by rw [hfin], htype, ?_, ?_⟩
  · rw [h.functionImports, hnat, List.getElem?_eq_none (by rw [List.length_map]; omega)]
  · rw [Wasm.Module.body, h.importedFunctionCount, hnat, if_neg (by omega), htypes, Nat.add_sub_cancel_left, hfin]
    simp

theorem startLocals_small : fin.startLocals.count ≤ 2 ^ 32 := by
  by_cases hc : fin.startCode = []
  · have hsize := h.reached.startCode
    rw [h.reached.startLocals.length, hc] at hsize
    simp only [List.length_nil] at hsize
    omega
  · obtain ⟨i, _, htype, _, hbody⟩ := h.startFunction hc
    have hsmall := h.small.locals i _ _ htype hbody
    rw [Locals.count, h.valid.noParams]
    exact Nat.le_of_lt hsmall

end Completed

/-- An accepted program that can be lowered goes through the checker and the lowering together. -/
theorem Program.lower_finished {p : Program} {typed : Typed.Program} {options : LowerOptions} {m : Wasm.Module}
    (hp : p.check = .ok typed) (h : typed.lower options = .ok m) :
    ∃ c st fin, m = Lowering.finish fin ∧ Finished typed options.importModule fin ∧
      Checker.Steps {} typed.body c ∧ c.functions = typed.functions ∧
      Lowering.declareFunctions options typed.functions { module := { name := options.moduleName } } = .ok st ∧
      typed.body.foldlM (Lowering.addStmt options typed.functions) st = .ok fin := by
  obtain ⟨st, fin, hst, hfin, rfl⟩ := Typed.Program.lower_ok h
  obtain ⟨c, hc, hf⟩ := check_steps hp
  obtain ⟨hfresh, hfind⟩ := Lowering.declareFunctions_fresh hst
  have hn := check_names_nodup hp
  have hd := check_symbols_nodup hp
  have hgrows := Lowering.Grows.run hfin
  refine ⟨c, st, fin, rfl, ?_, hc, hf, hst, hfin⟩
  constructor
  case names => exact hn
  case symbols => exact hd
  case reached => exact hf ▸ Reached.run hc (.fresh hfresh) rfl hd (hf ▸ hn) hfin
  case valid =>
    rw [← hf] at hfresh hfin hn ⊢
    exact (Lowering.Valid.run hc hn (by simpa [FunctionTable.defined] using hfresh.valid) hfin).1
  case finds => simpa [Lowering.Finds, hgrows.indices] using hfind
  case imports => rw [hgrows.imports, hfresh.imports]

theorem Program.lower_completed {p : Program} {typed : Typed.Program} {options : LowerOptions} {m : Wasm.Module}
    (hp : p.check = .ok typed) (h : typed.lower options = .ok m) (hm : m.Small) :
    ∃ c st fin, m = Lowering.finish fin ∧ Completed typed options.importModule fin ∧
      Checker.Steps {} typed.body c ∧ c.functions = typed.functions ∧
      Lowering.Fresh options.importModule typed.functions.imports st ∧
      typed.body.foldlM (Lowering.addStmt options typed.functions) st = .ok fin := by
  obtain ⟨c, st, fin, rfl, hdone, hc, hf, hst, hfin⟩ := lower_finished hp h
  exact ⟨c, st, fin, rfl, ⟨hdone, hm⟩, hc, hf, (Lowering.declareFunctions_fresh hst).1, hfin⟩

end ImpWasm
