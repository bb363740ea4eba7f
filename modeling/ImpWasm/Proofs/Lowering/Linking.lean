import ImpWasm.Proofs.Lowering.Preservation
set_option autoImplicit false

namespace ImpWasm

open Wasm (Instr Code Exec Exit Value)

namespace Wasm.Exec

theorem outcome_popAll {s : State} {values rest : List Value} {types : List ValType}
    (hs : s.stack = values.reverse ++ rest) (ht : values.map Value.type = types) :
    outcome (popAll types) s = (.ok values, { s with stack := rest }) := by
  have hlen : types.length = values.reverse.length := by simp [← ht]
  have htake : (s.stack.take types.length).reverse = values := by
    rw [hs, hlen, List.take_left, List.reverse_reverse]
  have hdrop : s.stack.drop types.length = rest := by rw [hs, hlen, List.drop_left]
  simp only [popAll, outcome_bind, outcome_get, htake, ht, if_true, hdrop]
  rfl

end Wasm.Exec

namespace Wasm.Module

variable {m : Module} {host : Host} {n : Nat} {i : UInt32} {t : FuncType}

theorem invoke_imported {module name : String} (ht : m.functionType i = some t)
    (hf : m.functionImports[i.toNat]? = some (module, name)) :
    m.invoke host (n + 1) i = (do callHost host module name (← Exec.popAll t.params)) := by
  simp [invoke, ht, hf]

theorem invoke_defined {b : Body} {c : Code} (ht : m.functionType i = some t)
    (hf : m.functionImports[i.toNat]? = none) (hb : m.body i = some b) (hc : Code.ofBytes? b.code = some c) :
    m.invoke host (n + 1) i = (do
      let args ← Exec.popAll t.params
      activate t.results.length (args ++ b.locals.map Value.zero) (c.run m (m.invoke host n) n)) := by
  simp [invoke, ht, hf, hb, hc]

end Wasm.Module

/-- A world outside a module does what a world outside a program does, as far as numbers go. -/
def Typed.Host.Serves (host : Typed.Host) (module : String) (outside : Wasm.Host) : Prop :=
  ∀ (trace : List Typed.Call) (name : String) (args : List Int32),
    outside (trace.map (Typed.Call.lift module)) module name (args.map .i32) =
      (host trace name args).map fun v => [.i32 v]

def Wasm.Value.word : Wasm.Value → Int32
  | .i32 v => v
  | _ => 0

def Wasm.Event.call (e : Wasm.Event) : Typed.Call :=
  ⟨e.name, e.args.map Value.word, e.results.bind fun results => results.head?.map Value.word⟩

def Typed.Host.lift (host : Typed.Host) : Wasm.Host := fun trace _ name args =>
  (host (trace.map Wasm.Event.call) name (args.map Value.word)).map fun v => [.i32 v]

theorem Typed.Host.serves_lift (host : Typed.Host) (module : String) : host.Serves module host.lift := by
  intro trace name args
  have hargs (args : List Int32) : (args.map Value.i32).map Value.word = args := by
    rw [List.map_map]
    exact List.map_id args
  have htrace : (trace.map (Typed.Call.lift module)).map Wasm.Event.call = trace := by
    rw [List.map_map]
    refine (List.map_congr_left fun c _ => ?_).trans (List.map_id trace)
    obtain ⟨name, args, result⟩ := c
    cases result <;> simp [Typed.Call.lift, Wasm.Event.call, hargs, Value.word]
  rw [Typed.Host.lift, htrace, hargs]

section Host

variable {y : Layout} {slots : List Nat} {base : List Value} {host : Typed.Host} {outside : Wasm.Host}

theorem SimTo.callHost (hh : host.Serves y.importModule outside) (name : String) (args : List Int32) :
    Sim (y.At slots base) (Typed.callHost host name args)
      (Wasm.Module.callHost outside y.importModule name (args.map .i32))
      (fun v => y.At slots (.i32 v :: base)) y.Stops := by
  intro σ w hp
  have hr : outside w.trace y.importModule name (args.map .i32) =
      (host σ.trace name args).map fun v => [.i32 v] := by
    rw [hp.trace]
    exact hh σ.trace name args
  have htrace : w.trace ++ [⟨y.importModule, name, args.map .i32,
        (host σ.trace name args).map fun v => [.i32 v]⟩] =
      (σ.trace ++ [(⟨name, args, host σ.trace name args⟩ : Typed.Call)]).map
        (Typed.Call.lift y.importModule) := by
    simp [hp.trace, Typed.Call.lift]
  simp only [Typed.callHost, Wasm.Module.callHost, outcome_bind, outcome_get, outcome_modify, hr]
  cases hres : host σ.trace name args with
  | none =>
    rw [hres] at htrace
    exact .inr ⟨_, rfl, htrace⟩
  | some v =>
    rw [hres] at htrace
    exact ⟨_, rfl, ⟨hp.globals, htrace⟩, hp.locals, by rw [← hp.stack]; rfl⟩

theorem SimTo.after {α : Type} {pre pre' : StateRel} {x : Typed.Run α} {e e' : Exec Unit}
    {post : α → StateRel} {stop : Typed.Stop → StateRel} (h : Sim pre' x e' post stop)
    (hs : ∀ σ w, pre σ w → ∃ w', outcome e w = outcome e' w' ∧ pre' σ w') : Sim pre x e post stop := by
  intro σ w hp
  obtain ⟨w', he, hp'⟩ := hs σ w hp
  rw [he]
  exact h σ w' hp'

theorem SimTo.popAll {α : Type} {x : Typed.Run α} {args : List Int32} {f : List Value → Exec Unit}
    {post : α → StateRel} {stop : Typed.Stop → StateRel}
    (h : Sim (y.At slots base) x (f (args.map .i32)) post stop) :
    Sim (y.At slots ((args.map .i32).reverse ++ base)) x
      (Exec.popAll (List.replicate args.length .i32) >>= f) post stop := by
  refine h.after fun σ w hp => ⟨{ w with stack := base }, ?_, hp.withStack base⟩
  refine outcome_bind_ok (Exec.outcome_popAll hp.stack ?_)
  rw [List.map_map]
  exact List.map_const

end Host

/-- The body of a function as it was lowered: the variables that its indices lead to are among those
declared in `y`, and its own are no variables of the top level. -/
structure Lowers (p : Typed.Program) (m : Wasm.Module) (y : Layout) (t : FunctionTable)
    (functions : List (String × UInt32)) (params : List Typed.Param) (body : List Typed.Stmt)
    (b : Wasm.Body) (ix : Indices) : Prop where
  lowered : Typed.lowerBody ix params body = .ok b
  functions : ix.functions = functions
  globals : ∀ q ∈ ix.globals, y.globals[q.2.toNat]? = some q.1 ∧ m.globalType q.2 = some ⟨.i32, true⟩
  linked : Typed.Stmt.AllLinked t body
  nodup : (params.map (·.name.symbol) ++ Typed.Stmt.allSymbols body).Nodup
  notGlobal : ∀ s ∈ params.map (·.name.symbol) ++ Typed.Stmt.allSymbols body, s ∉ p.globals
  count : params.length + b.locals.length ≤ 2 ^ 32

/-- What stands behind an index: a function outside the program, or one that the program declares. -/
inductive Provides (p : Typed.Program) (m : Wasm.Module) (y : Layout) (t : FunctionTable)
    (functions : List (String × UInt32)) (name : String) (s : Signature) (i : UInt32) : Prop where
  | imported (outside : p.function? name = none)
      (found : m.functionImports[i.toNat]? = some (y.importModule, name))
  | defined {params : List Typed.Param} {body : List Typed.Stmt} {b : Wasm.Body} {ix : Indices}
      (declared : p.function? name = some (params, body)) (arity : params.length = s.arity)
      (inside : m.functionImports[i.toNat]? = none) (found : m.body i = some b)
      (lowers : Lowers p m y t functions params body b ix)

structure Stage (p : Typed.Program) (m : Wasm.Module) (y : Layout) (t : FunctionTable)
    (functions : List (String × UInt32)) : Prop where
  globals_nodup : y.globals.Nodup
  globals_top : ∀ s ∈ y.globals, s ∈ p.globals
  types : ∀ name s i, t.get? name = some s → functions.lookup name = some i →
    m.functionType i = some s.lowered
  provides : ∀ name s i, t.get? name = some s → functions.lookup name = some i →
    Provides p m y t functions name s i

theorem Typed.LowersBody.declares {ix : Indices} {params : List Typed.Param} {body : List Typed.Stmt}
    {code : List Instr} {l : Locals} (h : Typed.LowersBody ix params body code l) :
    ∃ new, new.Sublist (Typed.Stmt.allSymbols body) ∧ l = (Locals.ofParams params).declareAll new := by
  obtain ⟨front, value, span, is, result, rfl, hfront, _, _⟩ | ⟨is, hbody, _⟩ := h
  · obtain ⟨new, hnew, _, rfl⟩ := Typed.Stmt.lowerAll_declares hfront
    refine ⟨new, hnew.trans ?_, rfl⟩
    rw [Typed.Stmt.allSymbols_append]
    exact List.sublist_append_left _ _
  · obtain ⟨new, hnew, _, rfl⟩ := Typed.Stmt.lowerAll_declares hbody
    exact ⟨new, hnew, rfl⟩

theorem Locals.Placed.holds {S : Site} {l l' : Locals} (h : l'.Placed) (hn : l'.count ≤ 2 ^ 32)
    (hs : S.slots = l'.symbols) (hl : l.slots <:+ l'.slots) : S.Holds l := by
  intro p hp
  rw [hs]
  exact h.found hn (hl.mem hp)

namespace Stage

variable {p : Typed.Program} {m : Wasm.Module} {y : Layout} {t : FunctionTable}
  {functions : List (String × UInt32)} {host : Typed.Host} {outside : Wasm.Host}

def site (h : Stage p m y t functions) {n : Nat} {ix : Indices} {slots : List Nat}
    (hc : y.Calls t functions (p.call host n) (m.invoke outside n)) (hf : ix.functions = functions)
    (hg : ∀ q ∈ ix.globals, y.globals[q.2.toNat]? = some q.1 ∧ m.globalType q.2 = some ⟨.i32, true⟩)
    (hd : slots.Nodup) (hl : ∀ s ∈ slots, s ∉ p.globals) : Site where
  world := p.world host n
  module := m
  call := m.invoke outside n
  fuel := n
  table := t
  indices := ix
  layout := y
  slots := slots
  globals_nodup := h.globals_nodup
  globals_top s hs := by simpa [Typed.Program.world] using h.globals_top s hs
  slots_nodup := hd
  slots_local s hs := by simpa [Typed.Program.world] using hl s hs
  indices_globals := hg
  calls := by
    rw [hf]
    exact hc

/-- A call of a function that the program declares, given that the calls it makes do what they should. -/
theorem activate (h : Stage p m y t functions) {n : Nat}
    (hc : y.Calls t functions (p.call host n) (m.invoke outside n)) {params : List Typed.Param}
    {body : List Typed.Stmt} {b : Wasm.Body} {ix : Indices} (hb : Lowers p m y t functions params body b ix) :
    ∃ c, Code.ofBytes? b.code = some c ∧ ∀ (slots : List Nat) (args : List Int32) (base : List Value),
      args.length = params.length →
      Sim (y.At slots base)
        (Typed.activate params args (Typed.Stmt.execAll (p.world host n) n body))
        (Wasm.Module.activate 1 (args.map .i32 ++ b.locals.map Value.zero) (c.run m (m.invoke outside n) n))
        (fun v => y.At slots (.i32 v :: base)) y.Stops := by
  obtain ⟨code, l, rfl, hbody⟩ := Typed.lowerBody_ok hb.lowered
  obtain ⟨new, hnew, hl⟩ := hbody.declares
  have hplaced : l.Placed := hl ▸ (Locals.placed_ofParams params).declareAll new
  have hsymbols : l.symbols = params.map (·.name.symbol) ++ new := by
    rw [hl, Locals.symbols_declareAll, Locals.symbols_ofParams]
  obtain ⟨hsound, hext⟩ := hl ▸ (Locals.sound_ofParams params).declareAll new
  have hcount : l.count = params.length + l.declared.length := by rw [Locals.count, hext.paramCount]; rfl
  have hsub : l.symbols.Sublist (params.map (·.name.symbol) ++ Typed.Stmt.allSymbols body) := by
    rw [hsymbols]
    exact (List.Sublist.refl _).append hnew
  have hdistinct := hb.nodup.sublist hsub
  let S : Site := h.site hc hb.functions hb.globals hdistinct fun s hs => hb.notGlobal s (hsub.subset hs)
  have hholds : S.Holds l := hplaced.holds (hcount ▸ hb.count) rfl (List.suffix_refl _)
  obtain ⟨c, rfl, hans⟩ := hbody.answers (S := S) hb.linked hholds
  refine ⟨c, Code.ofBytes?_eq_some_iff.2 (Wasm.decodes_encodeAll _), fun slots args base ha => hans.activate ?_⟩
  have hlen : new.length = l.declared.length := by
    have hlen := hplaced.length
    rw [hsymbols, hcount] at hlen
    simpa using hlen
  change args.map .i32 ++ l.declared.map Value.zero = l.symbols.map _
  rw [hsymbols, map_bindParams (hsymbols ▸ hdistinct) ha, hsound.declared, hlen]
  simp [Value.zero]

theorem calls (h : Stage p m y t functions) (hh : host.Serves y.importModule outside) (n : Nat) :
    y.Calls t functions (p.call host n) (m.invoke outside n) := by
  induction n with
  | zero =>
    intro name s i slots args base _ _ _ σ w _
    exact .inl rfl
  | succ n ih =>
    intro name s i slots args base hs hi ha
    have htype := h.types name s i hs hi
    have hparams : s.lowered.params = List.replicate args.length .i32 := by rw [ha]; rfl
    cases h.provides name s i hs hi with
    | imported hnone hfound =>
      simp only [Typed.Program.call, hnone]
      rw [Wasm.Module.invoke_imported htype hfound, hparams]
      exact .popAll (.callHost hh name args)
    | defined hdecl harity hinside hfound hlowers =>
      obtain ⟨c, hcode, hsim⟩ := h.activate ih hlowers
      simp only [Typed.Program.call, hdecl]
      rw [Wasm.Module.invoke_defined htype hinside hfound hcode, hparams]
      exact .popAll (hsim slots args base (ha.trans harity.symm))

end Stage

end ImpWasm
