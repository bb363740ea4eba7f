import ImpWasm.Proofs.Lowering.Placement
import ImpWasm.Proofs.Wasm.Fuel
set_option autoImplicit false

/-!
The module made from an accepted program does what the program does: every statement of the top level takes
states that agree before it to states that agree after it. A constant is there from the beginning, which
makes no difference, since nothing can speak of a variable before its declaration.
-/
namespace ImpWasm

open Wasm (Instr Code Exec Exit Value)

/-- The next global is the variable of a symbol, and holds a value already. -/
structure Layout.Declares (y : Layout) (symbol : Nat) (v : Int32) (y' : Layout) : Prop where
  importModule : y'.importModule = y.importModule
  globals : y'.globals = y.globals ++ [symbol]
  later : y.later = .i32 v :: y'.later

section Declare

variable {y y' : Layout} {slots : List Nat} {stack : List Value} {symbol : Nat} {top : Nat → Bool} {v : Int32}
  {m : Wasm.Module} {i : UInt32}

theorem Layout.At.declare {σ : Typed.State} {w : Wasm.State} (h : y.At slots stack σ w)
    (hy : y.Declares symbol v y') (hn : symbol ∉ y.globals) (ht : top symbol = true) :
    y'.At slots stack (σ.write top symbol v) w := by
  simp only [Typed.State.write, ht, if_true]
  refine ⟨⟨?_, by rw [h.trace, hy.importModule]⟩, h.locals, h.stack⟩
  rw [h.globals, hy.later, hy.globals, List.map_append, map_update_of_notMem _ hn, List.append_assoc]
  simp [Typed.update]

theorem SimTo.declareConstant {stop : Typed.Stop → StateRel} (hy : y.Declares symbol v y')
    (hn : symbol ∉ y.globals) (ht : top symbol = true) :
    Sim (y.At slots stack) (modify (Typed.State.write top symbol v)) (pure ()) (fun _ => y'.At slots stack)
      stop :=
  SimTo.ofModify fun _ w hp => ⟨w, rfl, hp.declare hy hn ht⟩

theorem SimTo.declareGlobal {first : Int32} {stop : Typed.Stop → StateRel}
    (hy : y.Declares symbol first y') (hn : symbol ∉ y.globals) (ht : top symbol = true)
    (hi : i.toNat = y.globals.length) (hm : m.globalType i = some ⟨.i32, true⟩) :
    Sim (y.At slots (.i32 v :: stack)) (modify (Typed.State.write top symbol v)) (Exec.writeGlobal m i)
      (fun _ => y'.At slots stack) stop := by
  refine SimTo.ofModify fun σ w hp => ?_
  have hok : m.globalType i = some ⟨(Value.i32 v).type, true⟩ ∧ i.toNat < w.globals.length := by
    refine ⟨hm, ?_⟩
    simp only [hp.globals, hy.later, hi, List.length_append, List.length_map, List.length_cons]
    omega
  refine ⟨{ w with globals := w.globals.set i.toNat (.i32 v), stack }, ?_, ?_⟩
  · simp only [Exec.writeGlobal, outcome_bind, Exec.outcome_pop hp.stack, outcome_get]
    rw [if_pos hok]
    rfl
  · -- Only the value that waits for the declaration has changed.
    have hset : ({ y with later := .i32 v :: y'.later } : Layout).At slots stack σ
        { w with globals := w.globals.set i.toNat (.i32 v), stack } := by
      refine ⟨⟨?_, hp.trace⟩, hp.locals, rfl⟩
      simp only [hp.globals, hy.later, hi]
      rw [List.set_append_right _ _ (by simp)]
      simp
    exact hset.declare ⟨hy.importModule, hy.globals, rfl⟩ hn ht

end Declare

namespace Completed

variable {p : Typed.Program} {importModule : String} {fin : Lowering} {slots : List Nat}

def traps (importModule : String) : Typed.Stop → StateRel
  | .trap => fun σ w => w.trace = σ.trace.map (Typed.Call.lift importModule)
  | _ => fun _ _ => True

theorem stops_traps {y : Layout} (s : Typed.Stop) (σ : Typed.State) (w : Wasm.State) (h : y.Stops s σ w) :
    traps y.importModule s σ w := by
  cases s with
  | trap => exact h
  | _ => trivial

theorem layout_declares (importModule : String) {m : Wasm.Module} {globals : List Nat} {g : Wasm.Global} {v : Int32}
    (hg : m.globals[globals.length]? = some g) (hv : g.init = .i32 v) (symbol : Nat) :
    (layout importModule m globals).Declares symbol v (layout importModule m (globals ++ [symbol])) := by
  obtain ⟨hlt, hget⟩ := List.getElem?_eq_some_iff.1 hg
  refine ⟨rfl, rfl, ?_⟩
  simp [layout, List.drop_eq_getElem_cons hlt, hget, hv, Wasm.ConstValue.value]

end Completed

namespace Completed

variable {p : Typed.Program} {importModule : String} {fin st st' : Lowering} {options : LowerOptions}
  {host : Typed.Host} {outside : Wasm.Host} {before after : List Typed.Stmt}

theorem evalInit_constant {w : Typed.World} {init : Option Typed.Expr} {v : Int32}
    (h : Typed.constant? init = some v) : Typed.evalInit w init = pure v := by
  cases init with
  | none =>
    cases h
    rfl
  | some e => cases e <;> cases h <;> rfl

/-- States before the rest of the top level: its variables so far, and the locals of the start function. -/
abbrev Top (importModule : String) (fin : Lowering) (before : List Typed.Stmt) (stack : List Value) : StateRel :=
  (layout importModule fin.finish (before.filterMap Typed.Stmt.variable?)).At fin.startLocals.symbols stack

def site (h : Completed p importModule fin) (hh : host.Serves importModule outside) (n : Nat)
    {t : FunctionTable} (hp : p.body = before ++ after) (hr : Reached p before t st) (hg : st.Grows fin)
    (hw : t.Within p.functions) : Site :=
  (h.stage hp hr hg hw).site ((h.stage hp hr hg hw).calls hh n) hg.indices.symm
    (h.indices_globals hp hr) h.reached.locals.1 fun s hs => (h.reached.locals.2 s hs).2

theorem declare (h : Completed p importModule fin) (hh : host.Serves importModule outside) (n : Nat)
    {c c' : Checker} {name : Typed.Ident} {type : PrimType} {init : Option Typed.Expr} {span : Span}
    (hp : p.body = before ++ .var name type init span :: after) (hr : Reached p before c.functions st)
    (hs : c.Step (.var name type init span) c') (hw : c'.functions.Within p.functions)
    (ha : st.addGlobal name type init span = .ok st') (hg : st.Grows st') (hg' : st'.Grows fin) :
    ∃ code : Code, st'.startCode = st.startCode ++ code.instrs ∧
      Sim (Top importModule fin before [])
        ((Typed.Stmt.var name type init span).exec (p.world host n) n)
        (code.run fin.finish (fin.finish.invoke outside n) n)
        (fun _ => Top importModule fin (before ++ [.var name type init span]) []) (traps importModule) := by
  obtain ⟨v, code, hcode, rfl⟩ := Lowering.addGlobal_ok ha
  have hgs := Reached.filterMap_concat Typed.Stmt.variable? before (.var name type init span)
  have hglobal : fin.finish.globals[(before.filterMap Typed.Stmt.variable?).length]? =
      some ⟨⟨.i32, true⟩, .i32 v⟩ := by
    obtain ⟨rest, hrest⟩ := hg'.globals
    rw [fin.finish_globals, ← hrest, ← hr.globalCount]
    exact getElem?_append_of_some List.getElem?_concat_length rest
  have hdeclares := layout_declares importModule hglobal rfl name.symbol
  have hglobals : p.globals = before.filterMap Typed.Stmt.variable? ++
      name.symbol :: after.filterMap Typed.Stmt.variable? := by
    rw [Typed.Program.globals, hp, List.filterMap_append]
    rfl
  have hnew : name.symbol ∉ before.filterMap Typed.Stmt.variable? := by
    have hd := Typed.Stmt.variables_nodup h.symbols
    rw [← Typed.Program.globals, hglobals] at hd
    intro hm
    exact (List.nodup_append.1 hd).2.2 _ hm _ (List.mem_cons_self ..) rfl
  have htop : (p.world host n).top name.symbol = true := by simp [Typed.Program.world, hglobals]
  rw [Top, Top, hgs]
  obtain ⟨hconst, rfl⟩ | ⟨_, rfl, is, his, rfl⟩ := hcode
  · -- a constant needs no code: the module's global starts at it
    refine ⟨.done, by simp [Code.instrs], ?_⟩
    have hexec : (Typed.Stmt.var name type init span).exec (p.world host n) n =
        modify (Typed.State.write (p.world host n).top name.symbol v) := by
      simp [Typed.Stmt.exec, evalInit_constant hconst]
    rw [hexec]
    exact .declareConstant hdeclares hnew htop
  · -- any other value is computed by the start function, which then stores it
    have hr' := hr.later hs rfl
    let S := h.site hh n hp hr' (hg.trans hg') hw
    have hholds : S.Holds st.startLocals :=
      h.reached.startLocals.holds h.startLocals_small rfl (hg.trans hg').slots
    obtain ⟨c, rfl, hc⟩ := Typed.lowerInit_runs hholds his hs.linked
    obtain ⟨hnat, hmutable⟩ := h.globalType (k := st.module.globalTypes.length) (by
      rw [hr.globalTypes, hglobals, List.length_append, List.length_cons]
      omega)
    refine ⟨c.append (.plain (.globalSet st.module.globalTypes.length.toUInt32) rfl .done),
      by simp [Code.instrs], ?_⟩
    rw [Code.run_append]
    refine SimTo.bind ((hc []).weaken (fun _ _ hp => hp) (fun _ _ _ hp => hp) stops_traps) fun v _ => ?_
    have hplain : Code.run fin.finish (fin.finish.invoke outside n) n
        (.plain (.globalSet st.module.globalTypes.length.toUInt32) rfl .done) =
          Exec.writeGlobal fin.finish st.module.globalTypes.length.toUInt32 := by
      simp [Code.run, Exec.plain]
    rw [hplain]
    exact .declareGlobal hdeclares hnew htop (hnat.trans hr.globalTypes) hmutable

end Completed

namespace Completed

variable {p : Typed.Program} {importModule : String} {fin st st' : Lowering} {options : LowerOptions}
  {host : Typed.Host} {outside : Wasm.Host} {before after : List Typed.Stmt} {c c' : Checker}

/-- One statement of the top level and its code. -/
theorem statement (h : Completed p importModule fin) (hh : host.Serves importModule outside) (n : Nat)
    {s : Typed.Stmt} (hp : p.body = before ++ s :: after) (hr : Reached p before c.functions st)
    (hs : c.Step s c') (hw : c'.functions.Within p.functions)
    (ha : Lowering.addStmt options p.functions st s = .ok st') (hg : st'.Grows fin) :
    ∃ code : Code, st'.startCode = st.startCode ++ code.instrs ∧
      Sim (Top importModule fin before []) (s.exec (p.world host n) n)
        (code.run fin.finish (fin.finish.invoke outside n) n)
        (fun _ => Top importModule fin (before ++ [s]) []) (traps importModule) := by
  have hgrows := Lowering.Grows.step ha
  obtain ⟨name, params, result, body, bodySpan, span, rfl, ha⟩ | ⟨name, type, init, span, rfl, ha⟩ |
    ⟨_, hi, hv, code, l, hl, rfl⟩ := Lowering.addStmt_ok ha
  · obtain ⟨_, _, _, _, _, _, _, _, hcode, _⟩ := Lowering.addFunction_adds ha
    have hgs := Reached.filterMap_concat_none (f := Typed.Stmt.variable?)
      (x := .function name params result body bodySpan span) rfl before
    refine ⟨.done, by simp [hcode, Code.instrs], ?_⟩
    rw [Top, Top, hgs]
    exact .ofPure fun _ w hp => ⟨w, rfl, hp⟩
  · exact h.declare hh n hp hr hs hw ha hgrows hg
  · let S := h.site hh n hp (hr.later hs hi) (hgrows.trans hg) hw
    have hholds : S.Holds l := h.reached.startLocals.holds h.startLocals_small rfl hg.slots
    obtain ⟨c, rfl, hc⟩ := Typed.Stmt.lower_runs (S := S) hl hs.linked hholds
    refine ⟨c, rfl, ?_⟩
    rw [Top, Top, Reached.filterMap_concat_none hv]
    exact (hc []).weaken (fun _ _ hp => hp) (fun _ _ _ hp => hp) stops_traps

theorem run (h : Completed p importModule fin) (hh : host.Serves importModule outside) (n : Nat)
    {ss : List Typed.Stmt} (hss : c.Steps ss c') (hp : p.body = before ++ ss)
    (hr : Reached p before c.functions st) (hf : c'.functions = p.functions)
    (ha : ss.foldlM (Lowering.addStmt options p.functions) st = .ok fin) :
    ∃ code : Code, fin.startCode = st.startCode ++ code.instrs ∧
      Sim (Top importModule fin before []) (Typed.Stmt.execAll (p.world host n) n ss)
        (code.run fin.finish (fin.finish.invoke outside n) n)
        (fun _ => Top importModule fin p.body []) (traps importModule) := by
  induction hss generalizing before st with
  | nil c =>
    cases ha
    refine ⟨.done, by simp [Code.instrs], ?_⟩
    rw [hp, List.append_nil]
    exact .ofPure fun _ w hp => ⟨w, rfl, hp⟩
  | @cons c mid c' s ss head tail ih =>
    rw [List.foldlM_cons] at ha
    obtain ⟨st₁, ha₁, ha⟩ := bind_eq_ok.1 ha
    obtain ⟨added, hadd⟩ := tail.registers
    have hw : mid.functions.Within p.functions := hf ▸ hadd.within
    have hr₁ := hr.step hp h.symbols head (tail.names_nodup (hf ▸ h.names)) ha₁
    obtain ⟨first, hfirst, hsim⟩ := h.statement hh n hp hr head hw ha₁ (.run ha)
    obtain ⟨rest, hrest, hsims⟩ := ih (by simpa using hp) hr₁ hf ha
    refine ⟨first.append rest, by simp [hrest, hfirst], ?_⟩
    rw [Code.run_append]
    exact hsim.bind fun _ _ => hsims

end Completed

def Typed.Program.Ending.lift (importModule : String) : Typed.Program.Ending → Wasm.Module.Ending
  | .finished globals trace => .finished (globals.map .i32) (trace.map (Typed.Call.lift importModule))
  | .trapped trace => .trapped (trace.map (Typed.Call.lift importModule))

namespace Completed

variable {p : Typed.Program} {importModule : String} {fin : Lowering}

theorem top_initial (h : Completed p importModule fin) :
    Top importModule fin [] [] {} { fin.finish.initial with locals := fin.startLocals.declared.map Value.zero } := by
  have hlen : fin.startLocals.symbols.length = fin.startLocals.declared.length := by
    rw [h.reached.startLocals.length, Locals.count, h.valid.noParams, Nat.zero_add]
  refine ⟨⟨rfl, rfl⟩, ?_, rfl⟩
  rw [h.valid.startLocals.declared, List.map_replicate, ← hlen]
  exact List.map_const.symm

theorem top_final (h : Completed p importModule fin) {σ : Typed.State} {w : Wasm.State} {stack : List Value}
    (ht : Top importModule fin p.body stack σ w) :
    w.globals = (p.globals.map σ.globals).map .i32 ∧ w.trace = σ.trace.map (Typed.Call.lift importModule) := by
  refine ⟨?_, ht.trace⟩
  have hlen : fin.finish.globals.length = p.globals.length := by
    rw [fin.finish_globals]
    exact h.reached.globalCount
  have hlater : fin.finish.globals.drop p.globals.length = [] := List.drop_eq_nil_of_le (by omega)
  have hglobals := ht.globals
  simp only [layout] at hglobals
  rw [← Typed.Program.globals, hlater, List.map_nil, List.append_nil] at hglobals
  rw [hglobals, List.map_map]
  rfl

end Completed

namespace Completed

variable {p : Typed.Program} {importModule : String} {fin : Lowering} {outside : Wasm.Host} {code : Code}
  {n : Nat} {w : Wasm.State}

theorem done_of_instrs {c : Code} (h : c.instrs = []) : c = .done := by
  cases c with
  | done => rfl
  | _ => simp [Code.instrs] at h

theorem ending_activate {locals : List Value} {e : Exec Unit} {s : Wasm.State} {r : Except Exit Unit}
    (hr : r = .ok () ∨ r = .error .trap) (ho : outcome e { s with locals, stack := [] } = (r, w)) :
    Wasm.Module.Ending.ofOutcome (outcome (Wasm.Module.activate 0 locals e) s) = .ofOutcome (r, w) := by
  simp only [Wasm.Module.activate, outcome_bind, outcome_get, outcome_set, outcome_attempt, ho]
  obtain rfl | rfl := hr <;> rfl

theorem execute_eq (h : Completed p importModule fin) (hcode : fin.startCode = code.instrs)
    {r : Except Exit Unit} (hr : r = .ok () ∨ r = .error .trap)
    (ho : outcome (code.run fin.finish (fin.finish.invoke outside n) n)
      { fin.finish.initial with locals := fin.startLocals.declared.map Value.zero } = (r, w)) :
    fin.finish.execute outside (n + 1) = .ofOutcome (r, w) := by
  by_cases hc : fin.startCode = []
  · obtain rfl := done_of_instrs (hcode.symm.trans hc)
    have hstart : fin.finish.start = none := by rw [Lowering.finish_of_nil hc, h.valid.start]
    rw [← ho, Wasm.Module.execute, hstart]
    rfl
  · obtain ⟨i, hstart, htype, hinside, hbody⟩ := h.startFunction hc
    have hbytes := Code.ofBytes?_eq_some_iff.2 (Wasm.decodes_encodeAll (code.instrs ++ [.end_]))
    rw [hcode] at hbody
    have hargs : outcome (Exec.popAll []) fin.finish.initial = (.ok [], fin.finish.initial) :=
      Exec.outcome_popAll rfl rfl
    rw [Wasm.Module.execute, hstart]
    simp only [Wasm.Module.invoke_defined htype hinside hbody hbytes]
    rw [outcome_bind_ok hargs]
    exact ending_activate hr ho

end Completed

/-- The module made from an accepted program does what the program does, for every world outside that serves
both: if the program ends, so does the module under every larger bound, after the same calls with the
same results, and either both trap or the globals are the variables of the top level. -/
theorem Program.lowered_runs {p : Program} {typed : Typed.Program} {options : LowerOptions} {m : Wasm.Module}
    {host : Typed.Host} {outside : Wasm.Host} {fuel : Nat} {ending : Typed.Program.Ending}
    (hp : p.check = .ok typed) (hm : typed.lower options = .ok m) (hsmall : m.Small)
    (hhost : host.Serves options.importModule outside) (hrun : typed.run host fuel = some ending) :
    ∀ n > fuel, m.execute outside n = ending.lift options.importModule := by
  obtain ⟨c, st, fin, rfl, hdone, hsteps, hf, hfresh, hfold⟩ := lower_completed hp hm hsmall
  obtain ⟨code, hcode, hsim⟩ := hdone.run hhost fuel hsteps rfl (.fresh hfresh) hf hfold
  rw [hfresh.startCode.1, List.nil_append] at hcode
  have hend := hsim {} _ hdone.top_initial
  have hfirst : fin.finish.execute outside (fuel + 1) = ending.lift options.importModule := by
    unfold Typed.Program.run at hrun
    rcases ho : outcome (Typed.Stmt.execAll (typed.world host fuel) fuel typed.body) {} with ⟨s | _, σ⟩
    · simp only [ho] at hend hrun
      cases s with
      | trap =>
        obtain rfl := Option.some.inj hrun
        obtain ⟨w, hw, htrace⟩ := hend.resolve_left nofun
        rw [hdone.execute_eq hcode (.inr rfl) hw]
        exact congrArg _ htrace
      | _ => cases hrun
    · simp only [ho] at hend hrun
      obtain rfl := Option.some.inj hrun
      obtain ⟨w, hw, hfinal⟩ := hend
      obtain ⟨hglobals, htrace⟩ := hdone.top_final hfinal
      rw [hdone.execute_eq hcode (.inl rfl) hw]
      simp only [Wasm.Module.Ending.ofOutcome, Typed.Program.Ending.lift, hglobals, htrace]
  intro n hn
  have hne : fin.finish.execute outside (fuel + 1) ≠ .timeout := by
    rw [hfirst]
    cases ending <;> exact nofun
  rw [Wasm.Module.execute_mono hn hne, hfirst]

def Typed.Program.countdown : Typed.Program :=
  ⟨[.imported "step" [] .int {}, .var ⟨"i", 0, {}⟩ .int (some (.int 2 {})) {},
      .while_ (.binary .gt (.ident ⟨"i", 0, {}⟩ .int {}) (.int 0 {}) .bool {})
        [.assign ⟨"i", 0, {}⟩ (.binary .sub (.ident ⟨"i", 0, {}⟩ .int {})
          (.call "step" [] .int {}) .int {}) {}] {} {}],
    [⟨0, "i", .int, 0, some {}⟩],
    ⟨[{ name := "step", result := .int, isImported := true, span := some {} }]⟩, {}⟩

theorem Program.lowered_runs_countdown : ∃ p typed m, Program.check p = .ok typed ∧
    typed.lower {} = .ok m ∧ ∀ n > 4, m.execute (Typed.Host.lift fun _ _ _ => some 1) n =
      .finished [.i32 0] [⟨"env", "step", [], some [.i32 1]⟩, ⟨"env", "step", [], some [.i32 1]⟩] := by
  have hp : Program.check ⟨[.imported ⟨"step", {}⟩ none ⟨.int, {}⟩ {},
      .var ⟨"i", {}⟩ none (some (.int 2 {})) {},
      .while_ (.binary .gt (.ident "i" {}) (.int 0 {}) {})
        [.assign ⟨"i", {}⟩ (.binary .sub (.ident "i" {}) (.call ⟨"step", {}⟩ [] {}) {}) {}] {} {}], {}⟩ =
      .ok .countdown := rfl
  have hm : Typed.Program.countdown.lower {} = .ok
      { types := [⟨[], [.i32]⟩, {}], imports := [⟨"env", "step", .function 0⟩],
        functions := [⟨1, .ofInstrs [] [.block .empty, .loop .empty, .globalGet 0, .i32Const 0,
          .numeric (.rel .w32 .gtS), .numeric (.eqz .w32), .brIf 1, .globalGet 0, .call 0,
          .numeric (.binary .w32 .sub), .globalSet 0, .br 0, .end_, .end_, .end_]⟩],
        globals := [⟨⟨.i32, true⟩, .i32 2⟩], start := some 1, functionTypes := [0, 1],
        globalTypes := [⟨.i32, true⟩] } := rfl
  have hrun : Typed.Program.countdown.run (fun _ _ _ => some 1) 4 =
      some (.finished [0] [⟨"step", [], some 1⟩, ⟨"step", [], some 1⟩]) := by decide
  refine ⟨_, _, _, hp, hm, lowered_runs hp hm ?_ (Typed.Host.serves_lift _ _) hrun⟩
  exact .ofBounds (by decide) (by decide) (by decide)

end ImpWasm
