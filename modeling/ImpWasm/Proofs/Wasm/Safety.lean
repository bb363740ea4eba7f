import ImpWasm.Proofs.Wasm.Building
import ImpWasm.Proofs.Wasm.Effects
set_option autoImplicit false

/-!
A module that validates never gets stuck. The states of a run are typed: the code of every call in
progress takes what is on its stack and leaves what the code around it waits for. A step from a typed
state leads to a typed state, returns values of the right types, or traps.
-/
namespace ImpWasm.Wasm

def Module.scope (m : Module) (locals : List Value) : Context :=
  { functionType := m.functionType, globalType := m.globalType, locals := locals.map Value.type }

def Module.Holds (m : Module) (globals : List Value) : Prop :=
  globals.map Value.type =
    (m.imports.filterMap Import.globalType? ++ m.globals.map Global.type).map GlobalType.type

/-- What branches take to the blocks around some code, and to the function. -/
def reach (blocks : List Block) (results : List ValType) : List (List ValType) :=
  blocks.map Block.types ++ [results]

/-- Blocks one inside the other, the innermost first, and what the code in the innermost has to leave. -/
inductive Nest (ctx : Context) (results : List ValType) : List Block → List ValType → Prop where
  | nil : Nest ctx results [] results
  | block {b : Block} {blocks : List Block} {out : List ValType} (types : b.types = b.results)
      (again : b.again = none)
      (rest : b.rest.HasType ctx results (reach blocks results) (stackTypes b.base ++ b.results) out)
      (outer : Nest ctx results blocks out) : Nest ctx results (b :: blocks) b.results
  | loop {b : Block} {blocks : List Block} {body : Code} {out : List ValType} (types : b.types = [])
      (again : b.again = some body)
      (inside : body.HasType ctx results (reach (b :: blocks) results) [] b.results)
      (rest : b.rest.HasType ctx results (reach blocks results) (stackTypes b.base ++ b.results) out)
      (outer : Nest ctx results blocks out) : Nest ctx results (b :: blocks) b.results

/-- A call that can go on when it is given values of these types. -/
def Activation.Awaits (m : Module) (a : Activation) (given : List ValType) : Prop :=
  ∃ out, a.code.HasType (m.scope a.locals) a.results (reach a.blocks a.results) (stackTypes a.stack ++ given) out ∧
    Nest (m.scope a.locals) a.results a.blocks out

/-- Calls that wait, each for the results of the one before it. The last of them returns `final`. -/
inductive Callers (m : Module) (final : List ValType) : List Activation → List ValType → Prop where
  | nil : Callers m final [] final
  | cons {a : Activation} {callers : List Activation} {given : List ValType} (awaits : a.Awaits m given)
      (outer : Callers m final callers a.results) : Callers m final (a :: callers) given

structure Machine.Sound (m : Module) (final : List ValType) (s : Machine) : Prop where
  globals : m.Holds s.globals
  running : s.running.Awaits m []
  callers : Callers m final s.callers s.running.results

/-- The next instruction finds operands of the types that it takes above the base of its block, and what
it refers to exists: a variable, a function, a label, or a global, which may be written if it is. -/
def Machine.Supplied (m : Module) (s : Machine) : Prop :=
  ∀ i hi rest, s.running.code = .plain i hi rest → ∃ base ts us, stackTypes s.running.stack = base ++ ts ∧
    i.HasType (m.scope s.running.locals) (reach s.running.blocks s.running.results) s.running.results ts us

inductive Machine.Advances (m : Module) (final : List ValType) (s : Machine) : Except Stop Machine → Prop where
  | next {t : Machine} (h : t.Sound m final) : Advances m final s (.ok t)
  | returned {values : List Value} (h : values.map Value.type = final) :
      Advances m final s (.error (.returned values))
  | trap {i : Instr} {hi : i.isPlain = true} {rest : Code} (code : s.running.code = .plain i hi rest)
      (h : i.Traps s.running.stack) : Advances m final s (.error .trap)

/-- The environment returns what the types of the imported functions say, and leaves in every global a
value of its type. -/
def Environment.Respects (env : Environment) (m : Module) : Prop :=
  ∀ calls function type args globals, function.toNat < m.importedFunctionCount →
    m.functionType function = some type → args.map Value.type = type.params → m.Holds globals →
    (env calls function args globals).1.map Value.type = type.results ∧
      m.Holds (env calls function args globals).2

theorem Value.type_zero (t : ValType) : (Value.zero t).type = t := by
  cases t <;> rfl

section Nest

variable {ctx : Context} {results out : List ValType} {blocks : List Block} {b : Block} {depth : Nat}

theorem Nest.drop (h : Nest ctx results blocks out) (hb : blocks[depth]? = some b) :
    Nest ctx results (b :: blocks.drop (depth + 1)) b.results := by
  induction h generalizing depth with
  | nil => simp at hb
  | block types again rest outer ih =>
    cases depth with
    | zero =>
      obtain rfl := Option.some.inj hb
      exact .block types again rest outer
    | succ depth => exact ih hb
  | loop types again inside rest outer ih =>
    cases depth with
    | zero =>
      obtain rfl := Option.some.inj hb
      exact .loop types again inside rest outer
    | succ depth => exact ih hb

theorem Nest.behind (h : Nest ctx results (b :: blocks) out) :
    out = b.results ∧ ∃ out',
      b.rest.HasType ctx results (reach blocks results) (stackTypes b.base ++ b.results) out' ∧
        Nest ctx results blocks out' := by
  cases h with
  | block types again rest outer => exact ⟨rfl, _, rest, outer⟩
  | loop types again inside rest outer => exact ⟨rfl, _, rest, outer⟩

theorem reach_cases {ls : List ValType} (h : (reach blocks results)[depth]? = some ls) :
    (depth = blocks.length ∧ ls = results) ∨
      (depth ≠ blocks.length ∧ ∃ b, blocks[depth]? = some b ∧ b.types = ls) := by
  unfold reach at h
  rcases Nat.lt_trichotomy depth blocks.length with hlt | rfl | hgt
  · rw [List.getElem?_append_left (by simpa using hlt), List.getElem?_map] at h
    exact .inr ⟨Nat.ne_of_lt hlt, Option.map_eq_some_iff.1 h⟩
  · rw [List.getElem?_append_right (by simp)] at h
    simp only [List.length_map, Nat.sub_self, List.getElem?_cons_zero, Option.some.injEq] at h
    exact .inl ⟨rfl, h.symm⟩
  · rw [List.getElem?_eq_none (by rw [List.length_append, List.length_map]; exact hgt)] at h
    cases h

end Nest

namespace Machine

variable {m : Module} {final : List ValType} {s t : Machine} {stack : List Value} {below : List ValType}

theorem Sound.supplied (h : s.Sound m final) : s.Supplied m := by
  intro i hi rest hcode
  obtain ⟨out, htyped, _⟩ := h.running
  rw [List.append_nil, hcode] at htyped
  generalize hstack : stackTypes s.running.stack = ins at htyped
  cases htyped with
  | plain base head tail => exact ⟨base, _, _, rfl, head⟩

theorem leave_advances (hg : m.Holds s.globals)
    (hc : Callers m final s.callers s.running.results)
    (hstack : stackTypes stack = below ++ s.running.results) : Advances m final t (s.leave stack) := by
  obtain ⟨values, rest, hvalues, htypes, _⟩ := operands?_of_types hstack
  unfold leave
  rw [hvalues]
  cases hcs : s.callers with
  | nil =>
    rw [hcs] at hc
    cases hc
    exact .returned htypes
  | cons a callers =>
    rw [hcs] at hc
    cases hc with
    | cons awaits outer =>
      refine .next ⟨hg, ?_, outer⟩
      obtain ⟨out, hcode, hnest⟩ := awaits
      refine ⟨out, ?_, hnest⟩
      simpa [htypes] using hcode

theorem branch_advances (h : s.Sound m final) {depth : Nat} {ls : List ValType}
    (hl : (reach s.running.blocks s.running.results)[depth]? = some ls)
    (hstack : stackTypes stack = below ++ ls) : Advances m final t (s.branch depth stack) := by
  unfold branch
  rcases reach_cases hl with ⟨hd, rfl⟩ | ⟨hd, b, hb, rfl⟩
  · simp only [if_pos hd]
    exact leave_advances h.globals h.callers hstack
  · obtain ⟨values, rest, hvalues, htypes, _⟩ := operands?_of_types hstack
    obtain ⟨out, _, hnest⟩ := h.running
    have hdrop : s.running.blocks.drop depth = b :: s.running.blocks.drop (depth + 1) := by
      obtain ⟨hlt, hget⟩ := List.getElem?_eq_some_iff.1 hb
      rw [List.drop_eq_getElem_cons hlt, hget]
    simp only [if_neg hd, hb, hvalues]
    cases hnest.drop hb with
    | block types again rest outer =>
      simp only [again]
      refine .next ⟨h.globals, ⟨_, ?_, outer⟩, h.callers⟩
      simpa [htypes, types] using rest
    | loop types again inside rest outer =>
      simp only [again]
      have hnone : values = [] := by simpa [types] using htypes
      refine .next ⟨h.globals, ⟨b.results, ?_, ?_⟩, h.callers⟩
      · simpa [hdrop, hnone] using inside
      · rw [hdrop]
        exact .loop types again inside rest outer

theorem finish_advances (h : s.Sound m final) (hcode : s.running.code = .done) :
    Advances m final t s.finish := by
  obtain ⟨out, htyped, hnest⟩ := h.running
  rw [hcode, List.append_nil] at htyped
  have hout : stackTypes s.running.stack = out := by
    cases htyped
    rfl
  unfold finish
  cases hblocks : s.running.blocks with
  | nil =>
    rw [hblocks] at hnest
    cases hnest
    have hlen : s.running.stack.length = s.running.results.length := by
      rw [← hout, stackTypes, List.length_reverse, List.length_map]
    simp only [hblocks, if_pos hlen]
    exact leave_advances h.globals h.callers (show _ = [] ++ _ from hout)
  | cons b blocks =>
    rw [hblocks] at hnest
    obtain ⟨rfl, out, rest, outer⟩ := hnest.behind
    simp only [hblocks, if_pos (show (s.running.stack.map Value.type).reverse = b.results from hout)]
    refine .next ⟨h.globals, ⟨out, ?_, outer⟩, h.callers⟩
    simpa [hout] using rest

theorem enter_sound {b : Block} {body : Code} (h : s.Sound m final)
    (hbody : body.HasType (m.scope s.running.locals) s.running.results
      (reach (b :: s.running.blocks) s.running.results) [] b.results)
    (hnest : Nest (m.scope s.running.locals) s.running.results (b :: s.running.blocks) b.results) :
    (s.enter b body).Sound m final :=
  ⟨h.globals, ⟨b.results, by simpa [enter] using hbody, hnest⟩, h.callers⟩

theorem choose_advances (h : s.Sound m final) {type : BlockType} {yes no rest : Code} {base out : List ValType}
    (hstack : stackTypes s.running.stack = base ++ [.i32])
    (hyes : yes.HasType (m.scope s.running.locals) s.running.results
      (type.results :: reach s.running.blocks s.running.results) [] type.results)
    (hno : no.HasType (m.scope s.running.locals) s.running.results
      (type.results :: reach s.running.blocks s.running.results) [] type.results)
    (hrest : rest.HasType (m.scope s.running.locals) s.running.results
      (reach s.running.blocks s.running.results) (base ++ type.results) out)
    (hnest : Nest (m.scope s.running.locals) s.running.results s.running.blocks out) :
    Advances m final t (s.choose type yes no rest) := by
  obtain ⟨v, below, hs, hv, hbelow⟩ := exists_top hstack
  unfold choose
  cases v with
  | i32 c =>
    simp only [hs]
    refine .next (enter_sound h ?_ (.block rfl rfl (hbelow ▸ hrest) hnest))
    split
    · exact hno
    · exact hyes
  | _ => cases hv

section Calls

variable {env : Environment} (hm : m.Consistent) (hv : m.validate = .ok ())
include hm hv

theorem activation_of_types {function : UInt32} {type : FuncType} {args : List Value}
    (hlow : m.importedFunctionCount ≤ function.toNat) (ht : m.functionType function = some type)
    (hargs : args.map Value.type = type.params) :
    ∃ a, m.activation function args = some a ∧ a.results = type.results ∧ a.Awaits m [] := by
  obtain ⟨body, code, hbody, hcode, htyped⟩ := hm.validated hv hlow ht
  have hscope : m.scope (args ++ body.locals.map Value.zero) = m.context type body.locals := by
    simp [Module.scope, Module.context, Context.ofFunction, hargs, Function.comp_def, Value.type_zero]
  refine ⟨⟨type.results, args ++ body.locals.map Value.zero, [], [], code⟩, ?_, rfl, type.results, ?_, .nil⟩
  · simp [Module.activation, ht, hbody, hcode]
  · rw [hscope]
    exact htyped

theorem call_advances (henv : env.Respects m) (h : s.Sound m final) {function : UInt32} {type : FuncType}
    {rest : Code} {base out : List ValType} (ht : m.functionType function = some type)
    (hstack : stackTypes s.running.stack = base ++ type.params)
    (hrest : rest.HasType (m.scope s.running.locals) s.running.results
      (reach s.running.blocks s.running.results) (base ++ type.results) out)
    (hnest : Nest (m.scope s.running.locals) s.running.results s.running.blocks out) :
    Advances m final t (s.call m env function rest) := by
  obtain ⟨args, below, hargs, htypes, hbelow⟩ := operands?_of_types hstack
  unfold call
  simp only [ht, hargs]
  by_cases hi : function.toNat < m.importedFunctionCount
  · obtain ⟨hresults, hglobals⟩ := henv s.calls function type args s.globals hi ht htypes h.globals
    simp only [if_pos hi]
    refine .next ⟨hglobals, ⟨out, ?_, hnest⟩, h.callers⟩
    simpa [hresults, hbelow] using hrest
  · obtain ⟨callee, hcallee, hres, hawaits⟩ := activation_of_types hm hv (Nat.le_of_not_lt hi) ht htypes
    simp only [if_neg hi, hcallee]
    refine .next ⟨h.globals, hawaits, .cons ⟨out, ?_, hnest⟩ h.callers⟩
    simpa [hbelow, hres] using hrest

theorem plain_advances (henv : env.Respects m) (h : s.Sound m final) {i : Instr} {hi : i.isPlain = true}
    {rest : Code} {base ts us out : List ValType} (hcode : s.running.code = .plain i hi rest)
    (hstack : stackTypes s.running.stack = base ++ ts)
    (hhead : i.HasType (m.scope s.running.locals) (reach s.running.blocks s.running.results)
      s.running.results ts us)
    (hrest : rest.HasType (m.scope s.running.locals) s.running.results
      (reach s.running.blocks s.running.results) (base ++ us) out)
    (hnest : Nest (m.scope s.running.locals) s.running.results s.running.blocks out) :
    Advances m final s (s.plain m env i rest) := by
  unfold plain
  cases hcall : i.callee? with
  | some function =>
    cases hhead with
    | call ht =>
      obtain rfl := Option.some.inj hcall
      exact call_advances hm hv henv h ht hstack hrest hnest
    | _ => cases hcall
  | none =>
    have hends := Exec.plain_ends (s := { globals := s.globals, locals := s.running.locals, stack := s.running.stack })
      (fun _ => throw .stuck) hhead hcall hstack rfl rfl (hm.globalTypes ▸ h.globals)
    simp only
    generalize outcome (Exec.plain m (fun _ => throw .stuck) i)
      { globals := s.globals, locals := s.running.locals, stack := s.running.stack } = r at hends ⊢
    cases hends with
    | @next t stack locals globals =>
      have hscope : m.scope t.locals = m.scope s.running.locals := by simp only [Module.scope, locals]
      refine .next ⟨globals.trans h.globals, ⟨out, ?_, ?_⟩, h.callers⟩
      · rw [List.append_nil, stack]
        exact hscope ▸ hrest
      · exact hscope ▸ hnest
    | branch label stack => exact branch_advances h label stack
    | return_ stack => exact leave_advances h.globals h.callers stack
    | trap htraps => exact .trap hcode htraps

theorem step_advances (henv : env.Respects m) (h : s.Sound m final) : Advances m final s (s.step m env) := by
  obtain ⟨out, htyped, hnest⟩ := h.running
  rw [List.append_nil] at htyped
  generalize hstack : stackTypes s.running.stack = ins at htyped
  unfold step
  cases hcode : s.running.code with
  | done => exact finish_advances h hcode
  | plain i hi rest =>
    rw [hcode] at htyped
    cases htyped with
    | plain base head tail => exact plain_advances hm hv henv h hcode hstack head tail hnest
  | block type body rest =>
    rw [hcode] at htyped
    cases htyped with
    | block inner tail => exact .next (enter_sound h inner (.block rfl rfl (hstack ▸ tail) hnest))
  | loop type body rest =>
    rw [hcode] at htyped
    cases htyped with
    | loop inner tail => exact .next (enter_sound h inner (.loop rfl rfl inner (hstack ▸ tail) hnest))
  | ifThen type yes rest =>
    rw [hcode] at htyped
    cases htyped with
    | ifThen noResults inner tail =>
      -- The branch that is missing leaves nothing, and so does the block.
      exact choose_advances h hstack inner (noResults ▸ .done _ _) tail hnest
  | ifElse type yes no rest =>
    rw [hcode] at htyped
    cases htyped with
    | ifElse inner other tail => exact choose_advances h hstack inner other tail hnest

/-- Any number of steps from a typed state. If the run stops, it does so in a state that it has reached. -/
theorem run_advances (henv : env.Respects m) (h : s.Sound m final) (n : Nat) :
    ∃ k u, run m env k s = .ok u ∧ Advances m final u (run m env n s) := by
  -- The run is followed to the last sound state: the one that it ends in, or the one whose step stops it.
  induction n generalizing s with
  | zero => exact ⟨0, s, rfl, .next h⟩
  | succ n ih =>
    have hstep := step_advances hm hv henv h
    cases hs : s.step m env with
    | error stop =>
      have hrun : run m env (n + 1) s = .error stop := by
        simp only [run, hs]
        rfl
      rw [hs] at hstep
      exact ⟨0, s, rfl, hrun ▸ hstep⟩
    | ok t =>
      rw [hs] at hstep
      cases hstep with
      | next ht =>
        obtain ⟨k, u, hk, hadv⟩ := ih ht
        refine ⟨k + 1, u, ?_, ?_⟩
        · simp only [run, hs]
          exact hk
        · simp only [run, hs]
          exact hadv

end Calls

end Machine

/-- In a module that was built by its operations and validates, a call of a defined function on arguments
of its types is never stuck, whatever the globals hold and the environment returns. If it returns, it
returns values of its result types; if it traps, it has reached an instruction that has no result. -/
theorem Module.validated_never_stuck (name : Option String) (operations : List Module.Operation)
    (hv : (Module.built name operations).validate = .ok ()) {env : Environment}
    (henv : env.Respects (Module.built name operations)) (function : UInt32)
    (hlow : (Module.built name operations).importedFunctionCount ≤ function.toNat)
    (hhigh : function.toNat < (Module.built name operations).functionCount) :
    ∃ type, (Module.built name operations).functionType function = some type ∧
      ∀ args globals, args.map Value.type = type.params → (Module.built name operations).Holds globals →
        ∃ a, (Module.built name operations).activation function args = some a ∧
          ∀ n, let result := Machine.run (Module.built name operations) env n { globals, running := a }
            result ≠ .error .stuck ∧
              (∀ s, result = .ok s → s.Supplied (Module.built name operations)) ∧
              (∀ values, result = .error (.returned values) → values.map Value.type = type.results) ∧
              (result = .error .trap → ∃ k s i hi rest,
                Machine.run (Module.built name operations) env k { globals, running := a } = .ok s ∧
                  s.running.code = .plain i hi rest ∧ i.Traps s.running.stack) := by
  have hm := Module.built_consistent name operations
  obtain ⟨type, ht⟩ := hm.functionType hhigh
  refine ⟨type, ht, fun args globals hargs hglobals => ?_⟩
  obtain ⟨a, ha, hresults, hawaits⟩ := Machine.activation_of_types hm hv hlow ht hargs
  refine ⟨a, ha, fun n => ?_⟩
  have hsound : Machine.Sound (Module.built name operations) type.results { globals, running := a } :=
    ⟨hglobals, hawaits, hresults ▸ .nil⟩
  obtain ⟨k, s, hk, hadv⟩ := Machine.run_advances hm hv henv hsound n
  generalize Machine.run (Module.built name operations) env n { globals, running := a } = r at hadv ⊢
  cases hadv with
  | next h => simpa using h.supplied
  | returned hvalues => simpa using hvalues
  | trap hcode htraps => exact ⟨by simp, by simp, by simp, fun _ => ⟨k, s, _, _, _, hk, hcode, htraps⟩⟩

namespace Module

def quotient : Module :=
  built none
    [ .importFunction "env" "tick" ⟨[], [.i32]⟩,
      .addGlobal ⟨⟨.i32, true⟩, .i32 0⟩,
      .addFunction ⟨[.i32], [.i32]⟩ (.ofInstrs []
        [ .block .empty, .loop .empty,
          .localGet 0, .numeric (.eqz .w32), .brIf 1,
          .globalGet 0, .i32Const 1, .numeric (.binary .w32 .add), .globalSet 0,
          .localGet 0, .call 0, .numeric (.binary .w32 .sub), .localSet 0,
          .br 0, .end_, .end_,
          .i32Const 12, .globalGet 0, .numeric (.binary .w32 .divU), .end_ ]) ]

def ticking : Environment := fun _ _ _ globals => ([.i32 1], globals)

theorem quotient_validates : quotient.validate = .ok () := by
  have h : quotient.validate.toBool = true := by decide +kernel
  cases hv : quotient.validate with
  | ok => rfl
  | error e =>
    rw [hv] at h
    cases h

theorem ticking_respects : ticking.Respects quotient := by
  intro calls function type args globals hi ht hargs hglobals
  obtain rfl : function = 0 := UInt32.toNat_inj.1 (Nat.lt_one_iff.1 hi)
  obtain rfl := Option.some.inj ht
  exact ⟨rfl, hglobals⟩

theorem validated_never_stuck_quotient :
    ∃ a, quotient.activation 1 [.i32 3] = some a ∧
      ∀ n, Machine.run quotient ticking n { globals := [.i32 0], running := a } ≠ .error .stuck := by
  obtain ⟨type, ht, h⟩ := validated_never_stuck none _ quotient_validates ticking_respects 1 (by decide) (by decide)
  obtain rfl := Option.some.inj ht
  obtain ⟨a, ha, hrun⟩ := h [.i32 3] [.i32 0] rfl rfl
  exact ⟨a, ha, fun n => (hrun n).1⟩

end Module

end ImpWasm.Wasm
