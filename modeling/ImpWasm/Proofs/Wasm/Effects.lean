import ImpWasm.Proofs.Wasm.Machine
import ImpWasm.Proofs.Wasm.Typing
set_option autoImplicit false

namespace ImpWasm.Wasm

section Stacks

variable {stack : List Value} {base ts : List ValType} {t : ValType} {v : Value}

def stackTypes (stack : List Value) : List ValType := (stack.map Value.type).reverse

@[simp] theorem stackTypes_nil : stackTypes [] = [] := rfl

@[simp] theorem stackTypes_cons (v : Value) (stack : List Value) :
    stackTypes (v :: stack) = stackTypes stack ++ [v.type] := by
  simp [stackTypes]

@[simp] theorem stackTypes_append (xs ys : List Value) : stackTypes (xs ++ ys) = stackTypes ys ++ stackTypes xs := by
  simp [stackTypes]

@[simp] theorem stackTypes_reverse (values : List Value) : stackTypes values.reverse = values.map Value.type := by
  simp [stackTypes]

theorem exists_top (h : stackTypes stack = base ++ [t]) :
    ∃ v rest, stack = v :: rest ∧ v.type = t ∧ stackTypes rest = base := by
  cases stack with
  | nil => simp at h
  | cons v rest =>
    rw [stackTypes_cons] at h
    obtain ⟨hrest, hv⟩ := List.append_inj' h rfl
    exact ⟨v, rest, rfl, List.singleton_inj.1 hv, hrest⟩

theorem operands?_of_types (h : stackTypes stack = base ++ ts) :
    ∃ values below, operands? ts stack = some (values, below) ∧ values.map Value.type = ts ∧
      stackTypes below = base := by
  have hmap : stack.map Value.type = ts.reverse ++ base.reverse := by
    simpa [stackTypes] using congrArg List.reverse h
  have htop : (stack.take ts.length).map Value.type = ts.reverse := by
    rw [List.map_take, hmap, List.take_left' (List.length_reverse ..)]
  have hbelow : (stack.drop ts.length).map Value.type = base.reverse := by
    rw [List.map_drop, hmap, List.drop_left' (List.length_reverse ..)]
  have hvalues : (stack.take ts.length).reverse.map Value.type = ts := by
    rw [List.map_reverse, htop, List.reverse_reverse]
  refine ⟨_, stack.drop ts.length, if_pos hvalues, hvalues, ?_⟩
  rw [stackTypes, hbelow, List.reverse_reverse]

theorem Value.type_ofBits (w : IntWidth) (b : BitVec w.bits) : (Value.ofBits w b).type = w.type := by
  cases w <;> rfl

theorem Value.eq_ofBits {w : IntWidth} (h : v.type = w.type) : ∃ b, v = .ofBits w b := by
  cases w with
  | w32 =>
    cases v with
    | i32 b => exact ⟨b.toBitVec, rfl⟩
    | _ => cases h
  | w64 =>
    cases v with
    | i64 b => exact ⟨b.toBitVec, rfl⟩
    | _ => cases h

theorem exists_bits {w : IntWidth} (h : stackTypes stack = base ++ [w.type]) :
    ∃ b rest, stack = .ofBits w b :: rest ∧ stackTypes rest = base := by
  obtain ⟨v, rest, rfl, hv, hrest⟩ := exists_top h
  obtain ⟨b, rfl⟩ := Value.eq_ofBits hv
  exact ⟨b, rest, rfl, hrest⟩

theorem exists_bits_two {w : IntWidth} (h : stackTypes stack = base ++ [w.type, w.type]) :
    ∃ a b rest, stack = .ofBits w b :: .ofBits w a :: rest ∧ stackTypes rest = base := by
  have h' : stackTypes stack = (base ++ [w.type]) ++ [w.type] := by simpa using h
  obtain ⟨b, below, rfl, hbelow⟩ := exists_bits h'
  obtain ⟨a, rest, rfl, hrest⟩ := exists_bits hbelow
  exact ⟨a, b, rest, rfl, hrest⟩

theorem map_type_set {values : List Value} {i : Nat} (h : values[i]?.map Value.type = some v.type) :
    (values.set i v).map Value.type = values.map Value.type := by
  rw [← List.getElem?_map] at h
  obtain ⟨hlt, hget⟩ := List.getElem?_eq_some_iff.1 h
  rw [List.map_set, ← hget, List.set_getElem_self]

end Stacks

/-- An instruction that has no result: `unreachable`, and an operation without a value for its
operands. -/
def Instr.Traps (i : Instr) (stack : List Value) : Prop :=
  i = .unreachable ∨ ∃ (w : IntWidth) (op : BinOp) (a b : BitVec w.bits) (rest : List Value),
    i = .numeric (.binary w op) ∧ stack = .ofBits w b :: .ofBits w a :: rest ∧ op.eval a b = none

/-- The ways in which an instruction may end that leaves `us` in place of its operands. -/
inductive Ends (i : Instr) (labels : List (List ValType)) (results base us : List ValType) (s : State) :
    Except Exit Unit × State → Prop where
  | next {t : State} (stack : stackTypes t.stack = base ++ us)
      (locals : t.locals.map Value.type = s.locals.map Value.type)
      (globals : t.globals.map Value.type = s.globals.map Value.type) :
      Ends i labels results base us s (.ok (), t)
  | branch {t : State} {depth : Nat} {ls below : List ValType} (label : labels[depth]? = some ls)
      (stack : stackTypes t.stack = below ++ ls) : Ends i labels results base us s (.error (.branch depth), t)
  | return_ {t : State} {below : List ValType} (stack : stackTypes t.stack = below ++ results) :
      Ends i labels results base us s (.error .return_, t)
  | trap {t : State} (h : i.Traps s.stack) : Ends i labels results base us s (.error .trap, t)

namespace Exec

variable {i : Instr} {labels : List (List ValType)} {results base ts us : List ValType} {s : State}
  {m : Module}

theorem ends_of_push {e : Exec Unit} {v : Value} {rest : List Value} {t : ValType}
    (h : outcome e s = (.ok (), { s with stack := v :: rest })) (hrest : stackTypes rest = base)
    (hv : v.type = t) : Ends i labels results base [t] s (outcome e s) := by
  rw [h]
  refine .next ?_ rfl rfl
  rw [stackTypes_cons, hrest, hv]

theorem numeric_ends (op : Numeric) (h : stackTypes s.stack = base ++ op.shape.operands) :
    Ends (.numeric op) labels results base [op.shape.result] s (outcome (numeric op) s) := by
  cases op with
  | eqz w =>
    obtain ⟨b, rest, hs, hrest⟩ := exists_bits h
    refine ends_of_push (v := .i32 (if b == 0 then 1 else 0)) ?_ hrest rfl
    rw [numeric, outcome_bind_ok (outcome_popBits w hs)]
    rfl
  | rel w op =>
    obtain ⟨a, b, rest, hs, hrest⟩ := exists_bits_two h
    refine ends_of_push (v := .i32 (if op.eval a b then 1 else 0)) ?_ hrest rfl
    rw [numeric, outcome_bind_ok (outcome_popBits w hs), outcome_bind_ok (outcome_popBits w rfl)]
    rfl
  | unary w op =>
    obtain ⟨b, rest, hs, hrest⟩ := exists_bits h
    refine ends_of_push (v := .ofBits w (op.eval b)) ?_ hrest (Value.type_ofBits ..)
    rw [numeric, outcome_bind_ok (outcome_popBits w hs)]
    rfl
  | binary w op =>
    obtain ⟨a, b, rest, hs, hrest⟩ := exists_bits_two h
    cases hr : op.eval a b with
    | some v =>
      refine ends_of_push (v := .ofBits w v) ?_ hrest (Value.type_ofBits ..)
      rw [numeric, outcome_bind_ok (outcome_popBits w hs), outcome_bind_ok (outcome_popBits w rfl), hr]
      rfl
    | none =>
      rw [numeric, outcome_bind_ok (outcome_popBits w hs), outcome_bind_ok (outcome_popBits w rfl), hr]
      exact .trap (.inr ⟨w, op, a, b, rest, rfl, hs, hr⟩)
  | wrap =>
    obtain ⟨b, rest, hs, hrest⟩ := exists_bits (w := .w64) h
    refine ends_of_push (v := .i32 (.ofBitVec (b.setWidth 32))) ?_ hrest rfl
    rw [numeric, outcome_bind_ok (outcome_popBits .w64 hs)]
    rfl
  | extendS =>
    obtain ⟨b, rest, hs, hrest⟩ := exists_bits (w := .w32) h
    refine ends_of_push (v := .i64 (.ofBitVec (b.signExtend 64))) ?_ hrest rfl
    rw [numeric, outcome_bind_ok (outcome_popBits .w32 hs)]
    rfl
  | extendU =>
    obtain ⟨b, rest, hs, hrest⟩ := exists_bits (w := .w32) h
    refine ends_of_push (v := .i64 (.ofBitVec (b.setWidth 64))) ?_ hrest rfl
    rw [numeric, outcome_bind_ok (outcome_popBits .w32 hs)]
    rfl

theorem pop_of_types {t : ValType} (h : stackTypes s.stack = base ++ [t]) :
    ∃ v rest, outcome pop s = (.ok v, { s with stack := rest }) ∧ v.type = t ∧ stackTypes rest = base := by
  obtain ⟨v, rest, hs, hv, hrest⟩ := exists_top h
  exact ⟨v, rest, outcome_pop hs, hv, hrest⟩

theorem popTruth_of_types (h : stackTypes s.stack = base ++ [.i32]) :
    ∃ c rest, outcome popTruth s = (.ok c, { s with stack := rest }) ∧ stackTypes rest = base := by
  obtain ⟨b, rest, hs, hrest⟩ := exists_bits (w := .w32) h
  refine ⟨b != 0, rest, ?_, hrest⟩
  rw [popTruth, outcome_bind_ok (outcome_popBits .w32 hs)]
  rfl

theorem readLocal_of_types {i : UInt32} {t : ValType} (h : (s.locals.map Value.type)[i.toNat]? = some t) :
    ∃ v, outcome (readLocal i) s = (.ok (), { s with stack := v :: s.stack }) ∧ v.type = t := by
  rw [List.getElem?_map] at h
  obtain ⟨v, hv, ht⟩ := Option.map_eq_some_iff.1 h
  refine ⟨v, ?_, ht⟩
  simp only [readLocal, outcome_bind, outcome_get, hv, outcome_push]

theorem writeLocal_of_types {i : UInt32} {t : ValType} (hstack : stackTypes s.stack = base ++ [t])
    (h : (s.locals.map Value.type)[i.toNat]? = some t) :
    ∃ locals rest, outcome (writeLocal i) s = (.ok (), { s with locals, stack := rest }) ∧
      locals.map Value.type = s.locals.map Value.type ∧ stackTypes rest = base := by
  obtain ⟨v, rest, hpop, hv, hrest⟩ := pop_of_types hstack
  rw [List.getElem?_map, ← hv] at h
  refine ⟨s.locals.set i.toNat v, rest, ?_, map_type_set h, hrest⟩
  simp only [writeLocal, outcome_bind, hpop, outcome_get, h, if_true, outcome_set]

theorem readGlobal_of_types {i : UInt32} {g : GlobalType} (h : m.globalType i = some g)
    (hglobals : s.globals.map Value.type = m.globalTypes.map GlobalType.type) :
    ∃ v, outcome (readGlobal i) s = (.ok (), { s with stack := v :: s.stack }) ∧ v.type = g.type := by
  have hat : (s.globals.map Value.type)[i.toNat]? = some g.type := by
    rw [hglobals, List.getElem?_map, show m.globalTypes[i.toNat]? = some g from h]
    rfl
  rw [List.getElem?_map] at hat
  obtain ⟨v, hv, ht⟩ := Option.map_eq_some_iff.1 hat
  refine ⟨v, ?_, ht⟩
  simp only [readGlobal, outcome_bind, outcome_get, hv, outcome_push]

theorem writeGlobal_of_types {i : UInt32} {g : GlobalType} (hstack : stackTypes s.stack = base ++ [g.type])
    (h : m.globalType i = some g) (hmutable : g.isMutable = true)
    (hglobals : s.globals.map Value.type = m.globalTypes.map GlobalType.type) :
    ∃ globals rest, outcome (writeGlobal m i) s = (.ok (), { s with globals, stack := rest }) ∧
      globals.map Value.type = s.globals.map Value.type ∧ stackTypes rest = base := by
  obtain ⟨v, rest, hpop, hv, hrest⟩ := pop_of_types hstack
  have hat : s.globals[i.toNat]?.map Value.type = some v.type := by
    rw [← List.getElem?_map, hglobals, List.getElem?_map, show m.globalTypes[i.toNat]? = some g from h, hv]
    rfl
  have hok : m.globalType i = some ⟨v.type, true⟩ ∧ i.toNat < s.globals.length := by
    obtain ⟨_, hget, _⟩ := Option.map_eq_some_iff.1 hat
    exact ⟨by rw [h, hv, ← hmutable], (List.getElem?_eq_some_iff.1 hget).1⟩
  refine ⟨s.globals.set i.toNat v, rest, ?_, map_type_set hat, hrest⟩
  simp only [writeGlobal, outcome_bind, hpop, outcome_get, hok, if_pos, and_self, outcome_set]

/-- A plain instruction that is no call, on a stack that has its operands on top. -/
theorem plain_ends {ctx : Context} (call : UInt32 → Exec Unit) (hi : i.HasType ctx labels results ts us)
    (hcall : i.callee? = none) (hstack : stackTypes s.stack = base ++ ts)
    (hlocals : ctx.locals = s.locals.map Value.type) (hctx : ctx.globalType = m.globalType)
    (hglobals : s.globals.map Value.type = m.globalTypes.map GlobalType.type) :
    Ends i labels results base us s (outcome (plain m call i) s) := by
  cases hi with
  | unreachable => exact .trap (.inl rfl)
  | nop => exact .next hstack rfl rfl
  | br hl ts us =>
    rw [← List.append_assoc] at hstack
    exact .branch hl hstack
  | brIf hl =>
    rw [← List.append_assoc] at hstack
    obtain ⟨c, rest, hpop, hrest⟩ := popTruth_of_types hstack
    rw [plain, outcome_bind_ok hpop]
    cases c with
    | true => exact .branch hl hrest
    | false => exact .next hrest rfl rfl
  | return_ ts us =>
    rw [← List.append_assoc] at hstack
    exact .return_ hstack
  | call hf => cases hcall
  | drop t =>
    obtain ⟨v, rest, hpop, _, hrest⟩ := pop_of_types hstack
    have hdrop : outcome (plain m call .drop) s = (.ok (), { s with stack := rest }) := outcome_bind_ok hpop
    rw [hdrop]
    exact .next (by simpa using hrest) rfl rfl
  | select t =>
    have hthree : stackTypes s.stack = (base ++ [t] ++ [t]) ++ [.i32] := by simpa using hstack
    obtain ⟨c, below, hpop, hbelow⟩ := popTruth_of_types hthree
    obtain ⟨b, below', hpop', hb, hbelow'⟩ := pop_of_types (s := { s with stack := below }) hbelow
    obtain ⟨a, rest, hpop'', ha, hrest⟩ := pop_of_types (s := { s with stack := below' }) hbelow'
    refine ends_of_push (v := if c then a else b) ?_ hrest ?_
    · rw [plain, outcome_bind_ok hpop, outcome_bind_ok hpop', outcome_bind_ok hpop'', if_pos (ha.trans hb.symm)]
      rfl
    · cases c with
      | true => exact ha
      | false => exact hb
  | localGet hl =>
    obtain ⟨v, hread, hv⟩ := readLocal_of_types (hlocals ▸ hl)
    exact ends_of_push hread (by simpa using hstack) hv
  | localSet hl =>
    obtain ⟨locals, rest, hwrite, hsame, hrest⟩ := writeLocal_of_types hstack (hlocals ▸ hl)
    rw [plain, hwrite]
    exact .next (by simpa using hrest) hsame rfl
  | localTee hl =>
    obtain ⟨locals, rest, hwrite, hsame, hrest⟩ := writeLocal_of_types hstack (hlocals ▸ hl)
    obtain ⟨v, hread, hv⟩ := readLocal_of_types (s := { s with locals, stack := rest }) (by
      rw [hsame, ← hlocals, hl])
    rw [plain, outcome_bind_ok hwrite, hread]
    exact .next (by rw [stackTypes_cons, hrest, hv]) hsame rfl
  | globalGet hg =>
    obtain ⟨v, hread, hv⟩ := readGlobal_of_types (hctx ▸ hg) hglobals
    exact ends_of_push hread (by simpa using hstack) hv
  | globalSet hg hmutable =>
    obtain ⟨globals, rest, hwrite, hsame, hrest⟩ := writeGlobal_of_types hstack (hctx ▸ hg) hmutable hglobals
    rw [plain, hwrite]
    exact .next (by simpa using hrest) rfl hsame
  | i32Const v => exact ends_of_push rfl (by simpa using hstack) rfl
  | i64Const v => exact ends_of_push rfl (by simpa using hstack) rfl
  | numeric op => exact numeric_ends op hstack

end Exec

end ImpWasm.Wasm
