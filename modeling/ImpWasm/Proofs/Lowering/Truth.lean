import ImpWasm.Proofs.Lowering.Linking
import ImpWasm.Proofs.Typing.Elaboration
set_option autoImplicit false

namespace ImpWasm

open Wasm (Code Exec Exit Value)

namespace Wasm

def Value.IsTruth (v : Value) : Prop := v = .i32 0 ∨ v = .i32 1

theorem Value.isTruth_const (b : Bool) : (Value.i32 (boolConst b)).IsTruth := by
  cases b
  · exact .inl rfl
  · exact .inr rfl

namespace Exec

variable {s s' : State}

theorem popBits_ok {x : BitVec 32} (h : outcome (popBits .w32) s = (.ok x, s')) :
    ∃ v rest, s.stack = .i32 v :: rest ∧ s' = { s with stack := rest } := by
  obtain ⟨v, t, hv, hx⟩ := outcome_bind_eq_ok.1 h
  cases hs : s.stack with
  | nil => simp [pop, outcome_bind, hs] at hv
  | cons top rest =>
    rw [outcome_pop hs] at hv
    cases hv
    cases v with
    | i32 v =>
      cases hx
      exact ⟨v, rest, rfl, rfl⟩
    | _ => cases hx

theorem operator_ok {op : Operator} (h : outcome (numeric op.lower) s = (.ok (), s')) :
    ∃ a b v rest, s.stack = .i32 b :: .i32 a :: rest ∧ op.eval a b = some v ∧
      s' = { s with stack := .i32 v :: rest } := by
  have hpops : ∃ f : BitVec 32 → BitVec 32 → Exec Unit,
      numeric op.lower = popBits .w32 >>= fun b => popBits .w32 >>= f b := by
    cases op <;> exact ⟨_, rfl⟩
  obtain ⟨f, hf⟩ := hpops
  have hrun := h
  rw [hf] at hrun
  obtain ⟨_, t, ht, hrun⟩ := outcome_bind_eq_ok.1 hrun
  obtain ⟨b, below, hb, rfl⟩ := popBits_ok ht
  obtain ⟨_, t, ht, -⟩ := outcome_bind_eq_ok.1 hrun
  obtain ⟨a, rest, ha, -⟩ := popBits_ok ht
  obtain rfl : below = .i32 a :: rest := ha
  rw [outcome_operator op hb] at h
  cases hv : op.eval a b with
  | none =>
    rw [hv] at h
    cases h
  | some v =>
    rw [hv] at h
    cases h
    exact ⟨a, b, v, rest, hb, hv, rfl⟩

theorem readLocal_ok {i : UInt32} (h : outcome (readLocal i) s = (.ok (), s')) :
    ∃ v, s.locals[i.toNat]? = some v ∧ s' = { s with stack := v :: s.stack } := by
  simp only [readLocal, outcome_bind, outcome_get] at h
  split at h
  · rename_i v hv
    cases h
    exact ⟨v, hv, rfl⟩
  · cases h

theorem readGlobal_ok {i : UInt32} (h : outcome (readGlobal i) s = (.ok (), s')) :
    ∃ v, s.globals[i.toNat]? = some v ∧ s' = { s with stack := v :: s.stack } := by
  simp only [readGlobal, outcome_bind, outcome_get] at h
  split at h
  · rename_i v hv
    cases h
    exact ⟨v, hv, rfl⟩
  · cases h

theorem popAll_ok {types : List ValType} {values : List Value}
    (h : outcome (popAll types) s = (.ok values, s')) : s' = { s with stack := s.stack.drop types.length } := by
  simp only [popAll, outcome_bind, outcome_get] at h
  split at h
  · cases h
    rfl
  · cases h

end Exec

namespace Module

variable {m : Module} {host : Host} {s s' : State}

theorem activate_ok {locals : List Value} {body : Exec Unit}
    (h : outcome (activate 1 locals body) s = (.ok (), s')) :
    s'.locals = s.locals ∧ ∃ v, s'.stack = v :: s.stack := by
  have hone : ∀ t : State, outcome (if 1 ≤ t.stack.length then
      set { t with locals := s.locals, stack := t.stack.take 1 ++ s.stack } else throw .stuck : Exec Unit) t =
        (.ok (), s') → s'.locals = s.locals ∧ ∃ v, s'.stack = v :: s.stack := by
    intro t ht
    cases hs : t.stack with
    | nil => simp [hs] at ht
    | cons v rest =>
      simp only [hs, List.length_cons, Nat.le_add_left, if_true] at ht
      cases ht
      exact ⟨rfl, v, rfl⟩
  simp only [activate, outcome_bind, outcome_get, outcome_set, outcome_attempt] at h
  split at h <;> first | exact hone _ h | cases h

def OneResult (m : Module) (host : Host) : Prop :=
  ∀ trace f args results, f ∈ m.functionImports → host trace f.1 f.2 args = some results → results.length = 1

theorem callHost_ok {module name : String} {args : List Value} (hhost : m.OneResult host)
    (hf : (module, name) ∈ m.functionImports) (h : outcome (callHost host module name args) s = (.ok (), s')) :
    s'.locals = s.locals ∧ ∃ v, s'.stack = v :: s.stack := by
  simp only [callHost, outcome_bind, outcome_get, outcome_modify] at h
  split at h
  · rename_i results hr
    obtain ⟨v, rfl⟩ := List.length_eq_one_iff.1 (hhost s.trace (module, name) args results hf hr)
    cases h
    exact ⟨rfl, v, rfl⟩
  · cases h

theorem invoke_ok {n : Nat} {i : UInt32} {type : FuncType} (hhost : m.OneResult host)
    (ht : m.functionType i = some type) (hr : type.results.length = 1)
    (h : outcome (m.invoke host n i) s = (.ok (), s')) :
    s'.locals = s.locals ∧ ∃ v, s'.stack = v :: s.stack.drop type.params.length := by
  cases n with
  | zero => cases h
  | succ n =>
    simp only [invoke, ht] at h
    obtain ⟨args, t, hargs, h⟩ := outcome_bind_eq_ok.1 h
    obtain rfl := Exec.popAll_ok hargs
    split at h
    · rename_i hf
      exact callHost_ok hhost (List.mem_of_getElem? hf) h
    · split at h
      · cases h
      · split at h
        · cases h
        · rw [hr] at h
          exact activate_ok h

end Module

end Wasm

def Operator.isComparison : Operator → Bool
  | .eq | .ne | .lt | .le | .gt | .ge => true
  | .add | .sub | .mul | .div | .mod | .and | .or => false

theorem Operator.isTruth_comparison {op : Operator} (hop : op.isComparison = true) {a b v : Int32}
    (h : op.eval a b = some v) : (Value.i32 v).IsTruth := by
  cases op with
  | eq | ne | lt | le | gt | ge =>
    cases h
    exact Value.isTruth_const _
  | _ => cases hop

theorem Operator.isTruth_eval {op : Operator} {a b v : Int32} (h : op.eval a b = some v) (hadd : op ≠ .add)
    (hsub : op ≠ .sub) (ha : (Value.i32 a).IsTruth) (hb : (Value.i32 b).IsTruth) : (Value.i32 v).IsTruth := by
  have htable : ∀ x y w, op.eval (boolConst x) (boolConst y) = some w → w = 0 ∨ w = 1 := by
    intro x y w hw
    cases op <;> first | contradiction | cases x <;> cases y <;> cases hw <;> decide
  have hconst {w : Int32} (hw : (Value.i32 w).IsTruth) : ∃ x, w = boolConst x :=
    hw.elim (fun h => ⟨false, Value.i32.inj h⟩) (fun h => ⟨true, Value.i32.inj h⟩)
  obtain ⟨x, rfl⟩ := hconst ha
  obtain ⟨y, rfl⟩ := hconst hb
  exact (htable x y v h).imp (congrArg Value.i32) (congrArg Value.i32)

namespace Typed

/-- Truth values stay truth values on the way to the value of the expression: bools are not added or
subtracted, and the logical operators are applied to bools. What is compared, and what a function is called on,
is not on the way. -/
def Expr.keepsTruth : Expr → Bool
  | .binary op left right _ _ =>
    match op with
    | .eq | .ne | .lt | .le | .gt | .ge => true
    | .add | .sub => left.type != .bool
    | .and | .or => left.type == .bool && left.keepsTruth && right.keepsTruth
    | .mul | .div | .mod => left.type != .bool || left.keepsTruth && right.keepsTruth
  | _ => true

end Typed

def Indices.value? (ix : Indices) (l : Locals) (symbol : Nat) (s : Wasm.State) : Option Value :=
  match l.slots.lookup symbol with
  | some i => s.locals[i.toNat]?
  | none =>
    match ix.globals.lookup symbol with
    | some i => s.globals[i.toNat]?
    | none => none

/-- Every variable of type `bool` that is in scope holds a truth value. -/
def HoldsTruths (c : Checker) (ix : Indices) (l : Locals) (s : Wasm.State) : Prop :=
  ∀ name symbol v, c.env.lookup name = some symbol → symbol.type = .bool →
    ix.value? l symbol.id s = some v → v.IsTruth

/-- Calls of the functions declared so far leave truth values in the variables of type `bool` and, if that is
the type of their result, return one. -/
def ReturnsTruths (c : Checker) (ix : Indices) (l : Locals) (call : UInt32 → Exec Unit) : Prop :=
  ∀ name signature i s s', c.functions.get? name = some signature → ix.functions.lookup name = some i →
    HoldsTruths c ix l s → outcome (call i) s = (.ok (), s') →
      HoldsTruths c ix l s' ∧ (signature.result = .bool → ∀ v, s'.stack.head? = some v → v.IsTruth)

def FollowsSignatures (c : Checker) (ix : Indices) (m : Wasm.Module) : Prop :=
  ∀ name signature i, c.functions.get? name = some signature → ix.functions.lookup name = some i →
    m.functionType i = some signature.lowered

section Code

variable {c : Checker} {ix : Indices} {l : Locals} {m : Wasm.Module} {host : Wasm.Host} {fuel : Nat}

/-- Code that runs on to its end leaves the variables in order and puts values on the stack, the last of them on
top. -/
def Puts (c : Checker) (ix : Indices) (l : Locals) (e : Exec Unit) (P : List Value → Prop) : Prop :=
  ∀ s s', HoldsTruths c ix l s → outcome e s = (.ok (), s') →
    HoldsTruths c ix l s' ∧ ∃ values, P values ∧ s'.stack = values.reverse ++ s.stack

theorem Puts.bind {e e' : Exec Unit} {P Q : List Value → Prop} (h : Puts c ix l e P) (h' : Puts c ix l e' Q) :
    Puts c ix l (do e; e') fun values => ∃ xs ys, values = xs ++ ys ∧ P xs ∧ Q ys := by
  intro s s' hs hrun
  obtain ⟨_, t, ht, hrun⟩ := outcome_bind_eq_ok.1 hrun
  obtain ⟨hmid, xs, hP, hxs⟩ := h s t hs ht
  obtain ⟨hend, ys, hQ, hys⟩ := h' t s' hmid hrun
  exact ⟨hend, xs ++ ys, ⟨xs, ys, rfl, hP, hQ⟩, by rw [hys, hxs]; simp⟩

theorem Puts.weaken {e : Exec Unit} {P Q : List Value → Prop} (h : Puts c ix l e P)
    (hPQ : ∀ values, P values → Q values) : Puts c ix l e Q := by
  intro s s' hs hrun
  obtain ⟨hend, values, hP, hstack⟩ := h s s' hs hrun
  exact ⟨hend, values, hPQ values hP, hstack⟩

def Leaves (e : Typed.Expr) (values : List Value) : Prop :=
  ∃ v, values = [v] ∧ (e.type = .bool → e.keepsTruth = true → v.IsTruth)

variable {call : UInt32 → Exec Unit}

theorem run_plain {i : Wasm.Instr} (hi : i.isPlain = true) :
    Code.run m call fuel (.plain i hi .done) = Exec.plain m call i := by
  simp [Code.run]

theorem puts_const {v : Int32} {P : List Value → Prop} (hi : (Wasm.Instr.i32Const v).isPlain = true)
    (h : P [.i32 v]) : Puts c ix l (Code.run m call fuel (.plain (.i32Const v) hi .done)) P := by
  rw [run_plain]
  intro s s' hs hrun
  cases hrun
  exact ⟨hs, [.i32 v], h, rfl⟩

theorem puts_get {name : String} {symbol : Symbol} {span : Span} {i : Wasm.Instr} (hi : i.isPlain = true)
    (hname : c.env.lookup name = some symbol)
    (h : ix.access l ⟨name, symbol.id, span⟩ .localGet .globalGet = .ok i) :
    Puts c ix l (Code.run m call fuel (.plain i hi .done))
      (Leaves (.ident ⟨name, symbol.id, span⟩ symbol.type span)) := by
  rw [run_plain]
  intro s s' hs hrun
  have hvalue : ∃ v, ix.value? l symbol.id s = some v ∧ s' = { s with stack := v :: s.stack } := by
    unfold Indices.value?
    obtain ⟨k, hk, rfl⟩ | ⟨hnone, k, hk, rfl⟩ := Indices.access_ok h
    · simp only [hk]
      exact Exec.readLocal_ok hrun
    · simp only [hnone, hk]
      exact Exec.readGlobal_ok hrun
  obtain ⟨v, hv, rfl⟩ := hvalue
  exact ⟨hs, [v], ⟨v, rfl, fun hbool _ => hs name symbol v hname hbool hv⟩, rfl⟩

theorem isTruth_operator {op : Operator} {left right : Typed.Expr} {a b r : Int32} {span : Span}
    (ht : left.type = right.type)
    (ha : left.type = .bool → left.keepsTruth = true → (Value.i32 a).IsTruth)
    (hb : right.type = .bool → right.keepsTruth = true → (Value.i32 b).IsTruth) (heval : op.eval a b = some r)
    (hbool : op.resultType left.type = .bool)
    (hkeeps : (Typed.Expr.binary op left right (op.resultType left.type) span).keepsTruth = true) :
    (Value.i32 r).IsTruth := by
  cases op with
  | eq | ne | lt | le | gt | ge => exact Operator.isTruth_comparison rfl heval
  | add | sub =>
    rw [Operator.resultType] at hbool
    simp [Typed.Expr.keepsTruth, hbool] at hkeeps
  | mul | div | mod =>
    rw [Operator.resultType] at hbool
    simp only [Typed.Expr.keepsTruth, hbool, bne_self_eq_false, Bool.false_or, Bool.and_eq_true] at hkeeps
    exact Operator.isTruth_eval heval nofun nofun (ha hbool hkeeps.1) (hb (ht ▸ hbool) hkeeps.2)
  | and | or =>
    simp only [Typed.Expr.keepsTruth, Bool.and_eq_true, beq_iff_eq] at hkeeps
    obtain ⟨⟨hleft, hl⟩, hr⟩ := hkeeps
    exact Operator.isTruth_eval heval nofun nofun (ha hleft hl) (hb (ht ▸ hleft) hr)

theorem puts_operator {op : Operator} {left right : Typed.Expr} {x y : Code} {span : Span}
    (hi : (Wasm.Instr.numeric op.lower).isPlain = true)
    (hx : Puts c ix l (x.run m call fuel) (Leaves left)) (hy : Puts c ix l (y.run m call fuel) (Leaves right))
    (ht : left.type = right.type) :
    Puts c ix l ((x.append (y.append (.plain (.numeric op.lower) hi .done))).run m call fuel)
      (Leaves (.binary op left right (op.resultType left.type) span)) := by
  rw [Code.run_append, Code.run_append, run_plain]
  intro s s' hs hrun
  obtain ⟨_, t, hxt, hrun⟩ := outcome_bind_eq_ok.1 hrun
  obtain ⟨ht', _, ⟨v, rfl, hv⟩, hstack⟩ := hx s t hs hxt
  obtain ⟨_, u, hyu, hrun⟩ := outcome_bind_eq_ok.1 hrun
  obtain ⟨hu, _, ⟨w, rfl, hw⟩, hstack'⟩ := hy t u ht' hyu
  obtain ⟨a, b, r, rest, hops, heval, rfl⟩ := Exec.operator_ok hrun
  rw [hstack', hstack] at hops
  simp only [List.reverse_cons, List.reverse_nil, List.nil_append, List.singleton_append, List.cons.injEq] at hops
  obtain ⟨rfl, rfl, rfl⟩ := hops
  exact ⟨hu, [.i32 r], ⟨.i32 r, rfl, fun hbool hkeeps => isTruth_operator ht hv hw heval hbool hkeeps⟩, rfl⟩

theorem puts_call {name : String} {signature : Signature} {i : UInt32} {n : Nat} {args : List Typed.Expr} {x : Code}
    {span : Span} (hhost : m.OneResult host) (hlinked : FollowsSignatures c ix m)
    (hcalls : ReturnsTruths c ix l (m.invoke host n)) (hi : (Wasm.Instr.call i).isPlain = true)
    (hs : c.functions.get? name = some signature) (hindex : ix.functions.lookup name = some i)
    (harity : signature.arity = args.length)
    (hx : Puts c ix l (x.run m (m.invoke host n) fuel) fun values => values.length = args.length) :
    Puts c ix l ((x.append (.plain (.call i) hi .done)).run m (m.invoke host n) fuel)
      (Leaves (.call name args signature.result span)) := by
  rw [Code.run_append, run_plain]
  intro s s' hs' hrun
  obtain ⟨_, t, hxt, hrun⟩ := outcome_bind_eq_ok.1 hrun
  obtain ⟨ht, values, hlen, hstack⟩ := hx s t hs' hxt
  obtain ⟨hlocals, v, hv⟩ := Wasm.Module.invoke_ok hhost (hlinked name signature i hs hindex) rfl hrun
  obtain ⟨hend, htruth⟩ := hcalls name signature i t s' hs hindex ht hrun
  refine ⟨hend, [v], ⟨v, rfl, fun hbool _ => htruth hbool v (by rw [hv]; rfl)⟩, ?_⟩
  have hdrop : t.stack.drop signature.lowered.params.length = s.stack := by
    rw [hstack, Signature.lowered, List.length_replicate, harity, ← hlen, ← List.length_reverse, List.drop_left]
  rw [hv, hdrop]
  rfl

variable {n : Nat}

mutual

theorem Expr.lower_puts (hhost : m.OneResult host) (hlinked : FollowsSignatures c ix m)
    (hcalls : ReturnsTruths c ix l (m.invoke host n)) : {e₀ : Expr} → {e : Typed.Expr} → {is : List Wasm.Instr} →
    c.expr e₀ = .ok e → e.lower ix l = .ok is →
    ∃ code : Code, code.instrs = is ∧ Puts c ix l (code.run m (m.invoke host n) fuel) (Leaves e)
  | .ident name span, e, is, he, h => by
    obtain ⟨symbol, hname, rfl⟩ := Checker.expr_ident_ok.1 he
    obtain ⟨i, hi, rfl⟩ := Typed.Expr.lower_ident h
    have hplain : i.isPlain = true := by
      obtain ⟨_, _, rfl⟩ | ⟨_, _, _, rfl⟩ := Indices.access_ok hi <;> rfl
    exact ⟨.plain i hplain .done, rfl, puts_get hplain hname hi⟩
  | .int value span, e, is, he, h => by
    cases he
    cases h
    exact ⟨_, rfl, puts_const rfl ⟨_, rfl, nofun⟩⟩
  | .bool value span, e, is, he, h => by
    cases he
    cases h
    exact ⟨_, rfl, puts_const rfl ⟨_, rfl, fun _ _ => Value.isTruth_const value⟩⟩
  | .string value span, e, is, he, h => by
    cases he
    cases h
  | .binary op left right span, e, is, he, h => by
    obtain ⟨a, b, ha, hb, ht, rfl⟩ := Checker.expr_binary_ok.1 he
    obtain ⟨xs, ys, hxs, hys, rfl⟩ := Typed.Expr.lower_binary h
    obtain ⟨x, rfl, hx⟩ := Expr.lower_puts hhost hlinked hcalls ha hxs
    obtain ⟨y, rfl, hy⟩ := Expr.lower_puts hhost hlinked hcalls hb hys
    exact ⟨x.append (y.append (.plain (.numeric op.lower) rfl .done)), by simp [Code.instrs],
      puts_operator rfl hx hy ht⟩
  | .call callee args span, e, is, he, h => by
    obtain ⟨as, signature, has, hs, htypes, rfl⟩ := Checker.expr_call_ok.1 he
    obtain ⟨xs, i, hxs, hi, rfl⟩ := Typed.Expr.lower_call h
    obtain ⟨x, rfl, hx⟩ := Expr.lowerAll_puts hhost hlinked hcalls has hxs
    exact ⟨x.append (.plain (.call i) rfl .done), by simp [Code.instrs],
      puts_call hhost hlinked hcalls rfl hs hi (by simp [Signature.arity, htypes]) hx⟩

theorem Expr.lowerAll_puts (hhost : m.OneResult host) (hlinked : FollowsSignatures c ix m)
    (hcalls : ReturnsTruths c ix l (m.invoke host n)) : {es₀ : List Expr} → {es : List Typed.Expr} →
    {is : List Wasm.Instr} → c.exprs es₀ = .ok es → Typed.Expr.lowerAll ix l es = .ok is →
    ∃ code : Code, code.instrs = is ∧
      Puts c ix l (code.run m (m.invoke host n) fuel) fun values => values.length = es.length
  | [], es, is, he, h => by
    cases he
    cases h
    refine ⟨.done, rfl, fun s s' hs hrun => ?_⟩
    cases hrun
    exact ⟨hs, [], rfl, rfl⟩
  | e₀ :: es₀, es, is, he, h => by
    obtain ⟨a, as, ha, has, rfl⟩ := Checker.exprs_cons_ok.1 he
    obtain ⟨xs, ys, hxs, hys, rfl⟩ := Typed.Expr.lowerAll_cons h
    obtain ⟨x, rfl, hx⟩ := Expr.lower_puts hhost hlinked hcalls ha hxs
    obtain ⟨y, rfl, hy⟩ := Expr.lowerAll_puts hhost hlinked hcalls has hys
    refine ⟨x.append y, by simp, ?_⟩
    rw [Code.run_append]
    refine (hx.bind hy).weaken ?_
    rintro _ ⟨_, values, rfl, ⟨v, rfl, _⟩, hlen⟩
    simp [hlen]

end

end Code

section Canonical

variable {c : Checker} {ix : Indices} {l : Locals} {m : Wasm.Module} {host : Wasm.Host}

end Canonical

section Guard

def Checker.guard : Checker :=
  (Checker.stmts [.var ⟨"b", {}⟩ none (some (.bool true {})) {},
    .imported ⟨"f", {}⟩ (some ⟨[⟨⟨"x", {}⟩, ⟨.bool, {}⟩, {}⟩], {}⟩) ⟨.bool, {}⟩ {}] {}).2

def Indices.guard : Indices := { functions := [("f", 0)], globals := [(0, 0)] }

def Wasm.Module.guard : Wasm.Module :=
  { types := [⟨[.i32], [.i32]⟩], imports := [⟨"env", "f", .function 0⟩], globals := [⟨⟨.i32, true⟩, .i32 1⟩],
    functionTypes := [0], globalTypes := [⟨.i32, true⟩] }

end Guard

section Spoiled

end Spoiled

end ImpWasm
