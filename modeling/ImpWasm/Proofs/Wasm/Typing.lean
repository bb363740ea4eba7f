import ImpWasm.Proofs.Wasm.Code
import ImpWasm.Wasm.Validator
set_option autoImplicit false

/-!
The type system of nested code. A type says what code takes from the top of the stack and what it
leaves there, the deepest operand first. After an unconditional branch the stack may be anything,
so code that cannot be reached has many types.
-/
namespace ImpWasm.Wasm

/-- Types of plain instructions, under the operand types that each label in reach takes (the
innermost first) and the results of the function. -/
inductive Instr.HasType (ctx : Context) (labels : List (List ValType)) (results : List ValType) :
    Instr → List ValType → List ValType → Prop where
  | unreachable (ts us : List ValType) : HasType ctx labels results .unreachable ts us
  | nop : HasType ctx labels results .nop [] []
  | br {d : UInt32} {ls : List ValType} (h : labels[d.toNat]? = some ls) (ts us : List ValType) :
      HasType ctx labels results (.br d) (ts ++ ls) us
  | brIf {d : UInt32} {ls : List ValType} (h : labels[d.toNat]? = some ls) :
      HasType ctx labels results (.brIf d) (ls ++ [.i32]) ls
  | return_ (ts us : List ValType) : HasType ctx labels results .return_ (ts ++ results) us
  | call {i : UInt32} {t : FuncType} (h : ctx.functionType i = some t) :
      HasType ctx labels results (.call i) t.params t.results
  | drop (t : ValType) : HasType ctx labels results .drop [t] []
  | select (t : ValType) : HasType ctx labels results .select [t, t, .i32] [t]
  | localGet {i : UInt32} {t : ValType} (h : ctx.locals[i.toNat]? = some t) :
      HasType ctx labels results (.localGet i) [] [t]
  | localSet {i : UInt32} {t : ValType} (h : ctx.locals[i.toNat]? = some t) :
      HasType ctx labels results (.localSet i) [t] []
  | localTee {i : UInt32} {t : ValType} (h : ctx.locals[i.toNat]? = some t) :
      HasType ctx labels results (.localTee i) [t] [t]
  | globalGet {i : UInt32} {g : GlobalType} (h : ctx.globalType i = some g) :
      HasType ctx labels results (.globalGet i) [] [g.type]
  | globalSet {i : UInt32} {g : GlobalType} (h : ctx.globalType i = some g) (hm : g.isMutable = true) :
      HasType ctx labels results (.globalSet i) [g.type] []
  | i32Const (v : Int32) : HasType ctx labels results (.i32Const v) [] [.i32]
  | i64Const (v : Int64) : HasType ctx labels results (.i64Const v) [] [.i64]
  | numeric (op : Numeric) : HasType ctx labels results (.numeric op) op.shape.operands [op.shape.result]

/-- Types of nested code. An instruction leaves alone what lies below its operands. A branch to a
loop goes to its start, which takes nothing; a branch to any other block goes to its end. -/
inductive Code.HasType (ctx : Context) (results : List ValType) :
    List (List ValType) → Code → List ValType → List ValType → Prop where
  | done (labels : List (List ValType)) (ts : List ValType) : HasType ctx results labels .done ts ts
  | plain {labels : List (List ValType)} {i : Instr} {h : i.isPlain = true} {rest : Code}
      {ts us out : List ValType} (base : List ValType) (head : i.HasType ctx labels results ts us)
      (tail : HasType ctx results labels rest (base ++ us) out) :
      HasType ctx results labels (.plain i h rest) (base ++ ts) out
  | block {labels : List (List ValType)} {t : BlockType} {body rest : Code} {base out : List ValType}
      (inner : HasType ctx results (t.results :: labels) body [] t.results)
      (tail : HasType ctx results labels rest (base ++ t.results) out) :
      HasType ctx results labels (.block t body rest) base out
  | loop {labels : List (List ValType)} {t : BlockType} {body rest : Code} {base out : List ValType}
      (inner : HasType ctx results ([] :: labels) body [] t.results)
      (tail : HasType ctx results labels rest (base ++ t.results) out) :
      HasType ctx results labels (.loop t body rest) base out
  | ifThen {labels : List (List ValType)} {t : BlockType} {yes rest : Code} {base out : List ValType}
      (noResults : t.results = []) (inner : HasType ctx results (t.results :: labels) yes [] t.results)
      (tail : HasType ctx results labels rest (base ++ t.results) out) :
      HasType ctx results labels (.ifThen t yes rest) (base ++ [.i32]) out
  | ifElse {labels : List (List ValType)} {t : BlockType} {yes no rest : Code} {base out : List ValType}
      (inner : HasType ctx results (t.results :: labels) yes [] t.results)
      (other : HasType ctx results (t.results :: labels) no [] t.results)
      (tail : HasType ctx results labels rest (base ++ t.results) out) :
      HasType ctx results labels (.ifElse t yes no rest) (base ++ [.i32]) out

variable {ctx : Context} {results : List ValType} {labels : List (List ValType)}

theorem Code.HasType.append {c d : Code} {ts us vs : List ValType} (hc : c.HasType ctx results labels ts us)
    (hd : d.HasType ctx results labels us vs) : (c.append d).HasType ctx results labels ts vs := by
  induction hc generalizing d with
  | done => exact hd
  | plain base head _ ih => exact .plain base head (ih hd)
  | block inner _ _ ih => exact .block inner (ih hd)
  | loop inner _ _ ih => exact .loop inner (ih hd)
  | ifThen noResults inner _ _ ih => exact .ifThen noResults inner (ih hd)
  | ifElse inner other _ _ _ ih => exact .ifElse inner other (ih hd)

theorem Code.HasType.weaken {c : Code} {ts us : List ValType} (h : c.HasType ctx results labels ts us)
    (below : List ValType) : c.HasType ctx results labels (below ++ ts) (below ++ us) := by
  induction h with
  | done labels ts => exact .done labels _
  | plain base head _ ih =>
    rw [← List.append_assoc] at ih ⊢
    exact .plain (below ++ base) head ih
  | block inner _ _ ih =>
    rw [← List.append_assoc] at ih
    exact .block inner ih
  | loop inner _ _ ih =>
    rw [← List.append_assoc] at ih
    exact .loop inner ih
  | ifThen noResults inner _ _ ih =>
    rw [← List.append_assoc] at ih ⊢
    exact .ifThen noResults inner ih
  | ifElse inner other _ _ _ ih =>
    rw [← List.append_assoc] at ih ⊢
    exact .ifElse inner other ih

def WellTyped (ctx : Context) (results : List ValType) (labels : List (List ValType)) (is : List Instr)
    (ts us : List ValType) : Prop :=
  ∃ c : Code, c.instrs = is ∧ c.HasType ctx results labels ts us

namespace WellTyped

variable {is js : List Instr} {ts us vs : List ValType} {t : BlockType}

theorem nil (ts : List ValType) : WellTyped ctx results labels [] ts ts := ⟨.done, rfl, .done _ _⟩

theorem append (hi : WellTyped ctx results labels is ts us) (hj : WellTyped ctx results labels js us vs) :
    WellTyped ctx results labels (is ++ js) ts vs := by
  obtain ⟨c, rfl, hc⟩ := hi
  obtain ⟨d, rfl, hd⟩ := hj
  exact ⟨c.append d, c.instrs_append d, hc.append hd⟩

theorem weaken (h : WellTyped ctx results labels is ts us) (below : List ValType) :
    WellTyped ctx results labels is (below ++ ts) (below ++ us) := by
  obtain ⟨c, rfl, hc⟩ := h
  exact ⟨c, rfl, hc.weaken below⟩

theorem plain {i : Instr} (hi : i.isPlain = true) (h : i.HasType ctx labels results ts us) :
    WellTyped ctx results labels [i] ts us := by
  refine ⟨.plain i hi .done, rfl, ?_⟩
  simpa using Code.HasType.plain (h := hi) [] h (.done labels us)

theorem block (h : WellTyped ctx results (t.results :: labels) is [] t.results) :
    WellTyped ctx results labels (.block t :: (is ++ [.end_])) [] t.results := by
  obtain ⟨c, rfl, hc⟩ := h
  exact ⟨.block t c .done, rfl, .block hc (.done _ _)⟩

theorem loop (h : WellTyped ctx results ([] :: labels) is [] t.results) :
    WellTyped ctx results labels (.loop t :: (is ++ [.end_])) [] t.results := by
  obtain ⟨c, rfl, hc⟩ := h
  exact ⟨.loop t c .done, rfl, .loop hc (.done _ _)⟩

theorem ifThen (ht : t.results = []) (h : WellTyped ctx results (t.results :: labels) is [] t.results) :
    WellTyped ctx results labels (.if_ t :: (is ++ [.end_])) [.i32] t.results := by
  obtain ⟨c, rfl, hc⟩ := h
  refine ⟨.ifThen t c .done, rfl, ?_⟩
  change (Code.ifThen t c .done).HasType ctx results labels ([] ++ [.i32]) t.results
  exact .ifThen ht hc (.done _ _)

theorem ifElse (hi : WellTyped ctx results (t.results :: labels) is [] t.results)
    (hj : WellTyped ctx results (t.results :: labels) js [] t.results) :
    WellTyped ctx results labels (.if_ t :: (is ++ .else_ :: (js ++ [.end_]))) [.i32] t.results := by
  obtain ⟨c, rfl, hc⟩ := hi
  obtain ⟨d, rfl, hd⟩ := hj
  refine ⟨.ifElse t c d .done, rfl, ?_⟩
  change (Code.ifElse t c d .done).HasType ctx results labels ([] ++ [.i32]) t.results
  exact .ifElse hc hd (.done _ _)

end WellTyped

end ImpWasm.Wasm
