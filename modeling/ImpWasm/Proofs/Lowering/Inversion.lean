import ImpWasm.Lowering
import ImpWasm.Proofs.Typing.Accepted
set_option autoImplicit false

namespace ImpWasm

open Wasm (Instr ValType FuncType)

variable {ix : Indices} {l l' : Locals} {is : List Instr}

theorem mem_of_lookup {α β : Type} [BEq α] [LawfulBEq α] {xs : List (α × β)} {a : α} {b : β}
    (h : xs.lookup a = some b) : (a, b) ∈ xs := by
  obtain ⟨before, after, rfl, _⟩ := List.lookup_eq_some_iff.1 h
  simp

theorem getElem?_append_of_some {α : Type} {xs : List α} {k : Nat} {x : α} (h : xs[k]? = some x) (ys : List α) :
    (xs ++ ys)[k]? = some x :=
  (List.getElem?_append_left (List.getElem?_eq_some_iff.1 h).1).trans h

theorem PrimType.lower_ok {t : PrimType} {context : String} {span : Span} {v : ValType}
    (h : t.lower context span = .ok v) : v = .i32 := by
  cases t <;> cases h <;> rfl

def Signature.lowered (s : Signature) : FuncType := ⟨List.replicate s.arity .i32, [.i32]⟩

theorem Signature.lower_ok {s : Signature} {type : FuncType} (h : s.lower = .ok type) :
    type = s.lowered := by
  obtain ⟨params, hp, h⟩ := bind_eq_ok.1 h
  obtain ⟨result, hr, h⟩ := bind_eq_ok.1 h
  obtain rfl := pure_eq_ok.1 h
  obtain rfl := PrimType.lower_ok hr
  suffices hs : ∀ (ts : List PrimType) (vs : List ValType),
      ts.mapM (fun t => t.lower ("signature of `" ++ s.name ++ "`") (s.span.getD {})) = .ok vs →
        vs = List.replicate ts.length .i32 by
    rw [hs _ _ hp]
    rfl
  intro ts
  induction ts with
  | nil =>
    intro vs h
    cases h
    rfl
  | cons t ts ih =>
    intro vs h
    rw [List.mapM_cons] at h
    obtain ⟨v, hv, h⟩ := bind_eq_ok.1 h
    obtain ⟨vs, hvs, h⟩ := bind_eq_ok.1 h
    obtain rfl := pure_eq_ok.1 h
    rw [PrimType.lower_ok hv, ih vs hvs]
    rfl

namespace Indices

theorem access_ok {name : Typed.Ident} {onLocal onGlobal : UInt32 → Instr} {i : Instr}
    (h : ix.access l name onLocal onGlobal = .ok i) :
    (∃ n, l.slots.lookup name.symbol = some n ∧ i = onLocal n) ∨
      (l.slots.lookup name.symbol = none ∧
        ∃ n, ix.globals.lookup name.symbol = some n ∧ i = onGlobal n) := by
  unfold access at h
  split at h
  · rename_i n hn
    cases h
    exact .inl ⟨n, hn, rfl⟩
  · rename_i hn
    split at h
    · rename_i n hg
      cases h
      exact .inr ⟨hn, n, hg, rfl⟩
    · cases h

theorem function_ok {name : String} {span : Span} {n : UInt32} (h : ix.function name span = .ok n) :
    ix.functions.lookup name = some n := by
  unfold function at h
  split at h
  · rename_i hn
    cases h
    exact hn
  · cases h

end Indices

namespace Typed

theorem Expr.lower_ident {name : Ident} {type : PrimType} {span : Span}
    (h : (Expr.ident name type span).lower ix l = .ok is) :
    ∃ i, ix.access l name .localGet .globalGet = .ok i ∧ is = [i] := by
  obtain ⟨i, hi, h⟩ := bind_eq_ok.1 h
  exact ⟨i, hi, (pure_eq_ok.1 h).symm⟩

theorem Expr.lower_binary {op : Operator} {left right : Expr} {type : PrimType} {span : Span}
    (h : (Expr.binary op left right type span).lower ix l = .ok is) :
    ∃ a b, left.lower ix l = .ok a ∧ right.lower ix l = .ok b ∧ is = a ++ b ++ [.numeric op.lower] := by
  obtain ⟨_, _, h⟩ := bind_eq_ok.1 h
  obtain ⟨a, ha, h⟩ := bind_eq_ok.1 h
  obtain ⟨b, hb, h⟩ := bind_eq_ok.1 h
  exact ⟨a, b, ha, hb, (pure_eq_ok.1 h).symm⟩

theorem Expr.lower_call {callee : String} {args : List Expr} {type : PrimType} {span : Span}
    (h : (Expr.call callee args type span).lower ix l = .ok is) :
    ∃ code i, Expr.lowerAll ix l args = .ok code ∧ ix.functions.lookup callee = some i ∧
      is = code ++ [.call i] := by
  obtain ⟨code, hc, h⟩ := bind_eq_ok.1 h
  obtain ⟨i, hi, h⟩ := bind_eq_ok.1 h
  exact ⟨code, i, hc, Indices.function_ok hi, (pure_eq_ok.1 h).symm⟩

theorem Expr.lowerAll_cons {e : Expr} {es : List Expr} (h : Expr.lowerAll ix l (e :: es) = .ok is) :
    ∃ a b, e.lower ix l = .ok a ∧ Expr.lowerAll ix l es = .ok b ∧ is = a ++ b := by
  obtain ⟨a, ha, h⟩ := bind_eq_ok.1 h
  obtain ⟨b, hb, h⟩ := bind_eq_ok.1 h
  exact ⟨a, b, ha, hb, (pure_eq_ok.1 h).symm⟩

theorem Stmt.lower_expr {value : Expr} {span : Span} (h : (Stmt.expr value span).lower ix l = .ok (is, l')) :
    ∃ code, value.lower ix l = .ok code ∧ is = code ++ [.drop] ∧ l' = l := by
  obtain ⟨code, hc, h⟩ := bind_eq_ok.1 h
  cases pure_eq_ok.1 h
  exact ⟨code, hc, rfl, rfl⟩

theorem Stmt.lower_var {name : Ident} {type : PrimType} {init : Option Expr} {span : Span}
    (h : (Stmt.var name type init span).lower ix l = .ok (is, l')) :
    ∃ code, lowerInit ix l init = .ok code ∧ is = code ++ [.localSet (l.declare name.symbol .i32).2] ∧
      l' = (l.declare name.symbol .i32).1 := by
  obtain ⟨t, ht, h⟩ := bind_eq_ok.1 h
  obtain rfl := PrimType.lower_ok ht
  obtain ⟨code, hc, h⟩ := bind_eq_ok.1 h
  cases pure_eq_ok.1 h
  exact ⟨code, hc, rfl, rfl⟩

theorem Stmt.lower_assign {target : Ident} {value : Expr} {span : Span}
    (h : (Stmt.assign target value span).lower ix l = .ok (is, l')) :
    ∃ code i, value.lower ix l = .ok code ∧ ix.access l target .localSet .globalSet = .ok i ∧
      is = code ++ [i] ∧ l' = l := by
  obtain ⟨code, hc, h⟩ := bind_eq_ok.1 h
  obtain ⟨i, hi, h⟩ := bind_eq_ok.1 h
  cases pure_eq_ok.1 h
  exact ⟨code, i, hc, hi, rfl, rfl⟩

theorem Stmt.lower_return {value : Expr} {span : Span}
    (h : (Stmt.return_ value span).lower ix l = .ok (is, l')) :
    ∃ code, value.lower ix l = .ok code ∧ is = code ++ [.return_] ∧ l' = l := by
  obtain ⟨code, hc, h⟩ := bind_eq_ok.1 h
  cases pure_eq_ok.1 h
  exact ⟨code, hc, rfl, rfl⟩

theorem Stmt.lower_while {condition : Expr} {body : List Stmt} {bodySpan span : Span}
    (h : (Stmt.while_ condition body bodySpan span).lower ix l = .ok (is, l')) :
    ∃ test code, condition.lower ix l = .ok test ∧ Stmt.lowerAll ix body l = .ok (code, l') ∧
      is = [.block .empty, .loop .empty] ++ test ++ [.numeric (.eqz .w32), .brIf 1] ++ code
        ++ [.br 0, .end_, .end_] := by
  obtain ⟨test, ht, h⟩ := bind_eq_ok.1 h
  obtain ⟨⟨code, _⟩, hc, h⟩ := bind_eq_ok.1 h
  cases pure_eq_ok.1 h
  exact ⟨test, code, ht, hc, rfl⟩

theorem Stmt.lower_ifThen {condition : Expr} {yes : List Stmt} {yesSpan span : Span}
    (h : (Stmt.ifThen condition yes yesSpan span).lower ix l = .ok (is, l')) :
    ∃ test code, condition.lower ix l = .ok test ∧ Stmt.lowerAll ix yes l = .ok (code, l') ∧
      is = test ++ [.if_ .empty] ++ code ++ [.end_] := by
  obtain ⟨test, ht, h⟩ := bind_eq_ok.1 h
  obtain ⟨⟨code, _⟩, hc, h⟩ := bind_eq_ok.1 h
  cases pure_eq_ok.1 h
  exact ⟨test, code, ht, hc, rfl⟩

theorem Stmt.lower_ifElse {condition : Expr} {yes no : List Stmt} {yesSpan noSpan span : Span}
    (h : (Stmt.ifElse condition yes yesSpan no noSpan span).lower ix l = .ok (is, l')) :
    ∃ test codeYes codeNo between, condition.lower ix l = .ok test ∧
      Stmt.lowerAll ix yes l = .ok (codeYes, between) ∧ Stmt.lowerAll ix no between = .ok (codeNo, l') ∧
      is = test ++ [.if_ .empty] ++ codeYes ++ [.else_] ++ codeNo ++ [.end_] := by
  obtain ⟨test, ht, h⟩ := bind_eq_ok.1 h
  obtain ⟨⟨codeYes, between⟩, hy, h⟩ := bind_eq_ok.1 h
  obtain ⟨⟨codeNo, _⟩, hn, h⟩ := bind_eq_ok.1 h
  cases pure_eq_ok.1 h
  exact ⟨test, codeYes, codeNo, between, ht, hy, hn, rfl⟩

theorem Stmt.lowerAll_cons {s : Stmt} {ss : List Stmt} (h : Stmt.lowerAll ix (s :: ss) l = .ok (is, l')) :
    ∃ a b between, s.lower ix l = .ok (a, between) ∧ Stmt.lowerAll ix ss between = .ok (b, l') ∧
      is = a ++ b := by
  obtain ⟨⟨a, between⟩, ha, h⟩ := bind_eq_ok.1 h
  obtain ⟨⟨b, _⟩, hb, h⟩ := bind_eq_ok.1 h
  cases pure_eq_ok.1 h
  exact ⟨a, b, between, ha, hb, rfl⟩

/-- The code of a body ends with the value of its last `return`, or in a place that cannot be reached. -/
def LowersBody (ix : Indices) (params : List Param) (body : List Stmt) (code : List Instr) (l : Locals) : Prop :=
  (∃ front value span is result, body = front ++ [.return_ value span] ∧
    Stmt.lowerAll ix front (.ofParams params) = .ok (is, l) ∧ value.lower ix l = .ok result ∧
    code = is ++ result) ∨
  ∃ is, Stmt.lowerAll ix body (.ofParams params) = .ok (is, l) ∧ code = is ++ [.unreachable]

theorem lowerBody_ok {params : List Param} {body : List Stmt} {b : Wasm.Body}
    (h : lowerBody ix params body = .ok b) :
    ∃ code l, b = .ofInstrs l.declared (code ++ [.end_]) ∧ LowersBody ix params body code l := by
  unfold lowerBody at h
  split at h
  · rename_i value span ht
    obtain ⟨⟨is, l⟩, hs, h⟩ := bind_eq_ok.1 h
    obtain ⟨result, hr, h⟩ := bind_eq_ok.1 h
    cases pure_eq_ok.1 h
    have hlast : body.getLast? = some (.return_ value span) := by
      unfold trailingReturn at ht
      split at ht
      · rename_i hg
        cases ht
        exact hg
      · cases ht
    obtain ⟨front, rfl⟩ := List.getLast?_eq_some_iff.1 hlast
    rw [List.dropLast_concat] at hs
    exact ⟨is ++ result, l, rfl, .inl ⟨front, value, span, is, result, rfl, hs, hr, rfl⟩⟩
  · obtain ⟨⟨is, l⟩, hs, h⟩ := bind_eq_ok.1 h
    cases pure_eq_ok.1 h
    exact ⟨is ++ [.unreachable], l, by simp, .inr ⟨is, hs, rfl⟩⟩

end Typed

namespace Lowering

variable {options : LowerOptions} {functions : FunctionTable} {st st' : Lowering}

theorem importFunction_ok {s : Signature} (h : importFunction options st s = .ok st') :
    st.module.functions = [] ∧ st' =
      { st with
        module := { st.module with
          types := st.module.types ++ [s.lowered]
          imports := st.module.imports
            ++ [⟨options.importModule, s.name, .function st.module.types.length.toUInt32⟩]
          functionTypes := st.module.functionTypes ++ [st.module.types.length.toUInt32] }
        indices := { st.indices with
          functions := (s.name, st.module.functionTypes.length.toUInt32) :: st.indices.functions } } := by
  obtain ⟨type, ht, h⟩ := bind_eq_ok.1 h
  obtain rfl := Signature.lower_ok ht
  obtain ⟨⟨m, i⟩, hm, h⟩ := bind_eq_ok.1 h
  cases pure_eq_ok.1 h
  unfold Wasm.Module.importFunction at hm
  split at hm
  · rename_i he
    cases hm
    exact ⟨List.isEmpty_iff.1 he, rfl⟩
  · cases hm

theorem declareFunctions_ok (h : declareFunctions options functions st = .ok st') :
    ∃ mid, (functions.signatures.filter (·.isImported)).foldlM (importFunction options) st = .ok mid ∧
      st' = { mid with
        indices := { mid.indices with
          functions := reserve mid.module.functionCount
            ((functions.signatures.filter (! ·.isImported)).map Signature.name) ++ mid.indices.functions } } := by
  obtain ⟨mid, hm, h⟩ := bind_eq_ok.1 h
  cases pure_eq_ok.1 h
  exact ⟨mid, hm, rfl⟩

theorem addFunction_ok {name : String} {params : List Typed.Param} {body : List Typed.Stmt} {span : Span}
    (h : st.addFunction options functions name params body span = .ok st') :
    ∃ s b, functions.get? name = some s ∧ Typed.lowerBody st.indices params body = .ok b ∧
      st' = { st with
        module :=
          if options.exportFunctions then
            (st.module.addFunction s.lowered b).1.exportFunction name (st.module.addFunction s.lowered b).2
          else (st.module.addFunction s.lowered b).1 } := by
  unfold addFunction at h
  split at h
  · exact (throw_ne_ok h).elim
  · rename_i s hs
    obtain ⟨type, ht, h⟩ := bind_eq_ok.1 h
    obtain rfl := Signature.lower_ok ht
    obtain ⟨b, hb, h⟩ := bind_eq_ok.1 h
    cases pure_eq_ok.1 h
    exact ⟨s, b, hs, hb, rfl⟩

theorem addGlobal_ok {name : Typed.Ident} {type : PrimType} {init : Option Typed.Expr} {span : Span}
    (h : st.addGlobal name type init span = .ok st') :
    ∃ v code, ((Typed.constant? init = some v ∧ code = []) ∨
        (Typed.constant? init = none ∧ v = 0 ∧ ∃ is,
          Typed.lowerInit st.indices st.startLocals init = .ok is ∧
          code = is ++ [.globalSet st.module.globalTypes.length.toUInt32])) ∧
      st' = { st with
        module := (st.module.addGlobal ⟨⟨.i32, true⟩, .i32 v⟩).1
        indices := { st.indices with
          globals := (name.symbol, st.module.globalTypes.length.toUInt32) :: st.indices.globals }
        startCode := st.startCode ++ code } := by
  obtain ⟨t, ht, h⟩ := bind_eq_ok.1 h
  obtain rfl := PrimType.lower_ok ht
  obtain ⟨g, hg, h⟩ := bind_eq_ok.1 h
  cases hg
  cases hc : Typed.constant? init with
  | some v =>
    rw [hc] at h
    cases h
    exact ⟨v, [], .inl ⟨rfl, rfl⟩, rfl⟩
  | none =>
    rw [hc] at h
    obtain ⟨is, his, h⟩ := bind_eq_ok.1 h
    cases pure_eq_ok.1 h
    exact ⟨0, _, .inr ⟨rfl, rfl, is, his, rfl⟩, rfl⟩

end Lowering

end ImpWasm
