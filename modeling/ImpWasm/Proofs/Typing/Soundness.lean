import ImpWasm.Proofs.Typing.Elaboration
import ImpWasm.Proofs.Typing.Rules
set_option autoImplicit false

/-!
The checker accepts what the typing rules accept. Its environment, read as scopes of types, and its
table, read as a list of prototypes, are the ones that the rules speak of.
-/
namespace ImpWasm

namespace Operator

theorem resultType_of_test {op : Operator} (t : PrimType)
    (h : op ∈ [Operator.eq, .ne, .lt, .le, .gt, .ge, .and, .or]) : op.resultType t = .bool := by
  cases op <;> simp_all [resultType]

theorem resultType_of_arithmetic {op : Operator} (t : PrimType)
    (h : op ∈ [Operator.add, .sub, .mul, .div, .mod]) : op.resultType t = t := by
  cases op <;> simp_all [resultType]

theorem test_or_arithmetic (op : Operator) :
    op ∈ [Operator.eq, .ne, .lt, .le, .gt, .ge, .and, .or] ∨ op ∈ [Operator.add, .sub, .mul, .div, .mod] := by
  cases op <;> simp

end Operator

def Signature.prototype (s : Signature) : Prototype := ⟨s.name, s.paramTypes, s.result⟩

namespace Checker

theorem prototype_signature (name : Ident) (params : Option ParamList) (result : TypeRef) (isImported : Bool) :
    (signature name params result isImported).prototype = prototype name params result := by
  rw [Signature.prototype, paramTypes_signature]
  rfl

variable {α : Type} {c c' inner : Checker}

/-- The scopes in sight, with something of each symbol. -/
def view (f : Symbol → α) (c : Checker) : List (Names α) := c.env.stack.map (Names.map f)

section View

variable (f : Symbol → α)

theorem view_eq_cons (c : Checker) :
    c.view f = c.env.innermost.map f :: c.env.outer.map (Names.map f) := rfl

theorem view_empty : ({} : Checker).view f = [Names.empty] := rfl

theorem find_view (c : Checker) (name : String) :
    (c.view f).findSome? (· name) = (c.env.lookup name).map f := by
  rw [Env.lookup_eq, view]
  induction c.env.stack with
  | nil => rfl
  | cons names stack ih =>
    rw [List.map_cons, List.findSome?_cons, List.findSome?_cons, ih, Names.map]
    cases names name <;> rfl

theorem view_enter (hw : c.env.WellFormed) : c.enter.view f = Names.empty :: c.view f := by
  rw [view, show c.enter.env = c.env.enter from rfl, hw.stack_enter]
  rfl

theorem view_of_quiet (hk : c.Keeps Env.Quiet c') (hw : c.env.WellFormed) : c'.view f = c.view f := by
  rw [view, view, hk.env.stack hw]

theorem view_back (hk : c.enter.Keeps Env.After inner) (hw : c.env.WellFormed) :
    (c.back inner).view f = c.view f := view_of_quiet f (hk.back hw) hw

theorem view_declare {env : Env} {name : String} {type : PrimType} {span : Option Span} {new : Symbol}
    (hw : c.env.WellFormed) (hd : c.env.declare name type span = .ok (env, new)) :
    ({ c with env } : Checker).view f =
      (c.env.innermost.map f).insert name (f new) :: c.env.outer.map (Names.map f) := by
  rw [view, hw.stack_declare hd, List.map_cons, Names.map_insert]

end View

def scope (c : Checker) : Names PrimType := c.env.innermost.map Symbol.type

def outerScopes (c : Checker) : Scopes := c.env.outer.map (Names.map Symbol.type)

/-- The scopes in sight, as the typing rules see them. -/
def scopes (c : Checker) : Scopes := c.view Symbol.type

def prototypes (c : Checker) : List Prototype := c.functions.signatures.map Signature.prototype

def result (c : Checker) : Option PrimType := c.current.map Signature.result

theorem scopes_eq_cons (c : Checker) : c.scopes = c.scope :: c.outerScopes := rfl

theorem type?_scopes (c : Checker) (name : String) :
    c.scopes.type? name = (c.env.lookup name).map Symbol.type := c.find_view Symbol.type name

theorem wellFormed_enter (hw : c.env.WellFormed) : c.enter.env.WellFormed := hw.enter

theorem scopes_enter (hw : c.env.WellFormed) : c.enter.scopes = Names.empty :: c.scopes := view_enter _ hw

theorem scopes_of_quiet (hk : c.Keeps Env.Quiet c') (hw : c.env.WellFormed) : c'.scopes = c.scopes :=
  view_of_quiet _ hk hw

theorem scopes_back (hk : c.enter.Keeps Env.After inner) (hw : c.env.WellFormed) :
    (c.back inner).scopes = c.scopes := view_back _ hk hw

theorem scopes_declare {env : Env} {name : String} {type : PrimType} {span : Option Span} {new : Symbol}
    (hw : c.env.WellFormed) (hd : c.env.declare name type span = .ok (env, new)) :
    ({ c with env } : Checker).scopes = c.scope.insert name type :: c.outerScopes := by
  have hnew : new.type = type := by
    obtain ⟨-, rfl, -⟩ := Env.declare_eq_ok.1 hd
    rfl
  exact (view_declare _ hw hd).trans (by rw [hnew]; rfl)

theorem scope_eq_none {name : String} : c.scope name = none ↔ c.env.innermost name = none := by
  simp [scope, Names.map]

theorem fresh_iff {name : String} : (∀ f ∈ c.prototypes, f.name ≠ name) ↔ name ∉ c.functions.names := by
  simp [prototypes, FunctionTable.names, Signature.prototype]

theorem prototypes_register {s : Signature} {span : Span} (h : c.register s span = .ok c') :
    c'.prototypes = c.prototypes ++ [s.prototype] := by
  obtain ⟨-, rfl⟩ := register_eq_ok.1 h
  simp [prototypes]

section Params

theorem params_ok_scopes {ps : List Param} {typed : List Typed.Param} (hw : c.env.WellFormed)
    (h : params ps c = (.ok typed, c')) :
    (ps.map (·.name.name)).Nodup ∧ (∀ p ∈ ps, c.scope p.name.name = none) ∧
      c'.scopes = ps.foldl (fun names p => names.insert p.name.name p.type.type) c.scope :: c.outerScopes := by
  induction ps generalizing c typed with
  | nil =>
    cases h
    exact ⟨.nil, by simp, rfl⟩
  | cons p ps ih =>
    obtain ⟨env, new, rest, hnew, hrest, rfl⟩ := params_cons_ok.1 h
    obtain ⟨hnodup, hfree, hscopes⟩ := ih (hw.declare hnew) hrest
    have hcons := scopes_declare hw hnew
    rw [scopes_eq_cons] at hcons
    obtain ⟨hscope, houter⟩ := List.cons.inj hcons
    rw [hscope, houter] at hscopes
    have hfresh : c.scope p.name.name = none := scope_eq_none.2 (Env.declare_eq_ok.1 hnew).1
    have hne : ∀ q ∈ ps, q.name.name ≠ p.name.name ∧ c.scope q.name.name = none := by
      intro q hq
      have hnone := hfree q hq
      rw [hscope] at hnone
      by_cases he : q.name.name = p.name.name
      · simp [he] at hnone
      · exact ⟨he, (Names.insert_ne he).symm.trans hnone⟩
    refine ⟨List.nodup_cons.2 ⟨?_, hnodup⟩, ?_, hscopes⟩
    · rw [List.mem_map]
      rintro ⟨q, hq, he⟩
      exact (hne q hq).1 he
    · exact List.forall_mem_cons.2 ⟨hfresh, fun q hq => (hne q hq).2⟩

theorem params_complete {ps : List Param} (hw : c.env.WellFormed) (hd : (ps.map (·.name.name)).Nodup)
    (hf : ∀ p ∈ ps, c.scope p.name.name = none) : ∃ typed c', params ps c = (.ok typed, c') := by
  induction ps generalizing c with
  | nil => exact ⟨[], c, rfl⟩
  | cons p ps ih =>
    obtain ⟨hp, hps⟩ := List.forall_mem_cons.1 hf
    obtain ⟨hnotin, hrest⟩ := List.nodup_cons.1 hd
    obtain ⟨env, new, hnew⟩ := Env.declare_of_fresh p.type.type (some p.name.span) (scope_eq_none.1 hp)
    have hcons := scopes_declare hw hnew
    rw [scopes_eq_cons] at hcons
    have hscope := (List.cons.inj hcons).1
    obtain ⟨typed, c', h⟩ := ih (hw.declare hnew) hrest fun q hq => by
      have hne : q.name.name ≠ p.name.name := fun he =>
        hnotin (List.mem_map.2 ⟨q, hq, he⟩)
      rw [hscope, Names.insert_ne hne]
      exact hps q hq
    exact ⟨_, c', params_cons_ok.2 ⟨env, new, typed, hnew, h, rfl⟩⟩

end Params

section Sound

mutual

theorem expr_hasType : {e : Expr} → {typed : Typed.Expr} → c.expr e = .ok typed →
    e.HasType c.scopes c.prototypes typed.type
  | .ident name span, typed, h => by
    obtain ⟨s, hs, rfl⟩ := expr_ident_ok.1 h
    refine .ident ?_
    rw [type?_scopes, hs]
    rfl
  | .int .., typed, h => by
    cases h
    exact .int
  | .string .., typed, h => by
    cases h
    exact .string
  | .bool .., typed, h => by
    cases h
    exact .bool
  | .binary op left right span, typed, h => by
    obtain ⟨a, b, ha, hb, ht, rfl⟩ := expr_binary_ok.1 h
    have hleft := expr_hasType ha
    have hright := expr_hasType hb
    rw [← ht] at hright
    rw [show (Typed.Expr.binary op a b (op.resultType a.type) span).type = op.resultType a.type from rfl]
    rcases op.test_or_arithmetic with ho | ho
    · rw [Operator.resultType_of_test _ ho]
      exact .test ho hleft hright
    · rw [Operator.resultType_of_arithmetic _ ho]
      exact .arithmetic ho hleft hright
  | .call callee args span, typed, h => by
    obtain ⟨as, s, has, hs, ht, rfl⟩ := expr_call_ok.1 h
    have hargs := exprs_haveTypes has
    rw [← ht] at hargs
    exact .call (f := s.prototype) (List.mem_map_of_mem (FunctionTable.mem_of_get? hs))
      (FunctionTable.name_of_get? hs) hargs

theorem exprs_haveTypes : {es : List Expr} → {typed : List Typed.Expr} → c.exprs es = .ok typed →
    Expr.HaveTypes c.scopes c.prototypes es (typed.map Typed.Expr.type)
  | [], typed, h => by
    cases h
    exact .nil
  | e :: es, typed, h => by
    obtain ⟨a, as, ha, has, rfl⟩ := exprs_cons_ok.1 h
    exact .cons (expr_hasType ha) (exprs_haveTypes has)

end

theorem optExpr_hasType {init : Option Expr} {typed : Option Typed.Expr} {t : PrimType}
    (h : c.optExpr init = .ok typed) (ht : ∀ e ∈ typed, e.type = t) :
    typed.isSome = init.isSome ∧ ∀ e ∈ init, e.HasType c.scopes c.prototypes t := by
  cases init with
  | none =>
    cases h
    simp
  | some e =>
    obtain ⟨v, hv, rfl⟩ := map_eq_ok.1 h
    have hty := expr_hasType hv
    rw [ht v rfl] at hty
    refine ⟨rfl, ?_⟩
    rintro _ ⟨⟩
    exact hty

theorem opened_scopes {registered : Checker} {name : Ident} {s : Signature} (hw : c.env.WellFormed)
    (hr : c.register s name.span = .ok registered) :
    let opened : Checker := { registered.enter with current := some s }
    opened.env.WellFormed ∧ opened.scope = Names.empty ∧ opened.outerScopes = c.scopes ∧
      opened.prototypes = c.prototypes ++ [s.prototype] := by
  have hk := register_keeps hw hr
  have henter := scopes_enter hk.wellFormed
  rw [scopes_of_quiet hk hw, scopes_eq_cons] at henter
  obtain ⟨hscope, houter⟩ := List.cons.inj henter
  have hproto : registered.prototypes = c.prototypes ++ [s.prototype] := prototypes_register hr
  exact ⟨hk.wellFormed.enter, hscope, houter, hproto⟩

theorem prototypes_of_params {ps : List Param} {typed : List Typed.Param}
    (h : params ps c = (.ok typed, c')) : c'.prototypes = c.prototypes ∧ c'.current = c.current := by
  obtain ⟨_, _, hf, hc, _⟩ := params_ok h
  exact ⟨by rw [prototypes, hf]; rfl, hc⟩

/-- Where the body of a function is checked, its parameters are the names around it, and its own signature
is in the table. -/
theorem body_scopes {registered bound : Checker} {name : Ident} {s : Signature} {ps : List Param}
    {typed : List Typed.Param} (hw : c.env.WellFormed) (hr : c.register s name.span = .ok registered)
    (hp : params ps { registered.enter with current := some s } = (.ok typed, bound)) :
    bound.env.WellFormed ∧ bound.enter.scopes = Names.empty :: paramNames ps :: c.scopes ∧
      bound.enter.prototypes = c.prototypes ++ [s.prototype] ∧ bound.enter.result = some s.result := by
  obtain ⟨hwo, hempty, houter, hproto⟩ := opened_scopes hw hr
  obtain ⟨-, -, hscopes⟩ := params_ok_scopes hwo hp
  obtain ⟨hproto', hcur⟩ := prototypes_of_params hp
  have hwb := (keeps_of_params hwo hp).wellFormed
  refine ⟨hwb, ?_, hproto'.trans hproto, ?_⟩
  · rw [scopes_enter hwb, hscopes, hempty, houter]
    rfl
  · rw [Checker.result, show bound.enter.current = bound.current from rfl, hcur]
    rfl

theorem imported_scopes {registered inner : Checker} {s : Signature} {span : Span} {ps : List Param}
    {typed : List Typed.Param} (hw : c.env.WellFormed) (hr : c.register s span = .ok registered)
    (hp : params ps registered.enter = (.ok typed, inner)) :
    (registered.back inner).scopes = c.scopes ∧
      (registered.back inner).prototypes = c.prototypes ++ [s.prototype] := by
  have hk := register_keeps hw hr
  constructor
  · rw [scopes_back (keeps_of_params hk.wellFormed.enter hp) hk.wellFormed, scopes_of_quiet hk hw]
  · have hsame : inner.prototypes = registered.prototypes := (prototypes_of_params hp).1
    rw [show (registered.back inner).prototypes = inner.prototypes from rfl, hsame, prototypes_register hr]

mutual

theorem stmt_wellTyped : {s : Stmt} → {typed : Typed.Stmt} → {c c' : Checker} → c.env.WellFormed →
    stmt s c = (.ok typed, c') → s.WellTyped c.result c.scopes c.prototypes c'.scopes c'.prototypes
  | .expr value span, typed, c, c', hw, h => by
    obtain ⟨v, hv, rfl, rfl⟩ := stmt_expr_ok.1 h
    exact .expr (expr_hasType hv)
  | .var name type init span, typed, c, c', hw, h => by
    obtain ⟨i, t, env, new, hi, ht, hnew, rfl, rfl⟩ := stmt_var_ok.1 h
    obtain ⟨hgiven, hdeclared, hinit⟩ := varType_eq_ok.1 ht
    obtain ⟨hsome, htyped⟩ := optExpr_hasType hi hinit
    rw [hsome] at hgiven
    rw [scopes_declare hw hnew]
    exact .var hgiven hdeclared htyped (scope_eq_none.2 (Env.declare_eq_ok.1 hnew).1)
  | .assign target value span, typed, c, c', hw, h => by
    obtain ⟨s, v, hs, hv, ht, rfl, rfl⟩ := stmt_assign_ok.1 h
    refine .assign ?_ (ht ▸ expr_hasType hv)
    rw [type?_scopes, hs]
    rfl
  | .block body bodySpan span, typed, c, c', hw, h => by
    obtain ⟨ss, inner, hi, rfl, rfl⟩ := (stmt_block_ok hw).1 h
    have hbody := stmts_wellTyped hw.enter hi
    rw [scopes_enter hw] at hbody
    rw [scopes_back (keeps_of_stmts hw.enter hi) hw]
    exact .block hbody
  | .function name params result body bodySpan span, typed, c, c', hw, h => by
    obtain ⟨opened, ps, bound, ss, inner, ho, hp, hi, rfl, rfl⟩ := (stmt_function_ok hw).1 h
    obtain ⟨hcur, hout, registered, hr, rfl⟩ := (openFunction_eq_ok hw).1 ho
    obtain ⟨hdistinct, -, -⟩ := params_ok_scopes (wellFormed_opened hw ho) hp
    obtain ⟨hwb, hscopes, hproto, hresult⟩ := body_scopes hw hr hp
    have hone : c.scopes = [c.scope] := by rw [scopes_eq_cons, outerScopes, hout, List.map_nil]
    have hbody := stmts_wellTyped hwb.enter hi
    rw [hscopes, hproto, hresult, hone, prototype_signature] at hbody
    rw [scopes_of_quiet (leave_body hw ho hp hi).2 hw, hone, Checker.result, hcur]
    exact .function (fresh_iff.2 (register_eq_ok.1 hr).1) hdistinct hbody
  | .imported name params result span, typed, c, c', hw, h => by
    obtain ⟨registered, ps, inner, hr, hp, rfl, rfl⟩ := (stmt_imported_ok hw).1 h
    obtain ⟨hdistinct, -, -⟩ := params_ok_scopes (register_keeps hw hr).wellFormed.enter hp
    obtain ⟨hscopes, hproto⟩ := imported_scopes hw hr hp
    rw [hscopes, hproto, prototype_signature]
    exact .imported (fresh_iff.2 (register_eq_ok.1 hr).1) hdistinct
  | .return_ value span, typed, c, c', hw, h => by
    obtain ⟨f, v, hf, hv, ht, rfl, rfl⟩ := stmt_return_ok.1 h
    rw [Checker.result, hf]
    exact .return_ (ht ▸ expr_hasType hv)
  | .while_ condition body bodySpan span, typed, c, c', hw, h => by
    obtain ⟨e, he, ht, ss, inner, hi, rfl, rfl⟩ := (stmt_while_ok hw).1 h
    have hbody := stmts_wellTyped hw.enter hi
    rw [scopes_enter hw] at hbody
    rw [scopes_back (keeps_of_stmts hw.enter hi) hw]
    exact .while_ (ht ▸ expr_hasType he) hbody
  | .ifThen condition yes yesSpan span, typed, c, c', hw, h => by
    obtain ⟨e, he, ht, ss, inner, hi, rfl, rfl⟩ := (stmt_ifThen_ok hw).1 h
    have hyes := stmts_wellTyped hw.enter hi
    rw [scopes_enter hw] at hyes
    rw [scopes_back (keeps_of_stmts hw.enter hi) hw]
    exact .ifThen (ht ▸ expr_hasType he) hyes
  | .ifElse condition yes yesSpan no noSpan span, typed, c, c', hw, h => by
    obtain ⟨e, ys, inner, ns, inner', he, ht, hi, hi', rfl, rfl⟩ := (stmt_ifElse_ok hw).1 h
    have hk := keeps_of_stmts hw.enter hi
    have hwb := (hk.back hw).wellFormed
    have hyes := stmts_wellTyped hw.enter hi
    have hno := stmts_wellTyped hwb.enter hi'
    rw [scopes_enter hw] at hyes
    rw [scopes_enter hwb, scopes_back hk hw] at hno
    rw [scopes_back (keeps_of_stmts hwb.enter hi') hwb, scopes_back hk hw]
    exact .ifElse (ht ▸ expr_hasType he) hyes hno

theorem stmts_wellTyped : {ss : List Stmt} → {typed : List Typed.Stmt} → {c c' : Checker} →
    c.env.WellFormed → stmts ss c = (.ok typed, c') →
    Stmt.AllWellTyped c.result c.scopes c.prototypes ss c'.scopes c'.prototypes
  | [], typed, c, c', hw, h => by
    cases h
    exact .nil
  | s :: ss, typed, c, c', hw, h => by
    obtain ⟨t, inner, ts, hs, hss, rfl⟩ := stmts_cons_ok.1 h
    have hk := keeps_of_stmt hw hs
    have hrest := stmts_wellTyped hk.wellFormed hss
    have hres : inner.result = c.result := by rw [Checker.result, hk.current]; rfl
    rw [hres] at hrest
    exact .cons (stmt_wellTyped hw hs) hrest

end

end Sound

section Complete

theorem get?_of_mem_prototypes {f : Prototype} (hn : c.functions.names.Nodup) (hf : f ∈ c.prototypes) :
    ∃ s, c.functions.get? f.name = some s ∧ s.prototype = f := by
  obtain ⟨s, hs, rfl⟩ := List.mem_map.1 hf
  exact ⟨s, FunctionTable.get?_of_mem hn hs, rfl⟩

theorem lookup_of_type? {name : String} {t : PrimType} (h : c.scopes.type? name = some t) :
    ∃ s, c.env.lookup name = some s ∧ s.type = t := by
  rw [type?_scopes] at h
  exact Option.map_eq_some_iff.1 h

mutual

theorem expr_complete (hn : c.functions.names.Nodup) : {e : Expr} → {t : PrimType} →
    e.HasType c.scopes c.prototypes t → ∃ typed, c.expr e = .ok typed ∧ typed.type = t
  | .ident name span, t, h => by
    cases h with
    | ident hdeclared =>
      obtain ⟨s, hs, rfl⟩ := lookup_of_type? hdeclared
      exact ⟨_, expr_ident_ok.2 ⟨s, hs, rfl⟩, rfl⟩
  | .int value span, t, h => by
    cases h
    exact ⟨_, rfl, rfl⟩
  | .string value span, t, h => by
    cases h
    exact ⟨_, rfl, rfl⟩
  | .bool value span, t, h => by
    cases h
    exact ⟨_, rfl, rfl⟩
  | .binary op left right span, t, h => by
    cases h with
    | test ho hl hr =>
      obtain ⟨a, ha, rfl⟩ := expr_complete hn hl
      obtain ⟨b, hb, ht⟩ := expr_complete hn hr
      exact ⟨_, expr_binary_ok.2 ⟨a, b, ha, hb, ht.symm, rfl⟩, Operator.resultType_of_test _ ho⟩
    | arithmetic ho hl hr =>
      obtain ⟨a, ha, rfl⟩ := expr_complete hn hl
      obtain ⟨b, hb, ht⟩ := expr_complete hn hr
      exact ⟨_, expr_binary_ok.2 ⟨a, b, ha, hb, ht.symm, rfl⟩, Operator.resultType_of_arithmetic _ ho⟩
  | .call callee args span, t, h => by
    cases h with
    | call hdeclared hname hargs =>
      obtain ⟨s, hs, rfl⟩ := get?_of_mem_prototypes hn hdeclared
      obtain ⟨as, has, ht⟩ := exprs_complete hn hargs
      rw [hname] at hs
      exact ⟨_, expr_call_ok.2 ⟨as, s, has, hs, ht.symm, rfl⟩, rfl⟩

theorem exprs_complete (hn : c.functions.names.Nodup) : {es : List Expr} → {ts : List PrimType} →
    Expr.HaveTypes c.scopes c.prototypes es ts →
    ∃ typed, c.exprs es = .ok typed ∧ typed.map Typed.Expr.type = ts
  | [], ts, h => by
    cases h
    exact ⟨[], rfl, rfl⟩
  | e :: es, ts, h => by
    cases h with
    | cons hhead htail =>
      obtain ⟨a, ha, rfl⟩ := expr_complete hn hhead
      obtain ⟨as, has, rfl⟩ := exprs_complete hn htail
      exact ⟨a :: as, exprs_cons_ok.2 ⟨a, as, ha, has, rfl⟩, rfl⟩

end

theorem optExpr_complete (hn : c.functions.names.Nodup) {init : Option Expr} {t : PrimType}
    (h : ∀ e ∈ init, e.HasType c.scopes c.prototypes t) :
    ∃ typed, c.optExpr init = .ok typed ∧ typed.isSome = init.isSome ∧ ∀ e ∈ typed, e.type = t := by
  cases init with
  | none => exact ⟨none, rfl, rfl, by simp⟩
  | some e =>
    obtain ⟨v, hv, ht⟩ := expr_complete hn (h e rfl)
    exact ⟨some v, map_eq_ok.2 ⟨v, hv, rfl⟩, rfl, by simpa using ht⟩

theorem register_complete {s : Signature} (span : Span) (h : ∀ f ∈ c.prototypes, f.name ≠ s.name) :
    ∃ registered, c.register s span = .ok registered :=
  ⟨_, register_eq_ok.2 ⟨fresh_iff.1 h, rfl⟩⟩

mutual

/-- What the rules accept, the checker accepts, and it comes to the scopes and functions that the rules
come to. -/
theorem stmt_complete : {s : Stmt} → {c : Checker} → {result : Option PrimType} → {Γ Γ' : Scopes} →
    {F F' : List Prototype} → s.WellTyped result Γ F Γ' F' → c.env.WellFormed → c.functions.names.Nodup →
    c.result = result → c.scopes = Γ → c.prototypes = F →
    ∃ typed c', stmt s c = (.ok typed, c') ∧ c'.scopes = Γ' ∧ c'.prototypes = F'
  | .expr value span, c, _, _, _, _, _, h, hw, hn, hr, hΓ, hF => by
    cases h with
    | expr hvalue =>
      subst hΓ hF
      obtain ⟨v, hv, -⟩ := expr_complete hn hvalue
      exact ⟨_, c, stmt_expr_ok.2 ⟨v, hv, rfl, rfl⟩, rfl, rfl⟩
  | .var name type init span, c, _, _, _, _, _, h, hw, hn, hr, hΓ, hF => by
    cases h with
    | @var _ _ _ _ _ _ _ _ t hgiven hdeclared hinit hfresh =>
      rw [← hΓ, ← hF] at hinit
      obtain ⟨i, hi, hsome, htyped⟩ := optExpr_complete hn hinit
      rw [← hsome] at hgiven
      obtain ⟨rfl, rfl⟩ := List.cons.inj hΓ
      have ht : varType name span type i = .ok t := varType_eq_ok.2 ⟨hgiven, hdeclared, htyped⟩
      obtain ⟨env, new, hnew⟩ := Env.declare_of_fresh t (some name.span) (scope_eq_none.1 hfresh)
      exact ⟨_, _, stmt_var_ok.2 ⟨i, t, env, new, hi, ht, hnew, rfl, rfl⟩, scopes_declare hw hnew, hF⟩
  | .assign target value span, c, _, _, _, _, _, h, hw, hn, hr, hΓ, hF => by
    cases h with
    | assign htarget hvalue =>
      subst hΓ hF
      obtain ⟨s, hs, rfl⟩ := lookup_of_type? htarget
      obtain ⟨v, hv, ht⟩ := expr_complete hn hvalue
      exact ⟨_, c, stmt_assign_ok.2 ⟨s, v, hs, hv, ht, rfl, rfl⟩, rfl, rfl⟩
  | .block body bodySpan span, c, _, _, _, _, _, h, hw, hn, hr, hΓ, hF => by
    cases h with
    | block hbody =>
      subst hΓ
      obtain ⟨ss, inner, hi, -, hproto⟩ := stmts_complete hbody (wellFormed_enter hw) hn hr (scopes_enter hw) hF
      exact ⟨_, _, (stmt_block_ok hw).2 ⟨ss, inner, hi, rfl, rfl⟩,
        scopes_back (keeps_of_stmts hw.enter hi) hw, hproto⟩
  | .function name params type body bodySpan span, c, _, _, _, _, _, h, hw, hn, hr, hΓ, hF => by
    cases h with
    | @function scope _ _ _ _ _ _ _ _ _ hfresh hdistinct hbody =>
      subst hF
      obtain ⟨hscope, hout⟩ := List.cons.inj hΓ
      have hcur : c.current = none := by simpa [Checker.result] using hr
      have houter : c.env.outer = [] := List.map_eq_nil_iff.1 hout
      obtain ⟨registered, hreg⟩ := register_complete (s := signature name params type false) name.span hfresh
      have ho := (openFunction_eq_ok hw).2 ⟨hcur, houter, registered, hreg, rfl⟩
      obtain ⟨hwo, hempty, -, -⟩ := opened_scopes hw hreg
      obtain ⟨ps, bound, hp⟩ := params_complete hwo hdistinct (by simp [hempty, Names.empty])
      obtain ⟨hwb, hscopes, hproto, hresult⟩ := body_scopes hw hreg hp
      have hnb : bound.functions.names.Nodup :=
        (keeps_of_params hwo hp).distinct ((register_keeps hw hreg).distinct hn)
      rw [hΓ] at hscopes
      rw [prototype_signature] at hproto
      obtain ⟨ss, inner, hi, -, hproto⟩ := stmts_complete hbody (wellFormed_enter hwb) hnb hresult hscopes hproto
      exact ⟨_, _, (stmt_function_ok hw).2 ⟨_, ps, bound, ss, inner, ho, hp, hi, rfl, rfl⟩,
        (scopes_of_quiet (leave_body hw ho hp hi).2 hw).trans hΓ, hproto⟩
  | .imported name params type span, c, _, _, _, _, _, h, hw, hn, hr, hΓ, hF => by
    cases h with
    | imported hfresh hdistinct =>
      subst hΓ hF
      obtain ⟨registered, hreg⟩ := register_complete (s := signature name params type true) name.span hfresh
      have hk := register_keeps hw hreg
      have hempty : registered.enter.scope = Names.empty := (List.cons.inj (scopes_enter hk.wellFormed)).1
      obtain ⟨ps, inner, hp⟩ := params_complete (wellFormed_enter hk.wellFormed) hdistinct
        (by simp [hempty, Names.empty])
      obtain ⟨hscopes, hproto⟩ := imported_scopes hw hreg hp
      rw [prototype_signature] at hproto
      exact ⟨_, _, (stmt_imported_ok hw).2 ⟨registered, ps, inner, hreg, hp, rfl, rfl⟩, hscopes, hproto⟩
  | .return_ value span, c, _, _, _, _, _, h, hw, hn, hr, hΓ, hF => by
    cases h with
    | return_ hvalue =>
      subst hΓ hF
      obtain ⟨f, hf, rfl⟩ := Option.map_eq_some_iff.1 hr
      obtain ⟨v, hv, ht⟩ := expr_complete hn hvalue
      exact ⟨_, c, stmt_return_ok.2 ⟨f, v, hf, hv, ht.symm, rfl, rfl⟩, rfl, rfl⟩
  | .while_ condition body bodySpan span, c, _, _, _, _, _, h, hw, hn, hr, hΓ, hF => by
    cases h with
    | while_ hcondition hbody =>
      subst hΓ hF
      obtain ⟨e, he, ht⟩ := expr_complete hn hcondition
      obtain ⟨ss, inner, hi, -, hproto⟩ := stmts_complete hbody (wellFormed_enter hw) hn hr (scopes_enter hw) rfl
      exact ⟨_, _, (stmt_while_ok hw).2 ⟨e, he, ht, ss, inner, hi, rfl, rfl⟩,
        scopes_back (keeps_of_stmts hw.enter hi) hw, hproto⟩
  | .ifThen condition yes yesSpan span, c, _, _, _, _, _, h, hw, hn, hr, hΓ, hF => by
    cases h with
    | ifThen hcondition hyes =>
      subst hΓ hF
      obtain ⟨e, he, ht⟩ := expr_complete hn hcondition
      obtain ⟨ss, inner, hi, -, hproto⟩ := stmts_complete hyes (wellFormed_enter hw) hn hr (scopes_enter hw) rfl
      exact ⟨_, _, (stmt_ifThen_ok hw).2 ⟨e, he, ht, ss, inner, hi, rfl, rfl⟩,
        scopes_back (keeps_of_stmts hw.enter hi) hw, hproto⟩
  | .ifElse condition yes yesSpan no noSpan span, c, _, _, _, _, _, h, hw, hn, hr, hΓ, hF => by
    cases h with
    | ifElse hcondition hyes hno =>
      subst hΓ hF
      obtain ⟨e, he, ht⟩ := expr_complete hn hcondition
      obtain ⟨ys, inner, hi, -, hproto⟩ := stmts_complete hyes (wellFormed_enter hw) hn hr (scopes_enter hw) rfl
      have hk := keeps_of_stmts hw.enter hi
      have hwb := (hk.back hw).wellFormed
      -- the second branch starts from the scopes of the first, which are back, and from the functions that it added
      have hback := scopes_back hk hw
      obtain ⟨ns, inner', hi', -, hproto'⟩ := stmts_complete hno (wellFormed_enter hwb) ((hk.back hw).distinct hn) hr
        ((scopes_enter hwb).trans (by rw [hback])) hproto
      exact ⟨_, _, (stmt_ifElse_ok hw).2 ⟨e, ys, inner, ns, inner', he, ht, hi, hi', rfl, rfl⟩,
        (scopes_back (keeps_of_stmts hwb.enter hi') hwb).trans hback, hproto'⟩

theorem stmts_complete : {ss : List Stmt} → {c : Checker} → {result : Option PrimType} → {Γ Γ' : Scopes} →
    {F F' : List Prototype} → Stmt.AllWellTyped result Γ F ss Γ' F' → c.env.WellFormed →
    c.functions.names.Nodup → c.result = result → c.scopes = Γ → c.prototypes = F →
    ∃ typed c', stmts ss c = (.ok typed, c') ∧ c'.scopes = Γ' ∧ c'.prototypes = F'
  | [], c, _, _, _, _, _, h, hw, hn, hr, hΓ, hF => by
    cases h
    exact ⟨[], c, rfl, hΓ, hF⟩
  | s :: ss, c, _, _, _, _, _, h, hw, hn, hr, hΓ, hF => by
    cases h with
    | cons hhead htail =>
      obtain ⟨t, inner, hs, hΓ', hF'⟩ := stmt_complete hhead hw hn hr hΓ hF
      have hk := keeps_of_stmt hw hs
      have hr' : inner.result = c.result := by rw [Checker.result, hk.current]; rfl
      obtain ⟨ts, c', hss, hΓ'', hF''⟩ := stmts_complete htail hk.wellFormed (hk.distinct hn)
        (hr'.trans hr) hΓ' hF'
      exact ⟨_, c', stmts_cons_ok.2 ⟨t, inner, ts, hs, hss, rfl⟩, hΓ'', hF''⟩

end

end Complete

end Checker

/-- The checker accepts exactly the programs that the typing rules accept. -/
theorem Program.check_ok_iff (p : Program) : (∃ typed, p.check = .ok typed) ↔ p.WellTyped := by
  constructor
  · rintro ⟨typed, h⟩
    obtain ⟨body, c, hs, rfl⟩ := check_eq_ok.1 h
    exact ⟨_, _, Checker.stmts_wellTyped Env.wellFormed_empty hs⟩
  · rintro ⟨Γ, F, h⟩
    obtain ⟨body, c, hs, -, -⟩ := Checker.stmts_complete (c := {}) h Env.wellFormed_empty List.nodup_nil rfl
      (Checker.view_empty _) rfl
    exact ⟨_, check_eq_ok.2 ⟨body, c, hs, rfl⟩⟩

end ImpWasm
