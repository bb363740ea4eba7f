import ImpWasm.Proofs.Lang.Trees
import ImpWasm.Proofs.Typing.Soundness
set_option autoImplicit false

namespace ImpWasm

section Abbreviates

def SameParams (p q : Option ParamList) : Prop :=
  (ParamList.toList p).map Param.bare = (ParamList.toList q).map Param.bare

mutual

/-- The first statement writes the second, which spells out the type of every variable. A type that the
first writes is the one that the second has; a list without parameters may be left out; the places in
the source do not count. -/
inductive Stmt.Abbreviates : Stmt → Stmt → Prop where
  | expr {a b : Expr} {s t : Span} (hvalue : a.bare = b.bare) : Stmt.Abbreviates (.expr a s) (.expr b t)
  | var {x y : Ident} {type : Option TypeRef} {full : TypeRef} {a b : Option Expr} {s t : Span}
      (hname : x.bare = y.bare) (htype : ∀ d ∈ type, d.bare = full.bare)
      (hinit : a.map Expr.bare = b.map Expr.bare) :
      Stmt.Abbreviates (.var x type a s) (.var y (some full) b t)
  | assign {x y : Ident} {a b : Expr} {s t : Span} (htarget : x.bare = y.bare) (hvalue : a.bare = b.bare) :
      Stmt.Abbreviates (.assign x a s) (.assign y b t)
  | block {xs ys : List Stmt} {s s' t t' : Span} (hbody : Stmt.AllAbbreviate xs ys) :
      Stmt.Abbreviates (.block xs s s') (.block ys t t')
  | function {x y : Ident} {p q : Option ParamList} {u v : TypeRef} {xs ys : List Stmt} {s s' t t' : Span}
      (hname : x.bare = y.bare) (hparams : SameParams p q) (hresult : u.bare = v.bare)
      (hbody : Stmt.AllAbbreviate xs ys) :
      Stmt.Abbreviates (.function x p u xs s s') (.function y q v ys t t')
  | imported {x y : Ident} {p q : Option ParamList} {u v : TypeRef} {s t : Span} (hname : x.bare = y.bare)
      (hparams : SameParams p q) (hresult : u.bare = v.bare) :
      Stmt.Abbreviates (.imported x p u s) (.imported y q v t)
  | return_ {a b : Expr} {s t : Span} (hvalue : a.bare = b.bare) :
      Stmt.Abbreviates (.return_ a s) (.return_ b t)
  | while_ {a b : Expr} {xs ys : List Stmt} {s s' t t' : Span} (hcondition : a.bare = b.bare)
      (hbody : Stmt.AllAbbreviate xs ys) : Stmt.Abbreviates (.while_ a xs s s') (.while_ b ys t t')
  | ifThen {a b : Expr} {xs ys : List Stmt} {s s' t t' : Span} (hcondition : a.bare = b.bare)
      (hyes : Stmt.AllAbbreviate xs ys) : Stmt.Abbreviates (.ifThen a xs s s') (.ifThen b ys t t')
  | ifElse {a b : Expr} {xs ys xs' ys' : List Stmt} {s s' s'' t t' t'' : Span}
      (hcondition : a.bare = b.bare) (hyes : Stmt.AllAbbreviate xs ys) (hno : Stmt.AllAbbreviate xs' ys') :
      Stmt.Abbreviates (.ifElse a xs s xs' s' s'') (.ifElse b ys t ys' t' t'')

inductive Stmt.AllAbbreviate : List Stmt → List Stmt → Prop where
  | nil : Stmt.AllAbbreviate [] []
  | cons {x y : Stmt} {xs ys : List Stmt} (hhead : Stmt.Abbreviates x y) (htail : Stmt.AllAbbreviate xs ys) :
      Stmt.AllAbbreviate (x :: xs) (y :: ys)

end

end Abbreviates

namespace Typed

/-- The number of the identifier is that of a symbol with its name and this type. -/
def Ident.Denotes (symbols : List Symbol) (i : Ident) (type : PrimType) : Prop :=
  ∃ s, symbols[i.symbol]? = some s ∧ s.id = i.symbol ∧ s.name = i.name ∧ s.type = type

/-- The identifier has the number of the nearest declaration of its name, and the type of that symbol. -/
structure Ident.Resolved (symbols : List Symbol) (Δ : List (Names Nat)) (i : Ident) (type : PrimType) :
    Prop where
  nearest : Δ.findSome? (· i.name) = some i.symbol
  denotes : i.Denotes symbols type

mutual

/-- Every variable is resolved, every call is of a function in the table with the types of its
parameters, and every type follows from those of the parts. -/
def Expr.Resolved (symbols : List Symbol) (functions : FunctionTable) (Δ : List (Names Nat)) : Expr → Prop
  | .ident name type _ => name.Resolved symbols Δ type
  | .int .. | .string .. | .bool .. => True
  | .binary op left right type _ =>
    left.Resolved symbols functions Δ ∧ right.Resolved symbols functions Δ ∧ left.type = right.type ∧
      type = op.resultType left.type
  | .call callee args type _ =>
    Expr.AllResolved symbols functions Δ args ∧
      ∃ s, functions.get? callee = some s ∧ s.paramTypes = args.map Expr.type ∧ s.result = type

def Expr.AllResolved (symbols : List Symbol) (functions : FunctionTable) (Δ : List (Names Nat)) :
    List Expr → Prop
  | [] => True
  | e :: es => e.Resolved symbols functions Δ ∧ Expr.AllResolved symbols functions Δ es

end

def Stmt.declare : Stmt → List (Names Nat) → List (Names Nat)
  | .var name _ _ _, scope :: outer => scope.insert name.name name.symbol :: outer
  | _, Δ => Δ

def paramNumbers (params : List Param) : Names Nat :=
  params.foldl (fun names p => names.insert p.name.name p.name.symbol) Names.empty

def Listed (functions : FunctionTable) (name : String) (params : List Param) (result : PrimType)
    (isImported : Bool) : Prop :=
  ∃ s, functions.get? name = some s ∧ s.paramTypes = params.map Param.type ∧ s.result = result ∧
    s.isImported = isImported

mutual

def Stmt.Resolved (symbols : List Symbol) (functions : FunctionTable) (Δ : List (Names Nat)) : Stmt → Prop
  | .expr value _ | .return_ value _ => value.Resolved symbols functions Δ
  | .var name type init _ =>
    name.Denotes symbols type ∧ ∀ e ∈ init, e.Resolved symbols functions Δ ∧ e.type = type
  | .assign target value _ =>
    target.Resolved symbols Δ value.type ∧ value.Resolved symbols functions Δ
  | .block body _ _ => Stmt.AllResolved symbols functions (Names.empty :: Δ) body
  | .function name params result body _ _ =>
    (∀ p ∈ params, p.name.Denotes symbols p.type) ∧ Listed functions name params result false ∧
      Stmt.AllResolved symbols functions (Names.empty :: paramNumbers params :: Δ) body
  | .imported name params result _ =>
    (∀ p ∈ params, p.name.Denotes symbols p.type) ∧ Listed functions name params result true
  | .while_ condition body _ _ =>
    condition.Resolved symbols functions Δ ∧ Stmt.AllResolved symbols functions (Names.empty :: Δ) body
  | .ifThen condition yes _ _ =>
    condition.Resolved symbols functions Δ ∧ Stmt.AllResolved symbols functions (Names.empty :: Δ) yes
  | .ifElse condition yes _ no _ _ =>
    condition.Resolved symbols functions Δ ∧ Stmt.AllResolved symbols functions (Names.empty :: Δ) yes ∧
      Stmt.AllResolved symbols functions (Names.empty :: Δ) no

def Stmt.AllResolved (symbols : List Symbol) (functions : FunctionTable) (Δ : List (Names Nat)) :
    List Stmt → Prop
  | [] => True
  | s :: ss => s.Resolved symbols functions Δ ∧ Stmt.AllResolved symbols functions (s.declare Δ) ss

end

/-- Every variable of the program has the number of its nearest declaration, and the declarations are
numbered in their order. -/
structure Program.Resolved (p : Program) : Prop where
  body : Stmt.AllResolved p.symbols p.functions [Names.empty] p.body
  numbers : Stmt.allSymbols p.body = List.range p.symbols.length

end Typed

namespace Checker

variable {c c' : Checker}

section Erase

mutual

theorem expr_erase : {e : Expr} → {typed : Typed.Expr} → c.expr e = .ok typed → e.bare = typed.erase.bare
  | .ident name span, typed, h => by
    obtain ⟨s, _, rfl⟩ := expr_ident_ok.1 h
    rfl
  | .int .., typed, h => by
    cases h
    rfl
  | .string .., typed, h => by
    cases h
    rfl
  | .bool .., typed, h => by
    cases h
    rfl
  | .binary op left right span, typed, h => by
    obtain ⟨a, b, ha, hb, _, rfl⟩ := expr_binary_ok.1 h
    simp only [Expr.bare, Typed.Expr.erase, expr_erase ha, expr_erase hb]
  | .call callee args span, typed, h => by
    obtain ⟨as, s, has, _, _, rfl⟩ := expr_call_ok.1 h
    simp only [Expr.bare, Typed.Expr.erase, exprs_erase has, Ident.bare]

theorem exprs_erase : {es : List Expr} → {typed : List Typed.Expr} → c.exprs es = .ok typed →
    Expr.bareAll es = Expr.bareAll (Typed.Expr.eraseAll typed)
  | [], typed, h => by
    cases h
    rfl
  | e :: es, typed, h => by
    obtain ⟨a, as, ha, has, rfl⟩ := exprs_cons_ok.1 h
    simp only [Expr.bareAll, Typed.Expr.eraseAll, expr_erase ha, exprs_erase has]

end

theorem optExpr_erase {init : Option Expr} {typed : Option Typed.Expr} (h : c.optExpr init = .ok typed) :
    init.map Expr.bare = (typed.map Typed.Expr.erase).map Expr.bare := by
  cases init with
  | none =>
    cases h
    rfl
  | some e =>
    obtain ⟨v, hv, rfl⟩ := map_eq_ok.1 h
    simp [expr_erase hv]

theorem params_erase {ps : List Param} {typed : List Typed.Param} (h : params ps c = (.ok typed, c')) :
    ps.map Param.bare = (typed.map Typed.Param.erase).map Param.bare := by
  induction ps generalizing c typed with
  | nil =>
    cases h
    rfl
  | cons p ps ih =>
    obtain ⟨env, new, rest, _, hrest, rfl⟩ := params_cons_ok.1 h
    rw [List.map_cons, List.map_cons, List.map_cons, ih hrest]
    rfl

theorem sameParams_erase {params : Option ParamList} {typed : List Typed.Param}
    (h : Checker.params (ParamList.toList params) c = (.ok typed, c')) (span : Span) :
    SameParams params (Typed.eraseParams typed span) := by
  have hp := params_erase h
  unfold SameParams Typed.eraseParams
  cases typed with
  | nil => exact hp
  | cons p ps => exact hp

mutual

theorem stmt_erase : {s : Stmt} → {typed : Typed.Stmt} → {c c' : Checker} → c.env.WellFormed →
    stmt s c = (.ok typed, c') → s.Abbreviates typed.erase
  | .expr value span, typed, c, c', hw, h => by
    obtain ⟨v, hv, rfl, rfl⟩ := stmt_expr_ok.1 h
    exact .expr (expr_erase hv)
  | .var name type init span, typed, c, c', hw, h => by
    obtain ⟨i, t, env, new, hi, ht, _, rfl, rfl⟩ := stmt_var_ok.1 h
    obtain ⟨-, hdeclared, -⟩ := varType_eq_ok.1 ht
    refine .var rfl (fun d hd => ?_) (optExpr_erase hi)
    rw [TypeRef.bare, hdeclared d hd]
    rfl
  | .assign target value span, typed, c, c', hw, h => by
    obtain ⟨s, v, _, hv, _, rfl, rfl⟩ := stmt_assign_ok.1 h
    exact .assign rfl (expr_erase hv)
  | .block body bodySpan span, typed, c, c', hw, h => by
    obtain ⟨ss, inner, hi, rfl, rfl⟩ := (stmt_block_ok hw).1 h
    exact .block (stmts_erase hw.enter hi)
  | .function name params result body bodySpan span, typed, c, c', hw, h => by
    obtain ⟨opened, ps, bound, ss, inner, ho, hp, hi, rfl, rfl⟩ := (stmt_function_ok hw).1 h
    obtain ⟨_, _, registered, hr, hopened⟩ := (openFunction_eq_ok hw).1 ho
    have hwo := wellFormed_opened hw ho
    exact .function rfl (sameParams_erase hp span) rfl
      (stmts_erase (keeps_of_params hwo hp).wellFormed.enter hi)
  | .imported name params result span, typed, c, c', hw, h => by
    obtain ⟨registered, ps, inner, _, hp, rfl, rfl⟩ := (stmt_imported_ok hw).1 h
    exact .imported rfl (sameParams_erase hp span) rfl
  | .return_ value span, typed, c, c', hw, h => by
    obtain ⟨f, v, _, hv, _, rfl, rfl⟩ := stmt_return_ok.1 h
    exact .return_ (expr_erase hv)
  | .while_ condition body bodySpan span, typed, c, c', hw, h => by
    obtain ⟨e, he, _, ss, inner, hi, rfl, rfl⟩ := (stmt_while_ok hw).1 h
    exact .while_ (expr_erase he) (stmts_erase hw.enter hi)
  | .ifThen condition yes yesSpan span, typed, c, c', hw, h => by
    obtain ⟨e, he, _, ss, inner, hi, rfl, rfl⟩ := (stmt_ifThen_ok hw).1 h
    exact .ifThen (expr_erase he) (stmts_erase hw.enter hi)
  | .ifElse condition yes yesSpan no noSpan span, typed, c, c', hw, h => by
    obtain ⟨e, ys, inner, ns, inner', he, _, hi, hi', rfl, rfl⟩ := (stmt_ifElse_ok hw).1 h
    have hwb := ((keeps_of_stmts hw.enter hi).back hw).wellFormed
    exact .ifElse (expr_erase he) (stmts_erase hw.enter hi) (stmts_erase hwb.enter hi')

theorem stmts_erase : {ss : List Stmt} → {typed : List Typed.Stmt} → {c c' : Checker} →
    c.env.WellFormed → stmts ss c = (.ok typed, c') →
    Stmt.AllAbbreviate ss (Typed.Stmt.eraseAll typed)
  | [], typed, c, c', hw, h => by
    cases h
    exact .nil
  | s :: ss, typed, c, c', hw, h => by
    obtain ⟨t, inner, ts, hs, hss, rfl⟩ := stmts_cons_ok.1 h
    exact .cons (stmt_erase hw hs) (stmts_erase (keeps_of_stmt hw hs).wellFormed hss)

end

end Erase

section Resolve

variable {symbols : List Symbol} {functions : FunctionTable}

def numbers (c : Checker) : List (Names Nat) := c.view Symbol.id

/-- The symbols and signatures of a state are the first of those given. -/
structure PartOf (c : Checker) (symbols : List Symbol) (functions : FunctionTable) : Prop where
  symbols : c.env.symbols <+: symbols
  functions : c.functions.signatures <+: functions.signatures

theorem PartOf.before (h : c'.PartOf symbols functions) (hk : c.Keeps Env.After c') :
    c.PartOf symbols functions :=
  ⟨hk.env.symbols.trans h.symbols, hk.functions.trans h.functions⟩

theorem PartOf.inner {inner : Checker} (h : (c.back inner).PartOf symbols functions) :
    inner.PartOf symbols functions := ⟨h.symbols, h.functions⟩

theorem PartOf.within (h : c.PartOf symbols functions) : c.functions.Within functions := by
  obtain ⟨more, hmore⟩ := h.functions
  exact FunctionTable.within_append hmore.symm

theorem PartOf.getElem? (h : c.PartOf symbols functions) {i : Nat} {s : Symbol}
    (hs : c.env.symbols[i]? = some s) : symbols[i]? = some s := by
  obtain ⟨more, hmore⟩ := h.symbols
  rw [← hmore, List.getElem?_append_left (List.getElem?_eq_some_iff.1 hs).1, hs]

theorem lookup_resolved {name : String} {span : Span} {s : Symbol} (hp : c.PartOf symbols functions)
    (hw : c.env.WellFormed) (hs : c.env.lookup name = some s) :
    Typed.Ident.Resolved symbols c.numbers ⟨name, s.id, span⟩ s.type := by
  obtain ⟨hsym, hname⟩ := hw.lookup_symbol hs
  refine ⟨?_, s, hp.getElem? hsym, rfl, hname, rfl⟩
  rw [numbers, find_view, hs]
  rfl

theorem declare_denotes {env : Env} {name : String} {type : PrimType} {at_ : Option Span} {span : Span}
    {new : Symbol} (hd : c.env.declare name type at_ = .ok (env, new))
    (hp : ({ c with env } : Checker).PartOf symbols functions) :
    Typed.Ident.Denotes symbols ⟨name, new.id, span⟩ type := by
  obtain ⟨-, rfl, rfl⟩ := Env.declare_eq_ok.1 hd
  exact ⟨_, hp.getElem? (by simp [Env.newSymbol]), rfl, rfl, rfl⟩

theorem numbers_enter (hw : c.env.WellFormed) : c.enter.numbers = Names.empty :: c.numbers :=
  view_enter _ hw

mutual

theorem expr_resolved (hw : c.env.WellFormed) (hp : c.PartOf symbols functions) : {e : Expr} →
    {typed : Typed.Expr} → c.expr e = .ok typed → typed.Resolved symbols functions c.numbers
  | .ident name span, typed, h => by
    obtain ⟨s, hs, rfl⟩ := expr_ident_ok.1 h
    exact lookup_resolved hp hw hs
  | .int .., typed, h => by
    cases h
    trivial
  | .string .., typed, h => by
    cases h
    trivial
  | .bool .., typed, h => by
    cases h
    trivial
  | .binary op left right span, typed, h => by
    obtain ⟨a, b, ha, hb, ht, rfl⟩ := expr_binary_ok.1 h
    exact ⟨expr_resolved hw hp ha, expr_resolved hw hp hb, ht, rfl⟩
  | .call callee args span, typed, h => by
    obtain ⟨as, s, has, hs, ht, rfl⟩ := expr_call_ok.1 h
    exact ⟨exprs_resolved hw hp has, s, hp.within _ _ hs, ht, rfl⟩

theorem exprs_resolved (hw : c.env.WellFormed) (hp : c.PartOf symbols functions) : {es : List Expr} →
    {typed : List Typed.Expr} → c.exprs es = .ok typed →
    Typed.Expr.AllResolved symbols functions c.numbers typed
  | [], typed, h => by
    cases h
    trivial
  | e :: es, typed, h => by
    obtain ⟨a, as, ha, has, rfl⟩ := exprs_cons_ok.1 h
    exact ⟨expr_resolved hw hp ha, exprs_resolved hw hp has⟩

end

theorem optExpr_resolved (hw : c.env.WellFormed) (hp : c.PartOf symbols functions) {init : Option Expr}
    {typed : Option Typed.Expr} (h : c.optExpr init = .ok typed) :
    ∀ e ∈ typed, e.Resolved symbols functions c.numbers := by
  cases init with
  | none =>
    cases h
    simp
  | some e =>
    obtain ⟨v, hv, rfl⟩ := map_eq_ok.1 h
    simpa using expr_resolved hw hp hv

theorem params_resolved {ps : List Param} {typed : List Typed.Param} (hw : c.env.WellFormed)
    (hp : c'.PartOf symbols functions) (h : params ps c = (.ok typed, c')) :
    (∀ p ∈ typed, p.name.Denotes symbols p.type) ∧
      c'.numbers = typed.foldl (fun names p => names.insert p.name.name p.name.symbol)
        (c.env.innermost.map Symbol.id) :: c.env.outer.map (Names.map Symbol.id) := by
  induction ps generalizing c typed with
  | nil =>
    cases h
    exact ⟨by simp, rfl⟩
  | cons p ps ih =>
    obtain ⟨env, new, rest, hnew, hrest, rfl⟩ := params_cons_ok.1 h
    have hwn : ({ c with env } : Checker).env.WellFormed := hw.declare hnew
    obtain ⟨hall, hnumbers⟩ := ih hwn hrest
    have hview := view_declare Symbol.id hw hnew
    rw [view_eq_cons] at hview
    obtain ⟨hinnermost, houter⟩ := List.cons.inj hview
    rw [hinnermost, houter] at hnumbers
    refine ⟨List.forall_mem_cons.2 ⟨?_, hall⟩, hnumbers⟩
    exact declare_denotes hnew (hp.before (keeps_of_params hwn hrest))

theorem register_listed {name : Ident} {params : Option ParamList} {result : TypeRef} {isImported : Bool}
    {span : Span} {registered : Checker} {typed : List Typed.Param}
    (hr : c.register (signature name params result isImported) span = .ok registered)
    (ht : typed.map Typed.Param.type = (ParamList.toList params).map (·.type.type))
    (hp : registered.PartOf symbols functions) :
    Typed.Listed functions name.name typed result.type isImported := by
  obtain ⟨hfresh, rfl⟩ := register_eq_ok.1 hr
  have hnone := FunctionTable.get?_eq_none.2 hfresh
  refine ⟨signature name params result isImported, hp.within _ _ ?_,
    (paramTypes_signature ..).trans ht.symm, rfl, rfl⟩
  unfold FunctionTable.get? at hnone ⊢
  rw [List.find?_append, show name.name = (signature name params result isImported).name from rfl, hnone]
  simp

mutual

theorem stmt_resolved : {s : Stmt} → {typed : Typed.Stmt} → {c c' : Checker} → c.env.WellFormed →
    c'.PartOf symbols functions → stmt s c = (.ok typed, c') →
    typed.Resolved symbols functions c.numbers ∧ c'.numbers = typed.declare c.numbers
  | .expr value span, typed, c, c', hw, hp, h => by
    obtain ⟨v, hv, rfl, rfl⟩ := stmt_expr_ok.1 h
    exact ⟨expr_resolved hw hp hv, rfl⟩
  | .var name type init span, typed, c, c', hw, hp, h => by
    have hk := keeps_of_stmt hw h
    obtain ⟨i, t, env, new, hi, ht, hnew, rfl, rfl⟩ := stmt_var_ok.1 h
    obtain ⟨-, -, hinit⟩ := varType_eq_ok.1 ht
    exact ⟨⟨declare_denotes hnew hp, fun e he => ⟨optExpr_resolved hw (hp.before hk) hi e he, hinit e he⟩⟩,
      view_declare Symbol.id hw hnew⟩
  | .assign target value span, typed, c, c', hw, hp, h => by
    obtain ⟨s, v, hs, hv, ht, rfl, rfl⟩ := stmt_assign_ok.1 h
    exact ⟨⟨ht ▸ lookup_resolved hp hw hs, expr_resolved hw hp hv⟩, rfl⟩
  | .block body bodySpan span, typed, c, c', hw, hp, h => by
    obtain ⟨ss, inner, hi, rfl, rfl⟩ := (stmt_block_ok hw).1 h
    have hbody := stmts_resolved hw.enter hp.inner hi
    rw [show c.enter.numbers = Names.empty :: c.numbers from numbers_enter hw] at hbody
    exact ⟨hbody, view_back _ (keeps_of_stmts hw.enter hi) hw⟩
  | .function name params result body bodySpan span, typed, c, c', hw, hp, h => by
    obtain ⟨opened, ps, bound, ss, inner, ho, hps, hi, rfl, rfl⟩ := (stmt_function_ok hw).1 h
    obtain ⟨_, _, registered, hr, hopened⟩ := (openFunction_eq_ok hw).1 ho
    -- what the later states list was listed by the earlier ones or is new, so each part is resolved in the last tables
    have hreg := register_keeps hw hr
    have hwo := wellFormed_opened hw ho
    have hbound := keeps_of_params hwo hps
    have hwb := hbound.wellFormed
    have hinner := keeps_of_stmts hwb.enter hi
    have hpb := hp.inner.before ((hinner.back hwb).after hwb)
    have hpo := hpb.before hbound
    have hpr : registered.PartOf symbols functions := by
      subst hopened
      exact ⟨hpo.symbols, hpo.functions⟩
    obtain ⟨hparams, hnumbers⟩ := params_resolved hwo hpb hps
    have hopen : opened.numbers = Names.empty :: c.numbers := by
      subst hopened
      exact (numbers_enter hreg.wellFormed).trans (by rw [numbers, view_of_quiet _ hreg hw]; rfl)
    rw [numbers, view_eq_cons] at hopen
    obtain ⟨hempty, houter⟩ := List.cons.inj hopen
    rw [hempty, houter] at hnumbers
    have hbody := stmts_resolved hwb.enter hp.inner.inner hi
    rw [show bound.enter.numbers = Names.empty :: bound.numbers from numbers_enter hwb, hnumbers] at hbody
    exact ⟨⟨hparams, register_listed hr (params_ok hps).1 hpr, hbody⟩,
      view_of_quiet _ (leave_body hw ho hps hi).2 hw⟩
  | .imported name params result span, typed, c, c', hw, hp, h => by
    obtain ⟨registered, ps, inner, hr, hps, rfl, rfl⟩ := (stmt_imported_ok hw).1 h
    have hreg := register_keeps hw hr
    have hinner := keeps_of_params hreg.wellFormed.enter hps
    have hpr := hp.before ((hinner.back hreg.wellFormed).after hreg.wellFormed)
    have hparams := (params_resolved hreg.wellFormed.enter hp.inner hps).1
    refine ⟨⟨hparams, register_listed hr (params_ok hps).1 hpr⟩, ?_⟩
    exact (view_back _ hinner hreg.wellFormed).trans (view_of_quiet _ hreg hw)
  | .return_ value span, typed, c, c', hw, hp, h => by
    obtain ⟨f, v, _, hv, _, rfl, rfl⟩ := stmt_return_ok.1 h
    exact ⟨expr_resolved hw hp hv, rfl⟩
  | .while_ condition body bodySpan span, typed, c, c', hw, hp, h => by
    have hk := keeps_of_stmt hw h
    obtain ⟨e, he, _, ss, inner, hi, rfl, rfl⟩ := (stmt_while_ok hw).1 h
    have hbody := stmts_resolved hw.enter hp.inner hi
    rw [show c.enter.numbers = Names.empty :: c.numbers from numbers_enter hw] at hbody
    exact ⟨⟨expr_resolved hw (hp.before hk) he, hbody⟩, view_back _ (keeps_of_stmts hw.enter hi) hw⟩
  | .ifThen condition yes yesSpan span, typed, c, c', hw, hp, h => by
    have hk := keeps_of_stmt hw h
    obtain ⟨e, he, _, ss, inner, hi, rfl, rfl⟩ := (stmt_ifThen_ok hw).1 h
    have hyes := stmts_resolved hw.enter hp.inner hi
    rw [show c.enter.numbers = Names.empty :: c.numbers from numbers_enter hw] at hyes
    exact ⟨⟨expr_resolved hw (hp.before hk) he, hyes⟩, view_back _ (keeps_of_stmts hw.enter hi) hw⟩
  | .ifElse condition yes yesSpan no noSpan span, typed, c, c', hw, hp, h => by
    have hk := keeps_of_stmt hw h
    obtain ⟨e, ys, inner, ns, inner', he, _, hi, hi', rfl, rfl⟩ := (stmt_ifElse_ok hw).1 h
    have hin := keeps_of_stmts hw.enter hi
    have hwb := (hin.back hw).wellFormed
    have hin' := keeps_of_stmts hwb.enter hi'
    have hback : (c.back inner).numbers = c.numbers := view_back _ hin hw
    have hyes := stmts_resolved hw.enter (hp.before ((hin'.back hwb).after hwb)).inner hi
    have hno := stmts_resolved hwb.enter hp.inner hi'
    rw [show c.enter.numbers = Names.empty :: c.numbers from numbers_enter hw] at hyes
    rw [show (c.back inner).enter.numbers = Names.empty :: (c.back inner).numbers from numbers_enter hwb,
      hback] at hno
    exact ⟨⟨expr_resolved hw (hp.before hk) he, hyes, hno⟩, (view_back _ hin' hwb).trans hback⟩

theorem stmts_resolved : {ss : List Stmt} → {typed : List Typed.Stmt} → {c c' : Checker} →
    c.env.WellFormed → c'.PartOf symbols functions → stmts ss c = (.ok typed, c') →
    Typed.Stmt.AllResolved symbols functions c.numbers typed
  | [], typed, c, c', hw, hp, h => by
    cases h
    trivial
  | s :: ss, typed, c, c', hw, hp, h => by
    obtain ⟨t, inner, ts, hs, hss, rfl⟩ := stmts_cons_ok.1 h
    have hwi := (keeps_of_stmt hw hs).wellFormed
    obtain ⟨hone, hnumbers⟩ := stmt_resolved hw (hp.before (keeps_of_stmts hwi hss)) hs
    exact ⟨hone, hnumbers ▸ stmts_resolved hwi hp hss⟩

end

end Resolve

end Checker

/-- The checker accepts a program exactly if the typing rules do. An accepted program is, but for types
and numbers, the one that was written, and every variable in it is resolved to its nearest declaration. -/
theorem Program.check_sound_complete_faithful (p : Program) :
    ((∃ typed, p.check = .ok typed) ↔ p.WellTyped) ∧
      ∀ typed, p.check = .ok typed → Stmt.AllAbbreviate p.body typed.erase.body ∧ typed.Resolved := by
  refine ⟨p.check_ok_iff, fun typed h => ?_⟩
  rcases hs : Checker.stmts p.body {} with ⟨r, c⟩
  simp only [check, hs] at h
  obtain ⟨body, rfl, rfl⟩ := map_eq_ok.1 h
  have hnumbers := (Checker.stmts_steps hs).numbers
  refine ⟨Checker.stmts_erase Env.wellFormed_empty hs, ?_, ?_⟩
  · exact Checker.stmts_resolved Env.wellFormed_empty ⟨List.prefix_rfl, List.prefix_rfl⟩ hs
  · have hcount : c.env.symbols.length = (Typed.Stmt.allSymbols body).length := by
      simpa using hnumbers.count
    rw [hnumbers.consecutive, ← hcount]
    exact List.range_eq_range'.symm

end ImpWasm
