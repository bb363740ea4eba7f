import ImpWasm.Proofs.Typing.Linked
set_option autoImplicit false

namespace ImpWasm

namespace Checker

variable {c c' : Checker}

section Expressions

theorem resolve_eq_ok {name : String} {span : Span} {r : Typed.Ident × PrimType} :
    c.resolve name span = .ok r ↔ ∃ s, c.env.lookup name = some s ∧ r = (⟨name, s.id, span⟩, s.type) := by
  unfold resolve
  cases c.env.lookup name with
  | none => simp
  | some s => simp [eq_comm]

theorem expr_ident_ok {name : String} {span : Span} {typed : Typed.Expr} :
    c.expr (.ident name span) = .ok typed ↔
      ∃ s, c.env.lookup name = some s ∧ typed = .ident ⟨name, s.id, span⟩ s.type span := by
  simp only [expr, bind_eq_ok, pure_eq_ok, resolve_eq_ok]
  constructor
  · rintro ⟨_, ⟨s, hs, rfl⟩, rfl⟩
    exact ⟨s, hs, rfl⟩
  · rintro ⟨s, hs, rfl⟩
    exact ⟨_, ⟨s, hs, rfl⟩, rfl⟩

theorem expr_binary_ok {op : Operator} {left right : Expr} {span : Span} {typed : Typed.Expr} :
    c.expr (.binary op left right span) = .ok typed ↔
      ∃ a b, c.expr left = .ok a ∧ c.expr right = .ok b ∧ a.type = b.type ∧
        typed = .binary op a b (op.resultType a.type) span := by
  simp only [expr, bind_eq_ok]
  constructor
  · rintro ⟨a, ha, b, hb, h⟩
    split at h
    · rename_i ht
      exact ⟨a, b, ha, hb, ht, (pure_eq_ok.1 h).symm⟩
    · exact (throw_ne_ok h).elim
  · rintro ⟨a, b, ha, hb, ht, rfl⟩
    exact ⟨a, ha, b, hb, by rw [if_pos ht]; rfl⟩

theorem argumentErrors_eq_nil (function : String) (position : Nat) {types : List PrimType}
    {args : List Typed.Expr} (hl : types.length = args.length) :
    argumentErrors function position types args = [] ↔ types = args.map Typed.Expr.type := by
  induction types generalizing position args with
  | nil =>
    cases args with
    | nil => simp [argumentErrors]
    | cons a args => cases hl
  | cons t ts ih =>
    cases args with
    | nil => cases hl
    | cons a args =>
      have hrest : argumentErrors function (position + 1) ts args = [] ↔ ts = args.map Typed.Expr.type :=
        ih (position + 1) (by simpa using hl)
      unfold argumentErrors
      by_cases ht : t = a.type <;> simp [ht, hrest]

theorem call_eq_ok {callee : Ident} {args : List Typed.Expr} {span : Span} {typed : Typed.Expr} :
    c.call callee args span = .ok typed ↔
      ∃ s, c.functions.get? callee.name = some s ∧ s.paramTypes = args.map Typed.Expr.type ∧
        typed = .call callee.name args s.result span := by
  unfold call
  cases c.functions.get? callee.name with
  | none => simp
  | some s =>
    by_cases hl : s.arity = args.length
    · have hnil : argumentErrors callee.name 1 s.paramTypes args = [] ↔ s.paramTypes = args.map Typed.Expr.type :=
        argumentErrors_eq_nil callee.name 1 hl
      simp only [hl, ne_eq, not_true_eq_false, if_false, Option.some.injEq, exists_eq_left']
      cases he : argumentErrors callee.name 1 s.paramTypes args with
      | nil => simp [hnil.1 he, eq_comm]
      | cons e es =>
        have hne : s.paramTypes ≠ args.map Typed.Expr.type := fun ht => by simp [hnil.2 ht] at he
        simp [hne]
    · have hne : s.paramTypes ≠ args.map Typed.Expr.type := fun ht => hl (by simp [Signature.arity, ht])
      simp [hl, hne]

theorem expr_call_ok {callee : Ident} {args : List Expr} {span : Span} {typed : Typed.Expr} :
    c.expr (.call callee args span) = .ok typed ↔
      ∃ as s, c.exprs args = .ok as ∧ c.functions.get? callee.name = some s ∧
        s.paramTypes = as.map Typed.Expr.type ∧ typed = .call callee.name as s.result span := by
  simp only [expr, bind_eq_ok, call_eq_ok, exists_and_left]

theorem exprs_cons_ok {e : Expr} {es : List Expr} {typed : List Typed.Expr} :
    c.exprs (e :: es) = .ok typed ↔ ∃ a as, c.expr e = .ok a ∧ c.exprs es = .ok as ∧ typed = a :: as := by
  simp only [exprs, bind_eq_ok, pure_eq_ok, exists_and_left]
  constructor
  · rintro ⟨a, ha, as, has, rfl⟩
    exact ⟨a, ha, as, has, rfl⟩
  · rintro ⟨a, ha, as, has, rfl⟩
    exact ⟨a, ha, as, has, rfl⟩

end Expressions

section Scopes

variable {α : Type} {a : α}

theorem leave_eq_ok {result : Checked α} :
    c.leave result = (.ok a, c') ↔ result = .ok a ∧ ∃ env, c.env.leave = some env ∧ c' = { c with env } := by
  unfold leave
  cases c.env.leave with
  | none => simp
  | some env => simp [eq_comm]

/-- A check succeeds in a scope of its own if it does so inside and the scope can be left. -/
theorem inScope_iff {check : Checker → Checked α × Checker} :
    c.inScope check = (.ok a, c') ↔ ∃ inner env, check c.enter = (.ok a, inner) ∧
      inner.env.leave = some env ∧ c' = { inner with env } := by
  rcases hi : check c.enter with ⟨result, inner⟩
  simp only [inScope, hi, leave_eq_ok, Prod.mk.injEq]
  constructor
  · rintro ⟨rfl, env, he, rfl⟩
    exact ⟨inner, env, ⟨rfl, rfl⟩, he, rfl⟩
  · rintro ⟨_, env, ⟨rfl, rfl⟩, he, rfl⟩
    exact ⟨rfl, env, he, rfl⟩

end Scopes

section Declarations

theorem declare_cases {name : Ident} {type : PrimType} {id : Typed.Ident}
    (h : c.declare name type = .ok (id, c')) :
    ∃ env new, c.env.declare name.name type (some name.span) = .ok (env, new) ∧
      id = ⟨name.name, new.id, name.span⟩ ∧ c' = { c with env } := by
  unfold declare at h
  split at h
  · rename_i env new hd
    cases h
    exact ⟨env, new, hd, rfl, rfl⟩
  · cases h

theorem params_cons_ok {p : Param} {ps : List Param} {typed : List Typed.Param} :
    params (p :: ps) c = (.ok typed, c') ↔
      ∃ env new rest, c.env.declare p.name.name p.type.type (some p.name.span) = .ok (env, new) ∧
        params ps { c with env } = (.ok rest, c') ∧
        typed = ⟨⟨p.name.name, new.id, p.name.span⟩, p.type.type, p.span⟩ :: rest := by
  cases hd : c.env.declare p.name.name p.type.type (some p.name.span) with
  | error e => simp [params, declare, hd]
  | ok r =>
    obtain ⟨env, new⟩ := r
    simp only [params, declare, hd, Prod.mk.injEq, map_eq_ok]
    constructor
    · rintro ⟨⟨rest, hr, rfl⟩, rfl⟩
      exact ⟨env, new, rest, rfl, Prod.ext hr rfl, rfl⟩
    · rintro ⟨_, _, rest, he, hp, rfl⟩
      cases he
      exact ⟨⟨rest, congrArg Prod.fst hp, rfl⟩, congrArg Prod.snd hp⟩

theorem register_eq_ok {s : Signature} {span : Span} :
    c.register s span = .ok c' ↔ s.name ∉ c.functions.names ∧
      c' = { c with functions := ⟨c.functions.signatures ++ [s]⟩ } := by
  unfold register FunctionTable.insert
  rw [← FunctionTable.get?_eq_none]
  cases c.functions.get? s.name with
  | some old => simp
  | none => simp [eq_comm]

end Declarations

section Statements

variable {typed : Typed.Stmt} {span : Span}

theorem stmt_expr_ok {value : Expr} :
    stmt (.expr value span) c = (.ok typed, c') ↔
      ∃ v, c.expr value = .ok v ∧ typed = .expr v span ∧ c' = c := by
  simp only [stmt, Prod.mk.injEq, map_eq_ok]
  constructor
  · rintro ⟨⟨v, hv, rfl⟩, rfl⟩
    exact ⟨v, hv, rfl, rfl⟩
  · rintro ⟨v, hv, rfl, rfl⟩
    exact ⟨⟨v, hv, rfl⟩, rfl⟩

theorem stmt_var_ok {name : Ident} {type : Option TypeRef} {init : Option Expr} :
    stmt (.var name type init span) c = (.ok typed, c') ↔
      ∃ i t env new, c.optExpr init = .ok i ∧ varType name span type i = .ok t ∧
        c.env.declare name.name t (some name.span) = .ok (env, new) ∧
        typed = .var ⟨name.name, new.id, name.span⟩ t i span ∧ c' = { c with env } := by
  have hstmt : stmt (.var name type init span) c = (.ok typed, c') ↔
      c.var name type init span = .ok (typed, c') := by
    unfold stmt
    cases c.var name type init span with
    | error e => simp
    | ok r => simp [Prod.ext_iff]
  rw [hstmt]
  simp only [var, bind_eq_ok, pure_eq_ok]
  constructor
  · rintro ⟨i, hi, t, ht, ⟨id, inner⟩, hd, hr⟩
    obtain ⟨env, new, hnew, rfl, rfl⟩ := declare_cases hd
    cases hr
    exact ⟨i, t, env, new, hi, ht, hnew, rfl, rfl⟩
  · rintro ⟨i, t, env, new, hi, ht, hnew, rfl, rfl⟩
    exact ⟨i, hi, t, ht, _, by simp only [declare, hnew]; rfl, rfl⟩

theorem varType_eq_ok {name : Ident} {type : Option TypeRef} {init : Option Typed.Expr} {t : PrimType} :
    varType name span type init = .ok t ↔
      (type.isSome ∨ init.isSome) ∧ (∀ d ∈ type, d.type = t) ∧ ∀ e ∈ init, e.type = t := by
  cases type with
  | none =>
    cases init with
    | none => simp [varType]
    | some e => simp [varType]
  | some d =>
    cases init with
    | none => simp [varType]
    | some e =>
      simp only [varType, Option.isSome_some, or_self, true_and, Option.mem_some_iff, forall_eq']
      constructor
      · intro h
        split at h
        · rename_i he
          exact ⟨Except.ok.inj h, he ▸ Except.ok.inj h⟩
        · cases h
      · rintro ⟨rfl, he⟩
        rw [if_pos he.symm]

theorem stmt_assign_ok {target : Ident} {value : Expr} :
    stmt (.assign target value span) c = (.ok typed, c') ↔
      ∃ s v, c.env.lookup target.name = some s ∧ c.expr value = .ok v ∧ v.type = s.type ∧
        typed = .assign ⟨target.name, s.id, target.span⟩ v span ∧ c' = c := by
  simp only [stmt, Prod.mk.injEq, assign, bind_eq_ok, resolve_eq_ok]
  constructor
  · rintro ⟨⟨_, ⟨s, hs, rfl⟩, v, hv, h⟩, rfl⟩
    split at h
    · rename_i ht
      exact ⟨s, v, hs, hv, ht, (pure_eq_ok.1 h).symm, rfl⟩
    · exact (throw_ne_ok h).elim
  · rintro ⟨s, v, hs, hv, ht, rfl, rfl⟩
    exact ⟨⟨_, ⟨s, hs, rfl⟩, v, hv, by rw [if_pos ht]; rfl⟩, rfl⟩

theorem stmt_return_ok {value : Expr} :
    stmt (.return_ value span) c = (.ok typed, c') ↔
      ∃ f v, c.current = some f ∧ c.expr value = .ok v ∧ f.result = v.type ∧
        typed = .return_ v span ∧ c' = c := by
  simp only [stmt, Prod.mk.injEq, return_, bind_eq_ok]
  constructor
  · rintro ⟨⟨v, hv, h⟩, rfl⟩
    split at h
    · exact (throw_ne_ok h).elim
    · rename_i f hf
      split at h
      · rename_i ht
        exact ⟨f, v, hf, hv, ht, (pure_eq_ok.1 h).symm, rfl⟩
      · exact (throw_ne_ok h).elim
  · rintro ⟨f, v, hf, hv, ht, rfl, rfl⟩
    refine ⟨⟨v, hv, ?_⟩, rfl⟩
    simp only [hf, if_pos ht]
    rfl

theorem stmt_block_iff {body : List Stmt} {bodySpan : Span} :
    stmt (.block body bodySpan span) c = (.ok typed, c') ↔
      ∃ ss, c.inScope (stmts body) = (.ok ss, c') ∧ typed = .block ss bodySpan span := by
  rcases hb : c.inScope (stmts body) with ⟨r, outside⟩
  simp only [stmt, hb, Prod.mk.injEq, map_eq_ok]
  constructor
  · rintro ⟨⟨ss, rfl, rfl⟩, rfl⟩
    exact ⟨ss, ⟨rfl, rfl⟩, rfl⟩
  · rintro ⟨ss, ⟨rfl, rfl⟩, rfl⟩
    exact ⟨⟨ss, rfl, rfl⟩, rfl⟩

theorem expectBool_eq_ok {condition : Typed.Expr} {u : Unit} :
    expectBool condition = .ok u ↔ condition.type = .bool := by
  unfold expectBool
  by_cases h : condition.type = .bool <;> simp [h]

/-- A block behind a condition, whatever is made of the two. -/
theorem guarded_iff {e : Typed.Expr} {body : List Stmt} (make : List Typed.Stmt → Typed.Stmt) :
    (((expectBool e).both (c.inScope (stmts body)).1).map fun p => make p.2,
        (c.inScope (stmts body)).2) = (.ok typed, c') ↔
      e.type = .bool ∧ ∃ ss, c.inScope (stmts body) = (.ok ss, c') ∧ typed = make ss := by
  rcases hb : c.inScope (stmts body) with ⟨r, outside⟩
  simp only [Prod.mk.injEq, map_eq_ok, Checked.both_eq_ok, expectBool_eq_ok]
  constructor
  · rintro ⟨⟨p, ⟨ht, rfl⟩, rfl⟩, rfl⟩
    exact ⟨ht, p.2, ⟨rfl, rfl⟩, rfl⟩
  · rintro ⟨ht, ss, ⟨rfl, rfl⟩, rfl⟩
    exact ⟨⟨((), ss), ⟨ht, rfl⟩, rfl⟩, rfl⟩

theorem stmt_while_iff {condition : Expr} {body : List Stmt} {bodySpan : Span} :
    stmt (.while_ condition body bodySpan span) c = (.ok typed, c') ↔
      ∃ e, c.expr condition = .ok e ∧ e.type = .bool ∧ ∃ ss, c.inScope (stmts body) = (.ok ss, c') ∧
        typed = .while_ e ss bodySpan span := by
  unfold stmt
  cases hc : c.expr condition with
  | error e => simp
  | ok e =>
    simp only [Except.ok.injEq, exists_eq_left']
    exact guarded_iff fun ss => .while_ e ss bodySpan span

theorem stmt_ifThen_iff {condition : Expr} {yes : List Stmt} {yesSpan : Span} :
    stmt (.ifThen condition yes yesSpan span) c = (.ok typed, c') ↔
      ∃ e, c.expr condition = .ok e ∧ e.type = .bool ∧ ∃ ss, c.inScope (stmts yes) = (.ok ss, c') ∧
        typed = .ifThen e ss yesSpan span := by
  unfold stmt
  cases hc : c.expr condition with
  | error e => simp
  | ok e =>
    simp only [Except.ok.injEq, exists_eq_left']
    exact guarded_iff fun ss => .ifThen e ss yesSpan span

theorem stmt_ifElse_iff {condition : Expr} {yes no : List Stmt} {yesSpan noSpan : Span} :
    stmt (.ifElse condition yes yesSpan no noSpan span) c = (.ok typed, c') ↔
      ∃ e ys between ns, c.expr condition = .ok e ∧ e.type = .bool ∧
        c.inScope (stmts yes) = (.ok ys, between) ∧ between.inScope (stmts no) = (.ok ns, c') ∧
        typed = .ifElse e ys yesSpan ns noSpan span := by
  rcases hy : c.inScope (stmts yes) with ⟨r, between⟩
  rcases hn : between.inScope (stmts no) with ⟨r', outside⟩
  cases hc : c.expr condition with
  | error e => simp [stmt, hc]
  | ok e =>
    simp only [stmt, hc, hy, hn, Prod.mk.injEq, map_eq_ok, Checked.both_eq_ok, expectBool_eq_ok]
    constructor
    · rintro ⟨⟨p, ⟨ht, rfl, rfl⟩, rfl⟩, rfl⟩
      exact ⟨e, p.2.1, between, p.2.2, rfl, ht, ⟨rfl, rfl⟩, hn, rfl⟩
    · rintro ⟨_, ys, _, ns, he, ht, ⟨rfl, rfl⟩, hno, rfl⟩
      obtain rfl := Except.ok.inj he
      obtain ⟨rfl, rfl⟩ := Prod.mk.inj (hn.symm.trans hno)
      exact ⟨⟨((), ys, ns), ⟨ht, rfl, rfl⟩, rfl⟩, rfl⟩

theorem stmt_imported_iff {name : Ident} {params : Option ParamList} {result : TypeRef} :
    stmt (.imported name params result span) c = (.ok typed, c') ↔
      ∃ registered ps, c.register (signature name params result true) name.span = .ok registered ∧
        registered.inScope (Checker.params (ParamList.toList params)) = (.ok ps, c') ∧
        typed = .imported name.name ps result.type span := by
  simp only [stmt, imported]
  cases hr : c.register (signature name params result true) name.span with
  | error e => simp
  | ok registered =>
    rcases hp : registered.inScope (Checker.params (ParamList.toList params)) with ⟨r, outside⟩
    simp only [hp, Prod.mk.injEq, map_eq_ok]
    constructor
    · rintro ⟨⟨ps, rfl, rfl⟩, rfl⟩
      exact ⟨registered, ps, rfl, hp, rfl⟩
    · rintro ⟨_, ps, he, hps, rfl⟩
      obtain rfl := Except.ok.inj he
      obtain ⟨rfl, rfl⟩ := Prod.mk.inj (hp.symm.trans hps)
      exact ⟨⟨ps, rfl, rfl⟩, rfl⟩

/-- A function's scope is left last, with no function open any more. -/
theorem stmt_function_iff {name : Ident} {params : Option ParamList} {result : TypeRef} {body : List Stmt}
    {bodySpan : Span} :
    stmt (.function name params result body bodySpan span) c = (.ok typed, c') ↔
      ∃ opened ps bound ss outside env,
        c.openFunction name (signature name params result false) = .ok opened ∧
        Checker.params (ParamList.toList params) opened = (.ok ps, bound) ∧
        bound.inScope (stmts body) = (.ok ss, outside) ∧ outside.env.leave = some env ∧
        typed = .function name.name ps result.type ss bodySpan span ∧
        c' = { outside with env, current := none } := by
  unfold stmt
  cases ho : c.openFunction name (signature name params result false) with
  | error e => simp
  | ok opened =>
    rcases hp : Checker.params (ParamList.toList params) opened with ⟨_ | ps, bound⟩
    · simp [hp, leave_eq_ok]
    · rcases hb : bound.inScope (stmts body) with ⟨r, outside⟩
      simp only [hp, hb, leave_eq_ok, map_eq_ok]
      constructor
      · rintro ⟨⟨ss, rfl, rfl⟩, env, hl, rfl⟩
        exact ⟨opened, ps, bound, ss, outside, env, rfl, hp, hb, hl, rfl, rfl⟩
      · rintro ⟨_, _, _, ss, _, env, hopen, hparams, hbody, hl, rfl, rfl⟩
        obtain rfl := Except.ok.inj hopen
        cases hp.symm.trans hparams
        cases hb.symm.trans hbody
        exact ⟨⟨ss, rfl, rfl⟩, env, hl, rfl⟩

theorem stmts_cons_ok {s : Stmt} {ss : List Stmt} {typed : List Typed.Stmt} :
    stmts (s :: ss) c = (.ok typed, c') ↔
      ∃ t inner ts, stmt s c = (.ok t, inner) ∧ stmts ss inner = (.ok ts, c') ∧ typed = t :: ts := by
  rcases hs : stmt s c with ⟨r, inner⟩
  rcases hss : stmts ss inner with ⟨r', outside⟩
  simp only [stmts, hs, hss, Prod.mk.injEq, map_eq_ok, Checked.both_eq_ok]
  constructor
  · rintro ⟨⟨p, ⟨rfl, rfl⟩, rfl⟩, rfl⟩
    exact ⟨p.1, inner, p.2, ⟨rfl, rfl⟩, hss, rfl⟩
  · rintro ⟨t, _, ts, ⟨rfl, rfl⟩, hts, rfl⟩
    obtain ⟨rfl, rfl⟩ := Prod.mk.inj (hss.symm.trans hts)
    exact ⟨⟨(t, ts), ⟨rfl, rfl⟩, rfl⟩, rfl⟩

end Statements

end Checker

theorem Program.check_eq_ok {p : Program} {typed : Typed.Program} :
    p.check = .ok typed ↔ ∃ body c, Checker.stmts p.body {} = (.ok body, c) ∧
      typed = ⟨body, c.env.symbols, c.functions, p.span⟩ := by
  rcases hs : Checker.stmts p.body {} with ⟨r, c⟩
  simp only [check, hs, map_eq_ok, Prod.mk.injEq]
  constructor
  · rintro ⟨body, rfl, rfl⟩
    exact ⟨body, c, ⟨rfl, rfl⟩, rfl⟩
  · rintro ⟨body, _, ⟨rfl, rfl⟩, rfl⟩
    exact ⟨body, rfl, rfl⟩

end ImpWasm
