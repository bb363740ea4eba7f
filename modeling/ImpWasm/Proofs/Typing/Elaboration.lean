import ImpWasm.Proofs.Typing.Balance
set_option autoImplicit false

namespace ImpWasm.Checker

variable {c c' : Checker}

section Scopes

/-- A check that keeps to its scope succeeds in a scope of its own if it does so there. -/
theorem inScope_eq_ok {α : Type} {check : Checker → Checked α × Checker} {a : α}
    (h : ∀ {c : Checker}, c.env.WellFormed → c.Keeps Env.After (check c).2 ∧ (check c).1.Clean)
    (hw : c.env.WellFormed) :
    c.inScope check = (.ok a, c') ↔ ∃ inner, check c.enter = (.ok a, inner) ∧ c' = c.back inner := by
  rw [inScope_eq (h (c := c.enter) hw.enter).1]
  constructor
  · intro h
    exact ⟨(check c.enter).2, Prod.ext (Prod.mk.inj h).1 rfl, (Prod.mk.inj h).2.symm⟩
  · rintro ⟨inner, hi, rfl⟩
    rw [hi]

theorem block_eq_ok {body : List Stmt} {typed : List Typed.Stmt} (hw : c.env.WellFormed) :
    c.inScope (stmts body) = (.ok typed, c') ↔
      ∃ inner, stmts body c.enter = (.ok typed, inner) ∧ c' = c.back inner :=
  inScope_eq_ok (stmts_keeps body) hw

theorem keeps_of_stmts {ss : List Stmt} {r : Checked (List Typed.Stmt)} (hw : c.env.WellFormed)
    (h : stmts ss c = (r, c')) : c.Keeps Env.After c' := by
  have hk := (stmts_keeps ss hw).1
  rwa [h] at hk

theorem keeps_of_params {ps : List Param} {r : Checked (List Typed.Param)} (hw : c.env.WellFormed)
    (h : params ps c = (r, c')) : c.Keeps Env.After c' := by
  have hk := (params_keeps ps hw).1
  rwa [h] at hk

end Scopes

section Statements

variable {typed : Typed.Stmt} {span : Span}

theorem stmt_block_ok {body : List Stmt} {bodySpan : Span} (hw : c.env.WellFormed) :
    stmt (.block body bodySpan span) c = (.ok typed, c') ↔
      ∃ ss inner, stmts body c.enter = (.ok ss, inner) ∧ typed = .block ss bodySpan span ∧
        c' = c.back inner := by
  simp only [stmt_block_iff, block_eq_ok hw]
  constructor
  · rintro ⟨ss, ⟨inner, hi, rfl⟩, rfl⟩
    exact ⟨ss, inner, hi, rfl, rfl⟩
  · rintro ⟨ss, inner, hi, rfl, rfl⟩
    exact ⟨ss, ⟨inner, hi, rfl⟩, rfl⟩

theorem stmt_while_ok {condition : Expr} {body : List Stmt} {bodySpan : Span} (hw : c.env.WellFormed) :
    stmt (.while_ condition body bodySpan span) c = (.ok typed, c') ↔
      ∃ e, c.expr condition = .ok e ∧ e.type = .bool ∧ ∃ ss inner, stmts body c.enter = (.ok ss, inner) ∧
        typed = .while_ e ss bodySpan span ∧ c' = c.back inner := by
  simp only [stmt_while_iff, block_eq_ok hw]
  constructor
  · rintro ⟨e, he, ht, ss, ⟨inner, hi, rfl⟩, rfl⟩
    exact ⟨e, he, ht, ss, inner, hi, rfl, rfl⟩
  · rintro ⟨e, he, ht, ss, inner, hi, rfl, rfl⟩
    exact ⟨e, he, ht, ss, ⟨inner, hi, rfl⟩, rfl⟩

theorem stmt_ifThen_ok {condition : Expr} {yes : List Stmt} {yesSpan : Span} (hw : c.env.WellFormed) :
    stmt (.ifThen condition yes yesSpan span) c = (.ok typed, c') ↔
      ∃ e, c.expr condition = .ok e ∧ e.type = .bool ∧ ∃ ss inner, stmts yes c.enter = (.ok ss, inner) ∧
        typed = .ifThen e ss yesSpan span ∧ c' = c.back inner := by
  simp only [stmt_ifThen_iff, block_eq_ok hw]
  constructor
  · rintro ⟨e, he, ht, ss, ⟨inner, hi, rfl⟩, rfl⟩
    exact ⟨e, he, ht, ss, inner, hi, rfl, rfl⟩
  · rintro ⟨e, he, ht, ss, inner, hi, rfl, rfl⟩
    exact ⟨e, he, ht, ss, ⟨inner, hi, rfl⟩, rfl⟩

theorem stmt_ifElse_ok {condition : Expr} {yes no : List Stmt} {yesSpan noSpan : Span}
    (hw : c.env.WellFormed) :
    stmt (.ifElse condition yes yesSpan no noSpan span) c = (.ok typed, c') ↔
      ∃ e ys inner ns inner', c.expr condition = .ok e ∧ e.type = .bool ∧
        stmts yes c.enter = (.ok ys, inner) ∧ stmts no (c.back inner).enter = (.ok ns, inner') ∧
        typed = .ifElse e ys yesSpan ns noSpan span ∧ c' = (c.back inner).back inner' := by
  have between : ∀ {ys inner}, stmts yes c.enter = (.ok ys, inner) → (c.back inner).env.WellFormed := by
    intro ys inner hi
    exact ((keeps_of_stmts (c := c.enter) hw.enter hi).back hw).wellFormed
  simp only [stmt_ifElse_iff, block_eq_ok hw]
  constructor
  · rintro ⟨e, ys, _, ns, he, ht, ⟨inner, hi, rfl⟩, hn, rfl⟩
    obtain ⟨inner', hi', rfl⟩ := (block_eq_ok (between hi)).1 hn
    exact ⟨e, ys, inner, ns, inner', he, ht, hi, hi', rfl, rfl⟩
  · rintro ⟨e, ys, inner, ns, inner', he, ht, hi, hi', rfl, rfl⟩
    exact ⟨e, ys, _, ns, he, ht, ⟨inner, hi, rfl⟩, (block_eq_ok (between hi)).2 ⟨inner', hi', rfl⟩, rfl⟩

theorem stmt_imported_ok {name : Ident} {params : Option ParamList} {result : TypeRef}
    (hw : c.env.WellFormed) :
    stmt (.imported name params result span) c = (.ok typed, c') ↔
      ∃ registered ps inner, c.register (signature name params result true) name.span = .ok registered ∧
        Checker.params (ParamList.toList params) registered.enter = (.ok ps, inner) ∧
        typed = .imported name.name ps result.type span ∧ c' = registered.back inner := by
  have inScope : ∀ {registered : Checker} {ps : List Typed.Param} {c' : Checker},
      c.register (signature name params result true) name.span = .ok registered →
      (registered.inScope (Checker.params (ParamList.toList params)) = (.ok ps, c') ↔
        ∃ inner, Checker.params (ParamList.toList params) registered.enter = (.ok ps, inner) ∧
          c' = registered.back inner) := fun hr =>
    inScope_eq_ok (params_keeps (ParamList.toList params)) (register_keeps hw hr).wellFormed
  rw [stmt_imported_iff]
  constructor
  · rintro ⟨registered, ps, hr, hp, rfl⟩
    obtain ⟨inner, hi, rfl⟩ := (inScope hr).1 hp
    exact ⟨registered, ps, inner, hr, hi, rfl, rfl⟩
  · rintro ⟨registered, ps, inner, hr, hi, rfl, rfl⟩
    exact ⟨registered, ps, hr, (inScope hr).2 ⟨inner, hi, rfl⟩, rfl⟩

theorem openFunction_eq_ok {name : Ident} {s : Signature} {opened : Checker} (hw : c.env.WellFormed) :
    c.openFunction name s = .ok opened ↔
      c.current = none ∧ c.env.outer = [] ∧ ∃ registered, c.register s name.span = .ok registered ∧
        opened = { registered.enter with current := some s } := by
  have hnest : (c.current.isSome || decide (0 < c.env.depth)) = false ↔
      c.current = none ∧ c.env.outer = [] := by
    simp [hw.depth_eq]
  unfold openFunction
  cases hn : c.current.isSome || decide (0 < c.env.depth) with
  | true =>
    have hno : ¬ (c.current = none ∧ c.env.outer = []) := fun h => by simp [hnest.2 h] at hn
    refine iff_of_false throw_ne_ok fun h => hno ⟨h.1, h.2.1⟩
  | false =>
    obtain ⟨hcur, hout⟩ := hnest.1 hn
    simp only [hcur, hout, true_and, Bool.false_eq_true, if_false]
    constructor
    · intro h
      obtain ⟨registered, hr, h⟩ := bind_eq_ok.1 h
      exact ⟨registered, hr, (pure_eq_ok.1 h).symm⟩
    · rintro ⟨registered, hr, rfl⟩
      exact bind_eq_ok.2 ⟨registered, hr, rfl⟩

theorem leave_body {opened bound inner : Checker} {name : Ident} {s : Signature} {ps : List Param}
    {params : List Typed.Param} {body : List Stmt} {ss : List Typed.Stmt} (hw : c.env.WellFormed)
    (ho : c.openFunction name s = .ok opened) (hp : Checker.params ps opened = (.ok params, bound))
    (hi : stmts body bound.enter = (.ok ss, inner)) :
    ({ bound.back inner with current := none } : Checker).leave (.ok ()) =
        (.ok (), c.back (bound.back inner)) ∧ c.Keeps Env.Quiet (c.back (bound.back inner)) := by
  have hbound := keeps_of_params (wellFormed_opened hw ho) hp
  have hinner := keeps_of_stmts (c := bound.enter) hbound.wellFormed.enter hi
  have hbody := (hinner.back hbound.wellFormed).after hbound.wellFormed
  exact leave_function hw ho (hbound.trans hbody) (.ok ())

/-- A function's parameters are checked in a scope of their own, and its body in one inside it. -/
theorem stmt_function_ok {name : Ident} {params : Option ParamList} {result : TypeRef} {body : List Stmt}
    {bodySpan : Span} (hw : c.env.WellFormed) :
    stmt (.function name params result body bodySpan span) c = (.ok typed, c') ↔
      ∃ opened ps bound ss inner, c.openFunction name (signature name params result false) = .ok opened ∧
        Checker.params (ParamList.toList params) opened = (.ok ps, bound) ∧
        stmts body bound.enter = (.ok ss, inner) ∧
        typed = .function name.name ps result.type ss bodySpan span ∧ c' = c.back (bound.back inner) := by
  rw [stmt_function_iff]
  constructor
  · rintro ⟨opened, ps, bound, ss, _, env, ho, hp, hb, hl, rfl, rfl⟩
    obtain ⟨inner, hi, rfl⟩ := (block_eq_ok (keeps_of_params (wellFormed_opened hw ho) hp).wellFormed).1 hb
    obtain ⟨-, env', hl', hback⟩ := leave_eq_ok.1 (leave_body hw ho hp hi).1
    obtain rfl := Option.some.inj (hl.symm.trans hl')
    exact ⟨opened, ps, bound, ss, inner, ho, hp, hi, rfl, hback.symm⟩
  · rintro ⟨opened, ps, bound, ss, inner, ho, hp, hi, rfl, rfl⟩
    have hb := (block_eq_ok (keeps_of_params (wellFormed_opened hw ho) hp).wellFormed).2 ⟨inner, hi, rfl⟩
    obtain ⟨-, env, hl, hback⟩ := leave_eq_ok.1 (leave_body hw ho hp hi).1
    exact ⟨opened, ps, bound, ss, _, env, ho, hp, hb, hl, rfl, hback⟩

theorem keeps_of_stmt {s : Stmt} {typed : Typed.Stmt} (hw : c.env.WellFormed)
    (h : stmt s c = (.ok typed, c')) : c.Keeps Env.After c' := by
  have hone : stmts [s] c = (.ok [typed], c') := stmts_cons_ok.2 ⟨typed, c', [], h, rfl, rfl⟩
  exact keeps_of_stmts hw hone

end Statements

end ImpWasm.Checker
