import ImpWasm.Proofs.Lang.WellFormed
import ImpWasm.Proofs.Typing.Soundness
set_option autoImplicit false

namespace ImpWasm

section Annotate

mutual

/-- The statement with the types that the check has found, at all declarations of variables that have none. -/
def Stmt.annotate : Stmt → Typed.Stmt → Stmt
  | .var name type init span, .var _ found _ _ => .var name (some (type.getD ⟨found, {}⟩)) init span
  | .block body bodySpan span, .block typed _ _ => .block (Stmt.annotateAll body typed) bodySpan span
  | .function name params result body bodySpan span, .function _ _ _ typed _ _ =>
    .function name params result (Stmt.annotateAll body typed) bodySpan span
  | .while_ condition body bodySpan span, .while_ _ typed _ _ =>
    .while_ condition (Stmt.annotateAll body typed) bodySpan span
  | .ifThen condition yes yesSpan span, .ifThen _ typed _ _ =>
    .ifThen condition (Stmt.annotateAll yes typed) yesSpan span
  | .ifElse condition yes yesSpan no noSpan span, .ifElse _ typed _ typed' _ _ =>
    .ifElse condition (Stmt.annotateAll yes typed) yesSpan (Stmt.annotateAll no typed') noSpan span
  | s, _ => s

def Stmt.annotateAll : List Stmt → List Typed.Stmt → List Stmt
  | s :: ss, t :: ts => s.annotate t :: Stmt.annotateAll ss ts
  | ss, _ => ss

end

def Program.annotate (p : Program) (typed : Typed.Program) : Program :=
  ⟨Stmt.annotateAll p.body typed.body, p.span⟩

mutual

theorem Stmt.WellFormed.annotate : {s : Stmt} → s.WellFormed → (typed : Typed.Stmt) →
    (s.annotate typed).WellFormed
  | .var .., h, typed => by
    cases typed with
    | var => exact ⟨h.1, .inl rfl, h.2.2⟩
    | _ => exact h
  | .block .., h, typed => by
    cases typed with
    | block typed => exact Stmt.allWellFormed_annotateAll h typed
    | _ => exact h
  | .function .., h, typed => by
    cases typed with
    | function _ _ _ typed => exact ⟨h.1, h.2.1, Stmt.allWellFormed_annotateAll h.2.2 typed⟩
    | _ => exact h
  | .while_ .., h, typed => by
    cases typed with
    | while_ _ typed => exact ⟨h.1, Stmt.allWellFormed_annotateAll h.2 typed⟩
    | _ => exact h
  | .ifThen .., h, typed => by
    cases typed with
    | ifThen _ typed => exact ⟨h.1, Stmt.allWellFormed_annotateAll h.2 typed⟩
    | _ => exact h
  | .ifElse .., h, typed => by
    cases typed with
    | ifElse _ typed _ typed' =>
      exact ⟨h.1, Stmt.allWellFormed_annotateAll h.2.1 typed, Stmt.allWellFormed_annotateAll h.2.2 typed'⟩
    | _ => exact h
  | .expr .., h, _ | .assign .., h, _ | .imported .., h, _ | .return_ .., h, _ => h

theorem Stmt.allWellFormed_annotateAll : {ss : List Stmt} → Stmt.AllWellFormed ss → (typed : List Typed.Stmt) →
    Stmt.AllWellFormed (Stmt.annotateAll ss typed)
  | [], h, _ => h
  | _ :: _, h, [] => h
  | _ :: _, h, t :: ts => ⟨h.1.annotate t, Stmt.allWellFormed_annotateAll h.2 ts⟩

end

end Annotate

namespace Checker

variable {c c' : Checker}

section Text

mutual

theorem expr_chars : {e : Expr} → {typed : Typed.Expr} → c.expr e = .ok typed →
    typed.chars = e.chars ∧ typed.isBinary = e.isBinary
  | .ident .., typed, h => by
    obtain ⟨s, _, rfl⟩ := expr_ident_ok.1 h
    exact ⟨rfl, rfl⟩
  | .int .., typed, h | .string .., typed, h | .bool .., typed, h => by
    cases h
    exact ⟨rfl, rfl⟩
  | .binary .., typed, h => by
    obtain ⟨a, b, ha, hb, _, rfl⟩ := expr_binary_ok.1 h
    obtain ⟨hleft, hleft'⟩ := expr_chars ha
    obtain ⟨hright, hright'⟩ := expr_chars hb
    exact ⟨by simp only [Typed.Expr.chars, Expr.chars, hleft, hleft', hright, hright'], rfl⟩
  | .call .., typed, h => by
    obtain ⟨as, s, has, _, _, rfl⟩ := expr_call_ok.1 h
    exact ⟨by simp only [Typed.Expr.chars, Expr.chars, exprs_chars has], rfl⟩

theorem exprs_chars : {es : List Expr} → {typed : List Typed.Expr} → c.exprs es = .ok typed →
    Typed.Expr.charsAll typed = Expr.charsAll es
  | [], typed, h => by
    cases h
    rfl
  | e :: es, typed, h => by
    obtain ⟨a, as, ha, has, rfl⟩ := exprs_cons_ok.1 h
    simp only [Typed.Expr.charsAll, Expr.charsAll, expr_chars ha, exprs_chars has]

end

theorem optExpr_chars {init : Option Expr} {typed : Option Typed.Expr} (h : c.optExpr init = .ok typed) :
    typed.map Typed.Expr.chars = init.map Expr.chars := by
  cases init with
  | none =>
    cases h
    rfl
  | some e =>
    obtain ⟨v, hv, rfl⟩ := map_eq_ok.1 h
    exact congrArg some (expr_chars hv).1

theorem params_chars {ps : List Param} {typed : List Typed.Param} (h : params ps c = (.ok typed, c')) :
    typed.map Typed.Param.chars = ps.map Param.chars := by
  induction ps generalizing c typed with
  | nil =>
    cases h
    rfl
  | cons p ps ih =>
    obtain ⟨env, new, rest, _, hrest, rfl⟩ := params_cons_ok.1 h
    rw [List.map_cons, List.map_cons, ih hrest]
    rfl

end Text

mutual

theorem stmt_annotate : {s : Stmt} → {typed : Typed.Stmt} → {c c' : Checker} → c.env.WellFormed →
    stmt s c = (.ok typed, c') →
    stmt (s.annotate typed) c = (.ok typed, c') ∧ typed.lines = (s.annotate typed).lines
  | .expr value span, typed, c, c', hw, h => by
    obtain ⟨v, hv, rfl, rfl⟩ := stmt_expr_ok.1 h
    exact ⟨h, by simp only [Typed.Stmt.lines, Stmt.annotate, Stmt.lines, expr_chars hv]⟩
  | .var name type init span, typed, c, c', hw, h => by
    obtain ⟨i, t, env, new, hi, ht, hd, rfl, rfl⟩ := stmt_var_ok.1 h
    obtain ⟨-, hdeclared, hinit⟩ := varType_eq_ok.1 ht
    have hfull : (type.getD ⟨t, {}⟩).type = t := by
      cases type with
      | none => rfl
      | some d => exact hdeclared d rfl
    refine ⟨stmt_var_ok.2 ⟨i, t, env, new, hi, varType_eq_ok.2 ⟨.inl rfl, ?_, hinit⟩, hd, rfl, rfl⟩, ?_⟩
    · rintro _ ⟨⟩
      exact hfull
    · simp only [Typed.Stmt.lines, Stmt.annotate, Stmt.lines, optExpr_chars hi, Option.map_some, hfull]
  | .assign target value span, typed, c, c', hw, h => by
    obtain ⟨s, v, _, hv, _, rfl, rfl⟩ := stmt_assign_ok.1 h
    exact ⟨h, by simp only [Typed.Stmt.lines, Stmt.annotate, Stmt.lines, expr_chars hv]⟩
  | .block body bodySpan span, typed, c, c', hw, h => by
    obtain ⟨ss, inner, hi, rfl, rfl⟩ := (stmt_block_ok hw).1 h
    obtain ⟨hcheck, hlines⟩ := stmts_annotate hw.enter hi
    exact ⟨(stmt_block_ok hw).2 ⟨ss, inner, hcheck, rfl, rfl⟩,
      by simp only [Typed.Stmt.lines, Stmt.annotate, Stmt.lines, hlines]⟩
  | .function name params result body bodySpan span, typed, c, c', hw, h => by
    obtain ⟨opened, ps, bound, ss, inner, ho, hp, hi, rfl, rfl⟩ := (stmt_function_ok hw).1 h
    have hwo := wellFormed_opened hw ho
    obtain ⟨hcheck, hlines⟩ := stmts_annotate (keeps_of_params hwo hp).wellFormed.enter hi
    exact ⟨(stmt_function_ok hw).2 ⟨opened, ps, bound, ss, inner, ho, hp, hcheck, rfl, rfl⟩,
      by simp only [Typed.Stmt.lines, Stmt.annotate, Stmt.lines, params_chars hp, hlines]⟩
  | .imported name params result span, typed, c, c', hw, h => by
    obtain ⟨registered, ps, inner, _, hp, rfl, rfl⟩ := (stmt_imported_ok hw).1 h
    exact ⟨h, by simp only [Typed.Stmt.lines, Stmt.annotate, Stmt.lines, params_chars hp]⟩
  | .return_ value span, typed, c, c', hw, h => by
    obtain ⟨f, v, _, hv, _, rfl, rfl⟩ := stmt_return_ok.1 h
    exact ⟨h, by simp only [Typed.Stmt.lines, Stmt.annotate, Stmt.lines, expr_chars hv]⟩
  | .while_ condition body bodySpan span, typed, c, c', hw, h => by
    obtain ⟨e, he, ht, ss, inner, hi, rfl, rfl⟩ := (stmt_while_ok hw).1 h
    obtain ⟨hcheck, hlines⟩ := stmts_annotate hw.enter hi
    exact ⟨(stmt_while_ok hw).2 ⟨e, he, ht, ss, inner, hcheck, rfl, rfl⟩,
      by simp only [Typed.Stmt.lines, Stmt.annotate, Stmt.lines, expr_chars he, hlines]⟩
  | .ifThen condition yes yesSpan span, typed, c, c', hw, h => by
    obtain ⟨e, he, ht, ss, inner, hi, rfl, rfl⟩ := (stmt_ifThen_ok hw).1 h
    obtain ⟨hcheck, hlines⟩ := stmts_annotate hw.enter hi
    exact ⟨(stmt_ifThen_ok hw).2 ⟨e, he, ht, ss, inner, hcheck, rfl, rfl⟩,
      by simp only [Typed.Stmt.lines, Stmt.annotate, Stmt.lines, expr_chars he, hlines]⟩
  | .ifElse condition yes yesSpan no noSpan span, typed, c, c', hw, h => by
    obtain ⟨e, ys, inner, ns, inner', he, ht, hi, hi', rfl, rfl⟩ := (stmt_ifElse_ok hw).1 h
    have hwb := ((keeps_of_stmts hw.enter hi).back hw).wellFormed
    obtain ⟨hcheck, hlines⟩ := stmts_annotate hw.enter hi
    obtain ⟨hcheck', hlines'⟩ := stmts_annotate hwb.enter hi'
    exact ⟨(stmt_ifElse_ok hw).2 ⟨e, ys, inner, ns, inner', he, ht, hcheck, hcheck', rfl, rfl⟩,
      by simp only [Typed.Stmt.lines, Stmt.annotate, Stmt.lines, expr_chars he, hlines, hlines']⟩

theorem stmts_annotate : {ss : List Stmt} → {typed : List Typed.Stmt} → {c c' : Checker} →
    c.env.WellFormed → stmts ss c = (.ok typed, c') →
    stmts (Stmt.annotateAll ss typed) c = (.ok typed, c') ∧
      Typed.Stmt.linesAll typed = Stmt.linesAll (Stmt.annotateAll ss typed)
  | [], typed, c, c', hw, h => by
    cases h
    exact ⟨rfl, rfl⟩
  | s :: ss, typed, c, c', hw, h => by
    obtain ⟨t, inner, ts, hs, hss, rfl⟩ := stmts_cons_ok.1 h
    obtain ⟨hhead, hfirst⟩ := stmt_annotate hw hs
    obtain ⟨htail, hrest⟩ := stmts_annotate (keeps_of_stmt hw hs).wellFormed hss
    exact ⟨stmts_cons_ok.2 ⟨t, inner, ts, hhead, htail, rfl⟩,
      by simp only [Typed.Stmt.linesAll, Stmt.annotateAll, Stmt.linesAll, hfirst, hrest]⟩

end

end Checker

/-- A program and its checked form, with every type spelled out: the same check, and the same text. -/
theorem Program.annotate_ok {p : Program} {typed : Typed.Program} (h : p.check = .ok typed) :
    (p.annotate typed).check = .ok typed ∧ typed.text = (p.annotate typed).text := by
  obtain ⟨body, c, hbody, rfl⟩ := check_eq_ok.1 h
  obtain ⟨hcheck, hlines⟩ := Checker.stmts_annotate Env.wellFormed_empty hbody
  exact ⟨check_eq_ok.2 ⟨body, c, hcheck, rfl⟩,
    by rw [Typed.Program.text, hlines, Program.text, Program.chars, Program.annotate]⟩

end ImpWasm
