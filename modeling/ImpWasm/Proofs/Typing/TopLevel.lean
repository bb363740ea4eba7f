import ImpWasm.Proofs.Typing.Annotation
set_option autoImplicit false

namespace ImpWasm

namespace Typed

mutual

def Stmt.Flat : Stmt → Prop
  | .function .. => False
  | .block body _ _ | .while_ _ body _ _ | .ifThen _ body _ _ => Stmt.AllFlat body
  | .ifElse _ yes _ no _ _ => Stmt.AllFlat yes ∧ Stmt.AllFlat no
  | .expr .. | .var .. | .assign .. | .imported .. | .return_ .. => True

def Stmt.AllFlat : List Stmt → Prop
  | [] => True
  | s :: ss => s.Flat ∧ Stmt.AllFlat ss

end

/-- No function is declared in the statement, unless it is one itself. -/
def Stmt.FlatInside : Stmt → Prop
  | .function _ _ _ body _ _ => Stmt.AllFlat body
  | s => s.Flat

theorem Stmt.FlatInside.flat {s : Stmt} (h : s.FlatInside) (hs : s.isFunction = false) : s.Flat := by
  cases s with
  | function => cases hs
  | _ => exact h

theorem Stmt.allFlat_append {xs ys : List Stmt} :
    Stmt.AllFlat (xs ++ ys) ↔ Stmt.AllFlat xs ∧ Stmt.AllFlat ys := by
  induction xs with
  | nil => simp [Stmt.AllFlat]
  | cons x xs ih => simp [Stmt.AllFlat, ih, and_assoc]

end Typed

namespace Checker

mutual

theorem stmt_flatInside : {s : Stmt} → {typed : Typed.Stmt} → {c c' : Checker} → c.env.WellFormed →
    stmt s c = (.ok typed, c') → typed.FlatInside
  | .expr .., typed, c, c', _, h => by
    obtain ⟨v, _, rfl, rfl⟩ := stmt_expr_ok.1 h
    trivial
  | .var .., typed, c, c', _, h => by
    obtain ⟨i, t, env, new, _, _, _, rfl, rfl⟩ := stmt_var_ok.1 h
    trivial
  | .assign .., typed, c, c', _, h => by
    obtain ⟨s, v, _, _, _, rfl, rfl⟩ := stmt_assign_ok.1 h
    trivial
  | .block .., typed, c, c', hw, h => by
    obtain ⟨ss, inner, hi, rfl, rfl⟩ := (stmt_block_ok hw).1 h
    exact stmts_flat hw.enter (.enter c) hi
  | .function .., typed, c, c', hw, h => by
    obtain ⟨opened, ps, bound, ss, inner, ho, hp, hi, rfl, rfl⟩ := (stmt_function_ok hw).1 h
    exact stmts_flat (keeps_of_params (wellFormed_opened hw ho) hp).wellFormed.enter (.enter bound) hi
  | .imported .., typed, c, c', hw, h => by
    obtain ⟨registered, ps, inner, _, _, rfl, rfl⟩ := (stmt_imported_ok hw).1 h
    trivial
  | .return_ .., typed, c, c', _, h => by
    obtain ⟨f, v, _, _, _, rfl, rfl⟩ := stmt_return_ok.1 h
    trivial
  | .while_ .., typed, c, c', hw, h => by
    obtain ⟨e, _, _, ss, inner, hi, rfl, rfl⟩ := (stmt_while_ok hw).1 h
    exact stmts_flat hw.enter (.enter c) hi
  | .ifThen .., typed, c, c', hw, h => by
    obtain ⟨e, _, _, ss, inner, hi, rfl, rfl⟩ := (stmt_ifThen_ok hw).1 h
    exact stmts_flat hw.enter (.enter c) hi
  | .ifElse .., typed, c, c', hw, h => by
    obtain ⟨e, ys, inner, ns, inner', _, _, hi, hi', rfl, rfl⟩ := (stmt_ifElse_ok hw).1 h
    have hwb := ((keeps_of_stmts hw.enter hi).back hw).wellFormed
    exact ⟨stmts_flat hw.enter (.enter c) hi, stmts_flat hwb.enter (.enter _) hi'⟩

theorem stmts_flat : {ss : List Stmt} → {typed : List Typed.Stmt} → {c c' : Checker} →
    c.env.WellFormed → c.Nested → stmts ss c = (.ok typed, c') → Typed.Stmt.AllFlat typed
  | [], typed, c, c', _, _, h => by
    cases h
    trivial
  | s :: ss, typed, c, c', hw, hn, h => by
    obtain ⟨t, inner, ts, hs, hss, rfl⟩ := stmts_cons_ok.1 h
    have hstep := stmt_step hs
    refine ⟨(stmt_flatInside hw hs).flat (hstep.noFunction hn), ?_⟩
    exact stmts_flat (keeps_of_stmt hw hs).wellFormed (hn.later hstep.env hstep.current hw.current) hss

end

end Checker

theorem Checker.stmts_flatInside {ss : List Stmt} {typed : List Typed.Stmt} {c c' : Checker}
    (hw : c.env.WellFormed) (h : stmts ss c = (.ok typed, c')) : ∀ s ∈ typed, s.FlatInside := by
  induction ss generalizing typed c with
  | nil =>
    cases h
    simp
  | cons s ss ih =>
    obtain ⟨t, inner, ts, hs, hss, rfl⟩ := stmts_cons_ok.1 h
    exact List.forall_mem_cons.2 ⟨stmt_flatInside hw hs, ih (keeps_of_stmt hw hs).wellFormed hss⟩

theorem Program.check_flatInside {p : Program} {typed : Typed.Program} (h : p.check = .ok typed) :
    ∀ s ∈ typed.body, s.FlatInside := by
  obtain ⟨body, c, hs, rfl⟩ := check_eq_ok.1 h
  exact Checker.stmts_flatInside Env.wellFormed_empty hs

end ImpWasm
