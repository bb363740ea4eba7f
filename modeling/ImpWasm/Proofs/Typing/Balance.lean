import ImpWasm.Proofs.Typing.Accepted
import ImpWasm.Proofs.Typing.Scopes
set_option autoImplicit false

namespace ImpWasm

namespace Checked

variable {α β : Type}

def Clean (x : Checked α) : Prop := TypeError.scopeUnderflow ∉ x.errors

theorem clean_ok (a : α) : Clean (.ok a : Checked α) := by simp [Clean, errors]

theorem clean_error {e : TypeError} (h : e ≠ .scopeUnderflow) : Clean (.error [e] : Checked α) := by
  simpa [Clean, errors] using h.symm

theorem Clean.bind {x : Checked α} {f : α → Checked β} (hx : x.Clean) (hf : ∀ a, x = .ok a → (f a).Clean) :
    Clean (x >>= f) := by
  cases x with
  | error e => exact hx
  | ok a => exact hf a rfl

theorem Clean.map {x : Checked α} (hx : x.Clean) (f : α → β) : Clean (x.map f) := by
  cases x with
  | error e => exact hx
  | ok a => exact clean_ok _

theorem Clean.both {x : Checked α} {y : Checked β} (hx : x.Clean) (hy : y.Clean) : (x.both y).Clean := by
  cases x with
  | error e =>
    cases y with
    | error f => exact fun h => (List.mem_append.1 h).elim hx hy
    | ok b => exact hx
  | ok a =>
    cases y with
    | error f => exact hy
    | ok b => exact clean_ok _

end Checked

namespace Checker

open Checked

variable {c c' c'' : Checker}

section Expressions

theorem clean_resolve (c : Checker) (name : String) (span : Span) : (c.resolve name span).Clean := by
  unfold resolve
  split
  · exact clean_ok _
  · exact clean_error (by simp)

theorem scopeUnderflow_not_mem_argumentErrors (function : String) (position : Nat) (types : List PrimType)
    (args : List Typed.Expr) : .scopeUnderflow ∉ argumentErrors function position types args := by
  induction types generalizing position args with
  | nil => simp [argumentErrors]
  | cons t ts ih =>
    cases args with
    | nil => simp [argumentErrors]
    | cons a args =>
      unfold argumentErrors
      split <;> simp [ih]

theorem clean_call (c : Checker) (callee : Ident) (args : List Typed.Expr) (span : Span) :
    (c.call callee args span).Clean := by
  cases hs : c.functions.get? callee.name with
  | none =>
    simp only [call, hs]
    exact clean_error (by simp)
  | some s =>
    simp only [call, hs]
    by_cases hl : s.arity = args.length
    · have hnone := scopeUnderflow_not_mem_argumentErrors callee.name 1 s.paramTypes args
      rw [if_neg fun hne => hne hl]
      cases he : argumentErrors callee.name 1 s.paramTypes args with
      | nil => exact clean_ok _
      | cons e es =>
        rw [he] at hnone
        exact hnone
    · rw [if_pos hl]
      exact clean_error (by simp)

mutual

theorem clean_expr (c : Checker) : (e : Expr) → (c.expr e).Clean
  | .ident name span => (c.clean_resolve name span).bind fun _ _ => clean_ok _
  | .int .. => clean_ok _
  | .string .. => clean_ok _
  | .bool .. => clean_ok _
  | .binary op left right span => by
    refine (clean_expr c left).bind fun a _ => (clean_expr c right).bind fun b _ => ?_
    split
    · exact clean_ok _
    · exact clean_error (by simp)
  | .call callee args span => (clean_exprs c args).bind fun as _ => c.clean_call callee as span

theorem clean_exprs (c : Checker) : (es : List Expr) → (c.exprs es).Clean
  | [] => clean_ok _
  | e :: es => (clean_expr c e).bind fun _ _ => (clean_exprs c es).bind fun _ _ => clean_ok _

end

theorem clean_optExpr (c : Checker) (e : Option Expr) : (c.optExpr e).Clean := by
  cases e with
  | none => exact clean_ok _
  | some e => exact (c.clean_expr e).map some

theorem clean_varType (name : Ident) (span : Span) (type : Option TypeRef) (init : Option Typed.Expr) :
    (varType name span type init).Clean := by
  unfold varType
  split
  · split
    · exact clean_ok _
    · exact clean_error (by simp)
  · exact clean_ok _
  · exact clean_ok _
  · exact clean_error (by simp)

theorem clean_declare (c : Checker) (name : Ident) (type : PrimType) : (c.declare name type).Clean := by
  unfold declare
  split
  · exact clean_ok _
  · exact clean_error (by simp)

theorem clean_var (c : Checker) (name : Ident) (type : Option TypeRef) (init : Option Expr) (span : Span) :
    (c.var name type init span).Clean :=
  (c.clean_optExpr init).bind fun typed _ => (clean_varType name span type typed).bind fun t _ =>
    (c.clean_declare name t).bind fun _ _ => clean_ok _

theorem clean_assign (c : Checker) (target : Ident) (value : Expr) (span : Span) :
    (c.assign target value span).Clean := by
  refine (c.clean_resolve _ _).bind fun _ _ => (c.clean_expr value).bind fun _ _ => ?_
  split
  · exact clean_ok _
  · exact clean_error (by simp)

theorem clean_return (c : Checker) (value : Expr) (span : Span) : (c.return_ value span).Clean := by
  refine (c.clean_expr value).bind fun v _ => ?_
  cases c.current with
  | none => exact clean_error (by simp)
  | some f =>
    by_cases ht : f.result = v.type
    · simp only [if_pos ht]
      exact clean_ok _
    · simp only [if_neg ht]
      exact clean_error (by simp)

theorem clean_expectBool (condition : Typed.Expr) : (expectBool condition).Clean := by
  unfold expectBool
  split
  · exact clean_ok _
  · exact clean_error (by simp)

end Expressions

/-- A later state of the checker in the same place. The relation says what may have happened to the
scopes. -/
structure Keeps (R : Env → Env → Prop) (c c' : Checker) : Prop where
  env : R c.env c'.env
  wellFormed : c'.env.WellFormed
  functions : c.functions.signatures <+: c'.functions.signatures
  distinct : c.functions.names.Nodup → c'.functions.names.Nodup
  current : c'.current = c.current

theorem Keeps.refl (h : c.env.WellFormed) : c.Keeps Env.Quiet c :=
  ⟨.refl _, h, List.prefix_rfl, id, rfl⟩

theorem Keeps.after (h : c.Keeps Env.Quiet c') (hw : c.env.WellFormed) : c.Keeps Env.After c' :=
  ⟨h.env.after hw.current, h.wellFormed, h.functions, h.distinct, h.current⟩

theorem Keeps.trans (h : c.Keeps Env.After c') (h' : c'.Keeps Env.After c'') : c.Keeps Env.After c'' :=
  ⟨h.env.trans h'.env, h'.wellFormed, h.functions.trans h'.functions, h'.distinct ∘ h.distinct,
    h'.current.trans h.current⟩

theorem Keeps.trans_quiet (h : c.Keeps Env.Quiet c') (h' : c'.Keeps Env.Quiet c'') :
    c.Keeps Env.Quiet c'' :=
  ⟨h.env.trans h'.env, h'.wellFormed, h.functions.trans h'.functions, h'.distinct ∘ h.distinct,
    h'.current.trans h.current⟩

def back (c inner : Checker) : Checker :=
  { env := { inner.env with current := c.env.current }, functions := inner.functions, current := c.current }

theorem Keeps.back {inner : Checker} (h : c.enter.Keeps Env.After inner) (hw : c.env.WellFormed) :
    c.Keeps Env.Quiet (c.back inner) :=
  ⟨h.env.quiet, h.env.wellFormed_leave hw h.wellFormed, h.functions, h.distinct, rfl⟩

/-- Leaving a scope that was entered succeeds, and leads back to where it was entered from. -/
theorem Keeps.leave_eq {α : Type} {inner : Checker} (h : c.enter.Keeps Env.After inner)
    (result : Checked α) : inner.leave result = (result, c.back inner) := by
  have hcur : inner.current = c.current := h.current
  unfold leave Checker.back
  rw [h.env.leave, ← hcur]

theorem inScope_eq {α : Type} {check : Checker → Checked α × Checker}
    (h : c.enter.Keeps Env.After (check c.enter).2) :
    c.inScope check = ((check c.enter).1, c.back (check c.enter).2) := h.leave_eq _

theorem inScope_keeps {α : Type} {check : Checker → Checked α × Checker}
    (h : ∀ {c : Checker}, c.env.WellFormed → c.Keeps Env.After (check c).2 ∧ (check c).1.Clean)
    (hw : c.env.WellFormed) : c.Keeps Env.Quiet (c.inScope check).2 ∧ (c.inScope check).1.Clean := by
  obtain ⟨hin, hclean⟩ := h (c := c.enter) hw.enter
  rw [inScope_eq hin]
  exact ⟨hin.back hw, hclean⟩

theorem declare_keeps {env : Env} {name : String} {type : PrimType} {span : Option Span} {new : Symbol}
    (hw : c.env.WellFormed) (h : c.env.declare name type span = .ok (env, new)) :
    c.Keeps Env.After { c with env } :=
  ⟨Env.after_of_declare h, hw.declare h, List.prefix_rfl, id, rfl⟩

theorem params_keeps (ps : List Param) (hw : c.env.WellFormed) :
    c.Keeps Env.After (params ps c).2 ∧ (params ps c).1.Clean := by
  induction ps generalizing c with
  | nil => exact ⟨(Keeps.refl hw).after hw, clean_ok _⟩
  | cons p ps ih =>
    have hd := c.clean_declare p.name p.type.type
    unfold params
    split
    · rename_i name inner hok
      obtain ⟨env, new, hd, rfl, rfl⟩ := declare_cases hok
      have hk := declare_keeps hw hd
      obtain ⟨hrest, hclean⟩ := ih hk.wellFormed
      exact ⟨hk.trans hrest, hclean.map _⟩
    · rename_i e he
      rw [he] at hd
      obtain ⟨hrest, hclean⟩ := ih hw
      exact ⟨hrest, fun h => (List.mem_append.1 h).elim hd hclean⟩

theorem register_keeps {s : Signature} {span : Span} (hw : c.env.WellFormed)
    (h : c.register s span = .ok c') : c.Keeps Env.Quiet c' := by
  obtain ⟨hr, henv, hcur⟩ := register_ok h
  refine ⟨?_, henv ▸ hw, ?_, hr.distinct, hcur⟩
  · rw [henv]
    exact .refl _
  · rw [hr.signatures]
    exact List.prefix_append _ _

theorem clean_register (c : Checker) (s : Signature) (span : Span) : (c.register s span).Clean := by
  unfold register
  split
  · exact clean_ok _
  · exact clean_error (by simp)

theorem imported_keeps (hw : c.env.WellFormed) (name : Ident) (params : Option ParamList)
    (result : TypeRef) (span : Span) :
    c.Keeps Env.Quiet (c.imported name params result span).2 ∧
      (c.imported name params result span).1.Clean := by
  have hr := c.clean_register (signature name params result true) name.span
  unfold imported
  split
  · rename_i e he
    rw [he] at hr
    exact ⟨.refl hw, hr⟩
  · rename_i registered hreg
    have hk := register_keeps hw hreg
    obtain ⟨hin, hclean⟩ := inScope_keeps (params_keeps (ParamList.toList params)) hk.wellFormed
    exact ⟨hk.trans_quiet hin, hclean.map _⟩

theorem clean_openFunction (c : Checker) (name : Ident) (s : Signature) : (c.openFunction name s).Clean := by
  unfold openFunction
  split
  · exact clean_error (by simp)
  · exact (c.clean_register s name.span).bind fun _ _ => clean_ok _

/-- A function is opened at the top level, from a state in which its signature is registered. -/
theorem openFunction_keeps {name : Ident} {s : Signature} (hw : c.env.WellFormed)
    (h : c.openFunction name s = .ok c') :
    c.current = none ∧
      ∃ registered, c.Keeps Env.Quiet registered ∧ c' = { registered.enter with current := some s } := by
  unfold openFunction at h
  split at h
  · cases h
  · rename_i hn
    obtain ⟨registered, hreg, h⟩ := bind_eq_ok.1 h
    obtain rfl := pure_eq_ok.1 h
    refine ⟨?_, registered, register_keeps hw hreg, rfl⟩
    simp only [Bool.or_eq_true, not_or] at hn
    simpa using hn.1

theorem wellFormed_opened {opened : Checker} {name : Ident} {s : Signature} (hw : c.env.WellFormed)
    (ho : c.openFunction name s = .ok opened) : opened.env.WellFormed := by
  obtain ⟨_, registered, hreg, rfl⟩ := openFunction_keeps hw ho
  exact hreg.wellFormed.enter

/-- Whatever comes of a function's parameters and body, leaving its scope restores the state. -/
theorem leave_function {α : Type} {opened : Checker} {name : Ident} {s : Signature} (hw : c.env.WellFormed)
    (ho : c.openFunction name s = .ok opened) (hk : opened.Keeps Env.After c') (result : Checked α) :
    ({ c' with current := none } : Checker).leave result = (result, c.back c') ∧
      c.Keeps Env.Quiet (c.back c') := by
  obtain ⟨hcur, registered, hreg, rfl⟩ := openFunction_keeps hw ho
  have hcur' : registered.current = none := hreg.current.trans hcur
  have hclosed : registered.enter.Keeps Env.After { c' with current := none } :=
    ⟨hk.env, hk.wellFormed, hk.functions, hk.distinct, hcur'.symm⟩
  have hback : registered.back { c' with current := none } = c.back c' := by
    simp only [back, hreg.env.current, hreg.current]
  exact ⟨hback ▸ hclosed.leave_eq result, hreg.trans_quiet (hback ▸ hclosed.back hreg.wellFormed)⟩

theorem var_cases (c : Checker) (name : Ident) (type : Option TypeRef) (init : Option Expr) (span : Span) :
    (∃ e, c.var name type init span = .error e ∧ stmt (.var name type init span) c = (.error e, c)) ∨
      ∃ s t env new, stmt (.var name type init span) c = (.ok s, { c with env }) ∧
        c.env.declare name.name t (some name.span) = .ok (env, new) := by
  cases hv : c.var name type init span with
  | error e => exact .inl ⟨e, rfl, by simp only [stmt, hv]⟩
  | ok r =>
    obtain ⟨s, inner⟩ := r
    refine .inr ?_
    have hr : stmt (.var name type init span) c = (.ok s, inner) := by simp only [stmt, hv]
    obtain ⟨_, _, hv⟩ := bind_eq_ok.1 hv
    obtain ⟨t, _, hv⟩ := bind_eq_ok.1 hv
    obtain ⟨⟨id, inner⟩, hd, hv⟩ := bind_eq_ok.1 hv
    obtain ⟨env, new, hnew, rfl, rfl⟩ := declare_cases hd
    cases pure_eq_ok.1 hv
    exact ⟨_, t, env, new, hr, hnew⟩

/-- A declaration is the only statement that may change the names of its own scope. -/
theorem var_keeps (hw : c.env.WellFormed) (name : Ident) (type : Option TypeRef) (init : Option Expr)
    (span : Span) :
    c.Keeps Env.After (stmt (.var name type init span) c).2 ∧
      (stmt (.var name type init span) c).1.Clean := by
  obtain ⟨e, he, hr⟩ | ⟨s, t, env, new, hr, hd⟩ := c.var_cases name type init span
  · have hclean := c.clean_var name type init span
    rw [he] at hclean
    rw [hr]
    exact ⟨(Keeps.refl hw).after hw, hclean⟩
  · rw [hr]
    exact ⟨declare_keeps hw hd, clean_ok _⟩

end Checker

def Stmt.isVar : Stmt → Bool
  | .var .. => true
  | _ => false

namespace Checker

open Checked

variable {c : Checker}

theorem function_keeps {body : List Stmt} (hw : c.env.WellFormed)
    (hbody : ∀ {c : Checker}, c.env.WellFormed → c.Keeps Env.After (stmts body c).2 ∧ (stmts body c).1.Clean)
    (name : Ident) (params : Option ParamList) (result : TypeRef) (bodySpan span : Span) :
    c.Keeps Env.Quiet (stmt (.function name params result body bodySpan span) c).2 ∧
      (stmt (.function name params result body bodySpan span) c).1.Clean := by
  have hopen := c.clean_openFunction name (signature name params result false)
  unfold stmt
  split
  -- refused while it is opened, while its parameters are declared, or not before its body
  · rename_i e he
    rw [he] at hopen
    exact ⟨.refl hw, hopen⟩
  · rename_i opened ho
    obtain ⟨hps, hclean⟩ := params_keeps (ParamList.toList params) (wellFormed_opened hw ho)
    split
    · rename_i e bound hb
      rw [hb] at hps hclean
      obtain ⟨hl, hk⟩ := leave_function hw ho hps (.error e : Checked Typed.Stmt)
      rw [hl]
      exact ⟨hk, hclean⟩
    · rename_i typed bound hb
      have hbound : opened.Keeps Env.After bound := by
        rw [hb] at hps
        exact hps
      obtain ⟨hin, hclean⟩ := inScope_keeps hbody hbound.wellFormed
      rcases hr : bound.inScope (stmts body) with ⟨r, outside⟩
      rw [hr] at hin hclean
      obtain ⟨hl, hk⟩ := leave_function hw ho (hbound.trans (hin.after hbound.wellFormed))
        (r.map fun ss => Typed.Stmt.function name.name typed result.type ss bodySpan span)
      simp only [hl]
      exact ⟨hk, hclean.map _⟩

theorem condition_keeps {after : Typed.Expr → Checked Typed.Stmt × Checker} (condition : Expr)
    (hw : c.env.WellFormed) (h : ∀ e, c.Keeps Env.Quiet (after e).2 ∧ (after e).1.Clean) :
    let r : Checked Typed.Stmt × Checker := match c.expr condition with
      | .error e => (.error e, c)
      | .ok condition => after condition
    c.Keeps Env.Quiet r.2 ∧ r.1.Clean := by
  have hcond := c.clean_expr condition
  dsimp only
  split
  · rename_i e he
    rw [he] at hcond
    exact ⟨.refl hw, hcond⟩
  · exact h _

mutual

/-- Every path through the check of a statement, failing or not, comes back to where it started. -/
theorem stmt_keeps : (s : Stmt) → {c : Checker} → c.env.WellFormed → s.isVar = false →
    c.Keeps Env.Quiet (stmt s c).2 ∧ (stmt s c).1.Clean
  | .expr value span, c, hw, _ => ⟨.refl hw, (c.clean_expr value).map _⟩
  | .assign target value span, c, hw, _ => ⟨.refl hw, c.clean_assign target value span⟩
  | .return_ value span, c, hw, _ => ⟨.refl hw, c.clean_return value span⟩
  | .imported name params result span, c, hw, _ => imported_keeps hw name params result span
  | .block body bodySpan span, c, hw, _ => by
    obtain ⟨hk, hclean⟩ := inScope_keeps (stmts_keeps body) hw
    exact ⟨hk, hclean.map _⟩
  | .function name params result body bodySpan span, c, hw, _ =>
    function_keeps hw (stmts_keeps body) name params result bodySpan span
  | .while_ condition body bodySpan span, c, hw, _ => by
    unfold stmt
    refine condition_keeps condition hw fun typed => ?_
    obtain ⟨hk, hclean⟩ := inScope_keeps (stmts_keeps body) hw
    exact ⟨hk, ((clean_expectBool typed).both hclean).map _⟩
  | .ifThen condition yes yesSpan span, c, hw, _ => by
    unfold stmt
    refine condition_keeps condition hw fun typed => ?_
    obtain ⟨hk, hclean⟩ := inScope_keeps (stmts_keeps yes) hw
    exact ⟨hk, ((clean_expectBool typed).both hclean).map _⟩
  | .ifElse condition yes yesSpan no noSpan span, c, hw, _ => by
    unfold stmt
    refine condition_keeps condition hw fun typed => ?_
    obtain ⟨hk, hyes⟩ := inScope_keeps (stmts_keeps yes) hw
    obtain ⟨hk', hno⟩ := inScope_keeps (stmts_keeps no) hk.wellFormed
    exact ⟨hk.trans_quiet hk', ((clean_expectBool typed).both (hyes.both hno)).map _⟩

theorem stmts_keeps : (ss : List Stmt) → {c : Checker} → c.env.WellFormed →
    c.Keeps Env.After (stmts ss c).2 ∧ (stmts ss c).1.Clean
  | [], c, hw => ⟨(Keeps.refl hw).after hw, clean_ok _⟩
  | s :: ss, c, hw => by
    have hs : c.Keeps Env.After (stmt s c).2 ∧ (stmt s c).1.Clean := by
      by_cases hv : s.isVar = true
      · cases s with
        | var name type init span => exact var_keeps hw name type init span
        | _ => cases hv
      · obtain ⟨hk, hclean⟩ := stmt_keeps s hw (by simpa using hv)
        exact ⟨hk.after hw, hclean⟩
    obtain ⟨hrest, hclean⟩ := stmts_keeps ss hs.1.wellFormed
    exact ⟨hs.1.trans hrest, (hs.2.both hclean).map _⟩

end

inductive Call where
  | stmt (s : Stmt)
  | expr (e : Expr)
  | block (body : List Stmt)

def Call.run : Call → Checker → Checked Unit × Checker
  | .stmt s, c => let (r, c) := Checker.stmt s c; (r.map fun _ => (), c)
  | .expr e, c => ((c.expr e).map fun _ => (), c)
  | .block body, c => let (r, c) := Checker.block body c; (r.map fun _ => (), c)

def afterCalls (calls : List Call) : Checker := calls.foldl (fun c call => (call.run c).2) {}

/-- The variable that a call declares if it ends like this. -/
def Call.declared : Call → Checked Unit → Option String
  | .stmt (.var name _ _ _), .ok _ => some name.name
  | _, _ => none

structure Call.Keeps (call : Call) (c : Checker) : Prop where
  after : c.Keeps Env.After (call.run c).2
  clean : (call.run c).1.Clean
  quiet : call.declared (call.run c).1 = none → c.env.Quiet (call.run c).2.env
  declares : ∀ x, call.declared (call.run c).1 = some x →
    ∃ type span new, c.env.declare x type span = .ok ((call.run c).2.env, new)

theorem Call.Keeps.ofQuiet {call : Call}
    (h : c.Keeps Env.Quiet (call.run c).2 ∧ (call.run c).1.Clean) (hw : c.env.WellFormed)
    (hd : ∀ r, call.declared r = none) : call.Keeps c where
  after := h.1.after hw
  clean := h.2
  quiet _ := h.1.env
  declares x hx := by simp [hd] at hx

theorem Call.keeps_var (hw : c.env.WellFormed) (name : Ident) (type : Option TypeRef) (init : Option Expr)
    (span : Span) : (Call.stmt (.var name type init span)).Keeps c := by
  obtain ⟨hk, hclean⟩ := var_keeps hw name type init span
  obtain ⟨e, _, hr⟩ | ⟨s, t, env, new, hr, hd⟩ := c.var_cases name type init span
  · have hrun : (Call.stmt (.var name type init span)).run c = (.error e, c) := by
      simp only [Call.run, hr, Except.map]
    refine ⟨hk, hclean.map _, ?_, ?_⟩
    · intro _
      rw [hrun]
      exact .refl _
    · rw [hrun]
      exact nofun
  · have hrun : (Call.stmt (.var name type init span)).run c = (.ok (), { c with env }) := by
      simp only [Call.run, hr, Except.map]
    refine ⟨hk, hclean.map _, ?_, ?_⟩
    · rw [hrun]
      exact nofun
    · rw [hrun]
      intro x hx
      obtain rfl := Option.some.inj hx
      exact ⟨t, some name.span, new, hd⟩

theorem Call.keeps (hw : c.env.WellFormed) (call : Call) : call.Keeps c := by
  cases call with
  | expr e => exact .ofQuiet ⟨.refl hw, (c.clean_expr e).map _⟩ hw fun _ => rfl
  | block body =>
    obtain ⟨hk, hclean⟩ := inScope_keeps (stmts_keeps body) hw
    exact .ofQuiet ⟨hk, hclean.map _⟩ hw fun _ => rfl
  | stmt s =>
    by_cases hv : s.isVar = true
    · cases s with
      | var name type init span => exact keeps_var hw name type init span
      | _ => cases hv
    · obtain ⟨hk, hclean⟩ := stmt_keeps s hw (by simpa using hv)
      refine .ofQuiet ⟨hk, hclean.map _⟩ hw fun r => ?_
      cases s with
      | var => exact (hv rfl).elim
      | _ => rfl

theorem afterCalls_wellFormed (calls : List Call) : (afterCalls calls).env.WellFormed := by
  unfold afterCalls
  generalize hc : ({} : Checker) = c
  have hw : c.env.WellFormed := hc ▸ Env.wellFormed_empty
  clear hc
  induction calls generalizing c with
  | nil => exact hw
  | cons call calls ih => exact ih _ (Call.keeps hw call).after.wellFormed

/-- After any calls, one more call leaves the place in the program as it was: the scope, its depth and
the function whose body is checked. Symbols and signatures are only added at the end, an expression
adds none, and no scope is left that was not entered. Every name stands for what it stood for before,
except that a declaration that succeeds gives its own name the symbol it adds. -/
theorem run_restores_state (calls : List Call) (call : Call) :
    let c := afterCalls calls
    let r := (call.run c).1
    let c' := (call.run c).2
    (c'.env.current = c.env.current ∧ c'.env.depth = c.env.depth ∧ c'.current = c.current) ∧
      (c.env.symbols <+: c'.env.symbols ∧ c.functions.signatures <+: c'.functions.signatures) ∧
      (∀ e, call = .expr e → c' = c) ∧
      (∀ n, call.declared r ≠ some n → c'.env.lookup n = c.env.lookup n) ∧
      (∀ x, call.declared r = some x → ∃ new : Symbol, c'.env.symbols = c.env.symbols ++ [new] ∧
        new.name = x ∧ new.id = c.env.symbols.length ∧ c'.env.lookup x = some new) ∧
      .scopeUnderflow ∉ r.errors := by
  intro c r c'
  have hw : c.env.WellFormed := afterCalls_wellFormed calls
  have hk := Call.keeps hw call
  have ha : c.Keeps Env.After c' := hk.after
  refine ⟨⟨ha.env.current, ha.env.depth hw ha.wellFormed, ha.current⟩, ⟨ha.env.symbols, ha.functions⟩,
    ?_, ?_, ?_, hk.clean⟩
  · rintro e rfl
    rfl
  · intro n hn
    cases hd : call.declared r with
    | none => exact (hk.quiet hd).lookup hw n
    | some x =>
      obtain ⟨type, span, new, hdecl⟩ := hk.declares x hd
      rw [hw.lookup_declare hdecl, if_neg]
      rintro rfl
      exact hn hd
  · intro x hx
    obtain ⟨type, span, new, hdecl⟩ := hk.declares x hx
    have hlook := hw.lookup_declare hdecl x
    obtain ⟨-, hnew, henv⟩ := Env.declare_eq_ok.1 hdecl
    refine ⟨new, ?_, by rw [hnew]; rfl, by rw [hnew]; rfl, by rw [hlook, if_pos rfl]⟩
    have hsym : c'.env.symbols = (call.run c).2.env.symbols := rfl
    rw [hsym, henv]

end Checker

end ImpWasm
