import ImpWasm.Proofs.Typing.Success
set_option autoImplicit false

namespace ImpWasm

namespace Env

/-- A later state of the same scope: no scope has moved. -/
structure Extends (env env' : Env) : Prop where
  current : env'.current = env.current
  scopes : env.scopes.length ≤ env'.scopes.length
  parents : ∀ i < env.scopes.length, env'.parent? i = env.parent? i

theorem Extends.refl (env : Env) : env.Extends env := ⟨rfl, Nat.le_refl _, fun _ _ => rfl⟩

theorem Extends.trans {env env' env'' : Env} (h : env.Extends env') (h' : env'.Extends env'') :
    env.Extends env'' where
  current := h'.current.trans h.current
  scopes := Nat.le_trans h.scopes h'.scopes
  parents i hi := (h'.parents i (Nat.lt_of_lt_of_le hi h.scopes)).trans (h.parents i hi)

theorem depth_pos {env : Env} : 0 < env.depth ↔ ∃ p, env.parent? env.current = some p := by
  unfold depth depthFrom
  cases h : env.parent? env.current <;> simp

theorem declare_ok {env env' : Env} {name : String} {type : PrimType} {span : Option Span} {s : Symbol}
    (h : env.declare name type span = .ok (env', s)) :
    env.Extends env' ∧ s.id = env.symbols.length ∧ env'.symbols.length = env.symbols.length + 1 := by
  unfold declare at h
  split at h
  · cases h
  · cases h
    refine ⟨⟨rfl, ?_, ?_⟩, rfl, by simp⟩
    · simp [bind]
    · intro i hi
      simp only [parent?, bind, List.getElem?_modify]
      cases hs : env.scopes[i]? with
      | none => rfl
      | some sc => by_cases hc : env.current = i <;> simp [hc]

theorem enter_current_lt (env : Env) : env.enter.current < env.enter.scopes.length := by simp [enter]

theorem parent_enter (env : Env) : env.enter.parent? env.enter.current = some env.current := by
  simp [enter, parent?]

theorem leave_of_enter {env inner : Env} (h : env.enter.Extends inner) :
    inner.leave = some { inner with current := env.current } := by
  have hp : inner.parent? inner.current = some env.current := by
    rw [h.current, h.parents _ env.enter_current_lt, parent_enter]
  simp [leave, hp]

theorem extends_leave {env inner : Env} (h : env.enter.Extends inner) :
    env.Extends { inner with current := env.current } where
  current := rfl
  scopes := Nat.le_trans (by simp [enter]) h.scopes
  parents i hi := by
    have he : env.enter.parent? i = env.parent? i := by
      simp [enter, parent?, List.getElem?_append_left hi]
    exact (h.parents i (by simp [enter]; omega)).trans he

end Env

namespace Typed

mutual

def Stmt.symbols : Stmt → List Nat
  | .var name _ _ _ => [name.symbol]
  | .block body _ _ => Stmt.allSymbols body
  | .function _ params _ body _ _ => params.map (·.name.symbol) ++ Stmt.allSymbols body
  | .imported _ params _ _ => params.map (·.name.symbol)
  | .while_ _ body _ _ => Stmt.allSymbols body
  | .ifThen _ yes _ _ => Stmt.allSymbols yes
  | .ifElse _ yes _ no _ _ => Stmt.allSymbols yes ++ Stmt.allSymbols no
  | .expr .. | .assign .. | .return_ .. => []

def Stmt.allSymbols : List Stmt → List Nat
  | [] => []
  | s :: ss => s.symbols ++ Stmt.allSymbols ss

end

theorem Stmt.allSymbols_append (xs ys : List Stmt) :
    Stmt.allSymbols (xs ++ ys) = Stmt.allSymbols xs ++ Stmt.allSymbols ys := by
  induction xs with
  | nil => rfl
  | cons x xs ih => simp [allSymbols, ih]

/-- Signatures that a statement may add to the table: a function its own, and any statement those of
the imports in it. -/
def Stmt.Adds : Stmt → List Signature → Prop
  | .function name params result _ _ _, added =>
    ∃ s rest, added = s :: rest ∧ s.isImported = false ∧ s.name = name ∧
      s.paramTypes = params.map Param.type ∧ s.result = result ∧ ∀ r ∈ rest, r.isImported = true
  | _, added => ∀ r ∈ added, r.isImported = true

def Stmt.isFunction : Stmt → Bool
  | .function .. => true
  | _ => false

theorem Stmt.Adds.imported {s : Stmt} {added : List Signature} (h : s.Adds added)
    (hs : s.isFunction = false) : ∀ r ∈ added, r.isImported = true := by
  cases s with
  | function => cases hs
  | _ => exact h

end Typed

namespace Checker

/-- A place where no function may be declared. -/
def Nested (c : Checker) : Prop := c.current.isSome = true ∨ 0 < c.env.depth

/-- The symbols with these numbers are declared, one after the other. -/
structure Numbers (c : Checker) (symbols : List Nat) (c' : Checker) : Prop where
  consecutive : symbols = List.range' c.env.symbols.length symbols.length
  count : c'.env.symbols.length = c.env.symbols.length + symbols.length

structure Registers (c : Checker) (added : List Signature) (c' : Checker) : Prop where
  signatures : c'.functions.signatures = c.functions.signatures ++ added
  distinct : c.functions.names.Nodup → c'.functions.names.Nodup

/-- What a successful check of a statement does. -/
structure Step (c : Checker) (s : Typed.Stmt) (c' : Checker) : Prop where
  env : c.env.Extends c'.env
  current : c'.current = c.current
  numbers : c.Numbers s.symbols c'
  adds : ∃ added, c.Registers added c' ∧ s.Adds added
  linked : s.Linked c'.functions
  noFunction : c.Nested → s.isFunction = false

inductive Steps : Checker → List Typed.Stmt → Checker → Prop where
  | nil (c : Checker) : Steps c [] c
  | cons {c c' c'' : Checker} {s : Typed.Stmt} {ss : List Typed.Stmt} (head : Step c s c')
      (tail : Steps c' ss c'') : Steps c (s :: ss) c''

end Checker

namespace Checker

variable {c c' c'' : Checker}

theorem Nested.enter (c : Checker) : c.enter.Nested := by
  refine .inr (Env.depth_pos.2 ⟨c.env.current, ?_⟩)
  exact c.env.parent_enter

theorem Nested.later (h : c.Nested) (he : c.env.Extends c'.env) (hc : c'.current = c.current)
    (hlt : c.env.current < c.env.scopes.length) : c'.Nested := by
  cases h with
  | inl h => exact .inl (hc ▸ h)
  | inr h =>
    obtain ⟨p, hp⟩ := Env.depth_pos.1 h
    refine .inr (Env.depth_pos.2 ⟨p, ?_⟩)
    rw [he.current, he.parents _ hlt, hp]

theorem Numbers.nil (h : c'.env.symbols.length = c.env.symbols.length) : c.Numbers [] c' := ⟨rfl, h⟩

theorem Numbers.append {xs ys : List Nat} (hx : c.Numbers xs c') (hy : c'.Numbers ys c'') :
    c.Numbers (xs ++ ys) c'' where
  consecutive := by
    rw [List.length_append, ← List.range'_append_1, ← hx.count, ← hy.consecutive]
    exact congrArg (· ++ ys) hx.consecutive
  count := by rw [hy.count, hx.count, List.length_append]; omega

theorem Registers.nil (h : c'.functions = c.functions) : c.Registers [] c' :=
  ⟨by simp [h], fun hd => h ▸ hd⟩

theorem Registers.append {xs ys : List Signature} (hx : c.Registers xs c') (hy : c'.Registers ys c'') :
    c.Registers (xs ++ ys) c'' :=
  ⟨by rw [hy.signatures, hx.signatures, List.append_assoc], fun hd => hy.distinct (hx.distinct hd)⟩

theorem Registers.within {added : List Signature} (h : c.Registers added c') :
    c.functions.Within c'.functions := FunctionTable.within_append h.signatures

structure Inside (c : Checker) (symbols : List Nat) (c' : Checker) : Prop where
  env : c.env.Extends c'.env
  current : c'.current = c.current
  numbers : c.Numbers symbols c'
  adds : ∃ added, c.Registers added c' ∧ ∀ r ∈ added, r.isImported = true

theorem Inside.within {symbols : List Nat} (h : c.Inside symbols c') :
    c.functions.Within c'.functions := by
  obtain ⟨added, ha, _⟩ := h.adds
  exact ha.within

theorem Inside.append {xs ys : List Nat} (hx : c.Inside xs c') (hy : c'.Inside ys c'') :
    c.Inside (xs ++ ys) c'' := by
  obtain ⟨added, ha, hi⟩ := hx.adds
  obtain ⟨added', ha', hi'⟩ := hy.adds
  refine ⟨hx.env.trans hy.env, hy.current.trans hx.current, hx.numbers.append hy.numbers,
    ⟨added ++ added', ha.append ha', ?_⟩⟩
  intro r hr
  exact (List.mem_append.1 hr).elim (hi r) (hi' r)

theorem Steps.inside {ss : List Typed.Stmt} (h : Steps c ss c') (hn : c.Nested)
    (hlt : c.env.current < c.env.scopes.length) :
    c.Inside (Typed.Stmt.allSymbols ss) c' ∧ Typed.Stmt.AllLinked c'.functions ss := by
  induction h with
  | nil c => exact ⟨⟨.refl _, rfl, .nil rfl, ⟨[], .nil rfl, by simp⟩⟩, trivial⟩
  | @cons c c' c'' s ss head tail ih =>
    have hlt' : c'.env.current < c'.env.scopes.length := by
      rw [head.env.current]
      exact Nat.lt_of_lt_of_le hlt head.env.scopes
    obtain ⟨hrest, hlinked⟩ := ih (hn.later head.env head.current hlt) hlt'
    have hhead : c.Inside s.symbols c' :=
      ⟨head.env, head.current, head.numbers,
        head.adds.imp fun added ha => ⟨ha.1, ha.2.imported (head.noFunction hn)⟩⟩
    exact ⟨hhead.append hrest, head.linked.grow hrest.within, hlinked⟩

theorem Inside.leave {symbols : List Nat} {env : Env} (h : c.enter.Inside symbols c')
    (hl : c'.env.leave = some env) : c.Inside symbols { c' with env } := by
  rw [Env.leave_of_enter h.env] at hl
  obtain rfl := Option.some.inj hl
  exact ⟨Env.extends_leave h.env, h.current, ⟨h.numbers.consecutive, h.numbers.count⟩,
    h.adds.imp fun added ha => ⟨⟨ha.1.signatures, ha.1.distinct⟩, ha.2⟩⟩

theorem Steps.leave {ss : List Typed.Stmt} {env : Env} (h : Steps c.enter ss c')
    (hl : c'.env.leave = some env) :
    c.Inside (Typed.Stmt.allSymbols ss) { c' with env } ∧ Typed.Stmt.AllLinked c'.functions ss := by
  obtain ⟨hi, hs⟩ := h.inside (.enter c) c.env.enter_current_lt
  exact ⟨hi.leave hl, hs⟩

mutual

theorem expr_linked : {e : Expr} → {typed : Typed.Expr} → c.expr e = .ok typed → typed.Linked c.functions
  | .ident name span, typed, h => by
    obtain ⟨s, _, rfl⟩ := expr_ident_ok.1 h
    trivial
  | .int .., typed, h | .string .., typed, h | .bool .., typed, h => by
    cases h
    trivial
  | .binary op left right span, typed, h => by
    obtain ⟨a, b, ha, hb, _, rfl⟩ := expr_binary_ok.1 h
    exact ⟨expr_linked ha, expr_linked hb⟩
  | .call callee args span, typed, h => by
    obtain ⟨as, s, has, hs, ht, rfl⟩ := expr_call_ok.1 h
    exact ⟨⟨s, hs, by simp [Signature.arity, ht]⟩, exprs_linked has⟩

theorem exprs_linked : {es : List Expr} → {typed : List Typed.Expr} → c.exprs es = .ok typed →
    Typed.Expr.AllLinked c.functions typed
  | [], typed, h => by
    cases h
    trivial
  | e :: es, typed, h => by
    obtain ⟨a, as, ha, has, rfl⟩ := exprs_cons_ok.1 h
    exact ⟨expr_linked ha, exprs_linked has⟩

end

end Checker

namespace Checker

variable {c c' : Checker}

theorem optExpr_linked {init : Option Expr} {typed : Option Typed.Expr} (h : c.optExpr init = .ok typed) :
    ∀ e ∈ typed, e.Linked c.functions := by
  cases init with
  | none =>
    cases h
    simp
  | some e =>
    obtain ⟨t, ht, rfl⟩ := map_eq_ok.1 h
    simpa using expr_linked ht

/-- What a declaration does, beside giving the name a number. -/
theorem declare_ok {env : Env} {name : String} {type : PrimType} {span : Option Span} {new : Symbol}
    (h : c.env.declare name type span = .ok (env, new)) :
    c.env.Extends env ∧ c.Numbers [new.id] { c with env } := by
  obtain ⟨he, hs, hc⟩ := Env.declare_ok h
  exact ⟨he, by simp [hs], hc⟩

theorem params_ok {ps : List Param} {typed : List Typed.Param} (h : params ps c = (.ok typed, c')) :
    typed.map Typed.Param.type = ps.map (·.type.type) ∧ c.env.Extends c'.env ∧
      c'.functions = c.functions ∧ c'.current = c.current ∧
      c.Numbers (typed.map (·.name.symbol)) c' := by
  induction ps generalizing c typed with
  | nil =>
    cases h
    exact ⟨rfl, .refl _, rfl, rfl, .nil rfl⟩
  | cons p ps ih =>
    obtain ⟨env, new, rest, hd, hrest, rfl⟩ := params_cons_ok.1 h
    obtain ⟨he, hn⟩ := declare_ok hd
    obtain ⟨ht, he', hf', hc', hn'⟩ := ih hrest
    exact ⟨by simp [ht], he.trans he', hf', hc', hn.append hn'⟩

theorem register_ok {s : Signature} {span : Span} (h : c.register s span = .ok c') :
    c.Registers [s] c' ∧ c'.env = c.env ∧ c'.current = c.current := by
  obtain ⟨hn, rfl⟩ := register_eq_ok.1 h
  refine ⟨⟨rfl, ?_⟩, rfl, rfl⟩
  intro hd
  simp only [FunctionTable.names, List.map_append, List.map_cons, List.map_nil]
  refine List.nodup_append.2 ⟨hd, by simp, ?_⟩
  rintro _ hx _ hy rfl
  rw [List.mem_singleton] at hy
  exact hn (hy ▸ hx)

theorem openFunction_ok {name : Ident} {s : Signature} (h : c.openFunction name s = .ok c') :
    ¬ c.Nested ∧ ∃ inner, c.Registers [s] inner ∧ inner.env = c.env ∧
      c' = { inner.enter with current := some s } := by
  unfold openFunction at h
  split at h
  · cases h
  · rename_i hn
    obtain ⟨inner, hi, h⟩ := bind_eq_ok.1 h
    obtain rfl := pure_eq_ok.1 h
    obtain ⟨hr, he, _⟩ := register_ok hi
    refine ⟨?_, inner, hr, he, rfl⟩
    simpa [Nested] using hn

end Checker

namespace Checker

theorem paramTypes_signature (name : Ident) (params : Option ParamList) (result : TypeRef) (isImported : Bool) :
    (signature name params result isImported).paramTypes =
      (ParamList.toList params).map (·.type.type) := by
  cases params <;> rfl

theorem Step.ofQuiet {c c' : Checker} {s : Typed.Stmt} (he : c.env.Extends c'.env)
    (hc : c'.current = c.current) (hf : c'.functions = c.functions) (hn : c.Numbers s.symbols c')
    (hl : s.Linked c.functions) (hs : s.isFunction = false) (ha : s.Adds []) : Step c s c' :=
  ⟨he, hc, hn, ⟨[], .nil hf, ha⟩, hf ▸ hl, fun _ => hs⟩

theorem Step.ofInside {c c' : Checker} {s : Typed.Stmt} (h : c.Inside s.symbols c')
    (hl : s.Linked c'.functions) (hs : s.isFunction = false)
    (ha : ∀ added, (∀ r ∈ added, r.isImported = true) → s.Adds added) : Step c s c' :=
  ⟨h.env, h.current, h.numbers, h.adds.imp fun added hr => ⟨hr.1, ha added hr.2⟩, hl, fun _ => hs⟩

/-- The parameters of an import stand in a scope that is given up at once. -/
theorem imported_step {c registered c' : Checker} {name : Ident} {params : Option ParamList}
    {result : TypeRef} {ps : List Typed.Param}
    (hr : c.register (signature name params result true) name.span = .ok registered)
    (hp : registered.inScope (Checker.params (ParamList.toList params)) = (.ok ps, c')) (span : Span) :
    Step c (.imported name.name ps result.type span) c' := by
  obtain ⟨inner, env, hps, hl, rfl⟩ := inScope_iff.1 hp
  obtain ⟨hreg, henv, hcur⟩ := register_ok hr
  obtain ⟨_, he, hf, hc, hn⟩ := params_ok hps
  have hin : registered.enter.Inside (ps.map (·.name.symbol)) inner :=
    ⟨he, hc, hn, ⟨[], .nil hf, by simp⟩⟩
  have hout := hin.leave hl
  refine ⟨henv ▸ hout.env, hout.current.trans hcur, ?_, ⟨[_], hreg.append (.nil hf), ?_⟩, trivial,
    fun _ => rfl⟩
  · exact ⟨henv ▸ hout.numbers.consecutive, henv ▸ hout.numbers.count⟩
  · intro r hr
    rw [List.mem_singleton.1 hr]
    rfl

theorem function_step {c opened bound inner : Checker} {name : Ident} {s : Signature} {env : Env}
    {params : List Typed.Param} {body : List Typed.Stmt} {ps : List Param}
    (ho : c.openFunction name s = .ok opened) (hp : Checker.params ps opened = (.ok params, bound))
    (hb : bound.Inside (Typed.Stmt.allSymbols body) inner)
    (hs : Typed.Stmt.AllLinked inner.functions body) (hl : inner.env.leave = some env)
    (hi : s.isImported = false) (ht : s.paramTypes = ps.map (·.type.type)) (bodySpan span : Span) :
    Step c (.function s.name params s.result body bodySpan span) { inner with env, current := none } := by
  obtain ⟨hnest, registered, hreg, henv, rfl⟩ := openFunction_ok ho
  obtain ⟨htypes, he, hf, hc, hn⟩ := params_ok hp
  obtain ⟨added, hadd, himp⟩ := hb.adds
  have hcur : c.current = none := by
    cases hcc : c.current with
    | none => rfl
    | some f => exact (hnest (.inl (by simp [hcc]))).elim
  have hext : registered.env.enter.Extends inner.env := he.trans hb.env
  rw [Env.leave_of_enter hext] at hl
  obtain rfl := Option.some.inj hl
  have hnum := hn.append hb.numbers
  refine ⟨henv ▸ Env.extends_leave hext, hcur.symm, ?_, ⟨s :: added, ?_, ?_⟩, hs, fun h => (hnest h).elim⟩
  · exact ⟨henv ▸ hnum.consecutive, henv ▸ hnum.count⟩
  · have hbound : registered.Registers [] bound := .nil hf
    have hall := (hreg.append hbound).append hadd
    exact ⟨hall.signatures, hall.distinct⟩
  · exact ⟨s, added, rfl, hi, rfl, ht.trans htypes.symm, rfl, himp⟩

mutual

theorem stmt_step : {s : Stmt} → {typed : Typed.Stmt} → {c c' : Checker} →
    stmt s c = (.ok typed, c') → Step c typed c'
  | .expr value span, typed, c, c', h => by
    obtain ⟨v, hv, rfl, rfl⟩ := stmt_expr_ok.1 h
    exact .ofQuiet (.refl _) rfl rfl (.nil rfl) (expr_linked hv) rfl (by simp [Typed.Stmt.Adds])
  | .var name type init span, typed, c, c', h => by
    obtain ⟨i, t, env, new, hi, _, hd, rfl, rfl⟩ := stmt_var_ok.1 h
    obtain ⟨he, hn⟩ := declare_ok hd
    exact .ofQuiet he rfl rfl hn (optExpr_linked hi) rfl (by simp [Typed.Stmt.Adds])
  | .assign target value span, typed, c, c', h => by
    obtain ⟨s, v, _, hv, _, rfl, rfl⟩ := stmt_assign_ok.1 h
    exact .ofQuiet (.refl _) rfl rfl (.nil rfl) (expr_linked hv) rfl (by simp [Typed.Stmt.Adds])
  | .block body bodySpan span, typed, c, c', h => by
    obtain ⟨ss, hb, rfl⟩ := stmt_block_iff.1 h
    obtain ⟨inner, env, hss, hl, rfl⟩ := inScope_iff.1 hb
    obtain ⟨hi, hs⟩ := (stmts_steps hss).leave hl
    exact .ofInside hi hs rfl fun _ h => h
  | .function name params result body bodySpan span, typed, c, c', h => by
    obtain ⟨opened, ps, bound, ss, _, env', ho, hp, hb, hl', rfl, rfl⟩ := stmt_function_iff.1 h
    obtain ⟨inner, env, hss, hl, rfl⟩ := inScope_iff.1 hb
    obtain ⟨hi, hs⟩ := (stmts_steps hss).leave hl
    have hstep := function_step ho hp hi hs hl' rfl (paramTypes_signature name params result false)
      bodySpan span
    exact hstep
  | .imported name params result span, typed, c, c', h => by
    obtain ⟨registered, ps, hr, hp, rfl⟩ := stmt_imported_iff.1 h
    exact imported_step hr hp span
  | .return_ value span, typed, c, c', h => by
    obtain ⟨f, v, _, hv, _, rfl, rfl⟩ := stmt_return_ok.1 h
    exact .ofQuiet (.refl _) rfl rfl (.nil rfl) (expr_linked hv) rfl (by simp [Typed.Stmt.Adds])
  | .while_ condition body bodySpan span, typed, c, c', h => by
    obtain ⟨e, he, _, ss, hb, rfl⟩ := stmt_while_iff.1 h
    obtain ⟨inner, env, hss, hl, rfl⟩ := inScope_iff.1 hb
    obtain ⟨hi, hs⟩ := (stmts_steps hss).leave hl
    exact .ofInside hi ⟨(expr_linked he).grow hi.within, hs⟩ rfl fun _ h => h
  | .ifThen condition yes yesSpan span, typed, c, c', h => by
    obtain ⟨e, he, _, ss, hb, rfl⟩ := stmt_ifThen_iff.1 h
    obtain ⟨inner, env, hss, hl, rfl⟩ := inScope_iff.1 hb
    obtain ⟨hi, hs⟩ := (stmts_steps hss).leave hl
    exact .ofInside hi ⟨(expr_linked he).grow hi.within, hs⟩ rfl fun _ h => h
  | .ifElse condition yes yesSpan no noSpan span, typed, c, c', h => by
    obtain ⟨e, ys, _, ns, he, _, hy, hn, rfl⟩ := stmt_ifElse_iff.1 h
    obtain ⟨innerYes, env, hys, hl, rfl⟩ := inScope_iff.1 hy
    obtain ⟨innerNo, env', hns, hl', rfl⟩ := inScope_iff.1 hn
    obtain ⟨hi, hs⟩ := (stmts_steps hys).leave hl
    obtain ⟨hi', hs'⟩ := (stmts_steps hns).leave hl'
    exact .ofInside (hi.append hi')
      ⟨((expr_linked he).grow hi.within).grow hi'.within, hs.grow hi'.within, hs'⟩ rfl fun _ h => h

theorem stmts_steps : {ss : List Stmt} → {typed : List Typed.Stmt} → {c c' : Checker} →
    stmts ss c = (.ok typed, c') → Steps c typed c'
  | [], typed, c, c', h => by
    cases h
    exact .nil c
  | s :: ss, typed, c, c', h => by
    obtain ⟨t, inner, ts, hs, hss, rfl⟩ := stmts_cons_ok.1 h
    exact .cons (stmt_step hs) (stmts_steps hss)

end

end Checker

theorem Checker.Steps.registers {c c' : Checker} {ss : List Typed.Stmt} (h : Steps c ss c') :
    ∃ added, c.Registers added c' := by
  induction h with
  | nil c => exact ⟨[], .nil rfl⟩
  | cons head _ ih =>
    obtain ⟨xs, hx, _⟩ := head.adds
    obtain ⟨ys, hy⟩ := ih
    exact ⟨xs ++ ys, hx.append hy⟩

theorem Checker.Steps.numbers {c c' : Checker} {ss : List Typed.Stmt} (h : Steps c ss c') :
    c.Numbers (Typed.Stmt.allSymbols ss) c' := by
  induction h with
  | nil c => exact .nil rfl
  | cons head _ ih => exact head.numbers.append ih

theorem Checker.Steps.names_nodup {c c' : Checker} {ss : List Typed.Stmt} (h : Steps c ss c')
    (hn : c'.functions.names.Nodup) : c.functions.names.Nodup := by
  obtain ⟨added, hadd⟩ := h.registers
  rw [FunctionTable.names, hadd.signatures, List.map_append] at hn
  exact (List.nodup_append.1 hn).1

/-- An accepted program went through the checker step by step, from nothing. -/
theorem Program.check_steps {p : Program} {typed : Typed.Program} (h : p.check = .ok typed) :
    ∃ c, Checker.Steps {} typed.body c ∧ c.functions = typed.functions := by
  obtain ⟨body, c, hs, rfl⟩ := check_eq_ok.1 h
  exact ⟨c, Checker.stmts_steps hs, rfl⟩

theorem Program.check_names_nodup {p : Program} {typed : Typed.Program} (h : p.check = .ok typed) :
    typed.functions.names.Nodup := by
  obtain ⟨c, hs, hf⟩ := check_steps h
  obtain ⟨added, ha⟩ := hs.registers
  exact hf ▸ ha.distinct List.nodup_nil

end ImpWasm
