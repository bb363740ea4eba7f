import ImpWasm.Proofs.Lowering.Inversion
import ImpWasm.Proofs.Wasm.Validation
set_option autoImplicit false

namespace ImpWasm

open Wasm (Instr ValType FuncType WellTyped Context)

variable {ix : Indices} {l l' : Locals} {is : List Instr} {t : FunctionTable} {ctx : Context}
  {results : List ValType} {labels : List (List ValType)}

theorem toNat_toUInt32 (n : Nat) : n.toUInt32.toNat = n % 2 ^ 32 := rfl

theorem toNat_toUInt32_le (n : Nat) : n.toUInt32.toNat ≤ n := by
  rw [toNat_toUInt32]
  exact Nat.mod_le n (2 ^ 32)

theorem toNat_toUInt32_of_lt {n : Nat} (h : n < 2 ^ 32) : n.toUInt32.toNat = n := by
  rw [toNat_toUInt32]
  exact Nat.mod_eq_of_lt h

/-- The indices lead to functions that take and return what the table says, and to variables that can
hold an `i32`. -/
structure Indices.Sound (ix : Indices) (t : FunctionTable) (ctx : Context) : Prop where
  functions : ∀ name s i, t.get? name = some s → ix.functions.lookup name = some i →
    ctx.functionType i = some s.lowered
  globals : ∀ p ∈ ix.globals, ctx.globalType p.2 = some ⟨.i32, true⟩

namespace Locals

def count (l : Locals) : Nat := l.paramCount + l.declared.length

structure Sound (l : Locals) : Prop where
  slots : ∀ p ∈ l.slots, p.2.toNat < l.count
  declared : l.declared = List.replicate l.declared.length .i32

theorem sound_empty : ({} : Locals).Sound := ⟨by simp, rfl⟩

theorem sound_ofParams (params : List Typed.Param) : (Locals.ofParams params).Sound := by
  refine ⟨?_, rfl⟩
  intro p hp
  obtain ⟨i, hi, rfl⟩ := List.mem_mapIdx.1 (List.mem_reverse.1 hp)
  exact Nat.lt_of_le_of_lt (toNat_toUInt32_le i) hi

theorem Sound.declare (h : l.Sound) (symbol : Nat) : (l.declare symbol .i32).1.Sound := by
  refine ⟨?_, ?_⟩
  · intro p hp
    have hc : (l.declare symbol .i32).1.count = l.count + 1 := by simp [Locals.declare, count, Nat.add_assoc]
    rw [hc]
    cases List.mem_cons.1 hp with
    | inl h =>
      rw [h]
      exact Nat.lt_succ_of_le (toNat_toUInt32_le l.count)
    | inr hm => exact Nat.lt_succ_of_lt (h.slots p hm)
  · have hd : (l.declare symbol .i32).1.declared = l.declared ++ [.i32] := rfl
    rw [hd, List.length_append, h.declared]
    simp [List.replicate_succ']

/-- Later locals of the same function. -/
structure Extends (l l' : Locals) : Prop where
  paramCount : l'.paramCount = l.paramCount
  declared : l.declared <+: l'.declared

theorem Extends.refl (l : Locals) : l.Extends l := ⟨rfl, List.prefix_refl _⟩

theorem Extends.trans {l'' : Locals} (h : l.Extends l') (h' : l'.Extends l'') : l.Extends l'' :=
  ⟨h'.paramCount.trans h.paramCount, h.declared.trans h'.declared⟩

theorem Extends.count_le (h : l.Extends l') : l.count ≤ l'.count := by
  have := h.declared.length_le
  simp only [count, h.paramCount]
  omega

theorem extends_declare (l : Locals) (symbol : Nat) (type : ValType) :
    l.Extends (l.declare symbol type).1 := ⟨rfl, List.prefix_append _ _⟩

def declareAll (l : Locals) (symbols : List Nat) : Locals :=
  symbols.foldl (fun l s => (l.declare s .i32).1) l

theorem declareAll_append (l : Locals) (xs ys : List Nat) :
    l.declareAll (xs ++ ys) = (l.declareAll xs).declareAll ys := List.foldl_append

theorem Sound.declareAll (h : l.Sound) (symbols : List Nat) :
    (l.declareAll symbols).Sound ∧ l.Extends (l.declareAll symbols) := by
  induction symbols generalizing l with
  | nil => exact ⟨h, .refl l⟩
  | cons s ss ih =>
    obtain ⟨hs, he⟩ := ih (h.declare s)
    exact ⟨hs, (l.extends_declare s .i32).trans he⟩

end Locals

namespace Typed

mutual

/-- A statement declares no more than its own symbols, and there is code for each. -/
theorem Stmt.lower_declares : {s : Stmt} → {l l' : Locals} → {is : List Instr} →
    s.lower ix l = .ok (is, l') →
    ∃ new, new.Sublist s.symbols ∧ new.length ≤ is.length ∧ l' = l.declareAll new
  | .expr .., l, l', is, h => by
    obtain ⟨_, _, _, rfl⟩ := Stmt.lower_expr h
    exact ⟨[], List.nil_sublist _, Nat.zero_le _, rfl⟩
  | .var name _ _ _, l, l', is, h => by
    obtain ⟨_, _, rfl, rfl⟩ := Stmt.lower_var h
    exact ⟨[name.symbol], List.Sublist.refl _, by simp, rfl⟩
  | .assign .., l, l', is, h => by
    obtain ⟨_, _, _, _, _, rfl⟩ := Stmt.lower_assign h
    exact ⟨[], List.nil_sublist _, Nat.zero_le _, rfl⟩
  | .block body _ _, l, l', is, h => by
    have hb : Stmt.lowerAll ix body l = .ok (is, l') := h
    exact Stmt.lowerAll_declares hb
  | .function .., l, l', is, h => by
    cases h
    exact ⟨[], List.nil_sublist _, Nat.zero_le _, rfl⟩
  | .imported .., l, l', is, h => by
    cases h
    exact ⟨[], List.nil_sublist _, Nat.zero_le _, rfl⟩
  | .return_ .., l, l', is, h => by
    obtain ⟨_, _, _, rfl⟩ := Stmt.lower_return h
    exact ⟨[], List.nil_sublist _, Nat.zero_le _, rfl⟩
  | .while_ .., l, l', is, h => by
    obtain ⟨_, _, _, hb, rfl⟩ := Stmt.lower_while h
    obtain ⟨new, hnew, hn, hl⟩ := Stmt.lowerAll_declares hb
    refine ⟨new, hnew, Nat.le_trans hn ?_, hl⟩
    simp only [List.length_append]
    omega
  | .ifThen .., l, l', is, h => by
    obtain ⟨_, _, _, hy, rfl⟩ := Stmt.lower_ifThen h
    obtain ⟨new, hnew, hn, hl⟩ := Stmt.lowerAll_declares hy
    refine ⟨new, hnew, Nat.le_trans hn ?_, hl⟩
    simp only [List.length_append]
    omega
  | .ifElse .., l, l', is, h => by
    obtain ⟨_, _, _, between, _, hyes, hno, rfl⟩ := Stmt.lower_ifElse h
    obtain ⟨xs, hx, hxn, rfl⟩ := Stmt.lowerAll_declares hyes
    obtain ⟨ys, hy, hyn, rfl⟩ := Stmt.lowerAll_declares hno
    refine ⟨xs ++ ys, hx.append hy, ?_, (l.declareAll_append xs ys).symm⟩
    simp only [List.length_append]
    omega

theorem Stmt.lowerAll_declares : {ss : List Stmt} → {l l' : Locals} → {is : List Instr} →
    Stmt.lowerAll ix ss l = .ok (is, l') →
    ∃ new, new.Sublist (Stmt.allSymbols ss) ∧ new.length ≤ is.length ∧ l' = l.declareAll new
  | [], l, l', is, h => by
    cases h
    exact ⟨[], List.nil_sublist _, Nat.zero_le _, rfl⟩
  | s :: ss, l, l', is, h => by
    obtain ⟨_, _, between, hs, hss, rfl⟩ := Stmt.lowerAll_cons h
    obtain ⟨xs, hx, hxn, rfl⟩ := Stmt.lower_declares hs
    obtain ⟨ys, hy, hyn, rfl⟩ := Stmt.lowerAll_declares hss
    refine ⟨xs ++ ys, hx.append hy, ?_, (l.declareAll_append xs ys).symm⟩
    simp only [List.length_append]
    omega

end

theorem Stmt.lower_locals {s : Stmt} (h : s.lower ix l = .ok (is, l')) (hl : l.Sound) :
    l'.Sound ∧ l.Extends l' := by
  obtain ⟨new, _, _, rfl⟩ := Stmt.lower_declares h
  exact hl.declareAll new

theorem Stmt.lowerAll_locals {ss : List Stmt} (h : Stmt.lowerAll ix ss l = .ok (is, l')) (hl : l.Sound) :
    l'.Sound ∧ l.Extends l' := by
  obtain ⟨new, _, _, rfl⟩ := Stmt.lowerAll_declares h
  exact hl.declareAll new

end Typed

def Wasm.Context.Holds (ctx : Context) (l : Locals) : Prop :=
  ∀ p ∈ l.slots, ctx.locals[p.2.toNat]? = some .i32

theorem Locals.Sound.holds {n : Nat} (h : l.Sound) (hn : l.count ≤ n)
    (hc : ctx.locals = List.replicate n .i32) : ctx.Holds l := by
  intro p hp
  rw [hc, List.getElem?_replicate_of_lt (Nat.lt_of_lt_of_le (h.slots p hp) hn)]

namespace Typed

theorem access_get_wellTyped {name : Ident} {i : Instr} (hix : ix.Sound t ctx) (hc : ctx.Holds l)
    (h : ix.access l name .localGet .globalGet = .ok i) : WellTyped ctx results labels [i] [] [.i32] := by
  obtain ⟨n, hn, rfl⟩ | ⟨_, n, hn, rfl⟩ := Indices.access_ok h
  · exact .plain rfl (.localGet (hc _ (mem_of_lookup hn)))
  · exact .plain rfl (.globalGet (hix.globals _ (mem_of_lookup hn)))

theorem access_set_wellTyped {name : Ident} {i : Instr} (hix : ix.Sound t ctx) (hc : ctx.Holds l)
    (h : ix.access l name .localSet .globalSet = .ok i) : WellTyped ctx results labels [i] [.i32] [] := by
  obtain ⟨n, hn, rfl⟩ | ⟨_, n, hn, rfl⟩ := Indices.access_ok h
  · exact .plain rfl (.localSet (hc _ (mem_of_lookup hn)))
  · exact .plain rfl (.globalSet (hix.globals _ (mem_of_lookup hn)) rfl)

theorem hasType_operator (op : Operator) :
    (Instr.numeric op.lower).HasType ctx labels results [.i32, .i32] [.i32] := by
  cases op <;> exact .numeric _

mutual

theorem Expr.lower_wellTyped : {e : Expr} → {is : List Instr} → e.lower ix l = .ok is → e.Linked t →
    ix.Sound t ctx → ctx.Holds l → WellTyped ctx results labels is [] [.i32]
  | .ident .., is, h, _, hix, hc => by
    obtain ⟨i, hi, rfl⟩ := Expr.lower_ident h
    exact access_get_wellTyped hix hc hi
  | .int value _, is, h, _, _, _ => by
    cases h
    exact .plain rfl (.i32Const value)
  | .bool value _, is, h, _, _, _ => by
    cases h
    exact .plain rfl (.i32Const (boolConst value))
  | .string .., is, h, _, _, _ => by cases h
  | .binary op left right _ _, is, h, hl, hix, hc => by
    obtain ⟨a, b, ha, hb, rfl⟩ := Expr.lower_binary h
    have hleft := Expr.lower_wellTyped ha hl.1 hix hc
    have hright := (Expr.lower_wellTyped hb hl.2 hix hc).weaken [.i32]
    exact (hleft.append hright).append (.plain rfl (hasType_operator op))
  | .call callee args _ _, is, h, hl, hix, hc => by
    obtain ⟨code, i, hcode, hi, rfl⟩ := Expr.lower_call h
    obtain ⟨⟨s, hs, ha⟩, hargs⟩ := hl
    have hcall := hix.functions callee s i hs hi
    rw [Signature.lowered, ha] at hcall
    exact (Expr.lowerAll_wellTyped hcode hargs hix hc).append (.plain rfl (.call hcall))

theorem Expr.lowerAll_wellTyped : {es : List Expr} → {is : List Instr} → Expr.lowerAll ix l es = .ok is →
    Expr.AllLinked t es → ix.Sound t ctx → ctx.Holds l →
    WellTyped ctx results labels is [] (List.replicate es.length .i32)
  | [], is, h, _, _, _ => by
    cases h
    exact .nil []
  | e :: es, is, h, hl, hix, hc => by
    obtain ⟨a, b, ha, hb, rfl⟩ := Expr.lowerAll_cons h
    exact (Expr.lower_wellTyped ha hl.1 hix hc).append
      ((Expr.lowerAll_wellTyped hb hl.2 hix hc).weaken [.i32])

end

theorem lowerInit_wellTyped {init : Option Expr} (h : lowerInit ix l init = .ok is)
    (hl : ∀ e ∈ init, e.Linked t) (hix : ix.Sound t ctx) (hc : ctx.Holds l) :
    WellTyped ctx results labels is [] [.i32] := by
  cases init with
  | none =>
    cases h
    exact .plain rfl (.i32Const 0)
  | some e => exact Expr.lower_wellTyped h (hl e rfl) hix hc

end Typed

namespace Typed

def Returns (results : List ValType) : Prop := results = [.i32] ∨ results = []

theorem return_wellTyped (hr : Returns results) : WellTyped ctx results labels [.return_] [.i32] [] := by
  obtain rfl | rfl := hr
  · exact .plain rfl (.return_ [] [])
  · exact .plain rfl (.return_ [.i32] [])

theorem while_wellTyped {test body : List Instr}
    (ht : WellTyped ctx results ([] :: [] :: labels) test [] [.i32])
    (hb : WellTyped ctx results ([] :: [] :: labels) body [] []) :
    WellTyped ctx results labels ([.block .empty, .loop .empty] ++ test
      ++ [.numeric (.eqz .w32), .brIf 1] ++ body ++ [.br 0, .end_, .end_]) [] [] := by
  have hzero : WellTyped ctx results ([] :: [] :: labels) [.numeric (.eqz .w32)] [.i32] [.i32] :=
    .plain rfl (.numeric (.eqz .w32))
  have hexit : (Instr.brIf 1).HasType ctx ([] :: [] :: labels) results ([] ++ [.i32]) [] := .brIf rfl
  have hagain : (Instr.br 0).HasType ctx ([] :: [] :: labels) results ([] ++ []) [] := .br rfl [] []
  have hinside := (((ht.append hzero).append (.plain rfl hexit)).append hb).append (.plain rfl hagain)
  have hloop := WellTyped.loop (t := .empty) hinside
  simpa [Wasm.BlockType.results] using WellTyped.block (t := .empty) hloop

mutual

theorem Stmt.lower_wellTyped : {s : Stmt} → {l l' : Locals} → {is : List Instr} →
    {labels : List (List ValType)} → {n : Nat} → s.lower ix l = .ok (is, l') → l.Sound → s.Linked t →
    ix.Sound t ctx → ctx.locals = List.replicate n .i32 → l'.count ≤ n → Returns results →
    WellTyped ctx results labels is [] []
  | .expr .., l, l', is, labels, n, h, hl, hs, hix, hc, hn, _ => by
    obtain ⟨code, hv, rfl, rfl⟩ := Stmt.lower_expr h
    exact (Expr.lower_wellTyped hv hs hix (hl.holds hn hc)).append (.plain rfl (.drop .i32))
  | .var name _ init _, l, l', is, labels, n, h, hl, hs, hix, hc, hn, _ => by
    obtain ⟨code, hv, rfl, rfl⟩ := Stmt.lower_var h
    have hold := (hl.declare name.symbol).holds hn hc
    have hinit := (l.extends_declare name.symbol .i32).count_le
    exact (lowerInit_wellTyped hv hs hix (hl.holds (Nat.le_trans hinit hn) hc)).append
      (.plain rfl (.localSet (hold _ (List.mem_cons_self ..))))
  | .assign .., l, l', is, labels, n, h, hl, hs, hix, hc, hn, _ => by
    obtain ⟨code, i, hv, hi, rfl, rfl⟩ := Stmt.lower_assign h
    have hold := hl.holds hn hc
    exact (Expr.lower_wellTyped hv hs hix hold).append (access_set_wellTyped hix hold hi)
  | .block body _ _, l, l', is, labels, n, h, hl, hs, hix, hc, hn, hr => by
    have hb : Stmt.lowerAll ix body l = .ok (is, l') := h
    exact Stmt.lowerAll_wellTyped hb hl hs hix hc hn hr
  | .function .., l, l', is, labels, n, h, _, _, _, _, _, _ => by
    cases h
    exact .nil []
  | .imported .., l, l', is, labels, n, h, _, _, _, _, _, _ => by
    cases h
    exact .nil []
  | .return_ .., l, l', is, labels, n, h, hl, hs, hix, hc, hn, hr => by
    obtain ⟨code, hv, rfl, rfl⟩ := Stmt.lower_return h
    exact (Expr.lower_wellTyped hv hs hix (hl.holds hn hc)).append (return_wellTyped hr)
  | .while_ .., l, l', is, labels, n, h, hl, hs, hix, hc, hn, hr => by
    obtain ⟨test, code, ht, hb, rfl⟩ := Stmt.lower_while h
    obtain ⟨_, he⟩ := Stmt.lowerAll_locals hb hl
    have hold := hl.holds (Nat.le_trans he.count_le hn) hc
    exact while_wellTyped (Expr.lower_wellTyped ht hs.1 hix hold)
      (Stmt.lowerAll_wellTyped hb hl hs.2 hix hc hn hr)
  | .ifThen .., l, l', is, labels, n, h, hl, hs, hix, hc, hn, hr => by
    obtain ⟨test, code, ht, hy, rfl⟩ := Stmt.lower_ifThen h
    obtain ⟨_, he⟩ := Stmt.lowerAll_locals hy hl
    have hold := hl.holds (Nat.le_trans he.count_le hn) hc
    have hyes : WellTyped ctx results ([] :: labels) code [] [] :=
      Stmt.lowerAll_wellTyped hy hl hs.2 hix hc hn hr
    simpa [Wasm.BlockType.results] using
      (Expr.lower_wellTyped ht hs.1 hix hold).append (WellTyped.ifThen (t := .empty) rfl hyes)
  | .ifElse .., l, l', is, labels, n, h, hl, hs, hix, hc, hn, hr => by
    obtain ⟨test, codeYes, codeNo, between, ht, hy, hno, rfl⟩ := Stmt.lower_ifElse h
    obtain ⟨hl', he⟩ := Stmt.lowerAll_locals hy hl
    obtain ⟨_, he'⟩ := Stmt.lowerAll_locals hno hl'
    have hn' := Nat.le_trans he'.count_le hn
    have hold := hl.holds (Nat.le_trans he.count_le hn') hc
    have hyes : WellTyped ctx results ([] :: labels) codeYes [] [] :=
      Stmt.lowerAll_wellTyped hy hl hs.2.1 hix hc hn' hr
    have hnot : WellTyped ctx results ([] :: labels) codeNo [] [] :=
      Stmt.lowerAll_wellTyped hno hl' hs.2.2 hix hc hn hr
    simpa [Wasm.BlockType.results] using
      (Expr.lower_wellTyped ht hs.1 hix hold).append (WellTyped.ifElse (t := .empty) hyes hnot)

theorem Stmt.lowerAll_wellTyped : {ss : List Stmt} → {l l' : Locals} → {is : List Instr} →
    {labels : List (List ValType)} → {n : Nat} → Stmt.lowerAll ix ss l = .ok (is, l') → l.Sound →
    Stmt.AllLinked t ss → ix.Sound t ctx → ctx.locals = List.replicate n .i32 → l'.count ≤ n →
    Returns results → WellTyped ctx results labels is [] []
  | [], l, l', is, labels, n, h, _, _, _, _, _, _ => by
    cases h
    exact .nil []
  | s :: ss, l, l', is, labels, n, h, hl, hs, hix, hc, hn, hr => by
    obtain ⟨a, b, between, ha, hb, rfl⟩ := Stmt.lowerAll_cons h
    obtain ⟨hl', _⟩ := Stmt.lower_locals ha hl
    obtain ⟨_, he⟩ := Stmt.lowerAll_locals hb hl'
    exact (Stmt.lower_wellTyped ha hl hs.1 hix hc (Nat.le_trans he.count_le hn) hr).append
      (Stmt.lowerAll_wellTyped hb hl' hs.2 hix hc hn hr)

end

end Typed

theorem Wasm.WellTyped.validateBody (h : WellTyped ctx results [results] is [] results) :
    Wasm.validateBody ctx results (Instr.encodeAll (is ++ [.end_])) = .ok () := by
  obtain ⟨c, rfl, hc⟩ := h
  exact Wasm.validateBody_iff_ofBytes?.2
    ⟨c, Wasm.Code.ofBytes?_eq_some_iff.2 (Wasm.decodes_encodeAll _), hc⟩

namespace Typed

/-- The body of a function passes in every context in which its indices are good. -/
theorem lowerBody_valid {params : List Param} {body : List Stmt} {b : Wasm.Body}
    (h : lowerBody ix params body = .ok b) (hs : Stmt.AllLinked t body) (hix : ix.Sound t ctx)
    (hc : ctx.locals = List.replicate params.length .i32 ++ b.locals) :
    Wasm.validateBody ctx [.i32] b.code = .ok () := by
  obtain ⟨code, l, rfl, hcode⟩ := lowerBody_ok h
  have hsound := Locals.sound_ofParams params
  have hlocals {ss : List Stmt} {is : List Instr} (hss : Stmt.lowerAll ix ss (.ofParams params) = .ok (is, l)) :
      l.Sound ∧ ctx.locals = List.replicate l.count .i32 := by
    obtain ⟨hl, he⟩ := Stmt.lowerAll_locals hss hsound
    refine ⟨hl, ?_⟩
    have hp : l.paramCount = params.length := he.paramCount
    rw [hc, Locals.count, hp, ← List.replicate_append_replicate, ← hl.declared]
    rfl
  refine Wasm.WellTyped.validateBody ?_
  obtain ⟨front, value, span, is, result, rfl, hfront, hvalue, rfl⟩ | ⟨is, hbody, rfl⟩ := hcode
  · obtain ⟨hl, hn⟩ := hlocals hfront
    obtain ⟨hsfront, hsvalue, _⟩ := Stmt.allLinked_append.1 hs
    exact (Stmt.lowerAll_wellTyped hfront hsound hsfront hix hn (Nat.le_refl _) (.inl rfl)).append
      (Expr.lower_wellTyped hvalue hsvalue hix (hl.holds (Nat.le_refl _) hn))
  · obtain ⟨hl, hn⟩ := hlocals hbody
    exact (Stmt.lowerAll_wellTyped hbody hsound hs hix hn (Nat.le_refl _) (.inl rfl)).append
      (.plain rfl (.unreachable [] [.i32]))

end Typed

end ImpWasm
