import ImpWasm.Proofs.Lowering.Indices
import ImpWasm.Proofs.Typing.Faithful
import ImpWasm.Proofs.Typing.TopLevel
set_option autoImplicit false

/-!
Programs that cannot be lowered. Strings have no representation, and nothing else stops the lowering of an
accepted program: it succeeds exactly if there is no string in the program, and otherwise it stops at one.
-/
namespace ImpWasm

open Wasm (Instr ValType FuncType)

def Signature.StringFree (s : Signature) : Prop := s.result ≠ .string ∧ ∀ t ∈ s.paramTypes, t ≠ .string

namespace Typed

mutual

def Expr.StringFree : Expr → Prop
  | .string .. => False
  | .binary _ left right _ _ => left.StringFree ∧ right.StringFree
  | .call _ args _ _ => Expr.AllStringFree args
  | .ident .. | .int .. | .bool .. => True

def Expr.AllStringFree : List Expr → Prop
  | [] => True
  | e :: es => e.StringFree ∧ Expr.AllStringFree es

end

mutual

def Stmt.StringFree : Stmt → Prop
  | .expr value _ | .assign _ value _ | .return_ value _ => value.StringFree
  | .var _ type init _ => type ≠ .string ∧ ∀ e ∈ init, e.StringFree
  | .block body _ _ | .function _ _ _ body _ _ => Stmt.AllStringFree body
  | .imported .. => True
  | .while_ condition body _ _ | .ifThen condition body _ _ =>
    condition.StringFree ∧ Stmt.AllStringFree body
  | .ifElse condition yes _ no _ _ =>
    condition.StringFree ∧ Stmt.AllStringFree yes ∧ Stmt.AllStringFree no

def Stmt.AllStringFree : List Stmt → Prop
  | [] => True
  | s :: ss => s.StringFree ∧ Stmt.AllStringFree ss

end

structure Program.StringFree (p : Program) : Prop where
  signatures : ∀ s ∈ p.functions.signatures, s.StringFree
  body : Stmt.AllStringFree p.body

theorem Stmt.allStringFree_append {xs ys : List Stmt} :
    Stmt.AllStringFree (xs ++ ys) ↔ Stmt.AllStringFree xs ∧ Stmt.AllStringFree ys := by
  induction xs with
  | nil => simp [Stmt.AllStringFree]
  | cons x xs ih => simp [Stmt.AllStringFree, ih, and_assoc]

theorem Stmt.allStringFree_iff {ss : List Stmt} : Stmt.AllStringFree ss ↔ ∀ s ∈ ss, s.StringFree := by
  induction ss with
  | nil => simp [Stmt.AllStringFree]
  | cons s ss ih => simp [Stmt.AllStringFree, ih]

end Typed

section Lowered

variable {ix : Indices} {l l' : Locals} {is : List Instr}

theorem PrimType.ne_string_of_lower {t : PrimType} {context : String} {span : Span} {v : ValType}
    (h : t.lower context span = .ok v) : t ≠ .string := by
  rintro rfl
  cases h

theorem mapM_lower_ne_string {ts : List PrimType} {context : String} {span : Span} {vs : List ValType}
    (h : ts.mapM (fun t => t.lower context span) = .ok vs) : ∀ t ∈ ts, t ≠ .string := by
  induction ts generalizing vs with
  | nil => simp
  | cons t ts ih =>
    rw [List.mapM_cons] at h
    obtain ⟨v, hv, h⟩ := bind_eq_ok.1 h
    obtain ⟨vs, hvs, -⟩ := bind_eq_ok.1 h
    exact List.forall_mem_cons.2 ⟨PrimType.ne_string_of_lower hv, ih hvs⟩

theorem Signature.stringFree_of_lower {s : Signature} {type : FuncType} (h : s.lower = .ok type) :
    s.StringFree := by
  obtain ⟨params, hp, h⟩ := bind_eq_ok.1 h
  obtain ⟨result, hr, -⟩ := bind_eq_ok.1 h
  exact ⟨PrimType.ne_string_of_lower hr, mapM_lower_ne_string hp⟩

namespace Typed

mutual

theorem Expr.stringFree_of_lower : {e : Expr} → {is : List Instr} → e.lower ix l = .ok is → e.StringFree
  | .ident .., _, _ | .int .., _, _ | .bool .., _, _ => trivial
  | .string .., _, h => by cases h
  | .binary .., _, h => by
    obtain ⟨a, b, ha, hb, -⟩ := Expr.lower_binary h
    exact ⟨Expr.stringFree_of_lower ha, Expr.stringFree_of_lower hb⟩
  | .call .., _, h => by
    obtain ⟨code, i, hcode, -⟩ := Expr.lower_call h
    exact Expr.allStringFree_of_lower hcode

theorem Expr.allStringFree_of_lower : {es : List Expr} → {is : List Instr} →
    Expr.lowerAll ix l es = .ok is → Expr.AllStringFree es
  | [], _, _ => trivial
  | e :: es, _, h => by
    obtain ⟨a, b, ha, hb, -⟩ := Expr.lowerAll_cons h
    exact ⟨Expr.stringFree_of_lower ha, Expr.allStringFree_of_lower hb⟩

end

theorem stringFree_of_lowerInit {init : Option Expr} (h : lowerInit ix l init = .ok is) :
    ∀ e ∈ init, e.StringFree := by
  cases init with
  | none => simp
  | some e => simpa using Expr.stringFree_of_lower h

mutual

theorem Stmt.stringFree_of_lower : {s : Stmt} → {l l' : Locals} → {is : List Instr} → s.Flat →
    s.lower ix l = .ok (is, l') → s.StringFree
  | .expr .., _, _, _, _, h => by
    obtain ⟨code, hv, -⟩ := Stmt.lower_expr h
    exact Expr.stringFree_of_lower hv
  | .var .., _, _, _, _, h => by
    obtain ⟨t, ht, -⟩ := bind_eq_ok.1 h
    obtain ⟨code, hi, -⟩ := Stmt.lower_var h
    exact ⟨PrimType.ne_string_of_lower ht, stringFree_of_lowerInit hi⟩
  | .assign .., _, _, _, _, h => by
    obtain ⟨code, i, hv, -⟩ := Stmt.lower_assign h
    exact Expr.stringFree_of_lower hv
  | .block .., _, _, _, hf, h => Stmt.allStringFree_of_lower hf h
  | .imported .., _, _, _, _, _ => trivial
  | .return_ .., _, _, _, _, h => by
    obtain ⟨code, hv, -⟩ := Stmt.lower_return h
    exact Expr.stringFree_of_lower hv
  | .while_ .., _, _, _, hf, h => by
    obtain ⟨test, code, ht, hb, -⟩ := Stmt.lower_while h
    exact ⟨Expr.stringFree_of_lower ht, Stmt.allStringFree_of_lower hf hb⟩
  | .ifThen .., _, _, _, hf, h => by
    obtain ⟨test, code, ht, hy, -⟩ := Stmt.lower_ifThen h
    exact ⟨Expr.stringFree_of_lower ht, Stmt.allStringFree_of_lower hf hy⟩
  | .ifElse .., _, _, _, hf, h => by
    obtain ⟨test, codeYes, codeNo, between, ht, hy, hn, -⟩ := Stmt.lower_ifElse h
    exact ⟨Expr.stringFree_of_lower ht, Stmt.allStringFree_of_lower hf.1 hy,
      Stmt.allStringFree_of_lower hf.2 hn⟩

theorem Stmt.allStringFree_of_lower : {ss : List Stmt} → {l l' : Locals} → {is : List Instr} →
    Stmt.AllFlat ss → Stmt.lowerAll ix ss l = .ok (is, l') → Stmt.AllStringFree ss
  | [], _, _, _, _, _ => trivial
  | s :: ss, _, _, _, hf, h => by
    obtain ⟨a, b, between, hs, hss, -⟩ := Stmt.lowerAll_cons h
    exact ⟨Stmt.stringFree_of_lower hf.1 hs, Stmt.allStringFree_of_lower hf.2 hss⟩

end

theorem stringFree_of_lowerBody {params : List Param} {body : List Stmt} {b : Wasm.Body}
    (hf : Stmt.AllFlat body) (h : lowerBody ix params body = .ok b) : Stmt.AllStringFree body := by
  obtain ⟨code, l, -, ⟨front, value, span, is, result, rfl, hs, hv, -⟩ | ⟨is, hs, -⟩⟩ := lowerBody_ok h
  · have hfront := Stmt.allStringFree_of_lower (Stmt.allFlat_append.1 hf).1 hs
    exact Stmt.allStringFree_append.2 ⟨hfront, Expr.stringFree_of_lower hv, trivial⟩
  · exact Stmt.allStringFree_of_lower hf hs

end Typed

namespace Lowering

variable {options : LowerOptions} {functions : FunctionTable} {st st' : Lowering}

/-- A statement of the top level that was lowered is free of strings, as is its signature in the table. -/
theorem stringFree_of_addStmt {s : Typed.Stmt} (hf : s.FlatInside)
    (h : addStmt options functions st s = .ok st') :
    s.StringFree ∧ ∀ q ∈ s.function?, ∃ sig, functions.get? q.1 = some sig ∧ sig.StringFree := by
  cases s with
  | function name params result body bodySpan span =>
    have h : st.addFunction options functions name params body span = .ok st' := h
    unfold addFunction at h
    split at h
    · exact (throw_ne_ok h).elim
    · rename_i sig hs
      obtain ⟨type, ht, h⟩ := bind_eq_ok.1 h
      obtain ⟨b, hb, -⟩ := bind_eq_ok.1 h
      refine ⟨Typed.stringFree_of_lowerBody hf hb, fun q hq => ?_⟩
      obtain rfl := Option.some.inj hq
      exact ⟨sig, hs, Signature.stringFree_of_lower ht⟩
  | var name type init span =>
    have h : st.addGlobal name type init span = .ok st' := h
    obtain ⟨t, ht, -⟩ := bind_eq_ok.1 h
    obtain ⟨v, code, hcode, -⟩ := addGlobal_ok h
    refine ⟨⟨PrimType.ne_string_of_lower ht, ?_⟩, by simp [Typed.Stmt.function?]⟩
    obtain ⟨hconst, -⟩ | ⟨-, -, is, hi, -⟩ := hcode
    · -- a constant is no string
      intro e he
      obtain rfl := Option.mem_def.1 he
      cases e with
      | int | bool => trivial
      | _ => cases hconst
    · exact Typed.stringFree_of_lowerInit hi
  | imported => exact ⟨trivial, by simp [Typed.Stmt.function?]⟩
  | _ =>
    obtain ⟨⟨code, l⟩, hc, -⟩ := bind_eq_ok.1 h
    exact ⟨Typed.Stmt.stringFree_of_lower hf hc, by simp [Typed.Stmt.function?]⟩

end Lowering

end Lowered

section Settles

/-- The computation succeeds; only if the program is not free of strings may it stop at one instead. -/
def Lowered.Settles (free : Prop) {α : Type} (x : Lowered α) : Prop :=
  (∃ a, x = .ok a) ∨ (¬ free ∧ ∃ context span, x = .error (.unsupportedType .string context span))

variable {free : Prop} {α β : Type}

theorem Lowered.settles_ok (a : α) : Lowered.Settles free (.ok a) := .inl ⟨a, rfl⟩

theorem Lowered.Settles.bind {x : Lowered α} {f : α → Lowered β} (hx : x.Settles free)
    (hf : ∀ a, x = .ok a → (f a).Settles free) : (x >>= f).Settles free := by
  obtain ⟨a, rfl⟩ | ⟨hfree, context, span, rfl⟩ := hx
  · exact hf a rfl
  · exact .inr ⟨hfree, context, span, rfl⟩

theorem Lowered.Settles.map {x : Lowered α} (hx : x.Settles free) (f : α → β) : (f <$> x).Settles free := by
  obtain ⟨a, rfl⟩ | ⟨hfree, context, span, rfl⟩ := hx
  · exact settles_ok _
  · exact .inr ⟨hfree, context, span, rfl⟩

theorem PrimType.lower_settles {t : PrimType} (h : free → t ≠ .string) (context : String) (span : Span) :
    (t.lower context span).Settles free := by
  cases t with
  | int | bool => exact Lowered.settles_ok _
  | string => exact .inr ⟨fun hfree => h hfree rfl, context, span, rfl⟩

theorem Signature.lower_settles {s : Signature} (h : free → s.StringFree) : s.lower.Settles free := by
  suffices hparams : ∀ ts : List PrimType, (free → ∀ t ∈ ts, t ≠ .string) → ∀ context span,
      Lowered.Settles free (ts.mapM fun t => t.lower context span) by
    refine (hparams _ (fun hfree => (h hfree).2) _ _).bind fun _ _ => ?_
    exact (PrimType.lower_settles (fun hfree => (h hfree).1) _ _).bind fun _ _ => Lowered.settles_ok _
  intro ts hts context span
  induction ts with
  | nil => exact Lowered.settles_ok _
  | cons t ts ih =>
    rw [List.mapM_cons]
    refine (PrimType.lower_settles (fun hfree => hts hfree t (List.mem_cons_self ..)) _ _).bind fun _ _ => ?_
    exact (ih fun hfree t ht => hts hfree t (List.mem_cons_of_mem _ ht)).bind fun _ _ => Lowered.settles_ok _

end Settles

section Ready

/-- Every variable in sight has a place, and every function of the program an index. If the program is
free of strings, so are the types of these variables and the signatures of the functions. -/
structure Ready (free : Prop) (symbols : List Symbol) (functions : FunctionTable) (ix : Indices) (l : Locals)
    (Δ : List (Names Nat)) : Prop where
  places : ∀ scope ∈ Δ, ∀ name x, scope name = some x →
    x ∈ l.slots.map Prod.fst ∨ x ∈ ix.globals.map Prod.fst
  types : free → ∀ scope ∈ Δ, ∀ name x, scope name = some x → ∀ s, symbols[x]? = some s → s.type ≠ .string
  indices : ∀ name s, functions.get? name = some s → ∃ i, ix.functions.lookup name = some i
  signatures : free → ∀ s ∈ functions.signatures, s.StringFree

variable {free : Prop} {symbols : List Symbol} {functions : FunctionTable} {ix : Indices} {l l' : Locals}
  {Δ : List (Names Nat)}

theorem Ready.grow (h : Ready free symbols functions ix l Δ) (hl : l.slots ⊆ l'.slots) :
    Ready free symbols functions ix l' Δ :=
  { h with places := fun scope hs name x hx => (h.places scope hs name x hx).imp_left (List.map_subset _ hl ·) }

theorem Ready.push (h : Ready free symbols functions ix l Δ) {scope : Names Nat}
    (hp : ∀ name x, scope name = some x → x ∈ l.slots.map Prod.fst ∨ x ∈ ix.globals.map Prod.fst)
    (ht : free → ∀ name x, scope name = some x → ∀ s, symbols[x]? = some s → s.type ≠ .string) :
    Ready free symbols functions ix l (scope :: Δ) where
  places := List.forall_mem_cons.2 ⟨hp, h.places⟩
  types hfree := List.forall_mem_cons.2 ⟨ht hfree, h.types hfree⟩
  indices := h.indices
  signatures := h.signatures

theorem Ready.pushEmpty (h : Ready free symbols functions ix l Δ) :
    Ready free symbols functions ix l (Names.empty :: Δ) :=
  h.push (by simp [Names.empty]) (by simp [Names.empty])

theorem lookup_of_mem {β : Type} {xs : List (Nat × β)} {x : Nat} (h : x ∈ xs.map Prod.fst) :
    ∃ b, xs.lookup x = some b := by
  cases hl : xs.lookup x with
  | some b => exact ⟨b, rfl⟩
  | none =>
    obtain ⟨q, hq, rfl⟩ := List.mem_map.1 h
    simpa using List.lookup_eq_none_iff.1 hl q hq

theorem Ready.access (h : Ready free symbols functions ix l Δ) {name : Typed.Ident} {type : PrimType}
    (hr : name.Resolved symbols Δ type) (onLocal onGlobal : UInt32 → Instr) :
    (ix.access l name onLocal onGlobal).Settles free := by
  obtain ⟨scope, hmem, hscope⟩ := List.exists_of_findSome?_eq_some hr.nearest
  unfold Indices.access
  obtain hlocal | hglobal := h.places scope hmem _ _ hscope
  · obtain ⟨i, hi⟩ := lookup_of_mem hlocal
    rw [hi]
    exact Lowered.settles_ok _
  · obtain ⟨i, hi⟩ := lookup_of_mem hglobal
    rw [hi]
    cases l.slots.lookup name.symbol with
    | some i => exact Lowered.settles_ok _
    | none => exact Lowered.settles_ok _

theorem Ready.function (h : Ready free symbols functions ix l Δ) {name : String} {s : Signature}
    (hs : functions.get? name = some s) (span : Span) : (ix.function name span).Settles free := by
  obtain ⟨i, hi⟩ := h.indices name s hs
  rw [Indices.function, hi]
  exact Lowered.settles_ok _

namespace Typed

/-- Nothing but a string literal makes a string, if no variable is one and no function returns one. -/
theorem Expr.type_ne_string (h : Ready free symbols functions ix l Δ) (hfree : free) : {e : Expr} →
    e.Resolved symbols functions Δ → e.StringFree → e.type ≠ .string
  | .ident name type _, hr, _ => by
    obtain ⟨scope, hmem, hscope⟩ := List.exists_of_findSome?_eq_some hr.nearest
    obtain ⟨s, hs, -, -, rfl⟩ := hr.denotes
    exact h.types hfree scope hmem _ _ hscope s hs
  | .int .., _, _ | .bool .., _, _ => by simp [Expr.type]
  | .string .., _, hs => hs.elim
  | .binary op left _ type _, ⟨hleft, _, _, htype⟩, hs => by
    have hl := Expr.type_ne_string h hfree hleft hs.1
    rw [Expr.type, htype]
    cases op <;> first | exact hl | simp [Operator.resultType]
  | .call .., ⟨_, s, hs, _, hresult⟩, _ => by
    rw [Expr.type, ← hresult]
    exact (h.signatures hfree s (FunctionTable.mem_of_get? hs)).1

mutual

theorem Expr.lower_settles (h : Ready free symbols functions ix l Δ) : {e : Expr} →
    e.Resolved symbols functions Δ → (free → e.StringFree) → (e.lower ix l).Settles free
  | .ident .., hr, _ => (h.access hr _ _).bind fun _ _ => Lowered.settles_ok _
  | .int .., _, _ | .bool .., _, _ => Lowered.settles_ok _
  | .string .., _, hs => .inr ⟨hs, _, _, rfl⟩
  | .binary _ left _ _ _, ⟨hleft, hright, _⟩, hs => by
    have htype := fun hfree => Expr.type_ne_string h hfree hleft (hs hfree).1
    refine ((PrimType.lower_settles htype _ _).map _).bind fun _ _ => ?_
    refine (Expr.lower_settles h hleft fun hfree => (hs hfree).1).bind fun _ _ => ?_
    exact (Expr.lower_settles h hright fun hfree => (hs hfree).2).bind fun _ _ => Lowered.settles_ok _
  | .call _ _ _ span, ⟨hargs, s, hs, _⟩, hfree =>
    (Expr.lowerAll_settles h hargs hfree).bind fun _ _ =>
      (h.function hs span).bind fun _ _ => Lowered.settles_ok _

theorem Expr.lowerAll_settles (h : Ready free symbols functions ix l Δ) : {es : List Expr} →
    Expr.AllResolved symbols functions Δ es → (free → Expr.AllStringFree es) →
    (Expr.lowerAll ix l es).Settles free
  | [], _, _ => Lowered.settles_ok _
  | _ :: _, ⟨he, hes⟩, hs =>
    (Expr.lower_settles h he fun hfree => (hs hfree).1).bind fun _ _ =>
      (Expr.lowerAll_settles h hes fun hfree => (hs hfree).2).bind fun _ _ => Lowered.settles_ok _

end

theorem lowerInit_settles (h : Ready free symbols functions ix l Δ) {init : Option Expr}
    (hr : ∀ e ∈ init, e.Resolved symbols functions Δ) (hs : free → ∀ e ∈ init, e.StringFree) :
    (lowerInit ix l init).Settles free := by
  cases init with
  | none => exact Lowered.settles_ok _
  | some e => exact Expr.lower_settles h (hr e rfl) fun hfree => hs hfree e rfl

end Typed

theorem Ready.declare (h : Ready free symbols functions ix l Δ) {name : Typed.Ident} {type : PrimType}
    (hd : name.Denotes symbols type) (ht : free → type ≠ .string) {init : Option Typed.Expr} {span : Span}
    (hp : name.symbol ∈ l.slots.map Prod.fst ∨ name.symbol ∈ ix.globals.map Prod.fst) :
    Ready free symbols functions ix l ((Typed.Stmt.var name type init span).declare Δ) := by
  cases Δ with
  | nil => exact h
  | cons scope Δ =>
    have hcases : ∀ {x : String} {id : Nat}, scope.insert name.name name.symbol x = some id →
        id = name.symbol ∨ scope x = some id := by
      intro x id hx
      by_cases hname : x = name.name
      · rw [hname, Names.insert_self] at hx
        exact .inl (Option.some.inj hx).symm
      · rw [Names.insert_ne hname] at hx
        exact .inr hx
    refine ⟨List.forall_mem_cons.2 ⟨fun x id hx => ?_, fun s hs => h.places s (List.mem_cons_of_mem _ hs)⟩,
      fun hfree => List.forall_mem_cons.2 ⟨fun x id hx s hs => ?_, fun s hs =>
        h.types hfree s (List.mem_cons_of_mem _ hs)⟩, h.indices, h.signatures⟩
    · obtain rfl | hold := hcases hx
      · exact hp
      · exact h.places scope (List.mem_cons_self ..) x id hold
    · obtain rfl | hold := hcases hx
      · obtain ⟨s', hs', -, -, rfl⟩ := hd
        obtain rfl := Option.some.inj (hs.symm.trans hs')
        exact ht hfree
      · exact h.types hfree scope (List.mem_cons_self ..) x id hold s hs

namespace Typed

def Stmt.declareAll (ss : List Stmt) (Δ : List (Names Nat)) : List (Names Nat) :=
  ss.foldl (fun Δ s => s.declare Δ) Δ

theorem Stmt.allResolved_append {xs ys : List Stmt} :
    Stmt.AllResolved symbols functions Δ (xs ++ ys) ↔
      Stmt.AllResolved symbols functions Δ xs ∧
        Stmt.AllResolved symbols functions (Stmt.declareAll xs Δ) ys := by
  induction xs generalizing Δ with
  | nil => simp [Stmt.AllResolved, declareAll]
  | cons x xs ih => simp [Stmt.AllResolved, declareAll, ih, and_assoc]

theorem Stmt.lower_ready {s : Stmt} {is : List Instr} (h : Ready free symbols functions ix l Δ)
    (hr : s.Resolved symbols functions Δ) (hs : free → s.StringFree) (hl : s.lower ix l = .ok (is, l')) :
    Ready free symbols functions ix l' (s.declare Δ) := by
  obtain ⟨new, -, -, hnew⟩ := Stmt.lower_declares hl
  have hgrow : Ready free symbols functions ix l' Δ := by
    refine h.grow ?_
    rw [hnew]
    exact (Locals.slots_declareAll new).subset
  cases s with
  | var name type init span =>
    obtain ⟨code, -, -, rfl⟩ := Stmt.lower_var hl
    exact hgrow.declare hr.1 (fun hfree => (hs hfree).1) (.inl (List.mem_cons_self ..))
  | _ => exact hgrow

theorem Stmt.lowerAll_ready {ss : List Stmt} {is : List Instr} (h : Ready free symbols functions ix l Δ)
    (hr : Stmt.AllResolved symbols functions Δ ss) (hs : free → Stmt.AllStringFree ss)
    (hl : Stmt.lowerAll ix ss l = .ok (is, l')) :
    Ready free symbols functions ix l' (Stmt.declareAll ss Δ) := by
  induction ss generalizing l Δ is with
  | nil =>
    cases hl
    exact h
  | cons s ss ih =>
    obtain ⟨a, b, between, hone, hrest, -⟩ := Stmt.lowerAll_cons hl
    exact ih (Stmt.lower_ready h hr.1 (fun hfree => (hs hfree).1) hone) hr.2 (fun hfree => (hs hfree).2) hrest

mutual

theorem Stmt.lower_settles : {s : Stmt} → {l : Locals} → {Δ : List (Names Nat)} →
    Ready free symbols functions ix l Δ → s.Resolved symbols functions Δ → (free → s.StringFree) →
    (s.lower ix l).Settles free
  | .expr .., _, _, h, hr, hs => (Expr.lower_settles h hr hs).bind fun _ _ => Lowered.settles_ok _
  | .var .., _, _, h, ⟨_, hinit⟩, hs =>
    (PrimType.lower_settles (fun hfree => (hs hfree).1) _ _).bind fun _ _ =>
      (lowerInit_settles h (fun e he => (hinit e he).1) fun hfree => (hs hfree).2).bind fun _ _ =>
        Lowered.settles_ok _
  | .assign .., _, _, h, ⟨htarget, hvalue⟩, hs =>
    (Expr.lower_settles h hvalue hs).bind fun _ _ =>
      (h.access htarget _ _).bind fun _ _ => Lowered.settles_ok _
  | .block .., _, _, h, hr, hs => Stmt.lowerAll_settles h.pushEmpty hr hs
  | .function .., _, _, _, _, _ | .imported .., _, _, _, _, _ => Lowered.settles_ok _
  | .return_ .., _, _, h, hr, hs => (Expr.lower_settles h hr hs).bind fun _ _ => Lowered.settles_ok _
  | .while_ .., _, _, h, ⟨htest, hbody⟩, hs =>
    (Expr.lower_settles h htest fun hfree => (hs hfree).1).bind fun _ _ =>
      (Stmt.lowerAll_settles h.pushEmpty hbody fun hfree => (hs hfree).2).bind fun _ _ =>
        Lowered.settles_ok _
  | .ifThen .., _, _, h, ⟨htest, hyes⟩, hs =>
    (Expr.lower_settles h htest fun hfree => (hs hfree).1).bind fun _ _ =>
      (Stmt.lowerAll_settles h.pushEmpty hyes fun hfree => (hs hfree).2).bind fun _ _ =>
        Lowered.settles_ok _
  | .ifElse .., l, Δ, h, ⟨htest, hyes, hno⟩, hs => by
    refine (Expr.lower_settles h htest fun hfree => (hs hfree).1).bind fun _ _ => ?_
    refine (Stmt.lowerAll_settles h.pushEmpty hyes fun hfree => (hs hfree).2.1).bind fun p hp => ?_
    obtain ⟨new, -, -, hnew⟩ := Stmt.lowerAll_declares hp
    have hbetween : Ready free symbols functions ix p.2 (Names.empty :: Δ) := by
      refine h.pushEmpty.grow ?_
      rw [hnew]
      exact (Locals.slots_declareAll new).subset
    exact (Stmt.lowerAll_settles hbetween hno fun hfree => (hs hfree).2.2).bind fun _ _ =>
      Lowered.settles_ok _

theorem Stmt.lowerAll_settles : {ss : List Stmt} → {l : Locals} → {Δ : List (Names Nat)} →
    Ready free symbols functions ix l Δ → Stmt.AllResolved symbols functions Δ ss →
    (free → Stmt.AllStringFree ss) → (Stmt.lowerAll ix ss l).Settles free
  | [], _, _, _, _, _ => Lowered.settles_ok _
  | _ :: _, _, _, h, ⟨hone, hrest⟩, hs =>
    (Stmt.lower_settles h hone fun hfree => (hs hfree).1).bind fun _ hp =>
      (Stmt.lowerAll_settles (Stmt.lower_ready h hone (fun hfree => (hs hfree).1) hp) hrest
        fun hfree => (hs hfree).2).bind fun _ _ => Lowered.settles_ok _

end

theorem trailingReturn_eq_some {body : List Stmt} {value : Expr} {span : Span}
    (h : trailingReturn body = some (value, span)) : ∃ front, body = front ++ [.return_ value span] := by
  unfold trailingReturn at h
  split at h
  · rename_i hlast
    cases h
    exact List.getLast?_eq_some_iff.1 hlast
  · cases h

theorem lowerBody_settles {params : List Param} {body : List Stmt}
    (h : Ready free symbols functions ix (.ofParams params) Δ)
    (hr : Stmt.AllResolved symbols functions Δ body) (hs : free → Stmt.AllStringFree body) :
    (lowerBody ix params body).Settles free := by
  unfold lowerBody
  split
  · rename_i value span ht
    obtain ⟨front, rfl⟩ := trailingReturn_eq_some ht
    rw [List.dropLast_concat]
    obtain ⟨hfront, hvalue, -⟩ := Stmt.allResolved_append.1 hr
    have hsfront := fun hfree => (Stmt.allStringFree_append.1 (hs hfree)).1
    refine (Stmt.lowerAll_settles h hfront hsfront).bind fun p hp => ?_
    refine Lowered.Settles.bind (Expr.lower_settles (Stmt.lowerAll_ready h hfront hsfront hp) hvalue ?_)
      fun _ _ => Lowered.settles_ok _
    exact fun hfree => (Stmt.allStringFree_append.1 (hs hfree)).2.1
  · exact (Stmt.lowerAll_settles h hr hs).bind fun _ _ => Lowered.settles_ok _

theorem mem_of_paramNumbers {params : List Param} {name : String} {x : Nat}
    (h : paramNumbers params name = some x) : ∃ p ∈ params, p.name.symbol = x := by
  suffices hs : ∀ (ps : List Param) (names : Names Nat),
      ps.foldl (fun names p => names.insert p.name.name p.name.symbol) names name = some x →
        (∃ p ∈ ps, p.name.symbol = x) ∨ names name = some x by
    obtain hp | hempty := hs params Names.empty h
    · exact hp
    · cases hempty
  intro ps
  induction ps with
  | nil => exact fun names h => .inr h
  | cons p ps ih =>
    intro names h
    obtain ⟨q, hq, hx⟩ | hold := ih _ h
    · exact .inl ⟨q, List.mem_cons_of_mem _ hq, hx⟩
    · have hold : names.insert p.name.name p.name.symbol name = some x := hold
      by_cases hname : name = p.name.name
      · rw [hname, Names.insert_self] at hold
        exact .inl ⟨p, List.mem_cons_self .., Option.some.inj hold⟩
      · rw [Names.insert_ne hname] at hold
        exact .inr hold

end Typed

theorem Ready.enterFunction (h : Ready free symbols functions ix {} Δ) {name : String}
    {params : List Typed.Param} {result : PrimType} {isImported : Bool}
    (hp : ∀ p ∈ params, p.name.Denotes symbols p.type)
    (hl : Typed.Listed functions name params result isImported) :
    Ready free symbols functions ix (.ofParams params) (Names.empty :: Typed.paramNumbers params :: Δ) := by
  refine ((h.grow (by simp)).push (fun x id hx => ?_) fun hfree x id hx s hs => ?_).pushEmpty
  · obtain ⟨p, hmem, rfl⟩ := Typed.mem_of_paramNumbers hx
    have hsymbol : p.name.symbol ∈ (Locals.ofParams params).symbols := by
      rw [Locals.symbols_ofParams]
      exact List.mem_map_of_mem hmem
    exact .inl (List.mem_reverse.1 hsymbol)
  · obtain ⟨p, hmem, rfl⟩ := Typed.mem_of_paramNumbers hx
    obtain ⟨s', hs', -, -, htype⟩ := hp p hmem
    obtain rfl := Option.some.inj (hs.symm.trans hs')
    obtain ⟨sig, hsig, htypes, -⟩ := hl
    refine (h.signatures hfree sig (FunctionTable.mem_of_get? hsig)).2 _ ?_
    rw [htypes, htype]
    exact List.mem_map_of_mem hmem

end Ready

namespace Lowering

variable {free : Prop} {symbols : List Symbol} {functions : FunctionTable} {Δ : List (Names Nat)}
  {options : LowerOptions} {st st' : Lowering}

theorem addFunction_settles {name : String} {params : List Typed.Param} {result : PrimType}
    {body : List Typed.Stmt} (h : Ready free symbols functions st.indices {} Δ)
    (hp : ∀ p ∈ params, p.name.Denotes symbols p.type)
    (hl : Typed.Listed functions name params result false)
    (hr : Typed.Stmt.AllResolved symbols functions (Names.empty :: Typed.paramNumbers params :: Δ) body)
    (hs : free → Typed.Stmt.AllStringFree body) (span : Span) :
    (st.addFunction options functions name params body span).Settles free := by
  obtain ⟨sig, hsig, -⟩ := id hl
  have hfree := fun hfree => h.signatures hfree sig (FunctionTable.mem_of_get? hsig)
  simp only [addFunction, hsig]
  refine (Signature.lower_settles hfree).bind fun _ _ => ?_
  exact (Typed.lowerBody_settles (h.enterFunction hp hl) hr hs).bind fun _ _ => Lowered.settles_ok _

theorem addGlobal_settles {name : Typed.Ident} {type : PrimType} {init : Option Typed.Expr}
    (h : Ready free symbols functions st.indices {} Δ)
    (hr : ∀ e ∈ init, e.Resolved symbols functions Δ) (ht : free → type ≠ .string)
    (hs : free → ∀ e ∈ init, e.StringFree) (span : Span) :
    (st.addGlobal name type init span).Settles free := by
  refine (PrimType.lower_settles ht _ _).bind fun t htype => ?_
  obtain rfl := PrimType.lower_ok htype
  refine (show Lowered.Settles free (liftModule (Wasm.Global.make .i32 true _)) from
    Lowered.settles_ok _).bind fun _ _ => ?_
  cases Typed.constant? init with
  | some v => exact Lowered.settles_ok _
  | none =>
    have hinit := Typed.lowerInit_settles (h.grow (by simp) : Ready free symbols functions st.indices
      st.startLocals Δ) hr hs
    exact hinit.bind fun _ _ => Lowered.settles_ok _

theorem addStmt_settles {s : Typed.Stmt} (h : Ready free symbols functions st.indices {} Δ)
    (hr : s.Resolved symbols functions Δ) (hs : free → s.StringFree) :
    (addStmt options functions st s).Settles free := by
  have hstart : Ready free symbols functions st.indices st.startLocals Δ := h.grow (by simp)
  cases s with
  | function name params result body bodySpan span => exact addFunction_settles h hr.1 hr.2.1 hr.2.2 hs span
  | imported => exact Lowered.settles_ok _
  | var name type init span =>
    exact addGlobal_settles h (fun e he => (hr.2 e he).1) (fun hfree => (hs hfree).1)
      (fun hfree => (hs hfree).2) span
  | _ => exact (Typed.Stmt.lower_settles hstart hr hs).bind fun _ _ => Lowered.settles_ok _

theorem addStmt_ready {s : Typed.Stmt} (h : Ready free symbols functions st.indices {} Δ)
    (hr : s.Resolved symbols functions Δ) (hs : free → s.StringFree)
    (ha : addStmt options functions st s = .ok st') :
    Ready free symbols functions st'.indices {} (s.declare Δ) := by
  obtain ⟨name, params, result, body, bodySpan, span, rfl, ha⟩ | ⟨name, type, init, span, rfl, ha⟩ |
    ⟨-, -, hv, code, l, -, rfl⟩ := addStmt_ok ha
  · obtain ⟨i, b, -, -, -, -, -, hix, -⟩ := addFunction_adds ha
    rw [hix]
    exact h
  · obtain ⟨v, code, -, rfl⟩ := addGlobal_ok ha
    have hgrow : Ready free symbols functions { st.indices with
        globals := (name.symbol, st.module.globalTypes.length.toUInt32) :: st.indices.globals } {} Δ :=
      { h with places := fun scope hscope x id hx =>
          (h.places scope hscope x id hx).imp_right (List.mem_cons_of_mem _) }
    exact hgrow.declare hr.1 (fun hfree => (hs hfree).1) (.inr (List.mem_cons_self ..))
  · cases s with
    | var => cases hv
    | _ => exact h

theorem addAll_settles {ss : List Typed.Stmt} (h : Ready free symbols functions st.indices {} Δ)
    (hr : Typed.Stmt.AllResolved symbols functions Δ ss) (hs : free → Typed.Stmt.AllStringFree ss) :
    Lowered.Settles free (ss.foldlM (addStmt options functions) st) := by
  induction ss generalizing st Δ with
  | nil => exact Lowered.settles_ok _
  | cons s ss ih =>
    rw [List.foldlM_cons]
    have hone := fun hfree => (hs hfree).1
    refine (addStmt_settles h hr.1 hone).bind fun mid hm => ?_
    exact ih (addStmt_ready h hr.1 hone hm) hr.2 fun hfree => (hs hfree).2

theorem importAll_settles {sigs : List Signature} (hf : st.module.functions = [])
    (hs : free → ∀ s ∈ sigs, s.StringFree) :
    Lowered.Settles free (sigs.foldlM (importFunction options) st) := by
  induction sigs generalizing st with
  | nil => exact Lowered.settles_ok _
  | cons s sigs ih =>
    rw [List.foldlM_cons]
    refine Lowered.Settles.bind ?_ fun mid hm => ?_
    · refine (Signature.lower_settles fun hfree => hs hfree s (List.mem_cons_self ..)).bind fun type _ => ?_
      have himport : ∃ r, st.module.importFunction options.importModule s.name type = .ok r := by
        simp [Wasm.Module.importFunction, hf]
      obtain ⟨r, hr⟩ := himport
      rw [hr]
      exact Lowered.settles_ok _
    · obtain ⟨-, rfl⟩ := importFunction_ok hm
      exact ih hf fun hfree s hs' => hs hfree s (List.mem_cons_of_mem _ hs')

theorem declareFunctions_settles {name : Option String} (hs : free → ∀ s ∈ functions.signatures, s.StringFree) :
    (declareFunctions options functions { module := { name } }).Settles free := by
  refine (importAll_settles rfl fun hfree s hmem => ?_).bind fun _ _ => Lowered.settles_ok _
  exact hs hfree s (List.mem_filter.1 hmem).1

end Lowering

/-- A program whose variables are resolved is lowered, unless there is a string to stop at. -/
theorem Typed.Program.lower_settles {typed : Typed.Program}
    (hr : Stmt.AllResolved typed.symbols typed.functions [Names.empty] typed.body) (options : LowerOptions) :
    (typed.lower options).Settles typed.StringFree := by
  refine (Lowering.declareFunctions_settles StringFree.signatures).bind fun st hst => ?_
  have hrecorded := (Lowering.declareFunctions_recorded hst).2
  have hready : Ready typed.StringFree typed.symbols typed.functions st.indices {} [Names.empty] := by
    refine Ready.pushEmpty ⟨by simp, by simp, fun name s hs => ?_, StringFree.signatures⟩
    rw [← FunctionTable.name_of_get? hs]
    exact hrecorded s (FunctionTable.mem_of_get? hs)
  exact (Lowering.addAll_settles hready hr StringFree.body).bind fun _ _ => Lowered.settles_ok _

theorem Program.check_resolved {p : Program} {typed : Typed.Program} (h : p.check = .ok typed) :
    Typed.Stmt.AllResolved typed.symbols typed.functions [Names.empty] typed.body := by
  obtain ⟨body, c, hs, rfl⟩ := check_eq_ok.1 h
  exact Checker.stmts_resolved Env.wellFormed_empty ⟨List.prefix_rfl, List.prefix_rfl⟩ hs

/-- Whatever can be lowered is free of strings: its imports were lowered first, and each of the other
signatures with the function that has it. -/
theorem Program.stringFree_of_lower {p : Program} {typed : Typed.Program} {options : LowerOptions}
    {m : Wasm.Module} (hp : p.check = .ok typed) (h : typed.lower options = .ok m) : typed.StringFree := by
  obtain ⟨c, st, fin, -, hdone, -, -, hst, hfin⟩ := lower_finished hp h
  have hadded : ∀ s ∈ typed.body, s.StringFree ∧
      ∀ q ∈ s.function?, ∃ sig, typed.functions.get? q.1 = some sig ∧ sig.StringFree := by
    intro s hs
    obtain ⟨before, after, hsplit⟩ := List.append_of_mem hs
    rw [hsplit] at hfin
    obtain ⟨mid, next, -, hadd, -⟩ := Lowering.foldlM_split hfin
    exact Lowering.stringFree_of_addStmt (check_flatInside hp s hs) hadd
  refine ⟨fun s hs => ?_, Typed.Stmt.allStringFree_iff.2 fun s hs => (hadded s hs).1⟩
  cases himp : s.isImported with
  | true =>
    have himports := (Lowering.declareFunctions_recorded hst).1
    exact Signature.stringFree_of_lower (himports s (List.mem_filter.2 ⟨hs, himp⟩))
  | false =>
    have hname : s.name ∈ (typed.body.filterMap Typed.Stmt.function?).map Prod.fst := by
      rw [← hdone.reached.names]
      exact List.mem_map_of_mem (List.mem_filter.2 ⟨hs, by simp [himp]⟩)
    obtain ⟨q, hq, hqname⟩ := List.mem_map.1 hname
    obtain ⟨x, hx, hxq⟩ := List.mem_filterMap.1 hq
    obtain ⟨sig, hsig, hfree⟩ := (hadded x hx).2 q hxq
    rw [hqname, FunctionTable.get?_of_mem hdone.names hs] at hsig
    obtain rfl := Option.some.inj hsig
    exact hfree

/-- An accepted program is lowered exactly if it is free of strings. Otherwise the lowering stops at a
string, and for no other reason. -/
theorem Program.lower_ok_iff_stringFree {p : Program} {typed : Typed.Program} (h : p.check = .ok typed)
    (options : LowerOptions) :
    ((∃ m, typed.lower options = .ok m) ↔ typed.StringFree) ∧
      (¬ typed.StringFree → ∃ context span,
        typed.lower options = .error (.unsupportedType .string context span)) := by
  obtain ⟨m, hm⟩ | ⟨hnot, context, span, he⟩ :=
    Typed.Program.lower_settles (check_resolved h) options
  · have hfree := stringFree_of_lower h hm
    exact ⟨⟨fun _ => hfree, fun _ => ⟨m, hm⟩⟩, fun hnot => (hnot hfree).elim⟩
  · refine ⟨⟨fun ⟨m, hm⟩ => ?_, fun hfree => (hnot hfree).elim⟩, fun _ => ⟨context, span, he⟩⟩
    cases hm.symm.trans he

theorem Program.lower_ok_iff_stringFree_same : ∃ p typed, Program.check p = .ok typed ∧
    ¬ typed.StringFree ∧ ∃ context span, typed.lower {} = .error (.unsupportedType .string context span) := by
  let p : Program := ⟨[.function ⟨"same", {}⟩
    (some ⟨[⟨⟨"a", {}⟩, ⟨.string, {}⟩, {}⟩, ⟨⟨"b", {}⟩, ⟨.string, {}⟩, {}⟩], {}⟩) ⟨.bool, {}⟩
    [.return_ (.binary .eq (.ident "a" {}) (.ident "b" {}) {}) {}] {} {}], {}⟩
  let typed : Typed.Program := ⟨[.function "same" [⟨⟨"a", 0, {}⟩, .string, {}⟩, ⟨⟨"b", 1, {}⟩, .string, {}⟩] .bool
    [.return_ (.binary .eq (.ident ⟨"a", 0, {}⟩ .string {}) (.ident ⟨"b", 1, {}⟩ .string {}) .bool {}) {}] {} {}],
    [⟨0, "a", .string, 1, some {}⟩, ⟨1, "b", .string, 1, some {}⟩],
    ⟨[{ name := "same", result := .bool, params := some [.string, .string], span := some {} }]⟩, {}⟩
  have hp : p.check = .ok typed := rfl
  have hnot : ¬ typed.StringFree := fun h =>
    (h.signatures _ (List.mem_singleton.2 rfl)).2 .string (List.mem_cons_self ..) rfl
  exact ⟨p, typed, hp, hnot, (lower_ok_iff_stringFree hp {}).2 hnot⟩

end ImpWasm
