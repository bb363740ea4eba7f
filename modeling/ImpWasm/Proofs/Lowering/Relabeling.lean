import ImpWasm.Compile
import ImpWasm.Proofs.Typing.Relabeling
set_option autoImplicit false

namespace ImpWasm

open Wasm (Instr ValType FuncType)

section Results

variable {α β : Type} {l : Relabeling}

/-- The second error is the first one with other places. A text in it may tell of a variable, and then it is the
same only if the names are. -/
inductive LowerError.Follows (l : Relabeling) : LowerError → LowerError → Prop
  | unsupportedType {type : PrimType} {context context' : String} {span : Span}
    (h : l.name = id → context' = context) :
    Follows l (.unsupportedType type context span) (.unsupportedType type context' (l.span span))
  | unknownSymbol {name name' : String} {span : Span} (h : l.name = id → name' = name) :
    Follows l (.unknownSymbol name span) (.unknownSymbol name' (l.span span))
  | module {cause : Wasm.ModuleError} : Follows l (.module cause) (.module cause)

inductive Lowered.Follows (l : Relabeling) : Lowered α → Lowered α → Prop
  | ok {a : α} : Follows l (.ok a) (.ok a)
  | error {e e' : LowerError} (h : e.Follows l e') : Follows l (.error e) (.error e')

theorem Lowered.Follows.bind {x y : Lowered α} {k k' : α → Lowered β} (h : Lowered.Follows l x y)
    (hk : ∀ a, Lowered.Follows l (k a) (k' a)) : Lowered.Follows l (x >>= k) (y >>= k') := by
  cases h with
  | ok => exact hk _
  | error h => exact .error h

theorem Lowered.Follows.discard {x y : Lowered α} (h : Lowered.Follows l x y) :
    Lowered.Follows l (discard x) (discard y) := by
  cases h with
  | ok => exact .ok
  | error h => exact .error h

end Results

variable (l : Relabeling)

theorem PrimType.lower_follows (t : PrimType) {context context' : String} (span : Span)
    (h : l.name = id → context' = context) :
    Lowered.Follows l (t.lower context span) (t.lower context' (l.span span)) := by
  cases t with
  | string => exact .error (.unsupportedType h)
  | int | bool => exact .ok

theorem Signature.lower_follows (s : Signature) : Lowered.Follows l s.lower (s.relabel l).lower := by
  have hspan : (s.relabel l).span.getD {} = l.span (s.span.getD {}) := by
    cases h : s.span <;> simp [relabel, h, l.span_empty]
  have hparams : ∀ (ts : List PrimType) (context : String) (span : Span),
      Lowered.Follows l (ts.mapM fun t => t.lower context span) (ts.mapM fun t => t.lower context (l.span span)) := by
    intro ts context span
    induction ts with
    | nil => exact .ok
    | cons t ts ih =>
      rw [List.mapM_cons, List.mapM_cons]
      exact (t.lower_follows l span fun _ => rfl).bind fun _ => ih.bind fun _ => .ok
  simp only [lower, hspan, show (s.relabel l).paramTypes = s.paramTypes from rfl,
    show (s.relabel l).name = s.name from rfl, show (s.relabel l).result = s.result from rfl]
  exact (hparams _ _ _).bind fun _ => (s.result.lower_follows l _ fun _ => rfl).bind fun _ => .ok

namespace Indices

variable (ix : Indices)

theorem access_follows (locals : Locals) (name : Typed.Ident) (onLocal onGlobal : UInt32 → Instr) :
    Lowered.Follows l (ix.access locals name onLocal onGlobal)
      (ix.access locals (name.relabel l) onLocal onGlobal) := by
  simp only [access, show (name.relabel l).symbol = name.symbol from rfl]
  cases locals.slots.lookup name.symbol with
  | some i => exact .ok
  | none =>
    cases ix.globals.lookup name.symbol with
    | some i => exact .ok
    | none => exact .error (.unknownSymbol fun h => congrFun h name.name)

theorem function_follows (name : String) (span : Span) :
    Lowered.Follows l (ix.function name span) (ix.function name (l.span span)) := by
  unfold function
  cases ix.functions.lookup name with
  | some i => exact .ok
  | none => exact .error (.unknownSymbol fun _ => rfl)

end Indices

namespace Typed

variable (ix : Indices)

section Expressions

variable (locals : Locals)

mutual

theorem Expr.lower_follows : (e : Expr) → Lowered.Follows l (e.lower ix locals) ((e.relabel l).lower ix locals)
  | .ident name _ _ => (ix.access_follows l locals name _ _).bind fun _ => .ok
  | .int .. | .bool .. => .ok
  | .string .. => .error (.unsupportedType fun _ => rfl)
  | .binary op left right _ _ => by
    simp only [relabel, lower, type_relabel, span_relabel]
    exact (left.type.lower_follows l _ fun _ => rfl).discard.bind fun _ =>
      left.lower_follows.bind fun _ => right.lower_follows.bind fun _ => .ok
  | .call callee args _ span =>
    (Expr.lowerAll_follows args).bind fun _ => (ix.function_follows l callee span).bind fun _ => .ok

theorem Expr.lowerAll_follows : (es : List Expr) →
    Lowered.Follows l (Expr.lowerAll ix locals es) (Expr.lowerAll ix locals (Expr.relabelAll l es))
  | [] => .ok
  | e :: es => e.lower_follows.bind fun _ => (Expr.lowerAll_follows es).bind fun _ => .ok

end

theorem lowerInit_follows (init : Option Expr) :
    Lowered.Follows l (lowerInit ix locals init) (lowerInit ix locals (init.map (Expr.relabel l))) := by
  cases init with
  | none => exact .ok
  | some e => exact e.lower_follows l ix locals

end Expressions

mutual

theorem Stmt.lower_follows : (s : Stmt) → (locals : Locals) →
    Lowered.Follows l (s.lower ix locals) ((s.relabel l).lower ix locals)
  | .expr value _, locals | .return_ value _, locals => (value.lower_follows l ix locals).bind fun _ => .ok
  | .var name type init span, locals => by
    refine (type.lower_follows l span fun h => ?_).bind fun _ =>
      (lowerInit_follows l ix locals init).bind fun _ => .ok
    simp only [Ident.relabel, h, id]
  | .assign target value _, locals =>
    (value.lower_follows l ix locals).bind fun _ => (ix.access_follows l locals target _ _).bind fun _ => .ok
  | .block body _ _, locals => Stmt.lowerAll_follows body locals
  | .function .., _ | .imported .., _ => .ok
  | .while_ condition body _ _, locals =>
    (condition.lower_follows l ix locals).bind fun _ => (Stmt.lowerAll_follows body locals).bind fun _ => .ok
  | .ifThen condition yes _ _, locals =>
    (condition.lower_follows l ix locals).bind fun _ => (Stmt.lowerAll_follows yes locals).bind fun _ => .ok
  | .ifElse condition yes _ no _ _, locals =>
    (condition.lower_follows l ix locals).bind fun _ => (Stmt.lowerAll_follows yes locals).bind fun (_, locals) =>
      (Stmt.lowerAll_follows no locals).bind fun _ => .ok

theorem Stmt.lowerAll_follows : (ss : List Stmt) → (locals : Locals) →
    Lowered.Follows l (Stmt.lowerAll ix ss locals) (Stmt.lowerAll ix (Stmt.relabelAll l ss) locals)
  | [], _ => .ok
  | s :: ss, locals =>
    (s.lower_follows locals).bind fun (_, locals) => (Stmt.lowerAll_follows ss locals).bind fun _ => .ok

end

theorem ofParams_relabel (params : List Param) :
    Locals.ofParams (params.map (Param.relabel l)) = .ofParams params := by
  have hslots : (params.map (Param.relabel l)).mapIdx (fun i p => (p.name.symbol, i.toUInt32)) =
      params.mapIdx fun i p => (p.name.symbol, i.toUInt32) := by
    apply List.ext_getElem?
    intro i
    simp only [List.getElem?_mapIdx, List.getElem?_map, Option.map_map]
    rfl
  rw [Locals.ofParams, hslots, List.length_map]
  rfl

theorem trailingReturn_relabel (body : List Stmt) :
    trailingReturn (Stmt.relabelAll l body) =
      (trailingReturn body).map fun (value, span) => (value.relabel l, l.span span) := by
  simp only [trailingReturn, Stmt.relabelAll_eq_map, List.getLast?_map]
  rcases body.getLast? with _ | s
  · rfl
  · cases s <;> rfl

theorem lowerBody_follows (params : List Param) (body : List Stmt) :
    Lowered.Follows l (lowerBody ix params body)
      (lowerBody ix (params.map (Param.relabel l)) (Stmt.relabelAll l body)) := by
  have hlast : (Stmt.relabelAll l body).dropLast = Stmt.relabelAll l body.dropLast := by
    simp only [Stmt.relabelAll_eq_map, List.map_dropLast]
  simp only [lowerBody, trailingReturn_relabel, ofParams_relabel, hlast]
  rcases trailingReturn body with _ | ⟨value, span⟩
  · exact (Stmt.lowerAll_follows l ix body _).bind fun _ => .ok
  · exact (Stmt.lowerAll_follows l ix body.dropLast _).bind fun (_, locals) =>
      (value.lower_follows l ix locals).bind fun _ => .ok

theorem constant?_relabel (init : Option Expr) : constant? (init.map (Expr.relabel l)) = constant? init := by
  rcases init with _ | e
  · rfl
  · cases e <;> rfl

end Typed

namespace Lowering

variable (options : LowerOptions) (functions : FunctionTable)

theorem foldlM_follows {α : Type} {f : α → α} {step step' : Lowering → α → Lowered Lowering}
    (h : ∀ st a, Lowered.Follows l (step st a) (step' st (f a))) (as : List α) (st : Lowering) :
    Lowered.Follows l (as.foldlM step st) ((as.map f).foldlM step' st) := by
  induction as generalizing st with
  | nil => exact .ok
  | cons a as ih =>
    rw [List.map_cons, List.foldlM_cons, List.foldlM_cons]
    exact (h st a).bind ih

theorem liftModule_follows {α : Type} (x : Except Wasm.ModuleError α) :
    Lowered.Follows l (liftModule x) (liftModule x) := by
  cases x with
  | ok a => exact .ok
  | error e => exact .error .module

theorem importFunction_follows (st : Lowering) (s : Signature) :
    Lowered.Follows l (importFunction options st s) (importFunction options st (s.relabel l)) :=
  (s.lower_follows l).bind fun _ => (liftModule_follows l _).bind fun _ => .ok

theorem declareFunctions_follows (st : Lowering) :
    Lowered.Follows l (declareFunctions options functions st)
      (declareFunctions options (functions.relabel l) st) := by
  have himports : (functions.relabel l).signatures.filter (·.isImported) =
      (functions.signatures.filter (·.isImported)).map (Signature.relabel l) := by
    simp only [FunctionTable.relabel, List.filter_map]
    rfl
  have hnames : ((functions.relabel l).signatures.filter (! ·.isImported)).map Signature.name =
      (functions.signatures.filter (! ·.isImported)).map Signature.name := by
    simp only [FunctionTable.relabel, List.filter_map, List.map_map]
    rfl
  simp only [declareFunctions, himports, hnames]
  exact (foldlM_follows l (importFunction_follows l options) _ st).bind fun _ => .ok

theorem addFunction_follows (st : Lowering) (name : String) (params : List Typed.Param) (body : List Typed.Stmt)
    (span : Span) :
    Lowered.Follows l (st.addFunction options functions name params body span)
      (st.addFunction options (functions.relabel l) name (params.map (Typed.Param.relabel l))
        (Typed.Stmt.relabelAll l body) (l.span span)) := by
  simp only [addFunction, FunctionTable.get?_relabel]
  cases functions.get? name with
  | none => exact .error (.unknownSymbol fun _ => rfl)
  | some s =>
    exact (s.lower_follows l).bind fun _ => (Typed.lowerBody_follows l st.indices params body).bind fun _ => .ok

theorem addGlobal_follows (st : Lowering) (name : Typed.Ident) (type : PrimType) (init : Option Typed.Expr)
    (span : Span) :
    Lowered.Follows l (st.addGlobal name type init span)
      (st.addGlobal (name.relabel l) type (init.map (Typed.Expr.relabel l)) (l.span span)) := by
  simp only [addGlobal, Typed.constant?_relabel]
  refine (type.lower_follows l span fun h => ?_).bind fun _ => (liftModule_follows l _).bind fun _ => ?_
  · simp only [Typed.Ident.relabel, h, id]
  · cases Typed.constant? init with
    | some v => exact .ok
    | none => exact (Typed.lowerInit_follows l _ _ init).bind fun _ => .ok

theorem addStmt_follows (st : Lowering) (s : Typed.Stmt) :
    Lowered.Follows l (st.addStmt options functions s)
      (st.addStmt options (functions.relabel l) (s.relabel l)) := by
  cases s with
  | function name params _ body _ span => exact addFunction_follows l options functions st name params body span
  | imported => exact .ok
  | var name type init span => exact addGlobal_follows l st name type init span
  | _ => exact (Typed.Stmt.lower_follows l _ _ _).bind fun _ => .ok

end Lowering

theorem Typed.Program.lower_follows (options : LowerOptions) (p : Program) :
    Lowered.Follows l (p.lower options) ((p.relabel l).lower options) := by
  simp only [lower, relabel, Stmt.relabelAll_eq_map]
  exact (Lowering.declareFunctions_follows l options p.functions _).bind fun st =>
    (Lowering.foldlM_follows l (Lowering.addStmt_follows l options p.functions) p.body st).bind fun _ => .ok

end ImpWasm
