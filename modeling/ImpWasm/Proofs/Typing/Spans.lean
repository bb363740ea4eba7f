import ImpWasm.Proofs.Lang.Trees
import ImpWasm.Proofs.Typing.Relabeling
set_option autoImplicit false

namespace ImpWasm

section Bare

/-- A place without its extent: whether there is one still shows. -/
def barePlace (span : Option Span) : Option Span := span.map fun _ => {}

def Symbol.bare (s : Symbol) : Symbol := { s with span := barePlace s.span }

def Signature.bare (s : Signature) : Signature := { s with span := barePlace s.span }

def FunctionTable.bare (t : FunctionTable) : FunctionTable := ⟨t.signatures.map Signature.bare⟩

namespace Typed

def Ident.bare (i : Ident) : Ident := { i with span := {} }

def Param.bare (p : Param) : Param := ⟨p.name.bare, p.type, {}⟩

mutual

def Expr.bare : Expr → Expr
  | .ident name type _ => .ident name.bare type {}
  | .int value _ => .int value {}
  | .string value _ => .string value {}
  | .bool value _ => .bool value {}
  | .binary op left right type _ => .binary op left.bare right.bare type {}
  | .call callee args type _ => .call callee (Expr.bareAll args) type {}

def Expr.bareAll : List Expr → List Expr
  | [] => []
  | e :: es => e.bare :: Expr.bareAll es

end

mutual

def Stmt.bare : Stmt → Stmt
  | .expr value _ => .expr value.bare {}
  | .var name type init _ => .var name.bare type (init.map Expr.bare) {}
  | .assign target value _ => .assign target.bare value.bare {}
  | .block body _ _ => .block (Stmt.bareAll body) {} {}
  | .function name params result body _ _ =>
    .function name (params.map Param.bare) result (Stmt.bareAll body) {} {}
  | .imported name params result _ => .imported name (params.map Param.bare) result {}
  | .return_ value _ => .return_ value.bare {}
  | .while_ condition body _ _ => .while_ condition.bare (Stmt.bareAll body) {} {}
  | .ifThen condition yes _ _ => .ifThen condition.bare (Stmt.bareAll yes) {} {}
  | .ifElse condition yes _ no _ _ => .ifElse condition.bare (Stmt.bareAll yes) {} (Stmt.bareAll no) {} {}

def Stmt.bareAll : List Stmt → List Stmt
  | [] => []
  | s :: ss => s.bare :: Stmt.bareAll ss

end

def Program.bare (p : Program) : Program :=
  ⟨Stmt.bareAll p.body, p.symbols.map Symbol.bare, p.functions.bare, {}⟩

end Typed

end Bare

def Relabeling.unplaced : Relabeling := ⟨id, Function.injective_id, fun _ => {}, rfl⟩

section Unplaced

mutual

theorem Expr.relabel_unplaced : (e : Expr) → e.relabel .unplaced = e.bare
  | .ident .. | .int .. | .string .. | .bool .. => rfl
  | .binary op left right _ => by simp only [relabel, bare, left.relabel_unplaced, right.relabel_unplaced]; rfl
  | .call callee args _ => by simp only [relabel, bare, Expr.relabelAll_unplaced args]; rfl

theorem Expr.relabelAll_unplaced : (es : List Expr) → Expr.relabelAll .unplaced es = Expr.bareAll es
  | [] => rfl
  | e :: es => by simp only [relabelAll, bareAll, e.relabel_unplaced, Expr.relabelAll_unplaced es]

end

theorem Expr.relabel_eq_bare : Expr.relabel .unplaced = Expr.bare := funext Expr.relabel_unplaced

mutual

theorem Stmt.relabel_unplaced : (s : Stmt) → s.relabel .unplaced = s.bare
  | .expr .. | .return_ .. | .assign .. | .var .. => by simp only [relabel, bare, Expr.relabel_eq_bare]; rfl
  | .imported .. => rfl
  | .block body _ _ => by simp only [relabel, bare, Stmt.relabelAll_unplaced body]; rfl
  | .function name params result body _ _ => by simp only [relabel, bare, Stmt.relabelAll_unplaced body]; rfl
  | .while_ condition body _ _ => by
    simp only [relabel, bare, Expr.relabel_eq_bare, Stmt.relabelAll_unplaced body]; rfl
  | .ifThen condition yes _ _ => by
    simp only [relabel, bare, Expr.relabel_eq_bare, Stmt.relabelAll_unplaced yes]; rfl
  | .ifElse condition yes _ no _ _ => by
    simp only [relabel, bare, Expr.relabel_eq_bare, Stmt.relabelAll_unplaced yes, Stmt.relabelAll_unplaced no]
    rfl

theorem Stmt.relabelAll_unplaced : (ss : List Stmt) → Stmt.relabelAll .unplaced ss = Stmt.bareAll ss
  | [] => rfl
  | s :: ss => by simp only [relabelAll, bareAll, s.relabel_unplaced, Stmt.relabelAll_unplaced ss]

end

theorem Program.relabel_unplaced (p : Program) : p.relabel .unplaced = p.bare := by
  rw [relabel, Stmt.relabelAll_unplaced]
  rfl

namespace Typed

mutual

theorem Expr.relabel_unplaced : (e : Expr) → e.relabel .unplaced = e.bare
  | .ident .. | .int .. | .string .. | .bool .. => rfl
  | .binary op left right _ _ => by simp only [relabel, bare, left.relabel_unplaced, right.relabel_unplaced]; rfl
  | .call callee args _ _ => by simp only [relabel, bare, Expr.relabelAll_unplaced args]; rfl

theorem Expr.relabelAll_unplaced : (es : List Expr) → Expr.relabelAll .unplaced es = Expr.bareAll es
  | [] => rfl
  | e :: es => by simp only [relabelAll, bareAll, e.relabel_unplaced, Expr.relabelAll_unplaced es]

end

theorem Expr.relabel_eq_bare : Expr.relabel .unplaced = Expr.bare := funext Expr.relabel_unplaced

mutual

theorem Stmt.relabel_unplaced : (s : Stmt) → s.relabel .unplaced = s.bare
  | .expr .. | .return_ .. | .assign .. | .var .. => by simp only [relabel, bare, Expr.relabel_eq_bare]; rfl
  | .imported .. => rfl
  | .block body _ _ => by simp only [relabel, bare, Stmt.relabelAll_unplaced body]; rfl
  | .function name params result body _ _ => by simp only [relabel, bare, Stmt.relabelAll_unplaced body]; rfl
  | .while_ condition body _ _ => by
    simp only [relabel, bare, Expr.relabel_eq_bare, Stmt.relabelAll_unplaced body]; rfl
  | .ifThen condition yes _ _ => by
    simp only [relabel, bare, Expr.relabel_eq_bare, Stmt.relabelAll_unplaced yes]; rfl
  | .ifElse condition yes _ no _ _ => by
    simp only [relabel, bare, Expr.relabel_eq_bare, Stmt.relabelAll_unplaced yes, Stmt.relabelAll_unplaced no]
    rfl

theorem Stmt.relabelAll_unplaced : (ss : List Stmt) → Stmt.relabelAll .unplaced ss = Stmt.bareAll ss
  | [] => rfl
  | s :: ss => by simp only [relabelAll, bareAll, s.relabel_unplaced, Stmt.relabelAll_unplaced ss]

end

theorem Program.relabel_unplaced (p : Program) : p.relabel .unplaced = p.bare := by
  rw [relabel, Stmt.relabelAll_unplaced]
  rfl

end Typed

end Unplaced

/-- Programs that differ in places only are checked to programs that differ in places only. -/
theorem Program.check_eq_ok_of_bare_eq {p q : Program} {typed : Typed.Program} (h : q.bare = p.bare)
    (hc : p.check = .ok typed) : ∃ typed', q.check = .ok typed' ∧ typed'.bare = typed.bare := by
  have hp := p.check_relabel .unplaced
  have hq := q.check_relabel .unplaced
  rw [relabel_unplaced, hc] at hp
  rw [relabel_unplaced, h, hp] at hq
  cases hr : q.check with
  | ok typed' =>
    rw [hr] at hq
    refine ⟨typed', rfl, ?_⟩
    rw [← Typed.Program.relabel_unplaced, ← Typed.Program.relabel_unplaced]
    exact (Except.ok.inj hq).symm
  | error errors => simp [hr] at hq

end ImpWasm
