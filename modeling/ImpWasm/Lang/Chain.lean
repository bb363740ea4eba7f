import ImpWasm.Lang.Ast
set_option autoImplicit false

namespace ImpWasm

inductive Chain where
  | operand (e : Expr)
  | node (op : Operator) (left right : Chain)
  deriving Repr

namespace Chain

/-- Appends an operator and an operand. The new operation takes as its left side the largest part at
the right edge of the tree whose operator binds at least as tightly. -/
def attach (op : Operator) (e : Expr) : Chain → Chain
  | .operand x => .node op (.operand x) (.operand e)
  | .node o l r =>
    if o.level < op.level then .node o l (attach op e r) else .node op (.node o l r) (.operand e)

def ofLinks (first : Expr) (links : List (Operator × Expr)) : Chain :=
  links.foldl (fun t (op, e) => t.attach op e) (.operand first)

def toExpr : Chain → Expr
  | .operand e => e
  | .node op l r =>
    let left := l.toExpr
    let right := r.toExpr
    .binary op left right (left.span.merge right.span)

def first : Chain → Expr
  | .operand e => e
  | .node _ l _ => l.first

def links : Chain → List (Operator × Expr)
  | .operand _ => []
  | .node op l r => l.links ++ (op, r.first) :: r.links

@[simp] theorem first_attach (op : Operator) (e : Expr) (t : Chain) :
    (t.attach op e).first = t.first := by
  induction t with
  | operand x => rfl
  | node o l r _ _ =>
    simp only [attach]
    split <;> rfl

theorem links_attach (op : Operator) (e : Expr) (t : Chain) :
    (t.attach op e).links = t.links ++ [(op, e)] := by
  induction t with
  | operand x => rfl
  | node o l r _ ihr =>
    simp only [attach]
    split
    · simp [links, ihr]
    · simp [links, first]

end Chain

end ImpWasm
