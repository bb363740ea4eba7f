import ImpWasm.Proofs.Lang.Lexemes
import ImpWasm.Proofs.Outcome
import ImpWasm.Lang.Parser
set_option autoImplicit false

namespace ImpWasm

open Peg (ParseTree)

def Ident.bare (i : Ident) : Ident := ⟨i.name, {}⟩

def TypeRef.bare (t : TypeRef) : TypeRef := ⟨t.type, {}⟩

def Param.bare (p : Param) : Param := ⟨p.name.bare, p.type.bare, {}⟩

def ParamList.bare (l : ParamList) : ParamList := ⟨l.params.map Param.bare, {}⟩

mutual

def Expr.bare : Expr → Expr
  | .ident name _ => .ident name {}
  | .int value _ => .int value {}
  | .string value _ => .string value {}
  | .bool value _ => .bool value {}
  | .binary op left right _ => .binary op left.bare right.bare {}
  | .call callee args _ => .call callee.bare (Expr.bareAll args) {}

def Expr.bareAll : List Expr → List Expr
  | [] => []
  | e :: es => e.bare :: Expr.bareAll es

end

mutual

def Stmt.bare : Stmt → Stmt
  | .expr value _ => .expr value.bare {}
  | .var name type init _ => .var name.bare (type.map TypeRef.bare) (init.map Expr.bare) {}
  | .assign target value _ => .assign target.bare value.bare {}
  | .block body _ _ => .block (Stmt.bareAll body) {} {}
  | .function name params result body _ _ =>
    .function name.bare (params.map ParamList.bare) result.bare (Stmt.bareAll body) {} {}
  | .imported name params result _ => .imported name.bare (params.map ParamList.bare) result.bare {}
  | .return_ value _ => .return_ value.bare {}
  | .while_ condition body _ _ => .while_ condition.bare (Stmt.bareAll body) {} {}
  | .ifThen condition yes _ _ => .ifThen condition.bare (Stmt.bareAll yes) {} {}
  | .ifElse condition yes _ no _ _ =>
    .ifElse condition.bare (Stmt.bareAll yes) {} (Stmt.bareAll no) {} {}

def Stmt.bareAll : List Stmt → List Stmt
  | [] => []
  | s :: ss => s.bare :: Stmt.bareAll ss

end

@[simp] theorem Ident.bare_bare (i : Ident) : i.bare.bare = i.bare := rfl

@[simp] theorem TypeRef.bare_bare (t : TypeRef) : t.bare.bare = t.bare := rfl

@[simp] theorem Param.bare_bare (p : Param) : p.bare.bare = p.bare := rfl

@[simp] theorem ParamList.bare_bare (l : ParamList) : l.bare.bare = l.bare := by
  simp [ParamList.bare, Function.comp_def]

mutual

@[simp] theorem Expr.bare_bare : (e : Expr) → e.bare.bare = e.bare
  | .ident _ _ | .int _ _ | .string _ _ | .bool _ _ => rfl
  | .binary _ left right _ => by simp [Expr.bare, left.bare_bare, right.bare_bare]
  | .call _ args _ => by simp [Expr.bare, Expr.bareAll_bareAll args]

@[simp] theorem Expr.bareAll_bareAll :
    (es : List Expr) → Expr.bareAll (Expr.bareAll es) = Expr.bareAll es
  | [] => rfl
  | e :: es => by simp [Expr.bareAll, e.bare_bare, Expr.bareAll_bareAll es]

end

mutual

@[simp] theorem Stmt.bare_bare : (s : Stmt) → s.bare.bare = s.bare
  | .expr _ _ | .return_ _ _ | .assign _ _ _ => by simp [Stmt.bare]
  | .var _ _ _ _ | .imported _ _ _ _ => by simp [Stmt.bare, Function.comp_def]
  | .block body _ _ | .while_ _ body _ _ | .ifThen _ body _ _ => by
    simp [Stmt.bare, Stmt.bareAll_bareAll body]
  | .function _ _ _ body _ _ => by simp [Stmt.bare, Function.comp_def, Stmt.bareAll_bareAll body]
  | .ifElse _ yes _ no _ _ => by
    simp [Stmt.bare, Stmt.bareAll_bareAll yes, Stmt.bareAll_bareAll no]

@[simp] theorem Stmt.bareAll_bareAll :
    (ss : List Stmt) → Stmt.bareAll (Stmt.bareAll ss) = Stmt.bareAll ss
  | [] => rfl
  | s :: ss => by simp [Stmt.bareAll, s.bare_bare, Stmt.bareAll_bareAll ss]

end

/-- The program without the places where its parts stand in a text. -/
def Program.bare (p : Program) : Program := ⟨Stmt.bareAll p.body, {}⟩

section Expressions

/-- The tree of an expression around the tree of its only operand, unless it is one itself. -/
def expressionTree (whole : Bool) (t : ParseTree Rule) : ParseTree Rule :=
  if whole then t else .branch .expression {} [t]

mutual

def Expr.tree : Expr → ParseTree Rule
  | .ident name _ => .leaf .identifier {} name.toList
  | .int value _ => .leaf .intLiteral {} (Decimal.ofInt value.toInt)
  | .string value _ =>
    .branch .stringLiteral {} [.leaf .stringContent {} (Escape.encode value.toList)]
  | .bool value _ => .leaf .boolLiteral {} (boolChars value)
  | .binary op left right _ => .branch .expression {} [left.tree, .branch op.rule {} [], right.tree]
  | .call callee args _ =>
    .branch .call {} (.leaf .identifier {} callee.name.toList :: Expr.trees args)

def Expr.trees : List Expr → List (ParseTree Rule)
  | [] => []
  | e :: es => expressionTree e.isBinary e.tree :: Expr.trees es

end

def Expr.whole (e : Expr) : ParseTree Rule := expressionTree e.isBinary e.tree

/-- Every tree of this shape is read as the expression. -/
def Expr.ReadFrom (e : Expr) (t : ParseTree Rule) : Prop :=
  ∀ u, u.bare = t → ∃ e', exprOf u = .ok e' ∧ e'.bare = e.bare

theorem Operator.operator?_rule (op : Operator) : op.rule.operator? = some op := by
  cases op <;> rfl

@[simp] theorem Expr.span_bare (e : Expr) : e.bare.span = {} := by cases e <;> rfl

theorem exprOf_expressionTree {t : ParseTree Rule} {e : Expr} (h : exprOf t = .ok e) (whole : Bool) :
    exprOf (expressionTree whole t) = .ok e := by
  cases whole with
  | true => exact h
  | false =>
    simp only [expressionTree, Bool.false_eq_true, if_false, exprOf, linksOf, h]
    rfl

mutual

theorem Expr.exprOf_tree : (e : Expr) → exprOf e.tree = .ok e.bare
  | .ident name _ => by simp [Expr.tree, exprOf, Expr.bare]
  | .int value _ => by simp [Expr.tree, exprOf, intOf, int32?_ofInt, Expr.bare]
  | .string value _ => by simp [Expr.tree, exprOf, stringOf, Escape.decode_encode, Expr.bare]
  | .bool value _ => by cases value <;> rfl
  | .binary op l r _ => by
    have chain : (Chain.ofLinks l.bare [(op, r.bare)]).toExpr = .binary op l.bare r.bare {} := by
      simp [Chain.ofLinks, Chain.attach, Chain.toExpr, Span.merge]
    simp only [Expr.tree, exprOf, linksOf, ParseTree.rule, op.operator?_rule, l.exprOf_tree,
      r.exprOf_tree, Expr.bare, ← chain]
    rfl
  | .call callee args _ => by
    simp only [Expr.tree, exprOf, Expr.exprsOf_trees args]
    simp [Expr.bare, Ident.bare, bind, Except.bind, pure, Except.pure]

theorem Expr.exprsOf_trees : (es : List Expr) → exprsOf (Expr.trees es) = .ok (Expr.bareAll es)
  | [] => rfl
  | e :: es => by
    simp only [Expr.trees, exprsOf, exprOf_expressionTree e.exprOf_tree, Expr.exprsOf_trees es]
    rfl

end

theorem Expr.exprOf_whole (e : Expr) : exprOf e.whole = .ok e.bare :=
  exprOf_expressionTree e.exprOf_tree e.isBinary

end Expressions

section Statements

def Ident.tree (i : Ident) : ParseTree Rule := .leaf .identifier {} i.name.toList

def PrimType.tree (t : PrimType) : ParseTree Rule := .branch .primitiveType {} [.leaf t.rule {} t.chars]

def Param.tree (p : Param) : ParseTree Rule := .branch .param {} [p.name.tree, p.type.type.tree]

def ParamList.tree (l : ParamList) : ParseTree Rule := .branch .paramList {} (l.params.map Param.tree)

def signatureTrees (name : Ident) (params : Option ParamList) (result : TypeRef) :
    List (ParseTree Rule) :=
  name.tree :: (params.toList.map ParamList.tree ++ [result.type.tree])

def Rule.leaf (r : Rule) : ParseTree Rule := .leaf r {} (r.spelling.getD [])

mutual

def Stmt.tree : Stmt → ParseTree Rule
  | .expr value _ => .branch .exprStmt {} [value.whole]
  | .var name type init _ =>
    .branch .varDecl {}
      (name.tree :: (type.toList.map (TypeRef.type · |>.tree) ++ init.toList.map Expr.whole))
  | .assign target value _ => .branch .assign {} [target.tree, value.whole]
  | .block body _ _ => .branch .block {} (Stmt.trees body)
  | .function name params result body _ _ =>
    .branch .functionDecl {}
      (Rule.leaf .kwFn :: (signatureTrees name params result ++ [.branch .block {} (Stmt.trees body)]))
  | .imported name params result _ =>
    .branch .externDecl {} (Rule.leaf .kwExtern :: Rule.leaf .kwFn :: signatureTrees name params result)
  | .return_ value _ => .branch .returnStmt {} [Rule.leaf .kwReturn, value.whole]
  | .while_ condition body _ _ =>
    .branch .whileStmt {} [Rule.leaf .kwWhile, condition.whole, .branch .block {} (Stmt.trees body)]
  | .ifThen condition yes _ _ =>
    .branch .ifStmt {} [Rule.leaf .kwIf, condition.whole, .branch .block {} (Stmt.trees yes)]
  | .ifElse condition yes _ no _ _ =>
    .branch .ifStmt {} [Rule.leaf .kwIf, condition.whole, .branch .block {} (Stmt.trees yes),
      Rule.leaf .kwElse, .branch .block {} (Stmt.trees no)]

def Stmt.trees : List Stmt → List (ParseTree Rule)
  | [] => []
  | s :: ss => s.tree :: Stmt.trees ss

end

theorem Ident.identOf_tree (i : Ident) : identOf i.tree = .ok i.bare := by
  simp [Ident.tree, identOf, Ident.bare]

theorem TypeRef.typeRefOf_tree (t : TypeRef) : typeRefOf t.type.tree = .ok t.bare := by
  obtain ⟨type, span⟩ := t
  cases type <;> rfl

theorem Param.paramOf_tree (p : Param) : paramOf p.tree = .ok p.bare := by
  simp only [Param.tree, paramOf, p.name.identOf_tree, p.type.typeRefOf_tree]
  rfl

theorem ParamList.paramListOf_tree (l : ParamList) : paramListOf l.tree = .ok l.bare := by
  have items : ∀ ps : List Param, (ps.map Param.tree).mapM paramOf = .ok (ps.map Param.bare) := by
    intro ps
    induction ps with
    | nil => rfl
    | cons p ps ih =>
      simp only [List.map_cons, List.mapM_cons, p.paramOf_tree, ih]
      rfl
  simp only [ParamList.tree, paramListOf, items]
  rfl

theorem signatureOf_trees (name : Ident) (params : Option ParamList) (result : TypeRef) (span : Span)
    (more : List (ParseTree Rule)) :
    signatureOf span (signatureTrees name params result ++ more) =
      .ok (name.bare, params.map ParamList.bare, result.bare) := by
  cases params with
  | none =>
    simp only [signatureTrees, Option.toList, List.map_nil, List.nil_append, List.cons_append,
      signatureOf, name.identOf_tree, result.typeRefOf_tree]
    rfl
  | some l =>
    simp only [signatureTrees, Option.toList, List.map_cons, List.map_nil, List.cons_append,
      List.nil_append, signatureOf, name.identOf_tree]
    have params : paramListOf (.branch .paramList {} (l.params.map Param.tree)) = .ok l.bare :=
      l.paramListOf_tree
    simp only [ParamList.tree, params, result.typeRefOf_tree, bind, Except.bind]
    rfl

theorem declaredOf_trees (type : Option TypeRef) (init : Option Expr) :
    declaredOf (type.toList.map (TypeRef.type · |>.tree) ++ init.toList.map Expr.whole) =
      .ok (type.map TypeRef.bare, init.map Expr.bare) := by
  cases type with
  | none =>
    cases init with
    | none => rfl
    | some e =>
      have rule : e.whole.rule = .expression := by cases e <;> rfl
      simp only [Option.toList, List.map_nil, List.map_cons, List.nil_append, declaredOf, rule,
        e.exprOf_whole]
      rfl
  | some t =>
    cases init with
    | none =>
      simp only [Option.toList, List.map_nil, List.map_cons, List.append_nil, declaredOf,
        t.typeRefOf_tree]
      rfl
    | some e =>
      simp only [Option.toList, List.map_nil, List.map_cons, List.cons_append, List.nil_append,
        declaredOf, t.typeRefOf_tree, e.exprOf_whole]
      rfl

theorem lastBlockOf_append (span : Span) (ts : List (ParseTree Rule)) (bodySpan : Span)
    (body : List (ParseTree Rule)) :
    lastBlockOf span (ts ++ [.branch .block bodySpan body]) = (do return (← stmtsOf body, bodySpan)) := by
  induction ts with
  | nil => rfl
  | cons t ts ih =>
    obtain ⟨u, us, more⟩ := List.exists_cons_of_ne_nil (show ts ++ [.branch .block bodySpan body] ≠ [] by simp)
    rw [List.cons_append, more, lastBlockOf, ← more, ih]

mutual

theorem Stmt.stmtOf_tree : (s : Stmt) → stmtOf s.tree = .ok s.bare
  | .expr value _ | .return_ value _ => by
    simp only [Stmt.tree, stmtOf, value.exprOf_whole]
    rfl
  | .var name type init _ => by
    simp only [Stmt.tree, stmtOf, name.identOf_tree, declaredOf_trees]
    rfl
  | .assign target value _ => by
    simp only [Stmt.tree, stmtOf, target.identOf_tree, value.exprOf_whole]
    rfl
  | .block body _ _ => by
    simp only [Stmt.tree, stmtOf, Stmt.stmtsOf_trees body]
    rfl
  | .function name params result body _ _ => by
    simp only [Stmt.tree, stmtOf, signatureOf_trees, lastBlockOf_append, Stmt.stmtsOf_trees body]
    rfl
  | .imported name params result _ => by
    have signature := signatureOf_trees name params result {} []
    rw [List.append_nil] at signature
    simp only [Stmt.tree, stmtOf, signature]
    rfl
  | .while_ condition body _ _ | .ifThen condition body _ _ => by
    simp only [Stmt.tree, stmtOf, condition.exprOf_whole, Stmt.stmtsOf_trees body]
    rfl
  | .ifElse condition yes _ no _ _ => by
    simp only [Stmt.tree, stmtOf, condition.exprOf_whole, Stmt.stmtsOf_trees yes,
      Stmt.stmtsOf_trees no]
    rfl

theorem Stmt.stmtsOf_trees : (ss : List Stmt) → stmtsOf (Stmt.trees ss) = .ok (Stmt.bareAll ss)
  | [] => rfl
  | s :: ss => by
    simp only [Stmt.trees, stmtsOf, s.stmtOf_tree, Stmt.stmtsOf_trees ss]
    rfl

end

end Statements

end ImpWasm
