import ImpWasm.Proofs.Lang.Matched
import ImpWasm.Proofs.Lang.Precedence
set_option autoImplicit false

namespace ImpWasm

open Peg (Mode ParseTree)
open Grammar (Matches Reads Refuses)

def tokenExpr? (span : Span) (w : List Char) : Option Expr :=
  if Rule.accepts .intLiteral w then (Decimal.int32? w).map (.int · span)
  else if Rule.accepts .stringLiteral w then
    match Escape.decode (span.start + 1) w.tail.dropLast with
    | .ok value => some (.string (String.ofList value) span)
    | .error _ => none
  else if isName w then some (.ident (String.ofList w) span)
  else if w = boolChars true then some (.bool true span)
  else if w = boolChars false then some (.bool false span)
  else none

mutual

/-- From one cursor to the other stands an operand: a token, a call, or an expression in parentheses. -/
inductive Operand : Cursor → Expr → Cursor → Prop
  | token {c d : Cursor} {w : List Char} {e : Expr} (text : c.Past w d) (token : Token d.rest false w true)
    (value : tokenExpr? ⟨c.pos, d.pos⟩ w = some e) : Operand c e d
  | call {c n o p d : Cursor} {w : List Char} {args : List Expr} (name : isName w = true) (text : c.Past w n)
    (token : Token n.rest false w true) (opens : n.skip.Past ['('] o) (inner : Arguments o.skip args p)
    (closes : p.skip.Past [')'] d) :
    Operand c (.call ⟨String.ofList w, ⟨c.pos, n.pos⟩⟩ args ⟨c.pos, d.pos⟩) d
  | group {c o p d : Cursor} {e : Expr} (opens : c.Past ['('] o) (inner : Expression o.skip e p)
    (closes : p.skip.Past [')'] d) : Operand c e d

inductive Arguments : Cursor → List Expr → Cursor → Prop
  | none {c : Cursor} : Arguments c [] c
  | some {c p d : Cursor} {e : Expr} {es : List Expr} (first : Expression c e p) (more : MoreArguments p es d) :
    Arguments c (e :: es) d

inductive MoreArguments : Cursor → List Expr → Cursor → Prop
  | done {c : Cursor} : MoreArguments c [] c
  | next {c o p d : Cursor} {e : Expr} {es : List Expr} (comma : c.skip.Past [','] o)
    (first : Expression o.skip e p) (more : MoreArguments p es d) : MoreArguments c (e :: es) d

/-- A chain of operands and operators, as the tree in which precedence holds. -/
inductive Expression : Cursor → Expr → Cursor → Prop
  | chain {c p d : Cursor} {t : Chain} (climbs : t.Climbs) (first : Operand c t.first p)
    (links : Links p t.links d) : Expression c t.toExpr d

inductive Links : Cursor → List (Operator × Expr) → Cursor → Prop
  | done {c : Cursor} : Links c [] c
  | next {c o p d : Cursor} {op : Operator} {e : Expr} {links : List (Operator × Expr)}
    (sign : c.skip.Past op.chars o) (operand : Operand o.skip e p) (more : Links p links d) :
    Links c ((op, e) :: links) d

end

section Sound

variable {c d : Cursor} {ts : List (ParseTree Rule)}

theorem tokenExpr?_bool (span : Span) (b : Bool) : tokenExpr? span (boolChars b) = some (.bool b span) := by
  cases b <;> rfl

theorem tokenExpr?_name (span : Span) {w : List Char} (h : isName w = true) :
    tokenExpr? span w = some (.ident (String.ofList w) span) := by
  cases w with
  | nil => cases h
  | cons c k =>
    obtain ⟨sign, quote, digit⟩ := not_symbol_of_isIdentStart (isName_cons.1 h).1
    simp [tokenExpr?, Rule.accepts, sign, quote, digit, h]

section Tokens

variable {t : ParseTree Rule} {e : Expr}

theorem operand_of_bool (h : Matches grammar .spaced (.rule .boolLiteral) c (some ([t], d)))
    (he : exprOf t = .ok e) : Operand c e d := by
  obtain ⟨w, same, text, accepted, token⟩ := matches_word wordRule_bool rfl h
  obtain ⟨b, rfl⟩ := accepts_bool.1 accepted
  cases same
  have word : isOperandWord (boolChars b) = true := by cases b <;> decide
  refine .token text (by rw [← word]; exact token false) ?_
  simp only [exprOf, Except.ok.injEq] at he
  rw [tokenExpr?_bool, ← he]
  cases b <;> rfl

theorem operand_of_int (h : Matches grammar .spaced (.rule .intLiteral) c (some ([t], d)))
    (he : exprOf t = .ok e) : Operand c e d := by
  obtain ⟨w, same, text, accepted, token⟩ := matches_int h
  cases same
  refine .token text token ?_
  simp only [exprOf, intOf] at he
  split at he
  · rename_i v hv
    cases he
    simp [tokenExpr?, accepted, hv]
  · cases he

theorem operand_of_string (h : Matches grammar .spaced (.rule .stringLiteral) c (some ([t], d)))
    (he : exprOf t = .ok e) : Operand c e d := by
  obtain ⟨k, o, p, content, opens, inside, closes, same⟩ := matches_string h
  cases same
  have text := (opens.trans inside).trans closes
  have start : o.pos = c.pos + 1 := opens.pos
  refine .token text (.string content) ?_
  simp only [exprOf, stringOf, start] at he
  split at he
  · rename_i value hv
    cases he
    simp [tokenExpr?, Rule.accepts, isDigit, hv]
  · cases he

theorem operand_of_name (h : Matches grammar .spaced (.rule .identifier) c (some ([t], d)))
    (he : exprOf t = .ok e) : Operand c e d := by
  obtain ⟨w, same, text, accepted, token⟩ := matches_word wordRule_identifier rfl h
  cases same
  have name : isName w = true := accepted
  have word : isOperandWord w = true := by simp [isOperandWord, name]
  refine .token text (by rw [← word]; exact token false) ?_
  simp only [exprOf, Except.ok.injEq] at he
  rw [tokenExpr?_name _ name, he]

theorem operand_of_token {r : Rule} (hr : r ∈ [Rule.boolLiteral, .intLiteral, .stringLiteral, .identifier])
    (h : Matches grammar .spaced (.rule r) c (some ([t], d))) (he : exprOf t = .ok e) : Operand c e d := by
  simp only [List.mem_cons, List.not_mem_nil, or_false] at hr
  rcases hr with rfl | rfl | rfl | rfl
  · exact operand_of_bool h he
  · exact operand_of_int h he
  · exact operand_of_string h he
  · exact operand_of_name h he

end Tokens

/-- Where the tree of an expression was matched, the expression stands. -/
structure Stands (t : ParseTree Rule) (e : Expr) : Prop where
  operand {c d : Cursor} (h : Matches grammar .spaced Rule.operand c (some ([t], d))) : Operand c e d
  expression {c d : Cursor} (h : Matches grammar .spaced (.rule .expression) c (some ([t], d))) :
    ∃ p, Expression c e p ∧ p.skip = d.skip

theorem Stands.of_token {t : ParseTree Rule} {e : Expr} (he : exprOf t = .ok e) (call : t.rule ≠ .call)
    (whole : t.rule ≠ .expression) : Stands t e where
  operand h := by
    obtain ⟨r, hr, h⟩ | ⟨o, p, -, h, -⟩ := matches_operand h
    · obtain rfl | hr := List.mem_cons.1 hr
      · exact absurd (rule_of_matches h) call
      · exact operand_of_token hr h he
    · exact absurd (rule_of_matches h) whole
  expression h := absurd (rule_of_matches h) whole

structure StandAll (ts : List (ParseTree Rule)) (es : List Expr) : Prop where
  inner {c d : Cursor}
    (h : Matches grammar .spaced
      (.opt (.seq (.rule .expression) (.star (.seq (.text [',']) (.rule .expression))))) c (some (ts, d))) :
    ∃ p, Arguments c es p ∧ p.skip = d.skip
  more {c d : Cursor}
    (h : Matches grammar .spaced (.star (.seq (.text [',']) (.rule .expression))) c.skip (some (ts, d))) :
    ∃ p, MoreArguments c es p ∧ p.skip = d.skip

def StandLinked (ts : List (ParseTree Rule)) (links : List (Operator × Expr)) : Prop :=
  ∀ c d, Matches grammar .spaced (.star (.seq Rule.infixOp Rule.operand)) c.skip (some (ts, d)) →
    ∃ p, Links c links p ∧ p.skip = d.skip

theorem Stands.chain {t : ParseTree Rule} {us : List (ParseTree Rule)} {first : Expr} {span : Span}
    {links : List (Operator × Expr)} (ht : Stands t first) (hus : StandLinked us links) :
    Stands (.branch .expression span (t :: us)) (Chain.ofLinks first links).toExpr := by
  obtain ⟨start, chain, climbs⟩ := Chain.ofLinks_spec first links
  have whole : ∀ {c d : Cursor},
      Matches grammar .spaced (.rule .expression) c (some ([.branch .expression span (t :: us)], d)) →
      ∃ p, Expression c (Chain.ofLinks first links).toExpr p ∧ p.skip = d.skip := by
    intro c d h
    obtain ⟨u, vs, o, same, hu, hvs⟩ := matches_expression h
    cases same
    obtain ⟨p, hp, skip⟩ := hus o d hvs
    exact ⟨p, .chain climbs (start ▸ ht.operand hu) (chain.symm ▸ hp), skip⟩
  refine ⟨fun h => ?_, whole⟩
  obtain ⟨r, hr, h⟩ | ⟨o, p, opens, h, closes⟩ := matches_operand h
  · rw [← rule_of_matches h] at hr
    simp [ParseTree.rule] at hr
  · obtain ⟨q, inner, skip⟩ := whole h
    exact .group opens inner (skip ▸ closes)

theorem Stands.call {us : List (ParseTree Rule)} {args : List Expr} {span nameSpan : Span} {w : List Char}
    (hus : StandAll us args) :
    Stands (.branch .call span (.leaf .identifier nameSpan w :: us))
      (.call ⟨String.ofList w, nameSpan⟩ args span) where
  operand h := by
    obtain ⟨r, hr, h⟩ | ⟨o, p, opens, h, closes⟩ := matches_operand h
    · cases rule_of_matches h
      obtain ⟨n, w, us, o, p, same, name, text, token, opens, inner, closes⟩ := matches_call h
      cases same
      obtain ⟨q, inner, skip⟩ := hus.inner inner
      exact .call name text token opens inner (skip ▸ closes)
    · cases rule_of_matches h
  expression h := by
    cases rule_of_matches h

theorem StandAll.nil : StandAll [] [] where
  inner {c d} h := by
    obtain ⟨-, rfl⟩ | h := matches_opt h
    · exact ⟨d, .none, rfl⟩
    · obtain ⟨us, vs, o, same, first, -⟩ := matches_seq h
      obtain ⟨t, rfl, -⟩ := matches_rule_tree first
      cases same
  more {c d} h := by
    obtain ⟨-, rfl⟩ | ⟨us, vs, o, p, same, first, -⟩ := matches_star h
    · exact ⟨c, .done, c.skip_skip.symm⟩
    · obtain ⟨t, o, rfl, -⟩ := matches_nextArgument first
      cases same

theorem StandAll.cons {t : ParseTree Rule} {ts : List (ParseTree Rule)} {e : Expr} {es : List Expr}
    (ht : Stands t e) (hts : StandAll ts es) : StandAll (t :: ts) (e :: es) where
  inner h := by
    obtain ⟨same, -⟩ | h := matches_opt h
    · cases same
    · obtain ⟨us, vs, o, same, first, more⟩ := matches_seq h
      obtain ⟨u, rfl, -⟩ := matches_rule_tree first
      cases same
      obtain ⟨p, hp, skip⟩ := ht.expression first
      obtain ⟨q, hq, last⟩ := hts.more (skip ▸ more)
      exact ⟨q, .some hp hq, last⟩
  more h := by
    obtain ⟨same, -⟩ | ⟨us, vs, o, q, same, first, more, last⟩ := matches_star h
    · cases same
    · obtain ⟨u, b, rfl, comma, first⟩ := matches_nextArgument first
      cases same
      obtain ⟨p, hp, skip⟩ := ht.expression first
      obtain ⟨r, hr, last'⟩ := hts.more (skip ▸ more)
      exact ⟨r, .next comma hp hr, last'.trans last⟩

theorem StandLinked.nil : StandLinked [] [] := by
  intro c d h
  obtain ⟨-, rfl⟩ | ⟨us, vs, o, p, same, first, -⟩ := matches_star h
  · exact ⟨c, .done, c.skip_skip.symm⟩
  · obtain ⟨op, t, u, o, rfl, -⟩ := matches_link first
    cases same

theorem StandLinked.cons {o t : ParseTree Rule} {ts : List (ParseTree Rule)} {op : Operator} {e : Expr}
    {links : List (Operator × Expr)} (ho : o.rule.operator? = some op) (ht : Stands t e)
    (hts : StandLinked ts links) : StandLinked (o :: t :: ts) ((op, e) :: links) := by
  intro c d h
  obtain ⟨same, -⟩ | ⟨us, vs, p, q, same, first, more, last⟩ := matches_star h
  · cases same
  · obtain ⟨op', u, v, b, rfl, rule, sign, operand⟩ := matches_link first
    cases same
    obtain rfl := Option.some.inj (ho.symm.trans rule)
    obtain ⟨r, hr, last'⟩ := hts p q more
    exact ⟨r, .next sign (ht.operand operand) hr, last'.trans last⟩

theorem exprOf_stands_all :
    (∀ t e, exprOf t = .ok e → Stands t e) ∧
    (∀ ts es, exprsOf ts = .ok es → StandAll ts es) ∧
    (∀ ts links, linksOf ts = .ok links → StandLinked ts links) := by
  apply exprOf.mutual_induct
  case case1 =>
    intro span e he
    simp [exprOf, Parsed.missing] at he
  case case2 =>
    intro span t rest iht ihl e he
    simp only [exprOf, bind_eq_ok, pure_eq_ok] at he
    obtain ⟨first, hf, links, hl, rfl⟩ := he
    exact (iht first hf).chain (ihl links hl)
  case case3 =>
    intro span nameSpan name args iha e he
    simp only [exprOf, bind_eq_ok, pure_eq_ok] at he
    obtain ⟨es, hes, rfl⟩ := he
    exact .call (iha es hes)
  case case4 =>
    intro span w e he
    exact .of_token he (by simp [ParseTree.rule]) (by simp [ParseTree.rule])
  case case5 =>
    intro span w e he
    exact .of_token he (by simp [ParseTree.rule]) (by simp [ParseTree.rule])
  case case6 =>
    intro span content w e he
    exact .of_token he (by simp [ParseTree.rule]) (by simp [ParseTree.rule])
  case case7 =>
    intro span w e he
    exact .of_token he (by simp [ParseTree.rule]) (by simp [ParseTree.rule])
  case case8 =>
    intro t h1 h2 h3 h4 h5 h6 e he
    rw [exprOf.eq_8 t h1 h2 h3 h4 h5 h6] at he
    cases he
  case case9 =>
    intro es he
    simp only [exprsOf, Except.ok.injEq] at he
    exact he ▸ .nil
  case case10 =>
    intro t ts iht ihts es he
    simp only [exprsOf, bind_eq_ok, pure_eq_ok] at he
    obtain ⟨e, hte, es, hes, rfl⟩ := he
    exact .cons (iht e hte) (ihts es hes)
  case case11 =>
    intro links hl
    simp only [linksOf, Except.ok.injEq] at hl
    exact hl ▸ .nil
  case case12 =>
    intro t links hl
    cases hl
  case case13 =>
    intro o t rest ho links hl
    simp only [linksOf, ho] at hl
    cases hl
  case case14 =>
    intro o t rest op ho iht ihr links hl
    simp only [linksOf, ho, bind_eq_ok, pure_eq_ok] at hl
    obtain ⟨e, he, links, hls, rfl⟩ := hl
    exact .cons ho (iht e he) (ihr links hls)

end Sound

end ImpWasm
