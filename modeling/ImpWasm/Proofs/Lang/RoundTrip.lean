import ImpWasm.Proofs.Lang.Spanless
import ImpWasm.Proofs.Lang.Statements
set_option autoImplicit false

namespace ImpWasm

open Peg (Mode ParseTree)
open Peg.ParseTree (of_bare_branch of_bareAll_cons of_bareAll_singleton rule_bare)
open Grammar (Reads Refuses Idles)

section Statements

theorem leadWord_name_ne_else {name w : List Char} (hn : isName name = true) (hw : leadWord w = []) :
    leadWord (name ++ w) ≠ ['e', 'l', 's', 'e'] := by
  rw [leadWord_name hn hw]
  rintro rfl
  cases hn

theorem Stmt.readable_expr {e : Expr} (hw : e.WellFormed) (span : Span) : (Stmt.expr e span).Readable where
  opens _ := (e.readable hw).opens.append _
  lead _ rest := by
    have lead := (e.notDeclaration hw (';' :: rest) (.inl (endsExpr_semicolon rest))).lead
    rw [Stmt.laidOut, List.append_assoc]
    exact fun h => lead (h ▸ by decide)
  reads _ _ _ := reads_expr (e.readable hw) hw

theorem Stmt.readable_assign {target : Ident} (hn : target.WellFormed) {e : Expr} (he : e.Readable)
    (span : Span) : (Stmt.assign target e span).Readable := by
  have text : assignChars target.name e.chars =
      target.name.toList ++ ' ' :: '=' :: ' ' :: (e.chars ++ [';']) := by simp [assignChars]
  refine ⟨fun _ => ?_, fun _ rest => ?_, fun _ rest _ => ?_⟩
  · rw [Stmt.laidOut, text]
    exact (opens_name hn).append _
  · rw [Stmt.laidOut, text, List.append_assoc]
    exact leadWord_name_ne_else hn rfl
  · rw [Stmt.laidOut, text]
    exact reads_assign hn he

theorem Stmt.readable_var {name : Ident} (hn : name.WellFormed) {type : Option TypeRef} {init : Option Expr}
    (hs : type.isSome ∨ init.isSome) (he : ∀ e ∈ init, e.Readable) (span : Span) :
    (Stmt.var name type init span).Readable := by
  have reads : ∃ w, (∀ k, (Stmt.var name type init span).laidOut k = name.name.toList ++ w) ∧
      (∀ rest, leadWord (w ++ rest) = []) ∧
      ∀ rest, Reads grammar .spaced Rule.statement (name.name.toList ++ w) rest
        [(Stmt.var name type init span).tree] := by
    cases type with
    | none =>
      cases init with
      | none => simp at hs
      | some e =>
        refine ⟨' ' :: ':' :: '=' :: ' ' :: (e.chars ++ [';']), fun _ => ?_, fun _ => rfl,
          fun _ => reads_var_init hn (he e rfl)⟩
        simp [Stmt.laidOut, varChars]
    | some t =>
      cases init with
      | none =>
        refine ⟨':' :: ' ' :: (t.type.chars ++ [';']), fun _ => ?_, fun _ => rfl,
          fun _ => reads_var_type hn t.type⟩
        simp [Stmt.laidOut, varChars]
      | some e =>
        refine ⟨':' :: ' ' :: (t.type.chars ++ ' ' :: '=' :: ' ' :: (e.chars ++ [';'])), fun _ => ?_,
          fun _ => rfl, fun _ => reads_var_both hn t.type (he e rfl)⟩
        simp [Stmt.laidOut, varChars]
  obtain ⟨w, text, stop, read⟩ := reads
  refine ⟨fun k => ?_, fun k rest => ?_, fun k rest _ => ?_⟩
  · rw [text]
    exact (opens_name hn).append _
  · rw [text, List.append_assoc]
    exact leadWord_name_ne_else hn (stop rest)
  · rw [text]
    exact read rest

theorem Stmt.readable_block {body : List Stmt} (h : ∀ s ∈ body, s.Readable) (bodySpan span : Span) :
    (Stmt.block body bodySpan span).Readable := by
  have lead : ∀ k rest, leadWord (braces k (Stmt.linesLaidOut (k + 1) body) ++ rest) = [] := by
    intro k rest
    unfold braces
    split <;> rfl
  refine ⟨fun k => opens_braces _ _, fun k rest => ?_, fun k rest _ => ?_⟩
  · rw [Stmt.laidOut, lead]
    decide
  · refine reads_unled ?_ (.left (reads_block h k rest))
    rw [Stmt.laidOut, lead]
    decide

mutual

theorem Stmt.readable : (s : Stmt) → s.WellFormed → s.Readable
  | .expr _ span, h => Stmt.readable_expr h span
  | .var _ _ _ span, h => Stmt.readable_var h.1 h.2.1 (fun e he => e.readable (h.2.2 e he)) span
  | .assign _ value span, h => Stmt.readable_assign h.1 (value.readable h.2) span
  | .block body bodySpan span, h => Stmt.readable_block (Stmt.readable_all body h) bodySpan span
  | .function _ _ result body _ _, h => by
    have inner := Stmt.readable_all body h.2.2
    refine ⟨fun _ => ⟨'f', _, rfl, rfl, by decide⟩, fun _ _ => (by decide : ['f', 'n'] ≠ ['e', 'l', 's', 'e']),
      fun k rest _ => ?_⟩
    exact reads_function h.1 h.2.1 result (opens_braces _ _) (reads_block inner k rest)
  | .imported _ _ result _, h => by
    refine ⟨fun _ => ⟨'e', _, rfl, rfl, by decide⟩,
      fun _ _ => (by decide : ['e', 'x', 't', 'e', 'r', 'n'] ≠ ['e', 'l', 's', 'e']), fun k rest _ => ?_⟩
    exact reads_imported h.1 h.2 result
  | .return_ value _, h => by
    refine ⟨fun _ => ⟨'r', _, rfl, rfl, by decide⟩,
      fun _ _ => (by decide : ['r', 'e', 't', 'u', 'r', 'n'] ≠ ['e', 'l', 's', 'e']), fun k rest _ => ?_⟩
    exact reads_return (value.readable h)
  | .while_ condition body _ _, h => by
    have inner := Stmt.readable_all body h.2
    refine ⟨fun _ => ⟨'w', _, rfl, rfl, by decide⟩,
      fun _ _ => (by decide : ['w', 'h', 'i', 'l', 'e'] ≠ ['e', 'l', 's', 'e']), fun k rest _ => ?_⟩
    exact reads_while (condition.readable h.1) (opens_braces _ _) (reads_block inner k rest)
  | .ifThen condition yes _ _, h => by
    have inner := Stmt.readable_all yes h.2
    refine ⟨fun _ => ⟨'i', _, rfl, rfl, by decide⟩,
      fun _ _ => (by decide : ['i', 'f'] ≠ ['e', 'l', 's', 'e']), fun k rest hr => ?_⟩
    exact reads_if (condition.readable h.1) (opens_braces _ _) (reads_then (reads_block inner k rest) hr)
  | .ifElse condition yes _ no _ _, h => by
    have first := Stmt.readable_all yes h.2.1
    have second := Stmt.readable_all no h.2.2
    refine ⟨fun _ => ⟨'i', _, rfl, rfl, by decide⟩,
      fun _ _ => (by decide : ['i', 'f'] ≠ ['e', 'l', 's', 'e']), fun k rest _ => ?_⟩
    rw [Stmt.laidOut, List.append_assoc]
    exact reads_if (condition.readable h.1) ((opens_braces _ _).append _)
      (reads_else (opens_braces _ _) (reads_block first k _) (reads_block second k rest))

theorem Stmt.readable_all : (ss : List Stmt) → Stmt.AllWellFormed ss → ∀ s ∈ ss, s.Readable
  | [], _ => by simp
  | s :: ss, h => List.forall_mem_cons.2 ⟨s.readable h.1, Stmt.readable_all ss h.2⟩

end

end Statements

section Programs

theorem reads_endOfInput : Reads grammar .spaced (.rule .endOfInput) [] [] [.branch .endOfInput {} []] := by
  have body : Idles grammar .spaced .endOfInput [] := fun _ => .atEnd rfl
  exact .plain rfl (by simp) body.reads

theorem reads_program {p : Program} (h : p.WellFormed) :
    Reads grammar .spaced (.rule .program) p.chars []
      [.branch .program {} (Stmt.trees p.body ++ [.branch .endOfInput {} []])] := by
  refine .plain rfl (by simp) ?_
  have start : Idles grammar .spaced .empty (p.chars ++ []) := fun _ => .empty
  cases hb : p.body with
  | nil =>
    have text : p.chars = [] := by simp [Program.chars, hb, Stmt.linesAll, Lines.chars, joinWith]
    rw [text] at start ⊢
    exact .idle_seq start rfl (.idle_seq refuses_statement_nil.star rfl reads_endOfInput)
  | cons s ss =>
    have text := Program.chars_eq h hb
    have each : ∀ x ∈ s :: ss, x.Readable := Stmt.readable_all (s :: ss) (hb ▸ h)
    have statements : Reads grammar .spaced (.star Rule.statement) _ [] _ :=
      reads_statements each 0 refuses_statement_nil (show leadWord [] ≠ _ by decide)
    have solid : Mode.spaced.trim (p.chars ++ []) = p.chars ++ [] := by
      rw [text]
      exact (((each s (by simp)).opens 0).append _ |>.append _).trim _
    rw [text] at start solid ⊢
    have whole := statements.seq (w := []) rfl reads_endOfInput
    rw [List.append_nil] at whole
    exact .idle_seq start solid whole

theorem Stmt.rule_tree (s : Stmt) : s.tree.rule ≠ .endOfInput := by
  cases s <;> simp [Stmt.tree, ParseTree.rule]

theorem filter_statements {ss : List Stmt} {items : List (ParseTree Rule)}
    (h : ParseTree.bareAll items = Stmt.trees ss ++ [.branch .endOfInput {} []]) :
    ParseTree.bareAll (items.filter fun t => t.rule ≠ .endOfInput) = Stmt.trees ss := by
  induction ss generalizing items with
  | nil =>
    obtain ⟨t, rfl, ht⟩ := of_bareAll_singleton h
    have rule : t.rule = .endOfInput := by
      rw [← rule_bare, ht]
      rfl
    simp [rule, ParseTree.bareAll, Stmt.trees]
  | cons s ss ih =>
    obtain ⟨t, ts, rfl, ht, hts⟩ := of_bareAll_cons h
    have rule : t.rule ≠ .endOfInput := by
      rw [← rule_bare, ht]
      exact s.rule_tree
    have rest := ih hts
    simp only [List.filter_cons, ne_eq, rule, not_false_eq_true, decide_true, if_true,
      ParseTree.bareAll, Stmt.trees, ht] at rest ⊢
    rw [rest]

/-- The text of a well-formed program is read as that program, up to spans. -/
theorem parse_text {p : Program} (h : p.WellFormed) :
    ∃ q, Program.parse p.text = .ok q ∧ q.bare = p.bare := by
  obtain ⟨found, d, matched, shape, -⟩ := reads_program h 0
  rw [List.append_nil] at matched
  obtain ⟨t, rfl, ht⟩ := of_bareAll_singleton shape
  obtain ⟨span, items, rfl, hitems⟩ := of_bare_branch ht
  obtain ⟨ss, hss, same⟩ := Stmt.readFrom_trees p.body (filter_statements hitems)
  have source : p.text.toList = p.chars := by simp [Program.text]
  have tree : parseTree .program p.text = .ok (.branch .program span items) := by
    simp only [parseTree, source, Grammar.parse_eq_of_matches grammarBounds matched]
  refine ⟨⟨ss, span⟩, ?_, by simp [Program.bare, same]⟩
  rw [Program.parse, bind_eq_ok]
  refine ⟨_, tree, ?_⟩
  simp only [bind_eq_ok, pure_eq_ok]
  exact ⟨ss, hss, rfl⟩

end Programs

section Spans

@[simp] theorem Expr.isBinary_bare (e : Expr) : e.bare.isBinary = e.isBinary := by cases e <;> rfl

mutual

@[simp] theorem Expr.chars_bare : (e : Expr) → e.bare.chars = e.chars
  | .ident _ _ | .int _ _ | .string _ _ | .bool _ _ => rfl
  | .binary _ left right _ => by simp [bare, chars, left.chars_bare, right.chars_bare]
  | .call _ args _ => by simp [bare, chars, Ident.bare, Expr.charsAll_bareAll args]

theorem Expr.charsAll_bareAll : (es : List Expr) → Expr.charsAll (Expr.bareAll es) = Expr.charsAll es
  | [] => rfl
  | e :: es => by simp [bareAll, charsAll, e.chars_bare, Expr.charsAll_bareAll es]

end

theorem ParamList.map_chars_bare (params : Option ParamList) :
    (toList (params.map bare)).map Param.chars = (toList params).map Param.chars := by
  cases params with
  | none => rfl
  | some l =>
    simp only [toList, bare, Option.map_some, List.map_map]
    rfl

mutual

theorem Stmt.lines_bare : (s : Stmt) → s.bare.lines = s.lines
  | .expr _ _ | .assign _ _ _ | .return_ _ _ => by simp [bare, lines, Ident.bare]
  | .var _ type init _ => by
    cases type <;> cases init <;> simp [bare, lines, Ident.bare, TypeRef.bare]
  | .block body _ _ => by simp [bare, lines, Stmt.linesAll_bareAll body]
  | .function _ params _ body _ _ => by
    simp [bare, lines, Ident.bare, TypeRef.bare, ParamList.map_chars_bare params,
      Stmt.linesAll_bareAll body]
  | .imported _ params _ _ => by
    simp [bare, lines, Ident.bare, TypeRef.bare, ParamList.map_chars_bare params]
  | .while_ _ body _ _ => by simp [bare, lines, Stmt.linesAll_bareAll body]
  | .ifThen _ yes _ _ => by simp [bare, lines, Stmt.linesAll_bareAll yes]
  | .ifElse _ yes _ no _ _ => by
    simp [bare, lines, Stmt.linesAll_bareAll yes, Stmt.linesAll_bareAll no]

theorem Stmt.linesAll_bareAll : (ss : List Stmt) → Stmt.linesAll (Stmt.bareAll ss) = Stmt.linesAll ss
  | [] => rfl
  | s :: ss => by simp [bareAll, linesAll, s.lines_bare, Stmt.linesAll_bareAll ss]

end

theorem Program.text_eq_of_bare {p q : Program} (h : q.bare = p.bare) : q.text = p.text := by
  have text (r : Program) : r.bare.text = r.text := by
    simp [Program.text, Program.chars, Program.bare, Stmt.linesAll_bareAll]
  rw [← text q, h, text p]

end Spans

/-- Reading undoes printing: the text of a well-formed program is read as that program up to spans. All
that is ever read is well formed, so the canonical text of what was read gives the same program again
and is its own canonical text. -/
theorem Program.parse_undoes_text :
    (∀ p : Program, p.WellFormed → ∃ q, Program.parse p.text = .ok q ∧ q.bare = p.bare) ∧
    ∀ (source : String) (p : Program), Program.parse source = .ok p →
      p.WellFormed ∧ ∃ q, Program.parse p.text = .ok q ∧ q.bare = p.bare ∧ q.text = p.text := by
  refine ⟨fun p h => parse_text h, fun source p h => ?_⟩
  have wellFormed := wellFormed_of_parse h
  obtain ⟨q, read, same⟩ := parse_text wellFormed
  exact ⟨wellFormed, q, read, same, text_eq_of_bare same⟩

def Program.escapes : Program :=
  ⟨[.function ⟨"f", {}⟩ (some ⟨[⟨⟨"x", {}⟩, ⟨.int, {}⟩, {}⟩], {}⟩) ⟨.string, {}⟩
      [.ifElse (.binary .eq (.binary .sub (.ident "x" {}) (.int (-1) {}) {}) (.int (-2147483648) {}) {})
        [.return_ (.string "\x7d\n\"\\ // \x7b" {}) {}] {} [] {} {}] {} {}], {}⟩

theorem Program.parse_undoes_text_escapes : Program.escapes.WellFormed ∧
    ∃ q r, Program.parse Program.escapes.text = .ok q ∧ q.bare = Program.escapes.bare ∧
      q.WellFormed ∧ Program.parse q.text = .ok r ∧ r.bare = q.bare ∧ r.text = q.text := by
  have wellFormed : Program.escapes.WellFormed := by
    refine ⟨⟨rfl, ?_, ⟨⟨⟨⟨rfl, trivial⟩, trivial⟩, ⟨trivial, trivial⟩, trivial⟩, trivial⟩⟩, trivial⟩
    rintro l ⟨⟩
    exact ⟨by simp, List.forall_mem_singleton.2 rfl⟩
  obtain ⟨q, read, same⟩ := parse_undoes_text.1 _ wellFormed
  obtain ⟨good, r, again, same', text⟩ := parse_undoes_text.2 _ q read
  exact ⟨wellFormed, q, r, read, same, good, again, same', text⟩

end ImpWasm
