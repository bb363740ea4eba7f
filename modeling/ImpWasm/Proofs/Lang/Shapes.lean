import ImpWasm.Proofs.Lang.Matched
import ImpWasm.Proofs.Peg.Places
set_option autoImplicit false

namespace ImpWasm

open Peg (Mode ParseTree)
open Grammar (Matches)

structure Cursor.Reached (source : List Char) (c : Cursor) : Prop where
  leads : Cursor.Leads ⟨0, source⟩ c
  skip : c.skip = c

theorem Cursor.Leads.reached {source : List Char} {c : Cursor} (h : Cursor.Leads ⟨0, source⟩ c) :
    Cursor.Reached source c.skip := ⟨h.trans c.leads_skip, c.skip_skip⟩

/-- A tree whose nodes were all matched in the source. -/
inductive Grown (source : List Char) : ParseTree Rule → Prop
  | leaf {r : Rule} {c d : Cursor} {w : List Char} (kind : r.kind = .lexeme) (reached : c.Reached source)
    (matched : Matches grammar .spaced (.rule r) c (some ([.leaf r ⟨c.pos, d.pos⟩ w], d))) :
    Grown source (.leaf r ⟨c.pos, d.pos⟩ w)
  | string {c e f d : Cursor} {k : List Char} (content : Content k) (reached : c.Reached source)
    (opens : c.Past ['"'] e) (inside : e.Past k f) (closes : f.Past ['"'] d) :
    Grown source (.branch .stringLiteral ⟨c.pos, d.pos⟩ [.leaf .stringContent ⟨e.pos, f.pos⟩ k])
  | branch {r : Rule} {c d : Cursor} {ts : List (ParseTree Rule)} (kind : r.kind = .plain)
    (reached : c.Reached source) (matched : Matches grammar .spaced r.body c (some (ts, d)))
    (below : ∀ t ∈ ts, Grown source t) : Grown source (.branch r ⟨c.pos, d.pos⟩ ts)

section Growing

variable {source : List Char}

theorem grown_of_matches {m : Mode} {p : Peg Rule} {c : Cursor} {o : Option (List (ParseTree Rule) × Cursor)}
    (h : Matches grammar m p c o) (hm : m = .spaced) (hc : c.Reached source) :
    ∀ x ∈ o, ∀ t ∈ x.1, Grown source t := by
  induction h with
  | empty | text | one | atEnd | noOpt | starNone | not => simp
  | noText | noOne | notAtEnd | noRule | noLeft | noRight | noNot => simp
  | @rule m r c d ts h ih =>
    subst hm
    have matched := h.rule
    simp only [Option.mem_def, Option.some.injEq, forall_eq'] at ih ⊢
    -- the rule's kind decides whether its tree has children: those of its body, the string's content, or none
    cases hk : r.kind with
    | plain =>
      have body : Matches grammar .spaced r.body c (some (ts, d)) := by
        rw [← enter_plain hk]
        exact h
      obtain ⟨us, same, -⟩ := matches_plain hk matched
      have tree : grammar.trees .spaced r c d ts = [.branch r ⟨c.pos, d.pos⟩ ts] :=
        congrArg (fun t => [t]) (grammar.tree_branch c d ts (by simp [grammar, hk]))
      rw [tree]
      simpa using Grown.branch hk hc body (ih (enter_plain hk) hc)
    | token =>
      obtain rfl : r = .stringLiteral := by cases r <;> first | rfl | cases hk
      obtain ⟨k, e, f, content, opens, inside, closes, same⟩ := matches_string matched
      rw [same]
      simpa using Grown.string content hc opens inside closes
    | lexeme =>
      obtain ⟨w, same, -⟩ := matches_lexeme hk matched
      rw [same] at matched ⊢
      simpa using Grown.leaf hk hc matched
  | seq ha hb iha ihb =>
    subst hm
    intro x hx
    cases hx
    exact List.forall_mem_append.2 ⟨iha rfl hc _ rfl, ihb rfl (hc.leads.trans ha.leads).reached _ rfl⟩
  | left ha iha => exact iha hm hc
  | right ha hb iha ihb => exact ihb hm hc
  | opt ha iha => exact iha hm hc
  | starLast ha hn iha ihn => exact iha hm hc
  | starMore ha hx hs iha ihx ihs =>
    subst hm
    intro x hx
    cases hx
    exact List.forall_mem_append.2 ⟨iha rfl hc _ rfl, ihs rfl (hc.leads.trans ha.leads).reached _ rfl⟩

end Growing

section Places

variable {source w : List Char} {span : Span} {r : Rule} {t : ParseTree Rule} {ts : List (ParseTree Rule)}

theorem Grown.marks_leaf (h : Grown source (.leaf r span w)) : span.Marks source w := by
  cases h with
  | leaf kind reached matched =>
    obtain ⟨w', same, past⟩ := matches_lexeme kind matched
    cases same
    exact past.marks reached.leads

theorem Grown.marks (h : Grown source t) : ∃ w, t.span.Marks source w := by
  cases h with
  | leaf kind reached matched => exact ⟨_, (Grown.leaf kind reached matched).marks_leaf⟩
  | string content reached opens inside closes =>
    exact ⟨_, ((opens.trans inside).trans closes).marks reached.leads⟩
  | branch kind reached matched below =>
    obtain ⟨w, past⟩ := matched.leads.past
    exact ⟨w, past.marks reached.leads⟩

theorem Grown.inOrder (h : Grown source (.branch r span ts)) :
    InOrder span.start (ts.map ParseTree.span) span.stop := by
  cases h with
  | string content reached opens inside closes =>
    exact ⟨by simp [opens.pos, ParseTree.span], by simp [inside.pos, ParseTree.span],
      by simp [InOrder, closes.pos, ParseTree.span]⟩
  | branch kind reached matched below => exact matched.inOrder

theorem Grown.yields (h : Grown source (.branch r span ts)) (hk : r.kind = .plain) :
    r.body.Yields (ts.map ParseTree.rule) := by
  cases h with
  | string => cases hk
  | branch kind reached matched below => exact (matched.built (by simp) _ rfl).1

theorem Grown.exists_leaf (h : Grown source t) (hr : t.rule = r) (hk : r.kind = .lexeme) :
    ∃ span w, t = .leaf r span w := by
  subst hr
  cases h with
  | leaf => exact ⟨_, _, rfl⟩
  | string => cases hk
  | branch kind => cases kind.symm.trans hk

theorem Grown.exists_branch (h : Grown source t) (hr : t.rule = r) (hk : r.kind = .plain) :
    ∃ span ts, t = .branch r span ts ∧ ∀ u ∈ ts, Grown source u := by
  subst hr
  cases h with
  | leaf kind => cases kind.symm.trans hk
  | string => cases hk
  | branch kind reached matched below => exact ⟨_, _, rfl, below⟩

theorem Grown.forall_below (h : Grown source (.branch r span ts)) (hk : r.kind = .plain) :
    ∀ t ∈ ts, Grown source t := by
  obtain ⟨_, _, same, below⟩ := h.exists_branch rfl hk
  cases same
  exact below

end Places

namespace Rule

def operands : List Rule := [.call, .boolLiteral, .intLiteral, .stringLiteral, .identifier, .expression]

def statements : List Rule :=
  [.externDecl, .functionDecl, .whileStmt, .ifStmt, .returnStmt, .block, .varDecl, .assign, .exprStmt]

theorem eq_of_operand_lexeme {r : Rule} (hr : r ∈ operands) (hk : r.kind = .lexeme) :
    r = .boolLiteral ∨ r = .intLiteral ∨ r = .identifier := by
  revert hr hk
  cases r <;> decide

theorem eq_of_operand_plain {r : Rule} (hr : r ∈ operands) (hk : r.kind = .plain) : r = .expression ∨ r = .call := by
  revert hr hk
  cases r <;> decide

theorem kind_of_mem_statements {r : Rule} (hr : r ∈ statements) : r.kind = .plain := by
  revert hr
  cases r <;> decide

end Rule

/-- Operators, each before an operand. -/
inductive LinkTrees : List (ParseTree Rule) → Prop
  | nil : LinkTrees []
  | cons {o t : ParseTree Rule} {ts : List (ParseTree Rule)} {op : Operator} (ho : o.rule = op.rule)
    (ht : t.rule ∈ Rule.operands) (more : LinkTrees ts) : LinkTrees (o :: t :: ts)

/-- Which trees stand below one, by its rule. -/
inductive Shape : Rule → List (ParseTree Rule) → Prop
  | expression {t : ParseTree Rule} {ts : List (ParseTree Rule)} (ht : t.rule ∈ Rule.operands)
    (links : LinkTrees ts) : Shape .expression (t :: ts)
  | call {name : ParseTree Rule} {args : List (ParseTree Rule)} (hn : name.rule = .identifier)
    (ha : ∀ t ∈ args, t.rule = .expression) : Shape .call (name :: args)
  | primitiveType {t : ParseTree Rule} {type : PrimType} (ht : t.rule.primType? = some type) :
    Shape .primitiveType [t]
  | param {name type : ParseTree Rule} (hn : name.rule = .identifier) (ht : type.rule = .primitiveType) :
    Shape .param [name, type]
  | paramList {ts : List (ParseTree Rule)} (hp : ∀ t ∈ ts, t.rule = .param) : Shape .paramList ts
  | function {word name result body : ParseTree Rule} (hw : word.rule = .kwFn) (hn : name.rule = .identifier)
    (hr : result.rule = .primitiveType) (hb : body.rule = .block) :
    Shape .functionDecl [word, name, result, body]
  | functionWith {word name params result body : ParseTree Rule} (hw : word.rule = .kwFn)
    (hn : name.rule = .identifier) (hp : params.rule = .paramList) (hr : result.rule = .primitiveType)
    (hb : body.rule = .block) : Shape .functionDecl [word, name, params, result, body]
  | imported {word word' name result : ParseTree Rule} (hw : word.rule = .kwExtern) (hw' : word'.rule = .kwFn)
    (hn : name.rule = .identifier) (hr : result.rule = .primitiveType) :
    Shape .externDecl [word, word', name, result]
  | importedWith {word word' name params result : ParseTree Rule} (hw : word.rule = .kwExtern)
    (hw' : word'.rule = .kwFn) (hn : name.rule = .identifier) (hp : params.rule = .paramList)
    (hr : result.rule = .primitiveType) : Shape .externDecl [word, word', name, params, result]
  | inferred {name init : ParseTree Rule} (hn : name.rule = .identifier) (hi : init.rule = .expression) :
    Shape .varDecl [name, init]
  | declared {name type : ParseTree Rule} (hn : name.rule = .identifier) (ht : type.rule = .primitiveType) :
    Shape .varDecl [name, type]
  | initialised {name type init : ParseTree Rule} (hn : name.rule = .identifier)
    (ht : type.rule = .primitiveType) (hi : init.rule = .expression) : Shape .varDecl [name, type, init]
  | block {ts : List (ParseTree Rule)} (hs : ∀ t ∈ ts, t.rule ∈ Rule.statements) : Shape .block ts
  | while_ {word condition body : ParseTree Rule} (hw : word.rule = .kwWhile)
    (hc : condition.rule = .expression) (hb : body.rule = .block) : Shape .whileStmt [word, condition, body]
  | ifThen {word condition yes : ParseTree Rule} (hw : word.rule = .kwIf) (hc : condition.rule = .expression)
    (hy : yes.rule = .block) : Shape .ifStmt [word, condition, yes]
  | ifElse {word condition yes word' no : ParseTree Rule} (hw : word.rule = .kwIf)
    (hc : condition.rule = .expression) (hy : yes.rule = .block) (hw' : word'.rule = .kwElse)
    (hn : no.rule = .block) : Shape .ifStmt [word, condition, yes, word', no]
  | return_ {word value : ParseTree Rule} (hw : word.rule = .kwReturn) (hv : value.rule = .expression) :
    Shape .returnStmt [word, value]
  | assign {target value : ParseTree Rule} (ht : target.rule = .identifier) (hv : value.rule = .expression) :
    Shape .assign [target, value]
  | exprStmt {value : ParseTree Rule} (hv : value.rule = .expression) : Shape .exprStmt [value]

section Yields

variable {p q : Peg Rule} {r : Rule} {w : List Char} {ts : List (ParseTree Rule)} {rs : List Rule}

theorem yields_rule (h : (Peg.rule r).Yields (ts.map ParseTree.rule)) : ∃ t, ts = [t] ∧ t.rule = r := by
  have same : ts.map ParseTree.rule = [r] := h
  obtain ⟨t, us, rfl, ht, rest⟩ := List.map_eq_cons_iff.1 same
  exact ⟨t, by rw [List.map_eq_nil_iff.1 rest], ht⟩

theorem yields_rule_seq (h : (Peg.seq (.rule r) q).Yields (ts.map ParseTree.rule)) :
    ∃ t us, ts = t :: us ∧ t.rule = r ∧ q.Yields (us.map ParseTree.rule) := by
  obtain ⟨_, ys, same, rfl, rest⟩ := h
  obtain ⟨t, us, rfl, ht, rfl⟩ := List.map_eq_cons_iff.1 same
  exact ⟨t, us, rfl, ht, rest⟩

theorem yields_text_seq (h : (Peg.seq (.text w) q).Yields rs) : q.Yields rs := by
  obtain ⟨_, ys, rfl, rfl, rest⟩ := h
  exact rest

theorem yields_opt_seq (h : (Peg.seq (.opt p) q).Yields rs) : q.Yields rs ∨ (Peg.seq p q).Yields rs := by
  obtain ⟨xs, ys, rfl, rfl | first, rest⟩ := h
  · exact .inl rest
  · exact .inr ⟨xs, ys, rfl, first, rest⟩

/-- Where an expression yields nothing at its end, only the trees before count. -/
theorem yields_seq_text (h : (Peg.seq p (.text w)).Yields rs) : p.Yields rs := by
  obtain ⟨xs, _, rfl, first, rfl⟩ := h
  rwa [List.append_nil]

theorem forall_of_yields_star {good : Rule → Prop} (h : (Peg.star p).Yields rs)
    (item : ∀ xs, p.Yields xs → ∀ r ∈ xs, good r) : ∀ r ∈ rs, good r := by
  obtain ⟨parts, rfl, each⟩ := h
  intro r hr
  obtain ⟨xs, hxs, hr⟩ := List.mem_flatten.1 hr
  exact item xs (each xs hxs) r hr

theorem yields_list (h : (Peg.seq (.rule r) (.star (.seq (.text w) (.rule r)))).Yields (ts.map ParseTree.rule)) :
    ∀ t ∈ ts, t.rule = r := by
  obtain ⟨t, us, rfl, ht, more⟩ := yields_rule_seq h
  have each : ∀ s ∈ us.map ParseTree.rule, s = r :=
    forall_of_yields_star more fun xs hxs s hs => by
      obtain rfl : xs = [r] := yields_text_seq hxs
      exact List.mem_singleton.1 hs
  exact List.forall_mem_cons.2 ⟨ht, List.forall_mem_map.1 each⟩

theorem yields_statement (h : Rule.statement.Yields rs) : ∃ r ∈ Rule.statements, rs = [r] := by
  simpa [Rule.statement, Rule.statements, Peg.alts, Peg.Yields] using h

theorem yields_operand (h : Rule.operand.Yields rs) : ∃ r ∈ Rule.operands, rs = [r] := by
  simpa [Rule.operand, Rule.operands, Peg.alts, Peg.seqs, Peg.Yields] using h

theorem yields_infixOp (h : Rule.infixOp.Yields rs) : ∃ op : Operator, rs = [op.rule] := by
  rw [infixOp_eq] at h
  simp only [Operator.tried, List.map_cons, List.map_nil, Peg.alts, Peg.Yields] at h
  rcases h with h | h | h | h | h | h | h | h | h | h | h | h | h <;> exact ⟨_, h⟩

theorem yields_statements (h : (Peg.star Rule.statement).Yields (ts.map ParseTree.rule)) :
    ∀ t ∈ ts, t.rule ∈ Rule.statements := by
  have each : ∀ s ∈ ts.map ParseTree.rule, s ∈ Rule.statements :=
    forall_of_yields_star h fun xs hxs s hs => by
      obtain ⟨r, hr, rfl⟩ := yields_statement hxs
      exact List.mem_singleton.1 hs ▸ hr
  exact List.forall_mem_map.1 each

theorem linkTrees_of_yields (h : (Peg.star (.seq Rule.infixOp Rule.operand)).Yields (ts.map ParseTree.rule)) :
    LinkTrees ts := by
  obtain ⟨parts, same, each⟩ := h
  induction parts generalizing ts with
  | nil =>
    obtain rfl : ts = [] := by simpa using same
    exact .nil
  | cons xs parts ih =>
    obtain ⟨_, _, rfl, sign, operand⟩ := each xs List.mem_cons_self
    obtain ⟨op, rfl⟩ := yields_infixOp sign
    obtain ⟨r, hr, rfl⟩ := yields_operand operand
    simp only [List.flatten_cons, List.cons_append, List.nil_append, List.map_eq_cons_iff] at same
    obtain ⟨o, us, rfl, ho, t, vs, rfl, ht, rest⟩ := same
    exact .cons ho (ht ▸ hr) (ih rest fun ys hys => each ys (List.mem_cons_of_mem _ hys))

end Yields

def Rule.parts : List Rule := Rule.statements ++ [.expression, .call, .primitiveType, .param, .paramList]

theorem shape_of_yields {r : Rule} {ts : List (ParseTree Rule)} (hr : r ∈ Rule.parts)
    (h : r.body.Yields (ts.map ParseTree.rule)) : Shape r ts := by
  cases r with
  | externDecl =>
    obtain ⟨_, _, rfl, hw, h⟩ := yields_rule_seq h
    obtain ⟨_, _, rfl, hw', h⟩ := yields_rule_seq h
    obtain ⟨_, _, rfl, hn, h⟩ := yields_rule_seq h
    obtain h | h := yields_opt_seq (yields_text_seq h)
    · obtain ⟨_, rfl, hr⟩ := yields_rule (yields_seq_text (yields_text_seq (yields_text_seq h)))
      exact .imported hw hw' hn hr
    · obtain ⟨_, _, rfl, hp, h⟩ := yields_rule_seq h
      obtain ⟨_, rfl, hr⟩ := yields_rule (yields_seq_text (yields_text_seq (yields_text_seq h)))
      exact .importedWith hw hw' hn hp hr
  | functionDecl =>
    obtain ⟨_, _, rfl, hw, h⟩ := yields_rule_seq h
    obtain ⟨_, _, rfl, hn, h⟩ := yields_rule_seq h
    obtain h | h := yields_opt_seq (yields_text_seq h)
    · obtain ⟨_, _, rfl, hr, h⟩ := yields_rule_seq (yields_text_seq (yields_text_seq h))
      obtain ⟨_, rfl, hb⟩ := yields_rule h
      exact .function hw hn hr hb
    · obtain ⟨_, _, rfl, hp, h⟩ := yields_rule_seq h
      obtain ⟨_, _, rfl, hr, h⟩ := yields_rule_seq (yields_text_seq (yields_text_seq h))
      obtain ⟨_, rfl, hb⟩ := yields_rule h
      exact .functionWith hw hn hp hr hb
  | whileStmt =>
    obtain ⟨_, _, rfl, hw, h⟩ := yields_rule_seq h
    obtain ⟨_, _, rfl, hc, h⟩ := yields_rule_seq (yields_text_seq h)
    obtain ⟨_, rfl, hb⟩ := yields_rule (yields_text_seq h)
    exact .while_ hw hc hb
  | ifStmt =>
    obtain ⟨_, _, rfl, hw, h⟩ := yields_rule_seq h
    obtain ⟨_, _, rfl, hc, h⟩ := yields_rule_seq (yields_text_seq h)
    obtain ⟨_, _, rfl, hy, none | h⟩ := yields_rule_seq (yields_text_seq h)
    · rw [List.map_eq_nil_iff.1 none]
      exact .ifThen hw hc hy
    · obtain ⟨_, _, rfl, hw', h⟩ := yields_rule_seq h
      obtain ⟨_, rfl, hn⟩ := yields_rule h
      exact .ifElse hw hc hy hw' hn
  | returnStmt =>
    obtain ⟨_, _, rfl, hw, h⟩ := yields_rule_seq h
    obtain ⟨_, rfl, hv⟩ := yields_rule (yields_seq_text h)
    exact .return_ hw hv
  | block => exact .block (yields_statements (yields_seq_text (yields_text_seq h)))
  | varDecl =>
    obtain ⟨_, _, rfl, hn, h⟩ := yields_rule_seq h
    obtain h | h := yields_seq_text h
    · obtain ⟨_, rfl, hi⟩ := yields_rule (yields_text_seq h)
      exact .inferred hn hi
    · obtain ⟨_, _, rfl, ht, none | h⟩ := yields_rule_seq (yields_text_seq h)
      · rw [List.map_eq_nil_iff.1 none]
        exact .declared hn ht
      · obtain ⟨_, rfl, hi⟩ := yields_rule (yields_text_seq h)
        exact .initialised hn ht hi
  | assign =>
    obtain ⟨_, _, rfl, ht, h⟩ := yields_rule_seq h
    obtain ⟨_, _, same, rfl, h⟩ := yields_text_seq h
    rw [List.nil_append] at same
    obtain ⟨_, rfl, hv⟩ := yields_rule (same ▸ yields_seq_text h)
    exact .assign ht hv
  | exprStmt =>
    obtain ⟨_, rfl, hv⟩ := yields_rule (yields_seq_text h)
    exact .exprStmt hv
  | expression =>
    obtain ⟨_, ys, same, first, links⟩ := h
    obtain ⟨r, hr, rfl⟩ := yields_operand first
    obtain ⟨t, us, rfl, ht, rfl⟩ := List.map_eq_cons_iff.1 same
    exact .expression (ht ▸ hr) (linkTrees_of_yields links)
  | call =>
    obtain ⟨_, _, rfl, hn, h⟩ := yields_rule_seq h
    obtain none | h := yields_seq_text (yields_text_seq h)
    · rw [List.map_eq_nil_iff.1 none]
      exact .call hn (by simp)
    · exact .call hn (yields_list h)
  | primitiveType =>
    obtain h | h | h := h
    · obtain ⟨_, rfl, ht⟩ := yields_rule h
      exact .primitiveType (ht ▸ rfl : _ = some .int)
    · obtain ⟨_, rfl, ht⟩ := yields_rule h
      exact .primitiveType (ht ▸ rfl : _ = some .string)
    · obtain ⟨_, rfl, ht⟩ := yields_rule h
      exact .primitiveType (ht ▸ rfl : _ = some .bool)
  | param =>
    obtain ⟨_, _, rfl, hn, h⟩ := yields_rule_seq h
    obtain ⟨_, rfl, ht⟩ := yields_rule (yields_text_seq h)
    exact .param hn ht
  | paramList => exact .paramList (yields_list h)
  | _ => simp [Rule.parts, Rule.statements] at hr

theorem Grown.shape {source : List Char} {r : Rule} {span : Span} {ts : List (ParseTree Rule)}
    (h : Grown source (.branch r span ts)) (hr : r ∈ Rule.parts) : Shape r ts :=
  shape_of_yields hr (h.yields (by revert hr; cases r <;> decide))

theorem exprsOf_eq_mapM (ts : List (ParseTree Rule)) : exprsOf ts = ts.mapM exprOf := by
  induction ts with
  | nil => rfl
  | cons t ts ih => rw [exprsOf, ih, List.mapM_cons]

theorem stmtsOf_eq_mapM (ts : List (ParseTree Rule)) : stmtsOf ts = ts.mapM stmtOf := by
  induction ts with
  | nil => rfl
  | cons t ts ih => rw [stmtsOf, ih, List.mapM_cons]

theorem lastBlockOf_cons_cons (span : Span) (t u : ParseTree Rule) (ts : List (ParseTree Rule)) :
    lastBlockOf span (t :: u :: ts) = lastBlockOf span (u :: ts) :=
  lastBlockOf.eq_4 span t u ts

theorem matches_program {source : List Char} {d : Cursor} {us : List (ParseTree Rule)}
    (h : Matches grammar .spaced (.rule .program) ⟨0, source⟩ (some (us, d))) :
    ∃ (ts : List (ParseTree Rule)) (last : Span),
      us = [.branch .program ⟨0, d.pos⟩ (ts ++ [.branch .endOfInput last []])] ∧ d.rest = [] ∧
      (∀ t ∈ ts, Grown source t ∧ t.rule ∈ Rule.statements) ∧ InOrder 0 (ts.map ParseTree.span) d.pos := by
  obtain ⟨us, rfl, body⟩ := matches_plain rfl h
  obtain ⟨xs, ys, c, rfl, start, rest⟩ := matches_seq body
  obtain ⟨ts, zs, e, rfl, items, last⟩ := matches_seq rest
  obtain ⟨ws, rfl, ends⟩ := matches_plain rfl last
  cases start
  cases ends with
  | atEnd done =>
    have first : Cursor.Leads ⟨0, source⟩ ⟨0, source⟩ := .refl _
    have moved : e.pos ≤ e.skip.pos := e.leads_skip.pos_le
    refine ⟨ts, _, rfl, done, fun t ht => ⟨grown_of_matches items rfl first.reached _ rfl t ht, ?_⟩, ?_⟩
    · exact yields_statements (items.built (by simp) _ rfl).1 t ht
    · exact items.inOrder.mono (Nat.zero_le _) moved

theorem filter_endOfInput {ts : List (ParseTree Rule)} (h : ∀ t ∈ ts, t.rule ∈ Rule.statements) (last : Span) :
    (ts ++ [ParseTree.branch Rule.endOfInput last []]).filter (fun t => t.rule ≠ .endOfInput) = ts := by
  rw [List.filter_append, List.filter_eq_self.2 fun t ht => ?_]
  · exact List.append_nil ts
  · have statement := h t ht
    simp only [ne_eq, decide_not, Bool.not_eq_true', decide_eq_false_iff_not]
    rintro same
    simp [same, Rule.statements] at statement

/-- A source is matched, and its program is what is read from the trees of its statements, or it is not matched. -/
theorem Program.parse_cases (source : String) :
    (∃ (ts : List (ParseTree Rule)) (last : Span) (d : Cursor),
      Matches grammar .spaced (.rule .program) ⟨0, source.toList⟩
        (some ([.branch .program ⟨0, source.utf8ByteSize⟩ (ts ++ [.branch .endOfInput last []])], d)) ∧
      (∀ t ∈ ts, Grown source.toList t ∧ t.rule ∈ Rule.statements) ∧
      InOrder 0 (ts.map ParseTree.span) source.utf8ByteSize ∧
      Program.parse source = stmtsOf ts >>= fun ss => pure ⟨ss, ⟨0, source.utf8ByteSize⟩⟩) ∨
    (Matches grammar .spaced (.rule .program) ⟨0, source.toList⟩ none ∧
      ∃ offset expected, Program.parse source = .error (.noMatch offset expected)) := by
  have run := Grammar.parse_matches grammarBounds .program source.toList
  cases ho : (grammar.parse .program source.toList).outcome with
  | none =>
    rw [ho] at run
    exact .inr ⟨run, _, _, by simp only [Program.parse, parseTree, ho]; rfl⟩
  | some x =>
    obtain ⟨us, d⟩ := x
    rw [ho] at run
    obtain ⟨ts, last, rfl, done, grown, order⟩ := matches_program run
    have size : d.pos = source.utf8ByteSize := by
      obtain ⟨w, text, pos⟩ := run.leads
      rw [done, List.append_nil] at text
      rw [pos, ← text, Nat.zero_add, utf8Length_toList]
    rw [size] at run order ho
    refine .inl ⟨ts, last, d, run, grown, order, ?_⟩
    rw [← filter_endOfInput (fun t ht => (grown t ht).2) last]
    simp only [Program.parse, parseTree, ho]
    rfl

end ImpWasm
