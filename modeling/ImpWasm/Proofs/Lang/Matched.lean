import ImpWasm.Proofs.Lang.Lexing
import ImpWasm.Proofs.Lang.Trees
import ImpWasm.Proofs.Lang.WellFormed
set_option autoImplicit false

namespace ImpWasm

open Peg (Mode ParseTree)
open Grammar (Matches Reads Refuses)

namespace Cursor

@[simp] theorem skip_skip (c : Cursor) : c.skip.skip = c.skip := by
  have same : c.skip.skip.rest = c.skip.rest := by
    have again := Mode.spaced.rest_skip c.skip
    have once := Mode.spaced.rest_skip c
    change c.skip.skip.rest = _ at again
    change c.skip.rest = _ at once
    rw [again, once, Mode.trim_trim]
  obtain ⟨w, text, pos⟩ := c.skip.leads_skip
  rw [same] at text
  obtain rfl : w = [] := by simpa using text
  exact ext pos same

end Cursor

section Expressions

variable {c d : Cursor} {ts : List (ParseTree Rule)} {p q : Peg Rule} {r : Rule}

theorem matches_text {w : List Char} {m : Mode} (h : Matches grammar m (.text w) c (some (ts, d))) :
    ts = [] ∧ c.Past w d := by
  cases h with
  | text text pos => exact ⟨rfl, text, pos⟩

theorem matches_seq (h : Matches grammar .spaced (.seq p q) c (some (ts, d))) :
    ∃ us vs e, ts = us ++ vs ∧ Matches grammar .spaced p c (some (us, e)) ∧
      Matches grammar .spaced q e.skip (some (vs, d)) := by
  cases h with
  | seq hp hq => exact ⟨_, _, _, rfl, hp, hq⟩

/-- A rule of plain kind leaves one tree, for what its body has matched. -/
theorem matches_plain (hk : r.kind = .plain) (h : Matches grammar .spaced (.rule r) c (some (ts, d))) :
    ∃ us, ts = [.branch r ⟨c.pos, d.pos⟩ us] ∧ Matches grammar .spaced r.body c (some (us, d)) := by
  cases h with
  | @rule _ _ _ _ us h =>
    refine ⟨us, ?_, ?_⟩
    · have branch : grammar.kind r ≠ .lexeme := by
        intro lexeme
        have plain : grammar.kind r = .plain := hk
        rw [plain] at lexeme
        cases lexeme
      exact congrArg (fun t => [t]) (grammar.tree_branch c d us branch)
    · rw [← enter_plain hk]
      exact h

theorem matches_lexeme (hk : r.kind = .lexeme) (h : Matches grammar .spaced (.rule r) c (some (ts, d))) :
    ∃ w, ts = [.leaf r ⟨c.pos, d.pos⟩ w] ∧ c.Past w d := by
  obtain ⟨w, past⟩ := h.leads.past
  refine ⟨w, ?_, past⟩
  cases h with
  | @rule _ _ _ _ us h =>
    refine congrArg (fun t => [t]) ((grammar.tree_lexeme c d us hk).trans ?_)
    rw [past.takeBytes]

theorem matches_star (h : Matches grammar .spaced (.star p) c (some (ts, d))) :
    (ts = [] ∧ d = c) ∨ ∃ us vs e d', ts = us ++ vs ∧ Matches grammar .spaced p c (some (us, e)) ∧
      Matches grammar .spaced (.star p) e.skip (some (vs, d')) ∧ d'.skip = d.skip := by
  cases h with
  | starNone _ => exact .inl ⟨rfl, rfl⟩
  | starLast ha hn => exact .inr ⟨ts, [], d, d.skip, (List.append_nil _).symm, ha, .starNone hn, d.skip_skip⟩
  | starMore ha _ hs => exact .inr ⟨_, _, _, d, rfl, ha, hs, rfl⟩

theorem matches_opt (h : Matches grammar .spaced (.opt p) c (some (ts, d))) :
    (ts = [] ∧ d = c) ∨ Matches grammar .spaced p c (some (ts, d)) := by
  cases h with
  | noOpt _ => exact .inl ⟨rfl, rfl⟩
  | opt h => exact .inr h

theorem matches_alts {ps : List (Peg Rule)} (h : Matches grammar .spaced (Peg.alts ps) c (some (ts, d))) :
    ∃ p ∈ ps, Matches grammar .spaced p c (some (ts, d)) := by
  induction ps with
  | nil =>
    cases h with
    | not h => cases h
  | cons p ps ih =>
    cases ps with
    | nil => exact ⟨p, List.mem_singleton_self p, h⟩
    | cons q ps =>
      cases h with
      | left h => exact ⟨p, List.mem_cons_self .., h⟩
      | right _ h =>
        obtain ⟨p', hp', h⟩ := ih h
        exact ⟨p', List.mem_cons_of_mem _ hp', h⟩

theorem Cursor.Past.of_reads {w k rest : List Char} (past : c.Past w d)
    (h : Matches grammar .spaced (.rule r) c (some ([.leaf r ⟨c.pos, d.pos⟩ w], d)))
    (read : Reads grammar .spaced (.rule r) k rest [.leaf r {} k]) (same : c.rest = k ++ rest) :
    w = k ∧ d.rest = rest := by
  obtain ⟨found, e, matched, bare, -⟩ := read c.pos
  rw [← same] at matched
  cases h.unique matched
  obtain rfl : w = k := by simpa [ParseTree.bareAll, ParseTree.bare] using bare
  exact ⟨rfl, List.append_cancel_left (past.text.symm.trans same)⟩

theorem matches_word (hr : WordRule r) (hk : r.kind = .lexeme)
    (h : Matches grammar .spaced (.rule r) c (some (ts, d))) :
    ∃ w, ts = [.leaf r ⟨c.pos, d.pos⟩ w] ∧ c.Past w d ∧ r.accepts w = true ∧
      ∀ b, Token d.rest b w (isOperandWord w) := by
  obtain ⟨w, rfl, past⟩ := matches_lexeme hk h
  cases ha : r.accepts (leadWord c.rest) with
  | false => cases h.unique (hr.refuses c.rest ha c.pos)
  | true =>
    obtain ⟨rest, same, stop⟩ := exists_leadWord c.rest
    obtain ⟨rfl, rfl⟩ := past.of_reads h (hr.reads _ rest ha stop) same
    obtain ⟨x, l, lead, start⟩ := hr.start _ ha
    have inside : ∀ y ∈ leadWord c.rest, isIdentChar y = true := List.all_eq_true.1 List.all_takeWhile
    refine ⟨_, rfl, past, ha, fun b => ?_⟩
    rw [lead] at inside ⊢
    exact .word start (List.forall_mem_cons.1 inside).2 stop

theorem matches_int (h : Matches grammar .spaced (.rule .intLiteral) c (some (ts, d))) :
    ∃ w, ts = [.leaf .intLiteral ⟨c.pos, d.pos⟩ w] ∧ c.Past w d ∧ Rule.accepts .intLiteral w = true ∧
      Token d.rest false w true := by
  obtain ⟨w, rfl, past⟩ := matches_lexeme rfl h
  refine ⟨w, rfl, past, ?_⟩
  obtain ⟨pos, cs⟩ := c
  cases cs with
  | nil => cases h.unique (Grammar.refuses_nil grammarBounds rfl pos)
  | cons x cs =>
    obtain ⟨k, t, rfl, hk, ht⟩ := exists_digits cs
    by_cases hx : isDigit x = true
    · obtain ⟨rfl, rest⟩ := past.of_reads h (reads_number (by simp) hx hk ht) rfl
      exact ⟨by simp [Rule.accepts, hx], rest ▸ .number hx hk ht⟩
    · by_cases hs : x = '-'
      · subst hs
        cases k with
        | nil => cases h.unique (refuses_minus ht pos)
        | cons y k =>
          obtain ⟨hy, hk⟩ := List.forall_mem_cons.1 hk
          obtain ⟨rfl, rest⟩ := past.of_reads h (reads_negative (by simp) hy hk ht) rfl
          exact ⟨by simp [Rule.accepts], rest ▸ .negative hy hk ht⟩
      · cases h.unique (refuses_int hs (by simpa using hx) pos)

theorem matches_infixOp (h : Matches grammar .spaced Rule.infixOp c (some (ts, d))) :
    ∃ (op : Operator) (t : ParseTree Rule), ts = [t] ∧ t.rule.operator? = some op ∧ c.Past op.chars d := by
  rw [infixOp_eq] at h
  obtain ⟨p, hp, h⟩ := matches_alts h
  obtain ⟨op, -, rfl⟩ := List.mem_map.1 hp
  obtain ⟨us, rfl, body⟩ := matches_plain op.kind_rule h
  have text : Matches grammar .spaced (.text op.chars) c (some (us, d)) := op.body_rule ▸ body
  exact ⟨op, _, rfl, op.operator?_rule, (matches_text text).2⟩

theorem matches_operand (h : Matches grammar .spaced Rule.operand c (some (ts, d))) :
    (∃ r ∈ [Rule.call, .boolLiteral, .intLiteral, .stringLiteral, .identifier],
      Matches grammar .spaced (.rule r) c (some (ts, d))) ∨
    ∃ o p, c.Past ['('] o ∧ Matches grammar .spaced (.rule .expression) o.skip (some (ts, p)) ∧
      p.skip.Past [')'] d := by
  obtain ⟨p, hp, h⟩ := matches_alts h
  simp only [List.mem_cons, List.not_mem_nil, or_false] at hp
  rcases hp with rfl | rfl | rfl | rfl | rfl | rfl
  · exact .inl ⟨_, by simp, h⟩
  · exact .inl ⟨_, by simp, h⟩
  · exact .inl ⟨_, by simp, h⟩
  · exact .inl ⟨_, by simp, h⟩
  · exact .inl ⟨_, by simp, h⟩
  · obtain ⟨us, vs, o, rfl, hopens, h⟩ := matches_seq h
    obtain ⟨xs, ys, p, rfl, inner, hcloses⟩ := matches_seq h
    obtain ⟨rfl, opens⟩ := matches_text hopens
    obtain ⟨rfl, closes⟩ := matches_text hcloses
    rw [List.nil_append, List.append_nil]
    exact .inr ⟨o, p, opens, inner, closes⟩

/-- A rule leaves one tree of its own. -/
theorem matches_rule_tree {r : Rule} (h : Matches grammar .spaced (.rule r) c (some (ts, d))) :
    ∃ t, ts = [t] ∧ t.rule = r := by
  cases h with
  | rule h => exact ⟨_, rfl, grammar.rule_tree _ _ _⟩

theorem rule_of_matches {r : Rule} {t : ParseTree Rule}
    (h : Matches grammar .spaced (.rule r) c (some ([t], d))) : t.rule = r := by
  obtain ⟨u, same, rule⟩ := matches_rule_tree h
  cases same
  exact rule

theorem matches_operand_tree (h : Matches grammar .spaced Rule.operand c (some (ts, d))) : ∃ t, ts = [t] := by
  obtain ⟨r, -, h⟩ | ⟨o, p, -, h, -⟩ := matches_operand h
  · obtain ⟨t, rfl, -⟩ := matches_rule_tree h
    exact ⟨t, rfl⟩
  · obtain ⟨t, rfl, -⟩ := matches_rule_tree h
    exact ⟨t, rfl⟩

theorem matches_call (h : Matches grammar .spaced (.rule .call) c (some (ts, d))) :
    ∃ (n : Cursor) (w : List Char) (us : List (ParseTree Rule)) (o p : Cursor),
      ts = [.branch .call ⟨c.pos, d.pos⟩ (.leaf .identifier ⟨c.pos, n.pos⟩ w :: us)] ∧ isName w = true ∧
      c.Past w n ∧ Token n.rest false w true ∧ n.skip.Past ['('] o ∧
      Matches grammar .spaced
        (.opt (.seq (.rule .expression) (.star (.seq (.text [',']) (.rule .expression))))) o.skip (some (us, p)) ∧
      p.skip.Past [')'] d := by
  obtain ⟨us, rfl, body⟩ := matches_plain rfl h
  obtain ⟨us, vs, n, rfl, hname, body⟩ := matches_seq body
  obtain ⟨xs, ys, o, rfl, hopens, body⟩ := matches_seq body
  obtain ⟨zs, ws, p, rfl, inner, hcloses⟩ := matches_seq body
  obtain ⟨rfl, opens⟩ := matches_text hopens
  obtain ⟨rfl, closes⟩ := matches_text hcloses
  obtain ⟨w, rfl, text, name, token⟩ := matches_word wordRule_identifier rfl hname
  have name : isName w = true := name
  have token : Token n.rest false w true := by simpa [isOperandWord, name] using token false
  refine ⟨n, w, zs, o, p, by simp, name, text, token, opens, inner, closes⟩

theorem matches_link (h : Matches grammar .spaced (.seq Rule.infixOp Rule.operand) c (some (ts, d))) :
    ∃ (op : Operator) (t u : ParseTree Rule) (o : Cursor), ts = [t, u] ∧ t.rule.operator? = some op ∧
      c.Past op.chars o ∧ Matches grammar .spaced Rule.operand o.skip (some ([u], d)) := by
  obtain ⟨us, vs, o, rfl, hsign, hoperand⟩ := matches_seq h
  obtain ⟨op, t, rfl, rule, sign⟩ := matches_infixOp hsign
  obtain ⟨u, rfl⟩ := matches_operand_tree hoperand
  exact ⟨op, t, u, o, rfl, rule, sign, hoperand⟩

theorem matches_nextArgument
    (h : Matches grammar .spaced (.seq (.text [',']) (.rule .expression)) c (some (ts, d))) :
    ∃ (t : ParseTree Rule) (o : Cursor), ts = [t] ∧ c.Past [','] o ∧
      Matches grammar .spaced (.rule .expression) o.skip (some ([t], d)) := by
  obtain ⟨us, vs, o, rfl, hcomma, first⟩ := matches_seq h
  obtain ⟨rfl, comma⟩ := matches_text hcomma
  obtain ⟨t, rfl, -⟩ := matches_rule_tree first
  exact ⟨t, o, rfl, comma, first⟩

theorem matches_expression (h : Matches grammar .spaced (.rule .expression) c (some (ts, d))) :
    ∃ (t : ParseTree Rule) (us : List (ParseTree Rule)) (p : Cursor),
      ts = [.branch .expression ⟨c.pos, d.pos⟩ (t :: us)] ∧
      Matches grammar .spaced Rule.operand c (some ([t], p)) ∧
      Matches grammar .spaced (.star (.seq Rule.infixOp Rule.operand)) p.skip (some (us, d)) := by
  obtain ⟨us, rfl, body⟩ := matches_plain rfl h
  obtain ⟨us, vs, p, rfl, first, links⟩ := matches_seq body
  obtain ⟨t, rfl⟩ := matches_operand_tree first
  exact ⟨t, vs, p, rfl, first, links⟩

end Expressions

end ImpWasm
